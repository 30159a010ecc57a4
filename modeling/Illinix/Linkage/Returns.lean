/-
# Linkage.Returns -- interrupts and the ways back

An interrupt makes `Suspended` of `Runs` (`Runs.suspend`, `Runs.leave`), and
resuming the frame pointer makes `Runs` of that again, with the registers as they
were (`Suspended.resume`).  A handler that returns goes back to the registers it
came with (`Runs.back`), and a system call to those of the thread with its result
(`callDone_eq`).
-/
import Illinix.Linkage.Frames

namespace Illinix.Linkage

open Illinix.Kernel Illinix.Theory Illinix.Interrupt

set_option autoImplicit false

/-! ## Interrupts -/

/-- The kernel has gone on from `c` to `c'` on the stack of `p`, from `top` down. -/
structure Grown (p top : Nat) (c c' : Core) : Prop where
  machine : c'.machine = c.machine
  code : c'.code = c.code
  low : c'.cpu.esp ≤ top
  above : ∀ x, top ≤ x → c'.mem x = c.mem x
  others : ∀ x, ¬OnStack p x → c'.mem x = c.mem x

/-- An interrupt of process `p` has come as far as the C code of its handler. -/
structure Interrupted (c c' : Core) (p back : Nat) : Prop where
  machine : c'.machine = c.machine
  code : c'.code = c.code
  cs : c'.cpu.cs = kernelCs
  ss : c'.cpu.ss = kernelDs
  low : c'.cpu.esp ≤ c'.cpu.regs.ebp
  back : c'.mem (c'.cpu.regs.ebp + 4) = back
  saved : Holds c'.mem (c'.cpu.regs.ebp + 8) c.cpu.words
  level : c'.cpu.regs.ebp + 8 + 4 * c.cpu.words.length = c.cpu.level p
  above : ∀ x, c.cpu.level p ≤ x → c'.mem x = c.mem x
  others : ∀ x, ¬OnStack p x → c'.mem x = c.mem x

section

variable {l : Layout} {c : Core} {p : Nat} {t : Thread}

theorem stackTop_off {p x : Nat} (inside : p < maxProcess) (off : ¬OnStack p x) :
    x < pcbAddr p ∨ stackTop p ≤ x := by
  by_contra on
  exact off ⟨inside, by omega, by omega⟩

/-- Pushing on one stack leaves the others alone. -/
theorem pushes_others {mem : Nat → Nat} {top x : Nat} {ws : List Nat} (inside : p < maxProcess)
    (high : top ≤ stackTop p) (low : pcbAddr p + 4 * ws.length ≤ top) (off : ¬OnStack p x) :
    (Stack.pushes ⟨mem, top⟩ ws).mem x = mem x := by
  rcases stackTop_off inside off with below | above
  · apply Stack.pushes_below
    rw [Stack.pushes_top]
    change x < top - _
    omega
  · apply Stack.pushes_above ws ⟨mem, top⟩
    · change _ ≤ top
      omega
    · change top ≤ x
      omega

theorem body_above (c : Core) (s : Scratch) {x : Nat} (above : c.cpu.regs.ebp ≤ x) :
    (c.body s).mem x = c.mem x := if_neg fun both => Nat.not_lt.2 above both.2

theorem body_others {c : Core} {s : Scratch} {x : Nat} (on : OnStack p c.cpu.regs.ebp)
    (off : ¬OnStack p x) : (c.body s).mem x = c.mem x := by
  refine if_neg fun both => off ?_
  rw [onStack_iff] at on ⊢
  exact ⟨on.1, both.1.trans on.2⟩

namespace Grown

variable {top : Nat} {c' : Core}

theorem refl (low : c.cpu.esp ≤ top) : Grown p top c c :=
  ⟨rfl, rfl, low, fun _ _ => rfl, fun _ _ => rfl⟩

theorem pushAll (grown : Grown p top c c') (inside : p < maxProcess) (high : top ≤ stackTop p)
    (ws : List Nat) (floor : pcbAddr p + 4 * ws.length ≤ c'.cpu.esp) :
    Grown p top c (c'.pushAll ws) := by
  have low := grown.low
  have pushed := Stack.pushes_top ws ⟨c'.mem, c'.cpu.esp⟩
  refine ⟨grown.machine, grown.code, ?_, fun x above => ?_, fun x off => ?_⟩
  · change (Stack.pushes ⟨c'.mem, c'.cpu.esp⟩ ws).top ≤ top
    rw [pushed]
    exact (Nat.sub_le ..).trans low
  · refine (Stack.pushes_above ws ⟨c'.mem, c'.cpu.esp⟩ ?_ x (low.trans above)).trans (grown.above x above)
    exact (Nat.le_add_left ..).trans floor
  · exact (pushes_others inside (low.trans high) floor off).trans (grown.others x off)

theorem trap {c : Core} {p : Nat} (inside : p < maxProcess) (high : c.level ≤ stackTop p)
    (floor : pcbAddr p + 4 * c.cpu.trapWords.length ≤ c.level) : Grown p c.level c c.trap := by
  have top := Stack.pushes_top c.cpu.trapWords.reverse ⟨c.mem, c.level⟩
  rw [← List.length_reverse] at floor
  rw [Core.trap_eq]
  refine ⟨rfl, rfl, top.trans_le (Nat.sub_le ..), fun x above => ?_, fun x off => ?_⟩
  · exact Stack.pushes_above _ ⟨c.mem, c.level⟩ ((Nat.le_add_left ..).trans floor) x above
  · exact pushes_others inside high floor off

theorem pushl (grown : Grown p top c c') (inside : p < maxProcess) (high : top ≤ stackTop p)
    (w : Nat) (floor : pcbAddr p + 4 ≤ c'.cpu.esp) : Grown p top c (c'.pushl w) :=
  grown.pushAll inside high [w] floor

theorem body (grown : Grown p top c c') (s : Scratch) (on : OnStack p c'.cpu.regs.ebp)
    (low : c'.cpu.regs.ebp ≤ top) : Grown p top c (c'.body s) := by
  refine ⟨grown.machine, grown.code, (Nat.sub_le ..).trans low, fun x above => ?_, fun x off => ?_⟩
  · exact (body_above c' s (low.trans above)).trans (grown.above x above)
  · exact (body_others on off).trans (grown.others x off)

/-- A C function with its frame. -/
theorem entered (grown : Grown p top c c') (inside : p < maxProcess) (high : top ≤ stackTop p)
    (s : Scratch) (floor : pcbAddr p + 4 ≤ c'.cpu.esp) : Grown p top c (c'.prologue.body s) := by
  have low := grown.low
  have pushed : Grown p top c c'.prologue := by
    have push := grown.pushl inside high c'.cpu.regs.ebp floor
    exact ⟨push.machine, push.code, push.low, push.above, push.others⟩
  have ebp : c'.prologue.cpu.regs.ebp = c'.cpu.esp - 4 := rfl
  apply pushed.body s
  · rw [ebp]
    exact ⟨inside, by omega, by omega⟩
  · rw [ebp]
    exact (Nat.sub_le ..).trans low

/-- `halt` on the stack of the process that is to be halted, above whose frame there
is room. -/
theorem toBeHalt {frame : Nat} (saved : SavedFrame p frame) (s : Scratch)
    (same : (c.toBeHalt l frame s).cpu.regs.ebp / kernelStackSize = frame / kernelStackSize) :
    Grown p (frame + 4) c (c.toBeHalt l frame s) := by
  obtain ⟨on, room⟩ := saved
  have inside := on.1
  have ebp : (c.toBeHalt l frame s).cpu.regs.ebp = frame + 4 - 4 - 4 - 4 := rfl
  have page := (onStack_iff.1 on).2
  rw [ebp] at same
  have floor : pcbAddr p + 8 ≤ frame := by
    simp only [pcbAddr, kernelStack, kernelStackSize, maxProcess] at same page inside ⊢
    omega
  have high : frame + 4 ≤ stackTop p := by
    simp only [stackTop, kernelStack, kernelStackSize, shellFrame, trapFrame, maxProcess] at page room inside ⊢
    omega
  have start : Grown p (frame + 4) c { c with cpu := { c.cpu with
      esp := frame + 4, regs := { c.cpu.regs with ebp := c.mem frame } } } :=
    ⟨rfl, rfl, Nat.le_refl _, fun _ _ => rfl, fun _ _ => rfl⟩
  have called := (start.pushl inside high 6 (by change _ ≤ frame + 4; omega)).pushl inside high
    l.haltReturn (by change _ ≤ frame + 4 - 4; omega)
  exact called.entered inside high s (by change _ ≤ frame + 4 - 4 - 4; omega)

end Grown

theorem interrupted {back : Nat} (s : Scratch) (top : c.machine.tssEsp0 = stackTop p)
    (ss : c.cpu.user = false → c.cpu.ss = kernelDs) (high : c.cpu.level p ≤ stackTop p)
    (cs : c.cpu.user = false → c.cpu.cs = kernelCs)
    (on : OnStack p (c.interrupt back).cpu.regs.ebp) :
    Interrupted c ((c.interrupt back).body s) p back := by
  have level : c.level = c.cpu.level p := by rw [Core.level, Cpu.level, top]
  have pushed := Stack.pushes_top (c.cpu.words.reverse ++ [back, c.cpu.regs.ebp]) ⟨c.mem, c.level⟩
  have held := Stack.pushes_holds (c.cpu.words.reverse ++ [back, c.cpu.regs.ebp]) ⟨c.mem, c.level⟩
  have kept := Stack.pushes_above (c.cpu.words.reverse ++ [back, c.cpu.regs.ebp]) ⟨c.mem, c.level⟩
  have under := Stack.pushes_below (c.cpu.words.reverse ++ [back, c.cpu.regs.ebp]) ⟨c.mem, c.level⟩
  have ebp : (c.interrupt back).cpu.regs.ebp = (c.interruptStack back).top := by
    rw [Core.interrupt_eq]
  have mem : (c.interrupt back).mem = (c.interruptStack back).mem := by
    rw [Core.interrupt_eq]
  have inside := on.1
  simp only [List.length_append, List.length_reverse, List.length_cons, List.length_nil] at pushed held kept
  change (c.interruptStack back).top = c.level - _ at pushed
  change _ → Holds (c.interruptStack back).mem (c.interruptStack back).top _ at held
  change _ → ∀ x, c.level ≤ x → (c.interruptStack back).mem x = c.mem x at kept
  change ∀ x, x < (c.interruptStack back).top → (c.interruptStack back).mem x = c.mem x at under
  have room : 4 * (c.cpu.words.length + (0 + 1 + 1)) ≤ c.level := by
    have positive : 0 < (c.interruptStack back).top := by
      rw [← ebp]
      have low := on.2.1
      simp only [pcbAddr, kernelStack, kernelStackSize, maxProcess] at low inside
      omega
    omega
  have held := held room
  have kept := kept room
  rw [List.reverse_append, List.reverse_reverse] at held
  obtain ⟨-, found, saved⟩ := held
  have low : pcbAddr p ≤ (c.interruptStack back).top := ebp ▸ on.2.1
  have same : ∀ x, (c.interruptStack back).top ≤ x →
      ((c.interrupt back).body s).mem x = (c.interruptStack back).mem x := fun x above => by
    rw [body_above _ _ (ebp.trans_le above), mem]
  have mode : ((c.interrupt back).body s).cpu.cs = kernelCs := by
    rw [Core.interrupt_eq]
    change (if c.cpu.user then kernelCs else c.cpu.cs) = kernelCs
    split_ifs with from'
    · rfl
    · exact cs (by simpa using from')
  have segment : ((c.interrupt back).body s).cpu.ss = kernelDs := by
    rw [Core.interrupt_eq]
    change (if c.cpu.user then kernelDs else c.cpu.ss) = kernelDs
    split_ifs with from'
    · rfl
    · exact ss (by simpa using from')
  have frame : ((c.interrupt back).body s).cpu.regs.ebp = (c.interruptStack back).top := ebp
  refine ⟨by rw [Core.interrupt_eq]; rfl, by rw [Core.interrupt_eq]; rfl, mode, segment,
    Nat.sub_le .., ?_, ?_, ?_, fun x above => ?_, fun x off => ?_⟩
  · rw [frame, same _ (Nat.le_add_right ..)]
    exact found
  · rw [frame]
    exact Holds.congr saved fun x above _ => same x (by omega)
  · rw [frame, ← level]
    omega
  · rw [same x (by omega)]
    exact kept x (level.trans_le above)
  · rw [body_others on off, mem]
    rcases stackTop_off inside off with below | above
    · exact under x (by omega)
    · exact kept x (by omega)

/-- The core with the registers `cpu`, in user mode if they are. -/
def Core.at (c : Core) (cpu : Cpu) : Core :=
  { c with machine := { c.machine with userMode := c.machine.userMode || cpu.user }, cpu := cpu }

theorem outward_outward (r : Regs) : r.outward.outward = r.outward := by
  have idem : ∀ s, outward (outward s) = outward s := by
    intro s
    simp only [outward]
    split_ifs <;> simp_all [kernelCs, kernelDs]
  simp only [Regs.outward, idem]

/-- A thread in user code has the registers of its user part. -/
theorem Runs.userCpu {mem : Nat → Nat} {code : Nat → Progress} {cpu : Cpu}
    (runs : Runs l mem code p t cpu) (user : cpu.user = true) :
    UserCpu cpu ∧ t.owing = false ∧ t.inside = none ∧ t.user = cpu := by
  have free : t.owing = false := by
    by_contra owing
    exact nomatch (kernel_not_user (runs.handler (by simpa using owing)).1).symm.trans user
  have plain := runs.plain free
  cases inside : t.inside with
  | none =>
      rw [Thread.cpu_outside inside] at plain
      exact ⟨plain ▸ runs.rests.user, free, rfl, plain.symm⟩
  | some k =>
      rw [Thread.cpu_inside inside] at plain
      have cs := (runs.rests.inside k inside).cs
      rw [← plain] at cs
      exact nomatch (kernel_not_user cs).symm.trans user

theorem Runs.kernel {mem : Nat → Nat} {code : Nat → Progress} {cpu : Cpu}
    (runs : Runs l mem code p t cpu) (kernel : cpu.user = false) :
    cpu.cs = kernelCs ∧ cpu.ss = kernelDs := by
  cases owing : t.owing with
  | true =>
      obtain ⟨cs, ss, _⟩ := runs.handler owing
      exact ⟨cs, ss⟩
  | false =>
      have plain := runs.plain owing
      cases inside : t.inside with
      | none =>
          rw [Thread.cpu_outside inside] at plain
          rw [plain, runs.rests.user.1] at kernel
          exact nomatch kernel
      | some k =>
          have call := runs.rests.inside k inside
          rw [Thread.cpu_inside inside] at plain
          rw [plain]
          exact ⟨call.cs, call.ss⟩

/-- Behind `switch_terminal` the thread is in `keyboard_handler`. -/
theorem Runs.in_keyboard {mem : Nat → Nat} {code : Nat → Progress} {cpu : Cpu}
    (runs : Runs l mem code p t cpu) (kernel : cpu.user = false) (eip : cpu.eip = l.switchReturn) :
    t.owing = true := by
  by_contra free
  have plain := runs.plain (by simpa using free)
  cases inside : t.inside with
  | none =>
      rw [Thread.cpu_outside inside] at plain
      rw [plain, runs.rests.user.1] at kernel
      exact nomatch kernel
  | some k =>
      rw [Thread.cpu_inside inside] at plain
      exact (runs.rests.inside k inside).elsewhere (plain ▸ eip)

/-- Elsewhere in the kernel it is in a system call. -/
theorem Runs.in_call {mem : Nat → Nat} {code : Nat → Progress} {cpu : Cpu}
    (runs : Runs l mem code p t cpu) (kernel : cpu.user = false) (eip : cpu.eip ≠ l.switchReturn) :
    t.owing = false ∧ ∃ k, t.inside = some k ∧ k.cpu = cpu := by
  have free : t.owing = false := by
    by_contra owing
    exact eip (runs.handler (by simpa using owing)).2.2.1
  have plain := runs.plain free
  cases inside : t.inside with
  | none =>
      rw [Thread.cpu_outside inside] at plain
      rw [plain, runs.rests.user.1] at kernel
      exact nomatch kernel
  | some k =>
      rw [Thread.cpu_inside inside] at plain
      exact ⟨free, k, rfl, plain.symm⟩

/-- Behind `switch_terminal` only, the thread is in `keyboard_handler`. -/
theorem Runs.free {mem : Nat → Nat} {code : Nat → Progress} {cpu : Cpu}
    (runs : Runs l mem code p t cpu) (elsewhere : cpu.user = true ∨ cpu.eip ≠ l.switchReturn) :
    t.owing = false := by
  by_contra owing
  obtain ⟨cs, _, eip, _⟩ := runs.handler (by simpa using owing)
  rcases elsewhere with user | other
  · exact nomatch (kernel_not_user cs).symm.trans user
  · exact other eip

/-- The words of a running thread that an interrupt has saved fit at their place. -/
theorem Runs.fits {mem : Nat → Nat} {code : Nat → Progress} {cpu : Cpu}
    (runs : Runs l mem code p t cpu) (ss : c.cpu.ss = kernelDs)
    (level : c.cpu.esp + 4 * cpu.words.length = cpu.level p) : c.Fits cpu := by
  refine ⟨fun user => (runs.userCpu user).1.2, fun kernel => ?_, fun kernel => ?_⟩
  · rw [level, Cpu.level, kernel]
    rfl
  · rw [ss, (runs.kernel kernel).2]

/-- A thread that was interrupted goes on. -/
theorem Runs.back {cpu : Cpu} {ebp : Nat} (runs : Runs l c.mem c.code p t cpu)
    (back : c.mem (ebp + 4) = l.pitReturn ∨ c.mem (ebp + 4) = l.keyboardReturn ∨
      c.mem (ebp + 4) = l.rtcReturn) (saved : Holds c.mem (ebp + 8) cpu.words)
    (level : ebp + 8 + 4 * cpu.words.length = cpu.level p) (ss : c.cpu.ss = kernelDs) :
    (c.leaveRet ebp).arrive l = some (c.at cpu) := by
  rw [Core.leaveRet_eq, arrive_wrapper back, Core.restore_iret (x := cpu) saved]
  · rfl
  · exact runs.fits ss level

/-- **A suspended thread goes on as it was.** -/
theorem Suspended.resume {ebp : Nat} (suspended : Suspended l c.mem c.code p t ebp)
    (cs : c.cpu.cs = kernelCs) (ss : c.cpu.ss = kernelDs) : ∃ cpu,
      (c.leaveRet ebp).arrive l = some (c.at cpu) ∧ Runs l c.mem c.code p (t.begun cpu.regs) cpu := by
  cases suspended with
  | fresh never free outside back saved level user =>
      let regs := { c.cpu.regs with ebp := c.mem ebp }.outward
      have begun : t.begun regs = { t with user := { t.user with regs := regs }, fresh := false } :=
        if_pos never
      rw [Core.leaveRet_eq, arrive_iretExec back, Core.iret_eq (x := t.user) saved]
      refine ⟨{ t.user with regs := regs }, ?_, ?_⟩
      · have mode : Cpu.user { t.user with regs := regs } = true := user
        simp only [Core.at, mode, user, if_true]
        rfl
      · change Runs l c.mem c.code p (t.begun regs) _
        rw [begun]
        have cpu : Thread.cpu { t with user := { t.user with regs := regs }, fresh := false } =
            { t.user with regs := regs } := Thread.cpu_outside outside
        refine ⟨⟨⟨user, outward_outward _⟩, fun k inside => ?_⟩, rfl, fun _ => cpu.symm, fun owing => ?_⟩
        · exact nomatch outside.symm.trans inside
        · exact nomatch free.symm.trans owing
  | tick cpu back saved level runs =>
      have begun : t.begun cpu.regs = t := by rw [Thread.begun, runs.ran]; rfl
      exact ⟨cpu, runs.back (Or.inl back) saved level ss, begun.symm ▸ runs⟩
  | left ran owing back floor below handler rests =>
      have begun : ∀ regs, t.begun regs = t := fun regs => by rw [Thread.begun, ran]; rfl
      rw [Core.leaveRet_eq, arrive_switch back]
      refine ⟨{ c.cpu with
        regs := { c.cpu.regs with ebp := c.mem ebp }, esp := ebp + 8, eip := c.mem (ebp + 4) }, ?_, ?_⟩
      · have kernel : c.cpu.cs % 4 ≠ 3 := by rw [cs]; decide
        simp [Core.at, Cpu.user, kernel]
      · rw [begun]
        refine ⟨rests, ran, fun free => ?_, fun _ =>
          ⟨cs, ss, back, floor.trans (Nat.le_add_right ..), below, handler⟩⟩
        exact nomatch free.symm.trans owing

/-! ## Leaving a thread -/

variable {c' : Core}

theorem Runs.kept (runs : Runs l c.mem c.code p t c.cpu) {back : Nat}
    (interrupted : Interrupted c c' p back) (inside : p < maxProcess) :
    Runs l c'.mem c'.code p t c.cpu :=
  runs.congr inside (fun x above _ => interrupted.above x above) (congrFun interrupted.code p)

/-- **A tick suspends** the running thread. -/
theorem Runs.suspend (runs : Runs l c.mem c.code p t c.cpu)
    (interrupted : Interrupted c c' p l.pitReturn) (inside : p < maxProcess) :
    Suspended l c'.mem c'.code p t c'.cpu.regs.ebp :=
  .tick c.cpu interrupted.back interrupted.saved interrupted.level (runs.kept interrupted inside)

/-- **A terminal switch suspends** the running thread in `keyboard_handler`. -/
theorem Runs.leave (runs : Runs l c.mem c.code p t c.cpu) (free : t.owing = false)
    (interrupted : Interrupted c c' p l.keyboardReturn) (inside : p < maxProcess) (s : Scratch)
    (floor : pcbAddr p ≤ c'.cpu.esp - 4 - 4) :
    Suspended l ((c'.call l.switchReturn).body s).mem ((c'.call l.switchReturn).body s).code p
      { t with owing := true } ((c'.call l.switchReturn).body s).cpu.regs.ebp := by
  have low := interrupted.low
  have level := interrupted.level
  have kept := runs.kept interrupted inside
  have plain := runs.plain free
  have high := kept.rests.level_le inside
  have room : 8 ≤ c'.cpu.esp := by
    simp only [pcbAddr, kernelStack, kernelStackSize, maxProcess] at floor inside
    omega
  have ebp : ((c'.call l.switchReturn).body s).cpu.regs.ebp = c'.cpu.esp - 4 - 4 := rfl
  have above : ∀ x, c'.cpu.esp - 4 - 4 ≤ x → ((c'.call l.switchReturn).body s).mem x =
      (c'.call l.switchReturn).mem x := fun x above => body_above _ _ above
  have mem : (c'.call l.switchReturn).mem = Function.update (Function.update c'.mem
      (c'.cpu.esp - 4) l.switchReturn) (c'.cpu.esp - 4 - 4) c'.cpu.regs.ebp := rfl
  have back : ((c'.call l.switchReturn).body s).mem (c'.cpu.esp - 4 - 4 + 4) = l.switchReturn := by
    rw [above _ (Nat.le_add_right ..), mem, Function.update_of_ne (by omega),
      show c'.cpu.esp - 4 - 4 + 4 = c'.cpu.esp - 4 by omega, Function.update_self]
  have frame : ((c'.call l.switchReturn).body s).mem (c'.cpu.esp - 4 - 4) = c'.cpu.regs.ebp := by
    rw [above _ (Nat.le_refl _), mem, Function.update_self]
  have same : ∀ x, c'.cpu.esp ≤ x → ((c'.call l.switchReturn).body s).mem x = c'.mem x := by
    intro x high
    rw [above _ (by omega), mem, Function.update_of_ne (by omega), Function.update_of_ne (by omega)]
  rw [ebp]
  rw [plain] at level
  have handler : InHandler l c'.mem p { t with owing := true } c'.cpu.regs.ebp :=
    ⟨interrupted.back, plain ▸ interrupted.saved, level⟩
  refine .left kept.ran rfl back floor ?_ ?_ ?_
  · rw [frame]
    omega
  · rw [frame]
    exact handler.congr high fun x above _ => same x (low.trans above)
  · have rests : Rests l c'.mem c'.code p { t with owing := true } :=
      ⟨kept.rests.user, kept.rests.inside⟩
    refine rests.congr inside (fun x above _ => same x ?_) rfl
    change t.cpu.level p ≤ x at above
    omega

/-! ## System calls -/

theorem UserCpu.setEax {user : Cpu} (may : UserCpu user) (v : Nat) : UserCpu (user.setEax v) := by
  obtain ⟨mode, same⟩ := may
  refine ⟨mode, ?_⟩
  change { user.regs.outward with eax := v } = { user.regs with eax := v }
  rw [same]

/-- **A system call returns** to the registers it came with, but for `eax`. -/
theorem callDone_eq {user : Cpu} (holds : Holds c.mem c.cpu.esp user.words) (may : UserCpu user) :
    c.systemCallDone = c.at (user.setEax c.cpu.regs.eax) := by
  have after := may.setEax c.cpu.regs.eax
  obtain ⟨regs, trap⟩ := (holds_append _ _ _).1 holds
  rw [Core.systemCallDone, Core.restoreContextSyscall_eq regs, Core.iret_eq (x := user) trap]
  simp only [Core.at, after.1, may.1, if_true]
  have same : { user.regs with eax := c.cpu.regs.eax }.outward =
      { user.regs with eax := c.cpu.regs.eax } := after.2
  rw [same]
  rfl

/-- A thread in user code runs with its registers, whatever its stack holds. -/
theorem runs_user {mem : Nat → Nat} {code : Nat → Progress} (outside : t.inside = none)
    (free : t.owing = false) (ran : t.fresh = false) (may : UserCpu t.user) :
    Runs l mem code p t t.user where
  rests := ⟨may, fun _ inside => nomatch outside.symm.trans inside⟩
  ran := ran
  plain _ := (Thread.cpu_outside outside).symm
  handler owing := nomatch free.symm.trans owing

end

end Illinix.Linkage
