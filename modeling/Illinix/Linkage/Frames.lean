/-
# Linkage.Frames -- threads on kernel stacks

How the parts of a thread lie on its process's kernel stack: `Runs` while it runs,
`Suspended` while another one does, and `Waiting` while it waits in `execute`.

Each is a matter of the process's own stack (`Suspended.congr`), so what the others
do with theirs is all one.
-/
import Illinix.Linkage.Core

namespace Illinix.Linkage

open Illinix.Kernel Illinix.Theory Illinix.Interrupt

set_option autoImplicit false

/-! ## What the assembly does -/

/-- Where the next trap goes on the kernel stack of process `p`. -/
def Cpu.level (p : Nat) (c : Cpu) : Nat := if c.user then stackTop p else c.esp

namespace Core

variable {c : Core}

/-- Where the next trap goes. -/
def level (c : Core) : Nat := if c.cpu.user then c.machine.tssEsp0 else c.cpu.esp

/-- The stack once a wrapper has called its handler. -/
def interruptStack (c : Core) (back : Nat) : Stack Nat :=
  Stack.pushes ⟨c.mem, c.level⟩ (c.cpu.words.reverse ++ [back, c.cpu.regs.ebp])

theorem trap_eq (c : Core) : c.trap = { c with
    mem := (Stack.pushes ⟨c.mem, c.level⟩ c.cpu.trapWords.reverse).mem
    cpu := { c.cpu with
      esp := (Stack.pushes ⟨c.mem, c.level⟩ c.cpu.trapWords.reverse).top
      cs := if c.cpu.user then kernelCs else c.cpu.cs
      ss := if c.cpu.user then kernelDs else c.cpu.ss } } := by
  cases mode : c.cpu.user <;>
    simp [trap, pushAll, withStack, stack, level, Cpu.trapWords, Stack.pushes, Stack.push, mode]

theorem saveContext_eq (c : Core) : c.trap.saveContext = { c with
    mem := (Stack.pushes ⟨c.mem, c.level⟩ c.cpu.words.reverse).mem
    cpu := { c.cpu with
      esp := (Stack.pushes ⟨c.mem, c.level⟩ c.cpu.words.reverse).top
      cs := if c.cpu.user then kernelCs else c.cpu.cs
      ss := if c.cpu.user then kernelDs else c.cpu.ss } } := by
  rw [trap_eq, Cpu.words, List.reverse_append, Stack.pushes_append]
  rfl

/-- **The dispatch**: the arguments on the saved words, and the entry of the table. -/
theorem systemCallWrapper_listed (l : Layout) (mode : c.cpu.user = true)
    (listed : c.cpu.regs.Listed) {s : Stack Nat} (whole : s = Stack.pushes ⟨c.mem, c.level⟩
      (c.cpu.words.reverse ++ [c.cpu.regs.edx, c.cpu.regs.ecx, c.cpu.regs.ebx, l.callReturn])) :
    c.systemCallWrapper l = { c with
      mem := s.mem
      cpu := {
        regs := { c.cpu.regs with ds := kernelDs }
        esp := s.top
        eip := l.entry c.cpu.regs.eax
        cs := kernelCs
        ss := kernelDs
        eflags := c.cpu.eflags } } := by
  subst whole
  rw [Stack.pushes_append, systemCallWrapper, saveContext_eq]
  simp [listed, dispatch, pushAll, withStack, stack, mode]

theorem systemCallWrapper_refused (l : Layout) (refused : ¬c.cpu.regs.Listed) :
    c.systemCallWrapper l = { c.trap.saveContext with cpu := { c.trap.saveContext.cpu with
      regs := { c.trap.saveContext.cpu.regs with eax := 2 ^ 32 - 1 } } }.systemCallDone := by
  rw [systemCallWrapper, if_neg]
  rw [saveContext_eq]
  exact refused

theorem interrupt_eq (c : Core) (back : Nat) : c.interrupt back = { c with
    mem := (c.interruptStack back).mem
    cpu := { c.cpu with
      regs := { c.cpu.regs with ebp := (c.interruptStack back).top }
      esp := (c.interruptStack back).top
      cs := if c.cpu.user then kernelCs else c.cpu.cs
      ss := if c.cpu.user then kernelDs else c.cpu.ss } } := by
  rw [interrupt, saveContext_eq, interruptStack, Stack.pushes_append]
  rfl

theorem restoreContext_eq {r : Regs} (holds : Holds c.mem c.cpu.esp r.words) :
    c.restoreContext = { c with cpu := { c.cpu with regs := r, esp := c.cpu.esp + 40 } } := by
  obtain ⟨ebx, ecx, edx, esi, edi, ebp, eax, ds, es, fs, -⟩ := holds
  cases r
  simp_all [restoreContext, popl, withStack, stack, Stack.pop]

theorem restoreContextSyscall_eq {r : Regs} (holds : Holds c.mem c.cpu.esp r.words) :
    c.restoreContextSyscall = { c with cpu := { c.cpu with
      regs := { r with eax := c.cpu.regs.eax }, esp := c.cpu.esp + 40 } } := by
  obtain ⟨ebx, ecx, edx, esi, edi, ebp, eax, ds, es, fs, -⟩ := holds
  cases r
  simp_all [restoreContextSyscall, popl, withStack, stack, Stack.pop]

theorem iret_eq {x : Cpu} (holds : Holds c.mem c.cpu.esp x.trapWords) : c.iret = { c with
    machine := { c.machine with userMode := c.machine.userMode || x.user }
    cpu := { x with
      regs := if x.user then c.cpu.regs.outward else c.cpu.regs
      esp := if x.user then x.esp else c.cpu.esp + 12
      ss := if x.user then x.ss else c.cpu.ss } } := by
  cases mode : x.user
  · simp only [Cpu.trapWords, mode, Bool.false_eq_true, if_false] at holds
    obtain ⟨eip, cs, eflags, -⟩ := holds
    cases x
    simp_all [iret, popl, withStack, stack, Stack.pop, Cpu.user]
  · simp only [Cpu.trapWords, mode, if_true] at holds
    obtain ⟨eip, cs, eflags, esp, ss, -⟩ := holds
    cases x
    simp_all [iret, popl, withStack, stack, Stack.pop, Cpu.user]

/-- The registers an interrupt has come to are those it leaves to: its stack pointer
in the kernel is the one it came with. -/
structure Fits (c : Core) (x : Cpu) : Prop where
  outward : x.user = true → x.regs.outward = x.regs
  esp : x.user = false → c.cpu.esp + 4 * x.words.length = x.esp
  ss : x.user = false → c.cpu.ss = x.ss

theorem restore_iret {x : Cpu} (holds : Holds c.mem c.cpu.esp x.words) (fits : c.Fits x) :
    c.restoreContext.iret = { c with
      machine := { c.machine with userMode := c.machine.userMode || x.user }, cpu := x } := by
  obtain ⟨regs, trap⟩ := (holds_append _ _ _).1 holds
  rw [restoreContext_eq regs, iret_eq (x := x) trap]
  cases mode : x.user
  · have esp := fits.esp mode
    have ss := fits.ss mode
    simp only [Cpu.words, Regs.words, Cpu.trapWords, mode] at esp
    cases x
    simp_all
  · have same := fits.outward mode
    cases x
    simp_all

/-- The registers a program starts with at the end of `execute`. -/
def startCpu (c : Core) (entry : Nat) : Cpu where
  regs := { c.cpu.regs with ds := userDs }.outward
  esp := userStack
  eip := entry
  cs := userCs
  ss := userDs
  eflags := interruptFlag.set c.cpu.eflags 1

theorem startCpu_user (c : Core) (entry : Nat) : (c.startCpu entry).user = true :=
  show decide (userCs % 4 = 3) = true by decide

/-- The stack of `execute` at its end. -/
def startStack (c : Core) (entry : Nat) : Stack Nat :=
  Stack.pushes ⟨c.mem, c.cpu.esp⟩
    [userDs, userStack, interruptFlag.set c.cpu.eflags 1, userCs, entry]

theorem enterUser_iret {entry : Nat} (room : 20 ≤ c.cpu.esp) : (c.enterUser entry).iret = { c with
    machine := { c.machine with userMode := true }
    mem := (c.startStack entry).mem
    cpu := c.startCpu entry } := by
  have held := Stack.pushes_holds
    [userDs, userStack, interruptFlag.set c.cpu.eflags 1, userCs, entry] ⟨c.mem, c.cpu.esp⟩ room
  have user := c.startCpu_user entry
  have saved : Holds (c.startStack entry).mem (c.startStack entry).top
      (c.startCpu entry).trapWords := by
    simp only [Cpu.trapWords, user, if_true]
    exact held
  rw [enterUser, iret_eq (x := c.startCpu entry) saved]
  simp only [user, Bool.or_true, if_true]
  rfl

theorem leaveRet_eq (c : Core) (ebp : Nat) : c.leaveRet ebp = { c with cpu := { c.cpu with
    regs := { c.cpu.regs with ebp := c.mem ebp }, esp := ebp + 8, eip := c.mem (ebp + 4) } } := by
  simp [leaveRet, popl, withStack, stack, Stack.pop]

end Core

/-! ## Where `ret` comes to -/

section

variable {l : Layout} {c : Core}

theorem arrive_wrapper (back : c.cpu.eip = l.pitReturn ∨ c.cpu.eip = l.keyboardReturn ∨
    c.cpu.eip = l.rtcReturn) : c.arrive l = some c.restoreContext.iret := if_pos back

theorem arrive_call (back : c.cpu.eip = l.callReturn) : c.arrive l =
    some { c with cpu := { c.cpu with esp := c.cpu.esp + 12 } }.systemCallDone := by
  have apart := l.apart
  simp only [List.nodup_cons, List.mem_cons, not_or] at apart
  rw [Core.arrive, back, if_neg (by simp; omega), if_pos rfl]

theorem arrive_iretExec (back : c.cpu.eip = l.iretExec) : c.arrive l = some c.iret := by
  have apart := l.apart
  simp only [List.nodup_cons, List.mem_cons, not_or] at apart
  rw [Core.arrive, back, if_neg (by simp; omega), if_neg (by omega), if_pos rfl]

theorem arrive_switch (back : c.cpu.eip = l.switchReturn) : c.arrive l = some c := by
  have apart := l.apart
  simp only [List.nodup_cons, List.mem_cons, not_or] at apart
  rw [Core.arrive, back, if_neg (by simp; omega), if_neg (by omega), if_neg (by omega), if_pos rfl]

end

/-! ## Threads on stacks -/

/-- The frame pointer `ebp` is that of `keyboard_handler`, which has interrupted the
thread. -/
structure InHandler (l : Layout) (mem : Nat → Nat) (p : Nat) (t : Thread) (ebp : Nat) : Prop where
  back : mem (ebp + 4) = l.keyboardReturn
  saved : Holds mem (ebp + 8) t.cpu.words
  level : ebp + 8 + 4 * t.cpu.words.length = t.cpu.level p

/-- The frame of a system call at the top of the stack, and the C code's part below. -/
structure InCall (l : Layout) (mem : Nat → Nat) (code : Nat → Progress) (p : Nat) (user : Cpu)
    (k : Inside) : Prop where
  back : mem (callBase p) = l.callReturn
  saved : Holds mem (callBase p + 16) user.words
  progress : k.progress = code p
  entered : ∀ n, code p = .entered n → n = user.regs.eax ∧ k.cpu = entryCpu l p user ∧
    Holds mem (callBase p + 4) [user.regs.ebx, user.regs.ecx, user.regs.edx]
  stack : ∀ x, k.cpu.esp ≤ x → x < callBase p → mem x = k.stack x
  low : k.cpu.esp ≤ callBase p
  cs : k.cpu.cs = kernelCs
  ss : k.cpu.ss = kernelDs
  elsewhere : k.cpu.eip ≠ l.switchReturn

structure Rests (l : Layout) (mem : Nat → Nat) (code : Nat → Progress) (p : Nat) (t : Thread) :
    Prop where
  user : UserCpu t.user
  inside : ∀ k, t.inside = some k → InCall l mem code p t.user k

/-- Thread `t` of process `p` goes on with these registers. -/
structure Runs (l : Layout) (mem : Nat → Nat) (code : Nat → Progress) (p : Nat) (t : Thread)
    (cpu : Cpu) : Prop where
  rests : Rests l mem code p t
  ran : t.fresh = false
  plain : t.owing = false → cpu = t.cpu
  handler : t.owing = true → cpu.cs = kernelCs ∧ cpu.ss = kernelDs ∧ cpu.eip = l.switchReturn ∧
    pcbAddr p ≤ cpu.esp ∧ cpu.esp ≤ cpu.regs.ebp ∧ InHandler l mem p t cpu.regs.ebp

/-- Thread `t` of process `p` was left with this frame pointer. -/
inductive Suspended (l : Layout) (mem : Nat → Nat) (code : Nat → Progress) (p : Nat) (t : Thread)
    (ebp : Nat) : Prop where
  | fresh (never : t.fresh = true) (free : t.owing = false) (outside : t.inside = none)
      (back : mem (ebp + 4) = l.iretExec) (saved : Holds mem (ebp + 8) t.user.trapWords)
      (level : ebp + 28 = stackTop p) (user : t.user.user = true)
  | tick (cpu : Cpu) (back : mem (ebp + 4) = l.pitReturn) (saved : Holds mem (ebp + 8) cpu.words)
      (level : ebp + 8 + 4 * cpu.words.length = cpu.level p) (runs : Runs l mem code p t cpu)
  | left (ran : t.fresh = false) (owing : t.owing = true) (back : mem (ebp + 4) = l.switchReturn)
      (floor : pcbAddr p ≤ ebp) (below : ebp + 8 ≤ mem ebp) (handler : InHandler l mem p t (mem ebp))
      (rests : Rests l mem code p t)

/-- The thread of process `p` is in `execute`, and its child runs. -/
structure Waiting (l : Layout) (mem : Nat → Nat) (p : Nat) (t : Thread) : Prop where
  user : UserCpu t.user
  call : t.user.regs.eax = 2
  inside : ∃ k, t.inside = some k
  free : t.owing = false
  ran : t.fresh = false
  back : mem (callBase p) = l.callReturn
  saved : Holds mem (callBase p + 16) t.user.words

section

variable {l : Layout} {mem mem' : Nat → Nat} {code code' : Nat → Progress} {p : Nat} {t : Thread}
  {cpu : Cpu} {ebp : Nat}

theorem kernel_not_user (kernel : cpu.cs = kernelCs) : cpu.user = false := by
  rw [Cpu.user, kernel]
  rfl

theorem words_length (cpu : Cpu) : cpu.words.length = if cpu.user then 15 else 13 := by
  cases mode : cpu.user <;> simp [Cpu.words, Regs.words, Cpu.trapWords, mode]

theorem Thread.cpu_outside (outside : t.inside = none) : t.cpu = t.user := by
  rw [Thread.cpu, outside]
  rfl

theorem Thread.cpu_inside {k : Inside} (inside : t.inside = some k) : t.cpu = k.cpu := by
  rw [Thread.cpu, inside]
  rfl

/-- A system call's frame lies at the top of the stack. -/
theorem callBase_top (inside : p < maxProcess) : callBase p + 76 = stackTop p := by
  simp only [callBase, stackTop, kernelStack, kernelStackSize, maxProcess] at inside ⊢
  omega

theorem InCall.congr {user : Cpu} {k : Inside} (call : InCall l mem code p user k)
    (inside : p < maxProcess) (same : ∀ x, k.cpu.esp ≤ x → x < stackTop p → mem' x = mem x)
    (still : code' p = code p) : InCall l mem' code' p user k := by
  have top := callBase_top inside
  have low := call.low
  have length : user.words.length ≤ 15 := by
    rw [words_length]
    split_ifs <;> omega
  refine { call with
    back := (same _ low (by omega)).trans call.back
    saved := call.saved.congr fun x above below => same x (by omega) (by omega)
    progress := call.progress.trans still.symm
    entered := fun n entered => ?_
    stack := fun x above below => (same x above (by omega)).trans (call.stack x above below) }
  obtain ⟨number, cpu, arguments⟩ := call.entered n (still.symm.trans entered)
  refine ⟨number, cpu, arguments.congr fun x above below => same x (by omega) ?_⟩
  simp only [List.length_cons, List.length_nil] at below
  omega

theorem Rests.congr (rests : Rests l mem code p t) (inside : p < maxProcess)
    (same : ∀ x, t.cpu.level p ≤ x → x < stackTop p → mem' x = mem x) (still : code' p = code p) :
    Rests l mem' code' p t := by
  refine ⟨rests.user, fun k kernel => ?_⟩
  have call := rests.inside k kernel
  have level : t.cpu.level p = k.cpu.esp := by
    rw [Thread.cpu_inside kernel, Cpu.level, kernel_not_user call.cs]
    rfl
  rw [level] at same
  exact call.congr inside same still

theorem InHandler.congr (handler : InHandler l mem p t ebp) (high : t.cpu.level p ≤ stackTop p)
    (same : ∀ x, ebp ≤ x → x < stackTop p → mem' x = mem x) : InHandler l mem' p t ebp := by
  have level := handler.level
  refine ⟨(same _ (by omega) (by omega)).trans handler.back, ?_, level⟩
  exact handler.saved.congr fun x above below => same x (by omega) (by omega)

/-- The stack pointer is not above the stack. -/
theorem Rests.level_le (rests : Rests l mem code p t) (inside : p < maxProcess) :
    t.cpu.level p ≤ stackTop p := by
  have top := callBase_top inside
  cases kernel : t.inside with
  | none =>
      rw [Thread.cpu_outside kernel, Cpu.level, rests.user.1]
      exact Nat.le_refl _
  | some k =>
      have call := rests.inside k kernel
      have low := call.low
      rw [Thread.cpu_inside kernel, Cpu.level, kernel_not_user call.cs]
      simp only [Bool.false_eq_true, if_false]
      omega

theorem Runs.level_le (runs : Runs l mem code p t cpu) :
    cpu.level p ≤ t.cpu.level p := by
  cases owing : t.owing with
  | false =>
      rw [runs.plain owing]
  | true =>
      obtain ⟨cs, _, _, _, low, handler⟩ := runs.handler owing
      have level := handler.level
      rw [Cpu.level, kernel_not_user cs]
      simp only [Bool.false_eq_true, if_false]
      omega

theorem Runs.congr (runs : Runs l mem code p t cpu) (inside : p < maxProcess)
    (same : ∀ x, cpu.level p ≤ x → x < stackTop p → mem' x = mem x) (still : code' p = code p) :
    Runs l mem' code' p t cpu := by
  have lower := runs.level_le
  have high := runs.rests.level_le inside
  refine { runs with
    rests := runs.rests.congr inside (fun x above => same x (by omega)) still
    handler := fun owing => ?_ }
  obtain ⟨cs, ss, eip, floor, low, handler⟩ := runs.handler owing
  refine ⟨cs, ss, eip, floor, low, handler.congr high fun x above => same x ?_⟩
  rw [Cpu.level, kernel_not_user cs]
  simp only [Bool.false_eq_true, if_false]
  omega

/-- What becomes of a suspended thread is a matter of its own stack. -/
theorem Suspended.congr (suspended : Suspended l mem code p t ebp) (inside : p < maxProcess)
    (same : ∀ x, ebp ≤ x → x < stackTop p → mem' x = mem x) (still : code' p = code p) :
    Suspended l mem' code' p t ebp := by
  cases suspended with
  | fresh never free outside back saved level user =>
      have length : t.user.trapWords.length = 5 := by simp [Cpu.trapWords, user]
      refine .fresh never free outside ((same _ (by omega) (by omega)).trans back) ?_ level user
      exact saved.congr fun x above below => same x (by omega) (by omega)
  | tick cpu back saved level runs =>
      have high := runs.rests.level_le inside
      have lower := runs.level_le
      refine .tick cpu ((same _ (by omega) (by omega)).trans back) ?_ level ?_
      · exact saved.congr fun x above below => same x (by omega) (by omega)
      · exact runs.congr inside (fun x above => same x (by omega)) still
  | left ran owing back floor below handler rests =>
      have high := rests.level_le inside
      have level := handler.level
      have frame : mem' ebp = mem ebp := same _ (Nat.le_refl _) (by omega)
      refine .left ran owing ((same _ (by omega) (by omega)).trans back) floor ?_ ?_ ?_
      · rw [frame]
        exact below
      · rw [frame]
        exact handler.congr high fun x above => same x (by omega)
      · exact rests.congr inside (fun x above => same x (by omega)) still

theorem Waiting.congr (waiting : Waiting l mem p t) (inside : p < maxProcess)
    (same : ∀ x, callBase p ≤ x → x < stackTop p → mem' x = mem x) : Waiting l mem' p t := by
  have top := callBase_top inside
  have length : t.user.words.length ≤ 15 := by
    rw [words_length]
    split_ifs <;> omega
  refine { waiting with
    back := (same _ (Nat.le_refl _) (by omega)).trans waiting.back
    saved := waiting.saved.congr fun x above below => same x (by omega) (by omega) }

end

end Illinix.Linkage
