/-
# Linkage.Refinement -- the kernel with its stacks refines threads

`Refines l c a` says of the running process that the processor has its thread's
registers (`Runs`), and of the `Others` that their stacks have theirs.  In the window
of `execute` that is so once the `iret` is done (`Launches`).  Every step of the kernel
is a step of the threads, when no interrupt comes in the window: one lemma for each
event, and from them `stands_step`.
-/
import Illinix.Linkage.Others
import Illinix.Linkage.Returns
import Illinix.Kernel.ExitStatus

namespace Illinix.Linkage

open Illinix.Kernel Illinix.Theory Illinix.Interrupt

set_option autoImplicit false

structure Refines (l : Layout) (c : Core) (a : Threads) : Prop where
  sched : Scheduled c.machine.sessions
  running : a.running = c.head
  runs : Runs l c.mem c.code c.head (a.thread c.head) c.cpu
  others : Others l c.machine.sessions c.mem c.code a.thread

/-- The `iret` of the window starts a program. -/
structure Launches (l : Layout) (c : Core) (a : Threads) : Prop where
  begins : Begins c.iret.cpu
  refines : Refines l c.iret
    { a.set c.iret.head ⟨c.iret.cpu, none, false, false⟩ with running := c.iret.head }

def Stands (l : Layout) (a : Threads) : CoreState → Prop
  | ⟨c, true⟩ => Launches l c a
  | ⟨c, false⟩ => Refines l c a

section

variable {l : Layout} {c c' : Core} {a : Threads} {e : ThreadEvent}

theorem Others.still {s s' : Sessions} {mem : Nat → Nat} {code : Nat → Progress}
    {thread : Nat → Thread} (others : Others l s mem code thread) (still : Still s s') :
    Others l s' mem code thread := by
  obtain ⟨x, rfl⟩ := still
  exact ⟨others.suspended, others.frame, others.waiting⟩

theorem Threads.set_self (a : Threads) (p : Nat) (t : Thread) : (a.set p t).thread p = t :=
  Function.update_self ..

theorem Threads.set_other (a : Threads) {p q : Nat} (t : Thread) (other : q ≠ p) :
    (a.set p t).thread q = a.thread q := Function.update_of_ne other ..

theorem Threads.set_same (a : Threads) {p : Nat} {t : Thread} (same : a.thread p = t) :
    a.set p t = a := by
  rw [← same, Threads.set, Function.update_eq_self]

/-! ## The machine's part -/

theorem made_some {call : SystemCall} {outcome : Outcome} (made : c.made call = some (c', outcome)) :
    ∃ m, SystemEvent.run c.machine (.call c.cpu.regs.ebp call) = some (m, outcome) ∧
      c' = { c with machine := m } := by
  obtain ⟨⟨m, how⟩, ran, same⟩ := Option.bind_eq_some_iff.1 made
  cases same
  exact ⟨m, ran, rfl⟩

theorem scheduled_ran {m m' : Machine} {event : SystemEvent} {outcome : Outcome}
    (sched : Scheduled m.sessions) (ran : event.run m = some (m', outcome)) :
    Scheduled m'.sessions := by
  apply scheduled_system sched (e := event)
  rw [systemStep, ran]
  rfl

theorem made_onStack {call : SystemCall} {outcome : Outcome} (sched : Scheduled c.machine.sessions)
    (made : c.made call = some (c', outcome)) : OnStack c.head c.cpu.regs.ebp := by
  obtain ⟨m, ran, _⟩ := made_some made
  exact (inKernel_enter sched (run_call.1 ran).1).frame.1

theorem still_head (still : Still c.machine.sessions c'.machine.sessions) : c'.head = c.head := by
  obtain ⟨x, same⟩ := still
  exact congrArg (fun s : Sessions => s.head s.activeTermId) same

theorem interrupt_machine (c : Core) (back : Nat) (s : Scratch) :
    ((c.interrupt back).body s).machine = c.machine := by
  rw [Core.interrupt_eq]
  rfl

theorem faultFrame_machine (l : Layout) (c : Core) (error : Option Nat) (s s' : Scratch) :
    (c.faultFrame l error s s').machine = c.machine := by
  simp only [Core.faultFrame, Core.trap_eq]
  rfl

theorem keyFrame_machine (l : Layout) (c : Core) (scancode : Nat) (s s' : Scratch) :
    (c.keyFrame l scancode s s').machine = c.machine := by
  rw [Core.keyFrame]
  split_ifs <;> exact interrupt_machine c l.keyboardReturn s

theorem at_still (c : Core) (cpu : Cpu) : Still c.machine.sessions (c.at cpu).machine.sessions :=
  ⟨(c.at cpu).machine.stackPointer, rfl⟩

theorem scheduled_at {cpu : Cpu} (sched : Scheduled c.machine.sessions) :
    Scheduled (c.at cpu).machine.sessions := by
  cases mode : cpu.user with
  | true =>
      have step : (c.at cpu).machine = { c.machine with userMode := true } := by
        simp only [Core.at, mode, Bool.or_true]
      rw [step]
      exact scheduled_iret sched
  | false =>
      have step : (c.at cpu).machine = c.machine := by
        simp only [Core.at, mode, Bool.or_false]
      rw [step]
      exact sched

namespace Refines

theorem inside (ref : Refines l c a) : c.head < maxProcess :=
  (ref.sched.head_alive ref.sched.active).1

theorem thread (ref : Refines l c a) : a.thread a.running = a.thread c.head := by
  rw [ref.running]

/-- Where the next trap of the running process goes. -/
theorem level (ref : Refines l c a) : c.level = c.cpu.level c.head :=
  congrArg (fun top => if c.cpu.user then top else c.cpu.esp) ref.sched.tssEsp0

theorem level_high (ref : Refines l c a) : c.level ≤ stackTop c.head :=
  ref.level.trans_le (ref.runs.level_le.trans (ref.runs.rests.level_le ref.inside))

/-- The machine has gone on, and nothing has come of it here. -/
theorem still {m : Machine} (ref : Refines l c a) (sched : Scheduled m.sessions)
    (still : Still c.machine.sessions m.sessions) : Refines l { c with machine := m } a := by
  have head : ({ c with machine := m } : Core).head = c.head := still_head still
  refine ⟨sched, ref.running.trans head.symm, ?_, ref.others.still still⟩
  rw [head]
  exact ref.runs

/-- The running process has done something of its own. -/
theorem own {t : Thread} (ref : Refines l c a) (sched : Scheduled c'.machine.sessions)
    (still : Still c.machine.sessions c'.machine.sessions)
    (mem : ∀ y, ¬OnStack c.head y → c'.mem y = c.mem y)
    (code : ∀ p, p ≠ c.head → c'.code p = c.code p)
    (runs : Runs l c'.mem c'.code c.head t c'.cpu) : Refines l c' (a.set a.running t) := by
  have head := still_head still
  rw [ref.running]
  refine ⟨sched, ref.running.trans head.symm, ?_, ?_⟩
  · rw [head, Threads.set_self]
    exact runs
  · refine Others.still (ref.others.keep ref.sched mem code fun p other => ?_) still
    exact Threads.set_other a t other

/-- An interrupt of the running process, when its handler has its frame. -/
theorem interrupted {back : Nat} (ref : Refines l c a) (s : Scratch)
    (floor : pcbAddr c.head ≤ (c.interrupt back).cpu.regs.ebp) :
    Interrupted c ((c.interrupt back).body s) c.head back := by
  have inside := ref.inside
  have high := ref.level_high
  have ebp : (c.interrupt back).cpu.regs.ebp = (c.interruptStack back).top := by
    rw [Core.interrupt_eq]
  have top : (c.interruptStack back).top = c.level - 4 * (c.cpu.words.length + 2) := by
    have top := Stack.pushes_top (c.cpu.words.reverse ++ [back, c.cpu.regs.ebp]) ⟨c.mem, c.level⟩
    rwa [List.length_append, List.length_reverse] at top
  have below : (c.interrupt back).cpu.regs.ebp < stackTop c.head := by
    simp only [pcbAddr, kernelStack, kernelStackSize, maxProcess] at floor inside
    omega
  refine Linkage.interrupted s ref.sched.tssEsp0 ?_ ?_ ?_ ⟨inside, floor, below⟩
  · exact fun kernel => (ref.runs.kernel kernel).2
  · exact ref.level.symm.trans_le high
  · exact fun kernel => (ref.runs.kernel kernel).1

/-- The handler of an interrupt has made a step of the machine. -/
theorem interrupt_made {back : Nat} {s : Scratch} {call : SystemCall} {outcome : Outcome}
    (ref : Refines l c a) (made : ((c.interrupt back).body s).made call = some (c', outcome)) :
    Interrupted c ((c.interrupt back).body s) c.head back ∧ ∃ m,
      SystemEvent.run c.machine (.call ((c.interrupt back).body s).cpu.regs.ebp call) =
        some (m, outcome) ∧ c' = { (c.interrupt back).body s with machine := m } := by
  have machine := interrupt_machine c back s
  have head : ((c.interrupt back).body s).head = c.head :=
    congrArg (fun m : Machine => (m.terms m.activeTermId).pid) machine
  have on := made_onStack (machine ▸ ref.sched) made
  rw [head] at on
  obtain ⟨m, ran, same⟩ := made_some made
  rw [machine] at ran
  exact ⟨ref.interrupted s on.2.1, m, ran, same⟩

/-- The handler has returned, and the interrupted thread goes on. -/
theorem stays (ref : Refines l c a) (sched : Scheduled c'.machine.sessions)
    (still : Still c.machine.sessions c'.machine.sessions)
    (above : ∀ x, c.cpu.level c.head ≤ x → c'.mem x = c.mem x)
    (mem : ∀ x, ¬OnStack c.head x → c'.mem x = c.mem x) (code : c'.code = c.code) :
    Refines l (c'.at c.cpu) a := by
  rw [← Threads.set_same a ref.thread]
  refine ref.own (scheduled_at sched) (still.trans (at_still c' c.cpu)) mem
    (fun p _ => congrFun code p) ?_
  exact ref.runs.congr ref.inside (fun x high _ => above x high) (congrFun code c.head)

end Refines

/-! ## User code -/

theorem refines_user {cpu : Cpu} (ref : Refines l c a) (step : c.user cpu = some (c', e)) :
    ∃ a', ThreadStep l a e a' ∧ Stands l a' ⟨c', e.opens false⟩ := by
  simp only [Core.user] at step
  split_ifs at step with may
  cases step
  obtain ⟨mode, user⟩ := may
  obtain ⟨_, free, outside, _⟩ := ref.runs.userCpu mode
  refine ⟨_, .runs ⟨ref.thread, free⟩ outside user, ?_⟩
  refine ref.own ref.sched ⟨c.machine.sessions.stackPointer, rfl⟩ (fun _ _ => rfl)
    (fun _ _ => rfl) ?_
  exact runs_user (t := { a.thread c.head with user := cpu }) outside free ref.runs.ran user

/-! ## Interrupts that return -/

theorem rtc_goes {s : Scratch} {outcome : Outcome} (ref : Refines l c a)
    (made : ((c.interrupt l.rtcReturn).body s).made .rtcHandler = some (c', outcome)) :
    c.rtc l s = some (c'.at c.cpu, .stays) ∧ Refines l (c'.at c.cpu) a := by
  obtain ⟨interrupted, m, ran, rfl⟩ := ref.interrupt_made made
  have next : Progress.next .rtcHandler outcome = some (.answered 0) := by
    cases (run_call.1 ran).2
    rfl
  have sched := scheduled_ran ref.sched ran
  have back := ref.runs.kept interrupted ref.inside
  have arrives := Runs.back (c := { (c.interrupt l.rtcReturn).body s with machine := m }) back
    (Or.inr (Or.inr interrupted.back)) interrupted.saved interrupted.level interrupted.ss
  constructor
  · exact Option.bind_eq_some_iff.2 ⟨_, made, Option.bind_eq_some_iff.2 ⟨_, arrives, rfl⟩⟩
  · apply ref.stays sched (sessions_of_next ref.sched ran next)
    · exact interrupted.above
    · exact interrupted.others
    · exact interrupted.code

theorem refines_rtc {s : Scratch} (ref : Refines l c a) (step : c.rtc l s = some (c', e)) :
    ∃ a', ThreadStep l a e a' ∧ Stands l a' ⟨c', e.opens false⟩ := by
  obtain ⟨⟨c₂, outcome⟩, made, _⟩ := Option.bind_eq_some_iff.1 step
  obtain ⟨goes, ref'⟩ := rtc_goes ref made
  cases goes.symm.trans step
  exact ⟨a, .stays, ref'⟩

theorem finish_goes (ref : Refines l c a) (keyboard : c.inKeyboard l = true) (s : Scratch) :
    ∃ c', c.finish l s = some (c', .finishes) ∧
      ∃ a', ThreadStep l a .finishes a' ∧ Refines l c' a' := by
  have finish : c.finish l s = (((c.body s).leaveRet c.cpu.regs.ebp).arrive l).bind fun c =>
      some (c, .finishes) := if_pos keyboard
  simp only [Core.inKeyboard, Bool.and_eq_true, Bool.not_eq_true', decide_eq_true_eq] at keyboard
  have owing := ref.runs.in_keyboard keyboard.1 keyboard.2
  obtain ⟨cs, ss, _, floor, low, handler⟩ := ref.runs.handler owing
  have level := handler.level
  have high := ref.runs.rests.level_le ref.inside
  have on : OnStack c.head c.cpu.regs.ebp := ⟨ref.inside, floor.trans low, by omega⟩
  have above : ∀ x, c.cpu.regs.ebp ≤ x → (c.body s).mem x = c.mem x := fun x => body_above c s
  have rests : Rests l (c.body s).mem c.code c.head (a.thread c.head) :=
    ref.runs.rests.congr ref.inside (fun x high _ => above x (by omega)) rfl
  have runs : Runs l (c.body s).mem (c.body s).code c.head { a.thread c.head with owing := false }
      (a.thread c.head).cpu :=
    ⟨⟨rests.user, rests.inside⟩, ref.runs.ran, fun _ => rfl, fun owes => nomatch owes⟩
  have arrives := runs.back (Or.inr (Or.inl ((above _ (Nat.le_add_right ..)).trans handler.back)))
    (handler.saved.congr fun x low _ => above x (by omega)) level ss
  refine ⟨(c.body s).at (a.thread c.head).cpu, ?_, _, .finishes ref.thread owing, ?_⟩
  · rw [finish, arrives]
    rfl
  · apply ref.own
    · exact scheduled_at ref.sched
    · exact at_still (c.body s) _
    · exact fun x off => body_others on off
    · exact fun _ _ => rfl
    · exact runs

theorem refines_finish {s : Scratch} (ref : Refines l c a) (step : c.finish l s = some (c', e)) :
    ∃ a', ThreadStep l a e a' ∧ Stands l a' ⟨c', e.opens false⟩ := by
  have keyboard : c.inKeyboard l = true := by
    by_contra elsewhere
    rw [Core.finish, if_neg elsewhere] at step
    cases step
  obtain ⟨c₂, goes, stepped⟩ := finish_goes ref keyboard s
  cases goes.symm.trans step
  exact stepped

/-! ## System calls -/

/-- The stack of a thread that has come from user code. -/
theorem Refines.entered (ref : Refines l c a) (mode : c.cpu.user = true) (more : List Nat)
    (few : more.length ≤ 4) : ∃ mem, mem = (Stack.pushes ⟨c.mem, c.level⟩ (c.cpu.words.reverse ++ more)).mem ∧
      (∀ x, ¬OnStack c.head x → mem x = c.mem x) ∧
      Holds mem (stackTop c.head - 60) c.cpu.words ∧
      Holds mem (stackTop c.head - 60 - 4 * more.length) more.reverse ∧
      (Stack.pushes ⟨c.mem, c.level⟩ (c.cpu.words.reverse ++ more)).top =
        stackTop c.head - 60 - 4 * more.length := by
  have inside := ref.inside
  have level : c.level = stackTop c.head := by
    rw [Core.level, mode]
    exact ref.sched.tssEsp0
  have length : c.cpu.words.length = 15 := by rw [words_length, mode]; rfl
  have count : (c.cpu.words.reverse ++ more).length = 15 + more.length := by
    rw [List.length_append, List.length_reverse, length]
  have room : 4 * (c.cpu.words.reverse ++ more).length ≤ c.level := by
    simp only [stackTop, kernelStack, kernelStackSize, maxProcess] at level inside
    omega
  have top := Stack.pushes_top (c.cpu.words.reverse ++ more) ⟨c.mem, c.level⟩
  have held := Stack.pushes_holds (c.cpu.words.reverse ++ more) ⟨c.mem, c.level⟩ room
  rw [count] at top
  change _ = c.level - _ at top
  rw [List.reverse_append, List.reverse_reverse, holds_append, List.length_reverse, top] at held
  have floor : stackTop c.head - 60 - 4 * more.length = c.level - 4 * (15 + more.length) := by omega
  refine ⟨_, rfl, fun x off => ?_, ?_, ?_, top.trans floor.symm⟩
  · apply pushes_others inside (Nat.le_of_eq level) ?_ off
    simp only [pcbAddr, stackTop, kernelStack, kernelStackSize, maxProcess] at level inside ⊢
    omega
  · have place : stackTop c.head - 60 = c.level - 4 * (15 + more.length) + 4 * more.length := by
      omega
    exact place ▸ held.2
  · exact floor ▸ held.1

theorem runs_called {mem : Nat → Nat} {code : Nat → Progress} {p : Nat} {t : Thread} {cpu : Cpu}
    (free : t.owing = false) (ran : t.fresh = false)
    (same : t.user = cpu) (user : UserCpu cpu) (saved : Holds mem (callBase p + 16) cpu.words)
    (arguments : Holds mem (callBase p) [l.callReturn, cpu.regs.ebx, cpu.regs.ecx, cpu.regs.edx])
    (entered : code p = .entered cpu.regs.eax) :
    Runs l mem code p
      { t with inside := some ⟨entryCpu l p t.user, mem, .entered t.user.regs.eax⟩ }
      (entryCpu l p cpu) := by
  subst same
  refine ⟨⟨user, fun k inside => ?_⟩, ran, fun _ => rfl, fun owing => nomatch free.symm.trans owing⟩
  obtain rfl := Option.some.inj inside
  refine ⟨arguments.1, saved, entered.symm, fun n same => ?_, fun _ _ _ => rfl, Nat.le_refl _, rfl, rfl,
    l.inside _⟩
  obtain rfl : t.user.regs.eax = n := Progress.entered.inj (entered.symm.trans same)
  exact ⟨rfl, rfl, arguments.2⟩

theorem refines_int80 (ref : Refines l c a) (step : c.int80 l = some (c', e)) :
    ∃ a', ThreadStep l a e a' ∧ Stands l a' ⟨c', e.opens false⟩ := by
  simp only [Core.int80] at step
  split_ifs at step with mode listed
  · cases step
    obtain ⟨user, free, outside, same⟩ := ref.runs.userCpu mode
    have regs : (a.thread c.head).user.regs.Listed := same ▸ listed
    obtain ⟨mem, pushed, others, saved, arguments, top⟩ := ref.entered mode
      [c.cpu.regs.edx, c.cpu.regs.ecx, c.cpu.regs.ebx, l.callReturn] (Nat.le_refl 4)
    have place : stackTop c.head - 60 = callBase c.head + 16 := by
      have whole := callBase_top ref.inside
      omega
    have bottom : stackTop c.head - 60 - 4 * [c.cpu.regs.edx, c.cpu.regs.ecx, c.cpu.regs.ebx,
        l.callReturn].length = callBase c.head := by
      rw [place]
      rfl
    rw [bottom] at arguments top
    rw [place] at saved
    rw [Core.systemCallWrapper_listed l mode listed rfl, ← pushed, top]
    refine ⟨_, .calls ⟨ref.thread, free⟩ outside regs mem, ?_⟩
    apply ref.own
    · exact ref.sched
    · exact ⟨c.machine.sessions.stackPointer, rfl⟩
    · exact others
    · exact fun p other => Function.update_of_ne other ..
    · rw [ref.running]
      apply runs_called free ref.runs.ran same user saved arguments
      exact Function.update_self ..
  · cases step
    obtain ⟨user, free, outside, same⟩ := ref.runs.userCpu mode
    have regs : ¬(a.thread c.head).user.regs.Listed := same ▸ listed
    obtain ⟨mem, pushed, others, saved, _, top⟩ := ref.entered mode [] (Nat.zero_le 4)
    rw [List.append_nil] at pushed top
    have held : Holds c.trap.saveContext.mem c.trap.saveContext.cpu.esp c.cpu.words := by
      rw [Core.saveContext_eq, ← pushed, top]
      exact saved
    have done := callDone_eq (c := { c.trap.saveContext with cpu := { c.trap.saveContext.cpu with
      regs := { c.trap.saveContext.cpu.regs with eax := 2 ^ 32 - 1 } } }) held user
    rw [Core.systemCallWrapper_refused l listed, done, Core.saveContext_eq, ← pushed]
    refine ⟨_, .refuses ⟨ref.thread, free⟩ outside regs, ?_⟩
    apply ref.own
    · exact scheduled_at ref.sched
    · exact at_still ..
    · exact others
    · exact fun _ _ => rfl
    · rw [same]
      exact runs_user (t := { a.thread c.head with user := c.cpu.setEax (wordOf (-1)) }) outside free
        ref.runs.ran (user.setEax _)

/-! ## In a system call -/

theorem Progress.next_begun {call : SystemCall} {outcome : Outcome} {progress : Progress}
    (next : Progress.next call outcome = some progress) (n : Nat) : progress ≠ .entered n := by
  rintro rfl
  cases outcome with
  | reading r =>
      cases r with
      | waiting => cases call <;> cases next
      | returned v bytes => cases next
  | ended how => cases how <;> cases next

/-- The running thread is in a system call. -/
theorem Refines.call (ref : Refines l c a) (called : c.inCall l = true) : ∃ k,
    Enters a (a.thread c.head) k ∧ k.cpu = c.cpu ∧
      InCall l c.mem c.code c.head (a.thread c.head).user k := by
  simp only [Core.inCall, Bool.and_eq_true, Bool.not_eq_true', decide_eq_true_eq] at called
  obtain ⟨free, k, inside, same⟩ := ref.runs.in_call called.1 called.2
  exact ⟨k, ⟨⟨ref.thread, free⟩, inside⟩, same, ref.runs.rests.inside k inside⟩

/-- **The C code of a system call goes on** with registers and words of its own. -/
theorem Refines.goesOn {c₀ : Core} {cpu : Cpu} {mem : Nat → Nat} {k : Inside} {progress : Progress}
    (ref : Refines l c a) (enters : Enters a (a.thread c.head) k)
    (call : InCall l c.mem c.code c.head (a.thread c.head).user k)
    (goes : c₀.goOn l c.head cpu mem = some c') (sched : Scheduled c₀.machine.sessions)
    (still : Still c.machine.sessions c₀.machine.sessions)
    (above : ∀ x, callBase c.head ≤ x → c₀.mem x = c.mem x)
    (others : ∀ x, ¬OnStack c.head x → c₀.mem x = c.mem x)
    (code : ∀ p, p ≠ c.head → c₀.code p = c.code p) (here : c₀.code c.head = progress)
    (begun : ∀ n, progress ≠ .entered n) :
    Refines l c' (a.set a.running { a.thread c.head with inside := some ⟨cpu, c'.mem, progress⟩ }) := by
  have top := callBase_top ref.inside
  simp only [Core.goOn] at goes
  split_ifs at goes with fine
  obtain rfl := Option.some.inj goes
  obtain ⟨cs, ss, elsewhere, low⟩ := fine
  have kept : ∀ x, ¬OnStack c.head x ∨ x = callBase c.head ∨ callBase c.head + 16 ≤ x →
      (if pcbAddr c.head ≤ x ∧ x < stackTop c.head - 60 ∧ x ≠ callBase c.head then mem x
        else c₀.mem x) = c₀.mem x := by
    intro x where'
    apply if_neg
    rintro ⟨floor, below, other⟩
    rcases where' with off | same | high
    · exact off ⟨ref.inside, floor, by omega⟩
    · exact other same
    · omega
  apply ref.own
  · exact sched
  · exact still
  · exact fun x off => (kept x (Or.inl off)).trans (others x off)
  · exact code
  · refine ⟨⟨ref.runs.rests.user, fun k' inside => ?_⟩, ref.runs.ran, fun _ => rfl, fun owing => ?_⟩
    · obtain rfl := Option.some.inj inside
      refine ⟨?_, ?_, here.symm, fun n entered => ?_, fun _ _ _ => rfl, low, cs, ss, elsewhere⟩
      · exact (kept _ (Or.inr (Or.inl rfl))).trans ((above _ (Nat.le_refl _)).trans call.back)
      · refine call.saved.congr fun x high _ => ?_
        exact (kept x (Or.inr (Or.inr high))).trans (above x (by omega))
      · exact absurd (here.symm.trans entered) (begun n)
    · cases enters.free.symm.trans owing

theorem refines_work {cpu : Cpu} {mem : Nat → Nat} (ref : Refines l c a)
    (step : c.work l cpu mem = some (c', e)) : ∃ a', ThreadStep l a e a' ∧ Stands l a' ⟨c', e.opens false⟩ := by
  simp only [Core.work] at step
  split at step
  · cases step
  · rename_i begun
    split_ifs at step with called
    obtain ⟨c₂, goes, same⟩ := Option.bind_eq_some_iff.1 step
    cases same
    obtain ⟨k, enters, _, call⟩ := ref.call called
    have started : ∀ n, k.progress ≠ .entered n := fun n entered =>
      begun n (call.progress.symm.trans entered)
    refine ⟨_, .works enters started, ?_⟩
    apply ref.goesOn enters call goes ref.sched ⟨c.machine.sessions.stackPointer, rfl⟩
    · exact fun _ _ => rfl
    · exact fun _ _ => rfl
    · exact fun _ _ => rfl
    · exact call.progress.symm
    · exact started

theorem refines_answer {value : Int} {cpu : Cpu} {mem : Nat → Nat} (ref : Refines l c a)
    (step : c.answer l value cpu mem = some (c', e)) :
    ∃ a', ThreadStep l a e a' ∧ Stands l a' ⟨c', e.opens false⟩ := by
  simp only [Core.answer] at step
  split at step
  · rename_i n entered
    split_ifs at step with fine
    obtain ⟨called, answers⟩ := fine
    obtain ⟨c₂, goes, same⟩ := Option.bind_eq_some_iff.1 step
    cases same
    obtain ⟨k, enters, _, call⟩ := ref.call called
    obtain ⟨number, _, _⟩ := call.entered n entered
    subst number
    refine ⟨_, .answers enters (call.progress.trans entered) answers, ?_⟩
    apply ref.goesOn enters call goes ref.sched ⟨c.machine.sessions.stackPointer, rfl⟩
    · exact fun _ _ => rfl
    · exact fun _ _ => rfl
    · exact fun p other => Function.update_of_ne other ..
    · exact Function.update_self ..
    · exact fun _ same => nomatch same
  · cases step

theorem refines_poll {ebp : Nat} {buf : Option (Nat → UInt8)} {cpu : Cpu} {mem : Nat → Nat}
    (ref : Refines l c a) (step : c.poll l ebp buf cpu mem = some (c', e)) :
    ∃ a', ThreadStep l a e a' ∧ Stands l a' ⟨c', e.opens false⟩ := by
  simp only [Core.poll] at step
  split at step
  · rename_i fd count reading
    split_ifs at step with called
    obtain ⟨⟨m, outcome⟩, ran, step⟩ := Option.bind_eq_some_iff.1 step
    obtain ⟨progress, next, step⟩ := Option.bind_eq_some_iff.1 step
    obtain ⟨c₂, goes, same⟩ := Option.bind_eq_some_iff.1 step
    cases same
    obtain ⟨k, enters, _, call⟩ := ref.call called
    refine ⟨_, .polls enters (call.progress.trans reading) next, ?_⟩
    apply ref.goesOn enters call goes (scheduled_ran ref.sched ran) (sessions_of_next ref.sched ran next)
    · exact fun _ _ => rfl
    · exact fun _ _ => rfl
    · exact fun p other => Function.update_of_ne other ..
    · exact Function.update_self ..
    · exact Progress.next_begun next
  · cases step

/-- The way back from a C function that has come to the return address at `callBase`. -/
theorem arrive_done {user : Cpu} {p : Nat} (esp : c.cpu.esp = callBase p + 4)
    (eip : c.cpu.eip = l.callReturn) (saved : Holds c.mem (callBase p + 16) user.words)
    (may : UserCpu user) : c.arrive l = some (c.at (user.setEax c.cpu.regs.eax)) := by
  have held : Holds c.mem (c.cpu.esp + 12) user.words := by
    rw [esp]
    exact saved
  rw [arrive_call eip]
  exact congrArg some (callDone_eq (c := { c with cpu := { c.cpu with esp := c.cpu.esp + 12 } }) held may)

theorem sysret_goes {value : Int} (ref : Refines l c a) (called : c.inCall l = true)
    (answered : c.code c.head = .answered value) : ∃ c', c.sysret l = some (c', .returns) ∧
      ∃ a', ThreadStep l a .returns a' ∧ Refines l c' a' := by
  obtain ⟨k, enters, _, call⟩ := ref.call called
  have user := ref.runs.rests.user
  have arrives := arrive_done (c := { c with cpu := { c.cpu with
    regs := { c.cpu.regs with eax := wordOf value }
    esp := callBase c.head + 4
    eip := c.mem (callBase c.head) } }) rfl call.back call.saved user
  refine ⟨c.at ((a.thread c.head).user.setEax (wordOf value)), ?_, _,
    .returns enters (call.progress.trans answered), ?_⟩
  · simp only [Core.sysret, answered]
    rw [if_pos called]
    exact Option.bind_eq_some_iff.2 ⟨_, arrives, rfl⟩
  · apply ref.own
    · exact scheduled_at ref.sched
    · exact at_still c _
    · exact fun _ _ => rfl
    · exact fun _ _ => rfl
    · exact runs_user (t := { a.thread c.head with
        user := (a.thread c.head).user.setEax (wordOf value), inside := none }) rfl enters.free
        ref.runs.ran (user.setEax _)

theorem refines_sysret (ref : Refines l c a) (step : c.sysret l = some (c', e)) :
    ∃ a', ThreadStep l a e a' ∧ Stands l a' ⟨c', e.opens false⟩ := by
  have whole := step
  simp only [Core.sysret] at step
  split at step
  · rename_i value answered
    split_ifs at step with called
    obtain ⟨c₂, goes, stepped⟩ := sysret_goes ref called answered
    cases goes.symm.trans whole
    exact stepped
  · cases step

/-! ## Where control leaves the process -/

theorem begins_start (c : Core) (entry : Nat) : Begins (c.startCpu entry) where
  user := ⟨c.startCpu_user entry, outward_outward _⟩
  esp := rfl
  cs := rfl
  ss := rfl
  ds := rfl
  interrupts := Field.get_set ..

/-- The C code of `execute` or `halt` in the process on top of the active terminal's
chain: the others are in order. -/
structure Departs (l : Layout) (s : Sessions) (c : Core) (a : Threads) : Prop where
  sched : Scheduled s
  others : Others l s c.mem c.code a.thread
  frame : OnStack (s.head s.activeTermId) c.cpu.regs.ebp
  low : c.cpu.esp ≤ c.cpu.regs.ebp

namespace Departs

variable {s : Sessions} {entry : Nat}

/-- **A program is launched**, in place of the base shell or on top of its parent. -/
theorem starts (departs : Departs l s c a) (sched : Scheduled c.machine.sessions)
    (how : Again s c.machine.sessions ∨ ∃ pid, Child s c.machine.sessions pid c.cpu.regs.ebp ∧
      c.cpu.regs.ebp + 4 = callBase (s.head s.activeTermId) ∧
      Waiting l c.mem (s.head s.activeTermId) (a.thread (s.head s.activeTermId)))
    (step : c.depart l entry (.ended .user) = some (c', e)) : e = .launches ∧ Launches l c' a := by
  have frame := departs.frame
  have low := departs.low
  have inside := frame.1
  simp only [Core.depart] at step
  split_ifs at step with same
  cases step
  have floor : pcbAddr (s.head s.activeTermId) + 20 ≤ c.cpu.esp := by
    have page := (onStack_iff.1 frame).2
    rw [← same] at page
    simp only [pcbAddr, kernelStack, kernelStackSize, maxProcess] at page inside ⊢
    omega
  have room : 20 ≤ c.cpu.esp := by omega
  have high : c.cpu.esp ≤ stackTop (s.head s.activeTermId) := low.trans (Nat.le_of_lt frame.2.2)
  have pushed : ∀ x, ¬OnStack (s.head s.activeTermId) x → (c.startStack entry).mem x = c.mem x :=
    fun x off => pushes_others inside high floor off
  have above : ∀ x, c.cpu.esp ≤ x → (c.startStack entry).mem x = c.mem x := fun x high =>
    Stack.pushes_above [_, _, _, _, _] ⟨c.mem, c.cpu.esp⟩ room x high
  have others := departs.others.keep departs.sched pushed (fun _ _ => rfl) (fun _ _ => rfl)
  refine ⟨rfl, ?_⟩
  have begins := begins_start c entry
  constructor <;> rw [Core.enterUser_iret room]
  · exact begins
  refine ⟨scheduled_iret sched, rfl, ?_, ?_⟩
  · change Runs l _ _ c.head (Function.update a.thread c.head _ c.head) _
    rw [Function.update_self]
    exact runs_user rfl rfl rfl begins.user
  · have still : Still c.machine.sessions ({ c.machine with userMode := true } : Machine).sessions :=
      ⟨_, rfl⟩
    rcases how with again | ⟨pid, child, place, waits⟩
    · have head : c.head = s.head s.activeTermId := by
        change c.machine.sessions.head c.machine.sessions.activeTermId = _
        rw [again.head, again.active]
      refine (others.again departs.sched again fun p other => ?_).still still
      exact Function.update_of_ne (head ▸ other) ..
    · have head : c.head = pid := by
        change c.machine.sessions.head c.machine.sessions.activeTermId = _
        rw [child.head, child.active, Function.update_self]
      refine (others.child departs.sched child place ?_ fun p other => ?_).still still
      · exact waits.congr inside fun x high _ => above x (by omega)
      · exact Function.update_of_ne (head ▸ other) ..

/-- **A process ends**, and `execute` returns in its parent. -/
theorem ends (entry : Nat) {q value : Nat} (departs : Departs l s c a) (sched : Scheduled c.machine.sessions)
    (returned : Returned s c.machine.sessions q) : ∃ c',
      c.depart l entry (.ended (.delivered q (s.head s.activeTermId) value)) =
        some (c', .delivers q value) ∧
      ∃ a', ThreadStep l a (.delivers q value) a' ∧ Refines l c' a' := by
  have alive := departs.sched.head_alive departs.sched.active
  have frame := departs.others.frame _ q alive returned.up
  have waiting := departs.others.waiting _ q alive returned.up
  obtain ⟨k, inside⟩ := waiting.inside
  have ebp : (c.machine.pcbs (s.head s.activeTermId)).parentEbp =
      s.parentEbp (s.head s.activeTermId) := congrFun returned.parentEbp _
  have arrives := arrive_done (p := q) (c := { c with cpu := { c.cpu with
      regs := { c.cpu.regs with eax := value, ebp := c.mem (s.parentEbp (s.head s.activeTermId)) }
      esp := s.parentEbp (s.head s.activeTermId) + 8
      eip := c.mem (s.parentEbp (s.head s.activeTermId) + 4) } })
    (congrArg (· + 4) frame) (frame ▸ waiting.back) waiting.saved waiting.user
  have head : c.head = q := by
    change c.machine.sessions.head c.machine.sessions.activeTermId = _
    rw [returned.head, returned.active, Function.update_self]
  refine ⟨c.at ((a.thread q).user.setEax value), Option.bind_eq_some_iff.2 ⟨_, ?_, rfl⟩, _,
    .delivers rfl inside waiting.call, scheduled_at sched, head.symm, ?_, ?_⟩
  · rw [ebp, Core.leaveRet_eq]
    exact arrives
  · change Runs l c.mem c.code c.head (Function.update a.thread q _ c.head) _
    rw [head, Function.update_self]
    exact runs_user rfl waiting.free waiting.ran (waiting.user.setEax value)
  · refine (departs.others.returned departs.sched returned fun p other => ?_).still (at_still ..)
    exact Function.update_of_ne other ..

/-- **`halt`**: the base shell starts again, or the parent goes on. -/
theorem halts {ended : Ended} (departs : Departs l s c a) (sched : Scheduled c.machine.sessions)
    (how : (ended = .user ∧ Again s c.machine.sessions) ∨ ∃ q value,
      ended = .delivered q (s.head s.activeTermId) value ∧ Returned s c.machine.sessions q)
    (step : c.depart l entry (.ended ended) = some (c', e)) :
    ∃ a', ThreadStep l a e a' ∧ Stands l a' ⟨c', e.opens false⟩ := by
  rcases how with ⟨rfl, again⟩ | ⟨q, value, rfl, returned⟩
  · obtain ⟨rfl, launches⟩ := departs.starts sched (Or.inl again) step
    exact ⟨a, .launches, launches⟩
  · obtain ⟨c₂, goes, stepped⟩ := departs.ends entry sched returned
    cases goes.symm.trans step
    exact stepped

end Departs

/-- The C code of `execute` or `halt`, with its frame on the running process's stack. -/
theorem Refines.departs {c₂ : Core} {m : Machine} {top : Nat} (ref : Refines l c a)
    (grown : Grown c.head top c c₂) (low : c₂.cpu.esp ≤ c₂.cpu.regs.ebp)
    (inside : InKernel (c.machine.entered c₂.cpu.regs.ebp)) :
    Departs l (c.machine.entered c₂.cpu.regs.ebp).sessions { c₂ with machine := m } a := by
  have others := ref.others.keep ref.sched grown.others (fun p _ => congrFun grown.code p)
    (fun _ _ => rfl)
  exact ⟨inside.sched, others.still ⟨_, rfl⟩, inside.frame.1, low⟩

/-- A call that does not come back, with its frame on the running process's stack. -/
theorem refines_departed {call : SystemCall} {outcome : Outcome} {c₂ : Core} {m : Machine}
    {top entry n x y z : Nat} (ref : Refines l c a) (grown : Grown c.head top c c₂)
    (low : c₂.cpu.esp ≤ c₂.cpu.regs.ebp)
    (ran : SystemEvent.run c.machine (.call c₂.cpu.regs.ebp call) = some (m, outcome))
    (serves : Serves n x y z call)
    (executes : n = 2 → c₂.cpu.regs.ebp + 4 = callBase c.head ∧
      Waiting l c₂.mem c.head (a.thread c.head))
    (step : { c₂ with machine := m }.depart l entry outcome = some (c', e)) :
    ∃ a', ThreadStep l a e a' ∧ Stands l a' ⟨c', e.opens false⟩ := by
  have sched := scheduled_ran ref.sched ran
  cases ran_of_run ran with
  | kernel frame made =>
      rename_i call how
      have inside := inKernel_enter ref.sched frame
      have departs := ref.departs (m := m) grown low inside
      cases call with
      | halt status magic => exact departs.halts sched (halt_ends inside made) step
      | execute command magic =>
          cases how with
          | user =>
              obtain ⟨pid, child⟩ := execute_child inside made
              obtain ⟨place, waits⟩ := executes serves.1
              obtain ⟨rfl, launches⟩ :=
                departs.starts sched (Or.inr ⟨pid, child, place, waits⟩) step
              exact ⟨a, .launches, launches⟩
          | returned v => cases step
          | resumed => cases step
          | delivered parent child value =>
              rcases Machine.execute_some made with ⟨_, how⟩ | ⟨_, _, _, _, how⟩ <;> cases how
      | vidmap start =>
          obtain ⟨_, _, same⟩ := Option.map_eq_some_iff.1 made
          cases same
          cases step
      | raise vector address => cases serves
      | pitHandler magic => cases serves
      | keyboardHandler scancode => cases serves
      | putc ch => cases serves
  | file frame made => cases step
  | read frame made => cases step
  | resume frame made => cases step
  | rtcHandler frame => cases step

/-- The frame of a system call's C function. -/
theorem Refines.serveFrame {n : Nat} (ref : Refines l c a) (called : c.inCall l = true)
    (entered : c.code c.head = .entered n) (s : Scratch)
    (on : OnStack c.head (c.prologue.body s).cpu.regs.ebp) :
    c.cpu.esp = callBase c.head ∧ (c.prologue.body s).cpu.regs.ebp + 4 = callBase c.head ∧
      Grown c.head c.cpu.esp c (c.prologue.body s) := by
  obtain ⟨k, _, same, incall⟩ := ref.call called
  have esp : c.cpu.esp = callBase c.head := by
    rw [← same, (incall.entered n entered).2.1]
    rfl
  have top := callBase_top ref.inside
  have floor : pcbAddr c.head + 4 ≤ c.cpu.esp := by
    have floor : pcbAddr c.head ≤ c.cpu.esp - 4 := on.2.1
    have inside := ref.inside
    simp only [pcbAddr, kernelStack, kernelStackSize, maxProcess] at floor inside ⊢
    omega
  refine ⟨esp, ?_, (Grown.refl (Nat.le_refl _)).entered ref.inside (by omega) s floor⟩
  change c.cpu.esp - 4 + 4 = callBase c.head
  omega

/-- **`halt` with its frame**, when `execute` is to return in the parent. -/
theorem halt_goes {status : UInt8} {magic : Nat → UInt8} {outcome : Outcome} {c₂ : Core} {m : Machine}
    {top : Nat} (entry : Nat) (ref : Refines l c a) (grown : Grown c.head top c c₂)
    (low : c₂.cpu.esp ≤ c₂.cpu.regs.ebp)
    (ran : SystemEvent.run c.machine (.call c₂.cpu.regs.ebp (.kernel (.halt status magic))) =
      some (m, outcome)) (delivers : outcome.delivers = true) :
    ∃ c' e, { c₂ with machine := m }.depart l entry outcome = some (c', e) := by
  have sched := scheduled_ran ref.sched ran
  obtain ⟨frame, entered⟩ := run_call.1 ran
  obtain ⟨⟨m', ended⟩, made, same⟩ := Option.map_eq_some_iff.1 entered
  cases same
  have inside := inKernel_enter ref.sched frame
  rcases halt_ends inside made with ⟨rfl, _⟩ | ⟨q, value, rfl, returned⟩
  · cases delivers
  · obtain ⟨c₃, goes, _⟩ := (ref.departs grown low inside).ends entry sched returned
    exact ⟨c₃, _, goes⟩

theorem refines_serve {call : SystemCall} {s : Scratch} {cpu : Cpu} {entry : Nat}
    (ref : Refines l c a) (step : c.serve l call s cpu entry = some (c', e)) :
    ∃ a', ThreadStep l a e a' ∧ Stands l a' ⟨c', e.opens false⟩ := by
  simp only [Core.serve] at step
  split at step
  · rename_i n entered
    split_ifs at step with fine
    obtain ⟨called, serves⟩ := fine
    obtain ⟨⟨c₃, outcome⟩, made, step⟩ := Option.bind_eq_some_iff.1 step
    obtain ⟨k, enters, _, incall⟩ := ref.call called
    obtain ⟨number, _, arguments⟩ := incall.entered n entered
    subst number
    have on := made_onStack (c := c.prologue.body s) ref.sched made
    obtain ⟨esp, place, grown⟩ := ref.serveFrame called entered s on
    obtain ⟨m, ran, rfl⟩ := made_some made
    rw [esp] at serves
    obtain ⟨first, second, third, -⟩ := arguments
    rw [first, second, third] at serves
    split at step
    · rename_i progress next
      obtain ⟨c₄, goes, same⟩ := Option.bind_eq_some_iff.1 step
      cases same
      refine ⟨_, .serves enters (incall.progress.trans entered) serves next, ?_⟩
      apply ref.goesOn enters incall goes (scheduled_ran ref.sched ran) (sessions_of_next ref.sched ran next)
      · exact fun x high => grown.above x (esp.trans_le high)
      · exact grown.others
      · exact fun p other => Function.update_of_ne other ..
      · exact Function.update_self ..
      · exact Progress.next_begun next
    · refine refines_departed ref grown (Nat.sub_le ..) ran serves (fun execute => ?_) step
      refine ⟨place, ?_⟩
      refine ⟨ref.runs.rests.user, execute, ⟨k, enters.inside⟩, enters.free, ref.runs.ran, ?_, ?_⟩
      · exact (grown.above _ (Nat.le_of_eq esp)).trans incall.back
      · exact incall.saved.congr fun x high _ => grown.above x (by omega)
  · cases step

/-! ## Exceptions -/

theorem Refines.faultFrame {error : Option Nat} {s s' : Scratch} (ref : Refines l c a)
    (on : OnStack c.head (c.faultFrame l error s s').cpu.regs.ebp) :
    Grown c.head c.level c (c.faultFrame l error s s') := by
  have inside := ref.inside
  have high := ref.level_high
  have floor := on.2.1
  have positive : 0 < pcbAddr c.head := by
    simp only [pcbAddr, kernelStack, kernelStackSize, maxProcess] at inside ⊢
    omega
  have pushed : (c.trap.pushAll error.toList).cpu.esp = c.trap.cpu.esp - 4 * error.toList.length :=
    Stack.pushes_top error.toList c.trap.stack
  have trap : c.trap.cpu.esp = c.level - 4 * c.cpu.trapWords.length := by
    rw [Core.trap_eq, ← List.length_reverse]
    exact Stack.pushes_top ..
  have last : (c.faultFrame l error s s').cpu.regs.ebp =
      (c.trap.pushAll error.toList).cpu.esp - 4 - 4 * s.locals - 4 - 4 - 4 := rfl
  have handler : Grown c.head c.level c ((c.trap.pushAll error.toList).prologue.body s) :=
    ((Grown.trap inside high (by omega)).pushAll inside high error.toList (by omega)).entered
      inside high s (by omega)
  have esp : ((c.trap.pushAll error.toList).prologue.body s).cpu.esp =
      (c.trap.pushAll error.toList).cpu.esp - 4 - 4 * s.locals := rfl
  have call := (handler.pushl inside high 255 (by omega)).pushl inside high l.haltReturn
  refine (call ?_).entered inside high s' ?_
  · change _ ≤ ((c.trap.pushAll error.toList).prologue.body s).cpu.esp - 4
    omega
  · change _ ≤ ((c.trap.pushAll error.toList).prologue.body s).cpu.esp - 4 - 4
    omega

/-- The C code of an exception handler, up to `halt(255)`. -/
theorem Refines.raised {vector address : Nat} {error : Option Nat} {s s' : Scratch} {c₃ : Core}
    {outcome : Outcome} (ref : Refines l c a)
    (raised : (c.faultFrame l error s s').made (.kernel (.raise vector address)) = some (c₃, outcome)) :
    ∃ m, Refines l { c with machine := m } a ∧
      Grown ({ c with machine := m } : Core).head c.level { c with machine := m } c₃ ∧
      c₃ = { c.faultFrame l error s s' with machine := m } := by
  have machine := faultFrame_machine l c error s s'
  have head : (c.faultFrame l error s s').head = c.head :=
    congrArg (fun m : Machine => (m.terms m.activeTermId).pid) machine
  have on := made_onStack (machine ▸ ref.sched) raised
  have grown := ref.faultFrame (head ▸ on)
  obtain ⟨m, raise, rfl⟩ := made_some raised
  rw [machine] at raise
  have next : Progress.next (.kernel (.raise vector address)) outcome = some (.answered 0) := by
    obtain ⟨⟨m, how⟩, made, same⟩ := Option.map_eq_some_iff.1 (run_call.1 raise).2
    obtain ⟨_, _, ended⟩ := Option.map_eq_some_iff.1 made
    cases ended
    cases same
    rfl
  have still := sessions_of_next ref.sched raise next
  refine ⟨m, ref.still (scheduled_ran ref.sched raise) still, ?_, rfl⟩
  rw [show ({ c with machine := m } : Core).head = c.head from still_head still]
  exact ⟨rfl, grown.code, grown.low, grown.above, grown.others⟩

theorem refines_fault {vector address entry : Nat} {error : Option Nat} {s s' : Scratch}
    {magic : Nat → UInt8} (ref : Refines l c a)
    (step : c.fault l vector address error s s' magic entry = some (c', e)) :
    ∃ a', ThreadStep l a e a' ∧ Stands l a' ⟨c', e.opens false⟩ := by
  simp only [Core.fault] at step
  split_ifs at step with keyboard
  obtain ⟨⟨c₃, outcome⟩, raised, step⟩ := Option.bind_eq_some_iff.1 step
  obtain ⟨⟨c₄, outcome'⟩, halted, step⟩ := Option.bind_eq_some_iff.1 step
  obtain ⟨m, ref', grown, rfl⟩ := ref.raised raised
  obtain ⟨_, halt, rfl⟩ := made_some halted
  have serves : Serves 1 255 0 0 (.kernel (.halt 255 magic)) := ⟨rfl, rfl⟩
  exact refines_departed ref' grown (Nat.sub_le ..) halt serves (fun execute => nomatch execute) step

/-! ## Switches -/

/-- **The process whose turn it is goes on** where it was left. -/
theorem resume_goes (sched : Scheduled c.machine.sessions)
    (others : Others l c.machine.sessions c.mem c.code a.thread)
    (suspended : Suspended l c.mem c.code c.head (a.thread c.head) (c.machine.pcbs c.head).ebp)
    (cs : c.cpu.cs = kernelCs) (ss : c.cpu.ss = kernelDs) : ∃ cpu, c.resume l = some (c.at cpu) ∧
      Refines l (c.at cpu) (a.goTo c.head cpu.regs) := by
  obtain ⟨cpu, arrives, runs⟩ := suspended.resume cs ss
  refine ⟨cpu, arrives, scheduled_at sched, rfl, ?_, ?_⟩
  · change Runs l c.mem c.code c.head
      ((a.set c.head ((a.thread c.head).begun cpu.regs)).thread c.head) cpu
    rw [Threads.set_self]
    exact runs
  · refine (others.keep sched (fun _ _ => rfl) (fun _ _ => rfl) fun p other => ?_).still (at_still ..)
    exact Threads.set_other a _ other

/-- The process whose turn it is is halted on its own stack. -/
theorem haltNext_departs {c₁ : Core} {n m : Machine} {s : Scratch} (inside : InKernel n)
    (others : Others l n.sessions c₁.mem c₁.code a.thread)
    (same : (({ c₁ with machine := m } : Core).toBeHalt l n.esp s).cpu.regs.ebp / kernelStackSize =
      n.esp / kernelStackSize) :
    Departs l n.sessions (({ c₁ with machine := m } : Core).toBeHalt l n.esp s) a := by
  have grown := Grown.toBeHalt (l := l) (c := { c₁ with machine := m }) inside.frame s same
  have kept := others.keep inside.sched grown.others (fun p _ => congrFun grown.code p)
    (fun _ _ => rfl)
  have on : OnStack (n.terms n.activeTermId).pid
      (({ c₁ with machine := m } : Core).toBeHalt l n.esp s).cpu.regs.ebp := by
    have frame := onStack_iff.1 inside.frame.1
    exact onStack_iff.2 ⟨frame.1, same.trans frame.2⟩
  exact ⟨inside.sched, kept, on, Nat.sub_le ..⟩

theorem refines_haltNext {c₁ : Core} {n m : Machine} {magic : Nat → UInt8} {s : Scratch} {entry : Nat}
    {ended : Ended} (inside : InKernel n) (halted : n.halt 6 magic = some (m, ended))
    (others : Others l n.sessions c₁.mem c₁.code a.thread) (sched : Scheduled m.sessions)
    (step : ({ c₁ with machine := m } : Core).haltNext l n.esp s entry (.ended ended) = some (c', e)) :
    ∃ a', ThreadStep l a e a' ∧ Stands l a' ⟨c', e.opens false⟩ := by
  simp only [Core.haltNext] at step
  split_ifs at step with same
  exact (haltNext_departs inside others same).halts sched (halt_ends inside halted) step

theorem tick_goes {s s' : Scratch} {magic : Nat → UInt8} {entry : Nat} {c₂ : Core} {outcome : Outcome}
    (ref : Refines l c a)
    (made : ((c.interrupt l.pitReturn).body s).made (.kernel (.pitHandler magic)) = some (c₂, outcome)) :
    (∃ c', c.tick l s s' magic entry = some (c', .resumes c'.head c'.cpu.regs) ∧
        Refines l c' (a.goTo c'.head c'.cpu.regs)) ∨
      (outcome ≠ .ended .resumed ∧
        (∀ c' e, c.tick l s s' magic entry = some (c', e) →
          ∃ a', ThreadStep l a e a' ∧ Stands l a' ⟨c', e.opens false⟩) ∧
        (outcome.delivers = true →
          c₂.HaltFits l (c.machine.terms c.machine.nextTermId).pid s' →
            ∃ c' e, c.tick l s s' magic entry = some (c', e))) := by
  obtain ⟨interrupted, m, ran, rfl⟩ := ref.interrupt_made made
  have sched := scheduled_ran ref.sched ran
  have left := ref.runs.suspend interrupted ref.inside
  have others := ref.others.keep ref.sched interrupted.others
    (fun p _ => congrFun interrupted.code p) (fun _ _ => rfl)
  obtain ⟨frame, entered⟩ := run_call.1 ran
  obtain ⟨⟨m', how⟩, handled, same⟩ := Option.map_eq_some_iff.1 entered
  cases same
  have inside := inKernel_enter ref.sched frame
  obtain ⟨n, turned, ends⟩ := pitHandler_ends inside handled
  obtain ⟨others, next⟩ := (others.still ⟨_, rfl⟩).turned inside.sched turned left
  rcases ends with ⟨rfl, rfl⟩ | ⟨inside, esp, halted⟩
  · obtain ⟨cpu, resumed, ref'⟩ := resume_goes (c := { (c.interrupt l.pitReturn).body s with
      machine := m' }) sched others next interrupted.cs interrupted.ss
    refine Or.inl ⟨_, ?_, ref'⟩
    exact Option.bind_eq_some_iff.2 ⟨_, made, Option.bind_eq_some_iff.2 ⟨_, resumed, rfl⟩⟩
  · have head : n.sessions.head n.sessions.activeTermId =
        (c.machine.terms c.machine.nextTermId).pid := by
      rw [turned.active, turned.head]
      rfl
    have ends := halt_ends inside halted
    have frames : m'.sessions.ebp = n.sessions.ebp := by
      rcases ends with ⟨_, again⟩ | ⟨_, _, _, returned⟩
      · exact again.ebp
      · exact returned.ebp
    have saved : (m'.pcbs (c.machine.terms c.machine.nextTermId).pid).ebp = n.esp := by
      rw [esp, head]
      exact congrFun frames _
    have other : how ≠ .resumed := by
      rcases ends with ⟨rfl, _⟩ | ⟨_, _, rfl, _⟩ <;> exact Ended.noConfusion
    refine Or.inr ⟨fun same => other (Outcome.ended.inj same), fun c' e step => ?_,
      fun delivers fits => ?_⟩
    · apply refines_haltNext inside halted others sched (s := s')
      rw [← saved]
      obtain ⟨_, made', step⟩ := Option.bind_eq_some_iff.1 step
      cases made.symm.trans made'
      rcases ends with ⟨rfl, _⟩ | ⟨_, _, rfl, _⟩ <;> exact step
    · have same : (({ (c.interrupt l.pitReturn).body s with machine := m' } : Core).toBeHalt l n.esp
          s').cpu.regs.ebp / kernelStackSize = n.esp / kernelStackSize := by
        rw [← saved]
        exact fits
      rcases ends with ⟨rfl, _⟩ | ⟨q, value, rfl, returned⟩
      · cases delivers
      · obtain ⟨c₃, goes, _⟩ := (haltNext_departs inside others same).ends entry sched returned
        refine ⟨c₃, .delivers q value, Option.bind_eq_some_iff.2 ⟨_, made, ?_⟩⟩
        change Core.haltNext l { (c.interrupt l.pitReturn).body s with machine := m' }
          (m'.pcbs (c.machine.terms c.machine.nextTermId).pid).ebp s' entry _ = _
        rw [saved, Core.haltNext, if_pos same]
        exact goes

theorem refines_tick {s s' : Scratch} {magic : Nat → UInt8} {entry : Nat} (ref : Refines l c a)
    (step : c.tick l s s' magic entry = some (c', e)) :
    ∃ a', ThreadStep l a e a' ∧ Stands l a' ⟨c', e.opens false⟩ := by
  obtain ⟨⟨c₂, outcome⟩, made, _⟩ := Option.bind_eq_some_iff.1 step
  rcases tick_goes ref made with ⟨c₃, goes, ref'⟩ | ⟨_, refines, _⟩
  · cases goes.symm.trans step
    exact ⟨_, .resumes, ref'⟩
  · exact refines c' e step

/-- `switch_terminal` has its frame below that of `keyboard_handler`. -/
theorem Refines.switchFrame {s s' : Scratch} (ref : Refines l c a)
    (floor : pcbAddr c.head ≤
      ((((c.interrupt l.keyboardReturn).body s).call l.switchReturn).body s').cpu.regs.ebp) :
    Interrupted c ((c.interrupt l.keyboardReturn).body s) c.head l.keyboardReturn ∧
      Grown c.head ((c.interrupt l.keyboardReturn).body s).cpu.esp
        ((c.interrupt l.keyboardReturn).body s)
        ((((c.interrupt l.keyboardReturn).body s).call l.switchReturn).body s') := by
  have inside := ref.inside
  have positive : 0 < pcbAddr c.head := by
    simp only [pcbAddr, kernelStack, kernelStackSize, maxProcess] at inside ⊢
    omega
  have ebp : ((((c.interrupt l.keyboardReturn).body s).call l.switchReturn).body s').cpu.regs.ebp =
      ((c.interrupt l.keyboardReturn).body s).cpu.esp - 4 - 4 := rfl
  have esp : ((c.interrupt l.keyboardReturn).body s).cpu.esp =
      (c.interrupt l.keyboardReturn).cpu.regs.ebp - 4 * s.locals := rfl
  have interrupted : Interrupted c ((c.interrupt l.keyboardReturn).body s) c.head l.keyboardReturn :=
    ref.interrupted s (by omega)
  have high : ((c.interrupt l.keyboardReturn).body s).cpu.esp ≤ stackTop c.head := by
    have low := interrupted.low
    have level := interrupted.level
    have top := ref.level.symm.trans_le ref.level_high
    omega
  refine ⟨interrupted, ?_⟩
  have pushed := (Grown.refl (p := c.head) (Nat.le_refl _)).pushl inside high l.switchReturn
    (show pcbAddr c.head + 4 ≤ ((c.interrupt l.keyboardReturn).body s).cpu.esp by omega)
  refine pushed.entered inside high s' ?_
  change _ ≤ ((c.interrupt l.keyboardReturn).body s).cpu.esp - 4
  omega

/-- `keyboard_handler` returns, and what it has done lies below its frame. -/
theorem Refines.keyReturned {c₁ c₂ : Core} {m : Machine} (ref : Refines l c a)
    (interrupted : Interrupted c c₁ c.head l.keyboardReturn)
    (grown : Grown c.head c₁.cpu.esp c₁ c₂) (ss : c₂.cpu.ss = kernelDs) (sched : Scheduled m.sessions)
    (still : Still c.machine.sessions m.sessions) : ∃ c',
      ({ c₂ with machine := m }.leaveRet c₁.cpu.regs.ebp).arrive l = some c' ∧ Refines l c' a := by
  have low := interrupted.low
  have level := interrupted.level
  have above : ∀ x, c₁.cpu.regs.ebp ≤ x → c₂.mem x = c₁.mem x := fun x high =>
    grown.above x (low.trans high)
  have runs : Runs l c₂.mem c₂.code c.head (a.thread c.head) c.cpu :=
    (ref.runs.kept interrupted ref.inside).congr ref.inside (fun x high _ => above x (by omega))
      (congrFun grown.code c.head)
  have arrives := Runs.back (c := { c₂ with machine := m }) runs
    (Or.inr (Or.inl ((above _ (Nat.le_add_right ..)).trans interrupted.back)))
    (interrupted.saved.congr fun x high _ => above x (by omega)) level ss
  refine ⟨_, arrives, ?_⟩
  apply ref.stays sched still
  · exact fun x high => (above x (by omega)).trans (interrupted.above x high)
  · exact fun x off => (grown.others x off).trans (interrupted.others x off)
  · exact grown.code.trans interrupted.code

theorem not_inKeyboard (elsewhere : ¬c.inKeyboard l = true) :
    c.cpu.user = true ∨ c.cpu.eip ≠ l.switchReturn := by
  simp only [Core.inKeyboard, Bool.and_eq_true, Bool.not_eq_true', decide_eq_true_eq] at elsewhere
  by_cases user : c.cpu.user = true
  · exact Or.inl user
  · exact Or.inr fun eip => elsewhere ⟨by simpa using user, eip⟩

/-- The frames of the handler, with or without `switch_terminal`. -/
theorem Refines.keyFrame {scancode : Nat} {s s' : Scratch} (ref : Refines l c a)
    (floor : pcbAddr c.head ≤ (c.keyFrame l scancode s s').cpu.regs.ebp) :
    Interrupted c ((c.interrupt l.keyboardReturn).body s) c.head l.keyboardReturn ∧
      Grown c.head ((c.interrupt l.keyboardReturn).body s).cpu.esp
        ((c.interrupt l.keyboardReturn).body s) (c.keyFrame l scancode s s') ∧
      (c.keyFrame l scancode s s').cpu.cs = kernelCs ∧
      (c.keyFrame l scancode s s').cpu.ss = kernelDs := by
  by_cases switches : scF1 ≤ scancode ∧ scancode ≤ scF3
  · have frame : c.keyFrame l scancode s s' =
        (((c.interrupt l.keyboardReturn).body s).call l.switchReturn).body s' := if_pos switches
    rw [frame] at floor ⊢
    obtain ⟨interrupted, grown⟩ := ref.switchFrame floor
    exact ⟨interrupted, grown, interrupted.cs, interrupted.ss⟩
  · have frame : c.keyFrame l scancode s s' = (c.interrupt l.keyboardReturn).body s :=
      if_neg switches
    rw [frame] at floor ⊢
    have interrupted := ref.interrupted s floor
    exact ⟨interrupted, Grown.refl (Nat.le_refl _), interrupted.cs, interrupted.ss⟩

theorem key_goes {scancode : Nat} {s s' : Scratch} {c₂ : Core} {outcome : Outcome}
    (ref : Refines l c a) (elsewhere : ¬c.inKeyboard l = true)
    (made : (c.keyFrame l scancode s s').made (.kernel (.keyboardHandler scancode)) =
      some (c₂, outcome)) : ∃ c' e, c.key l scancode s s' = some (c', e) ∧
      ∃ a', ThreadStep l a e a' ∧ Stands l a' ⟨c', e.opens false⟩ := by
  have machine := keyFrame_machine l c scancode s s'
  have head : (c.keyFrame l scancode s s').head = c.head :=
    congrArg (fun m : Machine => (m.terms m.activeTermId).pid) machine
  have on := made_onStack (machine ▸ ref.sched) made
  rw [head] at on
  obtain ⟨interrupted, grown, cs, ss⟩ := ref.keyFrame on.2.1
  obtain ⟨m, ran, rfl⟩ := made_some made
  rw [machine] at ran
  have sched := scheduled_ran ref.sched ran
  obtain ⟨frame, entered⟩ := run_call.1 ran
  obtain ⟨⟨m', how⟩, handled, same⟩ := Option.map_eq_some_iff.1 entered
  cases same
  have inside := inKernel_enter ref.sched frame
  have key : ∀ r, ({ c.keyFrame l scancode s s' with machine := m' } : Core).keyDone l
      ((c.interrupt l.keyboardReturn).body s).cpu.regs.ebp (.ended how) = some r →
      c.key l scancode s s' = some r := fun r goes => by
    rw [Core.key, if_neg elsewhere]
    exact Option.bind_eq_some_iff.2 ⟨_, made, goes⟩
  rcases keyboardHandler_ends inside handled with ⟨rfl, t, turned⟩ | ⟨v, rfl, sessions⟩
  · have switches : scF1 ≤ scancode ∧ scancode ≤ scF3 := by
      by_contra types
      change (c.machine.entered _).keyboardHandler scancode = _ at handled
      rw [Machine.keyboardHandler, if_neg types] at handled
      obtain ⟨_, _, same⟩ := Option.map_eq_some_iff.1 handled
      cases same
    have frame : c.keyFrame l scancode s s' =
        (((c.interrupt l.keyboardReturn).body s).call l.switchReturn).body s' := if_pos switches
    have free := ref.runs.free (not_inKeyboard elsewhere)
    have left : Suspended l (c.keyFrame l scancode s s').mem (c.keyFrame l scancode s s').code c.head
        ((a.set c.head { a.thread c.head with owing := true }).thread c.head)
        (c.keyFrame l scancode s s').cpu.regs.ebp := by
      have floor := on.2.1
      rw [frame] at floor
      rw [Threads.set_self, frame]
      exact ref.runs.leave free interrupted ref.inside s' floor
    have others := ref.others.keep ref.sched
      (fun x off => (grown.others x off).trans (interrupted.others x off))
      (fun p _ => congrFun (grown.code.trans interrupted.code) p)
      (fun p other => Threads.set_other a { a.thread c.head with owing := true } other)
    obtain ⟨others, next⟩ := (others.still ⟨_, rfl⟩).turned inside.sched turned left
    obtain ⟨cpu, resumed, ref'⟩ := resume_goes (c := { c.keyFrame l scancode s s' with machine := m' })
      sched others next cs ss
    refine ⟨_, _, key _ (Option.bind_eq_some_iff.2 ⟨_, resumed, rfl⟩), _, .leaves ⟨ref.thread, free⟩, ?_⟩
    rw [ref.running]
    exact ref'
  · obtain ⟨c₃, arrives, ref'⟩ := ref.keyReturned interrupted grown ss sched
      (sessions ▸ entered_still _ _)
    exact ⟨_, _, key _ (Option.bind_eq_some_iff.2 ⟨_, arrives, rfl⟩), a, .stays, ref'⟩

theorem refines_key {scancode : Nat} {s s' : Scratch} (ref : Refines l c a)
    (step : c.key l scancode s s' = some (c', e)) : ∃ a', ThreadStep l a e a' ∧ Stands l a' ⟨c', e.opens false⟩ := by
  have whole := step
  simp only [Core.key] at step
  split_ifs at step with keyboard
  obtain ⟨⟨c₂, outcome⟩, made, _⟩ := Option.bind_eq_some_iff.1 step
  obtain ⟨c₃, e', goes, stepped⟩ := key_goes ref keyboard made
  cases goes.symm.trans whole
  exact stepped

/-! ## Steps -/

/-- **Every step of the kernel is a step of the threads**, when no interrupt comes in
the window. -/
theorem stands_step {s s' : CoreState} {event : CoreEvent} (stands : Stands l a s)
    (alone : Uninterrupted s event) (step : coreStep l s event = some (s', e)) :
    ∃ a', ThreadStep l a e a' ∧ Stands l a' s' := by
  obtain ⟨comes, c', stepped, rfl⟩ := coreStep_some.1 step
  obtain ⟨c, _ | _⟩ := s
  · have ref : Refines l c a := stands
    cases event with
    | user cpu => exact refines_user ref stepped
    | int80 => exact refines_int80 ref stepped
    | serve call s cpu entry => exact refines_serve ref stepped
    | poll ebp buf cpu mem => exact refines_poll ref stepped
    | answer value cpu mem => exact refines_answer ref stepped
    | work cpu mem => exact refines_work ref stepped
    | sysret => exact refines_sysret ref stepped
    | enter => cases comes
    | fault vector address error s s' magic entry => exact refines_fault ref stepped
    | tick s s' magic entry => exact refines_tick ref stepped
    | key scancode s s' => exact refines_key ref stepped
    | rtc s => exact refines_rtc ref stepped
    | finish s => exact refines_finish ref stepped
  · obtain rfl := enter_of_comes comes (alone rfl)
    cases stepped
    have launches : Launches l c a := stands
    exact ⟨_, .starts launches.begins, launches.refines⟩

end

end Illinix.Linkage
