/-
# Kernel.Window -- the end of execute, with interrupts on

`execute` turns interrupts on before it is done: `sti; pushfl; pushl CS;
pushl EIP; iret`.  By then the terminal, the page and `tss.esp0` are the new
program's, and the stack is still that of the process that called.  So a tick or
a terminal switch between the `sti` and the `iret` takes the caller for the
process it leaves: it saves the frame pointer in the caller's PCB, and the
program's own PCB never gets one.

`windowStep` is `kernelStep` with this window as a state, and `KeepsTo` says that
in the window of a child there is no tick and no terminal switch.
`coherent_windows` is the coherence of every run whose steps are all quiet, and
`window_tick_incoherent` what one tick can do.
-/
import Illinix.Kernel.Coherence

namespace Illinix.Kernel

open Illinix.FileSys Illinix.Theory Machine

set_option autoImplicit false

/-! ## The window -/

/-- The machine, and whether it is between the `sti` and the `iret` of `execute`. -/
structure Moment where
  machine : Machine
  entering : Bool

/-- The machine once the `iret` of the window is done. -/
def Moment.settled (s : Moment) : Machine :=
  if s.entering then { s.machine with userMode := true } else s.machine

def KernelCall.isInterrupt : KernelCall → Bool
  | .pitHandler _ | .keyboardHandler _ => true
  | .execute _ _ | .halt _ _ | .raise _ _ | .vidmap _ | .putc _ => false

/-- Where a call leads: a program that is started has its `iret` still to come; an
interrupt that returns goes back to the window it came in, and one that switches
leaves it. -/
def Moment.next (entering : Bool) : Machine × Ended → Moment
  | (m, .user) => ⟨{ m with userMode := false }, true⟩
  | (m, .returned _) => ⟨m, entering⟩
  | (m, .resumed) | (m, .delivered _ _ _) => ⟨m, false⟩

/-- In the window the kernel makes no call, and interrupts come. -/
def windowStep (s : Moment) : KernelEvent → Option Moment
  | .iret => some ⟨{ s.machine with userMode := true }, false⟩
  | .call ebp body =>
      if s.entering = true ∧ body.isInterrupt = false then none
      else ((KernelEvent.call ebp body).run s.machine).map (Moment.next s.entering)

theorem windowStep_call {s s' : Moment} {ebp : Nat} {body : KernelCall} :
    windowStep s (.call ebp body) = some s' ↔
      (s.entering = true → body.isInterrupt = true) ∧ s.machine.Frame ebp ∧ ∃ m ended,
        body.run { s.machine with esp := ebp, userMode := false } = some (m, ended) ∧
          s' = .next s.entering (m, ended) := by
  simp only [windowStep, KernelEvent.run, enterKernel, Option.bind_eq_bind]
  by_cases blocked : s.entering = true ∧ body.isInterrupt = false
  · rw [if_pos blocked]
    refine iff_of_false (Option.some_ne_none s').symm fun both => ?_
    exact absurd (blocked.2.symm.trans (both.1 blocked.1)) Bool.false_ne_true
  have allowed : s.entering = true → body.isInterrupt = true := fun on => by
    simpa [on] using blocked
  rw [if_neg blocked, and_iff_right allowed]
  split_ifs with frame
  · simp only [Option.bind_some, Option.map_eq_some_iff, Prod.exists, and_iff_right frame]
    exact exists_congr fun m => exists_congr fun ended => and_congr_right fun _ => eq_comm
  · simp only [Option.bind_none, Option.map_none, reduceCtorEq, frame, false_and]

/-- The call goes to another terminal: a tick, or the F-key of a terminal that is
not shown. -/
def KernelCall.Switches (m : Machine) : KernelCall → Prop
  | .pitHandler _ => True
  | .keyboardHandler scancode =>
      scF1 ≤ scancode ∧ scancode ≤ scF3 ∧ scancode - scF1 ≠ m.shownTermId
  | .execute _ _ | .halt _ _ | .raise _ _ | .vidmap _ | .putc _ => False

/-- The stack in use is that of the active terminal's process.  In the window it is
for a base shell that starts again, and not for a child. -/
def Machine.OwnStack (m : Machine) : Prop := OnStack (m.terms m.activeTermId).pid m.esp

/-- In the window of a child nothing switches. -/
def KeepsTo (s : Moment) (e : KernelEvent) : Prop :=
  ∀ ebp body, e = .call ebp body → s.entering = true → body.Switches s.machine →
    s.machine.OwnStack

/-! ## What starts a program -/

section

variable {m m' : Machine} {ended : Ended}

/-- A key that does not switch returns. -/
theorem keyboard_stays {scancode : Nat} (stays : ¬(KernelCall.keyboardHandler scancode).Switches m)
    (ran : m.keyboardHandler scancode = some (m', ended)) : Drawn m m' ∧ ended = .returned 0 := by
  simp only [keyboardHandler] at ran
  split_ifs at ran with key
  · have shown : scancode - scF1 = m.shownTermId := by
      by_contra other
      exact stays ⟨key.1, key.2, other⟩
    rw [switchTerminal, if_pos shown] at ran
    cases ran
    exact ⟨.refl m, rfl⟩
  · obtain ⟨mid, typed, same⟩ := Option.map_eq_some_iff.1 ran
    cases same
    exact ⟨typeKey_drawn typed, rfl⟩

theorem keyboard_switches {scancode : Nat}
    (switches : (KernelCall.keyboardHandler scancode).Switches m)
    (ran : m.keyboardHandler scancode = some (m', ended)) : ended = .resumed := by
  obtain ⟨low, high, other⟩ := switches
  rw [keyboardHandler, if_pos ⟨low, high⟩] at ran
  rcases switchTerminal_some ran with ⟨shown, _⟩ | ⟨_, _, _, _, _, _, _, _, how⟩
  · exact absurd shown other
  · exact how

/-- A halt goes on in a new shell or in the parent. -/
theorem halt_leaves {status : UInt8} {magic : Nat → UInt8}
    (ran : m.halt status magic = some (m', ended)) :
    (∃ p pid parent, m' = (m.givenUp p).launched pid parent ∧ ended = .user) ∨
      ∃ p q value, ended = .delivered p q value := by
  obtain ⟨p, _, ⟨_, pid, parent, _, rfl, how⟩ | returned⟩ := halt_inv ran
  · exact Or.inl ⟨p, pid, parent, rfl, how⟩
  · obtain ⟨q, _, how, _⟩ := returnToParent_some returned
    exact Or.inr ⟨q, p, _, how⟩

theorem tick_leaves {magic : Nat → UInt8} (ran : m.pitHandler magic = some (m', ended)) (v : Int) :
    ended ≠ .returned v := by
  obtain ⟨_, _, _, _, _, _, ⟨_, halted⟩ | ⟨_, rfl⟩⟩ := pitHandler_some ran
  · rcases halt_leaves halted with ⟨_, _, _, _, rfl⟩ | ⟨_, _, _, rfl⟩
    · exact nofun
    · exact nofun
  · exact nofun

/-- **What the window starts from** is `execute` up to its `sti`. -/
theorem run_user {body : KernelCall} (kernel : m.userMode = false)
    (ran : body.run m = some (m', .user)) : ∃ (mid : Machine) (pid : Nat) (parent : Option Nat),
      m' = mid.launched pid parent ∧
        { m' with userMode := false } = mid.launching pid parent := by
  have parts : ∀ {mid : Machine} {pid : Nat} {parent : Option Nat}, m' = mid.launched pid parent →
      mid.userMode = false → m' = mid.launched pid parent ∧
        { m' with userMode := false } = mid.launching pid parent := by
    rintro mid pid parent rfl off
    refine ⟨rfl, ?_⟩
    rw [← show (mid.launching pid parent).userMode = false from off]
    rfl
  cases body with
  | execute command magic =>
      rcases execute_some ran with ⟨_, wrong⟩ | ⟨pid, parent, _, same, _⟩
      · exact nomatch wrong
      · exact ⟨m, pid, parent, parts same kernel⟩
  | halt status magic =>
      rcases halt_leaves ran with ⟨p, pid, parent, same, _⟩ | ⟨_, _, _, wrong⟩
      · exact ⟨m.givenUp p, pid, parent, parts same kernel⟩
      · exact nomatch wrong
  | raise vector address =>
      obtain ⟨_, _, wrong⟩ := Option.map_eq_some_iff.1 ran
      exact nomatch wrong
  | pitHandler magic =>
      obtain ⟨curr, mid, m₁, rfl, _, rfl, ⟨_, halted⟩ | ⟨_, wrong⟩⟩ := pitHandler_some ran
      · rcases halt_leaves halted with ⟨p, pid, parent, same, _⟩ | ⟨_, _, _, wrong⟩
        · have mode := congrArg Context.userMode (turnScreen_context m m.nextTermId)
          exact ⟨_, pid, parent, parts same (mode.trans kernel)⟩
        · exact nomatch wrong
      · exact nomatch wrong
  | keyboardHandler scancode =>
      by_cases switches : (KernelCall.keyboardHandler scancode).Switches m
      · exact nomatch keyboard_switches switches ran
      · exact nomatch (keyboard_stays switches ran).2
  | vidmap start =>
      obtain ⟨_, _, wrong⟩ := Option.map_eq_some_iff.1 ran
      exact nomatch wrong
  | putc c =>
      obtain ⟨_, _, wrong⟩ := Option.map_eq_some_iff.1 ran
      exact nomatch wrong

theorem user_mode {body : KernelCall} (kernel : m.userMode = false)
    (ran : body.run m = some (m', .user)) : m'.userMode = true := by
  obtain ⟨_, _, _, rfl, _⟩ := run_user kernel ran
  rfl

end

/-! ## Runs -/

/-- In the window the machine is in the kernel, and once it is over all is in
order. -/
structure Orderly (s : Moment) : Prop where
  sched : Scheduled s.settled.sessions
  kernel : s.entering = true → s.machine.userMode = false

theorem orderly_next {m m' : Machine} {ended : Ended} {body : KernelCall} (inside : InKernel m)
    (ran : body.run m = some (m', ended)) (leaves : ∀ v, ended ≠ .returned v) (entering : Bool) :
    Orderly (.next entering (m', ended)) := by
  have sched := scheduled_run inside ran
  cases ended with
  | returned v => exact absurd rfl (leaves v)
  | user =>
      have mode := user_mode inside.kernel ran
      refine ⟨?_, fun _ => rfl⟩
      rw [show (Moment.next entering (m', .user)).settled = { m' with userMode := true } from rfl,
        ← mode]
      exact sched
  | resumed => exact ⟨sched, nofun⟩
  | delivered parent child value => exact ⟨sched, nofun⟩

/-- A call outside the window. -/
theorem orderly_call {m m' : Machine} {ended : Ended} {body : KernelCall} (inside : InKernel m)
    (ran : body.run m = some (m', ended)) : Orderly (.next false (m', ended)) := by
  cases ended with
  | returned v => exact ⟨scheduled_run inside ran, nofun⟩
  | user | resumed | delivered => exact orderly_next inside ran nofun false

/-- An interrupt that returns to the window leaves what the `iret` makes of it. -/
theorem orderly_drawn {s : Moment} {ebp : Nat} {m' : Machine} (orderly : Orderly s)
    (on : s.entering = true)
    (drawn : Drawn { s.machine with esp := ebp, userMode := false } m') : Orderly ⟨m', true⟩ := by
  have sched := orderly.sched
  rw [Moment.settled, if_pos on] at sched
  have same : ({ m' with userMode := true } : Machine).sessions =
      ({ s.machine with userMode := true } : Machine).sessions := by
    have context : ({ m' with userMode := true } : Machine).context =
        { m'.context with userMode := true } := rfl
    rw [Machine.sessions, context, show m'.context = _ from drawn]
    rfl
  exact ⟨same.symm ▸ sched, fun _ => congrArg Context.userMode drawn⟩

/-- An interrupt in the window: one that switches comes on the stack of the process
that is left, and one that does not returns. -/
theorem orderly_interrupt {s : Moment} {m' : Machine} {ended : Ended} {ebp : Nat} {body : KernelCall}
    (orderly : Orderly s) (on : s.entering = true) (interrupt : body.isInterrupt = true)
    (own : body.Switches s.machine → s.machine.OwnStack) (frame : s.machine.Frame ebp)
    (ran : body.run { s.machine with esp := ebp, userMode := false } = some (m', ended)) :
    Orderly (.next true (m', ended)) := by
  by_cases switches : body.Switches s.machine
  · -- on its own stack a base shell is left as any other process
    have sched := orderly.sched
    rw [Moment.settled, if_pos on] at sched
    have here : Scheduled s.machine.sessions := by
      rw [show s.machine = { s.machine with userMode := false } by rw [← orderly.kernel on]]
      exact sched.onStack (own switches)
    refine orderly_next (inKernel_enter here frame) ran (fun v => ?_) true
    cases body with
    | pitHandler magic => exact tick_leaves ran v
    | keyboardHandler scancode =>
        rw [keyboard_switches (m := { s.machine with esp := ebp, userMode := false }) switches ran]
        exact nofun
    | execute | halt | raise | vidmap | putc => exact switches.elim
  · cases body with
    | pitHandler magic => exact absurd trivial switches
    | keyboardHandler scancode =>
        obtain ⟨drawn, rfl⟩ := keyboard_stays
          (m := { s.machine with esp := ebp, userMode := false }) switches ran
        exact orderly_drawn orderly on drawn
    | execute | halt | raise | vidmap | putc => exact nomatch interrupt

theorem orderly_step {s s' : Moment} {e : KernelEvent} (orderly : Orderly s) (quiet : KeepsTo s e)
    (step : windowStep s e = some s') : Orderly s' := by
  have sched := orderly.sched
  cases e with
  | iret =>
      obtain rfl := Option.some.inj step
      refine ⟨?_, nofun⟩
      cases on : s.entering with
      | true =>
          rw [Moment.settled, if_pos on] at sched
          exact sched
      | false =>
          rw [Moment.settled, if_neg (by rw [on]; exact Bool.false_ne_true)] at sched
          exact scheduled_iret sched
  | call ebp body =>
      obtain ⟨interrupt, frame, m', ended, ran, rfl⟩ := windowStep_call.1 step
      cases on : s.entering with
      | false =>
          rw [Moment.settled, if_neg (by rw [on]; exact Bool.false_ne_true)] at sched
          exact orderly_call (inKernel_enter sched frame) ran
      | true =>
          have own := quiet ebp body rfl on
          exact orderly_interrupt orderly on (interrupt on) own frame ran

/-- **Every state of every quiet run is coherent**, when the `iret` of its window is
done. -/
theorem coherent_windows (m₀ m : Machine) (magic : Nat → UInt8) (booted : m₀.Booted)
    (started : m₀.initiateShells magic = some (m, true)) (run : List KernelEvent)
    (quiet : Meets windowStep KeepsTo ⟨m, false⟩ run) :
    Coherent m ∧ Every windowStep (fun _ _ s => Coherent s.settled) ⟨m, false⟩ run := by
  obtain rfl := initiateShells_some started
  have start := scheduled_start booted
  refine ⟨coherent_of_scheduled start, every_of_meets Orderly (fun s e s' orderly quiet step => ?_)
    run ⟨_, false⟩ ⟨start, nofun⟩ quiet⟩
  have next := orderly_step orderly quiet step
  exact ⟨next, coherent_of_scheduled next.sched⟩

/-! ## One tick in the window -/

theorem keepsTo_iret (s : Moment) : KeepsTo s .iret := fun _ _ call => nomatch call

theorem keepsTo_outside {s : Moment} {e : KernelEvent} (outside : s.entering = false) : KeepsTo s e :=
  fun _ _ _ on => nomatch outside.symm.trans on

/-- The first shell runs a shell of its own, and the tick comes after its `iret`. -/
theorem coherent_child_tick : Coherent shells ∧
    Every windowStep (fun _ _ s => Coherent s.settled) ⟨shells, false⟩
      [.iret, .call 0x7FFF00 (.execute (some shellName) fun _ => 0), .iret,
        .call 0x7F9F00 (.pitHandler fun _ => 0)] := by
  refine coherent_windows (mounted shellFs) shells (fun _ => 0) (mounted_booted shellFs)
    shells_started _ ⟨keepsTo_iret _, fun s ran => ?_⟩
  obtain rfl := Option.some.inj ran
  refine ⟨keepsTo_outside rfl, fun _ _ => ⟨keepsTo_iret _, fun s ran => ?_⟩⟩
  obtain rfl := Option.some.inj ran
  exact ⟨keepsTo_outside rfl, fun _ _ => trivial⟩

/-- The tick comes in the window, and two more bring the terminal's turn round. -/
def windowTick : List KernelEvent :=
  [.iret, .call 0x7FFF00 (.execute (some shellName) fun _ => 0),
    .call 0x7FFE00 (.pitHandler fun _ => 0), .iret, .call 0x7FDF00 (.pitHandler fun _ => 0), .iret,
    .call 0x7FBF00 (.pitHandler fun _ => 0)]

/-- The child goes on at the frame pointer 0, on no process's stack. -/
theorem window_tick_incoherent :
    ¬Every windowStep (fun _ _ s => Coherent s.settled) ⟨shells, false⟩ windowTick := by
  intro every
  have lost : (after windowStep ⟨shells, false⟩ windowTick).map (fun s => s.settled.running) =
      some none := rfl
  obtain ⟨s, reached, running⟩ := Option.map_eq_some_iff.1 lost
  have start : Coherent (Moment.settled ⟨shells, false⟩) :=
    coherent_of_scheduled (scheduled_start (mounted_booted shellFs))
  have coherent := after_of_every windowTick ⟨shells, false⟩ s start every reached
  exact nomatch running.symm.trans coherent.running

end Illinix.Kernel
