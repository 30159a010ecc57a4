/-
# Kernel.ExitStatus -- what execute returns in a parent

A child that an exception ends should give its parent 256, any other child the
status it passed to `halt`.  That an exception came travels in one global flag:
the handler sets it, and the next `halt` that returns to a parent takes it, be it
the same process or not.  A base shell's `halt` starts the shell again and leaves
the flag set.

`faultStep` is a step of the system that also records which processes are in an
exception handler, and whether an exception was raised since `execute` last
returned in a parent.  `exit_status_iff` is exact: the statuses are right if and
only if, whenever a child returns to its parent, there was such an exception just
when the child's own handler ends it.
-/
import Illinix.Kernel.System

namespace Illinix.Kernel

open Illinix.FileSys Illinix.Theory Machine

set_option autoImplicit false

/-! ## Exceptions and ends of processes -/

structure Faults where
  /-- An exception was raised since `execute` last returned in a parent. -/
  since : Bool
  /-- The processes that are in an exception handler. -/
  handling : Nat → Bool

/-- The process that raises an exception. -/
def raiser (m : Machine) : SystemEvent → Option Nat
  | .call ebp (.kernel (.raise _ _)) => (m.entered ebp).getCurrentPcb
  | _ => none

/-- The process an event ends: the one that calls `halt`, or the one that Ctrl+C
has marked, when its turn comes. -/
def ending (m : Machine) : SystemEvent → Option Nat
  | .call ebp (.kernel (.halt _ _)) => (m.entered ebp).getCurrentPcb
  | .call _ (.kernel (.pitHandler _)) =>
      if (m.terms m.nextTermId).toBeHalt then some (m.terms m.nextTermId).pid else none
  | _ => none

/-- The status an event passes to `halt`. -/
def passed : SystemEvent → Nat
  | .call _ (.kernel (.halt status _)) => status.toNat
  | .call _ (.kernel (.pitHandler _)) => 6
  | _ => 0

/-- The parent in which `execute` has returned, the child and the value. -/
def Outcome.delivery : Outcome → Option (Nat × Nat × Nat)
  | .ended (.delivered parent child value) => some (parent, child, value)
  | _ => none

def Outcome.delivers (outcome : Outcome) : Bool := outcome.delivery.isSome

def Faults.next (f : Faults) (m : Machine) (e : SystemEvent) (outcome : Outcome) : Faults :=
  match raiser m e with
  | some p => ⟨true, Function.update f.handling p true⟩
  | none =>
      { since := f.since && !outcome.delivers
        handling := match ending m e with
          | some p => Function.update f.handling p false
          | none => f.handling }

def faultStep (s : Machine × Faults) (e : SystemEvent) : Option (Machine × Faults) :=
  (e.run s.1).map fun r => (r.1, s.2.next s.1 e r.2)

/-- Process `p` is ended by its exception handler. -/
def byHandler (f : Faults) (p : Nat) : SystemEvent → Bool
  | .call _ (.kernel (.halt _ _)) => f.handling p
  | _ => false

/-- What `execute` returns for child `p` is 256 exactly if the child's exception
handler ended it, and the status passed to `halt` if not. -/
def ExitsRight (s : Machine × Faults) (e : SystemEvent) : Prop :=
  ∀ m' q p value, e.run s.1 = some (m', .ended (.delivered q p value)) →
    (value = 256 ↔ byHandler s.2 p e = true) ∧ (byHandler s.2 p e = false → value = passed e)

/-- A child that returns to its parent is ended by its exception handler exactly
if an exception was raised since the last such return. -/
def OwnFault (s : Machine × Faults) (e : SystemEvent) : Prop :=
  ∀ m' q p value, e.run s.1 = some (m', .ended (.delivered q p value)) →
    (s.2.since = true ↔ byHandler s.2 p e = true)

/-! ## The flag -/

/-- What an event does with `exception_occurred`. -/
inductive FlagStep (m m' : Machine) (e : SystemEvent) : Outcome → Prop where
  | raised {p : Nat} {outcome : Outcome} (raises : raiser m e = some p)
      (flag : m'.exceptionOccurred = true) (quiet : outcome.delivers = false) :
      FlagStep m m' e outcome
  | kept {outcome : Outcome} (calm : raiser m e = none)
      (flag : m'.exceptionOccurred = m.exceptionOccurred) (quiet : outcome.delivers = false) :
      FlagStep m m' e outcome
  | taken {q p value : Nat} (calm : raiser m e = none) (flag : m'.exceptionOccurred = false)
      (status : value = if m.exceptionOccurred then 256 else passed e) :
      FlagStep m m' e (.ended (.delivered q p value))

section

variable {m m' : Machine} {e : SystemEvent} {outcome : Outcome} {magic : Nat → UInt8} {ended : Ended}
  {s s' : Machine × Faults}

theorem halt_flag {status : UInt8} (ran : m.halt status magic = some (m', ended)) :
    (m'.exceptionOccurred = m.exceptionOccurred ∧ ended = .user) ∨
      (m'.exceptionOccurred = false ∧ ∃ q p value, ended = .delivered q p value ∧
        value = if m.exceptionOccurred then 256 else status.toNat) := by
  obtain ⟨p, _, ⟨_, pid, parent, _, rfl, rfl⟩ | back⟩ := halt_inv ran
  · exact Or.inl ⟨rfl, rfl⟩
  · obtain ⟨q, _, rfl, rfl⟩ := returnToParent_some back
    exact Or.inr ⟨rfl, q, p, _, rfl, rfl⟩

theorem undisturbed_flag (same : Undisturbed m m') :
    m'.exceptionOccurred = m.exceptionOccurred := congrArg Context.exceptionOccurred same.rest

theorem drawn_flag (drawn : Drawn m m') : m'.exceptionOccurred = m.exceptionOccurred :=
  congrArg Context.exceptionOccurred drawn

theorem kernel_flagStep {ebp : Nat} {call : KernelCall} {p : Nat}
    (current : (m.entered ebp).getCurrentPcb = some p)
    (ran : call.run (m.entered ebp) = some (m', ended)) :
    FlagStep m m' (.call ebp (.kernel call)) (.ended ended) := by
  cases call with
  | execute command magic =>
      rcases execute_some ran with ⟨rfl, rfl⟩ | ⟨pid, parent, _, rfl, rfl⟩
      · exact .kept rfl rfl rfl
      · exact .kept rfl rfl rfl
  | halt status magic =>
      rcases halt_flag ran with ⟨flag, rfl⟩ | ⟨flag, q, p, value, rfl, status⟩
      · exact .kept rfl flag rfl
      · exact .taken rfl flag status
  | raise vector address =>
      obtain ⟨mid, raised, same⟩ := Option.map_eq_some_iff.1 ran
      cases same
      obtain ⟨mid, _, rfl⟩ := raise_some raised
      exact .raised current rfl rfl
  | pitHandler magic =>
      obtain ⟨curr, mid, m₁, rfl, _, rfl, rest⟩ := pitHandler_some ran
      have screen : ((m.entered ebp).turnScreen (m.entered ebp).nextTermId).exceptionOccurred =
          m.exceptionOccurred := congrArg Context.exceptionOccurred (turnScreen_context _ _)
      rcases rest with ⟨_, halted⟩ | ⟨rfl, rfl⟩
      · rcases halt_flag halted with ⟨flag, rfl⟩ | ⟨flag, q, p, value, rfl, status⟩
        · exact .kept rfl (flag.trans screen) rfl
        · refine .taken rfl flag (status.trans ?_)
          exact congrArg (fun flag : Bool => if flag then 256 else 6) screen
      · exact .kept rfl screen rfl
  | keyboardHandler scancode =>
      rcases keyboardHandler_some ran with ⟨t, _, switched⟩ | ⟨typed, rfl⟩
      · by_cases shown : t = (m.entered ebp).shownTermId
        · rw [switchTerminal, if_pos shown] at switched
          cases switched
          exact .kept rfl rfl rfl
        · rcases switchTerminal_some switched with
            ⟨shown', _⟩ | ⟨curr, mid, m₁, _, swapped, _, rfl, rfl, rfl⟩
          · exact absurd shown' shown
          · exact .kept rfl (congrArg Context.exceptionOccurred (swapScreens_context swapped)) rfl
      · have flag := drawn_flag (typeKey_drawn typed)
        exact .kept rfl flag rfl
  | vidmap start =>
      obtain ⟨⟨mid, v⟩, mapped, same⟩ := Option.map_eq_some_iff.1 ran
      cases same
      rcases vidmap_some mapped with ⟨rfl, _⟩ | ⟨curr, _, _, rfl⟩
      · exact .kept rfl rfl rfl
      · exact .kept rfl rfl rfl
  | putc c =>
      obtain ⟨mid, drew, same⟩ := Option.map_eq_some_iff.1 ran
      cases same
      have flag := drawn_flag (putc_drawn drew)
      exact .kept rfl flag rfl

/-- **The flag, step by step.** -/
theorem flagStep (sched : Scheduled m.sessions) (ran : e.run m = some (m', outcome)) :
    FlagStep m m' e outcome := by
  cases ran_of_run ran with
  | iret => exact .kept rfl rfl rfl
  | kernel frame made => exact kernel_flagStep (inKernel_enter sched frame).current made
  | file frame made =>
      have current := (inKernel_enter sched frame).current
      have flag := undisturbed_flag (fileCall_serves current made).toUndisturbed
      exact .kept rfl flag rfl
  | read frame made =>
      have current := (inKernel_enter sched frame).current
      have flag := undisturbed_flag (read_serves current made).toUndisturbed
      exact .kept rfl flag rfl
  | resume frame made =>
      have current := (inKernel_enter sched frame).current
      have flag := undisturbed_flag (resume_serves current made).toUndisturbed
      exact .kept rfl flag rfl
  | @rtcHandler ebp frame =>
      have flag := undisturbed_flag (rtcHandler_undisturbed (m.entered ebp))
      exact .kept rfl flag rfl

/-- The flag is set just if an exception was raised since `execute` last returned
in a parent. -/
structure FlagSince (s : Machine × Faults) : Prop where
  sched : Scheduled s.1.sessions
  flag : s.1.exceptionOccurred = s.2.since

theorem flagSince_step (inv : FlagSince s) (step : faultStep s e = some s') : FlagSince s' := by
  obtain ⟨⟨m', outcome⟩, ran, rfl⟩ := Option.map_eq_some_iff.1 step
  refine ⟨scheduled_system inv.sched (Option.map_eq_some_iff.2 ⟨_, ran, rfl⟩), ?_⟩
  have flag := inv.flag
  cases flagStep inv.sched ran with
  | raised raises flag' quiet =>
      simp only [Faults.next]
      rw [raises]
      exact flag'
  | kept calm flag' quiet =>
      simp only [Faults.next]
      rw [calm]
      dsimp only
      rw [quiet, flag', flag, Bool.not_false, Bool.and_true]
  | taken calm flag' status =>
      simp only [Faults.next]
      rw [calm]
      dsimp only
      rw [flag']
      exact (Bool.and_false s.2.since).symm

/-- No status is 256. -/
theorem passed_lt (e : SystemEvent) : passed e < 256 := by
  simp only [passed]
  split
  · rename_i status _
    exact status.toNat_lt
  · decide
  · decide

/-- **A status is right exactly if the exception was the child's own.** -/
theorem exitsRight_iff (inv : FlagSince s) : ExitsRight s e ↔ OwnFault s e := by
  refine forall_congr' fun m' => forall_congr' fun q => forall_congr' fun p =>
    forall_congr' fun value => forall_congr' fun ran => ?_
  have small := passed_lt e
  cases flagStep inv.sched ran with
  | raised _ _ quiet => cases quiet
  | kept _ _ quiet => cases quiet
  | taken _ _ status =>
      rw [inv.flag] at status
      by_cases since : s.2.since = true
      · rw [if_pos since] at status
        constructor
        · exact fun right => iff_of_true since (right.1.1 status)
        · intro own
          refine ⟨iff_of_true status (own.1 since), fun other => ?_⟩
          exact absurd ((own.1 since).symm.trans other) Bool.noConfusion
      · rw [if_neg since] at status
        have other : value ≠ 256 := by omega
        constructor
        · exact fun right => iff_of_false since fun own => other (right.1.2 own)
        · exact fun own => ⟨iff_of_false other fun handled => since (own.2 handled), fun _ => status⟩

end

/-- **Exit statuses, exactly.** In every run from boot on, what `execute` returns
in a parent is 256 exactly if the child was ended by its exception handler, and the
status it passed to `halt` if not, if and only if, whenever a child returns to its
parent, an exception was raised since the last such return exactly if the child's
own handler ends it. -/
theorem exit_status_iff (fs : Fs) (m : Machine) (magic : Nat → UInt8)
    (started : (mounted fs).initiateShells magic = some (m, true)) (run : List SystemEvent) :
    Meets faultStep ExitsRight (m, ⟨false, fun _ => false⟩) run ↔
      Meets faultStep OwnFault (m, ⟨false, fun _ => false⟩) run := by
  obtain rfl := initiateShells_some started
  refine meets_congr FlagSince ?_ ?_ run _ ⟨scheduled_start (mounted_booted fs), rfl⟩
  · exact fun s e inv => exitsRight_iff inv
  · exact fun s e s' inv step => flagSince_step inv step

/-- The first shell divides by zero and is started again; then it runs a shell of
its own. -/
def shellFaults : List SystemEvent :=
  [.iret, .call 0x7FFF00 (.kernel (.raise 0 0)), .call 0x7FFF00 (.kernel (.halt 255 fun _ => 0)),
    .call 0x7FFF00 (.kernel (.execute (some shellName) fun _ => 0))]

def childHalts : SystemEvent := .call 0x7F9F00 (.kernel (.halt 0 fun _ => 0))

/-- When the child halts with 0, `execute` returns 256. -/
theorem fault_left_over : ¬Meets faultStep ExitsRight (shells, ⟨false, fun _ => false⟩)
    (shellFaults ++ [childHalts]) := by
  intro meets
  have state : (after faultStep (shells, ⟨false, fun _ => false⟩) shellFaults).map (fun s =>
      (s.2.handling 3, (childHalts.run s.1).map fun r => r.2.delivery)) =
        some (false, some (some (0, 3, 256))) := by
    decide +kernel
  obtain ⟨s, reached, facts⟩ := Option.map_eq_some_iff.1 state
  obtain ⟨calm, returned⟩ := Prod.mk.inj facts
  obtain ⟨⟨m', outcome⟩, ran, delivery⟩ := Option.map_eq_some_iff.1 returned
  have right := meets_at _ _ s meets reached m' 0 3 256
  cases outcome with
  | reading how => cases delivery
  | ended how =>
      cases how with
      | returned _ | user | resumed => cases delivery
      | delivered parent child value =>
          cases delivery
          exact Bool.noConfusion (((right ran).1.1 rfl).symm.trans calm)

/-- A child that divides by zero. -/
def childFaults : List SystemEvent :=
  [.iret, .call 0x7FFF00 (.kernel (.execute (some shellName) fun _ => 0)),
    .call 0x7F9F00 (.kernel (.raise 0 0)), .call 0x7F9F00 (.kernel (.halt 255 fun _ => 0))]

theorem child_faults :
    Meets faultStep ExitsRight (shells, ⟨false, fun _ => false⟩) childFaults ↔
      Meets faultStep OwnFault (shells, ⟨false, fun _ => false⟩) childFaults :=
  exit_status_iff shellFs shells (fun _ => 0) shells_started childFaults

end Illinix.Kernel
