/-
# Linkage.Sessions -- what the machine's steps do to the scheduler

Where control goes after a step of the machine, and what has become of the saved
frame pointers and the parent pointers, for each way a call can end.

A call that goes on changes none of them (`sessions_of_next`).  Otherwise the
terminal's chain has a new process on top (`Child`), the same one again (`Again`) or
the parent of the one that has ended (`Returned`), or another terminal is active
(`Turned`).
-/
import Illinix.Kernel.System
import Illinix.Linkage.Threads

namespace Illinix.Linkage

open Illinix.FileSys Illinix.Kernel Illinix.Theory Machine

set_option autoImplicit false

/-! ## Parents -/

section

variable {s : Sessions}

theorem parent_alive (sched : Scheduled s) {q r : Nat} (alive : s.Alive q)
    (up : s.parent q = some r) : s.Alive r := by
  obtain ⟨chains, forest⟩ := sched.forest
  exact forest.parent_live alive up

/-- A process that waits for a child is not on top of a terminal's chain. -/
theorem head_not_parent (sched : Scheduled s) {t q r : Nat} (low : t < terminalCount)
    (alive : s.Alive q) (up : s.parent q = some r) : s.head t ≠ r := by
  obtain ⟨chains, forest⟩ := sched.forest
  rintro rfl
  exact forest.head_childless ⟨t, low⟩ alive up

theorem one_child (sched : Scheduled s) {q q' r : Nat} (alive : s.Alive q) (alive' : s.Alive q')
    (up : s.parent q = some r) (up' : s.parent q' = some r) : q = q' := by
  obtain ⟨chains, forest⟩ := sched.forest
  exact forest.child_unique alive alive' up up'

end

/-! ## Calls that go on -/

/-- Nothing has changed but the stack pointer. -/
def Still (s s' : Sessions) : Prop := ∃ x, s' = { s with stackPointer := x }

theorem Still.trans {s s' s'' : Sessions} (first : Still s s') (second : Still s' s'') :
    Still s s'' := by
  obtain ⟨x, rfl⟩ := first
  obtain ⟨y, rfl⟩ := second
  exact ⟨y, rfl⟩

section

variable {m m' : Machine}

theorem entered_still (m : Machine) (ebp : Nat) : Still m.sessions (m.entered ebp).sessions :=
  ⟨ebp, rfl⟩

theorem returned_run {body : KernelCall} {v : Int} (ran : body.run m = some (m', .returned v)) :
    m'.sessions = m.sessions := by
  cases body with
  | execute command magic =>
      rcases execute_some ran with ⟨rfl, _⟩ | ⟨_, _, _, _, how⟩
      · rfl
      · cases how
  | halt status magic =>
      obtain ⟨_, _, ⟨_, _, _, _, _, how⟩ | back⟩ := halt_inv ran
      · cases how
      · obtain ⟨_, _, how, _⟩ := returnToParent_some back
        cases how
  | raise vector address =>
      obtain ⟨_, raised, same⟩ := Option.map_eq_some_iff.1 ran
      cases same
      obtain ⟨mid, drawn, rfl⟩ := raise_some raised
      have same : mid.sessions = m.sessions := sessions_of_drawn drawn
      exact same
  | pitHandler magic =>
      obtain ⟨_, _, _, _, _, _, ⟨_, halted⟩ | ⟨_, how⟩⟩ := pitHandler_some ran
      · obtain ⟨_, _, ⟨_, _, _, _, _, how⟩ | back⟩ := halt_inv halted
        · cases how
        · obtain ⟨_, _, how, _⟩ := returnToParent_some back
          cases how
      · cases how
  | keyboardHandler scancode =>
      rcases keyboardHandler_some ran with ⟨t, _, switched⟩ | ⟨typed, _⟩
      · rcases switchTerminal_some switched with ⟨_, rfl⟩ | ⟨_, _, _, _, _, _, _, _, how⟩
        · rfl
        · cases how
      · exact sessions_of_drawn (typeKey_drawn typed)
  | vidmap start =>
      obtain ⟨⟨next, _⟩, mapped, same⟩ := Option.map_eq_some_iff.1 ran
      cases same
      rcases vidmap_some mapped with ⟨rfl, _⟩ | ⟨curr, _, _, rfl⟩
      · rfl
      · exact vidmapped_sessions m curr
  | putc c =>
      obtain ⟨_, drew, same⟩ := Option.map_eq_some_iff.1 ran
      cases same
      exact sessions_of_drawn (putc_drawn drew)

/-- **A system call that goes on** leaves the scheduler alone. -/
theorem sessions_of_next {ebp : Nat} {call : SystemCall} {outcome : Outcome} {progress : Progress}
    (sched : Scheduled m.sessions) (ran : SystemEvent.run m (.call ebp call) = some (m', outcome))
    (next : Progress.next call outcome = some progress) : Still m.sessions m'.sessions := by
  have entered := entered_still m ebp
  cases ran_of_run ran with
  | kernel frame made =>
      rename_i call how
      cases how with
      | returned v =>
          rw [returned_run made]
          exact entered
      | user => cases next
      | resumed => cases next
      | delivered parent child value => cases next
  | file frame made =>
      have current := (inKernel_enter sched frame).current
      rw [sessions_of_undisturbed (fileCall_serves current made).toUndisturbed]
      exact entered
  | read frame made =>
      have current := (inKernel_enter sched frame).current
      rw [sessions_of_undisturbed (read_serves current made).toUndisturbed]
      exact entered
  | resume frame made =>
      have current := (inKernel_enter sched frame).current
      rw [sessions_of_undisturbed (resume_serves current made).toUndisturbed]
      exact entered
  | rtcHandler frame =>
      rw [sessions_of_undisturbed (rtcHandler_undisturbed (m.entered ebp))]
      exact entered

end

/-! ## Calls that leave -/

/-- Process `pid` has been started on top of the active terminal's chain, from
`execute` with this frame pointer. -/
structure Child (s s' : Sessions) (pid frame : Nat) : Prop where
  fresh : ¬s.Alive pid
  active : s'.activeTermId = s.activeTermId
  head : s'.head = Function.update s.head s.activeTermId pid
  ebp : s'.ebp = s.ebp
  parent : s'.parent = Function.update s.parent pid (some (s.head s.activeTermId))
  parentEbp : s'.parentEbp = Function.update s.parentEbp pid frame
  alive : ∀ p, s'.Alive p → p = pid ∨ s.Alive p

/-- The base shell of the active terminal has been started again. -/
structure Again (s s' : Sessions) : Prop where
  root : s.parent (s.head s.activeTermId) = none
  active : s'.activeTermId = s.activeTermId
  head : s'.head = s.head
  ebp : s'.ebp = s.ebp
  parent : s'.parent = s.parent
  parentEbp : ∀ p, p ≠ s.head s.activeTermId → s'.parentEbp p = s.parentEbp p
  alive : ∀ p, s'.Alive p → s.Alive p

/-- The active terminal's process has ended, and its parent `q` goes on. -/
structure Returned (s s' : Sessions) (q : Nat) : Prop where
  up : s.parent (s.head s.activeTermId) = some q
  active : s'.activeTermId = s.activeTermId
  head : s'.head = Function.update s.head s.activeTermId q
  ebp : s'.ebp = s.ebp
  parent : s'.parent = s.parent
  parentEbp : s'.parentEbp = s.parentEbp
  alive : ∀ p, s'.Alive p → s.Alive p ∧ p ≠ s.head s.activeTermId

/-- Terminal `t` is active, and the process left has this saved frame pointer. -/
structure Turned (s s' : Sessions) (t frame : Nat) : Prop where
  low : t < terminalCount
  active : s'.activeTermId = t
  head : s'.head = s.head
  ebp : s'.ebp = Function.update s.ebp (s.head s.activeTermId) frame
  parent : s'.parent = s.parent
  parentEbp : s'.parentEbp = s.parentEbp
  alive : ∀ p, s'.Alive p → s.Alive p

section

variable {m m' : Machine} {magic : Nat → UInt8} {ended : Ended}

theorem execute_child {command : Option CString} (inside : InKernel m)
    (ran : m.execute command magic = some (m', .user)) :
    ∃ pid, Child m.sessions m'.sessions pid m.esp := by
  obtain ⟨_, how⟩ | ⟨pid, parent, launches, rfl, _⟩ := execute_some ran
  · cases how
  obtain ⟨low, absent, _⟩ := freePid_some launches.free
  have fresh : ¬m.sessions.Alive pid := fun alive => by
    have present : (m.pcbs pid).present = true := alive.2
    simp [absent] at present
  rcases launches.parent with ⟨base, _⟩ | ⟨_, curr, current, rfl⟩
  · exact absurd (inside.sched.base_alive base) fresh
  obtain rfl := Option.some.inj (inside.current.symm.trans current)
  refine ⟨pid, ?_⟩
  rw [launched_sessions]
  refine ⟨fresh, rfl, rfl, rfl, rfl, rfl, fun p alive => ?_⟩
  by_cases here : p = pid
  · exact Or.inl here
  · have present := alive.2
    simp only [Function.update_of_ne here] at present
    exact Or.inr ⟨alive.1, present⟩

theorem givenUp_sessions (m : Machine) (p : Nat) : (m.givenUp p).sessions =
    { m.sessions with present := Function.update m.sessions.present p false } :=
  released_sessions m p _ _

theorem restart_again {pid : Nat} {parent : Option Nat} (inside : InKernel m)
    (base : (m.terms m.activeTermId).pid < terminalCount)
    (launches : Launches (m.givenUp (m.terms m.activeTermId).pid) pid parent) :
    Again m.sessions ((m.givenUp (m.terms m.activeTermId).pid).launched pid parent).sessions := by
  obtain ⟨rfl, rfl⟩ := restarts_self inside base launches
  have head : m.sessions.head m.sessions.activeTermId = (m.terms m.activeTermId).pid := rfl
  obtain ⟨chains, forest⟩ := inside.sched.forest
  have root : m.sessions.parent (m.terms m.activeTermId).pid = none := forest.base_top ⟨_, base⟩
  have alive := inside.sched.head_alive inside.sched.active
  rw [head] at alive
  rw [launched_sessions, givenUp_sessions]
  refine ⟨head ▸ root, rfl, ?_, rfl, ?_, fun p other => ?_, fun p now => ?_⟩
  · exact Function.update_eq_self m.activeTermId m.sessions.head
  · simp only [← root, Function.update_eq_self]
  · exact Function.update_of_ne (head ▸ other) ..
  · by_cases here : p = (m.terms m.activeTermId).pid
    · exact here ▸ alive
    · have present := now.2
      simp only [Function.update_of_ne here] at present
      exact ⟨now.1, present⟩

/-- **What `halt` comes to**: the base shell again, or the parent goes on. -/
theorem halt_ends {status : UInt8} (inside : InKernel m)
    (ran : m.halt status magic = some (m', ended)) :
    (ended = .user ∧ Again m.sessions m'.sessions) ∨ ∃ q value,
      ended = .delivered q (m.terms m.activeTermId).pid value ∧ Returned m.sessions m'.sessions q := by
  obtain ⟨p, current, cases'⟩ := halt_inv ran
  obtain rfl := Option.some.inj (inside.current.symm.trans current)
  have alive := inside.sched.head_alive inside.sched.active
  have pid : (m.pcbs (m.terms m.activeTermId).pid).pid = (m.terms m.activeTermId).pid :=
    inside.sched.pid _ alive
  rcases cases' with ⟨base, pid', parent, launches, rfl, rfl⟩ | back
  · exact Or.inl ⟨rfl, restart_again inside (pid ▸ base) launches⟩
  · obtain ⟨q, up, rfl, _⟩ := returnToParent_some back
    have kernel : (m.givenUp (m.terms m.activeTermId).pid).userMode = false := inside.kernel
    obtain ⟨q', up', sessions⟩ := returned_sessions kernel back
    obtain rfl : q = q' := Option.some.inj (up.symm.trans up')
    rw [givenUp_sessions] at sessions up'
    have parentPid : m.sessions.pid q = q := by
      obtain ⟨chains, forest⟩ := inside.sched.forest
      exact inside.sched.pid q (forest.parent_live alive up')
    refine Or.inr ⟨q, _, rfl, ?_⟩
    rw [sessions]
    refine ⟨up', rfl, ?_, rfl, rfl, rfl, fun p now => ?_⟩
    · change Function.update m.sessions.head m.activeTermId (m.sessions.pid q) = _
      rw [parentPid]
      rfl
    · have present := now.2
      by_cases here : p = (m.terms m.activeTermId).pid
      · rw [here] at present
        simp only [Function.update_self] at present
        cases present
      · simp only [Function.update_of_ne here] at present
        exact ⟨⟨now.1, present⟩, here⟩

theorem turned_turned {t x : Nat} (inside : InKernel m) {mid : Machine} {curr : Nat}
    (same : mid.sessions = m.sessions) (kernel : mid.userMode = false) (esp : mid.esp = m.esp)
    (turns : Turns m mid curr t) (low : t < terminalCount) :
    Turned m.sessions ({ mid.turned curr t with esp := x } : Machine).sessions t m.esp := by
  obtain rfl := Option.some.inj (inside.current.symm.trans turns.current)
  have leaves : (m.terms m.activeTermId).pid = mid.sessions.head mid.sessions.activeTermId := by
    rw [same]
    rfl
  rw [leaves, turned_sessions (same ▸ inside.sched) kernel low x, esp, same]
  exact ⟨low, rfl, rfl, rfl, rfl, rfl, fun _ alive => alive⟩

/-- **What a tick comes to**: the next terminal's process goes on, or `halt` ends it
on its own stack. -/
theorem pitHandler_ends (inside : InKernel m) (ran : m.pitHandler magic = some (m', ended)) :
    ∃ n : Machine, Turned m.sessions n.sessions m.nextTermId m.esp ∧
      ((ended = .resumed ∧ m' = n) ∨ (InKernel n ∧
        n.esp = n.sessions.ebp (n.sessions.head n.sessions.activeTermId) ∧
        n.halt 6 magic = some (m', ended))) := by
  obtain ⟨curr, mid, m₁, rfl, turns, rfl, ended⟩ := pitHandler_some ran
  have screen := turnScreen_context m m.nextTermId
  have low : m.nextTermId < terminalCount := Nat.mod_lt _ (by decide)
  have same := sessions_of_mapped screen
  have kernel := (congrArg Context.userMode screen).trans inside.kernel
  have esp := congrArg Context.esp screen
  obtain ⟨saved, sched⟩ := scheduled_turn _ inside same kernel esp turns low
  rcases ended with ⟨_, halted⟩ | ⟨rfl, rfl⟩
  · exact ⟨_, turned_turned inside same kernel esp turns low,
      Or.inr ⟨⟨sched _ saved.1, kernel, saved⟩, rfl, halted⟩⟩
  · exact ⟨_, turned_turned inside same kernel esp turns low, Or.inl ⟨rfl, rfl⟩⟩

/-- **What a key comes to**: a terminal's process goes on, or the handler returns. -/
theorem keyboardHandler_ends {scancode : Nat} (inside : InKernel m)
    (ran : m.keyboardHandler scancode = some (m', ended)) :
    (ended = .resumed ∧ ∃ t, Turned m.sessions m'.sessions t m.esp) ∨
      ∃ v, ended = .returned v ∧ m'.sessions = m.sessions := by
  rcases keyboardHandler_some ran with ⟨t, low, switched⟩ | ⟨typed, rfl⟩
  · rcases switchTerminal_some switched with ⟨shown, rfl⟩ | ⟨curr, mid, m₁, _, swapped, turns, rfl, rfl, rfl⟩
    · rw [switchTerminal, if_pos shown] at switched
      cases switched
      exact Or.inr ⟨_, rfl, rfl⟩
    · have screen := swapScreens_context swapped
      have same : ({ mid with shownTermId := t } : Machine).sessions = m.sessions :=
        show mid.sessions = m.sessions from sessions_of_mapped screen
      exact Or.inl ⟨rfl, t, turned_turned inside same
        ((congrArg Context.userMode screen).trans inside.kernel) (congrArg Context.esp screen)
        ⟨turns.current, turns.inside⟩ low⟩
  · exact Or.inr ⟨_, rfl, sessions_of_drawn (typeKey_drawn typed)⟩

end

end Illinix.Linkage
