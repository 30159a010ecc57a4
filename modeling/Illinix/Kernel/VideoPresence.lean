/-
# Kernel.VideoPresence -- which processes reach the video page

The user's page table entry for the video page should be present exactly while
the running process has called `vidmap`.  `vidmap`, the tick and the terminal
switch store the entry for the process that runs next.  `execute` and `halt`
change the running process and leave the entry as it is.

`presence_iff` is exact: the entry is right in every state of a run if and only
if control goes from one process to another within a terminal, by `execute` or
`halt`, only between processes with the same `vidmap` flag.  `flag_origin` says
that a flag comes from a call of `vidmap` by its process and nowhere else.
-/
import Illinix.Kernel.Restart

namespace Illinix.Kernel

open Illinix.FileSys Illinix.Theory Machine

set_option autoImplicit false

/-- The entry for the video page is present exactly if the running process has
called `vidmap`. -/
def Presence (m : Machine) : Prop :=
  ∃ p, m.running = some p ∧ m.userVidmem.present = (m.pcbs p).vidmap

/-- `execute` gets past its checks and takes the PCB `pid`. -/
structure Starts (m : Machine) (command : Option CString) (magic : Nat → UInt8) (pid : Nat) :
    Prop where
  executable : ∃ name, command.bind commandName = some name ∧
    checkExecutable m.fs name magic = some true
  free : m.freePid = some pid

/-- The event hands control over within a terminal, from a process with the flag
`old` to one with the flag `new`: to the program that `execute` starts, to the
parent of a child that halts, or to the base shell that is started again. -/
inductive HandsOver (m : Machine) : SystemEvent → Bool → Bool → Prop where
  | starts {ebp pid p : Nat} {command : Option CString} {magic : Nat → UInt8}
      (frame : m.Frame ebp) (current : (m.entered ebp).getCurrentPcb = some p)
      (starts : Starts (m.entered ebp) command magic pid) :
      HandsOver m (.call ebp (.kernel (.execute command magic))) (m.pcbs p).vidmap
        (m.pcbs pid).vidmap
  | returns {e : SystemEvent} {n : Machine} {status : UInt8} {magic : Nat → UInt8} {p q : Nat}
      (halting : Halting m e n status magic) (current : n.getCurrentPcb = some p)
      (child : terminalCount ≤ p) (up : (n.pcbs p).parent = some q) :
      HandsOver m e (n.pcbs p).vidmap (n.pcbs q).vidmap
  | restarts {e : SystemEvent} {n : Machine} {status : UInt8} {magic : Nat → UInt8} {p : Nat}
      (halting : Halting m e n status magic) (current : n.getCurrentPcb = some p)
      (base : p < terminalCount) (executable : checkExecutable m.fs shellName magic = some true) :
      HandsOver m e (n.pcbs p).vidmap false

def FlagsAgree (m : Machine) (e : SystemEvent) : Prop :=
  ∀ old new, HandsOver m e old new → old = new

section

variable {m m' n : Machine} {e : SystemEvent} {magic : Nat → UInt8} {status : UInt8} {ended : Ended}

/-! ## The entry and the active terminal's process -/

/-- The entry is the one of the active terminal's process. -/
def Right (m : Machine) : Prop :=
  m.userVidmem.present = (m.pcbs (m.terms m.activeTermId).pid).vidmap

theorem presence_iff_right (sched : Scheduled m.sessions) : Presence m ↔ Right m := by
  have running := (coherent_of_scheduled sched).running
  constructor
  · rintro ⟨p, running', right⟩
    obtain rfl := Option.some.inj (running.symm.trans running')
    exact right
  · exact fun right => ⟨_, running, right⟩

theorem right_of_undisturbed (same : Undisturbed m m') (right : Right m) : Right m' := by
  have user : m'.userVidmem = m.userVidmem := congrArg Context.userVidmem same.rest
  have pids : (fun t => (m'.terms t).pid) = fun t => (m.terms t).pid :=
    congrArg Context.pids same.rest
  have active : m'.activeTermId = m.activeTermId := congrArg Context.activeTermId same.rest
  have head : (m'.terms m.activeTermId).pid = (m.terms m.activeTermId).pid :=
    congrFun pids m.activeTermId
  have flag : (m'.pcbs (m.terms m.activeTermId).pid).vidmap =
      (m.pcbs (m.terms m.activeTermId).pid).vidmap :=
    congrArg Pcb.Identity.vidmap (same.identity _)
  simp only [Right]
  rw [user, active, head, flag]
  exact right

theorem right_of_drawn (drawn : Drawn m m') (right : Right m) : Right m' :=
  right_of_undisturbed (Serves.toUndisturbed (serves_of_drawn drawn : Serves 0 m m')) right

/-! ## Calls that store the entry -/

theorem turned_right (m : Machine) (curr t : Nat) : Right (m.turned curr t) := by
  simp only [Right, turned, switchTo]
  rfl

theorem handedOver_right (m : Machine) : Right m.handedOver := by
  have right := turned_right (m.turnScreen m.nextTermId) (m.terms m.activeTermId).pid m.nextTermId
  exact right

theorem pitHandler_right (ran : m.pitHandler magic = some (m', ended))
    (unmarked : (m.terms m.nextTermId).toBeHalt = false) : Right m' := by
  obtain ⟨curr, mid, m₁, rfl, _, rfl, ended⟩ := pitHandler_some ran
  rcases ended with ⟨marked, _⟩ | ⟨rfl, _⟩
  · rw [turnScreen_toBeHalt, unmarked] at marked
    cases marked
  · exact turned_right _ curr m.nextTermId

theorem switchTerminal_right {t : Nat} (right : Right m)
    (ran : m.switchTerminal t = some (m', ended)) : Right m' := by
  rcases switchTerminal_some ran with ⟨_, rfl⟩ | ⟨curr, mid, m₁, _, _, _, rfl, rfl, _⟩
  · exact right
  · exact turned_right _ curr t

theorem vidmap_right {start : Nat} {v : Int} (inside : InKernel m) (right : Right m)
    (ran : m.vidmap start = some (m', v)) : Right m' := by
  rcases vidmap_some ran with ⟨rfl, _⟩ | ⟨curr, current, _, rfl⟩
  · exact right
  · obtain rfl := Option.some.inj (inside.current.symm.trans current)
    simp only [Right]
    simp [setPcb]

/-! ## Calls that hand over -/

theorem right_of_halting (sched : Scheduled m.sessions) (presence : Presence m)
    (halting : Halting m e n status magic) : Right n := by
  cases halting with
  | halt frame => exact (presence_iff_right sched).1 presence
  | ctrlC frame marked => exact handedOver_right _

/-- `execute` starts a child of the running process, with the entry as it is. -/
theorem execute_of_starts {command : Option CString} {pid : Nat} (inside : InKernel m)
    (starts : Starts m command magic pid) : m.execute command magic =
      some (m.launched pid (some (m.terms m.activeTermId).pid), .user) := by
  obtain ⟨⟨name, parsed, executable⟩, free⟩ := starts
  have child : ¬pid < terminalCount := by
    intro base
    obtain ⟨_, absent, _⟩ := freePid_some free
    have present : (m.pcbs pid).present = true := (inside.sched.base_alive base).2
    exact Bool.noConfusion (absent.symm.trans present)
  simp only [execute]
  rw [parsed]
  dsimp only
  rw [executable, Option.bind_eq_bind, Option.bind_some, if_pos rfl, free]
  dsimp only
  rw [if_neg child, inside.current]
  rfl

theorem starts_of_execute {command : Option CString}
    (ran : m.execute command magic = some (m', ended)) :
    m' = m ∨ ∃ pid, Starts m command magic pid := by
  simp only [execute] at ran
  split at ran
  · cases ran
    exact Or.inl rfl
  · rename_i name parsed
    obtain ⟨executable, checked, ran⟩ := Option.bind_eq_some_iff.1 ran
    split at ran
    · rename_i yes
      rw [yes] at checked
      split at ran
      · cases ran
        exact Or.inl rfl
      · rename_i pid free
        exact Or.inr ⟨pid, ⟨name, parsed, checked⟩, free⟩
    · cases ran
      exact Or.inl rfl

theorem launched_vidmap (m : Machine) (pid : Nat) (parent : Option Nat) (q : Nat) :
    ((m.launched pid parent).pcbs q).vidmap = (m.pcbs q).vidmap := by
  simp only [launched, launching]
  apply setPcb_field Pcb.vidmap
  rfl

theorem givenUp_vidmap (m : Machine) (p q : Nat) :
    ((m.givenUp p).pcbs q).vidmap = if q = p then false else (m.pcbs q).vidmap := by
  by_cases here : q = p
  · subst here
    simp [givenUp, released, refiled, setTerm, setPcb]
  · simp [givenUp, released, refiled, setTerm, setPcb, here]

theorem launched_right (m : Machine) (pid : Nat) (parent : Option Nat) :
    Right (m.launched pid parent) ↔ m.userVidmem.present = (m.pcbs pid).vidmap := by
  have head := launched_head m pid parent
  have active : (m.launched pid parent).activeTermId = m.activeTermId := rfl
  have user : (m.launched pid parent).userVidmem = m.userVidmem := rfl
  simp only [Right]
  rw [active, head, launched_vidmap, user]

theorem returned_right {p q : Nat} (up : (m.pcbs p).parent = some q) (pid : (m.pcbs q).pid = q)
    (ran : m.returnToParent p status = some (m', ended)) :
    Right m' ↔ m.userVidmem.present = (m.pcbs q).vidmap := by
  obtain ⟨q', up', _, rfl⟩ := returnToParent_some ran
  obtain rfl := Option.some.inj (up.symm.trans up')
  unfold Right leaveRet setTerm
  dsimp only
  rw [Function.update_self, pid]

/-- A child's `halt` returns to its parent, with the entry as it is. -/
theorem halt_to_parent {q : Nat} (inside : InKernel n)
    (child : terminalCount ≤ (n.terms n.activeTermId).pid)
    (up : (n.pcbs (n.terms n.activeTermId).pid).parent = some q) :
    ∃ n' ended, n.halt status magic = some (n', ended) ∧
      (Right n' ↔ n.userVidmem.present = (n.pcbs q).vidmap) := by
  obtain ⟨n', ended, halted⟩ := halt_child inside child status magic
  refine ⟨n', ended, halted, ?_⟩
  have alive := inside.sched.head_alive inside.sched.active
  obtain ⟨chains, forest⟩ := inside.sched.forest
  have other : q ≠ (n.terms n.activeTermId).pid := forest.parent_ne alive up
  have pid : (n.pcbs q).pid = q := inside.sched.pid q (forest.parent_live alive up)
  have sessions := givenUp_sessions n (n.terms n.activeTermId).pid
  rw [halt_eq inside.current, inside.pid, if_neg (Nat.not_lt.2 child)] at halted
  have up' : ((n.givenUp (n.terms n.activeTermId).pid).pcbs (n.terms n.activeTermId).pid).parent =
      some q := (congrFun (congrArg Sessions.parent sessions) _).trans up
  have pid' : ((n.givenUp (n.terms n.activeTermId).pid).pcbs q).pid = q :=
    (congrFun (congrArg Sessions.pid sessions) q).trans pid
  have back := returned_right up' pid' halted
  rw [back, givenUp_vidmap, if_neg other]
  rfl

/-- A base shell's `halt` starts the shell again, with the entry as it is. -/
theorem halt_to_shell (inside : InKernel n) (base : (n.terms n.activeTermId).pid < terminalCount)
    (executable : checkExecutable n.fs shellName magic = some true) :
    ∃ n' ended, n.halt status magic = some (n', ended) ∧
      (Right n' ↔ n.userVidmem.present = false) := by
  have halted := halt_base inside base status magic
  rw [if_pos executable] at halted
  refine ⟨_, _, halted, ?_⟩
  rw [launched_right, givenUp_vidmap, if_pos rfl]
  rfl

/-- **What a handover does**: it never fails, and the entry is right afterwards
exactly if the two flags agree. -/
theorem handsOver_step {old new : Bool} (sched : Scheduled m.sessions) (presence : Presence m)
    (hands : HandsOver m e old new) :
    ∃ m', systemStep m e = some m' ∧ (Presence m' ↔ old = new) := by
  have halts : ∀ {n : Machine} {status : UInt8} {magic : Nat → UInt8} {n' : Machine} {ended : Ended},
      Halting m e n status magic → n.halt status magic = some (n', ended) →
        systemStep m e = some n' := by
    intro n status magic n' ended halting halted
    obtain ⟨_, _, ran⟩ := halting_inKernel sched halting
    simp only [systemStep]
    rw [ran, halted]
    rfl
  cases hands with
  | @starts ebp pid p command magic frame current starts =>
      have inside : InKernel (m.entered ebp) := inKernel_enter sched frame
      have right : Right (m.entered ebp) := (presence_iff_right sched).1 presence
      obtain rfl : p = _ := Option.some.inj (current.symm.trans inside.current)
      have ran := execute_of_starts inside starts
      have made : SystemCall.run (m.entered ebp) (.kernel (.execute command magic)) =
          some ((m.entered ebp).launched pid (some ((m.entered ebp).terms m.activeTermId).pid),
            .ended .user) := by
        unfold SystemCall.run KernelCall.run
        dsimp only
        rw [ran]
        rfl
      have step := systemStep_call.2 ⟨frame, _, made⟩
      refine ⟨_, step, ?_⟩
      rw [presence_iff_right (scheduled_system sched step)]
      exact (launched_right _ _ _).trans (by rw [right]; rfl)
  | @returns e n status magic p q halting current child up =>
      obtain ⟨inside, _, _⟩ := halting_inKernel sched halting
      have right := right_of_halting sched presence halting
      obtain rfl : p = _ := Option.some.inj (current.symm.trans inside.current)
      obtain ⟨n', ended, halted, back⟩ := halt_to_parent inside child up
      have step := halts halting halted
      refine ⟨n', step, ?_⟩
      rw [presence_iff_right (scheduled_system sched step)]
      exact back.trans (by rw [right])
  | @restarts e n status magic p halting current base executable =>
      obtain ⟨inside, fs, _⟩ := halting_inKernel sched halting
      have right := right_of_halting sched presence halting
      obtain rfl : p = _ := Option.some.inj (current.symm.trans inside.current)
      rw [← fs] at executable
      obtain ⟨n', ended, halted, back⟩ := halt_to_shell inside base executable
      have step := halts halting halted
      refine ⟨n', step, ?_⟩
      rw [presence_iff_right (scheduled_system sched step)]
      exact back.trans (by rw [right])

/-- A `halt` that ends hands over. -/
theorem handsOver_of_halting (sched : Scheduled m.sessions) (halting : Halting m e n status magic)
    (step : systemStep m e = some m') : ∃ old new, HandsOver m e old new := by
  obtain ⟨inside, fs, ran⟩ := halting_inKernel sched halting
  by_cases base : (n.terms n.activeTermId).pid < terminalCount
  · simp only [systemStep] at step
    rw [ran, halt_base inside base, fs] at step
    split_ifs at step with executable
    · exact ⟨_, _, .restarts halting inside.current base executable⟩
    · cases step
  · have child := Nat.le_of_not_lt base
    obtain ⟨n', ended, halted⟩ := halt_child inside child status magic
    rw [halt_eq inside.current, inside.pid, if_neg base] at halted
    obtain ⟨q, up, _⟩ := returnToParent_some halted
    have parent : ((n.givenUp (n.terms n.activeTermId).pid).pcbs (n.terms n.activeTermId).pid).parent =
        (n.pcbs (n.terms n.activeTermId).pid).parent :=
      congrFun (congrArg Sessions.parent (givenUp_sessions n _)) _
    exact ⟨_, _, .returns halting inside.current child (parent.symm.trans up)⟩

theorem kernel_handsOver {ebp : Nat} {call : KernelCall} (sched : Scheduled m.sessions)
    (presence : Presence m) (frame : m.Frame ebp)
    (step : systemStep m (.call ebp (.kernel call)) = some m')
    (made : call.run (m.entered ebp) = some (m', ended)) :
    (∃ old new, HandsOver m (.call ebp (.kernel call)) old new) ∨ Right m' := by
  have inside : InKernel (m.entered ebp) := inKernel_enter sched frame
  have right : Right (m.entered ebp) := (presence_iff_right sched).1 presence
  cases call with
  | execute command magic =>
      rcases starts_of_execute made with rfl | ⟨pid, starts⟩
      · exact Or.inr right
      · exact Or.inl ⟨_, _, .starts frame inside.current starts⟩
  | halt status magic => exact Or.inl (handsOver_of_halting sched (.halt frame) step)
  | raise vector address =>
      obtain ⟨mid, raised, same⟩ := Option.map_eq_some_iff.1 made
      cases same
      obtain ⟨mid, drawn, rfl⟩ := raise_some raised
      have right' : Right mid := right_of_drawn drawn right
      exact Or.inr right'
  | pitHandler magic =>
      by_cases marked : ((m.entered ebp).terms (m.entered ebp).nextTermId).toBeHalt = true
      · exact Or.inl (handsOver_of_halting sched (.ctrlC frame marked) step)
      · exact Or.inr (pitHandler_right made (Bool.not_eq_true _ ▸ marked))
  | keyboardHandler scancode =>
      rcases keyboardHandler_some made with ⟨t, _, switched⟩ | ⟨typed, _⟩
      · exact Or.inr (switchTerminal_right right switched)
      · exact Or.inr (right_of_drawn ((typeKey_drawn typed)) right)
  | vidmap start =>
      obtain ⟨⟨mid, v⟩, mapped, same⟩ := Option.map_eq_some_iff.1 made
      cases same
      exact Or.inr (vidmap_right inside right mapped)
  | putc c =>
      obtain ⟨mid, drew, same⟩ := Option.map_eq_some_iff.1 made
      cases same
      exact Or.inr (right_of_drawn ((putc_drawn drew)) right)

/-- Any step that hands nothing over leaves the entry right. -/
theorem step_handsOver (sched : Scheduled m.sessions) (presence : Presence m)
    (step : systemStep m e = some m') : (∃ old new, HandsOver m e old new) ∨ Presence m' := by
  rw [presence_iff_right (scheduled_system sched step)]
  have right := (presence_iff_right sched).1 presence
  have serves : ∀ {ebp : Nat} {n : Machine}, Undisturbed (m.entered ebp) n → Right n :=
    fun same => right_of_undisturbed same right
  obtain ⟨outcome, ran⟩ := ran_of_step step
  cases ran with
  | iret => exact Or.inr right
  | kernel frame made => exact kernel_handsOver sched presence frame step made
  | file frame made =>
      have current := (inKernel_enter sched frame).current
      exact Or.inr (serves (fileCall_serves current made).toUndisturbed)
  | read frame made =>
      have current := (inKernel_enter sched frame).current
      exact Or.inr (serves (read_serves current made).toUndisturbed)
  | resume frame made =>
      have current := (inKernel_enter sched frame).current
      exact Or.inr (serves (resume_serves current made).toUndisturbed)
  | rtcHandler frame => exact Or.inr (serves (rtcHandler_undisturbed _))

/-- **One step** keeps the entry right exactly if the flags agree. -/
theorem presence_step_iff (sched : Scheduled m.sessions) (presence : Presence m)
    (step : systemStep m e = some m') : Presence m' ↔ FlagsAgree m e := by
  have after : ∀ old new, HandsOver m e old new → (Presence m' ↔ old = new) := by
    intro old new hands
    obtain ⟨next, stepped, same⟩ := handsOver_step sched presence hands
    obtain rfl := Option.some.inj (step.symm.trans stepped)
    exact same
  constructor
  · exact fun right old new hands => (after old new hands).1 right
  · intro agree
    rcases step_handsOver sched presence step with ⟨old, new, hands⟩ | right
    · exact (after old new hands).2 (agree old new hands)
    · exact right

/-! ## Where a flag comes from -/

/-- The event is a call of `vidmap` by process `p`. -/
def CallsVidmap (m : Machine) (e : SystemEvent) (p : Nat) : Prop :=
  ∃ ebp start, e = .call ebp (.kernel (.vidmap start)) ∧ (m.entered ebp).getCurrentPcb = some p

theorem turned_vidmap (m : Machine) (curr t q : Nat) :
    ((m.turned curr t).pcbs q).vidmap = (m.pcbs q).vidmap := by
  simp only [turned, switchTo]
  apply setPcb_field Pcb.vidmap
  rfl

theorem turned_vidmap_of {mid : Machine} {curr t q : Nat} (pcbs : mid.pcbs = m.pcbs)
    (set : ((mid.turned curr t).pcbs q).vidmap = true) : (m.pcbs q).vidmap = true := by
  rw [turned_vidmap, pcbs] at set
  exact set

theorem halt_vidmap {q : Nat} (ran : m.halt status magic = some (m', ended))
    (set : (m'.pcbs q).vidmap = true) : (m.pcbs q).vidmap = true := by
  have kept : ∀ p, ((m.givenUp p).pcbs q).vidmap = true → (m.pcbs q).vidmap = true := by
    intro p set
    rw [givenUp_vidmap] at set
    split_ifs at set
    · exact set
  obtain ⟨p, _, ⟨_, pid, parent, _, rfl, _⟩ | back⟩ := halt_inv ran
  · rw [launched_vidmap] at set
    exact kept p set
  · obtain ⟨_, _, _, rfl⟩ := returnToParent_some back
    exact kept p set

theorem kernel_vidmap {ebp q : Nat} {call : KernelCall}
    (made : call.run (m.entered ebp) = some (m', ended)) (set : (m'.pcbs q).vidmap = true) :
    (m.pcbs q).vidmap = true ∨ CallsVidmap m (.call ebp (.kernel call)) q := by
  cases call with
  | execute command magic =>
      rcases execute_some made with ⟨rfl, _⟩ | ⟨pid, parent, _, rfl, _⟩
      · exact Or.inl set
      · rw [launched_vidmap] at set
        exact Or.inl set
  | halt status magic => exact Or.inl (halt_vidmap (m := m.entered ebp) made set)
  | raise vector address =>
      obtain ⟨mid, raised, same⟩ := Option.map_eq_some_iff.1 made
      cases same
      obtain ⟨mid, drawn, rfl⟩ := raise_some raised
      have pcbs : mid.pcbs = m.pcbs := drawn.pcbs
      exact Or.inl (pcbs ▸ set)
  | pitHandler magic =>
      obtain ⟨curr, mid, m₁, same, _, rfl, rest⟩ := pitHandler_some made
      have pcbs : mid.pcbs = m.pcbs := by
        rw [same]
        exact congrArg Context.pcbs (turnScreen_context _ _)
      rcases rest with ⟨_, halted⟩ | ⟨rfl, _⟩
      · have before := halt_vidmap halted set
        exact Or.inl (turned_vidmap_of pcbs before)
      · have before : ((mid.turned curr _).pcbs q).vidmap = true := set
        exact Or.inl (turned_vidmap_of pcbs before)
  | keyboardHandler scancode =>
      rcases keyboardHandler_some made with ⟨t, _, switched⟩ | ⟨typed, _⟩
      · rcases switchTerminal_some switched with ⟨_, rfl⟩ | ⟨curr, mid, m₁, _, swapped, _, rfl, rfl, _⟩
        · exact Or.inl set
        · have pcbs : ({ mid with shownTermId := t } : Machine).pcbs = m.pcbs :=
            congrArg Context.pcbs (swapScreens_context swapped)
          have before : ((({ mid with shownTermId := t } : Machine).turned curr t).pcbs q).vidmap =
              true := set
          exact Or.inl (turned_vidmap_of pcbs before)
      · have pcbs : m'.pcbs = m.pcbs := (typeKey_drawn typed).pcbs
        exact Or.inl (pcbs ▸ set)
  | vidmap start =>
      obtain ⟨⟨mid, v⟩, mapped, same⟩ := Option.map_eq_some_iff.1 made
      cases same
      rcases vidmap_some mapped with ⟨rfl, _⟩ | ⟨curr, current, _, rfl⟩
      · exact Or.inl set
      · by_cases here : q = curr
        · exact Or.inr ⟨ebp, start, rfl, here ▸ current⟩
        · have set' : (((m.entered ebp).setPcb curr { (m.entered ebp).pcbs curr with
              vidmap := true }).pcbs q).vidmap = true := set
          rw [setPcb_other _ _ here] at set'
          exact Or.inl set'
  | putc c =>
      obtain ⟨mid, drew, same⟩ := Option.map_eq_some_iff.1 made
      cases same
      have pcbs : m'.pcbs = m.pcbs := (putc_drawn drew).pcbs
      exact Or.inl (pcbs ▸ set)

/-- **A flag comes from its process's call of `vidmap`.** -/
theorem flag_origin {q : Nat} (sched : Scheduled m.sessions) (step : systemStep m e = some m')
    (set : (m'.pcbs q).vidmap = true) : (m.pcbs q).vidmap = true ∨ CallsVidmap m e q := by
  have serves : ∀ {ebp : Nat}, Undisturbed (m.entered ebp) m' → (m.pcbs q).vidmap = true := by
    intro ebp same
    exact (congrArg Pcb.Identity.vidmap (same.identity q)).symm.trans set
  obtain ⟨outcome, ran⟩ := ran_of_step step
  cases ran with
  | iret => exact Or.inl set
  | kernel frame made => exact kernel_vidmap made set
  | file frame made =>
      have current := (inKernel_enter sched frame).current
      exact Or.inl (serves (fileCall_serves current made).toUndisturbed)
  | read frame made =>
      have current := (inKernel_enter sched frame).current
      exact Or.inl (serves (read_serves current made).toUndisturbed)
  | resume frame made =>
      have current := (inKernel_enter sched frame).current
      exact Or.inl (serves (resume_serves current made).toUndisturbed)
  | rtcHandler frame => exact Or.inl (serves (rtcHandler_undisturbed _))

end

/-! ## Runs -/

theorem presence_start {m : Machine} (booted : m.Booted) :
    Presence m.mapTerminals.startShells := by
  rw [presence_iff_right (scheduled_start booted)]
  have active : m.mapTerminals.startShells.activeTermId = 0 :=
    (start_activeTermId m).trans booted.active
  simp only [Right]
  rw [active]
  simp [startShells, setUpShell, leaveRet, setScreenCoordinate, setPcb, setTerm, mapTerminals,
    booted.userVidmem]

/-- **The entry is the running process's in every state of a run** exactly if each
`execute` and `halt` of it hands over between processes with the same flag. -/
theorem presence_iff (m₀ m : Machine) (magic : Nat → UInt8) (booted : m₀.Booted)
    (started : m₀.initiateShells magic = some (m, true)) (run : List SystemEvent) :
    (Presence m ∧ Every systemStep (fun _ _ m' => Presence m') m run) ↔
      Meets systemStep FlagsAgree m run := by
  obtain rfl := initiateShells_some started
  have start := presence_start booted
  rw [and_iff_right start]
  apply every_iff_meets (fun m => Scheduled m.sessions ∧ Presence m)
  · rintro m e m' ⟨sched, presence⟩ step
    exact presence_step_iff sched presence step
  · rintro m e ⟨sched, presence⟩ stuck old new hands
    obtain ⟨m', step, _⟩ := handsOver_step sched presence hands
    rw [stuck] at step
    cases step
  · rintro m e m' ⟨sched, presence⟩ agree step
    exact ⟨scheduled_system sched step, (presence_step_iff sched presence step).2 agree⟩
  · exact ⟨scheduled_start booted, start⟩

/-- The first shell calls `vidmap`. -/
theorem shell_vidmap_present : Presence shells ∧ Every systemStep (fun _ _ m' => Presence m') shells
    [.iret, .call 0x7FFF00 (.kernel (.vidmap 0x8000000))] := by
  have alone : ∀ m e, (e = .iret ∨ e = .call 0x7FFF00 (.kernel (.vidmap 0x8000000))) →
      FlagsAgree m e := by
    rintro m e (rfl | rfl) old new hands
    all_goals
      cases hands with
      | returns halting _ _ _ => cases halting
      | restarts halting _ _ _ => cases halting
  have agree : Meets systemStep FlagsAgree shells
      [.iret, .call 0x7FFF00 (.kernel (.vidmap 0x8000000))] :=
    ⟨alone _ _ (Or.inl rfl), fun _ _ => ⟨alone _ _ (Or.inr rfl), fun _ _ => trivial⟩⟩
  exact (presence_iff (mounted shellFs) shells (fun _ => 0) (mounted_booted shellFs)
    shells_started _).2 agree

/-- It runs a program then, which never calls `vidmap` and has the page. -/
theorem child_inherits_page : ¬(Presence shells ∧
    Every systemStep (fun _ _ m' => Presence m') shells
      [.iret, .call 0x7FFF00 (.kernel (.vidmap 0x8000000)),
        .call 0x7FFF00 (.kernel (.execute (some shellName) fun _ => 0))]) := by
  rintro ⟨start, every⟩
  have state : (after systemStep shells [.iret, .call 0x7FFF00 (.kernel (.vidmap 0x8000000)),
      .call 0x7FFF00 (.kernel (.execute (some shellName) fun _ => 0))]).map (fun m =>
        (m.running, m.userVidmem.present, (m.pcbs 3).vidmap)) = some (some 3, true, false) := by
    rfl
  obtain ⟨m, reached, facts⟩ := Option.map_eq_some_iff.1 state
  obtain ⟨p, running, right⟩ := after_of_every _ _ _ start every reached
  simp only [Prod.mk.injEq] at facts
  obtain ⟨child, present, flag⟩ := facts
  obtain rfl : 3 = p := Option.some.inj (child.symm.trans running)
  rw [present, flag] at right
  cases right

end Illinix.Kernel
