/-
# Kernel.System -- the whole kernel as one step relation

The runs here mix everything: the kernel calls of `KernelCalls`, the calls on
files, reads with their loops, and the RTC handler, each at any frame on the
kernel stack in use.

`Ran` says once what a step is, and the step lemmas go by its cases:
`scheduled_system` carries the invariant of `Coherence` over to these runs.  For
the descriptors `kernel_invariant` is the rule: a kernel call does to them
nothing but start a process (`launched`) or give one up (`givenUp`), so what
survives these two survives every kernel call.
-/
import Illinix.Kernel.Service
import Illinix.Kernel.Coherence

namespace Illinix.Kernel

open Illinix.FileSys Illinix.Theory Machine

set_option autoImplicit false

/-! ## Events -/

inductive SystemCall where
  | kernel (call : KernelCall)
  | file (call : FileCall)
  | read (fd : Int) (buf : Option (Nat → UInt8)) (count : Nat)
  | resume (fd : Int) (buf : Option (Nat → UInt8)) (count : Nat)
  | rtcHandler

/-- What a call has come to. -/
inductive Outcome where
  | ended (how : Ended)
  | reading (how : Reading)

def SystemCall.run (m : Machine) : SystemCall → Option (Machine × Outcome)
  | .kernel call => (call.run m).map fun r => (r.1, .ended r.2)
  | .file call => (call.run m).map fun r => (r.1, .ended (.returned r.2))
  | .read fd buf count => (m.read fd buf count).map fun r => (r.1, .reading r.2)
  | .resume fd buf count => (m.resume fd buf count).map fun r => (r.1, .reading r.2)
  | .rtcHandler => some (m.rtcHandler, .ended (.returned 0))

inductive SystemEvent where
  | call (ebp : Nat) (call : SystemCall)
  | iret

def SystemEvent.run (m : Machine) : SystemEvent → Option (Machine × Outcome)
  | .call ebp body => do
      let m ← m.enterKernel ebp
      body.run m
  | .iret => some ({ m with userMode := true }, .ended .user)

def systemStep (m : Machine) (e : SystemEvent) : Option Machine := (e.run m).map Prod.fst

/-- The machine as a call with this frame pointer finds it. -/
def Machine.entered (m : Machine) (ebp : Nat) : Machine := { m with esp := ebp, userMode := false }

theorem run_call {m m' : Machine} {ebp : Nat} {body : SystemCall} {outcome : Outcome} :
    SystemEvent.run m (.call ebp body) = some (m', outcome) ↔
      m.Frame ebp ∧ body.run (m.entered ebp) = some (m', outcome) := by
  simp only [SystemEvent.run, Machine.enterKernel, Option.bind_eq_bind, Option.bind_eq_some_iff]
  constructor
  · rintro ⟨mid, entered, ran⟩
    split_ifs at entered with frame
    obtain rfl := Option.some.inj entered
    exact ⟨frame, ran⟩
  · rintro ⟨frame, ran⟩
    exact ⟨_, if_pos frame, ran⟩

theorem systemStep_call {m m' : Machine} {ebp : Nat} {body : SystemCall} :
    systemStep m (.call ebp body) = some m' ↔
      m.Frame ebp ∧ ∃ outcome, body.run (m.entered ebp) = some (m', outcome) := by
  simp only [systemStep, Option.map_eq_some_iff, Prod.exists, exists_and_right, exists_eq_right]
  constructor
  · rintro ⟨outcome, ran⟩
    obtain ⟨frame, ran⟩ := run_call.1 ran
    exact ⟨frame, outcome, ran⟩
  · rintro ⟨frame, outcome, ran⟩
    exact ⟨outcome, run_call.2 ⟨frame, ran⟩⟩

/-- What a step is: the return to user mode, or a call at a frame. -/
inductive Ran (m : Machine) : SystemEvent → Machine → Outcome → Prop where
  | iret : Ran m .iret { m with userMode := true } (.ended .user)
  | kernel {ebp : Nat} {call : KernelCall} {m' : Machine} {how : Ended} (frame : m.Frame ebp)
      (made : call.run (m.entered ebp) = some (m', how)) :
      Ran m (.call ebp (.kernel call)) m' (.ended how)
  | file {ebp : Nat} {call : FileCall} {m' : Machine} {v : Int} (frame : m.Frame ebp)
      (made : call.run (m.entered ebp) = some (m', v)) :
      Ran m (.call ebp (.file call)) m' (.ended (.returned v))
  | read {ebp : Nat} {fd : Int} {buf : Option (Nat → UInt8)} {count : Nat} {m' : Machine}
      {r : Reading} (frame : m.Frame ebp)
      (made : (m.entered ebp).read fd buf count = some (m', r)) :
      Ran m (.call ebp (.read fd buf count)) m' (.reading r)
  | resume {ebp : Nat} {fd : Int} {buf : Option (Nat → UInt8)} {count : Nat} {m' : Machine}
      {r : Reading} (frame : m.Frame ebp)
      (made : (m.entered ebp).resume fd buf count = some (m', r)) :
      Ran m (.call ebp (.resume fd buf count)) m' (.reading r)
  | rtcHandler {ebp : Nat} (frame : m.Frame ebp) :
      Ran m (.call ebp .rtcHandler) (m.entered ebp).rtcHandler (.ended (.returned 0))

theorem ran_of_run {m m' : Machine} {e : SystemEvent} {outcome : Outcome}
    (ran : e.run m = some (m', outcome)) : Ran m e m' outcome := by
  cases e with
  | iret =>
      cases ran
      exact .iret
  | call ebp body =>
      obtain ⟨frame, ran⟩ := run_call.1 ran
      cases body with
      | kernel call =>
          obtain ⟨⟨mid, how⟩, made, same⟩ := Option.map_eq_some_iff.1 ran
          cases same
          exact .kernel frame made
      | file call =>
          obtain ⟨⟨mid, v⟩, made, same⟩ := Option.map_eq_some_iff.1 ran
          cases same
          exact .file frame made
      | read fd buf count =>
          obtain ⟨⟨mid, r⟩, made, same⟩ := Option.map_eq_some_iff.1 ran
          cases same
          exact .read frame made
      | resume fd buf count =>
          obtain ⟨⟨mid, r⟩, made, same⟩ := Option.map_eq_some_iff.1 ran
          cases same
          exact .resume frame made
      | rtcHandler =>
          cases ran
          exact .rtcHandler frame

theorem ran_of_step {m m' : Machine} {e : SystemEvent} (step : systemStep m e = some m') :
    ∃ outcome, Ran m e m' outcome := by
  obtain ⟨⟨next, outcome⟩, ran, rfl⟩ := Option.map_eq_some_iff.1 step
  exact ⟨outcome, ran_of_run ran⟩

/-! ## Scheduling -/

section

variable {m m' : Machine} {p : Nat}

theorem sessions_of_undisturbed (same : Undisturbed m m') : m'.sessions = m.sessions := by
  have field : ∀ {β : Type} (f : Pcb.Identity → β), (fun q => f (m'.pcbs q).identity) =
      fun q => f (m.pcbs q).identity := fun f => funext fun q => congrArg f (same.identity q)
  have rest := congrArg Context.sessions same.rest
  rw [show m'.sessions = m'.context.sessions from rfl, rest]
  simp only [Context.sessions, Machine.sessions]
  have present := field Pcb.Identity.present
  have pid := field Pcb.Identity.pid
  have parent := field Pcb.Identity.parent
  have ebp := field Pcb.Identity.ebp
  have parentEbp := field Pcb.Identity.parentEbp
  have esp0 := field Pcb.Identity.esp0
  simp only [Pcb.identity] at present pid parent ebp parentEbp esp0
  simp only [present, pid, parent, ebp, parentEbp, esp0]
  rfl

theorem rtcTick_identity (pcb : Pcb) : pcb.rtcTick.identity = pcb.identity := by
  simp only [Pcb.rtcTick]
  split_ifs <;> rfl

theorem rtcTick_serves (m : Machine) (p : Nat) : Serves p m (m.rtcTick p) :=
  serves_setPcb (rtcTick_identity _)

theorem rtcHandler_undisturbed (m : Machine) : Undisturbed m m.rtcHandler :=
  ((rtcTick_serves m 3).toUndisturbed.trans (rtcTick_serves _ 4).toUndisturbed).trans
    (rtcTick_serves _ 5).toUndisturbed

theorem rtcTick_devices (m : Machine) (p : Nat) : SameDevices m (m.rtcTick p) := by
  apply sameDevices_setPcb
  all_goals
    simp only [Pcb.rtcTick]
    split_ifs <;> rfl

theorem rtcHandler_devices (m : Machine) : SameDevices m m.rtcHandler :=
  ((rtcTick_devices m 3).trans (rtcTick_devices _ 4)).trans (rtcTick_devices _ 5)

/-- **Every step of the system keeps the scheduling invariant.** -/
theorem scheduled_system {e : SystemEvent} (sched : Scheduled m.sessions)
    (step : systemStep m e = some m') : Scheduled m'.sessions := by
  have serves : ∀ {ebp : Nat} {n : Machine}, m.Frame ebp → Undisturbed (m.entered ebp) n →
      Scheduled n.sessions := by
    intro ebp n frame same
    rw [sessions_of_undisturbed same]
    exact (inKernel_enter sched frame).sched
  obtain ⟨outcome, ran⟩ := ran_of_step step
  cases ran with
  | iret => exact scheduled_iret sched
  | kernel frame made => exact scheduled_run (inKernel_enter sched frame) made
  | file frame made =>
      have current := (inKernel_enter sched frame).current
      exact serves frame (fileCall_serves current made).toUndisturbed
  | read frame made =>
      have current := (inKernel_enter sched frame).current
      exact serves frame (read_serves current made).toUndisturbed
  | resume frame made =>
      have current := (inKernel_enter sched frame).current
      exact serves frame (resume_serves current made).toUndisturbed
  | rtcHandler frame => exact serves frame (rtcHandler_undisturbed _)

end

/-! ## Descriptors under the kernel calls -/

section

variable {m m' : Machine} {p : Nat} {magic : Nat → UInt8} {ended : Ended}

theorem turned_devices (m : Machine) (curr t : Nat) : SameDevices m (m.turned curr t) := by
  simp only [turned, switchTo]
  constructor
  · exact setPcb_field Pcb.present rfl
  · exact setPcb_field Pcb.files rfl
  · exact setPcb_field Pcb.rtc rfl

/-- **Descriptors under the kernel calls.** What depends on the descriptors, the
RTC flags and the file system survives a kernel call if it survives the start of
a process and the end of one. -/
theorem kernel_invariant (Inv : Machine → Prop)
    (same : ∀ {m m' : Machine}, SameDevices m m' → m'.fs = m.fs → Inv m → Inv m')
    (start : ∀ {m : Machine} {pid : Nat} {parent : Option Nat}, Launches m pid parent → Inv m →
      Inv (m.launched pid parent))
    (giveUp : ∀ {m : Machine} {p : Nat}, m.getCurrentPcb = some p → Inv m → Inv (m.givenUp p))
    {body : KernelCall} (ran : body.run m = some (m', ended)) (inv : Inv m) : Inv m' := by
  have alike : ∀ {m m' : Machine}, Inv m → m'.pcbs = m.pcbs → m'.fs = m.fs → Inv m' :=
    fun inv pcbs fs => same (sameDevices_of_pcbs pcbs) fs inv
  have drawn : ∀ {m m' : Machine}, Drawn m m' → Inv m → Inv m' := fun drawn inv =>
    alike inv drawn.pcbs drawn.fs
  have halts : ∀ {m m' : Machine} {status : UInt8} {magic : Nat → UInt8} {ended : Ended},
      m.halt status magic = some (m', ended) → Inv m → Inv m' := by
    intro m m' status magic ended ran inv
    obtain ⟨p, current, ⟨_, pid, parent, launches, rfl, _⟩ | back⟩ := halt_inv ran
    · exact start launches (giveUp current inv)
    · obtain ⟨q, _, _, rfl⟩ := returnToParent_some back
      exact alike (giveUp current inv) rfl rfl
  cases body with
  | execute command magic =>
      rcases execute_some ran with ⟨rfl, _⟩ | ⟨pid, parent, launches, rfl, _⟩
      · exact inv
      · exact start launches inv
  | halt status magic => exact halts ran inv
  | raise vector address =>
      obtain ⟨mid, raised, rfl, _⟩ := Option.map_eq_some_iff.1 ran
      obtain ⟨mid, drew, rfl⟩ := raise_some raised
      exact alike (drawn drew inv) rfl rfl
  | pitHandler magic =>
      obtain ⟨curr, mid, m₁, rfl, _, rfl, rest⟩ := pitHandler_some ran
      have screen := turnScreen_context m m.nextTermId
      have shown := alike inv (congrArg Context.pcbs screen) (congrArg Context.fs screen)
      have turned := same (turned_devices _ curr m.nextTermId) rfl shown
      rcases rest with ⟨_, halted⟩ | ⟨rfl, _⟩
      · exact halts halted (alike turned rfl rfl)
      · exact alike turned rfl rfl
  | keyboardHandler scancode =>
      rcases keyboardHandler_some ran with ⟨t, _, switched⟩ | ⟨typed, _⟩
      · rcases switchTerminal_some switched with ⟨_, rfl⟩ | ⟨curr, mid, m₁, _, swapped, _, rfl, rfl, _⟩
        · exact inv
        · have screen := swapScreens_context swapped
          have shown : Inv { mid with shownTermId := t } :=
            alike inv (congrArg Context.pcbs screen) (congrArg Context.fs screen)
          have turned := same (turned_devices _ curr t) rfl shown
          exact alike turned rfl rfl
      · exact drawn (typeKey_drawn typed) inv
  | vidmap start' =>
      obtain ⟨⟨mid, v⟩, mapped, same'⟩ := Option.map_eq_some_iff.1 ran
      obtain ⟨rfl, _⟩ := Prod.mk.inj same'
      rcases vidmap_some mapped with ⟨rfl, _⟩ | ⟨curr, _, _, rfl⟩
      · exact inv
      · have devices : SameDevices m (m.setPcb curr { m.pcbs curr with vidmap := true }) :=
          sameDevices_setPcb rfl rfl rfl
        exact alike (same devices rfl inv) rfl rfl
  | putc c =>
      obtain ⟨mid, drew, rfl, _⟩ := Option.map_eq_some_iff.1 ran
      exact drawn (putc_drawn drew) inv

theorem launched_files (m : Machine) (pid : Nat) (parent : Option Nat) (q : Nat) :
    ((m.launched pid parent).pcbs q).files =
      if q = pid then startFiles (m.pcbs q).files else (m.pcbs q).files := by
  by_cases here : q = pid
  · subst here
    simp [launched, launching, setTerm, setPcb]
  · simp [launched, launching, setTerm, setPcb, here]

theorem givenUp_files (m : Machine) (p q : Nat) : ((m.givenUp p).pcbs q).files =
    if q = p then closeEach (m.pcbs q).files [2, 3, 4, 5, 6, 7] else (m.pcbs q).files := by
  by_cases here : q = p
  · subst here
    simp [givenUp, released, refiled, setTerm]
  · simp [givenUp, released, refiled, setTerm, here]

theorem givenUp_present (m : Machine) (p q : Nat) :
    ((m.givenUp p).pcbs q).present = if q = p then false else (m.pcbs q).present := by
  by_cases here : q = p
  · subst here
    simp [givenUp, released, refiled, setTerm, setPcb]
  · simp [givenUp, released, refiled, setTerm, setPcb, here]

/-- A kernel call leaves the file system alone. -/
theorem kernel_fs {call : KernelCall} (ran : call.run m = some (m', ended)) : m'.fs = m.fs := by
  refine kernel_invariant (fun n => n.fs = m.fs) ?_ ?_ ?_ ran rfl
  · intro n n' _ fs same
    exact fs.trans same
  · exact fun _ same => same
  · exact fun _ same => same

/-- Only a call on files changes the file system. -/
theorem fs_or_fileCall {e : SystemEvent} (step : systemStep m e = some m') :
    m'.fs = m.fs ∨ ∃ ebp call v, e = .call ebp (.file call) ∧
      call.run (m.entered ebp) = some (m', v) := by
  obtain ⟨outcome, ran⟩ := ran_of_step step
  cases ran with
  | iret => exact Or.inl rfl
  | @kernel ebp _ _ _ _ made => exact Or.inl (kernel_fs (m := m.entered ebp) made)
  | @file ebp call _ v _ made => exact Or.inr ⟨ebp, call, v, rfl, made⟩
  | read _ made => exact Or.inl (read_butPos made).2
  | resume _ made => exact Or.inl (resume_butPos made).2
  | rtcHandler => exact Or.inl rfl

/-! ## Descriptors under a step -/

end

end Illinix.Kernel
