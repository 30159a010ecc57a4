/-
# Kernel.VideoMap -- where the two video pages point

The kernel's and the user's page table entry for the video page should both be
the display while the active terminal is shown, and the active terminal's hidden
buffer otherwise.  The tick and the terminal switch compute the frame from the
terminal's index; `vidmap` computes it from the process's pid.

`mapped_iff` is exact: the pages are right after every step of a run if and only
if each `vidmap` of the run comes from the shown terminal, or from a process whose
pid is its terminal's index, which is to say a base shell.

The steps are whole calls: no key and no tick comes inside `vidmap`, though the
kernel leaves interrupts on in it.
-/
import Illinix.Kernel.Coherence

namespace Illinix.Kernel

open Illinix.FileSys Illinix.Theory Machine

set_option autoImplicit false

/-- The frame the active terminal draws in. -/
def Machine.activeFrame (m : Machine) : Nat :=
  if m.activeTermId = m.shownTermId then vidmemIndex else vidmemIndex + 2 + m.activeTermId

structure Mapped (m : Machine) : Prop where
  kernel : (m.screen.vid.kernelVidmem vidmemIndex).base = m.activeFrame
  user : m.userVidmem.base = m.activeFrame

/-- What the two pages depend on. -/
structure Mapping where
  activeTermId : Nat
  shownTermId : Nat
  kernelBase : Nat
  userBase : Nat

def Machine.mapping (m : Machine) : Mapping where
  activeTermId := m.activeTermId
  shownTermId := m.shownTermId
  kernelBase := (m.screen.vid.kernelVidmem vidmemIndex).base
  userBase := m.userVidmem.base

theorem Mapped.congr {m m' : Machine} (same : m'.mapping = m.mapping) : Mapped m' ↔ Mapped m := by
  have active : m'.activeTermId = m.activeTermId := congrArg Mapping.activeTermId same
  have shown : m'.shownTermId = m.shownTermId := congrArg Mapping.shownTermId same
  have kernel : (m'.screen.vid.kernelVidmem vidmemIndex).base =
      (m.screen.vid.kernelVidmem vidmemIndex).base := congrArg Mapping.kernelBase same
  have user : m'.userVidmem.base = m.userVidmem.base := congrArg Mapping.userBase same
  have frame : m'.activeFrame = m.activeFrame := by rw [activeFrame, activeFrame, active, shown]
  constructor <;> rintro ⟨first, second⟩
  · exact ⟨by rw [← kernel, first, frame], by rw [← user, second, frame]⟩
  · exact ⟨by rw [kernel, first, frame], by rw [user, second, frame]⟩

theorem Mapped.atStack {m : Machine} (mapped : Mapped m) (esp : Nat) : Mapped { m with esp := esp } :=
  ⟨mapped.kernel, mapped.user⟩

section

variable {m m' : Machine} {magic : Nat → UInt8} {ended : Ended}

/-! ## Calls that leave the pages alone -/

theorem mapping_of_context (same : m'.context = m.context) : m'.mapping = m.mapping :=
  congrArg (fun c : Context => Mapping.mk c.activeTermId c.shownTermId
    (c.kernelVidmem vidmemIndex).base c.userVidmem.base) same

theorem execute_mapping {command : Option CString}
    (ran : m.execute command magic = some (m', ended)) : m'.mapping = m.mapping := by
  rcases execute_some ran with ⟨rfl, _⟩ | ⟨pid, parent, _, rfl, _⟩ <;> rfl

theorem halt_mapping {status : UInt8} (ran : m.halt status magic = some (m', ended)) :
    m'.mapping = m.mapping := by
  obtain ⟨p, _, ⟨_, pid, parent, _, rfl, _⟩ | returned⟩ := halt_inv ran
  · rfl
  · obtain ⟨q, _, _, rfl⟩ := returnToParent_some returned
    rfl

theorem raise_mapping {vector address : Nat} (ran : m.raise vector address = some m') :
    m'.mapping = m.mapping := by
  obtain ⟨mid, drawn, rfl⟩ := raise_some ran
  have same : mid.mapping = m.mapping := mapping_of_context drawn
  exact same

/-! ## Calls that set both pages -/

theorem bases_of_mapped {mid : Machine} {frame : Nat}
    (mapped : mid.context = (m.mapVidmem frame).context) :
    (mid.screen.vid.kernelVidmem vidmemIndex).base = frame ∧ mid.userVidmem.base = frame := by
  have pages : mid.screen.vid.kernelVidmem = (m.mapVidmem frame).screen.vid.kernelVidmem :=
    congrArg Context.kernelVidmem mapped
  have user : mid.userVidmem = (m.mapVidmem frame).userVidmem := congrArg Context.userVidmem mapped
  rw [pages, user]
  simp [mapVidmem]

theorem mapped_turned {mid : Machine} {curr t frame : Nat}
    (bases : (mid.screen.vid.kernelVidmem vidmemIndex).base = frame ∧ mid.userVidmem.base = frame)
    (right : frame = if t = mid.shownTermId then vidmemIndex else vidmemIndex + 2 + t) :
    Mapped (mid.turned curr t) :=
  ⟨bases.1.trans right, bases.2.trans right⟩

theorem pitHandler_mapped (ran : m.pitHandler magic = some (m', ended)) : Mapped m' := by
  obtain ⟨curr, mid, m₁, rfl, _, rfl, ended⟩ := pitHandler_some ran
  have screen := turnScreen_context m m.nextTermId
  have mapped : Mapped ((m.turnScreen m.nextTermId).turned curr m.nextTermId) := by
    refine mapped_turned (bases_of_mapped screen) ?_
    rw [show (m.turnScreen m.nextTermId).shownTermId = m.shownTermId from
      congrArg Context.shownTermId screen]
    split_ifs <;> omega
  rcases ended with ⟨_, halted⟩ | ⟨rfl, _⟩
  · exact (Mapped.congr (halt_mapping halted)).2 (mapped.atStack _)
  · exact mapped.atStack _

theorem switchTerminal_mapped {t : Nat} (mapped : Mapped m)
    (ran : m.switchTerminal t = some (m', ended)) : Mapped m' := by
  rcases switchTerminal_some ran with ⟨_, rfl⟩ | ⟨curr, mid, m₁, _, swapped, _, rfl, rfl, _⟩
  · exact mapped
  · have bases := bases_of_mapped (swapScreens_context swapped)
    have shown : Mapped (({ mid with shownTermId := t } : Machine).turned curr t) :=
      mapped_turned bases (by simp)
    exact shown.atStack _

/-! ## vidmap -/

/-- A `vidmap` that gets past the check of its pointer comes from the shown
terminal or from a process whose pid is its terminal's index. -/
def VidmapFits (m : Machine) : KernelEvent → Prop
  | .call ebp (.vidmap start) => m.Frame ebp → start ≠ 0 → start / 2 ^ 22 = userEntry →
      ∀ curr, { m with esp := ebp }.getCurrentPcb = some curr →
        m.activeTermId = m.shownTermId ∨ (m.pcbs curr).pid = m.activeTermId
  | _ => True

theorem vidmap_mapped_iff {start : Nat} {v : Int} (mapped : Mapped m)
    (ran : m.vidmap start = some (m', v)) :
    Mapped m' ↔ (start ≠ 0 → start / 2 ^ 22 = userEntry → ∀ curr, m.getCurrentPcb = some curr →
      m.activeTermId = m.shownTermId ∨ (m.pcbs curr).pid = m.activeTermId) := by
  by_cases refused : start = 0 ∨ start / 2 ^ 22 ≠ userEntry
  · simp only [vidmap, refused, if_true, Option.some.injEq, Prod.mk.injEq] at ran
    obtain ⟨rfl, _⟩ := ran
    refine iff_of_true mapped fun nonzero entry => absurd refused ?_
    exact not_or.2 ⟨nonzero, not_not.2 entry⟩
  · simp only [vidmap, refused, if_false, Option.bind_eq_bind, Option.bind_eq_some_iff] at ran
    obtain ⟨curr, current, same⟩ := ran
    cases same
    obtain ⟨nonzero, entry⟩ := not_or.1 refused
    have pid : ((m.setPcb curr { m.pcbs curr with vidmap := true }).pcbs curr).pid =
        (m.pcbs curr).pid := by
      simp [setPcb]
    rw [pid]
    constructor
    · rintro ⟨_, user⟩ _ _ curr' current'
      obtain rfl := Option.some.inj (current.symm.trans current')
      by_contra other
      obtain ⟨hidden, apart⟩ := not_or.1 other
      have base : vidmemIndex + (m.pcbs curr).pid + 2 = vidmemIndex + 2 + m.activeTermId := by
        simpa [activeFrame, setPcb, hidden] using user
      omega
    · intro fits
      refine ⟨mapped.kernel, ?_⟩
      show (if m.activeTermId = m.shownTermId then vidmemIndex
        else vidmemIndex + (m.pcbs curr).pid + 2) = m.activeFrame
      rcases fits nonzero (not_not.1 entry) curr current with shown | base
      · simp [activeFrame, shown]
      · simp only [activeFrame, base]
        split_ifs <;> omega

/-! ## Steps and runs -/

theorem mapped_run {body : KernelCall} (mapped : Mapped m) (other : ∀ start, body ≠ .vidmap start)
    (ran : body.run m = some (m', ended)) : Mapped m' := by
  cases body with
  | execute command magic => exact (Mapped.congr (execute_mapping ran)).2 mapped
  | halt status magic => exact (Mapped.congr (halt_mapping ran)).2 mapped
  | raise vector address =>
      obtain ⟨_, raised, same⟩ := Option.map_eq_some_iff.1 ran
      cases same
      exact (Mapped.congr (raise_mapping raised)).2 mapped
  | pitHandler magic => exact pitHandler_mapped ran
  | keyboardHandler scancode =>
      rcases keyboardHandler_some ran with ⟨t, _, switched⟩ | ⟨typed, _⟩
      · exact switchTerminal_mapped mapped switched
      · exact (Mapped.congr (mapping_of_context (typeKey_drawn typed))).2 mapped
  | vidmap start => exact absurd rfl (other start)
  | putc c =>
      obtain ⟨_, drew, same⟩ := Option.map_eq_some_iff.1 ran
      cases same
      exact (Mapped.congr (mapping_of_context (putc_drawn drew))).2 mapped

/-- **One step** keeps the pages right exactly if its `vidmap` fits. -/
theorem mapped_step_iff {e : KernelEvent} (mapped : Mapped m) (step : kernelStep m e = some m') :
    Mapped m' ↔ VidmapFits m e := by
  cases e with
  | iret =>
      obtain rfl := Option.some.inj step
      exact iff_of_true ⟨mapped.kernel, mapped.user⟩ trivial
  | call ebp body =>
      obtain ⟨frame, ended, ran⟩ := kernelStep_call.1 step
      have inside : Mapped { m with esp := ebp, userMode := false } := ⟨mapped.kernel, mapped.user⟩
      by_cases other : ∀ start, body ≠ .vidmap start
      · refine iff_of_true (mapped_run inside other ran) ?_
        cases body with
        | vidmap start => exact absurd rfl (other start)
        | _ => trivial
      · obtain ⟨start, rfl⟩ : ∃ start, body = .vidmap start := by simpa using other
        obtain ⟨⟨next, v⟩, returned, same⟩ := Option.map_eq_some_iff.1 ran
        cases same
        rw [vidmap_mapped_iff inside returned]
        exact ⟨fun fits _ => fits, fun fits => fits frame⟩

theorem vidmapFits_of_stuck {e : KernelEvent} (stuck : kernelStep m e = none) : VidmapFits m e := by
  cases e with
  | iret => trivial
  | call ebp body =>
      cases body with
      | vidmap start =>
          intro frame nonzero entry curr current
          have entry' : ¬(start = 0 ∨ start / 2 ^ 22 ≠ userEntry) :=
            not_or.2 ⟨nonzero, not_not.2 entry⟩
          have current' : ({ m with esp := ebp, userMode := false } : Machine).getCurrentPcb =
              some curr := current
          obtain ⟨r, returned⟩ : ∃ r, ({ m with esp := ebp, userMode := false } : Machine).vidmap
              start = some r := by
            simp only [Machine.vidmap, entry', if_false, current', Option.bind_eq_bind,
              Option.bind_some]
            exact ⟨_, rfl⟩
          have ran : KernelCall.run { m with esp := ebp, userMode := false } (.vidmap start) =
              some (r.1, .returned r.2) := by
            simp [KernelCall.run, returned]
          have stepped := kernelStep_call.2 ⟨frame, _, ran⟩
          rw [stuck] at stepped
          simp at stepped
      | _ => trivial

end

theorem mapped_start {m : Machine} (booted : m.Booted) : Mapped m.mapTerminals.startShells := by
  have frame : m.mapTerminals.startShells.activeFrame = vidmemIndex := by
    rw [activeFrame, start_activeTermId, start_shownTermId, booted.active, booted.shown, if_pos rfl]
  refine ⟨?_, ?_⟩ <;> rw [frame]
  · simp [startShells, setUpShell, leaveRet, setScreenCoordinate, setPcb, setTerm, mapTerminals,
      booted.kernelVidmem]
  · simp [startShells, setUpShell, leaveRet, setScreenCoordinate, setPcb, setTerm, mapTerminals,
      booted.userVidmem]

/-- **The video pages are right in every state of a run** exactly if each
`vidmap` of it fits. -/
theorem mapped_iff (m₀ m : Machine) (magic : Nat → UInt8) (booted : m₀.Booted)
    (started : m₀.initiateShells magic = some (m, true)) (run : List KernelEvent) :
    (Mapped m ∧ Every kernelStep (fun _ _ m' => Mapped m') m run) ↔
      Meets kernelStep VidmapFits m run := by
  obtain rfl := initiateShells_some started
  have start := mapped_start booted
  rw [and_iff_right start]
  refine every_iff_meets Mapped (fun m e m' mapped step => mapped_step_iff mapped step)
    (fun m e _ stuck => vidmapFits_of_stuck stuck)
    (fun m e m' mapped fits step => (mapped_step_iff mapped step).2 fits) run _ start

/-- The first shell calls `vidmap` on the shown terminal, and the tick comes. -/
theorem shell_vidmap_mapped : Mapped shells ∧ Every kernelStep (fun _ _ m' => Mapped m') shells
    [.call 0x7FFF00 (.vidmap 0x8000000), .call 0x7FFE00 (.pitHandler fun _ => 0)] := by
  refine (mapped_iff (mounted shellFs) shells (fun _ => 0) (mounted_booted shellFs) shells_started
    [.call 0x7FFF00 (.vidmap 0x8000000), .call 0x7FFE00 (.pitHandler fun _ => 0)]).2
      ⟨fun _ _ _ _ _ => Or.inl rfl, fun _ _ => ⟨trivial, fun _ _ => trivial⟩⟩

/-- The child of the first shell, with terminal 1 shown when its turn comes
again, calls `vidmap`: its page is the one after the last hidden buffer. -/
theorem child_vidmap_unmapped : ¬(Mapped shells ∧ Every kernelStep (fun _ _ m' => Mapped m') shells
    [.call 0x7FFF00 (.execute (some shellName) fun _ => 0), .call 0x7F9F00 (.keyboardHandler 0x3C),
      .call 0x7FDF00 (.pitHandler fun _ => 0), .call 0x7FBF00 (.pitHandler fun _ => 0),
      .call 0x7F9F00 (.vidmap 0x8000000)]) := by
  rintro ⟨start, every⟩
  obtain ⟨m', reached, pages⟩ := Option.map_eq_some_iff.1 (show (after kernelStep shells
    [.call 0x7FFF00 (.execute (some shellName) fun _ => 0), .call 0x7F9F00 (.keyboardHandler 0x3C),
      .call 0x7FDF00 (.pitHandler fun _ => 0), .call 0x7FBF00 (.pitHandler fun _ => 0),
      .call 0x7F9F00 (.vidmap 0x8000000)]).map
        (fun m => (m.activeTermId, m.shownTermId, m.userVidmem.base)) = some (0, 1, 0xBD) from rfl)
  have user := (after_of_every _ _ _ start every reached).user
  simp only [Prod.mk.injEq] at pages
  obtain ⟨active, shown, base⟩ := pages
  rw [base, activeFrame, active, shown] at user
  exact absurd user (by decide)

end Illinix.Kernel
