/-
# Kernel.Screens -- three screens on one display

Each terminal has a screen of its own: its cells are on the display while it is
shown and in its hidden buffer otherwise, its cursor is the cursor pair while it
is active and in its record otherwise.  `console` is that screen, `Refines` says
of a step that it does to the three what it should: the tick and the switch
nothing, a drawing process only its own, a key only the shown one.

Two things break this.  `clear` blanks what `video_mem` points to, which with
another terminal active is that one's hidden buffer and not the display.  And
`putc` does not check its cursor: past the end of the page it draws in the next
one.  `screens_refine` is the rest: a run without these two refines three consoles
that know nothing of each other.
-/
import Illinix.Console.Bounds
import Illinix.Console.Sim
import Illinix.Kernel.VideoMap
import Illinix.Kernel.Lines

namespace Illinix.Kernel

open Illinix.Console Illinix.FileSys Illinix.Theory Machine

set_option autoImplicit false

/-! ## The three screens -/

/-- The page a terminal's screen is in. -/
abbrev Page : Type := Window pageCells

namespace Machine

/-- The frame with the cells of terminal `t`. -/
def frameOf (m : Machine) (t : Nat) : Nat :=
  if t = m.shownTermId then vidmemIndex else vidmemIndex + 2 + t

def console (m : Machine) (t : Nat) : Screen Page where
  vid := ⟨m.screen.vid.frames (m.frameOf t)⟩
  screenX := if t = m.activeTermId then m.screen.screenX else (m.terms t).cursorX
  screenY := if t = m.activeTermId then m.screen.screenY else (m.terms t).cursorY

end Machine

def drawByte (s : Screen Page) (c : UInt8) : Option (Screen Page) :=
  (Console.putc c s).map Prod.fst

/-- What a key of the line draws. -/
def keyBytes (m : Machine) (scancode : Nat) : List UInt8 :=
  match m.keyOf scancode with
  | some (.char c) => [c]
  | some .backspace => if 0 < (m.terms m.shownTermId).length then [0x08] else []
  | some .enter => ['\n'.toUInt8]
  | none => []

/-- The bytes that an event draws. -/
def drawn (m : Machine) : KernelEvent → List UInt8
  | .call _ (.keyboardHandler scancode) => keyBytes m scancode
  | .call _ (.putc c) => [c]
  | .call _ (.raise vector address) => (exceptionText vector address).getD []
  | _ => []

/-- Ctrl+L. -/
def clears (m : Machine) : KernelEvent → Bool
  | .call _ (.keyboardHandler scancode) => scancode = scL ∧ m.pressed kbfControl
  | _ => false

/-- What an event does to the screen it is for. -/
def draws (m : Machine) (e : KernelEvent) (s : Screen Page) : Option (Screen Page) :=
  if clears m e then Console.clear s else after drawByte s (drawn m e)

/-- The terminal whose screen an event may change: the shown one for a key, the
active one for a process that draws. -/
def touched (m : Machine) : KernelEvent → Option Nat
  | .call _ (.keyboardHandler scancode) =>
      if scF1 ≤ scancode ∧ scancode ≤ scF3 then none else some m.shownTermId
  | .call _ (.putc _) | .call _ (.raise _ _) => some m.activeTermId
  | _ => none

/-- The step does to each of the three screens what it should. -/
def Refines (m : Machine) (e : KernelEvent) (m' : Machine) : Prop :=
  ∀ t, t < terminalCount →
    (touched m e ≠ some t → m'.console t = m.console t) ∧
    (touched m e = some t → draws m e (m.console t) = some (m'.console t))

/-- Ctrl+L comes with the shown terminal active, and every byte that is drawn on
a screen fits its page. -/
structure InPlace (m : Machine) (e : KernelEvent) : Prop where
  clear : clears m e → m.activeTermId = m.shownTermId
  fits : ∀ t, touched m e = some t → Meets drawByte Fits (m.console t) (drawn m e)

/-! ## The page table of the screens -/

structure Paged (m : Machine) : Prop where
  active : m.activeTermId < terminalCount
  shown : m.shownTermId < terminalCount
  videoMem : m.screen.vid.videoMem = vidmemIndex
  page : m.screen.vid.kernelVidmem vidmemIndex = ⟨true, m.frameOf m.activeTermId⟩
  display : m.screen.vid.kernelVidmem (vidmemIndex + 1) = ⟨true, vidmemIndex⟩
  hidden : ∀ t, t < terminalCount →
    m.screen.vid.kernelVidmem (vidmemIndex + 2 + t) = ⟨true, vidmemIndex + 2 + t⟩

/-- The bus differs from `b` in one frame at most, and there it has the cells of
the page. -/
structure Behind (b : Bus) (frame : Nat) (b' : Bus) (page : Page) : Prop where
  videoMem : b'.videoMem = b.videoMem
  pages : b'.kernelVidmem = b.kernelVidmem
  cells : b'.frames frame = page.cell
  others : ∀ f, f ≠ frame → b'.frames f = b.frames f

theorem translate_inside {b : Bus} {frame : Nat} {i : Int}
    (mapped : b.kernelVidmem b.videoMem = ⟨true, frame⟩) (low : b.videoMem < 1024)
    (inside : 0 ≤ i ∧ i < pageCells) : b.translate i = some (frame, i) := by
  have page : ((b.videoMem : Int) * pageCells + i) / pageCells = b.videoMem := by
    simp only [pageCells] at inside ⊢
    omega
  have cell : ((b.videoMem : Int) * pageCells + i) % pageCells = i := by
    simp only [pageCells] at inside ⊢
    omega
  simp only [Bus.translate]
  simp only [page, cell, Int.toNat_natCast, mapped, and_true]
  rw [if_pos (by omega)]

/-- **The console in a page.** Within the page, the bus does what the page alone
would do, and leaves the other frames alone. -/
theorem behind_simulates {b : Bus} {frame : Nat}
    (mapped : b.kernelVidmem b.videoMem = ⟨true, frame⟩) (low : b.videoMem < 1024) :
    Simulates (Behind b frame) := by
  have translates : ∀ {b' : Bus} {page : Page} {i : Int}, Behind b frame b' page →
      0 ≤ i ∧ i < pageCells → b'.translate i = some (frame, i) := by
    intro b' page i behind inside
    apply translate_inside _ _ inside
    · rw [behind.pages, behind.videoMem, mapped]
    · rw [behind.videoMem]
      exact low
  constructor
  · intro b' page i c behind loaded
    by_cases inside : 0 ≤ i ∧ i < pageCells
    · rw [page.load_of_mem inside.1 inside.2] at loaded
      obtain rfl := Option.some.inj loaded
      show (b'.translate i).map _ = _
      rw [translates behind inside, ← behind.cells]
      rfl
    · rw [page.load_eq_none inside] at loaded
      cases loaded
  · intro b' page i c page' behind stored
    by_cases inside : 0 ≤ i ∧ i < pageCells
    · rw [page.store_of_mem c inside.1 inside.2] at stored
      obtain rfl := Option.some.inj stored
      refine ⟨b'.setCell frame i c, ?_, behind.videoMem, behind.pages, ?_, ?_⟩
      · show (b'.translate i).map _ = _
        rw [translates behind inside]
        rfl
      · funext j
        simp only [Bus.setCell, Function.update_self, behind.cells]
        rw [Function.update_apply]
        rfl
      · intro f other
        simp only [Bus.setCell, Function.update_of_ne other]
        exact behind.others f other
    · rw [page.store_eq_none c inside] at stored
      cases stored

section

variable {m m' mid : Machine} {t : Nat}

theorem console_eq {s : Screen Page} (cells : m.screen.vid.frames (m.frameOf t) = s.vid.cell)
    (x : (if t = m.activeTermId then m.screen.screenX else (m.terms t).cursorX) = s.screenX)
    (y : (if t = m.activeTermId then m.screen.screenY else (m.terms t).cursorY) = s.screenY) :
    m.console t = s := by
  simp only [console]
  rw [cells, x, y]

theorem setCursor_cursor (m : Machine) (t : Nat) (x y : Int) (u : Nat) :
    ((m.setCursor t x y).terms u).cursorX = (if u = t then x else (m.terms u).cursorX) ∧
      ((m.setCursor t x y).terms u).cursorY = if u = t then y else (m.terms u).cursorY := by
  by_cases here : u = t
  · subst here
    simp [setCursor, setTerm]
  · simp [setCursor, setTerm, here]

theorem frameOf_injective (m : Machine) {t u : Nat} (same : m.frameOf t = m.frameOf u) : t = u := by
  simp only [frameOf] at same
  split_ifs at same <;> omega

/-- The same screens and the same page table. -/
structure SameScreens (m m' : Machine) : Prop where
  console : ∀ t, m'.console t = m.console t
  paged : Paged m → Paged m'

theorem SameScreens.refl (m : Machine) : SameScreens m m := ⟨fun _ => rfl, id⟩

theorem SameScreens.trans (first : SameScreens m mid) (second : SameScreens mid m') :
    SameScreens m m' :=
  ⟨fun t => (second.console t).trans (first.console t), fun paged => second.paged (first.paged paged)⟩

/-- The console reads four fields of the machine, and of the records their cursors. -/
theorem screens_of_cursors (cursors : ∀ u, (m'.terms u).cursorX = (m.terms u).cursorX ∧
      (m'.terms u).cursorY = (m.terms u).cursorY)
    (shown : m'.shownTermId = m.shownTermId) (active : m'.activeTermId = m.activeTermId)
    (screen : m'.screen = m.screen) : SameScreens m m' := by
  have frame : ∀ u, m'.frameOf u = m.frameOf u := fun u => by rw [frameOf, frameOf, shown]
  refine ⟨fun u => ?_, fun paged => ?_⟩
  · simp only [console]
    rw [frame, (cursors u).1, (cursors u).2, active, screen]
  · refine ⟨active ▸ paged.active, shown ▸ paged.shown, ?_, ?_, ?_, fun u inside => ?_⟩
    · rw [screen, paged.videoMem]
    · rw [screen, frame, active, paged.page]
    · rw [screen, paged.display]
    · rw [screen, paged.hidden u inside]

theorem screens_of_fields (terms : m'.terms = m.terms) (shown : m'.shownTermId = m.shownTermId)
    (active : m'.activeTermId = m.activeTermId) (screen : m'.screen = m.screen) :
    SameScreens m m' := by
  apply screens_of_cursors _ shown active screen
  intro u
  rw [terms]
  exact ⟨rfl, rfl⟩

/-- A terminal record with the same cursor. -/
theorem setTerm_cursor (m : Machine) (t : Nat) (term : Terminal)
    (x : term.cursorX = (m.terms t).cursorX) (y : term.cursorY = (m.terms t).cursorY) (u : Nat) :
    ((m.setTerm t term).terms u).cursorX = (m.terms u).cursorX ∧
      ((m.setTerm t term).terms u).cursorY = (m.terms u).cursorY := by
  by_cases here : u = t
  · subst here
    simp [setTerm, x, y]
  · simp [setTerm, here]

theorem setTerm_screens {term : Terminal} (x : term.cursorX = (m.terms t).cursorX)
    (y : term.cursorY = (m.terms t).cursorY) : SameScreens m (m.setTerm t term) :=
  screens_of_cursors (setTerm_cursor m t term x y) rfl rfl rfl

/-- The record's cursor is not the cursor of the active terminal. -/
theorem setCursor_screens (x y : Int) (active : t = m.activeTermId) :
    SameScreens m (m.setCursor t x y) := by
  refine ⟨fun u => ?_, fun paged => ⟨paged.active, paged.shown, paged.videoMem, paged.page,
    paged.display, paged.hidden⟩⟩
  have same : (m.setCursor t x y).activeTermId = m.activeTermId := rfl
  simp only [console]
  rw [same]
  by_cases here : u = m.activeTermId
  · simp only [if_pos here]
    rfl
  · have apart : u ≠ t := fun same => here (same.trans active)
    have term : (m.setCursor t x y).terms u = m.terms u := by
      simp [setCursor, setTerm, apart]
    rw [term]
    rfl

/-! ## putc -/

/-- The current process has the shown terminal's pid only if that terminal is
active. -/
def OwnsCursor (m : Machine) : Prop :=
  ∀ curr, m.getCurrentPcb = some curr → (m.pcbs curr).pid = (m.terms m.shownTermId).pid →
    m.shownTermId = m.activeTermId

theorem showCursor_screens (owns : OwnsCursor m) (shown : m.showCursor = some m') :
    SameScreens m m' := by
  obtain ⟨curr, current, shown⟩ := Option.bind_eq_some_iff.1 shown
  split_ifs at shown with own
  · obtain rfl := Option.some.inj shown
    exact (setCursor_screens _ _ (owns curr current own)).trans (screens_of_fields rfl rfl rfl rfl)
  · obtain rfl := Option.some.inj shown
    exact SameScreens.refl m

/-- The screen of terminal `t` has become `s`, and nothing else has happened to
the screens. -/
structure Draws (m m' : Machine) (t : Nat) (s : Screen Page) : Prop where
  own : m'.console t = s
  others : ∀ u, u < terminalCount → u ≠ t → m'.console u = m.console u
  paged : Paged m → Paged m'

theorem Draws.then {s : Screen Page} (draws : Draws m mid t s) (same : SameScreens mid m') :
    Draws m m' t s :=
  ⟨(same.console t).trans draws.own, fun u inside other =>
    (same.console u).trans (draws.others u inside other), fun paged => same.paged (draws.paged paged)⟩

/-- A new screen for the active terminal, in its page. -/
theorem setScreen_draws {screen : Screen Bus} {s : Screen Page} (paged : Paged m)
    (active : t = m.activeTermId) (alike : Alike (Behind m.screen.vid (m.frameOf t)) screen s) :
    Draws m { m with screen := screen } t s := by
  subst active
  obtain ⟨⟨videoMem, pages, cells, others⟩, x, y⟩ := alike
  refine ⟨?_, fun u inside other => ?_, fun _ => ?_⟩
  · cases s
    simp only [console, if_true, Screen.mk.injEq]
    exact ⟨congrArg Window.mk cells, x, y⟩
  · have apart : m.frameOf u ≠ m.frameOf m.activeTermId := fun same =>
      other (frameOf_injective m same)
    simp only [console, if_neg other]
    exact congrArg (fun cells => (⟨⟨cells⟩, _, _⟩ : Screen Page)) (others _ apart)
  · refine ⟨paged.active, paged.shown, videoMem.trans paged.videoMem, ?_, ?_, fun u inside => ?_⟩
    · exact (congrFun pages _).trans paged.page
    · exact (congrFun pages _).trans paged.display
    · exact (congrFun pages _).trans (paged.hidden u inside)

theorem drawByte_some {c : UInt8} {s s' : Screen Page} (drew : drawByte s c = some s') :
    ∃ flag, Console.putc c s = some (s', flag) := by
  obtain ⟨⟨next, flag⟩, put, rfl⟩ := Option.map_eq_some_iff.1 drew
  exact ⟨flag, put⟩

/-- Bytes that fit are drawn. -/
theorem drawn_of_fits (bytes : List UInt8) : ∀ {s : Screen Page}, Meets drawByte Fits s bytes →
    ∃ s', after drawByte s bytes = some s' := by
  induction bytes with
  | nil => exact fun {s} _ => ⟨s, rfl⟩
  | cons c rest ih =>
      intro s fits
      obtain ⟨mid, flag, put⟩ := putc_of_fits (by decide) fits.1
      have drew : drawByte s c = some mid := by
        rw [drawByte, put]
        rfl
      obtain ⟨s', later⟩ := ih (fits.2 mid drew)
      exact ⟨s', by rw [after_cons, drew]; exact later⟩

/-- **A process that draws** draws on the active terminal's screen, as on a
console of its own. -/
theorem putc_draws {c : UInt8} {s : Screen Page} (paged : Paged m) (owns : OwnsCursor m)
    (inside : drawByte (m.console m.activeTermId) c = some s) (drew : m.putc c = some m') :
    Draws m m' m.activeTermId s := by
  obtain ⟨flag, put⟩ := drawByte_some inside
  have mapped : m.screen.vid.kernelVidmem m.screen.vid.videoMem =
      ⟨true, m.frameOf m.activeTermId⟩ := by
    rw [paged.videoMem]
    exact paged.page
  have low : m.screen.vid.videoMem < 1024 := by
    rw [paged.videoMem]
    decide
  have start : Alike (Behind m.screen.vid (m.frameOf m.activeTermId)) m.screen
      (m.console m.activeTermId) :=
    ⟨⟨rfl, rfl, rfl, fun _ _ => rfl⟩, (if_pos rfl).symm, (if_pos rfl).symm⟩
  obtain ⟨screen, put', alike⟩ := putc_sim (behind_simulates mapped low) start put
  simp only [Machine.putc, put', Option.bind_eq_bind, Option.bind_some] at drew
  have drawn := setScreen_draws paged rfl alike
  cases flag with
  | false =>
      obtain rfl := Option.some.inj drew
      exact drawn
  | true => exact drawn.then (showCursor_screens owns drew)

theorem ownsCursor_congr (same : m'.context = m.context) (owns : OwnsCursor m) : OwnsCursor m' := by
  have esp : m'.esp = m.esp := congrArg Context.esp same
  have pcbs : m'.pcbs = m.pcbs := congrArg Context.pcbs same
  have shown : m'.shownTermId = m.shownTermId := congrArg Context.shownTermId same
  have active : m'.activeTermId = m.activeTermId := congrArg Context.activeTermId same
  have pids : ∀ u, (m'.terms u).pid = (m.terms u).pid := congrFun (congrArg Context.pids same)
  intro curr current own
  rw [getCurrentPcb_congr esp] at current
  rw [pcbs, pids, shown] at own
  rw [shown, active]
  exact owns curr current own

theorem Draws.refl (m : Machine) (t : Nat) : Draws m m t (m.console t) :=
  ⟨rfl, fun _ _ _ => rfl, id⟩

theorem Draws.trans {s s' : Screen Page} (first : Draws m mid t s) (second : Draws mid m' t s') :
    Draws m m' t s' :=
  ⟨second.own, fun u inside other => (second.others u inside other).trans
    (first.others u inside other), fun paged => second.paged (first.paged paged)⟩

theorem puts_draws (bytes : List UInt8) : ∀ {m m' : Machine} {s : Screen Page}, Paged m →
    OwnsCursor m → after drawByte (m.console m.activeTermId) bytes = some s → puts bytes m = some m' →
      Draws m m' m.activeTermId s := by
  induction bytes with
  | nil =>
      intro m m' s _ _ inside drew
      obtain rfl := Option.some.inj inside
      obtain rfl := Option.some.inj drew
      exact Draws.refl m _
  | cons c rest ih =>
      intro m m' s paged owns inside drew
      obtain ⟨s₁, single, inside⟩ := Option.bind_eq_some_iff.1 inside
      obtain ⟨mid, one, later⟩ := Option.bind_eq_some_iff.1 drew
      have first := putc_draws paged owns single one
      have active : mid.activeTermId = m.activeTermId :=
        congrArg Context.activeTermId (putc_drawn one)
      have last := ih (first.paged paged) (ownsCursor_congr (putc_drawn one) owns)
        (by rw [active, first.own]; exact inside) later
      rw [active] at last
      exact first.trans last

/-! ## echo and clear -/

/-- While another terminal is active, `putc` leaves the shown one's record alone. -/
theorem showCursor_idle (owns : OwnsCursor m) (apart : m.activeTermId ≠ m.shownTermId)
    (shown : m.showCursor = some m') : m' = m := by
  obtain ⟨curr, current, shown⟩ := Option.bind_eq_some_iff.1 shown
  split_ifs at shown with own
  · exact absurd (owns curr current own).symm apart
  · exact (Option.some.inj shown).symm

/-- What `echo` leaves of the machine `mid` behind its `putc`: the video memory
and the coordinates are those from before, the shown terminal has the cursor. -/
structure Restored (mid m' : Machine) (x y : Int) : Prop where
  active : m'.activeTermId = mid.activeTermId
  shown : m'.shownTermId = mid.shownTermId
  videoMem : m'.screen.vid.videoMem = vidmemIndex
  pages : m'.screen.vid.kernelVidmem = mid.screen.vid.kernelVidmem
  frames : m'.screen.vid.frames = mid.screen.vid.frames
  screenX : m'.screen.screenX = x
  screenY : m'.screen.screenY = y
  cursorX : ∀ u, (m'.terms u).cursorX =
    if u = mid.shownTermId then mid.screen.screenX else (mid.terms u).cursorX
  cursorY : ∀ u, (m'.terms u).cursorY =
    if u = mid.shownTermId then mid.screen.screenY else (mid.terms u).cursorY

theorem restored (mid : Machine) (x y : Int) : Restored mid
    ((((mid.setVideoMem vidmemIndex).setCursor mid.shownTermId mid.screen.screenX
      mid.screen.screenY).setCursorPos mid.screen.screenX mid.screen.screenY).setScreenCoordinate
        x y) x y :=
  ⟨rfl, rfl, rfl, rfl, rfl, rfl, rfl, fun u => (setCursor_cursor _ _ _ _ u).1,
    fun u => (setCursor_cursor _ _ _ _ u).2⟩

/-- While another terminal is active, the byte goes to the shown one's page. -/
theorem echo_putc {c : UInt8} {s : Screen Page} (paged : Paged m) (owns : OwnsCursor m)
    (apart : m.activeTermId ≠ m.shownTermId)
    (inside : drawByte (m.console m.shownTermId) c = some s)
    (put : ((m.setScreenCoordinate (m.terms m.shownTermId).cursorX
      (m.terms m.shownTermId).cursorY).setVideoMem (vidmemIndex + 1)).putc c = some mid) :
    mid.context = m.context ∧ mid.terms = m.terms ∧
      Alike (Behind (m.setVideoMem (vidmemIndex + 1)).screen.vid vidmemIndex) mid.screen s := by
  generalize swapped : (m.setScreenCoordinate (m.terms m.shownTermId).cursorX
    (m.terms m.shownTermId).cursorY).setVideoMem (vidmemIndex + 1) = m₁ at put
  have drawn : mid.context = m₁.context := putc_drawn put
  have context : m₁.context = m.context := by rw [← swapped]; rfl
  have terms : m₁.terms = m.terms := by rw [← swapped]; rfl
  have vid : m₁.screen.vid = (m.setVideoMem (vidmemIndex + 1)).screen.vid := by rw [← swapped]; rfl
  have other : m₁.activeTermId ≠ m₁.shownTermId := by rw [← swapped]; exact apart
  have start : Alike (Behind m₁.screen.vid vidmemIndex) m₁.screen (m.console m.shownTermId) := by
    rw [← swapped]
    refine ⟨⟨rfl, rfl, ?_, fun _ _ => rfl⟩, (if_neg (Ne.symm apart)).symm,
      (if_neg (Ne.symm apart)).symm⟩
    exact congrArg m.screen.vid.frames (if_pos rfl).symm
  have mapped : m₁.screen.vid.kernelVidmem m₁.screen.vid.videoMem = ⟨true, vidmemIndex⟩ := by
    rw [← swapped]
    exact paged.display
  have low : m₁.screen.vid.videoMem < 1024 := by
    rw [← swapped]
    exact show vidmemIndex + 1 < 1024 by decide
  obtain ⟨flag, inside⟩ := drawByte_some inside
  obtain ⟨screen, drew, alike⟩ := putc_sim (behind_simulates mapped low) start inside
  have owns₁ : OwnsCursor m₁ := ownsCursor_congr context owns
  have owns' : OwnsCursor { m₁ with screen := screen } := fun curr current own =>
    owns₁ curr current own
  obtain rfl : mid = { m₁ with screen := screen } := by
    simp only [Machine.putc, drew, Option.bind_eq_bind, Option.bind_some] at put
    cases flag with
    | false => exact (Option.some.inj put).symm
    | true => exact showCursor_idle owns' other put
  exact ⟨drawn.trans context, terms, vid ▸ alike⟩

/-- **A key** is drawn on the shown terminal's screen. -/
theorem echo_draws {c : UInt8} {s : Screen Page} (paged : Paged m) (owns : OwnsCursor m)
    (inside : drawByte (m.console m.shownTermId) c = some s) (drew : m.echo c = some m') :
    Draws m m' m.shownTermId s := by
  simp only [echo] at drew
  by_cases apart : m.activeTermId = m.shownTermId
  · rw [if_pos apart] at drew
    rw [← apart] at inside ⊢
    exact putc_draws paged owns inside drew
  · rw [if_neg apart] at drew
    obtain ⟨mid, put, drew⟩ := Option.bind_eq_some_iff.1 drew
    have ends : Restored mid m' m.screen.screenX m.screen.screenY := by
      obtain rfl := Option.some.inj drew
      exact restored mid _ _
    obtain ⟨context, terms, alike⟩ := echo_putc paged owns apart inside put
    obtain ⟨⟨_, pages, cells, others⟩, x, y⟩ := alike
    have active : m'.activeTermId = m.activeTermId :=
      ends.active.trans (congrArg Context.activeTermId context)
    have shown' : mid.shownTermId = m.shownTermId := congrArg Context.shownTermId context
    have frame : ∀ u, m'.frameOf u = m.frameOf u := fun u => by
      rw [frameOf, frameOf, ends.shown, shown']
    refine ⟨?_, fun u inside other => ?_, fun paged => ?_⟩
    · apply console_eq
      · rw [frame, frameOf, if_pos rfl, ends.frames, cells]
      · rw [active, if_neg (Ne.symm apart), ends.cursorX, if_pos shown'.symm, x]
      · rw [active, if_neg (Ne.symm apart), ends.cursorY, if_pos shown'.symm, y]
    · have hidden : m.frameOf u ≠ vidmemIndex := by
        rw [frameOf, if_neg other]
        omega
      have notShown : u ≠ mid.shownTermId := shown' ▸ other
      apply console_eq
      · rw [frame, ends.frames, others _ hidden]
        rfl
      · rw [active, ends.screenX, ends.cursorX, if_neg notShown, terms]
        rfl
      · rw [active, ends.screenY, ends.cursorY, if_neg notShown, terms]
        rfl
    · have pages' : m'.screen.vid.kernelVidmem = m.screen.vid.kernelVidmem := ends.pages.trans pages
      refine ⟨active ▸ paged.active, ?_, ends.videoMem, ?_, ?_, fun u inside => ?_⟩
      · rw [ends.shown, shown']
        exact paged.shown
      · rw [pages', active, frame, paged.page]
      · rw [pages', paged.display]
      · rw [pages', paged.hidden u inside]

/-- The blanks of `clear` go to the active terminal's page, whichever terminal is
shown. -/
theorem clear_active (paged : Paged m) : ∃ vid page,
    clearCells (m.console m.activeTermId).vid = some page ∧
      Behind m.screen.vid (m.frameOf m.activeTermId) vid page ∧
      m.clear = some (if m.shownTermId = m.activeTermId then
          ({ m with screen := ⟨vid, 0, 0⟩ } : Machine).setCursor m.shownTermId 0 0
        else { m with screen := { m.screen with vid := vid } }.setCursor m.shownTermId 0 0) := by
  have mapped : m.screen.vid.kernelVidmem m.screen.vid.videoMem =
      ⟨true, m.frameOf m.activeTermId⟩ := by
    rw [paged.videoMem, paged.page]
  have low : m.screen.vid.videoMem < 1024 := by
    rw [paged.videoMem]
    decide
  obtain ⟨_, blank⟩ := clear_some (m.console m.activeTermId) (by decide)
  obtain ⟨page, filled, _⟩ := Option.map_eq_some_iff.1 blank
  have start : Behind m.screen.vid (m.frameOf m.activeTermId) m.screen.vid
      (m.console m.activeTermId).vid := ⟨rfl, rfl, rfl, fun _ _ => rfl⟩
  obtain ⟨vid, filled', related⟩ := clearCells_sim (behind_simulates mapped low) start filled
  refine ⟨vid, page, filled, related, ?_⟩
  simp only [Machine.clear, filled', Option.bind_eq_bind, Option.bind_some]
  rfl

/-- **Ctrl+L** with the shown terminal active. -/
theorem clear_draws {s : Screen Page} (paged : Paged m) (active : m.activeTermId = m.shownTermId)
    (inside : Console.clear (m.console m.shownTermId) = some s) (cleared : m.clear = some m') :
    Draws m m' m.shownTermId s := by
  obtain ⟨vid, page, filled, related, both⟩ := clear_active paged
  rw [cleared, if_pos active.symm] at both
  rw [Option.some.inj both]
  rw [active] at filled related
  obtain ⟨page', filled', rfl⟩ := Option.map_eq_some_iff.1 inside
  obtain rfl := Option.some.inj (filled.symm.trans filled')
  have alike : Alike (Behind m.screen.vid (m.frameOf m.shownTermId)) (⟨vid, 0, 0⟩ : Screen Bus)
      ⟨page, 0, 0⟩ := ⟨related, rfl, rfl⟩
  have drawn := setScreen_draws paged active.symm alike
  exact drawn.then (setCursor_screens 0 0 active.symm)

/-- **Ctrl+L** with another terminal active blanks that one's hidden buffer. -/
theorem clear_hidden (paged : Paged m) (apart : m.shownTermId ≠ m.activeTermId) :
    ∃ m', m.clear = some m' ∧ ∀ i, 0 ≤ i → i < 2000 →
      (m'.console m.activeTermId).vid.cell i = ⟨' '.toUInt8, attrib⟩ := by
  obtain ⟨vid, page, filled, related, both⟩ := clear_active paged
  rw [if_neg apart] at both
  refine ⟨_, both, fun i low high => ?_⟩
  have blank := fillCells_eq ⟨' '.toUInt8, attrib⟩ (25 * 80) 0 (m.console m.activeTermId).vid
    (le_refl 0) (by decide)
  obtain rfl := Option.some.inj (filled.symm.trans blank)
  show vid.frames (m.frameOf m.activeTermId) i = _
  rw [related.cells]
  exact if_pos ⟨low, by omega⟩

/-! ## The tick and the switch -/

/-- With the cursor pair stored in the active terminal's record, the records have
the cursors of all screens. -/
theorem parked_cursor (m : Machine) (t : Nat) :
    ((m.setCursor m.activeTermId m.screen.screenX m.screen.screenY).terms t).cursorX =
        (m.console t).screenX ∧
      ((m.setCursor m.activeTermId m.screen.screenX m.screen.screenY).terms t).cursorY =
        (m.console t).screenY :=
  setCursor_cursor m m.activeTermId m.screen.screenX m.screen.screenY t

theorem mapVidmem_pages (paged : Paged m) (frame : Nat) :
    (m.mapVidmem frame).screen.vid.kernelVidmem vidmemIndex = ⟨true, frame⟩ ∧
      (m.mapVidmem frame).screen.vid.kernelVidmem (vidmemIndex + 1) = ⟨true, vidmemIndex⟩ ∧
      ∀ t, t < terminalCount → (m.mapVidmem frame).screen.vid.kernelVidmem (vidmemIndex + 2 + t) =
        ⟨true, vidmemIndex + 2 + t⟩ := by
  unfold mapVidmem
  dsimp only
  refine ⟨?_, ?_, fun t inside => ?_⟩
  · rw [Function.update_self, paged.page]
  · rw [Function.update_of_ne (by omega)]
    exact paged.display
  · rw [Function.update_of_ne (by omega)]
    exact paged.hidden t inside

/-- The records have the cursors of all screens, and the cursor pair has come from
the record of the terminal that is now active. -/
theorem console_of_records {n : Nat} (records : ∀ t, (m'.terms t).cursorX = (m.console t).screenX ∧
      (m'.terms t).cursorY = (m.console t).screenY) (active : m'.activeTermId = n)
    (x : m'.screen.screenX = (m'.terms n).cursorX) (y : m'.screen.screenY = (m'.terms n).cursorY)
    (cells : ∀ t, m'.screen.vid.frames (m'.frameOf t) = m.screen.vid.frames (m.frameOf t)) (t : Nat) :
    m'.console t = m.console t := by
  apply console_eq (cells t)
  · rw [active, ← (records t).1]
    split_ifs with here
    · rw [x, here]
    · rfl
  · rw [active, ← (records t).2]
    split_ifs with here
    · rw [y, here]
    · rfl

/-- The screens once the tick has made terminal `n` the active one. -/
theorem turnScreen_screens {n : Nat} (inside : n < terminalCount) :
    SameScreens m { m.turnScreen n with activeTermId := n } := by
  have kept := setCursor_screens m.screen.screenX m.screen.screenY (Eq.refl m.activeTermId)
  have parked := parked_cursor m
  generalize stored : m.setCursor m.activeTermId m.screen.screenX m.screen.screenY = m₁ at parked kept
  have shown : m₁.shownTermId = m.shownTermId := by rw [← stored]; rfl
  have screen : m₁.screen = m.screen := by rw [← stored]; rfl
  have frame : (if n = m.shownTermId then vidmemIndex else vidmemIndex + n + 2) = m.frameOf n := by
    simp only [frameOf]
    split_ifs <;> omega
  obtain ⟨pos, same⟩ : ∃ pos, m.turnScreen n =
      { (m₁.mapVidmem (m.frameOf n)).setScreenCoordinate (m₁.terms n).cursorX
        (m₁.terms n).cursorY with cursorPos := pos } := by
    unfold turnScreen
    dsimp only
    rw [stored, shown]
    rw [← frame]
    split_ifs
    · exact ⟨_, rfl⟩
    · exact ⟨_, rfl⟩
  rw [same]
  refine ⟨console_of_records parked rfl rfl rfl fun u => ?_, fun paged => ?_⟩
  · show m₁.screen.vid.frames (if u = m₁.shownTermId then vidmemIndex else vidmemIndex + 2 + u) = _
    rw [screen, shown]
    rfl
  · obtain ⟨page, display, hidden⟩ := mapVidmem_pages (kept.paged paged) (m.frameOf n)
    refine ⟨inside, shown ▸ paged.shown, (kept.paged paged).videoMem, ?_, display, hidden⟩
    refine page.trans (congrArg (Pte.mk true) ?_)
    show m.frameOf n = if n = m₁.shownTermId then vidmemIndex else vidmemIndex + 2 + n
    rw [shown]
    rfl

theorem copyPage_some {dst src : Nat} (copied : m.copyPage dst src = some m') :
    m' = { m with screen := { m.screen with vid := { m.screen.vid with
      frames := Function.update m.screen.vid.frames (m.screen.vid.kernelVidmem dst).base
        (m.screen.vid.frames (m.screen.vid.kernelVidmem src).base) } } } := by
  unfold copyPage at copied
  dsimp only at copied
  split_ifs at copied
  exact (Option.some.inj copied).symm

/-- The screens once `switch_terminal` has made terminal `n` the shown and the
active one. -/
theorem swapScreens_screens {n : Nat} (inside : n < terminalCount) (other : n ≠ m.shownTermId)
    (paged : Paged m) (swapped : m.swapScreens n = some mid) :
    (∀ t, ({ mid with shownTermId := n, activeTermId := n } : Machine).console t = m.console t) ∧
      Paged { mid with shownTermId := n, activeTermId := n } := by
  simp only [swapScreens, Option.bind_eq_bind, Option.bind_eq_some_iff] at swapped
  obtain ⟨first, one, second, two, done⟩ := swapped
  obtain rfl := Option.some.inj done
  have same₁ := copyPage_some one
  have same₂ := copyPage_some two
  have dst : vidmemIndex + (m.shownTermId + 2) = vidmemIndex + 2 + m.shownTermId := by omega
  have src : vidmemIndex + (n + 2) = vidmemIndex + 2 + n := by omega
  rw [dst, paged.display, paged.hidden _ paged.shown] at same₁
  subst same₁
  rw [src, paged.display, paged.hidden n inside] at same₂
  dsimp only at same₂
  have parked := parked_cursor m
  have cells : ∀ t, second.screen.vid.frames (if t = n then vidmemIndex else vidmemIndex + 2 + t) =
      m.screen.vid.frames (m.frameOf t) := by
    intro t
    rw [same₂]
    dsimp only
    simp only [frameOf]
    by_cases here : t = n
    · subst here
      rw [if_pos rfl, if_neg other]
      rw [Function.update_self, Function.update_of_ne (by omega)]
    · rw [if_neg here, Function.update_of_ne (by omega)]
      by_cases shown : t = m.shownTermId
      · rw [shown, Function.update_self, if_pos rfl]
      · rw [if_neg shown, Function.update_of_ne (by omega)]
  have terms : ∀ t, (second.setCursor second.activeTermId second.screen.screenX
      second.screen.screenY).terms t =
        (m.setCursor m.activeTermId m.screen.screenX m.screen.screenY).terms t := by
    intro t
    rw [same₂]
    rfl
  have paged₂ : Paged second := by
    rw [same₂]
    exact ⟨paged.active, paged.shown, paged.videoMem, paged.page, paged.display, paged.hidden⟩
  clear same₂
  generalize stored : second.setCursor second.activeTermId second.screen.screenX
    second.screen.screenY = m₁ at terms ⊢
  have screen : m₁.screen = second.screen := by rw [← stored]; rfl
  have paged₁ : Paged m₁ := by
    rw [← stored]
    exact (setCursor_screens _ _ rfl).paged paged₂
  have parked₁ : ∀ t, (m₁.terms t).cursorX = (m.console t).screenX ∧
      (m₁.terms t).cursorY = (m.console t).screenY := by
    intro t
    rw [terms t]
    exact parked t
  refine ⟨console_of_records parked₁ rfl rfl rfl fun t => ?_, ?_⟩
  · show m₁.screen.vid.frames (if t = n then vidmemIndex else vidmemIndex + 2 + t) = _
    rw [screen]
    exact cells t
  · obtain ⟨page, display, hidden⟩ := mapVidmem_pages paged₁ vidmemIndex
    refine ⟨inside, inside, paged₁.videoMem, ?_, display, hidden⟩
    exact page.trans (congrArg (Pte.mk true) (if_pos rfl).symm)

/-! ## The calls -/

theorem launched_screens (m : Machine) (pid : Nat) (parent : Option Nat) :
    SameScreens m (m.launched pid parent) := by
  have cursors := setTerm_cursor m m.activeTermId
    { m.terms m.activeTermId with pid := pid } rfl rfl
  exact screens_of_cursors cursors rfl rfl rfl

theorem givenUp_screens (m : Machine) (p : Nat) : SameScreens m (m.givenUp p) := by
  have cursors := setTerm_cursor m m.activeTermId
    { m.terms m.activeTermId with toBeHalt := false } rfl rfl
  exact screens_of_cursors cursors rfl rfl rfl

theorem halt_screens {status : UInt8} {magic : Nat → UInt8} {ended : Ended}
    (ran : m.halt status magic = some (m', ended)) : SameScreens m m' := by
  obtain ⟨p, _, ⟨_, pid, parent, _, rfl, _⟩ | back⟩ := halt_inv ran
  · exact (givenUp_screens m p).trans (launched_screens _ pid parent)
  · obtain ⟨q, _, _, rfl⟩ := returnToParent_some back
    apply SameScreens.trans (givenUp_screens m p)
    have cursors := setTerm_cursor (m.givenUp p) (m.givenUp p).activeTermId
      { (m.givenUp p).terms (m.givenUp p).activeTermId with
        pid := ((m.givenUp p).pcbs q).pid } rfl rfl
    exact screens_of_cursors cursors rfl rfl rfl

theorem nextTermId_lt (m : Machine) : m.nextTermId < terminalCount :=
  Nat.mod_lt _ (by decide)

/-- **The tick** leaves the three screens as they are. -/
theorem pitHandler_screens {magic : Nat → UInt8} {ended : Ended}
    (ran : m.pitHandler magic = some (m', ended)) : SameScreens m m' := by
  obtain ⟨curr, mid, m₁, rfl, _, rfl, rest⟩ := pitHandler_some ran
  have screen := turnScreen_screens (m := m) (nextTermId_lt m)
  have turned : SameScreens m ((m.turnScreen m.nextTermId).turned curr m.nextTermId) :=
    screen.trans (screens_of_fields rfl rfl rfl rfl)
  rcases rest with ⟨_, halted⟩ | ⟨rfl, _⟩
  · apply SameScreens.trans (turned.trans _) (halt_screens halted)
    exact screens_of_fields rfl rfl rfl rfl
  · exact turned.trans (screens_of_fields rfl rfl rfl rfl)

/-- **The switch** leaves the three screens as they are. -/
theorem switchTerminal_screens {ended : Ended} (paged : Paged m) (inside : t < terminalCount)
    (ran : m.switchTerminal t = some (m', ended)) :
    (∀ u, m'.console u = m.console u) ∧ Paged m' := by
  rcases switchTerminal_some ran with ⟨_, rfl⟩ | ⟨curr, mid, m₁, other, swapped, _, rfl, rfl, _⟩
  · exact ⟨fun _ => rfl, paged⟩
  · obtain ⟨console, paged'⟩ := swapScreens_screens inside other paged swapped
    have rest : SameScreens { mid with shownTermId := t, activeTermId := t }
        ((({ mid with shownTermId := t } : Machine).turned curr t).leaveRet
          ((({ mid with shownTermId := t } : Machine).turned curr t).savedEbp t)) :=
      screens_of_fields rfl rfl rfl rfl
    exact ⟨fun u => (rest.console u).trans (console u), rest.paged paged'⟩

theorem pushInput_screens {c : UInt8} (pushed : m.pushInput c = some m') : SameScreens m m' := by
  unfold pushInput at pushed
  dsimp only at pushed
  split_ifs at pushed
  obtain rfl := Option.some.inj pushed
  exact setTerm_screens rfl rfl

theorem popInput_screens (popped : m.popInput = some m') : SameScreens m m' := by
  unfold popInput at popped
  dsimp only at popped
  split_ifs at popped
  obtain rfl := Option.some.inj popped
  exact setTerm_screens rfl rfl

theorem modifierKey_screens {scancode : Nat} (pressed : m.modifierKey scancode = some m') :
    SameScreens m m' := by
  simp only [modifierKey] at pressed
  split_ifs at pressed
  all_goals
    obtain rfl := Option.some.inj pressed
    exact screens_of_fields rfl rfl rfl rfl

/-! ## Keys -/

/-- A key that draws nothing. -/
theorem idle_draws {s : Screen Page} (idle : some (m.console t) = some s)
    (same : SameScreens m m') : Draws m m' t s := by
  obtain rfl := Option.some.inj idle
  exact (Draws.refl m t).then same

/-- A visible key other than Ctrl+L. -/
theorem visibleKey_draws {scancode : Nat} {c : UInt8} {s : Screen Page} (paged : Paged m)
    (owns : OwnsCursor m) (shows : ¬(scancode = scL ∧ m.pressed kbfControl = true))
    (inside : after drawByte (m.console m.shownTermId)
      (if m.pressed kbfControl = true then [] else [c]) = some s)
    (typed : m.visibleKey scancode c = some m') : Draws m m' m.shownTermId s := by
  unfold visibleKey at typed
  dsimp only at typed
  by_cases control : m.pressed kbfControl = true
  · rw [if_pos control] at inside
    rw [if_pos control, if_neg fun isL => shows ⟨isL, control⟩] at typed
    split_ifs at typed
    · obtain rfl := Option.some.inj typed
      exact idle_draws inside (setTerm_screens rfl rfl)
    · obtain rfl := Option.some.inj typed
      exact idle_draws inside (SameScreens.refl m)
  · rw [if_neg control] at inside typed
    obtain ⟨mid, drew, typed⟩ := Option.bind_eq_some_iff.1 typed
    have drawn := echo_draws paged owns (by simpa using inside) drew
    split_ifs at typed
    · exact drawn.then (pushInput_screens typed)
    · obtain rfl := Option.some.inj typed
      exact drawn

/-- **A key of the line** is drawn on the shown terminal's screen. -/
theorem lineKey_draws {scancode : Nat} {s : Screen Page} (paged : Paged m) (owns : OwnsCursor m)
    (other : ¬(scF1 ≤ scancode ∧ scancode ≤ scF3)) (plain : m.modifierKey scancode = none)
    (shows : ¬(scancode = scL ∧ m.pressed kbfControl = true))
    (inside : after drawByte (m.console m.shownTermId) (keyBytes m scancode) = some s)
    (typed : m.lineKey scancode = some m') : Draws m m' m.shownTermId s := by
  have line : ¬(scF1 ≤ scancode ∧ scancode ≤ scF3 ∨ (m.modifierKey scancode).isSome) := by
    rw [plain]
    simpa using other
  have one : ∀ {c : UInt8}, after drawByte (m.console m.shownTermId) [c] = some s →
      drawByte (m.console m.shownTermId) c = some s := by
    intro c inside
    simpa using inside
  simp only [keyBytes, keyOf] at inside
  simp only [lineKey] at typed
  rw [if_neg line] at inside
  split_ifs at typed with filler back some' ends hidden
  · rw [if_pos filler] at inside
    obtain ⟨mid, drew, pushed⟩ := Option.bind_eq_some_iff.1 typed
    exact (echo_draws paged owns (one inside) drew).then (pushInput_screens pushed)
  · rw [if_neg filler, if_pos back] at inside
    dsimp only at inside
    rw [if_pos some'] at inside
    obtain ⟨mid, drew, popped⟩ := Option.bind_eq_some_iff.1 typed
    exact (echo_draws paged owns (one inside) drew).then (popInput_screens popped)
  · rw [if_neg filler, if_pos back] at inside
    dsimp only at inside
    rw [if_neg some'] at inside
    obtain rfl := Option.some.inj typed
    exact idle_draws inside (SameScreens.refl m)
  · rw [if_neg filler, if_neg back, if_pos ends] at inside
    obtain ⟨mid, drew, ended⟩ := Option.bind_eq_some_iff.1 typed
    obtain rfl := Option.some.inj ended
    exact (echo_draws paged owns (one inside) drew).then (setTerm_screens rfl rfl)
  · rw [if_neg filler, if_neg back, if_neg ends, if_pos (Or.inl hidden)] at inside
    obtain rfl := Option.some.inj typed
    exact idle_draws inside (SameScreens.refl m)
  · rw [if_neg filler, if_neg back, if_neg ends] at inside
    refine visibleKey_draws paged owns shows ?_ typed
    by_cases control : m.pressed kbfControl = true
    · rw [if_pos (Or.inr control)] at inside
      rw [if_pos control]
      exact inside
    · rw [if_neg (not_or.2 ⟨hidden, control⟩)] at inside
      rw [if_neg control]
      exact inside

/-- Ctrl+L is `clear`. -/
theorem typeKey_clear (control : m.pressed kbfControl = true) : m.typeKey scL = m.clear := by
  have plain : m.modifierKey scL = none := rfl
  have visible : ¬visibleScancodeMap.getD scL 0 = 0 := by decide
  simp only [typeKey]
  rw [plain]
  show m.lineKey scL = m.clear
  unfold lineKey visibleKey
  rw [if_neg (by decide), if_neg (by decide), if_neg (by decide), if_neg visible]
  dsimp only
  rw [if_pos control, if_pos rfl]

/-- **A key that does not switch** draws on the shown terminal's screen. -/
theorem typeKey_draws {ebp scancode : Nat} (paged : Paged m) (owns : OwnsCursor m)
    (other : ¬(scF1 ≤ scancode ∧ scancode ≤ scF3))
    (inPlace : InPlace m (.call ebp (.keyboardHandler scancode)))
    (typed : m.typeKey scancode = some m') : ∃ s, Draws m m' m.shownTermId s ∧
      draws m (.call ebp (.keyboardHandler scancode)) (m.console m.shownTermId) = some s := by
  by_cases clearing : clears m (.call ebp (.keyboardHandler scancode)) = true
  · have active := inPlace.clear clearing
    obtain ⟨rfl, control⟩ : scancode = scL ∧ m.pressed kbfControl = true := by
      simpa [clears] using clearing
    rw [typeKey_clear control] at typed
    obtain ⟨s, cleared⟩ := clear_some (m.console m.shownTermId) (by decide)
    exact ⟨s, clear_draws paged active cleared typed, (if_pos clearing).trans cleared⟩
  · have shows : ¬(scancode = scL ∧ m.pressed kbfControl = true) := by
      simpa [clears] using clearing
    obtain ⟨s, drew⟩ := drawn_of_fits _ (inPlace.fits m.shownTermId (if_neg other))
    refine ⟨s, ?_, (if_neg clearing).trans drew⟩
    simp only [typeKey] at typed
    cases modifier : m.modifierKey scancode with
    | some next =>
        rw [modifier] at typed
        obtain rfl := Option.some.inj typed
        have nothing : keyBytes m scancode = [] := by
          simp only [keyBytes, keyOf]
          rw [if_pos (Or.inr (by rw [modifier]; rfl))]
        have idle : after drawByte (m.console m.shownTermId) (keyBytes m scancode) = some s := drew
        rw [nothing] at idle
        exact idle_draws idle (modifierKey_screens modifier)
    | none =>
        rw [modifier] at typed
        exact lineKey_draws paged owns other modifier shows drew typed

/-! ## Steps -/

theorem refines_of_same {e : KernelEvent} (idle : touched m e = none)
    (same : ∀ t, m'.console t = m.console t) : Refines m e m' := by
  intro t _
  refine ⟨fun _ => same t, fun here => ?_⟩
  rw [idle] at here
  cases here

theorem refines_of_draws {e : KernelEvent} {s : Screen Page} (here : touched m e = some t)
    (drawn : Draws m m' t s) (drew : draws m e (m.console t) = some s) : Refines m e m' := by
  intro u inside
  refine ⟨fun other => ?_, fun touches => ?_⟩
  · apply drawn.others u inside
    rintro rfl
    exact other here
  · obtain rfl := Option.some.inj (here.symm.trans touches)
    rw [drew, drawn.own]

/-- The process that runs is the active terminal's, so only there does `putc`
store the cursor. -/
theorem ownsCursor_of_inKernel (inside : InKernel m) (paged : Paged m) : OwnsCursor m := by
  intro curr current same
  obtain rfl := Option.some.inj (inside.current.symm.trans current)
  have alive := inside.sched.head_alive inside.sched.active
  have own : (m.pcbs (m.terms m.activeTermId).pid).pid = (m.terms m.activeTermId).pid :=
    inside.sched.pid _ alive
  exact (inside.sched.head_injective paged.active paged.shown (own.symm.trans same)).symm

theorem screens_call {ebp : Nat} {body : KernelCall} {ended : Ended} (inside : InKernel m)
    (paged : Paged m) (inPlace : InPlace m (.call ebp body))
    (ran : body.run m = some (m', ended)) : Refines m (.call ebp body) m' ∧ Paged m' := by
  have owns := ownsCursor_of_inKernel inside paged
  have still : touched m (.call ebp body) = none → SameScreens m m' →
      Refines m (.call ebp body) m' ∧ Paged m' := fun idle same =>
    ⟨refines_of_same idle same.console, same.paged paged⟩
  cases body with
  | execute command magic =>
      apply still rfl
      rcases execute_some ran with ⟨rfl, _⟩ | ⟨pid, parent, _, rfl, _⟩
      · exact SameScreens.refl m'
      · exact launched_screens m pid parent
  | halt status magic => exact still rfl (halt_screens ran)
  | pitHandler magic => exact still rfl (pitHandler_screens ran)
  | vidmap start =>
      apply still rfl
      obtain ⟨⟨mid, v⟩, mapped, same⟩ := Option.map_eq_some_iff.1 ran
      cases same
      rcases vidmap_some mapped with ⟨rfl, _⟩ | ⟨curr, _, _, rfl⟩
      · exact SameScreens.refl mid
      · exact screens_of_fields rfl rfl rfl rfl
  | putc c =>
      obtain ⟨mid, drew, same⟩ := Option.map_eq_some_iff.1 ran
      cases same
      obtain ⟨s, fits⟩ := drawn_of_fits _ (inPlace.fits m.activeTermId rfl)
      have one : drawByte (m.console m.activeTermId) c = some s := by simpa [drawn] using fits
      have draws := putc_draws paged owns one drew
      exact ⟨refines_of_draws rfl draws fits, draws.paged paged⟩
  | raise vector address =>
      obtain ⟨mid, raised, same⟩ := Option.map_eq_some_iff.1 ran
      cases same
      obtain ⟨s, fits⟩ := drawn_of_fits _ (inPlace.fits m.activeTermId rfl)
      obtain ⟨message, found, raised⟩ := Option.bind_eq_some_iff.1 raised
      obtain ⟨next, drew, raised⟩ := Option.bind_eq_some_iff.1 raised
      obtain rfl := Option.some.inj raised
      have bytes : drawn m (.call ebp (.raise vector address)) = message := by
        simp [drawn, found]
      rw [bytes] at fits
      have draws : Draws m { next with exceptionOccurred := true } m.activeTermId s :=
        (puts_draws message paged owns fits drew).then (screens_of_fields rfl rfl rfl rfl)
      refine ⟨refines_of_draws rfl draws ?_, draws.paged paged⟩
      exact (congrArg _ bytes).trans fits
  | keyboardHandler scancode =>
      change m.keyboardHandler scancode = some (m', ended) at ran
      simp only [keyboardHandler] at ran
      split_ifs at ran with switches
      · have low : scancode - scF1 < terminalCount := by
          simp only [scF1, scF3, terminalCount] at switches ⊢
          omega
        obtain ⟨same, paged'⟩ := switchTerminal_screens paged low ran
        exact ⟨refines_of_same (if_pos switches) same, paged'⟩
      · obtain ⟨mid, typed, same⟩ := Option.map_eq_some_iff.1 ran
        cases same
        obtain ⟨s, draws, drew⟩ := typeKey_draws paged owns switches inPlace typed
        exact ⟨refines_of_draws (if_neg switches) draws drew, draws.paged paged⟩

/-- A call finds the screens, and the keyboard, as the step before left them. -/
theorem entered_event (m : Machine) (ebp : Nat) (e : KernelEvent) :
    touched (m.entered ebp) e = touched m e ∧ clears (m.entered ebp) e = clears m e ∧
      drawn (m.entered ebp) e = drawn m e := by
  cases e with
  | iret => exact ⟨rfl, rfl, rfl⟩
  | call frame body =>
      cases body with
      | keyboardHandler scancode =>
          have key : (m.entered ebp).keyOf scancode = m.keyOf scancode :=
            entered_callKey m ebp (.keyboardHandler scancode)
          refine ⟨rfl, rfl, ?_⟩
          unfold drawn keyBytes
          dsimp only
          rw [key]
          rfl
      | execute _ _ | halt _ _ | raise _ _ | pitHandler _ | vidmap _ | putc _ =>
          exact ⟨rfl, rfl, rfl⟩

/-- **One step** in place refines the three consoles. -/
theorem screens_step {e : KernelEvent} (sched : Scheduled m.sessions) (paged : Paged m)
    (inPlace : InPlace m e) (step : kernelStep m e = some m') : Refines m e m' ∧ Paged m' := by
  cases e with
  | iret =>
      obtain rfl := Option.some.inj step
      have same : SameScreens m { m with userMode := true } := screens_of_fields rfl rfl rfl rfl
      exact ⟨refines_of_same rfl same.console, same.paged paged⟩
  | call ebp body =>
      obtain ⟨frame, ended, ran⟩ := kernelStep_call.1 step
      have inside : InKernel (m.entered ebp) := inKernel_enter sched frame
      have entry : SameScreens m (m.entered ebp) := screens_of_fields rfl rfl rfl rfl
      obtain ⟨touches, clearing, bytes⟩ := entered_event m ebp (.call ebp body)
      have inPlace' : InPlace (m.entered ebp) (.call ebp body) := by
        refine ⟨fun clears => inPlace.clear (clearing ▸ clears), fun t here => ?_⟩
        rw [entry.console, bytes]
        exact inPlace.fits t (touches ▸ here)
      obtain ⟨refines, paged'⟩ := screens_call inside (entry.paged paged) inPlace' ran
      refine ⟨fun t inside => ?_, paged'⟩
      have same : draws (m.entered ebp) (.call ebp body) = draws m (.call ebp body) := by
        funext s
        simp only [draws]
        rw [clearing, bytes]
      have there := refines t inside
      rwa [touches, same, entry.console] at there

end

/-! ## Runs -/

theorem inPlace_of_idle {m : Machine} {e : KernelEvent} (shows : clears m e = false)
    (nothing : drawn m e = []) : InPlace m e := by
  constructor
  · rw [shows]
    exact nofun
  · rw [nothing]
    exact fun _ _ => trivial

theorem paged_start {m : Machine} (booted : m.Booted) : Paged m.mapTerminals.startShells := by
  have active : m.mapTerminals.startShells.activeTermId = 0 :=
    (start_activeTermId m).trans booted.active
  have shown : m.mapTerminals.startShells.shownTermId = 0 :=
    (start_shownTermId m).trans booted.shown
  have pages : m.mapTerminals.startShells.screen.vid.kernelVidmem =
      m.mapTerminals.screen.vid.kernelVidmem := rfl
  have frame : m.mapTerminals.startShells.frameOf 0 = vidmemIndex := by
    rw [frameOf, shown, if_pos rfl]
  refine ⟨by rw [active]; decide, by rw [shown]; decide, booted.videoMem, ?_, ?_, ?_⟩
  · rw [pages, active, frame]
    simp [mapTerminals, booted.kernelVidmem]
  · rw [pages]
    simp [mapTerminals]
  · intro t inside
    rw [pages]
    simp only [terminalCount] at inside
    obtain rfl | rfl | rfl : t = 0 ∨ t = 1 ∨ t = 2 := by omega
    all_goals simp [mapTerminals, booted.kernelVidmem]

/-- **Three consoles.** Along a run that is in place, the tick and the switch
leave the three screens alone, a process draws on its own terminal's, and a key
on the shown one's. -/
theorem screens_refine (m₀ m : Machine) (magic : Nat → UInt8) (booted : m₀.Booted)
    (started : m₀.initiateShells magic = some (m, true)) (run : List KernelEvent)
    (inPlace : Meets kernelStep InPlace m run) : Every kernelStep Refines m run := by
  obtain rfl := initiateShells_some started
  refine every_of_meets (fun m => Scheduled m.sessions ∧ Paged m) ?_ run _
    ⟨scheduled_start booted, paged_start booted⟩ inPlace
  rintro m e m' ⟨sched, paged⟩ guard step
  obtain ⟨refines, paged'⟩ := screens_step sched paged guard step
  exact ⟨⟨scheduled_step sched step, paged'⟩, refines⟩

/-- The first shell writes a letter, the tick gives the processor to the second
one, and the user presses Ctrl. -/
theorem letter_tick_ctrl : Every kernelStep Refines shells
    [.call 0x7FFF00 (.putc 0x41), .call 0x7FFE00 (.pitHandler fun _ => 0),
      .call 0x7FDF00 (.keyboardHandler 0x1D)] := by
  refine screens_refine (mounted shellFs) shells (fun _ => 0) (mounted_booted shellFs)
    shells_started _ ⟨⟨nofun, ?_⟩, fun m _ => ⟨inPlace_of_idle rfl rfl, fun m _ =>
      ⟨inPlace_of_idle rfl rfl, fun _ _ => trivial⟩⟩⟩
  rintro t here
  obtain rfl : shells.activeTermId = t := Option.some.inj here
  exact ⟨⟨fun _ _ _ => by decide, nofun, nofun, nofun⟩, fun _ _ => trivial⟩

/-- The tick makes terminal 1 the active one; then the user, who still sees
terminal 0, presses Ctrl and L. -/
theorem clear_blanks_hidden : ¬Every kernelStep Refines shells
    [.call 0x7FFF00 (.pitHandler fun _ => 0), .call 0x7FDF00 (.keyboardHandler 0x1D),
      .call 0x7FDE00 (.keyboardHandler 0x26)] := by
  intro every
  have sched := scheduled_start (mounted_booted shellFs)
  have stopped : (after kernelStep shells [.call 0x7FFF00 (.pitHandler fun _ => 0),
      .call 0x7FDF00 (.keyboardHandler 0x1D)]).map (fun m => (m.shownTermId, m.activeTermId,
        m.stackPointer, m.pressed kbfControl, (m.console 1).vid.cell 0)) =
          some (0, 1, 0x7FDF00, true, ⟨0, 0⟩) := rfl
  obtain ⟨m, reached, state⟩ := Option.map_eq_some_iff.1 stopped
  simp only [Prod.mk.injEq] at state
  obtain ⟨shown, active, stack, control, empty⟩ := state
  obtain ⟨m₁, tick, reached'⟩ := Option.bind_eq_some_iff.1 reached
  obtain ⟨m₂, ctrl, same⟩ := Option.bind_eq_some_iff.1 reached'
  obtain rfl : m = m₂ := (Option.some.inj same).symm
  have paged₁ := (screens_step sched (paged_start (mounted_booted shellFs))
    (inPlace_of_idle rfl rfl) tick).2
  have paged := (screens_step (scheduled_step sched tick) paged₁ (inPlace_of_idle rfl rfl) ctrl).2
  have entry : SameScreens m (m.entered 0x7FDE00) := screens_of_fields rfl rfl rfl rfl
  have apart : m.shownTermId ≠ m.activeTermId := by
    rw [shown, active]
    decide
  obtain ⟨m', cleared, blanks⟩ := clear_hidden (entry.paged paged) apart
  have control' : (m.entered 0x7FDE00).pressed kbfControl = true := control
  have ran : KernelCall.run (m.entered 0x7FDE00) (.keyboardHandler 0x26) =
      some (m', .returned 0) := by
    show (m.entered 0x7FDE00).keyboardHandler scL = some (m', .returned 0)
    simp only [keyboardHandler]
    rw [if_neg (by decide), typeKey_clear control', cleared]
    rfl
  have frame : m.Frame 0x7FDE00 := by
    rw [Machine.Frame, stack]
    decide
  have step := kernelStep_call.2 ⟨frame, _, ran⟩
  have other : touched m (.call 0x7FDE00 (.keyboardHandler 0x26)) ≠ some 1 := by
    show some m.shownTermId ≠ some 1
    rw [shown]
    decide
  have refines := every_at [.call 0x7FFF00 (.pitHandler fun _ => 0),
    .call 0x7FDF00 (.keyboardHandler 0x1D)] shells m m' every reached step
  have blank : (m'.console m.activeTermId).vid.cell 0 = _ := blanks 0 (by decide) (by decide)
  rw [active, (refines 1 (by decide)).1 other, empty] at blank
  exact absurd blank (by decide)

end Illinix.Kernel
