/-
# Kernel.Editing -- a line typed and taken back

The keys of a line go to two places: `keyboard_handler` keeps one byte a key in
the buffer, and `echo` draws one to four cells on the shown terminal.  `InStep`
says that the two agree: the screen shows a line with as many entries as the
buffer has bytes.  Every key keeps it but one: with `MAX_TERMINAL` bytes in the
buffer a visible key is drawn and not kept.  From a state that agrees, backspaces
until the buffer is empty take everything back, and `takesBack_iff` says that from
the others they do not.

The display is reached through one of two pages, `shownScreen`; nothing here
depends on what the pages lead to, as a line is too short to reach a location
twice.
-/
import Illinix.Console.Entries
import Illinix.Kernel.Lines

namespace Illinix.Kernel

open Illinix.Console Illinix.FileSys Illinix.Theory Machine

set_option autoImplicit false

/-! ## The bus -/

instance : Located Bus (Nat × Int) where
  locate b i := b.translate i
  cell b l := b.frames l.1 l.2
  load_eq _ _ := rfl
  store_some b i c l here :=
    ⟨b.setCell l.1 l.2 c, congrArg (Option.map fun l => b.setCell l.1 l.2 c) here⟩
  store_inv b b' i c stored := by
    obtain ⟨l, here, rfl⟩ := Option.map_eq_some_iff.1 stored
    refine ⟨l, here, rfl, ?_, fun l' other => ?_⟩
    · simp only [Bus.setCell, Function.update_self]
    · by_cases frame : l'.1 = l.1
      · have cell : l'.2 ≠ l.2 := fun cell => other (Prod.ext frame cell)
        simp only [Bus.setCell, frame, Function.update_self, Function.update_of_ne cell]
      · simp only [Bus.setCell, Function.update_of_ne frame]

/-- Two indices less than a page apart lead to two locations. -/
theorem bus_apart (b : Bus) {low high : Int} (short : high ≤ low + pageCells) :
    Apart b low high := by
  have cell : ∀ {i : Int} {l : Nat × Int}, b.translate i = some l →
      l.2 = (b.videoMem * pageCells + i) % pageCells := by
    intro i l here
    simp only [Bus.translate] at here
    split_ifs at here
    obtain rfl := Option.some.inj here
    rfl
  intro i j l above below above' below' here there
  have same := (cell here).symm.trans (cell there)
  simp only [pageCells] at short same
  omega

/-! ## The screen that keys are drawn on -/

/-- The screen as `echo` has it: the pair of the active terminal, or the shown
one's behind the second page of the display. -/
def Machine.shownScreen (m : Machine) : Screen Bus :=
  if m.activeTermId = m.shownTermId then m.screen
  else
    { vid := { m.screen.vid with videoMem := vidmemIndex + 1 }
      screenX := (m.terms m.shownTermId).cursorX
      screenY := (m.terms m.shownTermId).cursorY }

section

variable {m m' : Machine}

theorem shownScreen_frames (m : Machine) : m.shownScreen.vid.frames = m.screen.vid.frames := by
  simp only [shownScreen]
  split_ifs <;> rfl

/-- The shown screen depends on five fields, and on the cursor of one record. -/
theorem shownScreen_congr (active : m'.activeTermId = m.activeTermId)
    (shown : m'.shownTermId = m.shownTermId) (screen : m'.screen = m.screen)
    (x : (m'.terms m.shownTermId).cursorX = (m.terms m.shownTermId).cursorX)
    (y : (m'.terms m.shownTermId).cursorY = (m.terms m.shownTermId).cursorY) :
    m'.shownScreen = m.shownScreen := by
  simp only [shownScreen]
  rw [active, shown, screen, x, y]

/-- A new record for the shown terminal, with the same cursor. -/
theorem setTerm_shownScreen (term : Terminal)
    (x : term.cursorX = (m.terms m.shownTermId).cursorX)
    (y : term.cursorY = (m.terms m.shownTermId).cursorY) :
    (m.setTerm m.shownTermId term).shownScreen = m.shownScreen := by
  refine shownScreen_congr (m := m) rfl rfl rfl ?_ ?_
  · simp [setTerm, x]
  · simp [setTerm, y]

theorem pushInput_shownScreen {c : UInt8} (pushed : m.pushInput c = some m') :
    m'.shownScreen = m.shownScreen := by
  simp only [pushInput] at pushed
  split_ifs at pushed
  obtain rfl := Option.some.inj pushed
  exact setTerm_shownScreen _ rfl rfl

theorem popInput_shownScreen (popped : m.popInput = some m') : m'.shownScreen = m.shownScreen := by
  simp only [popInput] at popped
  split_ifs at popped
  obtain rfl := Option.some.inj popped
  exact setTerm_shownScreen _ rfl rfl

theorem showCursor_screen (shown : m.showCursor = some m') :
    m'.screen = m.screen ∧ ∃ p, m.getCurrentPcb = some p := by
  obtain ⟨curr, current, shown⟩ := Option.bind_eq_some_iff.1 shown
  split_ifs at shown
  · obtain rfl := Option.some.inj shown
    exact ⟨rfl, curr, current⟩
  · obtain rfl := Option.some.inj shown
    exact ⟨rfl, curr, current⟩

theorem store_videoMem {b b' : Bus} {i : Int} {c : Cell} (stored : Video.store b i c = some b') :
    b'.videoMem = b.videoMem := by
  obtain ⟨l, _, rfl⟩ := Option.map_eq_some_iff.1 stored
  rfl

/-- `putc` of the machine is the console's, on the screen in use. -/
theorem putc_screen {c : UInt8} (drew : m.putc c = some m') : ∃ flag,
    Console.putc c m.screen = some (m'.screen, flag) ∧
      (flag = true → ∃ p, m.getCurrentPcb = some p) := by
  obtain ⟨⟨screen, updates⟩, put, drew⟩ := Option.bind_eq_some_iff.1 drew
  refine ⟨updates, ?_, fun true' => ?_⟩
  · cases updates with
    | false =>
        obtain rfl := Option.some.inj drew
        exact put
    | true =>
        rw [put, (showCursor_screen (m := { m with screen := screen }) drew).1]
  · subst true'
    exact (showCursor_screen (m := { m with screen := screen }) drew).2

theorem putc_some {c : UInt8} {screen : Screen Bus} {flag : Bool} {p : Nat}
    (put : Console.putc c m.screen = some (screen, flag)) (current : m.getCurrentPcb = some p) :
    ∃ m', m.putc c = some m' := by
  have current' : ({ m with screen := screen } : Machine).getCurrentPcb = some p := current
  simp only [Machine.putc, put, Option.bind_eq_bind, Option.bind_some, showCursor, current']
  split_ifs
  all_goals exact ⟨_, rfl⟩

theorem setCursor_self (m : Machine) (x y : Int) :
    ((m.setCursor m.shownTermId x y).terms m.shownTermId).cursorX = x ∧
      ((m.setCursor m.shownTermId x y).terms m.shownTermId).cursorY = y := by
  simp [setCursor, setTerm]

/-- `echo` on the shown screen. -/
theorem echo_screen {c : UInt8} (drew : m.echo c = some m') : ∃ flag,
    Console.putc c m.shownScreen = some (m'.shownScreen, flag) ∧
      (flag = true → ∃ p, m.getCurrentPcb = some p) := by
  have same := echo_drawn drew
  have active : m'.activeTermId = m.activeTermId := congrArg Context.activeTermId same
  have shown : m'.shownTermId = m.shownTermId := congrArg Context.shownTermId same
  simp only [echo] at drew
  simp only [shownScreen]
  rw [active, shown]
  by_cases own : m.activeTermId = m.shownTermId
  · rw [if_pos own] at drew ⊢
    rw [if_pos own]
    exact putc_screen drew
  · rw [if_neg own] at drew ⊢
    rw [if_neg own]
    obtain ⟨mid, put, drew⟩ := Option.bind_eq_some_iff.1 drew
    obtain ⟨flag, put, current⟩ := putc_screen put
    obtain rfl := Option.some.inj drew
    have page : mid.screen.vid.videoMem = vidmemIndex + 1 :=
      putc_keep (fun _ _ _ _ stored same => (store_videoMem stored).trans same) put rfl
    have shown' : mid.shownTermId = m.shownTermId := shown
    obtain ⟨x, y⟩ := setCursor_self (mid.setVideoMem vidmemIndex) mid.screen.screenX
      mid.screen.screenY
    refine ⟨flag, put.trans (congrArg (fun screen => some (screen, flag)) ?_), current⟩
    rw [← shown']
    refine Eq.trans ?_ (congrArg₂ (Screen.mk
      (⟨vidmemIndex + 1, mid.screen.vid.kernelVidmem, mid.screen.vid.frames⟩ : Bus)) x y).symm
    rw [← page]

/-- **A key that is echoed** can be. -/
theorem echo_some {c : UInt8} {screen : Screen Bus} {flag : Bool} {p : Nat}
    (put : Console.putc c m.shownScreen = some (screen, flag))
    (current : m.getCurrentPcb = some p) : ∃ m', m.echo c = some m' := by
  simp only [shownScreen] at put
  simp only [echo]
  by_cases own : m.activeTermId = m.shownTermId
  · rw [if_pos own] at put ⊢
    exact putc_some put current
  · rw [if_neg own] at put ⊢
    obtain ⟨m', drew⟩ := putc_some (m := (m.setScreenCoordinate (m.terms m.shownTermId).cursorX
      (m.terms m.shownTermId).cursorY).setVideoMem (vidmemIndex + 1)) put current
    exact ⟨_, by rw [drew]; rfl⟩

end

/-! ## Keys -/

def pressKey (m : Machine) (scancode : Nat) : Option Machine :=
  (m.keyboardHandler scancode).map Prod.fst

/-- The length of the shown terminal's input. -/
def lineLength (m : Machine) : Nat := (m.terms m.shownTermId).length

def entryOf (c : UInt8) : Entry := if c = '\t'.toUInt8 then .tab else .char c

/-- The entry that a key types. -/
def typedEntry (m : Machine) (scancode : Nat) : Option Entry :=
  match m.keyOf scancode with
  | some (.char c) => some (entryOf c)
  | _ => none

/-- A modifier, a backspace, or a visible key or a tab that is drawn and does not
scroll the screen. -/
def Types (m : Machine) (scancode : Nat) : Prop :=
  (m.modifierKey scancode).isSome = true ∨ m.keyOf scancode = some .backspace ∨
    ∃ e, e ∈ typedEntry m scancode ∧ (m.echo e.byte).isSome = true ∧ ¬Scrolls m.shownScreen e

instance (m : Machine) (scancode : Nat) : Decidable (Types m scancode) :=
  inferInstanceAs (Decidable (_ ∨ _ ∨ _))

/-- A key is typed with the buffer full. -/
def TypesFull (m : Machine) (scancode : Nat) : Prop :=
  (typedEntry m scancode).isSome = true ∧ lineLength m = maxTerminal

instance (m : Machine) (scancode : Nat) : Decidable (TypesFull m scancode) :=
  inferInstanceAs (Decidable (_ ∧ _))

section

variable {m m' : Machine} {scancode : Nat} {c : UInt8}

@[simp] theorem entryOf_byte (c : UInt8) : (entryOf c).byte = c := by
  simp only [entryOf]
  split_ifs with filler
  · exact filler.symm
  · rfl

/-- The visible characters are drawn as such. -/
theorem charOf_plain (m : Machine) (scancode : Nat) : (entryOf (m.charOf scancode)).Plain := by
  have listed : ∀ map ∈ [visibleScancodeMapShifted, visibleScancodeMap], ∀ c ∈ 0 :: map,
      (Entry.char c).Plain ∧ c ≠ '\t'.toUInt8 := by
    simp only [Entry.Plain]
    decide +kernel
  have plain : ∀ map ∈ [visibleScancodeMapShifted, visibleScancodeMap],
      (entryOf (map.getD scancode 0)).Plain := by
    intro map known
    have member : map.getD scancode 0 ∈ 0 :: map := by
      by_cases inside : scancode < map.length
      · rw [List.getD_eq_getElem _ _ inside]
        exact List.mem_cons_of_mem 0 (List.getElem_mem inside)
      · rw [List.getD_eq_default _ _ (Nat.le_of_not_lt inside)]
        exact List.mem_cons_self
    obtain ⟨visible, filler⟩ := listed map known _ member
    rw [entryOf, if_neg filler]
    exact visible
  simp only [charOf]
  split_ifs
  · exact plain _ (by simp)
  · exact plain _ (by simp)

/-- A key with a character is a tab or a visible key. -/
theorem char_key (key : m.keyOf scancode = some (.char c)) :
    ¬(scF1 ≤ scancode ∧ scancode ≤ scF3) ∧ m.modifierKey scancode = none ∧
      (scancode = scTab ∧ c = '\t'.toUInt8 ∨
        scancode ≠ scTab ∧ scancode ≠ scBackspace ∧ scancode ≠ scEnter ∧
          visibleScancodeMap.getD scancode 0 ≠ 0 ∧ m.pressed kbfControl = false ∧
          c = m.charOf scancode) := by
  simp only [keyOf] at key
  split_ifs at key with other filler back ends hidden
  · obtain ⟨switches, modifier⟩ := not_or.1 other
    obtain rfl : _ = c := by simpa using key
    exact ⟨switches, by simpa using modifier, Or.inl ⟨filler, rfl⟩⟩
  · simp at key
  · simp at key
  · obtain ⟨switches, modifier⟩ := not_or.1 other
    obtain ⟨visible, control⟩ := not_or.1 hidden
    obtain rfl : _ = c := by simpa using key
    exact ⟨switches, by simpa using modifier,
      Or.inr ⟨filler, back, ends, visible, by simpa using control, rfl⟩⟩

theorem key_plain (key : m.keyOf scancode = some (.char c)) : (entryOf c).Plain := by
  rcases (char_key key).2.2 with ⟨_, rfl⟩ | ⟨_, _, _, _, _, rfl⟩
  · exact trivial
  · exact charOf_plain m scancode

theorem backspace_key (key : m.keyOf scancode = some .backspace) : scancode = scBackspace := by
  simp only [keyOf] at key
  split_ifs at key with other filler back ends hidden
  · simp at key
  · exact back
  · simp at key
  · simp at key

theorem pressKey_lineKey (switches : ¬(scF1 ≤ scancode ∧ scancode ≤ scF3))
    (plain : m.modifierKey scancode = none) : pressKey m scancode = m.lineKey scancode := by
  simp only [pressKey, keyboardHandler]
  rw [if_neg switches, typeKey, plain, Option.map_map]
  exact congrFun Option.map_id _

/-- A key with a character is drawn, then kept if there is room. -/
theorem press_char (key : m.keyOf scancode = some (.char c))
    (pressed : pressKey m scancode = some m') :
    ∃ mid, m.echo c = some mid ∧ m'.shownScreen = mid.shownScreen := by
  obtain ⟨switches, plain, ⟨rfl, rfl⟩ | ⟨filler, back, ends, visible, control, rfl⟩⟩ := char_key key
  · rw [pressKey_lineKey switches plain, lineKey, if_pos rfl] at pressed
    obtain ⟨mid, drew, pushed⟩ := Option.bind_eq_some_iff.1 pressed
    exact ⟨mid, drew, pushInput_shownScreen pushed⟩
  · rw [pressKey_lineKey switches plain, lineKey, if_neg filler, if_neg back, if_neg ends,
      if_neg visible, visibleKey] at pressed
    simp only [control, Bool.false_eq_true, if_false] at pressed
    obtain ⟨mid, drew, pushed⟩ := Option.bind_eq_some_iff.1 pressed
    refine ⟨mid, drew, ?_⟩
    split_ifs at pushed
    · exact pushInput_shownScreen pushed
    · obtain rfl := Option.some.inj pushed
      rfl

/-- A key that is drawn goes through if there is room. -/
theorem press_some (key : m.keyOf scancode = some (.char c)) (drawn : (m.echo c).isSome = true)
    (room : lineLength m < maxTerminal) : ∃ m', pressKey m scancode = some m' := by
  obtain ⟨mid, drew⟩ := Option.isSome_iff_exists.1 drawn
  have shown : mid.shownTermId = m.shownTermId := congrArg Context.shownTermId (echo_drawn drew)
  have still : (mid.terms mid.shownTermId).length < maxTerminal := by
    rw [shown]
    exact (congrArg Line.length (echo_lines drew m.shownTermId)).trans_lt room
  have pushed : mid.pushInput c = some _ := if_pos still
  obtain ⟨switches, plain, ⟨rfl, rfl⟩ | ⟨filler, back, ends, visible, control, rfl⟩⟩ := char_key key
  · rw [pressKey_lineKey switches plain, lineKey, if_pos rfl]
    exact ⟨_, Option.bind_eq_some_iff.2 ⟨mid, drew, pushed⟩⟩
  · rw [pressKey_lineKey switches plain, lineKey, if_neg filler, if_neg back, if_neg ends,
      if_neg visible, visibleKey]
    simp only [control, Bool.false_eq_true, if_false]
    exact ⟨_, Option.bind_eq_some_iff.2 ⟨mid, drew, (if_pos still).trans pushed⟩⟩

theorem press_backspace (m : Machine) : pressKey m scBackspace =
    if 0 < lineLength m then (m.echo 0x08).bind popInput else some m := by
  rw [pressKey_lineKey (by decide) rfl, lineKey, if_neg (by decide), if_pos rfl]
  rfl

/-- The context and the line of the shown terminal after a key. -/
theorem press_line {k : Key} (key : m.keyOf scancode = some k)
    (pressed : pressKey m scancode = some m') :
    m'.shownTermId = m.shownTermId ∧ m'.getCurrentPcb = m.getCurrentPcb ∧
      lineLength m' = (k.apply (m.terms m.shownTermId).line).length := by
  obtain ⟨⟨next, ended⟩, ran, rfl⟩ := Option.map_eq_some_iff.1 pressed
  have line := keyboardHandler_line ran m.shownTermId
  rw [if_pos rfl, key] at line
  have drawn : Drawn m next := by
    simp only [keyboardHandler] at ran
    split_ifs at ran with switches
    · simp [keyOf, switches] at key
    · obtain ⟨mid, typed, same⟩ := Option.map_eq_some_iff.1 ran
      cases same
      exact typeKey_drawn typed
  have shown : next.shownTermId = m.shownTermId := congrArg Context.shownTermId drawn
  refine ⟨shown, getCurrentPcb_congr (congrArg Context.esp drawn), ?_⟩
  simp only [lineLength]
  rw [shown]
  exact congrArg Line.length line

end

/-! ## Typing and taking back -/

/-- An input line can begin: the buffer is empty and the cell before the cursor is
no tab filler. -/
structure LineStarts (m₀ : Machine) : Prop where
  empty : lineLength m₀ = 0
  nonneg : 0 ≤ m₀.shownScreen.screenX ∧ 0 ≤ m₀.shownScreen.screenY
  before : 0 < m₀.shownScreen.offset → ∀ c,
    Video.load m₀.shownScreen.vid (m₀.shownScreen.offset - 1) = some c → c.attr ≠ tab

/-- The machine and how far the line has reached so far. -/
abbrev Reached := Machine × Int

def typeStep (s : Reached) (scancode : Nat) : Option Reached :=
  (pressKey s.1 scancode).map fun m => (m, max s.2 m.shownScreen.offset)

/-- The shown terminal's screen shows a line that began at `m₀`. -/
def OnScreen (m₀ : Machine) (reach : Int) (es : List Entry) (m : Machine) : Prop :=
  ShowsLine m₀.shownScreen.vid m₀.shownScreen.place reach es m.shownScreen

/-- Screen and buffer agree. -/
structure InStep (m₀ : Machine) (s : Reached) (es : List Entry) : Prop where
  shows : OnScreen m₀ s.2 es s.1
  kept : lineLength s.1 = es.length
  short : es.length ≤ maxTerminal
  near : s.2 ≤ m₀.shownScreen.offset + 4 * maxTerminal
  current : es ≠ [] → ∃ p, s.1.getCurrentPcb = some p

/-- Backspaces until the buffer is empty return the cursor to the start and leave
every cell that was drawn blank and the others as they were. -/
def TakesBack (m₀ : Machine) (s : Reached) : Prop :=
  ∃ m, after pressKey s.1 (List.replicate (lineLength s.1) scBackspace) = some m ∧
    lineLength m = 0 ∧ m.shownScreen.place = m₀.shownScreen.place ∧
    (∀ i l, m₀.shownScreen.offset ≤ i → i < s.2 → m₀.shownScreen.vid.translate i = some l →
      m.screen.vid.frames l.1 l.2 = ⟨0, attrib⟩) ∧
    ∀ l, (∀ i, m₀.shownScreen.offset ≤ i → i < s.2 →
      m₀.shownScreen.vid.translate i ≠ some l) →
        m.screen.vid.frames l.1 l.2 = m₀.screen.vid.frames l.1 l.2

section

variable {m₀ m m' : Machine} {scancode : Nat} {reach : Int} {e : Entry} {es earlier : List Entry}

/-- The cell before the start is in the same page. -/
theorem LineStarts.noFiller (starts : LineStarts m₀) :
    NoFillerBefore m₀.shownScreen.vid m₀.shownScreen.place := by
  rintro inside ⟨l, here⟩
  have offset : m₀.shownScreen.place.offset = m₀.shownScreen.offset := rfl
  have nonneg := starts.nonneg
  have before := starts.before
  rw [offset] at inside here ⊢
  have positive : 0 < m₀.shownScreen.offset := by
    simp only [Screen.offset, numCols] at inside ⊢
    omega
  have here' : m₀.shownScreen.vid.translate m₀.shownScreen.offset = some l := here
  have there : ∃ l', m₀.shownScreen.vid.translate (m₀.shownScreen.offset - 1) = some l' := by
    have page :
        (m₀.shownScreen.vid.videoMem * pageCells + (m₀.shownScreen.offset - 1)) / pageCells =
          (m₀.shownScreen.vid.videoMem * pageCells + m₀.shownScreen.offset) / pageCells := by
      simp only [pageCells]
      omega
    simp only [Bus.translate] at here' ⊢
    rw [page]
    split_ifs at here' with mapped
    exact ⟨_, if_pos mapped⟩
  obtain ⟨l', there⟩ := there
  have loaded : Video.load m₀.shownScreen.vid (m₀.shownScreen.offset - 1) =
      some (m₀.shownScreen.vid.frames l'.1 l'.2) := congrArg (Option.map _) there
  exact ⟨l', there, before positive _ loaded⟩

theorem keyOf_backspace (m : Machine) : m.keyOf scBackspace = some .backspace := rfl

/-- **A backspace** with a byte in the buffer takes back the latest entry. -/
theorem pop_press (starts : LineStarts m₀) (shows : OnScreen m₀ reach (e :: earlier) m)
    (near : reach < m₀.shownScreen.offset + pageCells) {p : Nat}
    (current : m.getCurrentPcb = some p) (some' : 0 < lineLength m)
    (short : lineLength m ≤ maxTerminal) : ∃ m', pressKey m scBackspace = some m' ∧
      OnScreen m₀ reach earlier m' ∧ lineLength m' = lineLength m - 1 ∧
      m'.getCurrentPcb = some p := by
  have apart : Apart m₀.shownScreen.vid (m₀.shownScreen.offset - 1) reach :=
    bus_apart _ (by omega)
  obtain ⟨t, put, fills, moved⟩ := backspace_entry shows apart starts.nonneg starts.noFiller
  obtain ⟨mid, drew⟩ := echo_some put current
  obtain ⟨flag, put', _⟩ := echo_screen drew
  obtain ⟨rfl, rfl⟩ : t = mid.shownScreen ∧ true = flag := by
    simpa using put.symm.trans put'
  have context := echo_drawn drew
  have shown : mid.shownTermId = m.shownTermId := congrArg Context.shownTermId context
  have length : lineLength mid = lineLength m := by
    simp only [lineLength]
    rw [shown]
    exact congrArg Line.length (echo_lines drew m.shownTermId)
  obtain ⟨m', popped⟩ : ∃ m', mid.popInput = some m' := by
    simp only [popInput]
    exact ⟨_, if_pos (show lineLength mid ≤ maxTerminal by omega)⟩
  have pressed : pressKey m scBackspace = some m' := by
    rw [press_backspace, if_pos some', drew]
    exact popped
  obtain ⟨_, same, line⟩ := press_line (keyOf_backspace m) pressed
  refine ⟨m', pressed, ?_, ?_, same.trans current⟩
  · have inside : Apart m₀.shownScreen.vid m₀.shownScreen.offset reach :=
      apart.mono (by omega) (le_refl _)
    have line := pop_shows shows inside fills moved
    simp only [OnScreen]
    rw [popInput_shownScreen popped]
    exact line
  · rw [line]
    have applied : Key.backspace.apply (m.terms m.shownTermId).line = _ := if_pos some'
    rw [applied]
    rfl

/-- **As many backspaces** take back as many entries. -/
theorem pop_run (starts : LineStarts m₀) (near : reach < m₀.shownScreen.offset + pageCells) (n : Nat) :
    ∀ (m : Machine) (es : List Entry), OnScreen m₀ reach es m → lineLength m = n →
      n ≤ es.length → n ≤ maxTerminal → (es ≠ [] → ∃ p, m.getCurrentPcb = some p) →
      ∃ m', after pressKey m (List.replicate n scBackspace) = some m' ∧ lineLength m' = 0 ∧
        OnScreen m₀ reach (es.drop n) m' := by
  induction n with
  | zero =>
      intro m es shows length _ _ _
      exact ⟨m, rfl, length, shows⟩
  | succ n ih =>
      intro m es shows length enough short current
      cases es with
      | nil => exact absurd enough (by simp)
      | cons e earlier =>
          obtain ⟨p, current⟩ := current (List.cons_ne_nil e earlier)
          obtain ⟨mid, pressed, shows', less, current'⟩ :=
            pop_press starts shows near current (by omega) (by omega)
          obtain ⟨m', later, ended⟩ := ih mid earlier shows' (by omega) (by simpa using enough)
            (by omega) fun _ => ⟨p, current'⟩
          refine ⟨m', ?_, ended⟩
          rw [List.replicate_succ, after_cons, pressed]
          exact later

/-- **What is taken back**: everything, if the screen shows as many entries as
the buffer has bytes. -/
theorem takesBack_of_shows (starts : LineStarts m₀) {s : Reached} (shows : OnScreen m₀ s.2 es s.1)
    (near : s.2 < m₀.shownScreen.offset + pageCells) (enough : lineLength s.1 ≤ es.length)
    (short : lineLength s.1 ≤ maxTerminal) (current : es ≠ [] → ∃ p, s.1.getCurrentPcb = some p) :
    TakesBack m₀ s ↔ lineLength s.1 = es.length := by
  obtain ⟨m, popped, empty, shown⟩ := pop_run starts near _ s.1 es shows rfl enough short current
  constructor
  · rintro ⟨m', popped', _, back, _⟩
    obtain rfl := Option.some.inj (popped.symm.trans popped')
    have ended := shown.cursor.symm.trans back
    have none := (place_le_iff _).1 (congrArg Place.offset ended)
    have rest := List.length_drop (l := es) (i := lineLength s.1)
    rw [none] at rest
    simp only [List.length_nil] at rest
    omega
  · intro all
    rw [all, List.drop_length] at shown
    refine ⟨m, popped, empty, shown.cursor, fun i l above below there => ?_, fun l outside => ?_⟩
    · rw [← shownScreen_frames]
      exact shown.drawn i l above below there
    · rw [← shownScreen_frames, ← shownScreen_frames]
      exact shown.kept l outside

theorem typedEntry_char (typed : typedEntry m scancode = some e) :
    ∃ c, m.keyOf scancode = some (.char c) ∧ entryOf c = e := by
  simp only [typedEntry] at typed
  split at typed
  · rename_i c key
    exact ⟨c, key, Option.some.inj typed⟩
  · exact nomatch typed

/-- **An entry** is drawn, and kept if there is room. -/
theorem type_press (shows : OnScreen m₀ reach es m) (short : es.length ≤ maxTerminal)
    (near : reach ≤ m₀.shownScreen.offset + 4 * maxTerminal)
    (typed : typedEntry m scancode = some e) (still : ¬Scrolls m.shownScreen e)
    (pressed : pressKey m scancode = some m') :
    OnScreen m₀ (max reach m'.shownScreen.offset) (e :: es) m' ∧
      lineLength m' = (if lineLength m < maxTerminal then lineLength m + 1 else lineLength m) ∧
      ∃ p, m'.getCurrentPcb = some p := by
  obtain ⟨c, key, rfl⟩ := typedEntry_char typed
  obtain ⟨mid, drew, screen⟩ := press_char key pressed
  obtain ⟨flag, put, current⟩ := echo_screen drew
  rw [← screen] at put
  rw [← entryOf_byte c] at put
  obtain ⟨fills, moved, rfl⟩ := putc_entry (key_plain key) still put
  obtain ⟨_, same, line⟩ := press_line key pressed
  obtain ⟨p, current⟩ := current rfl
  rw [shows.cursor] at fills moved
  have offset : m'.shownScreen.offset = (place m₀.shownScreen.place (entryOf c :: es)).offset :=
    congrArg Place.offset moved
  refine ⟨?_, ?_, p, same.trans current⟩
  · have span := place_span m₀.shownScreen.place (entryOf c :: es)
    have start : m₀.shownScreen.place.offset = m₀.shownScreen.offset := rfl
    have pages : pageCells = 2048 := rfl
    have size : maxTerminal = 128 := rfl
    simp only [List.length_cons, Nat.cast_add, Nat.cast_one] at span
    rw [offset]
    exact push_shows shows (bus_apart _ (by omega)) fills moved
  · rw [line]
    simp only [Key.apply]
    by_cases room : lineLength m < maxTerminal
    · rw [if_pos (show (m.terms m.shownTermId).line.length < maxTerminal from room), if_pos room]
      rfl
    · rw [if_neg (show ¬(m.terms m.shownTermId).line.length < maxTerminal from room), if_neg room]
      rfl

theorem modifier_press (modifier : (m.modifierKey scancode).isSome = true) :
    ∃ m', pressKey m scancode = some m' ∧ m'.shownScreen = m.shownScreen ∧
      lineLength m' = lineLength m ∧ m'.getCurrentPcb = m.getCurrentPcb := by
  have switches : ¬(scF1 ≤ scancode ∧ scancode ≤ scF3) := by
    intro switches
    rw [modifierKey_switch switches] at modifier
    exact nomatch modifier
  obtain ⟨m', plain⟩ := Option.isSome_iff_exists.1 modifier
  have pressed : pressKey m scancode = some m' := by
    simp only [pressKey, keyboardHandler]
    rw [if_neg switches, typeKey, plain]
    rfl
  refine ⟨m', pressed, ?_⟩
  simp only [modifierKey] at plain
  split_ifs at plain
  all_goals
    obtain rfl := Option.some.inj plain
    exact ⟨rfl, rfl, rfl⟩

variable {s t : Reached}

theorem InStep.takesBack (starts : LineStarts m₀) (agree : InStep m₀ s es) : TakesBack m₀ s := by
  have kept := agree.kept
  have near := agree.near
  have short := agree.short
  have pages : pageCells = 2048 := rfl
  have size : maxTerminal = 128 := rfl
  exact (takesBack_of_shows starts agree.shows (by omega) (by omega) (by omega)
    agree.current).2 kept

/-- A key that draws nothing beyond the line reaches no further. -/
theorem reach_same (shows : OnScreen m₀ reach es m') : max reach m'.shownScreen.offset = reach := by
  rw [shows.offset]
  exact max_eq_left shows.reached

/-- The key goes through and leaves screen and buffer in step. -/
def StaysInStep (m₀ : Machine) (s : Reached) (scancode : Nat) : Prop :=
  ∃ t es, typeStep s scancode = some t ∧ InStep m₀ t es

theorem staysInStep (es : List Entry) (pressed : pressKey s.1 scancode = some m')
    (agree : InStep m₀ (m', max s.2 m'.shownScreen.offset) es) : StaysInStep m₀ s scancode :=
  ⟨_, es, Option.map_eq_some_iff.2 ⟨m', pressed, rfl⟩, agree⟩

theorem modifier_inStep (agree : InStep m₀ s es)
    (modifier : (s.1.modifierKey scancode).isSome = true) : StaysInStep m₀ s scancode := by
  obtain ⟨m', pressed, screen, length, current⟩ := modifier_press modifier
  have shows : OnScreen m₀ s.2 es m' := by
    simp only [OnScreen]
    rw [screen]
    exact agree.shows
  refine staysInStep es pressed ?_
  rw [reach_same shows]
  refine ⟨shows, length.trans agree.kept, agree.short, agree.near, ?_⟩
  rw [current]
  exact agree.current

theorem backspace_inStep (starts : LineStarts m₀) (agree : InStep m₀ s es) :
    StaysInStep m₀ s scBackspace := by
  have kept := agree.kept
  have near := agree.near
  have short := agree.short
  have pages : pageCells = 2048 := rfl
  have size : maxTerminal = 128 := rfl
  cases es with
  | nil =>
      have none : ¬0 < lineLength s.1 := by
        rw [kept]
        exact lt_irrefl 0
      refine staysInStep [] ((press_backspace s.1).trans (if_neg none)) ?_
      rw [reach_same agree.shows]
      exact agree
  | cons e earlier =>
      obtain ⟨p, current⟩ := agree.current (List.cons_ne_nil e earlier)
      simp only [List.length_cons] at kept short
      obtain ⟨m', pressed, shows, less, current'⟩ :=
        pop_press starts agree.shows (by omega) current (by omega) (by omega)
      refine staysInStep earlier pressed ?_
      rw [reach_same shows]
      refine ⟨shows, ?_, ?_, near, fun _ => ⟨p, current'⟩⟩
      · show lineLength m' = earlier.length
        omega
      · omega

theorem entry_inStep (agree : InStep m₀ s es) (typed : typedEntry s.1 scancode = some e)
    (drawn : (s.1.echo e.byte).isSome = true) (still : ¬Scrolls s.1.shownScreen e)
    (room : lineLength s.1 < maxTerminal) : StaysInStep m₀ s scancode := by
  have kept := agree.kept
  have near := agree.near
  obtain ⟨c, key, rfl⟩ := typedEntry_char typed
  rw [entryOf_byte] at drawn
  obtain ⟨m', pressed⟩ := press_some key drawn room
  obtain ⟨shows, length, current⟩ :=
    type_press agree.shows agree.short agree.near typed still pressed
  refine staysInStep (entryOf c :: es) pressed ?_
  have span := place_span m₀.shownScreen.place (entryOf c :: es)
  have start : m₀.shownScreen.place.offset = m₀.shownScreen.offset := rfl
  have offset := shows.offset
  simp only [List.length_cons, Nat.cast_add, Nat.cast_one] at span
  rw [if_pos room, kept] at length
  refine ⟨shows, length, ?_, ?_, fun _ => current⟩
  · rw [List.length_cons]
    omega
  · simp only
    omega

/-- With the buffer full, an entry that is drawn and not kept stays. -/
theorem entry_full (starts : LineStarts m₀) (agree : InStep m₀ s es)
    (typed : typedEntry s.1 scancode = some e) (still : ¬Scrolls s.1.shownScreen e)
    (full : lineLength s.1 = maxTerminal) (pressed : pressKey s.1 scancode = some m') :
    ¬TakesBack m₀ (m', max s.2 m'.shownScreen.offset) := by
  have kept := agree.kept
  have near := agree.near
  obtain ⟨shows, length, current⟩ :=
    type_press agree.shows agree.short agree.near typed still pressed
  have span := place_span m₀.shownScreen.place (e :: es)
  have start : m₀.shownScreen.place.offset = m₀.shownScreen.offset := rfl
  have pages : pageCells = 2048 := rfl
  have size : maxTerminal = 128 := rfl
  have offset := shows.offset
  simp only [List.length_cons, Nat.cast_add, Nat.cast_one] at span
  rw [if_neg (by omega)] at length
  have back := takesBack_of_shows (s := (m', max s.2 m'.shownScreen.offset)) starts shows
    (by simp only; omega) (by simp only [List.length_cons]; omega) (by simp only; omega)
    fun _ => current
  intro takes
  have all := back.1 takes
  simp only [List.length_cons] at all
  omega

/-- **One key with room.** It goes through and keeps screen and buffer in step. -/
theorem inStep_step (starts : LineStarts m₀) (agree : InStep m₀ s es) (types : Types s.1 scancode)
    (free : ¬TypesFull s.1 scancode) : StaysInStep m₀ s scancode := by
  rcases types with modifier | back | ⟨e, typed, drawn, still⟩
  · exact modifier_inStep agree modifier
  · obtain rfl := backspace_key back
    exact backspace_inStep starts agree
  · have bound : lineLength s.1 ≤ maxTerminal := agree.kept.trans_le agree.short
    have open' : lineLength s.1 ≠ maxTerminal := fun full => by
      refine free ⟨?_, full⟩
      rw [Option.mem_def.1 typed]
      rfl
    exact entry_inStep agree typed drawn still (lt_of_le_of_ne bound open')

/-- **One key without room.** A visible one stays on the screen; a tab is stored
behind the buffer. -/
theorem full_step (starts : LineStarts m₀) (agree : InStep m₀ s es) (types : Types s.1 scancode)
    (full : TypesFull s.1 scancode) (step : typeStep s scancode = some t) : ¬TakesBack m₀ t := by
  obtain ⟨m', pressed, rfl⟩ := Option.map_eq_some_iff.1 step
  have silent : typedEntry s.1 scancode ≠ none := Option.isSome_iff_ne_none.1 full.1
  rcases types with modifier | back | ⟨e, typed, _, still⟩
  · refine absurd ?_ silent
    simp only [typedEntry, keyOf]
    rw [if_pos (Or.inr modifier)]
  · refine absurd ?_ silent
    simp only [typedEntry]
    rw [back]
  · exact entry_full starts agree typed still full.2 pressed

end

theorem inStep_start {m₀ : Machine} (starts : LineStarts m₀) :
    InStep m₀ (m₀, m₀.shownScreen.offset) [] := by
  refine ⟨shows_start m₀.shownScreen, starts.empty, Nat.zero_le _, ?_, fun some' => ?_⟩
  · simp only
    omega
  · exact absurd rfl some'

/-- **Screen and buffer in step.** A run that types nothing with the buffer full
goes through, and they are where it ends. -/
theorem inStep_run {m₀ : Machine} (starts : LineStarts m₀) (run : List Nat) :
    ∀ (s : Reached), (∃ es, InStep m₀ s es) →
      Meets typeStep (fun s scancode => Types s.1 scancode ∧ ¬TypesFull s.1 scancode) s run →
        ∃ t es, after typeStep s run = some t ∧ InStep m₀ t es := by
  induction run with
  | nil =>
      rintro s ⟨es, agree⟩ _
      exact ⟨s, es, rfl, agree⟩
  | cons scancode rest ih =>
      rintro s ⟨es, agree⟩ ⟨⟨types, free⟩, typing⟩
      obtain ⟨mid, es', step, agree'⟩ := inStep_step starts agree types free
      obtain ⟨t, es'', later, ended⟩ := ih mid ⟨es', agree'⟩ (typing mid step)
      refine ⟨t, es'', ?_, ended⟩
      rw [after_cons, step]
      exact later

/-- **Screen and line buffer, exactly.** From the start of an input line, every key
of a run of modifiers, visible keys, tabs and backspaces that does not scroll goes
through, and after it backspaces until the buffer is empty take everything back, if
and only if no key is typed with the buffer full. -/
theorem takesBack_iff (m₀ : Machine) (starts : LineStarts m₀) (run : List Nat)
    (typing : Meets typeStep (fun s scancode => Types s.1 scancode)
      (m₀, m₀.shownScreen.offset) run) :
    Safe typeStep (fun _ _ t => TakesBack m₀ t) (m₀, m₀.shownScreen.offset) run ↔
      Meets typeStep (fun s scancode => ¬TypesFull s.1 scancode)
        (m₀, m₀.shownScreen.offset) run := by
  refine safe_iff_meets_of (fun s => ∃ es, InStep m₀ s es) ?_ ?_ run _ ?_ typing
  · rintro s scancode ⟨es, agree⟩ types
    constructor
    · rintro ⟨t, step, takes⟩ full
      exact full_step starts agree types full step takes
    · intro free
      obtain ⟨t, es', step, agree'⟩ := inStep_step starts agree types free
      exact ⟨t, step, agree'.takesBack starts⟩
  · rintro s scancode t ⟨es, agree⟩ types free step
    obtain ⟨t', es', step', agree'⟩ := inStep_step starts agree types free
    obtain rfl := Option.some.inj (step.symm.trans step')
    exact ⟨es', agree'⟩
  · exact ⟨[], inStep_start starts⟩

/-- The first shell has printed its prompt. -/
def prompted : Machine := (puts (text "391OS> ") (shells.entered 0x7FFF00)).getD shells

theorem prompted_starts : LineStarts prompted := by
  refine ⟨by decide +kernel, by decide +kernel, fun _ c loaded => ?_⟩
  have blank : Video.load prompted.shownScreen.vid (prompted.shownScreen.offset - 1) =
      some ⟨' '.toUInt8, attrib⟩ := by decide +kernel
  obtain rfl := Option.some.inj (blank.symm.trans loaded)
  decide

/-- A letter, two tabs, a tab taken back and another letter. -/
theorem prompted_takesBack :
    Safe typeStep (fun _ _ t => TakesBack prompted t) (prompted, prompted.shownScreen.offset)
        [0x1E, scTab, scTab, scBackspace, 0x1E] ↔
      Meets typeStep (fun s scancode => ¬TypesFull s.1 scancode)
        (prompted, prompted.shownScreen.offset) [0x1E, scTab, scTab, scBackspace, 0x1E] :=
  takesBack_iff prompted prompted_starts _ (by decide +kernel)

/-- Of 129 letters the first stays on the screen. -/
theorem fullLine_stays :
    Meets typeStep (fun s scancode => Types s.1 scancode) (prompted, prompted.shownScreen.offset)
        (List.replicate 128 0x1E ++ [0x1E]) ∧
      ¬Every typeStep (fun _ _ t => TakesBack prompted t) (prompted, prompted.shownScreen.offset)
        (List.replicate 128 0x1E ++ [0x1E]) := by
  have types : Meets typeStep (fun s scancode => Types s.1 scancode)
      (prompted, prompted.shownScreen.offset) (List.replicate 128 0x1E ++ [0x1E]) := by
    decide +kernel
  refine ⟨types, fun every => ?_⟩
  have filling : Meets typeStep (fun s scancode => Types s.1 scancode ∧ ¬TypesFull s.1 scancode)
      (prompted, prompted.shownScreen.offset) (List.replicate 128 0x1E) := by
    decide +kernel
  have state : ((after typeStep (prompted, prompted.shownScreen.offset)
      (List.replicate 128 0x1E)).bind fun s =>
        (typeStep s 0x1E).map fun _ => decide (TypesFull s.1 0x1E)) = some true := by
    decide +kernel
  obtain ⟨s, reached, state⟩ := Option.bind_eq_some_iff.1 state
  obtain ⟨t, step, full⟩ := Option.map_eq_some_iff.1 state
  obtain ⟨s', es, reached', agree⟩ := inStep_run prompted_starts _ _
    ⟨[], inStep_start prompted_starts⟩ filling
  obtain rfl := Option.some.inj (reached.symm.trans reached')
  have type := meets_at _ _ s types reached
  have takes := every_at _ _ s t every reached step
  exact full_step prompted_starts agree type (of_decide_eq_true full) step takes

end Illinix.Kernel
