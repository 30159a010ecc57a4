/-
# Console.Layout -- the display as the bottom of an unbounded page

What a text looks like is simple on paper without an end: a character goes where
the cursor is, and the next one beside it; after column 79, and at a new line, the
cursor goes to the start of the next row.  `Sheet` is such paper.  The display
shows the last 25 rows of it: `layout_run`, by one step for each byte, in which a
`scroll` is the sheet's window moving down one row.
-/
import Illinix.Console.Bounds

namespace Illinix.Console

open Illinix.Theory

set_option autoImplicit false

/-! ## The page -/

/-- A page of unbounded height: the character last written at each row and column,
and the cursor. -/
structure Sheet where
  cell : Nat → Nat → Option UInt8
  x : Nat
  y : Nat

def Sheet.blank : Sheet := ⟨fun _ _ => none, 0, 0⟩

/-- A character at a place. -/
def Sheet.put (p : Sheet) (c : UInt8) (row col : Nat) : Option UInt8 :=
  if row = p.y ∧ col = p.x then some c else p.cell row col

/-- Write one byte. -/
def Sheet.write (p : Sheet) (c : UInt8) : Sheet :=
  if c = '\n'.toUInt8 ∨ c = '\r'.toUInt8 then ⟨p.cell, 0, p.y + 1⟩
  else if p.x + 1 = 80 then ⟨p.put c, 0, p.y + 1⟩
  else ⟨p.put c, p.x + 1, p.y⟩

/-- Write a text on an empty page. -/
def typeset (text : List UInt8) : Sheet := text.foldl Sheet.write Sheet.blank

/-- The first of the last 25 rows. -/
def Sheet.top (p : Sheet) : Nat := p.y - 24

/-! ## The display -/

/-- The character shown: a cell never written may hold 0 or a space. -/
def Shows (cell : Cell) (written : Option UInt8) : Prop :=
  cell.attr = attrib ∧ match written with
    | some c => cell.ch = c
    | none => cell.ch = 0 ∨ cell.ch = ' '.toUInt8

/-- The 25 rows of the window show these cells from row `top` on. -/
def ShowsRows (w : Window 2000) (cell : Nat → Nat → Option UInt8) (top : Nat) : Prop :=
  ∀ row col : Nat, row < 25 → col < 80 → Shows (w.cell (80 * row + col)) (cell (top + row) col)

/-- The display equals the bottom of the page, and so does the cursor. -/
structure ShowsBottom (s : Screen (Window 2000)) (p : Sheet) : Prop where
  rows : ShowsRows s.vid p.cell p.top
  screenX : s.screenX = p.x
  screenY : s.screenY = p.y - p.top

/-- Nothing is written below the cursor's row, and the cursor is in a column. -/
structure Sheet.Fresh (p : Sheet) : Prop where
  below : ∀ row col, p.y < row → p.cell row col = none
  column : p.x < 80

section

variable {s : Screen (Window 2000)} {p : Sheet} {c : UInt8}

theorem Sheet.Fresh.write (fresh : p.Fresh) (c : UInt8) : (p.write c).Fresh := by
  have column := fresh.column
  have put (row col : Nat) (low : p.y < row) : p.put c row col = none := by
    rw [Sheet.put, if_neg (by omega), fresh.below row col low]
  unfold Sheet.write
  split_ifs with newline full
  · exact ⟨fun row col low => fresh.below row col (by simp only at low; omega), by simp⟩
  · exact ⟨fun row col low => put row col (by simp only at low; omega), by simp⟩
  · exact ⟨fun row col low => put row col low, by simp only; omega⟩

/-- A scroll moves the window down one row, on to a row without characters. -/
theorem ShowsRows.scrolled {w : Window 2000} {cell : Nat → Nat → Option UInt8} {top : Nat}
    (shows : ShowsRows w cell top) (empty : ∀ col, cell (top + 25) col = none) :
    ShowsRows (Console.scrolled w) cell (top + 1) := by
  intro row col low small
  simp only [Console.scrolled]
  rcases Nat.lt_or_ge row 24 with above | last
  · have moved := shows (row + 1) col (by omega) small
    rw [if_pos (by omega), show (80 * (row : Int) + col + 80) = 80 * ((row + 1 : Nat) : Int) + col by omega,
      show top + 1 + row = top + (row + 1) by omega]
    exact moved
  · obtain rfl : row = 24 := by omega
    rw [if_neg (by omega), if_pos (by omega), show top + 1 + 24 = top + 25 by omega, empty col]
    exact ⟨rfl, Or.inl rfl⟩

/-- To the start of the next row, with or without a scroll. -/
theorem nextRow_shows {cell : Nat → Nat → Option UInt8} {y : Nat}
    (shows : ShowsRows s.vid cell (y - 24)) (row : s.screenY = y - (y - 24 : Nat))
    (empty : ∀ row col, y < row → cell row col = none) :
    ∃ t, nextRow s = some t ∧ ShowsBottom t ⟨cell, 0, y + 1⟩ := by
  unfold nextRow
  dsimp only
  by_cases bottom : s.screenY + 1 = numRows
  · have high : 24 ≤ y := by
      simp only [numRows] at bottom
      omega
    rw [if_pos bottom, scroll_eq _ (le_refl _)]
    refine ⟨_, rfl, ?_, rfl, ?_⟩
    · have moved := shows.scrolled fun col => empty (y - 24 + 25) col (by omega)
      rwa [show y - 24 + 1 = y + 1 - 24 by omega] at moved
    · simp only [Sheet.top]
      omega
  · have low : y < 24 := by
      simp only [numRows] at bottom
      omega
    rw [if_neg bottom]
    refine ⟨_, rfl, ?_, rfl, ?_⟩
    · rwa [show y - 24 = y + 1 - 24 by omega] at shows
    · simp only [Sheet.top]
      omega

/-- A character at the cursor, on the display and on the page. -/
theorem ShowsBottom.set (shows : ShowsBottom s p) (fresh : p.Fresh) (c : UInt8) :
    ShowsRows (s.vid.set s.offset ⟨c, attrib⟩) (p.put c) p.top := by
  have column := fresh.column
  intro row col low small
  have here : (80 * (row : Int) + col = s.offset) ↔ (p.top + row = p.y ∧ col = p.x) := by
    simp only [Screen.offset, numCols, shows.screenX, shows.screenY]
    simp only [Sheet.top]
    omega
  simp only [Window.set_cell, Sheet.put, here]
  split_ifs with same
  · exact ⟨rfl, rfl⟩
  · exact shows.rows row col low small

/-- A visible character. -/
theorem putVisible_shows (shows : ShowsBottom s p) (fresh : p.Fresh) (c : UInt8) :
    ∃ t, putVisible c s = some t ∧ ShowsBottom t
      (if p.x + 1 = 80 then ⟨p.put c, 0, p.y + 1⟩ else ⟨p.put c, p.x + 1, p.y⟩) := by
  have column := fresh.column
  have x := shows.screenX
  have y := shows.screenY
  have set := shows.set fresh c
  have inside : 0 ≤ s.offset ∧ s.offset < 2000 := by
    simp only [Screen.offset, numCols, x, y]
    simp only [Sheet.top]
    omega
  have full : s.screenX + 1 = numCols ↔ p.x + 1 = 80 := by
    simp only [numCols]
    omega
  simp only [putVisible, s.vid.store_of_mem _ inside.1 inside.2, Option.bind_eq_bind,
    Option.bind_some, full]
  split_ifs
  · refine nextRow_shows set y fun row col low => ?_
    rw [Sheet.put, if_neg (by omega), fresh.below row col low]
  · exact ⟨_, rfl, set, by simp [x], y⟩

/-- **One byte.** -/
theorem putcStep_shows (shows : ShowsBottom s p) (fresh : p.Fresh) (back : c ≠ 0x08)
    (filler : c ≠ '\t'.toUInt8) : ∃ t, putcStep s c = some t ∧ ShowsBottom t (p.write c) := by
  simp only [putcStep, putc, Sheet.write, if_neg back, if_neg filler]
  by_cases newline : c = '\n'.toUInt8 ∨ c = '\r'.toUInt8
  · obtain ⟨t, next, after⟩ := nextRow_shows shows.rows shows.screenY fresh.below
    exact ⟨t, by simp [newline, next], by rwa [if_pos newline]⟩
  · obtain ⟨t, put, after⟩ := putVisible_shows shows fresh c
    exact ⟨t, by simp [newline, put], by rwa [if_neg newline]⟩

/-- **Any text.** -/
theorem layout_run (text : List UInt8) : ∀ (s : Screen (Window 2000)) (p : Sheet),
    ShowsBottom s p → p.Fresh → (∀ c ∈ text, c ≠ 0x08 ∧ c ≠ '\t'.toUInt8) →
    ∃ t, after putcStep s text = some t ∧ ShowsBottom t (text.foldl Sheet.write p) := by
  induction text with
  | nil => exact fun s p shows _ _ => ⟨s, rfl, shows⟩
  | cons c text ih =>
      intro s p shows fresh plain
      have first := plain c List.mem_cons_self
      obtain ⟨mid, step, shows'⟩ := putcStep_shows shows fresh first.1 first.2
      obtain ⟨t, later, last⟩ := ih mid (p.write c) shows' (fresh.write c) fun d mem =>
        plain d (List.mem_cons_of_mem c mem)
      exact ⟨t, by rw [after_cons, step, Option.bind_some, later], last⟩

/-- A cleared display is the top of an empty page. -/
theorem clear_shows (s : Screen (Window 2000)) :
    ∃ t, clear s = some t ∧ ShowsBottom t Sheet.blank := by
  have blank := fillCells_eq ⟨' '.toUInt8, attrib⟩ (25 * 80) 0 s.vid (le_refl 0) (by omega)
  refine ⟨_, by rw [clear, clearCells, blank, Option.map_some], ?_, rfl, rfl⟩
  intro row col low small
  simp only
  rw [if_pos (by omega)]
  exact ⟨rfl, Or.inr rfl⟩

end

/-- **Text layout.**  After `clear`, the display and the cursor are the last 25 rows
of the text on an unbounded page, for every text without tabs and backspaces. -/
theorem putc_layout (s : Screen (Window 2000)) (text : List UInt8)
    (plain : ∀ c ∈ text, c ≠ 0x08 ∧ c ≠ '\t'.toUInt8) :
    ∃ cleared t, clear s = some cleared ∧ after putcStep cleared text = some t ∧
      ShowsBottom t (typeset text) := by
  obtain ⟨cleared, done, shows⟩ := clear_shows s
  obtain ⟨t, ran, last⟩ := layout_run text cleared Sheet.blank shows
    ⟨fun _ _ _ => rfl, by decide⟩ plain
  exact ⟨cleared, t, done, ran, last⟩

/-- 26 lines of one character: the first has scrolled away. -/
theorem layout_lines : ∃ cleared t,
    clear (⟨⟨fun _ => ⟨0, 0⟩⟩, 0, 0⟩ : Screen (Window 2000)) = some cleared ∧
      after putcStep cleared ((List.replicate 25 [97, 10]).flatten ++ [98]) = some t ∧
      ShowsBottom t (typeset ((List.replicate 25 [97, 10]).flatten ++ [98])) :=
  putc_layout _ _ (by decide +kernel)

end Illinix.Console
