/-
# Console.Putc -- the text console of lib.c

`putc`, `scroll` and the clearing loop of `clear`, over any memory that has
video cells.  The cell at index `i` is the pair of bytes at `video_mem + 2 * i`:
a character and its attribute.  What lies behind an index (which page, which
physical frame, or nothing at all) is the business of the `Video` instance, so
the same code runs on a bounded window here and on the paged kernel memory of
`Kernel`.  An access the memory refuses makes the whole call `none`.

`screen_x` and `screen_y` are `int` in the source and `Int` here; `offset` is
`uint32_t`, and its only use below zero, `NUM_COLS * 0 + 0 - 1`, addresses
`video_mem - 2` on the machine as index `-1` does here.
-/
import Mathlib.Data.Int.Notation
import Mathlib.Data.Option.Basic

namespace Illinix.Console

set_option autoImplicit false

def numCols : Int := 80
def numRows : Int := 25
def attrib : UInt8 := 0x7
def tab : UInt8 := 0xF

/-- One character cell of text mode. -/
structure Cell where
  ch : UInt8
  attr : UInt8
  deriving DecidableEq, Repr

/-- Memory with video cells, addressed relative to `video_mem`. -/
class Video (M : Type) where
  load : M → Int → Option Cell
  store : M → Int → Cell → Option M

/-- The cursor pair of lib.c and the memory the console draws in. -/
structure Screen (M : Type) where
  vid : M
  screenX : Int
  screenY : Int

section

variable {M : Type} [Video M]

/-- The first loop of `scroll`: move `n` cells up one row, from index `i` on. -/
def moveRows : Nat → Int → M → Option M
  | 0, _, m => some m
  | n + 1, i, m => do
      let cell ← Video.load m (i + numCols)
      let m ← Video.store m i cell
      moveRows n (i + 1) m

/-- Store one cell `n` times, from index `i` on. -/
def fillCells (cell : Cell) : Nat → Int → M → Option M
  | 0, _, m => some m
  | n + 1, i, m => do
      let m ← Video.store m i cell
      fillCells cell n (i + 1) m

def scroll (s : Screen M) : Option (Screen M) := do
  let m ← moveRows (24 * 80) 0 s.vid
  let m ← fillCells ⟨0, attrib⟩ 80 (24 * 80) m
  some { s with vid := m, screenY := s.screenY - 1 }

/-- `++screen_y`, then `scroll` when the cursor has passed the bottom row. -/
def nextRow (s : Screen M) : Option (Screen M) :=
  let s := { s with screenX := 0, screenY := s.screenY + 1 }
  if s.screenY = numRows then scroll s else some s

/-- The cell index of the cursor. -/
def Screen.offset (s : Screen M) : Int := numCols * s.screenY + s.screenX

/-- One step left of the cursor, wrapping to the row above; `none` at the upper
left corner. -/
def Screen.retreat (s : Screen M) : Option (Screen M) :=
  if s.screenX ≠ 0 then some { s with screenX := s.screenX - 1 }
  else if s.screenY ≠ 0 then some { s with screenX := numCols - 1, screenY := s.screenY - 1 }
  else none

/-- The `do … while` of backspace, with `n` rounds left.  The flag is `false`
when the loop returned from `putc` at the upper left corner. -/
def eraseCells : Nat → Int → Screen M → Option (Screen M × Bool)
  | 0, _, s => some (s, true)
  | n + 1, offset, s =>
      match s.retreat with
      | none => some (s, false)
      | some s => do
          let m ← Video.store s.vid offset ⟨0, attrib⟩
          let s := { s with vid := m }
          if n = 0 then some (s, true)
          else do
            let cell ← Video.load m (offset - 1)
            if cell.attr = tab then eraseCells n (offset - 1) s else some (s, true)

/-- The loop of the tab case: `n` cells of tab filler, no new line. -/
def fillTab : Nat → Int → Screen M → Option (Screen M)
  | 0, _, s => some s
  | n + 1, offset, s => do
      let m ← Video.store s.vid offset ⟨' '.toUInt8, tab⟩
      fillTab n (offset + 1) { s with vid := m, screenX := s.screenX + 1 }

def backspace (s : Screen M) : Option (Screen M × Bool) := do
  let cell ← Video.load s.vid (s.offset - 1)
  eraseCells (if cell.attr = tab then 4 else 1) (s.offset - 1) s

def putTab (s : Screen M) : Option (Screen M) :=
  fillTab (4 - s.offset % 4).toNat s.offset s

def putVisible (c : UInt8) (s : Screen M) : Option (Screen M) := do
  let m ← Video.store s.vid s.offset ⟨c, attrib⟩
  let s := { s with vid := m, screenX := s.screenX + 1 }
  if s.screenX = numCols then nextRow s else some s

/-- `putc` up to the cursor update at its end.  The flag says whether control
reaches that update. -/
def putc (c : UInt8) (s : Screen M) : Option (Screen M × Bool) :=
  if c = '\n'.toUInt8 ∨ c = '\r'.toUInt8 then (nextRow s).map (·, true)
  else if c = 0x08 then backspace s
  else if c = '\t'.toUInt8 then (putTab s).map (·, true)
  else (putVisible c s).map (·, true)

/-- The loop of `clear`: every cell of the screen becomes a blank. -/
def clearCells (m : M) : Option M :=
  fillCells ⟨' '.toUInt8, attrib⟩ (25 * 80) 0 m

/-- `clear` on the terminal that is both shown and active. -/
def clear (s : Screen M) : Option (Screen M) :=
  (clearCells s.vid).map fun m => { vid := m, screenX := 0, screenY := 0 }

end

/-! ## A bounded window -/

/-- Video memory of `n` cells: an access outside `[0, n)` is refused. -/
structure Window (n : Int) where
  cell : Int → Cell

namespace Window

variable {n : Int}

def set (w : Window n) (i : Int) (c : Cell) : Window n :=
  ⟨fun j => if j = i then c else w.cell j⟩

instance : Video (Window n) where
  load w i := if 0 ≤ i ∧ i < n then some (w.cell i) else none
  store w i c := if 0 ≤ i ∧ i < n then some (w.set i c) else none

theorem load_of_mem (w : Window n) {i : Int} (low : 0 ≤ i) (high : i < n) :
    Video.load w i = some (w.cell i) := if_pos ⟨low, high⟩

theorem store_of_mem (w : Window n) (c : Cell) {i : Int} (low : 0 ≤ i) (high : i < n) :
    Video.store w i c = some (w.set i c) := if_pos ⟨low, high⟩

theorem load_eq_none (w : Window n) {i : Int} (outside : ¬(0 ≤ i ∧ i < n)) :
    Video.load w i = none := if_neg outside

theorem store_eq_none (w : Window n) (c : Cell) {i : Int} (outside : ¬(0 ≤ i ∧ i < n)) :
    Video.store w i c = none := if_neg outside

@[simp] theorem set_cell (w : Window n) (i j : Int) (c : Cell) :
    (w.set i c).cell j = if j = i then c else w.cell j := rfl

end Window

end Illinix.Console
