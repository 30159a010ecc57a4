/-
# Console.Bounds -- where putc leaves the cursor and which cells it touches

On a window of the 80 * 25 cells of the display, `putc` is defined exactly when
every cell it reads or writes is a cell of the display.  `putc_step` gives the
exact condition for one byte from a state of the invariant `Tidy`, and
`bounded_iff` carries it over every byte string from a cleared screen.

Two bytes leave the bounds.  A tab in the last tab stop of a row steps
`screen_x` to `NUM_COLS`, which no test catches; a backspace at the upper left
corner reads the attribute of the cell before the first one.

`Tidy` is what makes every other backspace safe: tab filler reaches the end of
its group of four cells, and none of it is at or after the cursor, so the erase
loop stops at a group boundary before it can run below cell 0.
-/
import Illinix.Theory.Run
import Illinix.Console.Putc
import Mathlib.Tactic.Ring

namespace Illinix.Console

open Illinix.Theory

set_option autoImplicit false

/-! ## The loops of putc on a window -/

section

variable {n : Int}

@[ext] theorem Window.ext {w v : Window n} (same : ∀ j, w.cell j = v.cell j) : w = v := by
  cases w; cases v
  simpa using funext same

theorem moveRows_eq (k : Nat) : ∀ (i : Int) (w : Window n), 0 ≤ i → i + k + numCols ≤ n →
    moveRows k i w =
      some ⟨fun j => if i ≤ j ∧ j < i + k then w.cell (j + numCols) else w.cell j⟩ := by
  induction k with
  | zero =>
      intro i w _ _
      simp only [moveRows, Option.some.injEq]
      ext j
      dsimp only
      rw [if_neg (by omega)]
  | succ k ih =>
      intro i w low high
      simp only [numCols, Nat.cast_add, Nat.cast_one] at high ih ⊢
      have load : Video.load w (i + numCols) = some (w.cell (i + numCols)) :=
        w.load_of_mem (by simp only [numCols]; omega) (by simp only [numCols]; omega)
      simp only [moveRows, load, Option.bind_eq_bind, Option.bind_some,
        w.store_of_mem (w.cell (i + numCols)) low (show i < n by omega),
        ih (i + 1) _ (show 0 ≤ i + 1 by omega) (show i + 1 + k + 80 ≤ n by omega), Option.some.injEq]
      ext j
      simp only [Window.set_cell, numCols]
      split_ifs <;> first | omega | rfl | (congr 1; omega)

theorem fillCells_eq (cell : Cell) (k : Nat) : ∀ (i : Int) (w : Window n), 0 ≤ i → i + k ≤ n →
    fillCells cell k i w = some ⟨fun j => if i ≤ j ∧ j < i + k then cell else w.cell j⟩ := by
  induction k with
  | zero =>
      intro i w _ _
      simp only [fillCells, Option.some.injEq]
      ext j
      dsimp only
      rw [if_neg (by omega)]
  | succ k ih =>
      intro i w low high
      simp only [Nat.cast_add, Nat.cast_one] at high ⊢
      simp only [fillCells, Option.bind_eq_bind, Option.bind_some,
        w.store_of_mem cell low (show i < n by omega),
        ih (i + 1) _ (by omega) (by omega), Option.some.injEq]
      ext j
      simp only [Window.set_cell]
      split_ifs <;> first | omega | rfl

/-- The screen after `scroll`: every row one up, the bottom row blank. -/
def scrolled (w : Window n) : Window n :=
  ⟨fun j => if 0 ≤ j ∧ j < 1920 then w.cell (j + 80)
    else if 1920 ≤ j ∧ j < 2000 then ⟨0, attrib⟩ else w.cell j⟩

theorem scroll_eq (s : Screen (Window n)) (room : 2000 ≤ n) :
    scroll s = some { vid := scrolled s.vid, screenX := s.screenX, screenY := s.screenY - 1 } := by
  simp only [scroll, moveRows_eq (24 * 80) 0 s.vid (le_refl 0) (by simp only [numCols]; omega),
    Option.bind_eq_bind, Option.bind_some,
    fillCells_eq ⟨0, attrib⟩ 80 (24 * 80) _ (by omega) (show (24 * 80 : Int) + (80 : Nat) ≤ n by omega),
    Option.some.injEq, Screen.mk.injEq, and_true]
  ext j
  simp only [scrolled, numCols]
  split_ifs <;> first | omega | rfl

/-- The screen after cells `[low, high)` were overwritten with `cell`. -/
def filled (w : Window n) (low high : Int) (cell : Cell) : Window n :=
  ⟨fun j => if low ≤ j ∧ j < high then cell else w.cell j⟩

theorem fillTab_eq (k : Nat) : ∀ (i : Int) (s : Screen (Window n)), 0 ≤ i → i + k ≤ n →
    fillTab k i s = some { s with
      vid := filled s.vid i (i + k) ⟨' '.toUInt8, tab⟩, screenX := s.screenX + k } := by
  induction k with
  | zero =>
      intro i s _ _
      simp only [fillTab, filled, Nat.cast_zero, add_zero, Option.some.injEq]
      have same : (⟨fun j => if i ≤ j ∧ j < i then ⟨' '.toUInt8, tab⟩ else s.vid.cell j⟩ :
          Window n) = s.vid := by
        ext j
        dsimp only
        rw [if_neg (by omega)]
      rw [same]
  | succ k ih =>
      intro i s low high
      simp only [Nat.cast_add, Nat.cast_one] at high ⊢
      simp only [fillTab, Option.bind_eq_bind, Option.bind_some,
        s.vid.store_of_mem ⟨' '.toUInt8, tab⟩ low (show i < n by omega),
        ih (i + 1) _ (show 0 ≤ i + 1 by omega) (show i + 1 + k ≤ n by omega), Option.some.injEq,
        Screen.mk.injEq, and_true]
      refine ⟨?_, by ring⟩
      ext j
      simp only [filled, Window.set_cell]
      split_ifs <;> first | omega | rfl

theorem retreat_offset {s t : Screen (Window n)} (moved : s.retreat = some t) :
    t.offset = s.offset - 1 ∧ t.vid = s.vid := by
  simp only [Screen.retreat] at moved
  split_ifs at moved <;> obtain rfl := Option.some.inj moved <;>
    simp only [Screen.offset, numCols, and_true] <;> omega

theorem retreat_of_offset_pos {s : Screen (Window n)} (pos : 0 < s.offset) :
    ∃ t, s.retreat = some t := by
  simp only [Screen.retreat]
  simp only [Screen.offset, numCols] at pos
  split_ifs with x y
  · exact ⟨_, rfl⟩
  · exact ⟨_, rfl⟩
  · omega

end

/-- The cursor is on the display. -/
def InBounds {M : Type} (s : Screen M) : Prop :=
  0 ≤ s.screenX ∧ s.screenX < numCols ∧ 0 ≤ s.screenY ∧ s.screenY < numRows

section

variable {n : Int}

theorem retreat_inBounds {s t : Screen (Window n)} (moved : s.retreat = some t)
    (bounds : InBounds s) : InBounds t := by
  simp only [Screen.retreat] at moved
  simp only [InBounds, numCols, numRows] at bounds ⊢
  split_ifs at moved <;> obtain rfl := Option.some.inj moved <;>
    simp only [numCols] <;> omega

/-- What one backspace did: `erased` cells before the cursor are gone, and the
cursor stands on the first of them. -/
structure Erased (s t : Screen (Window n)) (erased : Int) : Prop where
  some_erased : 1 ≤ erased
  offset : t.offset = s.offset - erased
  offset_nonneg : 0 ≤ t.offset
  vid : t.vid = filled s.vid t.offset s.offset ⟨0, attrib⟩
  filler : ∀ j, t.offset ≤ j → j < s.offset - 1 → (s.vid.cell j).attr = tab
  inBounds : InBounds s → InBounds t

/-- One round of the erase loop away from the upper left corner. -/
theorem eraseCells_succ (k : Nat) {i : Int} {s : Screen (Window n)} (offset : s.offset = i + 1)
    (low : 0 ≤ i) (high : i < n) :
    ∃ t : Screen (Window n), t.offset = i ∧ t.vid = s.vid.set i ⟨0, attrib⟩ ∧
      (InBounds s → InBounds t) ∧
      eraseCells (k + 1) i s =
        if k = 0 then some (t, true)
        else (Video.load t.vid (i - 1)).bind fun cell =>
          if cell.attr = tab then eraseCells k (i - 1) t else some (t, true) := by
  obtain ⟨t, moved⟩ := retreat_of_offset_pos (show 0 < s.offset by omega)
  obtain ⟨toffset, tvid⟩ := retreat_offset moved
  refine ⟨{ t with vid := t.vid.set i ⟨0, attrib⟩ }, ?_, ?_, ?_, ?_⟩
  · change t.offset = i
    omega
  · rw [tvid]
  · exact fun bounds => (retreat_inBounds moved bounds : InBounds t)
  · simp only [eraseCells, moved, t.vid.store_of_mem ⟨0, attrib⟩ low high, Option.bind_eq_bind,
      Option.bind_some]

/-- The erase loop, by induction on the rounds left: it stops after the last
round, or at the first cell that is not tab filler. -/
theorem eraseCells_eq (k : Nat) : ∀ (i : Int) (s : Screen (Window n)), s.offset = i + 1 →
    0 ≤ i → i < n → (k ≤ i ∨ ∃ j, 0 ≤ j ∧ j < i ∧ (s.vid.cell j).attr ≠ tab) →
    ∃ t erased, eraseCells (k + 1) i s = some (t, true) ∧ Erased s t erased ∧
      (erased = k + 1 ∨ (erased ≤ k ∧ (s.vid.cell (t.offset - 1)).attr ≠ tab)) := by
  induction k with
  | zero =>
      intro i s offset low high _
      obtain ⟨t, toffset, tvid, bounds, run⟩ := eraseCells_succ 0 offset low high
      refine ⟨t, 1, by simpa using run, ⟨le_refl 1, by omega, by omega, ?_, ?_, bounds⟩, Or.inl (by simp)⟩
      · ext j
        simp only [tvid, Window.set_cell, filled]
        split_ifs <;> first | omega | rfl
      · intro j after before
        omega
  | succ k ih =>
      intro i s offset low high room
      obtain ⟨t, toffset, tvid, bounds, run⟩ := eraseCells_succ (k + 1) offset low high
      have below : 1 ≤ i := by
        rcases room with room | ⟨j, nonneg, before, _⟩ <;> push_cast at * <;> omega
      have unchanged : ∀ j, j ≠ i → t.vid.cell j = s.vid.cell j := by
        intro j ne
        simp only [tvid, Window.set_cell, if_neg ne]
      simp only [Nat.add_eq_zero_iff, one_ne_zero, and_false, if_false,
        t.vid.load_of_mem (show 0 ≤ i - 1 by omega) (show i - 1 < n by omega), Option.bind_some,
        unchanged (i - 1) (by omega)] at run
      by_cases filler : (s.vid.cell (i - 1)).attr = tab
      · obtain ⟨u, erased, rest, spec, stop⟩ := ih (i - 1) t (by omega) (by omega) (by omega) (by
          rcases room with room | ⟨j, nonneg, before, other⟩
          · left; push_cast at room; omega
          · right
            have ne : j ≠ i - 1 := fun e => other (e ▸ filler)
            exact ⟨j, nonneg, by omega, by rwa [unchanged j (by omega)]⟩)
        have uoffset := spec.offset
        have upos := spec.some_erased
        refine ⟨u, erased + 1, by rw [run, if_pos filler, rest],
          ⟨by omega, by omega, spec.offset_nonneg, ?_, ?_, fun b => spec.inBounds (bounds b)⟩, ?_⟩
        · rw [spec.vid]
          ext j
          simp only [filled, toffset, tvid, Window.set_cell]
          split_ifs <;> first | omega | rfl
        · intro j after before
          by_cases last : j = i - 1
          · exact last ▸ filler
          · rw [← unchanged j (by omega)]
            exact spec.filler j after (by omega)
        · rcases stop with stop | ⟨early, other⟩
          · left; push_cast; omega
          · right
            refine ⟨by push_cast; omega, ?_⟩
            rwa [unchanged _ (by omega)] at other
      · refine ⟨t, 1, by rw [run, if_neg filler],
          ⟨le_refl 1, by omega, by omega, ?_, ?_, bounds⟩, Or.inr ⟨by push_cast; omega, ?_⟩⟩
        · ext j
          simp only [tvid, Window.set_cell, filled]
          split_ifs <;> first | omega | rfl
        · intro j after before
          omega
        · rwa [toffset]

/-- **Backspace.** Away from the upper left corner it is defined unless the tab
filler it erases runs down to cell 0 in fewer than four cells. -/
theorem backspace_eq (s : Screen (Window n)) (low : 1 ≤ s.offset) (high : s.offset ≤ n)
    (stops : s.offset < 4 → ∃ j, 0 ≤ j ∧ j < s.offset ∧ (s.vid.cell j).attr ≠ tab) :
    ∃ t erased, backspace s = some (t, true) ∧ Erased s t erased ∧
      ((s.vid.cell (s.offset - 1)).attr = tab →
        erased = 4 ∨ (s.vid.cell (t.offset - 1)).attr ≠ tab) ∧
      ((s.vid.cell (s.offset - 1)).attr ≠ tab → erased = 1) := by
  have load := s.vid.load_of_mem (show 0 ≤ s.offset - 1 by omega) (show s.offset - 1 < n by omega)
  by_cases filler : (s.vid.cell (s.offset - 1)).attr = tab
  · obtain ⟨t, erased, run, spec, stop⟩ := eraseCells_eq 3 (s.offset - 1) s (by omega) (by omega)
      (by omega) (by
        by_cases near : s.offset < 4
        · obtain ⟨j, nonneg, before, other⟩ := stops near
          have ne : j ≠ s.offset - 1 := fun e => other (e ▸ filler)
          exact Or.inr ⟨j, nonneg, by omega, other⟩
        · left; push_cast; omega)
    refine ⟨t, erased, ?_, spec, fun _ => ?_, fun other => absurd filler other⟩
    · simpa only [backspace, load, Option.bind_eq_bind, Option.bind_some, filler, if_true] using run
    · exact stop.imp (fun all => by push_cast at all; omega) And.right
  · obtain ⟨t, erased, run, spec, stop⟩ := eraseCells_eq 0 (s.offset - 1) s (by omega) (by omega)
      (by omega) (Or.inl (by push_cast; omega))
    refine ⟨t, erased, ?_, spec, fun other => absurd other filler, fun _ => ?_⟩
    · simpa only [backspace, load, Option.bind_eq_bind, Option.bind_some, filler, if_false] using run
    · have some_erased := spec.some_erased
      rcases stop with all | early
      · push_cast at all; omega
      · have := early.1; push_cast at this; omega

end

/-! ## The invariant of a display -/

/-- The display and its cursor between two bytes. -/
structure Tidy (s : Screen (Window 2000)) : Prop where
  bounds : InBounds s
  ahead : ∀ j, s.offset ≤ j → j < 2000 → (s.vid.cell j).attr ≠ tab
  closed : ∀ i j, 0 ≤ i → i ≤ j → j < 2000 → j / 4 = i / 4 → (s.vid.cell i).attr = tab →
    (s.vid.cell j).attr = tab

/-- The bytes that keep the cursor on the display, given where it stands. -/
def Harmless (s : Screen (Window 2000)) (c : UInt8) : Prop :=
  (c = 0x08 → ¬(s.screenX = 0 ∧ s.screenY = 0)) ∧ (c = '\t'.toUInt8 → s.screenX < numCols - 4)

/-- `putc` as a step: the state after one byte. -/
def putcStep (s : Screen (Window 2000)) (c : UInt8) : Option (Screen (Window 2000)) :=
  (putc c s).map Prod.fst

theorem InBounds.offset {M : Type} {s : Screen M} (bounds : InBounds s) :
    0 ≤ s.offset ∧ s.offset < 2000 ∧ s.offset / 80 = s.screenY ∧ s.offset % 80 = s.screenX := by
  simp only [InBounds, numCols, numRows] at bounds
  simp only [Screen.offset, numCols]
  omega

theorem Tidy.scrolled (s : Screen (Window 2000)) (x : s.screenX = 0) (y : s.screenY = 25)
    (closed : ∀ i j, 0 ≤ i → i ≤ j → j < 2000 → j / 4 = i / 4 → (s.vid.cell i).attr = tab →
      (s.vid.cell j).attr = tab) :
    Tidy { vid := Console.scrolled s.vid, screenX := s.screenX, screenY := s.screenY - 1 } := by
  refine ⟨?_, ?_, ?_⟩
  · simp only [InBounds, numCols, numRows]
    omega
  · intro j after before
    simp only [Screen.offset, numCols] at after
    simp only [Console.scrolled]
    rw [if_neg (by omega), if_pos (by omega)]
    decide
  · intro i j nonneg le below group filler
    simp only [Console.scrolled] at filler ⊢
    split_ifs at filler with top bottom
    · rw [if_pos (by omega)]
      exact closed (i + 80) (j + 80) (by omega) (by omega) (by omega) (by omega) filler
    · exact absurd filler (by decide)
    · omega

/-- `nextRow` from column `x` of a row of the display, filler only before the
cursor. -/
theorem nextRow_tidy {s : Screen (Window 2000)} (y : 0 ≤ s.screenY ∧ s.screenY < 25)
    (ahead : ∀ j, 80 * (s.screenY + 1) ≤ j → j < 2000 → (s.vid.cell j).attr ≠ tab)
    (closed : ∀ i j, 0 ≤ i → i ≤ j → j < 2000 → j / 4 = i / 4 → (s.vid.cell i).attr = tab →
      (s.vid.cell j).attr = tab) :
    ∃ t, nextRow s = some t ∧ Tidy t := by
  by_cases bottom : s.screenY + 1 = 25
  · have moved := scroll_eq { s with screenX := 0, screenY := 25 } (le_refl 2000)
    simp only [nextRow, numRows, bottom, if_true, moved]
    exact ⟨_, rfl, Tidy.scrolled { s with screenX := 0, screenY := 25 } rfl rfl closed⟩
  · simp only [nextRow, numRows, bottom, if_false]
    refine ⟨_, rfl, ⟨?_, ?_, closed⟩⟩
    · simp only [InBounds, numCols, numRows]
      omega
    · intro j after before
      simp only [Screen.offset, numCols] at after
      exact ahead j (by omega) before

theorem newline_tidy {s : Screen (Window 2000)} (tidy : Tidy s) :
    ∃ t, nextRow s = some t ∧ Tidy t := by
  have bounds := tidy.bounds
  simp only [InBounds, numCols, numRows] at bounds
  refine nextRow_tidy (by omega) (fun j after before => tidy.ahead j ?_ before) tidy.closed
  simp only [Screen.offset, numCols]
  omega

theorem putVisible_tidy {s : Screen (Window 2000)} (tidy : Tidy s) (c : UInt8) :
    ∃ t, putVisible c s = some t ∧ Tidy t := by
  obtain ⟨low, high, row, col⟩ := tidy.bounds.offset
  have bounds := tidy.bounds
  simp only [InBounds, numCols, numRows] at bounds
  have ahead : ∀ j, s.offset + 1 ≤ j → j < 2000 →
      ((s.vid.set s.offset ⟨c, attrib⟩).cell j).attr ≠ tab := by
    intro j after before
    rw [Window.set_cell, if_neg (by omega)]
    exact tidy.ahead j (by omega) before
  have closed : ∀ i j, 0 ≤ i → i ≤ j → j < 2000 → j / 4 = i / 4 →
      ((s.vid.set s.offset ⟨c, attrib⟩).cell i).attr = tab →
      ((s.vid.set s.offset ⟨c, attrib⟩).cell j).attr = tab := by
    intro i j nonneg le below group filler
    simp only [Window.set_cell] at filler ⊢
    split_ifs at filler with here
    · cases filler
    · -- filler before the cursor in the cursor's own group would reach the cursor
      have later := tidy.closed i j nonneg le below group filler
      rw [if_neg]
      · exact later
      · rintro rfl
        exact tidy.ahead _ (le_refl _) high later
  by_cases wrap : s.screenX + 1 = 80
  · simp only [putVisible, s.vid.store_of_mem _ low high, Option.bind_eq_bind, Option.bind_some,
      numCols, wrap, if_true]
    refine nextRow_tidy (by dsimp only; omega) (fun j after before => ahead j ?_ before) closed
    dsimp only at after
    omega
  · simp only [putVisible, s.vid.store_of_mem _ low high, Option.bind_eq_bind, Option.bind_some,
      numCols, wrap, if_false]
    refine ⟨_, rfl, ⟨?_, fun j after before => ahead j ?_ before, closed⟩⟩
    · simp only [InBounds, numCols, numRows]
      omega
    · simp only [Screen.offset, numCols] at after ⊢
      omega

/-- A tab always fills up to the next multiple of four columns. -/
theorem putTab_eq {s : Screen (Window 2000)} (bounds : InBounds s) :
    putTab s = some { s with
      vid := filled s.vid s.offset (s.offset + (4 - s.screenX % 4)) ⟨' '.toUInt8, tab⟩
      screenX := s.screenX + (4 - s.screenX % 4) } := by
  obtain ⟨low, high, row, col⟩ := bounds.offset
  have width : ((4 - s.offset % 4).toNat : Int) = 4 - s.screenX % 4 := by
    have group : s.offset % 4 = s.screenX % 4 := by omega
    omega
  rw [putTab, fillTab_eq _ _ s low (by omega), width]

theorem putTab_tidy {s : Screen (Window 2000)} (tidy : Tidy s) (room : s.screenX < 76) :
    ∃ t, putTab s = some t ∧ Tidy t := by
  obtain ⟨low, high, row, col⟩ := tidy.bounds.offset
  have bounds := tidy.bounds
  simp only [InBounds, numCols, numRows] at bounds
  have group : s.offset % 4 = s.screenX % 4 := by omega
  refine ⟨_, putTab_eq tidy.bounds, ⟨?_, ?_, ?_⟩⟩
  · simp only [InBounds, numCols, numRows]
    omega
  · intro j after before
    have past : s.offset + (4 - s.screenX % 4) ≤ j := by
      simp only [Screen.offset, numCols] at after ⊢
      omega
    simp only [filled]
    rw [if_neg (by omega)]
    exact tidy.ahead j (by omega) before
  · intro i j nonneg le below same filler
    simp only [filled] at filler ⊢
    by_cases inside : s.offset ≤ j ∧ j < s.offset + (4 - s.screenX % 4)
    · rw [if_pos inside]
    · rw [if_neg inside]
      rw [if_neg (by omega)] at filler
      exact tidy.closed i j nonneg le below same filler

theorem backspace_tidy {s : Screen (Window 2000)} (tidy : Tidy s)
    (corner : ¬(s.screenX = 0 ∧ s.screenY = 0)) :
    ∃ t, backspace s = some (t, true) ∧ Tidy t := by
  obtain ⟨low, high, row, col⟩ := tidy.bounds.offset
  have bounds := tidy.bounds
  simp only [InBounds, numCols, numRows] at bounds
  have pos : 1 ≤ s.offset := by
    simp only [Screen.offset, numCols]
    omega
  -- filler right before the cursor ends its group, or the cursor's cell would be filler
  have aligned : (s.vid.cell (s.offset - 1)).attr = tab → s.offset % 4 = 0 := by
    intro filler
    by_contra inside
    exact tidy.ahead _ (le_refl _) high
      (tidy.closed (s.offset - 1) s.offset (by omega) (by omega) high (by omega) filler)
  obtain ⟨t, erased, run, spec, stop, single⟩ := backspace_eq s pos (by omega) (fun near =>
    ⟨s.offset - 1, by omega, by omega, fun filler => by have := aligned filler; omega⟩)
  have toffset := spec.offset
  have some_erased := spec.some_erased
  refine ⟨t, run, ⟨spec.inBounds tidy.bounds, ?_, ?_⟩⟩
  · intro j after before
    rw [spec.vid]
    simp only [filled]
    split_ifs with inside
    · decide
    · exact tidy.ahead j (by omega) before
  · intro i j nonneg le below group filler
    rw [spec.vid] at filler ⊢
    simp only [filled] at filler ⊢
    split_ifs at filler with here
    · exact absurd filler (by decide)
    have later := tidy.closed i j nonneg le below group filler
    split_ifs with inside
    · exfalso
      by_cases last : (s.vid.cell (s.offset - 1)).attr = tab
      · have boundary := aligned last
        rcases stop last with all | other
        · omega
        · by_cases before : i ≤ t.offset - 1
          · by_cases in_group : (t.offset - 1) / 4 = i / 4
            · exact other (tidy.closed i (t.offset - 1) nonneg before (by omega) in_group filler)
            · have erased_le : erased ≤ 4 := by
                by_contra many
                have := spec.filler
                omega
              omega
          · omega
      · have one := single last
        obtain rfl : j = s.offset - 1 := by omega
        exact last later
    · exact later

/-- A harmless byte is printed and leaves a tidy display. -/
theorem putcStep_tidy {s : Screen (Window 2000)} {c : UInt8} (tidy : Tidy s)
    (harmless : Harmless s c) : ∃ t, putcStep s c = some t ∧ Tidy t := by
  simp only [putcStep, putc]
  split_ifs with newline back filler
  · obtain ⟨t, run, kept⟩ := newline_tidy tidy
    exact ⟨t, by simp [run], kept⟩
  · obtain ⟨t, run, kept⟩ := backspace_tidy tidy (harmless.1 back)
    exact ⟨t, by simp [run], kept⟩
  · obtain ⟨t, run, kept⟩ := putTab_tidy tidy (harmless.2 filler)
    exact ⟨t, by simp [run], kept⟩
  · obtain ⟨t, run, kept⟩ := putVisible_tidy tidy c
    exact ⟨t, by simp [run], kept⟩

/-- At the upper left corner backspace reads the cell before the first one. -/
theorem backspace_corner {s : Screen (Window 2000)} (x : s.screenX = 0) (y : s.screenY = 0) :
    backspace s = none := by
  have offset : s.offset = 0 := by simp only [Screen.offset, x, y, mul_zero, add_zero]
  simp only [backspace, offset, s.vid.load_eq_none (show ¬(0 ≤ (0 : Int) - 1 ∧ (0 : Int) - 1 < 2000) by omega),
    Option.bind_eq_bind, Option.bind_none]

/-- **One byte.** From a tidy display `putc` touches only cells of the display
and leaves the cursor on it exactly when the byte is harmless. -/
theorem putcStep_iff {s : Screen (Window 2000)} (c : UInt8) (tidy : Tidy s) :
    (∃ t, putcStep s c = some t ∧ InBounds t) ↔ Harmless s c := by
  constructor
  · rintro ⟨t, run, bounds⟩
    refine ⟨?_, ?_⟩
    · rintro rfl ⟨x, y⟩
      have refused : putc 0x08 s = none := (if_neg (by decide)).trans
        ((if_pos rfl).trans (backspace_corner x y))
      simp [putcStep, refused] at run
    · rintro rfl
      have filled : putc '\t'.toUInt8 s = (putTab s).map (·, true) := rfl
      simp only [putcStep, filled, putTab_eq tidy.bounds, Option.map_some, Option.some.injEq] at run
      subst run
      have before := tidy.bounds
      simp only [InBounds, numCols] at bounds before ⊢
      omega
  · intro harmless
    obtain ⟨t, run, kept⟩ := putcStep_tidy tidy harmless
    exact ⟨t, run, kept.bounds⟩

theorem clear_tidy (s : Screen (Window 2000)) :
    ∃ t, clear s = some t ∧ Tidy t ∧ t.screenX = 0 ∧ t.screenY = 0 := by
  have blank := fillCells_eq ⟨' '.toUInt8, attrib⟩ (25 * 80) 0 s.vid (le_refl 0) (by omega)
  have no_filler : ∀ j, 0 ≤ j → j < 2000 →
      (if 0 ≤ j ∧ j < 0 + ((25 * 80 : Nat) : Int) then (⟨' '.toUInt8, attrib⟩ : Cell)
        else s.vid.cell j).attr ≠ tab := by
    intro j low high
    rw [if_pos (by omega)]
    decide
  refine ⟨_, by rw [clear, clearCells, blank, Option.map_some], ⟨?_, ?_, ?_⟩, rfl, rfl⟩
  · simp only [InBounds, numCols, numRows]
    omega
  · intro j after before
    exact no_filler j (by simpa only [Screen.offset, mul_zero, add_zero] using after) before
  · intro i j nonneg le below group filler
    exact absurd filler (no_filler i nonneg (by omega))

/-- **Console bounds.** From a cleared display, a byte string keeps the cursor
on the display after every byte and touches only cells of the display exactly
when no backspace comes at the upper left corner and no tab in the last tab
stop of a row. -/
theorem bounded_iff (s : Screen (Window 2000)) (bytes : List UInt8) :
    ∃ t, clear s = some t ∧
      (Safe putcStep (fun _ _ u => InBounds u) t bytes ↔ Meets putcStep Harmless t bytes) := by
  obtain ⟨t, cleared, tidy, -, -⟩ := clear_tidy s
  refine ⟨t, cleared, safe_iff_meets Tidy (fun u c inv => putcStep_iff c inv) ?_ bytes t tidy⟩
  intro u c v inv harmless run
  obtain ⟨v', run', kept⟩ := putcStep_tidy inv harmless
  obtain rfl : v = v' := by simpa [run] using run'
  exact kept

/-- A backspace right after `clear` reads outside the display. -/
theorem backspace_after_clear :
    ∃ t, clear (⟨⟨fun _ => ⟨0, 0⟩⟩, 0, 0⟩ : Screen (Window 2000)) = some t ∧
      ¬ Safe putcStep (fun _ _ u => InBounds u) t [0x08] := by
  obtain ⟨t, cleared, tidy, x, y⟩ := clear_tidy ⟨⟨fun _ => ⟨0, 0⟩⟩, 0, 0⟩
  refine ⟨t, cleared, fun safe => ?_⟩
  obtain ⟨u, run, bounds, -⟩ := safe
  exact ((putcStep_iff 0x08 tidy).1 ⟨u, run, bounds⟩).1 rfl ⟨x, y⟩

/-! ## Windows with more than the display -/

section

variable {n : Int}

/-- Every cell that `putc` reads or writes for this byte is in the window. -/
structure Fits (s : Screen (Window n)) (c : UInt8) : Prop where
  visible : c ≠ '\n'.toUInt8 → c ≠ '\r'.toUInt8 → c ≠ 0x08 → 0 ≤ s.offset ∧ s.offset < n
  stop : c = '\t'.toUInt8 → s.offset + (4 - s.offset % 4) ≤ n
  back : c = 0x08 → 1 ≤ s.offset ∧ s.offset ≤ n
  closed : c = 0x08 → s.offset < 4 → ∃ j, 0 ≤ j ∧ j < s.offset ∧ (s.vid.cell j).attr ≠ tab

theorem nextRow_some (s : Screen (Window n)) (room : 2000 ≤ n) : ∃ t, nextRow s = some t := by
  unfold nextRow
  dsimp only
  split_ifs
  · exact ⟨_, scroll_eq _ room⟩
  · exact ⟨_, rfl⟩

/-- A byte that fits is drawn. -/
theorem putc_of_fits {s : Screen (Window n)} {c : UInt8} (room : 2000 ≤ n) (fits : Fits s c) :
    ∃ t flag, putc c s = some (t, flag) := by
  simp only [putc]
  split_ifs with newline back filler
  · obtain ⟨t, next⟩ := nextRow_some s room
    exact ⟨t, true, by rw [next]; rfl⟩
  · obtain ⟨low, high⟩ := fits.back back
    obtain ⟨t, _, erased, _⟩ := backspace_eq s low high (fits.closed back)
    exact ⟨t, true, erased⟩
  · obtain ⟨noNewline, noReturn⟩ := not_or.1 newline
    obtain ⟨low, _⟩ := fits.visible noNewline noReturn back
    have stop := fits.stop filler
    have filled := fillTab_eq (4 - s.offset % 4).toNat s.offset s low (by omega)
    exact ⟨_, true, by rw [putTab, filled]; rfl⟩
  · obtain ⟨noNewline, noReturn⟩ := not_or.1 newline
    obtain ⟨low, high⟩ := fits.visible noNewline noReturn back
    have put : ∃ t, putVisible c s = some t := by
      simp only [putVisible, s.vid.store_of_mem _ low high, Option.bind_eq_bind, Option.bind_some]
      split_ifs
      · exact nextRow_some _ room
      · exact ⟨_, rfl⟩
    obtain ⟨t, put⟩ := put
    exact ⟨t, true, by rw [put]; rfl⟩

theorem clear_some (s : Screen (Window n)) (room : 2000 ≤ n) : ∃ t, clear s = some t := by
  have blank := fillCells_eq ⟨' '.toUInt8, attrib⟩ (25 * 80) 0 s.vid (le_refl 0) (by omega)
  exact ⟨_, by rw [clear, clearCells, blank, Option.map_some]⟩

end

end Illinix.Console
