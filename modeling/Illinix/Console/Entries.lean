/-
# Console.Entries -- what is typed on a line, and taken back

A line of input is a stack of entries, the latest first.  Each entry has its
place: a character takes one cell and wraps at the right margin, a tab the cells
up to the next multiple of four, past the margin if need be.  `ShowsLine` says that
the screen shows such a stack from a start on: the cursor is behind the latest
entry, the cells in between are the entries', the cells drawn beyond are blank.

`push_shows` and `pop_shows` are the two steps.  A backspace has nothing but the
attributes to go by, and takes back exactly the latest entry: a tab that does not
begin a group of four has a cell before it that is no tab filler.

The memory may be any in which an index leads to a location (`Located`), as long
as no two indices of the line lead to the same.
-/
import Illinix.Console.Putc
import Mathlib.Tactic.Ring

namespace Illinix.Console

set_option autoImplicit false

/-! ## Memories with locations -/

/-- Loads and stores go by the location an index leads to, if any. -/
class Located (M : Type) [Video M] (Loc : outParam Type) where
  locate : M → Int → Option Loc
  cell : M → Loc → Cell
  load_eq : ∀ (m : M) (i : Int), Video.load m i = (locate m i).map (cell m)
  store_some : ∀ (m : M) (i : Int) (c : Cell) (l : Loc), locate m i = some l →
    ∃ m', Video.store m i c = some m'
  store_inv : ∀ (m m' : M) (i : Int) (c : Cell), Video.store m i c = some m' →
    ∃ l, locate m i = some l ∧ locate m' = locate m ∧ cell m' l = c ∧
      ∀ l', l' ≠ l → cell m' l' = cell m l'

/-- The memory has been filled from index `low` to `high`, and nowhere else. -/
structure Fills {M Loc : Type} [Video M] [Located M Loc] (m m' : M) (low high : Int) (c : Cell) :
    Prop where
  locate : Located.locate m' = Located.locate m
  mapped : ∀ i, low ≤ i → i < high → ∃ l, Located.locate m i = some l
  inside : ∀ i l, low ≤ i → i < high → Located.locate m i = some l → Located.cell m' l = c
  outside : ∀ l, (∀ i, low ≤ i → i < high → Located.locate m i ≠ some l) →
    Located.cell m' l = Located.cell m l

/-- No two indices of the range lead to one location. -/
def Apart {M Loc : Type} [Video M] [Located M Loc] (m : M) (low high : Int) : Prop :=
  ∀ i j l, low ≤ i → i < high → low ≤ j → j < high → Located.locate m i = some l →
    Located.locate m j = some l → i = j

section

variable {M Loc : Type} [Video M] [Located M Loc] {m m' m'' : M} {low high i : Int} {c : Cell}

theorem Apart.mono {low' high' : Int} (apart : Apart m low high) (below : low ≤ low')
    (above : high' ≤ high) : Apart m low' high' :=
  fun i j l a b c d => apart i j l (below.trans a) (b.trans_le above) (below.trans c)
    (d.trans_le above)

theorem Apart.of_locate (apart : Apart m low high)
    (same : Located.locate m' = Located.locate m) : Apart m' low high := by
  rw [Apart, same]
  exact apart

theorem Fills.none (m : M) (low : Int) (c : Cell) : Fills m m low low c :=
  ⟨rfl, fun i above below => by omega, fun i l above below => by omega, fun _ _ => rfl⟩

theorem fills_store (stored : Video.store m i c = some m') : Fills m m' i (i + 1) c := by
  obtain ⟨l, here, same, set, others⟩ := Located.store_inv m m' i c stored
  refine ⟨same, fun j above below => ?_, fun j l' above below there => ?_, fun l' outside => ?_⟩
  · obtain rfl : j = i := by omega
    exact ⟨l, here⟩
  · obtain rfl : j = i := by omega
    obtain rfl : l = l' := Option.some.inj (here.symm.trans there)
    exact set
  · refine others l' fun same => outside i (le_refl i) (by omega) ?_
    rw [same, here]

/-- A cell beside the range that was filled. -/
theorem Fills.beside {low' high' j : Int} {l : Loc} (fills : Fills m m' low high c)
    (apart : Apart m low' high') (lower : low' ≤ low) (upper : high ≤ high') (above : low' ≤ j)
    (below : j < high') (beside : j < low ∨ high ≤ j) (there : Located.locate m j = some l) :
    Located.cell m' l = Located.cell m l := by
  refine fills.outside l fun i above' below' same => ?_
  have := apart i j l (by omega) (by omega) above below same there
  omega

/-- Two fills that cover a range. -/
theorem Fills.join {low' high' from' to' : Int} (first : Fills m m' low high c)
    (second : Fills m' m'' low' high' c)
    (covers : ∀ i, from' ≤ i ∧ i < to' ↔ low ≤ i ∧ i < high ∨ low' ≤ i ∧ i < high') :
    Fills m m'' from' to' c := by
  have same : Located.locate m' = Located.locate m := first.locate
  refine ⟨second.locate.trans same, fun i above below => ?_, fun i l above below here => ?_,
    fun l outside => ?_⟩
  · rcases (covers i).1 ⟨above, below⟩ with ⟨above, below⟩ | ⟨above, below⟩
    · exact first.mapped i above below
    · rw [← same]
      exact second.mapped i above below
  · by_cases again : ∃ j, low' ≤ j ∧ j < high' ∧ Located.locate m j = some l
    · obtain ⟨j, above', below', there⟩ := again
      exact second.inside j l above' below' (by rw [same, there])
    · rw [second.outside l fun j above' below' there =>
        again ⟨j, above', below', by rw [← same, there]⟩]
      rcases (covers i).1 ⟨above, below⟩ with ⟨above, below⟩ | ⟨above, below⟩
      · exact first.inside i l above below here
      · exact absurd ⟨i, above, below, here⟩ again
  · rw [second.outside l fun i above below there => ?_]
    · refine first.outside l fun i above below => ?_
      obtain ⟨above', below'⟩ := (covers i).2 (Or.inl ⟨above, below⟩)
      exact outside i above' below'
    · obtain ⟨above', below'⟩ := (covers i).2 (Or.inr ⟨above, below⟩)
      exact outside i above' below' (by rw [← same, there])

end

/-! ## Entries and their places -/

inductive Entry where
  | char (c : UInt8)
  | tab
  deriving DecidableEq

structure Place where
  x : Int
  y : Int
  deriving DecidableEq

namespace Entry

/-- The byte that is typed. -/
def byte : Entry → UInt8
  | .char c => c
  | .tab => '\t'.toUInt8

/-- What it looks like on the screen. -/
def cell : Entry → Cell
  | .char c => ⟨c, attrib⟩
  | .tab => ⟨' '.toUInt8, Console.tab⟩

/-- A character that putc draws. -/
def Plain : Entry → Prop
  | .char c => c ≠ '\n'.toUInt8 ∧ c ≠ '\r'.toUInt8 ∧ c ≠ 0x08 ∧ c ≠ '\t'.toUInt8
  | .tab => True

end Entry

namespace Place

def offset (p : Place) : Int := numCols * p.y + p.x

/-- The place behind an entry. -/
def advance (p : Place) : Entry → Place
  | .char _ => if p.x + 1 = numCols then ⟨0, p.y + 1⟩ else ⟨p.x + 1, p.y⟩
  | .tab => ⟨p.x + (4 - p.offset % 4), p.y⟩

theorem advance_offset (p : Place) (e : Entry) : (p.advance e).offset =
    p.offset + match e with
      | .char _ => 1
      | .tab => 4 - p.offset % 4 := by
  cases e with
  | char c =>
      simp only [advance]
      split_ifs with margin
      all_goals
        simp only [offset, numCols] at margin ⊢
        omega
  | tab =>
      simp only [advance, offset, numCols]
      omega

theorem advance_lt (p : Place) (e : Entry) :
    p.offset < (p.advance e).offset ∧ (p.advance e).offset ≤ p.offset + 4 := by
  rw [advance_offset]
  cases e with
  | char c => simp only; omega
  | tab => simp only; omega

end Place

/-- The place behind a stack of entries. -/
def place (start : Place) : List Entry → Place
  | [] => start
  | e :: earlier => (place start earlier).advance e

/-- The cell of a line at an index: the entry's that is there, else blank. -/
def painted (start : Place) : List Entry → Int → Cell
  | [], _ => ⟨0, attrib⟩
  | e :: earlier, i =>
      if (place start earlier).offset ≤ i ∧ i < (place start (e :: earlier)).offset then e.cell
      else painted start earlier i

section

variable {start : Place} {e : Entry} {earlier es : List Entry}

/-- Where a line ends. -/
theorem place_span (start : Place) (es : List Entry) : start.offset ≤ (place start es).offset ∧
    (place start es).offset ≤ start.offset + 4 * es.length := by
  induction es with
  | nil => simp [place]
  | cons e earlier ih =>
      obtain ⟨above, below⟩ := (place start earlier).advance_lt e
      simp only [place, List.length_cons, Nat.cast_add, Nat.cast_one]
      omega

theorem place_le_iff (es : List Entry) : (place start es).offset = start.offset ↔ es = [] := by
  cases es with
  | nil => simp [place]
  | cons e earlier =>
      obtain ⟨above, _⟩ := (place start earlier).advance_lt e
      have span := place_span start earlier
      simp only [place, reduceCtorEq, iff_false]
      omega

theorem painted_latest {i : Int} (above : (place start earlier).offset ≤ i)
    (below : i < (place start (e :: earlier)).offset) : painted start (e :: earlier) i = e.cell :=
  if_pos ⟨above, below⟩

theorem painted_other {i : Int} (other : ¬((place start earlier).offset ≤ i ∧
    i < (place start (e :: earlier)).offset)) :
    painted start (e :: earlier) i = painted start earlier i := if_neg other

theorem place_lt (start : Place) (e : Entry) (earlier : List Entry) :
    (place start earlier).offset < (place start (e :: earlier)).offset ∧
      (place start (e :: earlier)).offset ≤ (place start earlier).offset + 4 :=
  (place start earlier).advance_lt e

/-- Behind the entries a line is blank. -/
theorem painted_beyond {i : Int} (beyond : (place start es).offset ≤ i) :
    painted start es i = ⟨0, attrib⟩ := by
  induction es with
  | nil => rfl
  | cons e earlier ih =>
      obtain ⟨above, _⟩ := place_lt start e earlier
      rw [painted_other (by omega)]
      exact ih (by omega)

/-- Before an entry that does not begin a group of four there is a character. -/
theorem painted_before (some' : earlier ≠ []) (inside : (place start earlier).offset % 4 ≠ 0) :
    (painted start earlier ((place start earlier).offset - 1)).attr ≠ tab := by
  cases earlier with
  | nil => exact absurd rfl some'
  | cons e' rest =>
      obtain ⟨above, _⟩ := place_lt start e' rest
      rw [painted_latest (by omega) (by omega)]
      cases e' with
      | char c => exact (by decide : attrib ≠ tab)
      | tab =>
          have full : (place start (.tab :: rest)).offset = _ :=
            (place start rest).advance_offset .tab
          simp only at full
          omega

end

/-! ## The screen of a line -/

def Screen.place {M : Type} (s : Screen M) : Place := ⟨s.screenX, s.screenY⟩

/-- The byte makes `putc` scroll. -/
def Scrolls {M : Type} (s : Screen M) : Entry → Prop
  | .char _ => s.screenX + 1 = numCols ∧ s.screenY + 1 = numRows
  | .tab => False

instance {M : Type} (s : Screen M) : (e : Entry) → Decidable (Scrolls s e)
  | .char _ => inferInstanceAs (Decidable (_ ∧ _))
  | .tab => inferInstanceAs (Decidable False)

/-- One step left of the cursor undoes one step right. -/
theorem retreat_place {M : Type} {s : Screen M} (p : Place) (c : UInt8)
    (here : s.place = p.advance (.char c)) (nonneg : 0 ≤ p.x ∧ 0 ≤ p.y) :
    s.retreat = some { s with screenX := p.x, screenY := p.y } := by
  have x : s.screenX = (p.advance (.char c)).x := congrArg Place.x here
  have y : s.screenY = (p.advance (.char c)).y := congrArg Place.y here
  simp only [Place.advance] at x y
  simp only [Screen.retreat]
  split_ifs at x y with margin
  · rw [if_neg (by simpa using x), if_pos (by simp only at y; omega), y]
    simp only [Option.some.injEq, Screen.mk.injEq, true_and]
    omega
  · rw [if_pos (by simp only at x; omega), x, y]
    simp only [add_sub_cancel_right]

section

variable {M Loc : Type} [Video M] [Located M Loc] {s t : Screen M} {m m' : M}

theorem fillTab_fills (k : Nat) : ∀ (i : Int) (s t : Screen M), fillTab k i s = some t →
    Fills s.vid t.vid i (i + k) ⟨' '.toUInt8, tab⟩ ∧ t.screenX = s.screenX + k ∧
      t.screenY = s.screenY := by
  induction k with
  | zero =>
      intro i s t filled
      obtain rfl := Option.some.inj filled
      simpa using Fills.none s.vid i ⟨' '.toUInt8, tab⟩
  | succ k ih =>
      intro i s t filled
      obtain ⟨m, stored, filled⟩ := Option.bind_eq_some_iff.1 filled
      obtain ⟨later, x, y⟩ := ih _ _ _ filled
      refine ⟨(fills_store stored).join later fun j => by push_cast; omega, ?_, y⟩
      rw [x]
      push_cast
      ring

/-- **What an entry draws.** -/
theorem putc_entry {e : Entry} {flag : Bool} (plain : e.Plain) (still : ¬Scrolls s e)
    (drew : putc e.byte s = some (t, flag)) :
    Fills s.vid t.vid s.offset (s.place.advance e).offset e.cell ∧ t.place = s.place.advance e ∧
      flag = true := by
  have stop := s.place.advance_offset e
  cases e with
  | tab =>
      have tabs : putc Entry.tab.byte s = (putTab s).map (·, true) := rfl
      rw [tabs] at drew
      obtain ⟨next, filled, same⟩ := Option.map_eq_some_iff.1 drew
      cases same
      obtain ⟨fills, x, y⟩ := fillTab_fills _ _ _ _ filled
      have width : ((4 - s.offset % 4).toNat : Int) = 4 - s.offset % 4 := by omega
      rw [width] at fills x
      refine ⟨?_, ?_, rfl⟩
      · rw [stop]
        exact fills
      · simp only [Screen.place, Place.advance, x, y]
        rfl
  | char c =>
      obtain ⟨newline, return', back, filler⟩ := plain
      have visible : putc c s = (putVisible c s).map (·, true) :=
        (if_neg (not_or.2 ⟨newline, return'⟩)).trans ((if_neg back).trans (if_neg filler))
      rw [show (Entry.char c).byte = c from rfl, visible] at drew
      obtain ⟨next, put, same⟩ := Option.map_eq_some_iff.1 drew
      cases same
      obtain ⟨m, stored, put⟩ := Option.bind_eq_some_iff.1 put
      have fills := fills_store stored
      rw [stop]
      by_cases margin : s.screenX + 1 = numCols
      · rw [if_pos margin] at put
        have row : s.screenY + 1 ≠ numRows := fun bottom => still ⟨margin, bottom⟩
        simp only [nextRow] at put
        rw [if_neg row] at put
        obtain rfl := Option.some.inj put
        exact ⟨fills, (if_pos margin).symm, rfl⟩
      · rw [if_neg margin] at put
        obtain rfl := Option.some.inj put
        exact ⟨fills, (if_neg margin).symm, rfl⟩

/-- One round of the erase loop right of column 0. -/
theorem eraseCells_column {k : Nat} {i : Int} {s : Screen M} (room : 0 < s.screenX)
    (stored : Video.store s.vid i ⟨0, attrib⟩ = some m) :
    eraseCells (k + 1) i s =
      if k = 0 then some ({ s with vid := m, screenX := s.screenX - 1 }, true)
      else (Video.load m (i - 1)).bind fun cell =>
        if cell.attr = tab then eraseCells k (i - 1) { s with vid := m, screenX := s.screenX - 1 }
        else some ({ s with vid := m, screenX := s.screenX - 1 }, true) := by
  have moved : s.retreat = some { s with screenX := s.screenX - 1 } := if_pos (by omega)
  simp only [eraseCells, moved, stored, Option.bind_eq_bind, Option.bind_some]

/-- **The erase loop on tab filler**: it stops after `w` cells if these are all
its rounds or the cell before them is no filler. -/
theorem eraseCells_fills (w : Nat) : ∀ (k : Nat) (i : Int) (s : Screen M), 1 ≤ w → w ≤ k →
    (w : Int) ≤ s.screenX → Apart s.vid (i - w) (i + 1) →
    (∀ j, i - w < j → j ≤ i →
      ∃ l, Located.locate s.vid j = some l ∧ (Located.cell s.vid l).attr = tab) →
    (w = k ∨ ∃ l, Located.locate s.vid (i - w) = some l ∧ (Located.cell s.vid l).attr ≠ tab) →
    ∃ t, eraseCells k i s = some (t, true) ∧ Fills s.vid t.vid (i + 1 - w) (i + 1) ⟨0, attrib⟩ ∧
      t.screenX = s.screenX - w ∧ t.screenY = s.screenY := by
  induction w with
  | zero => exact fun k i s pos => absurd pos (by decide)
  | succ w ih =>
      intro k i s _ short room apart filler stops
      obtain ⟨k, rfl⟩ : ∃ k', k = k' + 1 := ⟨k - 1, by omega⟩
      push_cast at room apart filler stops ⊢
      obtain ⟨l, here, _⟩ := filler i (by omega) (le_refl i)
      obtain ⟨m, stored⟩ := Located.store_some s.vid i ⟨0, attrib⟩ l here
      have fills := fills_store stored
      have same := fills.locate
      have round := eraseCells_column (k := k) (s := s) (by omega) stored
      -- the cells further left are as before
      have left : ∀ j l', i - (w + 1) ≤ j → j < i → Located.locate s.vid j = some l' →
          Located.cell m l' = Located.cell s.vid l' := fun j l' above below there =>
        fills.beside apart (by omega) (le_refl _) above (by omega) (Or.inl below) there
      have loads : ∀ j l', i - (w + 1) ≤ j → j < i → Located.locate s.vid j = some l' →
          Video.load m j = some (Located.cell s.vid l') := by
        intro j l' above below there
        rw [Located.load_eq, same, there, Option.map_some, left j l' above below there]
      cases w with
      | zero =>
          refine ⟨{ s with vid := m, screenX := s.screenX - 1 }, ?_, by simpa using fills, by simp,
            rfl⟩
          rw [round]
          by_cases last : k = 0
          · rw [if_pos last]
          · obtain ⟨l', there, other⟩ := stops.resolve_left (by omega)
            rw [if_neg last, loads (i - 1) l' (by omega) (by omega) (by simpa using there),
              Option.bind_some, if_neg other]
      | succ w =>
          push_cast at room apart filler stops left loads ⊢
          obtain ⟨l', there, tabbed⟩ := filler (i - 1) (by omega) (by omega)
          have apart' : Apart m (i - 1 - (w + 1 : Nat)) (i - 1 + 1) :=
            (apart.of_locate same).mono (by push_cast; omega) (by omega)
          have filler' : ∀ j, i - 1 - (w + 1 : Nat) < j → j ≤ i - 1 →
              ∃ l, Located.locate m j = some l ∧ (Located.cell m l).attr = tab := by
            intro j above below
            obtain ⟨l', there, tabbed⟩ := filler j (by push_cast at above; omega) (by omega)
            have kept := left j l' (by push_cast at above; omega) (by omega) there
            exact ⟨l', by rw [same, there], (congrArg Cell.attr kept).trans tabbed⟩
          have stops' : w + 1 = k ∨ ∃ l, Located.locate m (i - 1 - (w + 1 : Nat)) = some l ∧
              (Located.cell m l).attr ≠ tab := by
            refine stops.imp (by omega) fun ⟨l', there, other⟩ => ?_
            have index : i - 1 - ((w + 1 : Nat) : Int) = i - (w + 1 + 1) := by
              push_cast
              omega
            have kept := left _ l' (le_refl _) (by omega) there
            refine ⟨l', by rw [index, same, there], fun tabbed => other ?_⟩
            exact (congrArg Cell.attr kept).symm.trans tabbed
          obtain ⟨t, erased, later, x, y⟩ := ih k (i - 1)
            { s with vid := m, screenX := s.screenX - 1 } (by omega) (by omega)
            (by push_cast; omega) apart' filler' stops'
          refine ⟨t, ?_, fills.join later fun j => by push_cast; omega, ?_, y⟩
          · rw [round, if_neg (by omega), loads (i - 1) l' (by omega) (by omega) there,
              Option.bind_some, if_pos tabbed, erased]
          · rw [x]
            push_cast
            ring

/-! ## Typing and taking back -/

/-- The screen shows the line of these entries from `start` on, in a memory that
was `m₀` before, and the cells up to `reach` have been drawn. -/
structure ShowsLine (m₀ : M) (start : Place) (reach : Int) (es : List Entry) (s : Screen M) :
    Prop where
  locate : Located.locate s.vid = Located.locate m₀
  cursor : s.place = place start es
  reached : (place start es).offset ≤ reach
  mapped : ∀ i, start.offset ≤ i → i < reach → ∃ l, Located.locate m₀ i = some l
  drawn : ∀ i l, start.offset ≤ i → i < reach → Located.locate m₀ i = some l →
    Located.cell s.vid l = painted start es i
  kept : ∀ l, (∀ i, start.offset ≤ i → i < reach → Located.locate m₀ i ≠ some l) →
    Located.cell s.vid l = Located.cell m₀ l

/-- A line without entries. -/
theorem shows_start (s : Screen M) : ShowsLine s.vid s.place s.offset [] s :=
  ⟨rfl, rfl, le_refl _, fun _ above below => absurd above (not_le.2 below),
    fun _ _ above below => absurd above (not_le.2 below), fun _ _ => rfl⟩

variable {m₀ : M} {start : Place} {reach : Int} {e : Entry} {earlier es : List Entry}

theorem ShowsLine.offset (shows : ShowsLine m₀ start reach es s) :
    s.offset = (place start es).offset := congrArg Place.offset shows.cursor

/-- **Typing an entry.** -/
theorem push_shows (shows : ShowsLine m₀ start reach es s)
    (apart : Apart m₀ start.offset (max reach (place start (e :: es)).offset))
    (fills : Fills s.vid t.vid s.offset (place start (e :: es)).offset e.cell)
    (moved : t.place = place start (e :: es)) :
    ShowsLine m₀ start (max reach (place start (e :: es)).offset) (e :: es) t := by
  have span := place_span start es
  have next := place_lt start e es
  have here := shows.offset
  have reached := shows.reached
  have locate : ∀ i, Located.locate s.vid i = Located.locate m₀ i := congrFun shows.locate
  rw [here] at fills
  refine ⟨fills.locate.trans shows.locate, moved, le_max_right _ _, fun i above below => ?_,
    fun i l above below there => ?_, fun l outside => ?_⟩
  · by_cases before : i < reach
    · exact shows.mapped i above before
    · obtain ⟨l, there⟩ := fills.mapped i (by omega) (by omega)
      exact ⟨l, by rw [← locate, there]⟩
  · by_cases inside : (place start es).offset ≤ i ∧ i < (place start (e :: es)).offset
    · rw [painted_latest inside.1 inside.2]
      exact fills.inside i l inside.1 inside.2 (by rw [locate, there])
    · rw [painted_other inside, fills.outside l fun j above' below' same => ?_]
      · exact shows.drawn i l above (by omega) there
      · obtain rfl := apart i j l above below (by omega) (by omega) there (by rw [← locate, same])
        exact inside ⟨above', below'⟩
  · rw [fills.outside l fun i above below there => ?_]
    · exact shows.kept l fun i above below => outside i above (by omega)
    · exact outside i (by omega) (by omega) (by rw [← locate, there])

/-- **Taking back the latest entry.** -/
theorem pop_shows (shows : ShowsLine m₀ start reach (e :: earlier) s)
    (apart : Apart m₀ start.offset reach)
    (fills : Fills s.vid t.vid (place start earlier).offset s.offset ⟨0, attrib⟩)
    (moved : t.place = place start earlier) : ShowsLine m₀ start reach earlier t := by
  have span := place_span start earlier
  have next := place_lt start e earlier
  have here := shows.offset
  have reached := shows.reached
  have locate : ∀ i, Located.locate s.vid i = Located.locate m₀ i := congrFun shows.locate
  rw [here] at fills
  refine ⟨fills.locate.trans shows.locate, moved, by omega, shows.mapped,
    fun i l above below there => ?_, fun l outside => ?_⟩
  · by_cases inside : (place start earlier).offset ≤ i ∧ i < (place start (e :: earlier)).offset
    · rw [painted_beyond inside.1]
      exact fills.inside i l inside.1 inside.2 (by rw [locate, there])
    · rw [← painted_other inside, fills.outside l fun j above' below' same => ?_]
      · exact shows.drawn i l above below there
      · obtain rfl := apart i j l above below (by omega) (by omega) there (by rw [← locate, same])
        exact inside ⟨above', below'⟩
  · rw [fills.outside l fun i above below there => ?_]
    · exact shows.kept l outside
    · exact outside i (by omega) (by omega) (by rw [← locate, there])

/-- The cell before the start, where a tab at the start would read it. -/
def NoFillerBefore (m₀ : M) (start : Place) : Prop :=
  start.offset % 4 ≠ 0 → (∃ l, Located.locate m₀ start.offset = some l) →
    ∃ l, Located.locate m₀ (start.offset - 1) = some l ∧ (Located.cell m₀ l).attr ≠ tab

theorem place_nonneg (nonneg : 0 ≤ start.x ∧ 0 ≤ start.y) (es : List Entry) :
    0 ≤ (place start es).x ∧ 0 ≤ (place start es).y := by
  induction es with
  | nil => exact nonneg
  | cons e earlier ih =>
      cases e with
      | char c =>
          simp only [place, Place.advance]
          split_ifs
          all_goals
            simp only
            omega
      | tab =>
          simp only [place, Place.advance]
          omega

/-- The cell of an index of the line. -/
theorem ShowsLine.load (shows : ShowsLine m₀ start reach es s) {i : Int} (above : start.offset ≤ i)
    (below : i < reach) : ∃ l, Located.locate s.vid i = some l ∧
      Located.cell s.vid l = painted start es i := by
  obtain ⟨l, there⟩ := shows.mapped i above below
  exact ⟨l, by rw [shows.locate, there], shows.drawn i l above below there⟩

theorem ShowsLine.apart {low high : Int} (shows : ShowsLine m₀ start reach es s)
    (apart : Apart m₀ low high) : Apart s.vid low high :=
  apart.of_locate shows.locate

/-- The cell before a tab that does not begin a group of four is no tab filler. -/
theorem ShowsLine.before (shows : ShowsLine m₀ start reach (e :: earlier) s)
    (apart : Apart m₀ (start.offset - 1) reach) (before : NoFillerBefore m₀ start)
    (inside : (place start earlier).offset % 4 ≠ 0) :
    ∃ l, Located.locate s.vid ((place start earlier).offset - 1) = some l ∧
      (Located.cell s.vid l).attr ≠ tab := by
  have next := place_lt start e earlier
  have reached := shows.reached
  cases earlier with
  | nil =>
      rw [show place start [] = start from rfl] at inside next ⊢
      obtain ⟨l, there, other⟩ := before inside (shows.mapped start.offset (le_refl _) (by omega))
      refine ⟨l, by rw [shows.locate]; exact there, ?_⟩
      rw [shows.kept l fun i above below same => ?_]
      · exact other
      · have := apart (start.offset - 1) i l (le_refl _) (by omega) (by omega) below there same
        omega
  | cons e' rest =>
      have span := place_span start rest
      have next' := place_lt start e' rest
      obtain ⟨l, there, drawn⟩ := shows.load (i := (place start (e' :: rest)).offset - 1)
        (by omega) (by omega)
      refine ⟨l, there, ?_⟩
      rw [drawn, painted_other (by omega)]
      exact painted_before (List.cons_ne_nil e' rest) inside

/-- **Backspace takes back the latest entry.** -/
theorem backspace_entry (shows : ShowsLine m₀ start reach (e :: earlier) s)
    (apart : Apart m₀ (start.offset - 1) reach) (nonneg : 0 ≤ start.x ∧ 0 ≤ start.y)
    (before : NoFillerBefore m₀ start) : ∃ t, putc 0x08 s = some (t, true) ∧
      Fills s.vid t.vid (place start earlier).offset s.offset ⟨0, attrib⟩ ∧
      t.place = place start earlier := by
  have span := place_span start earlier
  have next := place_lt start e earlier
  have here := shows.offset
  have reached := shows.reached
  obtain ⟨l, last, cell⟩ := shows.load (i := s.offset - 1) (by omega) (by omega)
  rw [painted_latest (by omega) (by omega)] at cell
  have loaded : Video.load s.vid (s.offset - 1) = some e.cell := by
    rw [Located.load_eq, last, Option.map_some, cell]
  have back : putc 0x08 s = backspace s := rfl
  rw [back, backspace, loaded]
  simp only [Option.bind_eq_bind, Option.bind_some]
  cases e with
  | char c =>
      have plain : (Entry.char c).cell.attr ≠ tab := (by decide : attrib ≠ tab)
      have stop : (place start (.char c :: earlier)).offset = _ :=
        (place start earlier).advance_offset (.char c)
      simp only at stop
      obtain ⟨m, stored⟩ := Located.store_some s.vid (s.offset - 1) ⟨0, attrib⟩ l last
      have moved := retreat_place (place start earlier) c shows.cursor (place_nonneg nonneg earlier)
      refine ⟨⟨m, (place start earlier).x, (place start earlier).y⟩, ?_, ?_, rfl⟩
      · rw [if_neg plain]
        simp only [eraseCells, moved, stored, Option.bind_eq_bind, Option.bind_some, if_true]
      · have fills := fills_store stored
        rwa [sub_add_cancel, show s.offset - 1 = (place start earlier).offset by omega] at fills
  | tab =>
      have filler : Entry.tab.cell.attr = tab := rfl
      have stop : (place start (.tab :: earlier)).offset = _ :=
        (place start earlier).advance_offset .tab
      simp only at stop
      have width : ((4 - (place start earlier).offset % 4).toNat : Int) =
          4 - (place start earlier).offset % 4 := by omega
      have x : s.screenX = (place start earlier).x + (4 - (place start earlier).offset % 4) :=
        congrArg Place.x shows.cursor
      have y : s.screenY = (place start earlier).y := congrArg Place.y shows.cursor
      have left := place_nonneg nonneg earlier
      obtain ⟨t, erased, fills, x', y'⟩ := eraseCells_fills
        (4 - (place start earlier).offset % 4).toNat 4 (s.offset - 1) s (by omega) (by omega)
        (by omega) ((shows.apart apart).mono (by omega) (by omega))
        (fun j above below => by
          obtain ⟨l', there, drawn⟩ := shows.load (i := j) (by omega) (by omega)
          rw [painted_latest (by omega) (by omega)] at drawn
          exact ⟨l', there, congrArg Cell.attr drawn⟩)
        (by
          by_cases whole : (place start earlier).offset % 4 = 0
          · exact Or.inl (by omega)
          · rw [width, show s.offset - 1 - (4 - (place start earlier).offset % 4) =
              (place start earlier).offset - 1 by omega]
            exact Or.inr (shows.before apart before whole))
      refine ⟨t, by rw [if_pos filler, erased], ?_, ?_⟩
      · rwa [sub_add_cancel, width,
          show s.offset - (4 - (place start earlier).offset % 4) = (place start earlier).offset by
            omega] at fills
      · simp only [Screen.place]
        rw [x', y', width, x, y, add_sub_cancel_right]

end

end Illinix.Console
