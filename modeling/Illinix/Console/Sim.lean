/-
# Console.Sim -- the console over two memories

The console reaches memory through loads and stores only.  So if every access one
memory allows is allowed by another, with the same result, then what the console
does over the first it does over the second: `putc_sim` and `clearCells_sim`, for
any relation between the two memories that their stores keep.
-/
import Illinix.Console.Frame

namespace Illinix.Console

set_option autoImplicit false

variable {M N : Type}

/-- Every access that `N` allows is allowed by `M`, and keeps the relation. -/
structure Simulates [Video M] [Video N] (R : M → N → Prop) : Prop where
  load : ∀ {m n i c}, R m n → Video.load n i = some c → Video.load m i = some c
  store : ∀ {m n i c n'}, R m n → Video.store n i c = some n' →
    ∃ m', Video.store m i c = some m' ∧ R m' n'

/-- The same cursor, over related memories. -/
structure Alike (R : M → N → Prop) (s : Screen M) (t : Screen N) : Prop where
  vid : R s.vid t.vid
  screenX : s.screenX = t.screenX
  screenY : s.screenY = t.screenY

section

variable {R : M → N → Prop} {s : Screen M} {t t' : Screen N}

theorem Alike.offset (alike : Alike R s t) : s.offset = t.offset := by
  simp only [Screen.offset]
  rw [alike.screenX, alike.screenY]

theorem Alike.vid_set (alike : Alike R s t) {m : M} {n : N} (related : R m n) :
    Alike R { s with vid := m } { t with vid := n } :=
  ⟨related, alike.screenX, alike.screenY⟩

/-- One step left, over both. -/
theorem Alike.retreat (alike : Alike R s t) (moved : t.retreat = some t') :
    ∃ s', s.retreat = some s' ∧ Alike R s' t' := by
  simp only [Screen.retreat] at moved ⊢
  rw [alike.screenX, alike.screenY]
  split_ifs at moved ⊢
  · obtain rfl := Option.some.inj moved
    exact ⟨_, rfl, alike.vid, rfl, rfl⟩
  · obtain rfl := Option.some.inj moved
    exact ⟨_, rfl, alike.vid, rfl, rfl⟩

theorem Alike.stays (alike : Alike R s t) (corner : t.retreat = none) : s.retreat = none := by
  simp only [Screen.retreat] at corner ⊢
  rw [alike.screenX, alike.screenY]
  split_ifs at corner ⊢
  rfl

variable [Video M] [Video N] (sim : Simulates R)

include sim

theorem moveRows_sim (k : Nat) : ∀ (i : Int) (m : M) (n n' : N), R m n →
    moveRows k i n = some n' → ∃ m', moveRows k i m = some m' ∧ R m' n' := by
  induction k with
  | zero =>
      intro i m n n' related moved
      obtain rfl := Option.some.inj moved
      exact ⟨m, rfl, related⟩
  | succ k ih =>
      intro i m n n' related moved
      simp only [moveRows, Option.bind_eq_bind, Option.bind_eq_some_iff] at moved ⊢
      obtain ⟨cell, loaded, mid, stored, later⟩ := moved
      obtain ⟨mid', stored', related'⟩ := sim.store related stored
      obtain ⟨m', later', last⟩ := ih (i + 1) mid' mid n' related' later
      exact ⟨m', ⟨cell, sim.load related loaded, mid', stored', later'⟩, last⟩

theorem fillCells_sim (cell : Cell) (k : Nat) : ∀ (i : Int) (m : M) (n n' : N), R m n →
    fillCells cell k i n = some n' → ∃ m', fillCells cell k i m = some m' ∧ R m' n' := by
  induction k with
  | zero =>
      intro i m n n' related filled
      obtain rfl := Option.some.inj filled
      exact ⟨m, rfl, related⟩
  | succ k ih =>
      intro i m n n' related filled
      simp only [fillCells, Option.bind_eq_bind, Option.bind_eq_some_iff] at filled ⊢
      obtain ⟨mid, stored, later⟩ := filled
      obtain ⟨mid', stored', related'⟩ := sim.store related stored
      obtain ⟨m', later', last⟩ := ih (i + 1) mid' mid n' related' later
      exact ⟨m', ⟨mid', stored', later'⟩, last⟩

theorem clearCells_sim {m : M} {n n' : N} (related : R m n) (cleared : clearCells n = some n') :
    ∃ m', clearCells m = some m' ∧ R m' n' :=
  fillCells_sim sim _ (25 * 80) 0 m n n' related cleared

theorem scroll_sim (alike : Alike R s t) (scrolled : scroll t = some t') :
    ∃ s', scroll s = some s' ∧ Alike R s' t' := by
  simp only [scroll, Option.bind_eq_bind, Option.bind_eq_some_iff] at scrolled ⊢
  obtain ⟨first, moved, second, filled, done⟩ := scrolled
  obtain rfl := Option.some.inj done
  obtain ⟨first', moved', related⟩ := moveRows_sim sim _ _ _ _ _ alike.vid moved
  obtain ⟨second', filled', related'⟩ := fillCells_sim sim _ _ _ _ _ _ related filled
  refine ⟨_, ⟨first', moved', second', filled', rfl⟩, related', alike.screenX, ?_⟩
  exact congrArg (· - 1) alike.screenY

theorem nextRow_sim (alike : Alike R s t) (next : nextRow t = some t') :
    ∃ s', nextRow s = some s' ∧ Alike R s' t' := by
  have down : Alike R { s with screenX := 0, screenY := s.screenY + 1 }
      { t with screenX := 0, screenY := t.screenY + 1 } :=
    ⟨alike.vid, rfl, congrArg (· + 1) alike.screenY⟩
  unfold nextRow at next ⊢
  dsimp only at next ⊢
  rw [alike.screenY] at down ⊢
  split_ifs at next ⊢
  · exact scroll_sim sim down next
  · obtain rfl := Option.some.inj next
    exact ⟨_, rfl, down⟩

theorem eraseCells_sim (k : Nat) : ∀ (i : Int) (s : Screen M) (t t' : Screen N) (flag : Bool),
    Alike R s t → eraseCells k i t = some (t', flag) →
      ∃ s', eraseCells k i s = some (s', flag) ∧ Alike R s' t' := by
  induction k with
  | zero =>
      intro i s t t' flag alike erased
      cases erased
      exact ⟨s, rfl, alike⟩
  | succ k ih =>
      intro i s t t' flag alike erased
      simp only [eraseCells] at erased ⊢
      cases moved : t.retreat with
      | none =>
          rw [moved] at erased
          rw [alike.stays moved]
          cases erased
          exact ⟨s, rfl, alike⟩
      | some back =>
          rw [moved] at erased
          obtain ⟨back', moved', alike'⟩ := alike.retreat moved
          rw [moved']
          obtain ⟨mid, stored, erased⟩ := Option.bind_eq_some_iff.1 erased
          obtain ⟨mid', stored', related⟩ := sim.store alike'.vid stored
          have next := alike'.vid_set related
          simp only [Option.bind_eq_bind, stored', Option.bind_some]
          split_ifs at erased ⊢ with last
          · cases erased
            exact ⟨_, rfl, next⟩
          · obtain ⟨cell, loaded, erased⟩ := Option.bind_eq_some_iff.1 erased
            rw [sim.load related loaded, Option.bind_some]
            split_ifs at erased ⊢
            · exact ih (i - 1) _ _ t' flag next erased
            · cases erased
              exact ⟨_, rfl, next⟩

theorem fillTab_sim (k : Nat) : ∀ (i : Int) (s : Screen M) (t t' : Screen N), Alike R s t →
    fillTab k i t = some t' → ∃ s', fillTab k i s = some s' ∧ Alike R s' t' := by
  induction k with
  | zero =>
      intro i s t t' alike filled
      obtain rfl := Option.some.inj filled
      exact ⟨s, rfl, alike⟩
  | succ k ih =>
      intro i s t t' alike filled
      simp only [fillTab, Option.bind_eq_bind, Option.bind_eq_some_iff] at filled ⊢
      obtain ⟨mid, stored, later⟩ := filled
      obtain ⟨mid', stored', related⟩ := sim.store alike.vid stored
      have next : Alike R { s with vid := mid', screenX := s.screenX + 1 }
          { t with vid := mid, screenX := t.screenX + 1 } :=
        ⟨related, congrArg (· + 1) alike.screenX, alike.screenY⟩
      obtain ⟨s', later', last⟩ := ih (i + 1) _ _ t' next later
      exact ⟨s', ⟨mid', stored', later'⟩, last⟩

theorem backspace_sim {flag : Bool} (alike : Alike R s t) (erased : backspace t = some (t', flag)) :
    ∃ s', backspace s = some (s', flag) ∧ Alike R s' t' := by
  simp only [backspace, Option.bind_eq_bind, Option.bind_eq_some_iff] at erased ⊢
  rw [alike.offset]
  obtain ⟨cell, loaded, erased⟩ := erased
  obtain ⟨s', erased', last⟩ := eraseCells_sim sim _ _ s t t' flag alike erased
  exact ⟨s', ⟨cell, sim.load alike.vid loaded, erased'⟩, last⟩

theorem putTab_sim (alike : Alike R s t) (tabbed : putTab t = some t') :
    ∃ s', putTab s = some s' ∧ Alike R s' t' := by
  simp only [putTab] at tabbed ⊢
  rw [alike.offset]
  exact fillTab_sim sim _ _ s t t' alike tabbed

theorem putVisible_sim {c : UInt8} (alike : Alike R s t) (put : putVisible c t = some t') :
    ∃ s', putVisible c s = some s' ∧ Alike R s' t' := by
  simp only [putVisible, Option.bind_eq_bind, Option.bind_eq_some_iff] at put ⊢
  rw [alike.offset]
  obtain ⟨mid, stored, put⟩ := put
  obtain ⟨mid', stored', related⟩ := sim.store alike.vid stored
  have next : Alike R { s with vid := mid', screenX := s.screenX + 1 }
      { t with vid := mid, screenX := t.screenX + 1 } :=
    ⟨related, congrArg (· + 1) alike.screenX, alike.screenY⟩
  rw [alike.screenX] at next ⊢
  split_ifs at put with full
  · obtain ⟨s', later, last⟩ := nextRow_sim sim next put
    exact ⟨s', ⟨mid', stored', by rw [if_pos full]; exact later⟩, last⟩
  · obtain rfl := Option.some.inj put
    exact ⟨_, ⟨mid', stored', if_neg full⟩, next⟩

/-- **putc over two memories.** What it does over the smaller one it does over the
other. -/
theorem putc_sim {c : UInt8} {flag : Bool} (alike : Alike R s t)
    (drew : putc c t = some (t', flag)) : ∃ s', putc c s = some (s', flag) ∧ Alike R s' t' := by
  simp only [putc] at drew ⊢
  split_ifs at drew ⊢
  · obtain ⟨next, moved, same⟩ := Option.map_eq_some_iff.1 drew
    cases same
    obtain ⟨s', moved', last⟩ := nextRow_sim sim alike moved
    exact ⟨s', by rw [moved']; rfl, last⟩
  · exact backspace_sim sim alike drew
  · obtain ⟨next, tabbed, same⟩ := Option.map_eq_some_iff.1 drew
    cases same
    obtain ⟨s', tabbed', last⟩ := putTab_sim sim alike tabbed
    exact ⟨s', by rw [tabbed']; rfl, last⟩
  · obtain ⟨next, put, same⟩ := Option.map_eq_some_iff.1 drew
    cases same
    obtain ⟨s', put', last⟩ := putVisible_sim sim alike put
    exact ⟨s', by rw [put']; rfl, last⟩

end

end Illinix.Console
