/-
# Console.Frame -- what putc leaves alone

`putc` reaches video memory through loads and stores only.  So what no store
changes, `putc` does not change: `putc_keep`, for any property of the memory.
-/
import Illinix.Console.Putc
import Mathlib.Tactic.SplitIfs

namespace Illinix.Console

set_option autoImplicit false

variable {M : Type}

/-! ## What every store keeps, the console keeps -/

theorem retreat_vid {s s' : Screen M} (back : s.retreat = some s') : s'.vid = s.vid := by
  simp only [Screen.retreat] at back
  split_ifs at back <;> obtain rfl := Option.some.inj back <;> rfl

section

variable [Video M] {P : M → Prop} (keep : ∀ m i c m', Video.store m i c = some m' → P m → P m')

include keep

theorem moveRows_keep (n : Nat) : ∀ (i : Int) (m m' : M), moveRows n i m = some m' → P m → P m' := by
  induction n with
  | zero =>
      intro i m m' moved holds
      obtain rfl := Option.some.inj moved
      exact holds
  | succ n ih =>
      intro i m m' moved holds
      simp only [moveRows, Option.bind_eq_bind, Option.bind_eq_some_iff] at moved
      obtain ⟨cell, _, mid, stored, later⟩ := moved
      exact ih (i + 1) mid m' later (keep m i cell mid stored holds)

theorem fillCells_keep (cell : Cell) (n : Nat) :
    ∀ (i : Int) (m m' : M), fillCells cell n i m = some m' → P m → P m' := by
  induction n with
  | zero =>
      intro i m m' filled holds
      obtain rfl := Option.some.inj filled
      exact holds
  | succ n ih =>
      intro i m m' filled holds
      simp only [fillCells, Option.bind_eq_bind, Option.bind_eq_some_iff] at filled
      obtain ⟨mid, stored, later⟩ := filled
      exact ih (i + 1) mid m' later (keep m i cell mid stored holds)

theorem clearCells_keep {m m' : M} (cleared : clearCells m = some m') (holds : P m) : P m' :=
  fillCells_keep keep _ (25 * 80) 0 m m' cleared holds

theorem scroll_keep {s s' : Screen M} (scrolled : scroll s = some s') (holds : P s.vid) :
    P s'.vid := by
  simp only [scroll, Option.bind_eq_bind, Option.bind_eq_some_iff] at scrolled
  obtain ⟨moved, first, filled, second, done⟩ := scrolled
  obtain rfl := Option.some.inj done
  exact fillCells_keep keep _ _ _ _ _ second (moveRows_keep keep _ _ _ _ first holds)

theorem nextRow_keep {s s' : Screen M} (next : nextRow s = some s') (holds : P s.vid) :
    P s'.vid := by
  simp only [nextRow] at next
  split_ifs at next
  · exact scroll_keep keep next holds
  · obtain rfl := Option.some.inj next
    exact holds

theorem eraseCells_keep (n : Nat) : ∀ (offset : Int) (s : Screen M) (r : Screen M × Bool),
    eraseCells n offset s = some r → P s.vid → P r.1.vid := by
  induction n with
  | zero =>
      intro offset s r erased holds
      obtain rfl := Option.some.inj erased
      exact holds
  | succ n ih =>
      intro offset s r erased holds
      simp only [eraseCells] at erased
      split at erased
      · obtain rfl := Option.some.inj erased
        exact holds
      · rename_i back eq
        simp only [Option.bind_eq_bind, Option.bind_eq_some_iff] at erased
        obtain ⟨mid, stored, erased⟩ := erased
        have kept := keep _ _ _ _ stored ((retreat_vid eq).symm ▸ holds)
        split_ifs at erased with last
        · obtain rfl := Option.some.inj erased
          exact kept
        · obtain ⟨cell, _, erased⟩ := Option.bind_eq_some_iff.1 erased
          split_ifs at erased
          · exact ih _ _ _ erased kept
          · obtain rfl := Option.some.inj erased
            exact kept

theorem fillTab_keep (n : Nat) : ∀ (offset : Int) (s s' : Screen M),
    fillTab n offset s = some s' → P s.vid → P s'.vid := by
  induction n with
  | zero =>
      intro offset s s' filled holds
      obtain rfl := Option.some.inj filled
      exact holds
  | succ n ih =>
      intro offset s s' filled holds
      simp only [fillTab, Option.bind_eq_bind, Option.bind_eq_some_iff] at filled
      obtain ⟨mid, stored, later⟩ := filled
      exact ih _ _ _ later (keep _ _ _ _ stored holds)

theorem putc_keep {c : UInt8} {s : Screen M} {r : Screen M × Bool} (drew : putc c s = some r)
    (holds : P s.vid) : P r.1.vid := by
  simp only [putc] at drew
  split_ifs at drew
  · obtain ⟨s', next, rfl⟩ := Option.map_eq_some_iff.1 drew
    exact nextRow_keep keep next holds
  · simp only [backspace, Option.bind_eq_bind, Option.bind_eq_some_iff] at drew
    obtain ⟨cell, _, erased⟩ := drew
    exact eraseCells_keep keep _ _ _ _ erased holds
  · obtain ⟨s', tabbed, rfl⟩ := Option.map_eq_some_iff.1 drew
    exact fillTab_keep keep _ _ _ _ tabbed holds
  · obtain ⟨s', put, rfl⟩ := Option.map_eq_some_iff.1 drew
    simp only [putVisible, Option.bind_eq_bind, Option.bind_eq_some_iff] at put
    obtain ⟨mid, stored, put⟩ := put
    have kept := keep _ _ _ _ stored holds
    split_ifs at put
    · exact nextRow_keep keep put kept
    · obtain rfl := Option.some.inj put
      exact kept

end

end Illinix.Console
