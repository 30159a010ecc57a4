/-
# Theory.Fields -- bit fields of a word

A word is a natural number, and a field of it is `width` bits from bit `lo` on,
as a `struct` of bit fields lays them out.  `Field.set` stores what fits of a
value.

A store is seen by a load of the same field (`get_set`) and by no load of a field
apart from it (`get_set_other`); both go by single bits.
-/
import Mathlib.Data.Nat.Bitwise

namespace Illinix.Theory

set_option autoImplicit false

structure Field where
  lo : Nat
  width : Nat
  deriving DecidableEq, Repr

namespace Field

def get (f : Field) (v : Nat) : Nat := v / 2 ^ f.lo % 2 ^ f.width

def set (f : Field) (v x : Nat) : Nat :=
  2 ^ f.lo * (2 ^ f.width * (v / 2 ^ (f.lo + f.width)) + x % 2 ^ f.width) + v % 2 ^ f.lo

/-- The fields share no bit. -/
def Apart (f g : Field) : Prop := f.lo + f.width ≤ g.lo ∨ g.lo + g.width ≤ f.lo

instance (f g : Field) : Decidable (Apart f g) := inferInstanceAs (Decidable (_ ∨ _))

variable {f g : Field}

theorem testBit_get (f : Field) (v i : Nat) :
    (f.get v).testBit i = (decide (i < f.width) && v.testBit (f.lo + i)) := by
  simp only [get]
  rw [Nat.testBit_mod_two_pow, Nat.testBit_div_two_pow, Nat.add_comm i]

theorem testBit_set (f : Field) (v x i : Nat) : (f.set v x).testBit i =
    if f.lo ≤ i ∧ i < f.lo + f.width then x.testBit (i - f.lo) else v.testBit i := by
  have low : v % 2 ^ f.lo < 2 ^ f.lo := Nat.mod_lt _ (Nat.two_pow_pos _)
  have value : x % 2 ^ f.width < 2 ^ f.width := Nat.mod_lt _ (Nat.two_pow_pos _)
  simp only [set]
  rw [Nat.testBit_two_pow_mul_add _ low]
  by_cases below : i < f.lo
  · rw [if_pos below, if_neg (by omega), Nat.testBit_mod_two_pow, decide_eq_true below, Bool.true_and]
  · rw [if_neg below, Nat.testBit_two_pow_mul_add _ value]
    by_cases inside : i - f.lo < f.width
    · rw [if_pos inside, if_pos (by omega), Nat.testBit_mod_two_pow, decide_eq_true inside,
        Bool.true_and]
    · rw [if_neg inside, if_neg (by omega), Nat.testBit_div_two_pow]
      congr 1
      omega

@[simp] theorem get_set (f : Field) (v x : Nat) : f.get (f.set v x) = x % 2 ^ f.width := by
  apply Nat.eq_of_testBit_eq
  intro i
  rw [testBit_get, testBit_set, Nat.testBit_mod_two_pow, Nat.add_sub_cancel_left]
  by_cases inside : i < f.width
  · rw [if_pos (by omega)]
  · rw [decide_eq_false inside, Bool.false_and, Bool.false_and]

theorem get_set_other (apart : Apart f g) (v x : Nat) : f.get (g.set v x) = f.get v := by
  simp only [Apart] at apart
  apply Nat.eq_of_testBit_eq
  intro i
  rw [testBit_get, testBit_get, testBit_set]
  by_cases inside : i < f.width
  · rw [if_neg (by omega)]
  · rw [decide_eq_false inside, Bool.false_and, Bool.false_and]

/-- The last of two stores stays. -/
@[simp] theorem set_set (f : Field) (v x y : Nat) : f.set (f.set v x) y = f.set v y := by
  apply Nat.eq_of_testBit_eq
  intro i
  rw [testBit_set, testBit_set, testBit_set]
  split_ifs <;> rfl

/-- Stores to fields apart from each other commute. -/
theorem set_comm (apart : Apart f g) (v x y : Nat) :
    f.set (g.set v y) x = g.set (f.set v x) y := by
  simp only [Apart] at apart
  apply Nat.eq_of_testBit_eq
  intro i
  rw [testBit_set, testBit_set, testBit_set, testBit_set]
  by_cases first : f.lo ≤ i ∧ i < f.lo + f.width
  · rw [if_pos first, if_neg (by omega), if_pos first]
  · rw [if_neg first, if_neg first]

/-- A store of what a field holds changes nothing. -/
theorem set_get {x : Nat} (f : Field) (v : Nat) (same : f.get v = x) : f.set v x = v := by
  apply Nat.eq_of_testBit_eq
  intro i
  rw [testBit_set, ← same]
  split_ifs with inside
  · rw [testBit_get, decide_eq_true (by omega), Bool.true_and, Nat.add_sub_cancel' inside.1]
  · rfl

/-- `v |= w` sets the bits of `w` in every field. -/
theorem get_or (f : Field) (v w : Nat) : f.get (v ||| w) = f.get v ||| f.get w := by
  apply Nat.eq_of_testBit_eq
  intro i
  rw [Nat.testBit_or, testBit_get, testBit_get, testBit_get, Nat.testBit_or, Bool.and_or_distrib_left]

end Field

end Illinix.Theory
