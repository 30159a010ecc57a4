/-
# Theory.Numerals -- numerals in a radix

Lists of digits, the most significant first.  `Numeral radix value digits` says
that the digits are a numeral of the value: they are below the radix, they read
as the value, and 0 is the first of them only in the numeral of 0.

Every value has one numeral and no other (`numeral_isNumeral`,
`Numeral.eq_numeral`).
-/
import Mathlib.Data.Nat.Digits.Lemmas

namespace Illinix.Theory

set_option autoImplicit false

/-- What the digits read as. -/
def numeralValue (radix : Nat) (digits : List Nat) : Nat :=
  digits.foldl (fun value digit => digit + radix * value) 0

structure Numeral (radix value : Nat) (digits : List Nat) : Prop where
  below : ∀ d ∈ digits, d < radix
  reads : numeralValue radix digits = value
  some' : digits ≠ []
  leading : digits.head? = some 0 → digits = [0]

def numeral (radix value : Nat) : List Nat :=
  if value = 0 then [0] else (Nat.digits radix value).reverse

variable {radix value : Nat} {digits : List Nat}

theorem numeralValue_reverse (radix : Nat) (digits : List Nat) :
    numeralValue radix digits.reverse = Nat.ofDigits radix digits := by
  rw [numeralValue, List.foldl_reverse, Nat.ofDigits_eq_foldr]
  rfl

/-- Zeros in front change nothing. -/
theorem numeralValue_zeros (radix n : Nat) (digits : List Nat) :
    numeralValue radix (List.replicate n 0 ++ digits) = numeralValue radix digits := by
  induction n with
  | zero => rfl
  | succ n ih => simpa [numeralValue, List.replicate_succ] using ih

theorem numeral_of_ne_zero (some' : value ≠ 0) :
    numeral radix value = (Nat.digits radix value).reverse := if_neg some'

theorem numeral_isNumeral (large : 1 < radix) (value : Nat) :
    Numeral radix value (numeral radix value) := by
  by_cases zero : value = 0
  · subst zero
    refine ⟨fun d mem => ?_, rfl, by simp [numeral], fun _ => rfl⟩
    obtain rfl := List.mem_singleton.1 mem
    exact Nat.zero_lt_of_lt large
  · rw [numeral_of_ne_zero zero]
    have nonempty : Nat.digits radix value ≠ [] := Nat.digits_ne_nil_iff_ne_zero.2 zero
    refine ⟨fun d mem => ?_, ?_, by simpa using nonempty, fun leading => ?_⟩
    · exact Nat.digits_lt_base large (List.mem_reverse.1 mem)
    · rw [numeralValue_reverse, Nat.ofDigits_digits]
    · rw [List.head?_reverse, List.getLast?_eq_some_getLast nonempty] at leading
      exact absurd (Option.some.inj leading) (Nat.getLast_digit_ne_zero radix zero)

/-- There is no other. -/
theorem Numeral.eq_numeral (isNumeral : Numeral radix value digits) (large : 1 < radix) :
    digits = numeral radix value := by
  obtain ⟨below, rfl, some', leading⟩ := isNumeral
  by_cases zero : digits.head? = some 0
  · rw [leading zero]
    simp [numeral, numeralValue]
  · have reads : Nat.ofDigits radix digits.reverse = numeralValue radix digits := by
      rw [← numeralValue_reverse, List.reverse_reverse]
    have same : Nat.digits radix (numeralValue radix digits) = digits.reverse := by
      rw [← reads]
      refine Nat.digits_ofDigits radix large _ (fun d mem => below d (List.mem_reverse.1 mem)) ?_
      intro nonempty last
      refine zero ?_
      rw [← List.getLast?_reverse, List.getLast?_eq_some_getLast nonempty, last]
    have positive : numeralValue radix digits ≠ 0 := by
      intro null
      rw [null, Nat.digits_zero] at same
      exact some' (List.reverse_eq_nil_iff.1 same.symm)
    rw [numeral_of_ne_zero positive, same, List.reverse_reverse]

/-- Digits enough for every value below a power. -/
theorem numeral_length_le (large : 1 < radix) {k : Nat} (small : value < radix ^ k)
    (some' : 0 < k) : (numeral radix value).length ≤ k := by
  by_cases zero : value = 0
  · simpa [zero, numeral] using Nat.succ_le_of_lt some'
  · rw [numeral_of_ne_zero zero, List.length_reverse]
    exact (Nat.digits_length_le_iff large value).2 small

end Illinix.Theory
