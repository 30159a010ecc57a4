/-
# Theory.Terminated -- zero-terminated data in a buffer

`untilZero buf n` is what lies before the first zero among the first `n` cells of
a buffer.  It is shorter than `n` if and only if there is a zero among them.
-/
import Mathlib.Data.List.TakeWhile
import Mathlib.Data.UInt

namespace Illinix.Theory

set_option autoImplicit false

variable {α : Type} [DecidableEq α] [Zero α]

def untilZero (buf : Nat → α) (n : Nat) : List α := ((List.range n).map buf).takeWhile (· ≠ 0)

theorem zero_notMem_untilZero (buf : Nat → α) (n : Nat) : (0 : α) ∉ untilZero buf n := by
  intro mem
  have kept := List.mem_takeWhile_imp mem
  simp at kept

theorem untilZero_congr {buf buf' : Nat → α} {n : Nat} (same : ∀ i, i < n → buf i = buf' i) :
    untilZero buf n = untilZero buf' n := by
  have cells : (List.range n).map buf = (List.range n).map buf' :=
    List.map_congr_left fun i mem => same i (List.mem_range.1 mem)
  rw [untilZero, cells, ← untilZero]

/-- One more cell matters if there was no zero before it. -/
theorem untilZero_succ (buf : Nat → α) (n : Nat) :
    untilZero buf (n + 1) =
      if (untilZero buf n).length = n ∧ buf n ≠ 0 then untilZero buf n ++ [buf n]
      else untilZero buf n := by
  rw [untilZero, List.range_succ, List.map_append, List.takeWhile_append, ← untilZero,
    List.length_map, List.length_range]
  by_cases full : (untilZero buf n).length = n
  · have whole : untilZero buf n = (List.range n).map buf :=
      (List.takeWhile_prefix _).eq_of_length (full.trans (by simp))
    rw [if_pos full, whole]
    by_cases zero : buf n = 0
    · simp [zero]
    · simp [zero]
  · rw [if_neg full, if_neg fun both => full both.1]

end Illinix.Theory
