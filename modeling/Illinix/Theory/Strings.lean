/-
# Theory.Strings -- zero-terminated strings in a memory

`put mem pos l` is the memory with the list `l` stored from `pos` on, and
`Reads mem pos l` says that the memory has at `pos` the string `l`: its elements,
none of them 0, and then a 0.
-/
import Mathlib.Logic.Function.Basic
import Mathlib.Tactic.SplitIfs

namespace Illinix.Theory

set_option autoImplicit false

universe u

section

variable {β : Type u}

def put (mem : Nat → β) (pos : Nat) : List β → Nat → β
  | [] => mem
  | b :: l => put (Function.update mem pos b) (pos + 1) l

theorem put_append (l m : List β) : ∀ (mem : Nat → β) (pos : Nat),
    put mem pos (l ++ m) = put (put mem pos l) (pos + l.length) m := by
  induction l with
  | nil => exact fun _ _ => rfl
  | cons b l ih =>
      intro mem pos
      simp only [List.cons_append, put, ih, List.length_cons]
      rw [Nat.add_right_comm, Nat.add_assoc]

theorem put_concat (mem : Nat → β) (pos : Nat) (l : List β) (b : β) :
    put mem pos (l ++ [b]) = Function.update (put mem pos l) (pos + l.length) b := by
  rw [put_append]
  rfl

/-- Outside nothing changes. -/
theorem put_outside (l : List β) : ∀ (mem : Nat → β) (pos : Nat) {k : Nat},
    ¬(pos ≤ k ∧ k < pos + l.length) → put mem pos l k = mem k := by
  induction l with
  | nil => exact fun _ _ _ _ => rfl
  | cons b l ih =>
      intro mem pos k outside
      rw [List.length_cons] at outside
      rw [put, ih _ _ (by omega), Function.update_of_ne (by omega)]

theorem put_inside (l : List β) : ∀ (mem : Nat → β) (pos i : Nat) (inside : i < l.length),
    put mem pos l (pos + i) = l[i] := by
  induction l with
  | nil =>
      intro mem pos i inside
      cases inside
  | cons b l ih =>
      intro mem pos i inside
      cases i with
      | zero =>
          rw [put, put_outside l _ _ (by omega)]
          exact Function.update_self _ _ _
      | succ i =>
          have next : pos + (i + 1) = pos + 1 + i := by omega
          rw [put, next, ih _ _ _ (Nat.lt_of_succ_lt_succ inside)]
          rfl

/-- A memory is the other with the list stored if it agrees inside and outside. -/
theorem eq_put {mem mem' : Nat → β} {pos : Nat} {l : List β}
    (inside : ∀ i (low : i < l.length), mem' (pos + i) = l[i])
    (outside : ∀ k, ¬(pos ≤ k ∧ k < pos + l.length) → mem' k = mem k) : mem' = put mem pos l := by
  funext k
  by_cases within : pos ≤ k ∧ k < pos + l.length
  · obtain ⟨i, rfl⟩ := Nat.exists_eq_add_of_le within.1
    rw [put_inside l mem pos i (by omega), inside i (by omega)]
  · rw [put_outside l mem pos within, outside k within]

/-- A list stored right before another one. -/
theorem put_before (mem : Nat → β) (pos : Nat) (l m : List β) :
    put (put mem (pos + l.length) m) pos l = put mem pos (l ++ m) := by
  refine eq_put (fun i low => ?_) fun k outside => ?_
  · rw [List.length_append] at low
    by_cases first : i < l.length
    · rw [put_inside l _ _ i first, List.getElem_append_left first]
    · obtain ⟨j, rfl⟩ := Nat.exists_eq_add_of_le (Nat.le_of_not_lt first)
      rw [put_outside l _ _ (by omega), ← Nat.add_assoc, put_inside m _ _ j (by omega),
        List.getElem_append_right (by omega)]
      simp only [Nat.add_sub_cancel_left]
  · rw [List.length_append] at outside
    rw [put_outside l _ _ (by omega), put_outside m _ _ (by omega)]

/-- A list stored over the beginning of another one. -/
theorem put_over (mem : Nat → β) (pos : Nat) {l l' : List β} (same : l'.length = l.length)
    (m : List β) : put (put mem pos (l ++ m)) pos l' = put mem pos (l' ++ m) := by
  refine (eq_put (fun i low => ?_) fun k outside => ?_).symm
  · rw [put_inside _ mem pos i (by rw [List.length_append]; omega), List.getElem_append_left low]
  · by_cases behind : pos ≤ k ∧ k < pos + (l ++ m).length
    · obtain ⟨i, rfl⟩ := Nat.exists_eq_add_of_le behind.1
      have length : (l' ++ m).length = (l ++ m).length := by simp [same]
      have low : i < (l ++ m).length := by omega
      rw [put_inside _ mem pos i (length ▸ low), put_inside _ mem pos i low,
        List.getElem_append_right (by omega), List.getElem_append_right (by omega)]
      simp only [same]
    · rw [put_outside _ _ _ behind, put_outside]
      simpa [same] using behind

end

section

variable {β : Type u} [Zero β]

def Reads (mem : Nat → β) : Nat → List β → Prop
  | pos, [] => mem pos = 0
  | pos, b :: l => mem pos = b ∧ b ≠ 0 ∧ Reads mem (pos + 1) l

variable {mem : Nat → β}

theorem Reads.append {pos : Nat} {l m : List β} (reads : Reads mem pos (l ++ m)) :
    Reads mem (pos + l.length) m := by
  induction l generalizing pos with
  | nil => exact reads
  | cons b l ih =>
      have rest := ih reads.2.2
      rwa [Nat.add_assoc, Nat.add_comm 1] at rest

theorem Reads.getElem {pos : Nat} {l : List β} (reads : Reads mem pos l) :
    ∀ i (low : i < l.length), mem (pos + i) = l[i] := by
  induction l generalizing pos with
  | nil =>
      intro i low
      cases low
  | cons b l ih =>
      intro i low
      cases i with
      | zero => exact reads.1
      | succ i =>
          have next := ih reads.2.2 i (Nat.lt_of_succ_lt_succ low)
          rwa [Nat.add_right_comm] at next

theorem reads_put (l : List β) : ∀ (mem : Nat → β) (pos : Nat), (∀ b ∈ l, b ≠ 0) →
    Reads (put mem pos (l ++ [0])) pos l := by
  induction l with
  | nil => exact fun mem pos _ => Function.update_self _ _ _
  | cons b l ih =>
      intro mem pos nonzero
      refine ⟨?_, nonzero b (by simp), ih _ _ fun c mem => nonzero c (by simp [mem])⟩
      exact put_inside (b :: l ++ [0]) mem pos 0 (by simp)

end

end Illinix.Theory
