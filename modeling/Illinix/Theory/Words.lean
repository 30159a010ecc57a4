/-
# Theory.Words -- the words of a list

The words are the maximal runs of elements that are not separators.  `words_eq`
takes them off one by one: skip the separators, then take what is not one.  A
scanner that does so with a position in the list goes on from `i` to `scan p l i`,
the first place from `i` on where `p` fails.
-/
import Mathlib.Data.List.TakeWhile

namespace Illinix.Theory

set_option autoImplicit false

universe u

variable {α : Type u}

/-- The pieces between separators, less the empty ones. -/
def words (sep : α → Bool) (l : List α) : List (List α) :=
  (l.splitOnP sep).filter fun piece => !piece.isEmpty

section

variable {sep : α → Bool}

@[simp] theorem words_nil : words sep [] = [] := rfl

theorem words_cons_sep {a : α} (here : sep a = true) (l : List α) :
    words sep (a :: l) = words sep l := by
  rw [words, List.splitOnP_cons_eq_if_modifyHead, if_pos here, List.filter_cons_of_neg (by simp),
    ← words]

theorem words_dropWhile (l : List α) : words sep (l.dropWhile sep) = words sep l := by
  induction l with
  | nil => rfl
  | cons a l ih =>
      by_cases here : sep a = true
      · rw [List.dropWhile_cons_of_pos here, ih, words_cons_sep here]
      · rw [List.dropWhile_cons_of_neg here]

/-- A run with a separator behind it, or with nothing. -/
theorem words_append {word rest : List α} (some' : word ≠ []) (run : ∀ a ∈ word, sep a = false)
    (ends : ∀ a ∈ rest.head?, sep a = true) : words sep (word ++ rest) = word :: words sep rest := by
  have kept (pieces : List (List α)) : (word :: pieces).filter (fun piece => !piece.isEmpty) =
      word :: pieces.filter fun piece => !piece.isEmpty := by
    rw [List.filter_cons_of_pos (by simpa using some')]
  cases rest with
  | nil =>
      rw [List.append_nil, words, List.splitOnP_eq_singleton run, kept]
      rfl
  | cons a rest =>
      have here : sep a = true := ends a rfl
      rw [words, List.splitOnP_append_cons_of_forall_mem run a here,
        kept, ← words, words_cons_sep here]

theorem dropWhile_head {p : α → Bool} (l : List α) :
    ∀ a ∈ (l.dropWhile p).head?, p a = false := by
  intro a mem
  have ends := List.head?_dropWhile_not p l
  rw [Option.mem_def.1 mem] at ends
  simpa using ends

/-- **The words, one by one.** -/
theorem words_eq (sep : α → Bool) (l : List α) : words sep l =
    if l.dropWhile sep = [] then []
    else (l.dropWhile sep).takeWhile (fun a => !sep a) ::
      words sep ((l.dropWhile sep).dropWhile fun a => !sep a) := by
  rw [← words_dropWhile]
  split_ifs with ended
  · rw [ended, words_nil]
  · obtain ⟨a, rest, more⟩ := List.exists_cons_of_ne_nil ended
    have start : sep a = false := dropWhile_head l a (by rw [more]; rfl)
    have whole := List.takeWhile_append_dropWhile (p := fun a => !sep a) (l := l.dropWhile sep)
    have some' : (l.dropWhile sep).takeWhile (fun a => !sep a) ≠ [] := by
      rw [more, List.takeWhile_cons_of_pos (by simp [start])]
      exact List.cons_ne_nil _ _
    have run : ∀ b ∈ (l.dropWhile sep).takeWhile (fun a => !sep a), sep b = false := by
      intro b mem
      simpa using List.mem_takeWhile_imp mem
    have ends : ∀ b ∈ ((l.dropWhile sep).dropWhile fun a => !sep a).head?, sep b = true := by
      intro b mem
      simpa using dropWhile_head _ b mem
    rw [← words_append some' run ends, whole]

end

/-! ## Positions -/

/-- Where a scan from `i` ends that goes on while `p` holds. -/
def scan (p : α → Bool) (l : List α) (i : Nat) : Nat := i + ((l.drop i).takeWhile p).length

section

variable {p : α → Bool} {l : List α} {i : Nat}

theorem le_scan (p : α → Bool) (l : List α) (i : Nat) : i ≤ scan p l i := Nat.le_add_right _ _

theorem scan_le (inside : i ≤ l.length) : scan p l i ≤ l.length := by
  have short := (List.takeWhile_sublist (l := l.drop i) p).length_le
  rw [List.length_drop] at short
  simp only [scan]
  omega

theorem drop_scan (p : α → Bool) (l : List α) (i : Nat) :
    l.drop (scan p l i) = (l.drop i).dropWhile p := by
  have whole := List.takeWhile_append_dropWhile (p := p) (l := l.drop i)
  have cut : ((l.drop i).takeWhile p ++ (l.drop i).dropWhile p).drop
      ((l.drop i).takeWhile p).length = (l.drop i).dropWhile p := List.drop_left' rfl
  rw [scan, ← List.drop_drop]
  rwa [whole] at cut

/-- A scan that has not come to the end has come to an element where `p` fails. -/
theorem scan_stops (more : scan p l i < l.length) : p l[scan p l i] = false := by
  have stopped := dropWhile_head (p := p) (l.drop i)
  rw [← drop_scan, List.drop_eq_getElem_cons more] at stopped
  exact stopped _ rfl

@[simp] theorem scan_end (p : α → Bool) (l : List α) : scan p l l.length = l.length := by
  simp [scan]

theorem scan_pos (inside : i < l.length) (here : p l[i] = true) :
    scan p l i = scan p l (i + 1) := by
  rw [scan, List.drop_eq_getElem_cons inside, List.takeWhile_cons_of_pos here, List.length_cons,
    scan]
  omega

theorem scan_neg (inside : i < l.length) (here : ¬p l[i] = true) : scan p l i = i := by
  rw [scan, List.drop_eq_getElem_cons inside, List.takeWhile_cons_of_neg here, List.length_nil,
    Nat.add_zero]

end

end Illinix.Theory
