/-
# Theory.Linked -- doubly linked lists

Nodes of any type with a pointer back and one forward, `null` for neither.
`Segment prev next null q l e` says that the nodes `l` are linked both ways, the
first back to `q` and the last on to `e`; a whole list has `null` for both.

A concatenation is two segments (`segment_append`), and the two ends of a segment
can be tied to other nodes (`Segment.tieHead`, `Segment.tieLast`): taking a node
out is one of each (`Segment.unlink`).
-/
import Mathlib.Data.List.Basic

namespace Illinix.Theory

set_option autoImplicit false

universe u

variable {α : Type u}

def Segment (prev next : α → α) (null : α) : α → List α → α → Prop
  | _, [], _ => True
  | q, a :: rest, e =>
      a ≠ null ∧ prev a = q ∧ next a = rest.headD e ∧ Segment prev next null a rest e

variable {prev next prev' next' : α → α} {null q q' e e' : α} {l : List α}

theorem segment_append (l m : List α) : ∀ q : α, Segment prev next null q (l ++ m) e ↔
    Segment prev next null q l (m.headD e) ∧ Segment prev next null (l.getLastD q) m e := by
  induction l with
  | nil => exact fun q => by simp [Segment]
  | cons a rest ih =>
      intro q
      have seam : (rest ++ m).headD e = rest.headD (m.headD e) := by
        cases rest <;> rfl
      simp only [List.cons_append, Segment, ih, seam, List.getLastD_cons, and_assoc]

namespace Segment

theorem ne_null (segment : Segment prev next null q l e) {a : α} (mem : a ∈ l) : a ≠ null := by
  induction l generalizing q with
  | nil => cases mem
  | cons b rest ih =>
      rcases List.mem_cons.1 mem with rfl | later
      · exact segment.1
      · exact ih segment.2.2.2 later

theorem congr (segment : Segment prev next null q l e) (back : ∀ a ∈ l, prev' a = prev a)
    (on : ∀ a ∈ l, next' a = next a) : Segment prev' next' null q l e := by
  induction l generalizing q with
  | nil => trivial
  | cons a rest ih =>
      obtain ⟨some', backA, onA, more⟩ := segment
      refine ⟨some', (back a (by simp)).trans backA, (on a (by simp)).trans onA, ?_⟩
      exact ih more (fun b mem => back b (by simp [mem])) fun b mem => on b (by simp [mem])

/-- The first node tied back to `q'`. -/
theorem tieHead (segment : Segment prev next null q l e) (head : ∀ a ∈ l.head?, prev' a = q')
    (back : ∀ a ∈ l.tail, prev' a = prev a) (on : ∀ a ∈ l, next' a = next a) :
    Segment prev' next' null q' l e := by
  cases l with
  | nil => trivial
  | cons a rest =>
      obtain ⟨some', _, onA, more⟩ := segment
      refine ⟨some', head a rfl, (on a (by simp)).trans onA, ?_⟩
      exact more.congr back fun b mem => on b (by simp [mem])

/-- The last node tied on to `e'`. -/
theorem tieLast (segment : Segment prev next null q l e) (last : ∀ a ∈ l.getLast?, next' a = e')
    (on : ∀ a ∈ l.dropLast, next' a = next a) (back : ∀ a ∈ l, prev' a = prev a) :
    Segment prev' next' null q l e' := by
  induction l generalizing q with
  | nil => trivial
  | cons a rest ih =>
      obtain ⟨some', backA, onA, more⟩ := segment
      refine ⟨some', (back a (by simp)).trans backA, ?_, ?_⟩
      · cases rest with
        | nil => exact last a rfl
        | cons b rest => exact (on a (by simp)).trans onA
      · cases rest with
        | nil => trivial
        | cons b rest =>
            refine ih more (fun c mem => last c ?_) (fun c mem => on c ?_) fun c mem => back c ?_
            · rwa [List.getLast?_cons_cons]
            · simp only [List.dropLast_cons_cons, List.mem_cons]
              exact Or.inr mem
            · exact List.mem_cons_of_mem _ mem

section

variable [DecidableEq α] {before after : List α} {b : α}

/-- The nodes before `b`, tied on to `e'` in its place. -/
theorem redirect (whole : Segment prev next null null (before ++ b :: after) null)
    (nodup : (before ++ b :: after).Nodup) (back : ∀ a ∈ before, prev' a = prev a)
    (on : ∀ a ∈ before, next' a = if a = prev b then e' else next a) :
    Segment prev' next' null null before e' := by
  obtain ⟨first, _, backB, _, _⟩ := (segment_append _ _ _).1 whole
  refine first.tieLast (fun a last => ?_) (fun a mem => ?_) back
  · have here : prev b = a := by rw [backB, List.getLastD_eq_getLast?, last, Option.getD_some]
    rw [on a (List.mem_of_getLast? last), if_pos here.symm]
  · have apart : a ≠ prev b := by
      rcases List.eq_nil_or_concat' before with rfl | ⟨front, p, rfl⟩
      · cases mem
      · rw [List.dropLast_concat] at mem
        rw [backB, List.getLastD_concat]
        exact (List.nodup_append.1 (List.nodup_append.1 nodup).1).2.2 a mem p (by simp)
    rw [on a (List.dropLast_subset _ mem), if_neg apart]

/-- A node taken out: its neighbours are tied to each other. -/
theorem unlink (whole : Segment prev next null null (before ++ b :: after) null)
    (nodup : (before ++ b :: after).Nodup)
    (back : ∀ a ∈ before ++ after, prev' a = if a = next b then prev b else prev a)
    (on : ∀ a ∈ before ++ after, next' a = if a = prev b then next b else next a) :
    Segment prev' next' null null (before ++ after) null := by
  obtain ⟨first, _, backB, onB, second⟩ := (segment_append _ _ _).1 whole
  obtain ⟨_, nodupRest, disjoint⟩ := List.nodup_append.1 nodup
  have left : ∀ a ∈ before, a ∈ before ++ after := fun a => List.mem_append_left _
  have right : ∀ a ∈ after, a ∈ before ++ after := fun a => List.mem_append_right _
  refine (segment_append _ _ _).2 ⟨?_, ?_⟩
  · rw [← onB]
    refine whole.redirect nodup (fun a mem => ?_) fun a mem => on a (left a mem)
    have apart : a ≠ next b := by
      rw [onB]
      cases after with
      | nil => exact first.ne_null mem
      | cons n rest => exact disjoint a mem n (by simp)
    rw [back a (left a mem), if_neg apart]
  · refine second.tieHead (fun a head => ?_) (fun a mem => ?_) fun a mem => ?_
    · have here : next b = a := by rw [onB, List.headD_eq_head?_getD, head, Option.getD_some]
      rw [back a (right a (List.mem_of_head? head)), if_pos here.symm, backB]
    · have apart : a ≠ next b := by
        rw [onB]
        cases after with
        | nil => cases mem
        | cons n rest =>
            have nodupAfter := (List.nodup_cons.1 nodupRest).2
            exact ne_of_mem_of_not_mem mem (List.nodup_cons.1 nodupAfter).1
      rw [back a (right a (List.mem_of_mem_tail mem)), if_neg apart]
    · have apart : a ≠ prev b := by
        rw [backB]
        rcases List.eq_nil_or_concat' before with rfl | ⟨front, p, rfl⟩
        · exact second.ne_null mem
        · rw [List.getLastD_concat]
          exact (disjoint p (by simp) a (by simp [mem])).symm
      rw [on a (right a mem), if_neg apart]

end

theorem next_mem (whole : Segment prev next null q l null) {a : α} (mem : a ∈ l) :
    next a = null ∨ next a ∈ l := by
  induction l generalizing q with
  | nil => cases mem
  | cons b rest ih =>
      rcases List.mem_cons.1 mem with rfl | later
      · cases rest with
        | nil => exact Or.inl whole.2.2.1
        | cons c rest => exact Or.inr (by simp [whole.2.2.1])
      · exact (ih whole.2.2.2 later).imp_right (List.mem_cons_of_mem _)

/-- A list that has the first node of a path has its end. -/
theorem reach {m : List α} (path : Segment prev next null q m e) (some' : e ≠ null)
    (whole : Segment prev' next null q' l null) (head : m.headD e ∈ l) : e ∈ l := by
  induction m generalizing q with
  | nil => exact head
  | cons a rest ih =>
      obtain ⟨_, _, onA, more⟩ := path
      have second : rest.headD e ≠ null := by
        cases rest with
        | nil => exact some'
        | cons b rest => exact more.1
      rcases whole.next_mem head with stop | on
      · exact absurd (onA.symm.trans stop) second
      · exact ih more (onA ▸ on)

end Segment

end Illinix.Theory
