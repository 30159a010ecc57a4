/-
# Theory.Chain -- parent pointers and the chains they make

Nodes with a parent pointer each, over any type.  `Chain parent p l b` says that
following the pointers from `p` visits the nodes `l` and ends at `b`, which has
none.  A `Forest` is a family of chains that share no node and together are the
live nodes: a set of stacks, kept as parent pointers.

`Forest.push` and `Forest.pop` are the two ways a stack changes.
-/
import Mathlib.Logic.Function.Basic

namespace Illinix.Theory

set_option autoImplicit false

universe u v

variable {α : Type u} {ι : Type v}

inductive Chain (parent : α → Option α) : α → List α → α → Prop where
  | root {b : α} (top : parent b = none) : Chain parent b [b] b
  | link {p q b : α} {l : List α} (up : parent p = some q) (rest : Chain parent q l b) :
      Chain parent p (p :: l) b

namespace Chain

variable {parent parent' : α → Option α} {p b : α} {l : List α}

theorem head_mem (chain : Chain parent p l b) : p ∈ l := by
  cases chain <;> simp

theorem base_mem (chain : Chain parent p l b) : b ∈ l := by
  induction chain with
  | root _ => simp
  | link _ _ ih => exact List.mem_cons_of_mem _ ih

/-- The pointers decide the chain. -/
theorem unique {l' : List α} {b' : α} (chain : Chain parent p l b)
    (chain' : Chain parent p l' b') : l' = l ∧ b' = b := by
  induction chain generalizing l' with
  | root top =>
      cases chain' with
      | root _ => exact ⟨rfl, rfl⟩
      | link up _ => simp [top] at up
  | link up _ ih =>
      cases chain' with
      | root top => simp [up] at top
      | link up' rest =>
          obtain rfl := Option.some.inj (up.symm.trans up')
          obtain ⟨rfl, rfl⟩ := ih rest
          exact ⟨rfl, rfl⟩

theorem congr (chain : Chain parent p l b) (same : ∀ a ∈ l, parent' a = parent a) :
    Chain parent' p l b := by
  induction chain with
  | root top => exact .root ((same _ (by simp)).trans top)
  | link up _ ih =>
      exact .link ((same _ (by simp)).trans up) (ih fun a mem => same a (by simp [mem]))

/-- Every node of a chain starts one, which is no longer. -/
theorem of_mem (chain : Chain parent p l b) {a : α} (mem : a ∈ l) :
    ∃ l', Chain parent a l' b ∧ l'.length ≤ l.length := by
  induction chain with
  | root top =>
      obtain rfl : a = _ := by simpa using mem
      exact ⟨_, .root top, Nat.le_refl _⟩
  | link up rest ih =>
      rcases List.mem_cons.1 mem with rfl | later
      · exact ⟨_, .link up rest, Nat.le_refl _⟩
      · obtain ⟨l', chain', short⟩ := ih later
        exact ⟨l', chain', Nat.le_succ_of_le short⟩

/-- A node is not among its own ancestors. -/
theorem head_not_mem {q : α} (up : parent p = some q) (rest : Chain parent q l b) : p ∉ l := by
  intro mem
  obtain ⟨l', again, short⟩ := rest.of_mem mem
  obtain ⟨rfl, _⟩ := (Chain.link up rest).unique again
  exact Nat.lt_irrefl _ short

/-- Above a node that has a parent is the parent's chain. -/
theorem above {q : α} (chain : Chain parent p l b) (up : parent p = some q) :
    ∃ rest, l = p :: rest ∧ Chain parent q rest b := by
  cases chain with
  | root top => simp [top] at up
  | link up' rest =>
      obtain rfl := Option.some.inj (up.symm.trans up')
      exact ⟨_, rfl, rest⟩

/-- Each node that is not the last has its parent in the chain. -/
theorem parent_mem (chain : Chain parent p l b) {a q : α} (mem : a ∈ l)
    (up : parent a = some q) : q ∈ l := by
  induction chain with
  | root top =>
      obtain rfl : a = _ := by simpa using mem
      simp [top] at up
  | link up' rest ih =>
      rcases List.mem_cons.1 mem with rfl | later
      · obtain rfl := Option.some.inj (up'.symm.trans up)
        exact List.mem_cons_of_mem _ rest.head_mem
      · exact List.mem_cons_of_mem _ (ih later)

/-- No node of a chain has its first one as its parent. -/
theorem head_childless (chain : Chain parent p l b) {a : α} (mem : a ∈ l) : parent a ≠ some p := by
  intro up
  obtain ⟨l', again, _⟩ := chain.of_mem mem
  obtain ⟨rest, _, above⟩ := again.above up
  obtain ⟨rfl, _⟩ := chain.unique above
  exact head_not_mem up chain mem

/-- A node is the parent of one node of the chain at most. -/
theorem child_unique {q : α} (chain : Chain parent p l b) {a a' : α} (mem : a ∈ l) (mem' : a' ∈ l)
    (up : parent a = some q) (up' : parent a' = some q) : a = a' := by
  induction chain with
  | root _ => exact (List.mem_singleton.1 mem).trans (List.mem_singleton.1 mem').symm
  | link first rest ih =>
      rcases List.mem_cons.1 mem with rfl | later <;> rcases List.mem_cons.1 mem' with rfl | later'
      · rfl
      · obtain rfl := Option.some.inj (first.symm.trans up)
        exact absurd up' (rest.head_childless later')
      · obtain rfl := Option.some.inj (first.symm.trans up')
        exact absurd up (rest.head_childless later)
      · exact ih later later'

end Chain

/-! ## Families of chains -/

structure Forest (parent : α → Option α) (live : α → Prop) (head base : ι → α)
    (chains : ι → List α) : Prop where
  chain : ∀ i, Chain parent (head i) (chains i) (base i)
  apart : ∀ i j a, a ∈ chains i → a ∈ chains j → i = j
  covers : ∀ a, live a ↔ ∃ i, a ∈ chains i

namespace Forest

variable {parent parent' : α → Option α} {live live' : α → Prop} {head head' base : ι → α}
  {chains : ι → List α}

theorem head_live (forest : Forest parent live head base chains) (i : ι) : live (head i) :=
  (forest.covers _).2 ⟨i, (forest.chain i).head_mem⟩

theorem base_live (forest : Forest parent live head base chains) (i : ι) : live (base i) :=
  (forest.covers _).2 ⟨i, (forest.chain i).base_mem⟩

theorem parent_live (forest : Forest parent live head base chains) {a q : α} (alive : live a)
    (up : parent a = some q) : live q := by
  obtain ⟨i, mem⟩ := (forest.covers a).1 alive
  exact (forest.covers q).2 ⟨i, (forest.chain i).parent_mem mem up⟩

/-- A live node is not its own parent. -/
theorem parent_ne (forest : Forest parent live head base chains) {a q : α} (alive : live a)
    (up : parent a = some q) : q ≠ a := by
  obtain ⟨i, mem⟩ := (forest.covers a).1 alive
  obtain ⟨l, chain, _⟩ := (forest.chain i).of_mem mem
  obtain ⟨rest, _, above⟩ := chain.above up
  rintro rfl
  exact Chain.head_not_mem up above above.head_mem

/-- No live node has the first one of a chain as its parent. -/
theorem head_childless (forest : Forest parent live head base chains) (i : ι) {a : α}
    (alive : live a) : parent a ≠ some (head i) := by
  intro up
  obtain ⟨j, mem⟩ := (forest.covers a).1 alive
  have same := forest.apart j i _ ((forest.chain j).parent_mem mem up) (forest.chain i).head_mem
  exact (forest.chain j).head_childless mem (same ▸ up)

theorem child_unique (forest : Forest parent live head base chains) {a a' q : α} (alive : live a)
    (alive' : live a') (up : parent a = some q) (up' : parent a' = some q) : a = a' := by
  obtain ⟨i, mem⟩ := (forest.covers a).1 alive
  obtain ⟨j, mem'⟩ := (forest.covers a').1 alive'
  have same := forest.apart i j q ((forest.chain i).parent_mem mem up)
    ((forest.chain j).parent_mem mem' up')
  exact (forest.chain i).child_unique mem (same ▸ mem') up up'

theorem head_injective (forest : Forest parent live head base chains) {i j : ι}
    (same : head i = head j) : i = j :=
  forest.apart i j (head i) (forest.chain i).head_mem (same ▸ (forest.chain j).head_mem)

theorem base_top (forest : Forest parent live head base chains) (i : ι) : parent (base i) = none := by
  obtain ⟨l, chain, _⟩ := (forest.chain i).of_mem (forest.chain i).base_mem
  cases chain with
  | root top => exact top
  | link up rest => exact absurd rest.base_mem (Chain.head_not_mem up rest)

variable [DecidableEq ι]

/-- A node that was not live goes on top of a stack. -/
theorem push (forest : Forest parent live head base chains) {i : ι} {c : α} (fresh : ¬live c)
    (up : parent' c = some (head i)) (same : ∀ a, live a → parent' a = parent a)
    (here : head' i = c) (others : ∀ j, j ≠ i → head' j = head j)
    (alive : ∀ a, live' a ↔ live a ∨ a = c) :
    Forest parent' live' head' base (Function.update chains i (c :: chains i)) := by
  have keep : ∀ j, Chain parent' (head j) (chains j) (base j) := fun j =>
    (forest.chain j).congr fun a mem => same a ((forest.covers a).2 ⟨j, mem⟩)
  have notIn : ∀ j, c ∉ chains j := fun j mem => fresh ((forest.covers c).2 ⟨j, mem⟩)
  have mem_iff : ∀ j a, a ∈ Function.update chains i (c :: chains i) j ↔
      a ∈ chains j ∨ a = c ∧ j = i := by
    intro j a
    by_cases eq : j = i
    · subst eq
      simp [or_comm]
    · simp [eq]
  refine ⟨fun j => ?_, fun j k a memJ memK => ?_, fun a => ?_⟩
  · by_cases eq : j = i
    · subst eq
      rw [Function.update_self, here]
      exact .link up (keep j)
    · rw [Function.update_of_ne eq, others j eq]
      exact keep j
  · rw [mem_iff] at memJ memK
    rcases memJ with memJ | ⟨rfl, rfl⟩ <;> rcases memK with memK | ⟨new, rfl⟩
    · exact forest.apart j k a memJ memK
    · exact absurd (new ▸ memJ) (notIn j)
    · exact absurd memK (notIn k)
    · rfl
  · simp only [alive, forest.covers, mem_iff, exists_or, exists_and_left, exists_eq, and_true]

/-- The top node of a stack goes; its parent is the new top. -/
theorem pop (forest : Forest parent live head base chains) {i : ι} {q : α}
    (up : parent (head i) = some q) (same : ∀ a, live a → a ≠ head i → parent' a = parent a)
    (here : head' i = q) (others : ∀ j, j ≠ i → head' j = head j)
    (alive : ∀ a, live' a ↔ live a ∧ a ≠ head i) :
    Forest parent' live' head' base (Function.update chains i (chains i).tail) := by
  obtain ⟨rest, whole, above⟩ := (forest.chain i).above up
  have gone : head i ∉ rest := Chain.head_not_mem up above
  have notIn : ∀ j, j ≠ i → head i ∉ chains j := fun j differ mem =>
    differ (forest.apart j i _ mem (forest.chain i).head_mem)
  have mem_iff : ∀ j a, a ∈ Function.update chains i (chains i).tail j ↔
      a ∈ chains j ∧ a ≠ head i := by
    intro j a
    by_cases eq : j = i
    · subst eq
      rw [Function.update_self, whole, List.tail_cons, List.mem_cons]
      constructor
      · exact fun mem => ⟨Or.inr mem, fun eq => gone (eq ▸ mem)⟩
      · rintro ⟨rfl | mem, differ⟩
        · exact absurd rfl differ
        · exact mem
    · rw [Function.update_of_ne eq]
      exact ⟨fun mem => ⟨mem, fun same => notIn j eq (same ▸ mem)⟩, fun both => both.1⟩
  refine ⟨fun j => ?_, fun j k a memJ memK => ?_, fun a => ?_⟩
  · have live_of : ∀ a, a ∈ chains j → live a := fun a mem => (forest.covers a).2 ⟨j, mem⟩
    by_cases eq : j = i
    · subst eq
      rw [Function.update_self, whole, List.tail_cons, here]
      refine above.congr fun a mem => same a (live_of a ?_) fun eq => gone (eq ▸ mem)
      rw [whole]
      exact List.mem_cons_of_mem _ mem
    · rw [Function.update_of_ne eq, others j eq]
      exact (forest.chain j).congr fun a mem =>
        same a (live_of a mem) fun same => notIn j eq (same ▸ mem)
  · rw [mem_iff] at memJ memK
    exact forest.apart j k a memJ.1 memK.1
  · simp only [alive, forest.covers, mem_iff, exists_and_right]

end Forest

end Illinix.Theory
