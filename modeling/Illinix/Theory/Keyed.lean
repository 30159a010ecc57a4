/-
# Theory.Keyed -- lists searched by key

A table kept as a list: each entry has a key, a search takes the first entry with
the key.  New entries go to the end, an entry is removed by its index
(`lookup_eraseIdx_self`, `lookup_eraseIdx_of_ne`).  `Distinct` says that no two
entries have one key: the index of a key is then unique (`Distinct.index_unique`),
and a new entry keeps it so if the search for its key fails (`distinct_concat`).
-/
import Mathlib.Data.List.Nodup

namespace Illinix.Theory

set_option autoImplicit false

universe u v

variable {α : Type u} {κ : Type v}

/-- No two entries have one key. -/
def Distinct (key : α → κ) (table : List α) : Prop := (table.map key).Nodup

section

variable {key : α → κ} {table : List α} {a b : α} {i j : Nat}

theorem Distinct.index_unique (distinct : Distinct key table) (here : table[i]? = some a)
    (there : table[j]? = some b) (same : key a = key b) : i = j := by
  obtain ⟨low, rfl⟩ := List.getElem?_eq_some_iff.1 here
  obtain ⟨high, rfl⟩ := List.getElem?_eq_some_iff.1 there
  have low' : i < (table.map key).length := by simpa using low
  have high' : j < (table.map key).length := by simpa using high
  have same' : (table.map key)[i] = (table.map key)[j] := by simpa using same
  exact distinct.getElem_inj_iff.1 same'

theorem Distinct.eraseIdx (distinct : Distinct key table) (i : Nat) :
    Distinct key (table.eraseIdx i) :=
  List.Nodup.sublist ((List.eraseIdx_sublist table i).map key) distinct

end

variable [DecidableEq κ] (key : α → κ)

/-- The first entry with the key. -/
def lookup (k : κ) (table : List α) : Option α := table.find? fun a => key a = k

variable {key} {k : κ} {table : List α} {a : α} {i : Nat}

theorem lookup_cons : lookup key k (a :: table) = if key a = k then some a else lookup key k table := by
  simp only [lookup, List.find?_cons]
  split <;> simp_all

theorem lookup_eq_none : lookup key k table = none ↔ ∀ a, a ∈ table → key a ≠ k := by
  simp [lookup]

/-! ## A new entry at the end -/

theorem distinct_concat : Distinct key (table ++ [a]) ↔
    Distinct key table ∧ lookup key (key a) table = none := by
  rw [Distinct, List.map_append, List.map_singleton, ← List.concat_eq_append, List.nodup_concat,
    lookup_eq_none]
  constructor
  · rintro ⟨fresh, distinct⟩
    exact ⟨distinct, fun b mem same => fresh (List.mem_map.2 ⟨b, mem, same⟩)⟩
  · rintro ⟨distinct, fresh⟩
    refine ⟨fun mem => ?_, distinct⟩
    obtain ⟨b, mem', same⟩ := List.mem_map.1 mem
    exact fresh b mem' same

/-! ## An entry removed -/

/-- Under other keys a search finds what it found. -/
theorem lookup_eraseIdx_of_ne (here : table[i]? = some a) (apart : key a ≠ k) :
    lookup key k (table.eraseIdx i) = lookup key k table := by
  induction table generalizing i with
  | nil => rfl
  | cons b rest ih =>
      cases i with
      | zero =>
          obtain rfl := Option.some.inj here
          rw [List.eraseIdx_cons_zero, lookup_cons, if_neg apart]
      | succ i => rw [List.eraseIdx_cons_succ, lookup_cons, lookup_cons, ih here]

/-- Under the key of the removed entry it finds nothing. -/
theorem lookup_eraseIdx_self (distinct : Distinct key table) (here : table[i]? = some a) :
    lookup key (key a) (table.eraseIdx i) = none := by
  rw [lookup_eq_none]
  intro b mem same
  obtain ⟨j, apart, there⟩ := List.mem_eraseIdx_iff_getElem?.1 mem
  exact apart (distinct.index_unique there here same)

end Illinix.Theory
