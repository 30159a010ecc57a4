/-
# FileSys.Listing -- the directory as a list searched by name

The entries 0 to `dentry_count - 1` are a table keyed by their stored names.
`readDentryByName_lookup` says that the search of `read_dentry_by_name` is the
search in this table.
-/
import Illinix.FileSys.Directory
import Illinix.Theory.Keyed

namespace Illinix.FileSys

open Illinix.Theory

set_option autoImplicit false

/-- The directory: the entries before `dentry_count`. -/
def BootBlock.entries (b : BootBlock) : List Dentry := firsts b.dentries b.dentryCount

/-- No two entries have one name. -/
def DistinctNames (b : BootBlock) : Prop := Distinct Dentry.name b.entries

theorem Dentry.name_length_le (d : Dentry) : d.name.length ≤ fsMaxLen :=
  (List.takeWhile_sublist _).length_le.trans (by simp)

theorem entries_getElem? (b : BootBlock) (i : Nat) :
    b.entries[i]? = if i < b.dentryCount then some (b.dentries i) else none :=
  firsts_getElem? _ _ _

@[simp] theorem entries_length (b : BootBlock) : b.entries.length = b.dentryCount :=
  firsts_length _ _

theorem distinctNames_iff {b : BootBlock} : DistinctNames b ↔
    ∀ i j, i < b.dentryCount → j < b.dentryCount →
      (b.dentries i).name = (b.dentries j).name → i = j := by
  constructor
  · intro distinct i j low high same
    exact distinct.index_unique ((entries_getElem? b i).trans (if_pos low))
      ((entries_getElem? b j).trans (if_pos high)) same
  · intro unique
    simp only [DistinctNames, Distinct, BootBlock.entries, firsts]
    rw [List.map_map]
    refine List.Nodup.map_on (fun i low j high same => ?_) List.nodup_range
    exact unique i j (List.mem_range.1 low) (List.mem_range.1 high) same

/-! ## The search -/

theorem findDentry_lookup {b : BootBlock} {s : CString} (n : Nat) :
    ∀ (i : Nat) {found : Option (Nat × Dentry)}, findDentry b s n i = some found →
      found.map Prod.snd = lookup Dentry.name s.bytes ((List.range' i n).map b.dentries) := by
  induction n with
  | zero =>
      intro i found looked
      obtain rfl := Option.some.inj looked
      rfl
  | succ n ih =>
      intro i found looked
      rw [List.range'_succ, List.map_cons, lookup_cons]
      simp only [findDentry] at looked
      split_ifs at looked with inside here
      · obtain rfl := Option.some.inj looked
        rw [if_pos ((named_iff _ _).1 here)]
        rfl
      · rw [if_neg fun same => here ((named_iff _ _).2 same)]
        exact ih (i + 1) looked

/-- **The search of the code is the search in the table.** -/
theorem readDentryByName_lookup {fs : Fs} {s : CString} {found : Option (Nat × Dentry)}
    (looked : readDentryByName fs (some s) = some found) :
    found.map Prod.snd = lookup Dentry.name s.bytes fs.bootBlock.entries := by
  have same := findDentry_lookup _ _ looked
  rwa [← List.range_eq_range'] at same

/-- What is found stands in the table, at the index found. -/
theorem readDentryByName_entry {fs : Fs} {s : CString} {index : Nat} {d : Dentry}
    (looked : readDentryByName fs (some s) = some (some (index, d))) :
    fs.bootBlock.entries[index]? = some d ∧ d.name = s.bytes := by
  obtain ⟨inside, rfl, s', same, name⟩ := readDentryByName_some looked
  obtain rfl := Option.some.inj same
  exact ⟨(entries_getElem? _ _).trans (if_pos inside), name⟩

end Illinix.FileSys
