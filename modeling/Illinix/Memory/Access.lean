/-
# Memory.Access -- which pages user code reaches

The processor lets user code through an entry that is present and has its user
bit, and for a store its write bit; through a table it asks this of the entry of
the directory and of that of the table.  Kernel code is asked for neither bit.

After `paging_init` and `kmalloc_init` one entry of the directory has its user
bit, the one for the user's view of video memory, and one entry of its table.
-/
import Illinix.Memory.Paging

namespace Illinix.Memory

open Illinix.Theory

set_option autoImplicit false

/-- The entry lets user code through, to load or to store. -/
def Grants (entry : Nat) (store : Bool) : Prop :=
  present.get entry = 1 ∧ userSupervisor.get entry = 1 ∧ (store = true → readWrite.get entry = 1)

instance (entry : Nat) (store : Bool) : Decidable (Grants entry store) :=
  inferInstanceAs (Decidable (_ ∧ _))

theorem Grants.present_ne {entry : Nat} {store : Bool} (grants : Grants entry store) :
    present.get entry ≠ 0 := by
  rw [grants.1]
  decide

theorem not_grants {entry : Nat} (closed : userSupervisor.get entry = 0) (store : Bool) :
    ¬Grants entry store := by
  intro grants
  have opened := grants.2.1
  rw [closed] at opened
  cases opened

namespace Paging

/-- The frame of a virtual page for user code, or a page fault. -/
def userTranslate (l : Layout) (p : Paging) (store : Bool) (page : Nat) : Option Nat :=
  let pde := p.pageDirectories (page / pagingCount)
  if ¬Grants pde store then none
  else if pageSize.get pde = 1 then
    some (pageBaseAddressMB.get pde * pagingCount + page % pagingCount)
  else do
    let table ← tableAt l p (pageTableBaseAddress.get pde)
    let pte := table (page % pagingCount)
    if ¬Grants pte store then none else some (pageBaseAddress.get pte)

/-- User code gets where kernel code would get, or nowhere. -/
theorem translate_of_user {l : Layout} {p : Paging} {store : Bool} {page frame : Nat}
    (reached : userTranslate l p store page = some frame) : translate l p page = some frame := by
  simp only [userTranslate] at reached
  simp only [translate]
  split_ifs at reached with granted size
  · rw [if_neg granted.present_ne, if_pos size]
    exact reached
  · rw [if_neg granted.present_ne, if_neg size]
    obtain ⟨table, found, reached⟩ := Option.bind_eq_some_iff.1 reached
    split_ifs at reached with granted'
    rw [found, Option.bind_eq_bind, Option.bind_some, if_neg granted'.present_ne]
    exact reached

/-- Through an entry for 4 MB that is open, user code gets where kernel code does. -/
theorem userTranslate_large {l : Layout} {p : Paging} {store : Bool} {page : Nat}
    (grants : Grants (p.pageDirectories (page / pagingCount)) store)
    (size : pageSize.get (p.pageDirectories (page / pagingCount)) = 1) :
    userTranslate l p store page = translate l p page := by
  simp only [userTranslate, translate]
  rw [if_neg (not_not.2 grants), if_pos size, if_neg grants.present_ne, if_pos size]

/-- So it does through an entry of a table that has both bits. -/
theorem userTranslate_small {l : Layout} {p : Paging} {store : Bool} {page : Nat} {table : Nat → Nat}
    (grants : Grants (p.pageDirectories (page / pagingCount)) store)
    (size : pageSize.get (p.pageDirectories (page / pagingCount)) = 0)
    (found : tableAt l p (pageTableBaseAddress.get (p.pageDirectories (page / pagingCount))) = some table)
    (user : userSupervisor.get (table (page % pagingCount)) = 1)
    (write : readWrite.get (table (page % pagingCount)) = 1) :
    userTranslate l p store page = translate l p page := by
  simp only [userTranslate, translate]
  rw [if_neg (not_not.2 grants), if_neg grants.present_ne, size, if_neg Nat.zero_ne_one,
    if_neg Nat.zero_ne_one, found, Option.bind_eq_bind, Option.bind_some, Option.bind_some]
  have bit : present.get (table (page % pagingCount)) < 2 := Nat.mod_lt _ (by decide)
  by_cases absent : present.get (table (page % pagingCount)) = 0
  · rw [if_pos absent, if_pos fun grants => grants.present_ne absent]
  · rw [if_neg absent, if_neg (not_not.2 ⟨by omega, user, fun _ => write⟩)]

theorem userTranslate_closed {l : Layout} {p : Paging} {store : Bool} {page : Nat}
    (closed : userSupervisor.get (p.pageDirectories (page / pagingCount)) = 0) :
    userTranslate l p store page = none := by
  simp only [userTranslate]
  rw [if_pos (not_grants closed store)]

/-! ## The directory of the two initialisers -/

section

variable (l : Layout) (p : Paging)

/-- The loop of `paging_init` numbers the entries it fills. -/
theorem fillIdentity_directory (n : Nat) : ∀ (i : Nat) (p : Paging) (k : Nat), i ≤ k → k < i + n →
    (fillIdentity n i p).pageDirectories k =
      pageBaseAddressMB.set (pageSize.set (p.pageDirectories k) 1) k := by
  induction n with
  | zero =>
      intro i p k low high
      omega
  | succ n ih =>
      intro i p k low high
      rw [fillIdentity]
      rcases Nat.eq_or_lt_of_le low with rfl | later
      · rw [fillIdentity_below n _ _ _ (Nat.lt_succ_self i)]
        exact setDirectory_same ..
      · rw [ih (i + 1) _ k later (by omega)]
        show pageBaseAddressMB.set (pageSize.set (Function.update p.pageDirectories i _ k) 1) k = _
        rw [Function.update_of_ne (Nat.ne_of_gt later)]

theorem pagingInit_directory {k : Nat} (low : 2 ≤ k) (high : k < pagingCount)
    (other : k ≠ vidmemIndex) :
    (pagingInit l p).pageDirectories k = pageBaseAddressMB.set (pageSize.set 0 1) k := by
  have looped := fillIdentity_directory (pagingCount - 2) 2 (pagingStart l p) k low (by omega)
  have start : (pagingStart l p).pageDirectories k = 0 := by
    simp only [pagingStart, setDirectory, setKernelVidmem, setUserVidmem]
    rw [Function.update_of_ne (by omega), Function.update_of_ne (by omega)]
  rw [start] at looped
  simp only [pagingInit]
  rw [mapVideo_other l _ other, looped]

/-- `paging_init` leaves the directory closed to user code but for one entry. -/
theorem pagingInit_closed {k : Nat} (high : k < pagingCount) (other : k ≠ vidmemIndex) :
    userSupervisor.get ((pagingInit l p).pageDirectories k) = 0 := by
  have address : userSupervisor.get (l.kernelVidmem * 2 ^ 12) = 0 := by
    have := l.kernelVidmem_inside
    simp only [Field.get, userSupervisor]
    omega
  by_cases low : 2 ≤ k
  · rw [pagingInit_directory l p low high other, Field.get_set_other (by decide),
      Field.get_set_other (by decide)]
    rfl
  · obtain rfl | rfl : k = 0 ∨ k = 1 := by omega
    · rw [pagingInit_zero, Field.get_or, address]
      rfl
    · rw [pagingInit_one, Field.get_or]
      decide

/-- No entry behind the first two is present but the one for video memory. -/
theorem pagingInit_absent {k : Nat} (low : 2 ≤ k) (high : k < pagingCount)
    (other : k ≠ vidmemIndex) : present.get ((pagingInit l p).pageDirectories k) = 0 := by
  rw [pagingInit_directory l p low high other, Field.get_set_other (by decide),
    Field.get_set_other (by decide)]
  rfl

@[simp] theorem user_kmallocTable (entry table : Nat) :
    userSupervisor.get (kmallocTable entry table) = 0 := by
  simp only [kmallocTable]
  rw [Field.get_set_other (by decide), Field.get_set_other (by decide),
    Field.get_set_other (by decide), Field.get_set]
  rfl

/-- So do both initialisers. -/
theorem kmallocInit_closed {k : Nat} (high : k < pagingCount) (other : k ≠ vidmemIndex) :
    userSupervisor.get ((kmallocInit l (pagingInit l p)).pageDirectories k) = 0 := by
  by_cases outside : k < kmallocPde ∨ kmallocPde + kmallocPdeCount ≤ k
  · rw [kmallocInit_other l _ outside]
    exact pagingInit_closed l p high other
  · obtain ⟨entry, filled⟩ := (kmallocInit_windowed l (pagingInit l p)).directory (k - kmallocPde)
      (by omega)
    rw [Nat.add_sub_cancel' (by omega)] at filled
    rw [filled, user_kmallocTable]

/-- The user's table for video memory: one entry with its user bit, and no other
present. -/
theorem pagingInit_userTable {k : Nat} (high : k < pagingCount) :
    (k ≠ vidmemIndex → present.get ((pagingInit l p).userVidmem k) = 0) ∧
      (k = vidmemIndex → userSupervisor.get ((pagingInit l p).userVidmem k) = 1 ∧
        readWrite.get ((pagingInit l p).userVidmem k) = 1) := by
  have looped := (looped_tables l p high).2
  simp only [pagingInit]
  generalize fillIdentity (pagingCount - 2) 2 (pagingStart l p) = q at looped
  rw [mapVideo_userVidmem]
  constructor
  · intro other
    rw [Function.update_of_ne other, looped, Field.get_set_other (by decide)]
    rfl
  · rintro rfl
    rw [Function.update_self, looped]
    decide

end

end Paging

end Illinix.Memory
