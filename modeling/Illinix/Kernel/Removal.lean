/-
# Kernel.Removal -- delete on the directory

`delete` moves the entries behind the removed one up by one place with `memmove`,
zeroes the place that is left and counts one entry less.  `removeDentry_byte`
checks this against the bytes of the boot block; on the table of entries it is
the removal of one index, `entries_removed`.  What a search finds afterwards is
then what `Theory.Keyed` says of such a table.
-/
import Illinix.FileSys.Listing
import Illinix.Memory.Move
import Illinix.Kernel.Inodes

namespace Illinix.Kernel

open Illinix.FileSys Illinix.Theory Illinix.Memory

set_option autoImplicit false

/-! ## The bytes -/

/-- `sizeof(dentry_t)`. -/
def dentrySize : Nat := 64

/-- The byte `boot_block->dentries + i` begins at. -/
def dentryPos (i : Nat) : Nat := 64 + dentrySize * i

theorem zeroDentry_byte (k : Nat) : Machine.zeroDentry.byte k = 0 := by
  simp only [Dentry.byte, Machine.zeroDentry]
  have zero : ∀ i, leByte 0 i = 0 := fun i => by simp [leByte]
  simp [zero]

theorem byte_dentries (b : BootBlock) {k : Nat} (body : 64 ≤ k) :
    b.byte k = (b.dentries ((k - 64) / 64)).byte ((k - 64) % 64) := by
  simp only [BootBlock.byte]
  rw [if_neg (by omega), if_neg (by omega), if_neg (by omega), if_neg (by omega)]

/-- **The removal on the bytes of the boot block**: `memmove`, `memset`, and the
new count. -/
theorem removeDentry_byte (b : BootBlock) {index : Nat} (inside : index < b.dentryCount) :
    (Machine.removeDentry b index).byte =
      blit (memset (dentryPos (b.dentryCount - 1)) 0 dentrySize
        (memmove (dentryPos index) (dentryPos (index + 1))
          ((b.dentryCount - index - 1) * dentrySize) b.byte)) 0 (leByte (b.dentryCount - 1)) 4 := by
  funext k
  simp only [memmove_eq, memset, dentryPos, dentrySize]
  simp only [blit]
  rcases Nat.lt_or_ge k 4 with count | rest
  · rw [if_pos (by omega)]
    simp only [BootBlock.byte, count, if_true, Machine.removeDentry, Nat.sub_zero]
  rcases Nat.lt_or_ge k 64 with header | body
  · rw [if_neg (by omega), if_neg (by omega), if_neg (by omega)]
    simp only [BootBlock.byte, Nat.not_lt.2 rest, header, if_false, if_true]
    rfl
  -- the byte belongs to entry `i`: the last, a moved one or one that stays
  rw [if_neg (by omega), byte_dentries _ body]
  generalize entry : (k - 64) / 64 = i
  simp only [Machine.removeDentry]
  rcases Nat.lt_trichotomy i (b.dentryCount - 1) with before | rfl | beyond
  · rw [if_neg (by omega)]
    rcases Nat.lt_or_ge i index with kept | moved
    · rw [if_neg (by omega), if_neg (by omega), if_neg (by omega), byte_dentries b body, entry]
    · have next : (64 + 64 * (index + 1) + (k - (64 + 64 * index)) - 64) / 64 = i + 1 := by omega
      have same : (64 + 64 * (index + 1) + (k - (64 + 64 * index)) - 64) % 64 = (k - 64) % 64 := by
        omega
      rw [if_pos (by omega), if_neg (by omega), if_pos (by omega), byte_dentries b (by omega), next,
        same]
  · rw [if_pos rfl, if_pos (by omega)]
    exact zeroDentry_byte _
  · rw [if_neg (by omega), if_neg (by omega), if_neg (by omega), if_neg (by omega),
      byte_dentries b body, entry]

/-! ## The table -/

theorem entries_removed {b : BootBlock} {index : Nat} (inside : index < b.dentryCount) :
    (Machine.removeDentry b index).entries = b.entries.eraseIdx index := by
  simp only [BootBlock.entries]
  rw [firsts_eraseIdx _ inside]
  simp only [Machine.removeDentry]
  refine firsts_congr fun k below => ?_
  rw [if_neg (by omega)]
  split_ifs <;> first | rfl | omega

theorem entries_created (m : Machine) (curr fd inode : Nat) (s : CString) (reserved : Nat → UInt8) :
    (m.created curr fd inode s reserved).fs.bootBlock.entries =
      m.fs.bootBlock.entries ++ [⟨Machine.dentryName s, 2, inode, reserved⟩] := by
  simp only [BootBlock.entries]
  rw [created_dentryCount, created_dentries, firsts_update]

/-! ## What a search finds afterwards -/

/-- The name is off the directory and nothing else has changed there. -/
structure Removed (fs fs' : Fs) (s : CString) : Prop where
  entries : ∃ index den, fs.bootBlock.entries[index]? = some den ∧ den.name = s.bytes ∧
    fs'.bootBlock.entries = fs.bootBlock.entries.eraseIdx index
  count : fs'.bootBlock.dentryCount + 1 = fs.bootBlock.dentryCount
  vacated : fs'.bootBlock.dentries fs'.bootBlock.dentryCount = Machine.zeroDentry
  gone : readDentryByName fs' (some s) = some none
  others : ∀ s', s' ≠ s → ∃ found found', readDentryByName fs (some s') = some found ∧
    readDentryByName fs' (some s') = some found' ∧ found'.map Prod.snd = found.map Prod.snd

theorem removed_of_removeDentry {fs fs' : Fs} {s : CString} {index : Nat} {den : Dentry}
    (room : fs.bootBlock.dentryCount ≤ dentrySlots) (distinct : DistinctNames fs.bootBlock)
    (found : readDentryByName fs (some s) = some (some (index, den)))
    (boot : fs'.bootBlock = Machine.removeDentry fs.bootBlock index) : Removed fs fs' s := by
  have inside := (readDentryByName_some found).1
  obtain ⟨here, name⟩ := readDentryByName_entry found
  have table : fs'.bootBlock.entries = fs.bootBlock.entries.eraseIdx index := by
    rw [boot, entries_removed inside]
  have count : fs'.bootBlock.dentryCount + 1 = fs.bootBlock.dentryCount := by
    rw [boot]
    simp only [Machine.removeDentry]
    omega
  have defined := readDentryByName_defined (show fs'.bootBlock.dentryCount ≤ dentrySlots by omega)
  refine ⟨⟨index, den, here, name, table⟩, count, ?_, ?_, fun s' other => ?_⟩
  · have last : fs'.bootBlock.dentryCount = fs.bootBlock.dentryCount - 1 := by omega
    rw [last, boot]
    exact if_pos rfl
  · obtain ⟨after, looked⟩ := defined (some s)
    have nothing := readDentryByName_lookup looked
    rw [table, ← name, lookup_eraseIdx_self distinct here, Option.map_eq_none_iff] at nothing
    rw [looked, nothing]
  · obtain ⟨before, looked⟩ := readDentryByName_defined room (some s')
    obtain ⟨after, looked'⟩ := defined (some s')
    have apart : den.name ≠ s'.bytes := by
      rw [name]
      intro same
      cases s
      cases s'
      cases same
      exact other rfl
    refine ⟨before, after, looked, looked', ?_⟩
    rw [readDentryByName_lookup looked, readDentryByName_lookup looked', table,
      lookup_eraseIdx_of_ne here apart]

/-- **`delete` on the directory.** It takes the entry of the name out and leaves
every other search as it was, or it fails and leaves the file system. -/
theorem delete_removes {m m' : Machine} {fileName : Option CString} {v : Int}
    (room : m.fs.bootBlock.dentryCount ≤ dentrySlots) (distinct : DistinctNames m.fs.bootBlock)
    (ran : m.delete fileName = some (m', v)) :
    (v = 0 ∧ ∃ s, fileName = some s ∧ Removed m.fs m'.fs s) ∨ (v = -1 ∧ m'.fs = m.fs) := by
  rcases delete_boot ran with ⟨same, failed⟩ | ⟨s, index, den, named, found, boot, success⟩
  · exact Or.inr ⟨failed, same⟩
  · exact Or.inl ⟨success, s, named, removed_of_removeDentry room distinct found boot⟩

/-- The file of `oneFile`, closed. -/
def closedFile : Machine := oneFile.setFile 3 2 ⟨.file, 1, 0, false⟩

theorem closedFile_removes : ∃ m', closedFile.delete (some nameA) = some (m', 0) ∧
    Removed closedFile.fs m'.fs nameA := by
  have distinct : DistinctNames closedFile.fs.bootBlock := List.nodup_singleton _
  obtain ⟨m', ran⟩ : ∃ m', closedFile.delete (some nameA) = some (m', 0) := ⟨_, rfl⟩
  rcases delete_removes (by decide) distinct ran with ⟨_, s, same, removed⟩ | ⟨failed, _⟩
  · obtain rfl := Option.some.inj same
    exact ⟨m', ran, removed⟩
  · exact absurd failed (by decide)

end Illinix.Kernel
