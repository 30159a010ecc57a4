/-
# Kernel.Release -- delete on data_block_bitmap

The blocks of a file are what its list holds before the first 0, which is how
`file_system_init` marks them and how `delete` walks them.  In round `i` of that
walk `delete` clears `data_block_bitmap[i]`: the place of the block in the list,
not the block.  Neither `delete` nor `create` clears the list.

After `r` rounds the marks below `r` are clear.  The `r` blocks passed are
distinct and none is 0, so they are not all below `r` and one stays marked:
`releases_iff` says that `delete` releases the deleted file and nothing else
exactly if that file has no block.
-/
import Illinix.Kernel.Removal
import Illinix.FileSys.Mount
import Mathlib.Combinatorics.Pigeonhole
import Mathlib.Order.Interval.Finset.Nat

namespace Illinix.Kernel

open Illinix.FileSys Illinix.Theory

set_option autoImplicit false

/-! ## Blocks in use -/

/-- Slot `k` of inode `n` is in its list: no slot up to it is 0. -/
def Listed (fs : Fs) (n k : Nat) : Prop :=
  k < blockSlots ∧ ∀ j, j ≤ k → (fs.inodeBlocks n).dataBlocks j ≠ 0

/-- Block `b` is in the list of inode `n`. -/
def Owns (fs : Fs) (n b : Nat) : Prop := ∃ k, Listed fs n k ∧ (fs.inodeBlocks n).dataBlocks k = b

/-- Block `b` belongs to a file of the directory. -/
def InUse (fs : Fs) (b : Nat) : Prop := ∃ den ∈ fs.bootBlock.entries, Owns fs den.inodeNum b

/-- `data_block_bitmap` marks the blocks in use. -/
def ExactMarks (fs : Fs) : Prop :=
  ∀ b, (b < bitmapSlots ∧ fs.dataBlockBitmap b = true) ↔ InUse fs b

/-- In a list as a well-formed image has them, the slots before the first 0 are
those that are not 0. -/
theorem owns_iff_lists {fs : Fs} {n b count length : Nat}
    (list : BlockList count (fs.inodeBlocks n) length) : Owns fs n b ↔ (fs.inodeBlocks n).Lists b := by
  rw [list.lists]
  constructor
  · rintro ⟨k, listed, rfl⟩
    refine ⟨k, ?_, rfl⟩
    by_contra behind
    exact listed.2 k (Nat.le_refl k) (list.zeros k (Nat.le_of_not_lt behind) listed.1)
  · rintro ⟨k, low, rfl⟩
    have fits := list.fits
    refine ⟨k, ⟨by omega, fun j before => ?_⟩, rfl⟩
    exact Nat.ne_of_gt (list.inRange j (by omega)).1

/-- Mounting a well-formed image whose entries all have names marks the blocks in
use. -/
theorem fileSystemInit_exactMarks {module : Image} {disk : Disk} {fs : Fs}
    (formed : WellFormed (mountedImage module disk))
    (named : ∀ i, i < (mountedImage module disk).bootBlock.dentryCount →
      (mountedImage module disk).bootBlock.Named i)
    (mounted : fileSystemInit module disk = some fs) : ExactMarks fs := by
  have image := fileSystemInit_image mounted
  obtain ⟨fs', walked, _, blocks⟩ := markDentries_marks formed
    (mountedImage module disk).bootBlock.dentryCount 0
    { mountedImage module disk with
      inodeBitmap := fun _ => false, dataBlockBitmap := fun _ => false, disk := disk }
    rfl (Nat.zero_add _)
  obtain rfl : fs' = fs := Option.some.inj (walked.symm.trans mounted)
  have boot : fs'.bootBlock = (mountedImage module disk).bootBlock := congrArg Image.bootBlock image
  have inodes : fs'.inodeBlocks = (mountedImage module disk).inodeBlocks :=
    congrArg Image.inodeBlocks image
  intro b
  simp only [InUse, BootBlock.entries, firsts, List.mem_map, List.mem_range, exists_exists_and_eq_and]
  rw [boot]
  constructor
  · rintro ⟨_, marked⟩
    obtain unmarked | ⟨i, _, named', lists⟩ := (blocks b).1 marked
    · cases unmarked
    · obtain ⟨length, list⟩ := formed.lists i named'
      rw [← inodes] at list lists
      exact ⟨i, named'.1, (owns_iff_lists list).2 lists⟩
  · rintro ⟨i, inside, owns⟩
    obtain ⟨length, list⟩ := formed.lists i (named i inside)
    have small := formed.blocks
    rw [← inodes] at list
    have lists := (owns_iff_lists list).1 owns
    obtain ⟨j, low, same⟩ := (list.lists b).1 lists
    have below := same ▸ (list.inRange j low).2
    rw [inodes] at lists
    exact ⟨below.trans_le small, (blocks b).2 (Or.inr ⟨i, Nat.zero_le i, named i inside, lists⟩)⟩

/-- Each block is in one list, and there once. -/
def OwnedOnce (fs : Fs) : Prop :=
  ∀ (i j k k' : Nat) (den den' : Dentry), fs.bootBlock.entries[i]? = some den →
    fs.bootBlock.entries[j]? = some den' → Listed fs den.inodeNum k → Listed fs den'.inodeNum k' →
    (fs.inodeBlocks den.inodeNum).dataBlocks k = (fs.inodeBlocks den'.inodeNum).dataBlocks k' →
    i = j ∧ k = k'

/-- The file of inode `n` is released and no other, and a later `create` that
takes the inode as it was left gets an empty file. -/
structure ReleasesExactly (m : Machine) (n : Nat) (m' : Machine) : Prop where
  marks : ExactMarks m'.fs
  freed : ∀ b, Owns m.fs n b → m'.fs.dataBlockBitmap b = false
  others : ∀ b, b < bitmapSlots → ¬Owns m.fs n b →
    m'.fs.dataBlockBitmap b = m.fs.dataBlockBitmap b
  reused : ∀ (run : List FileEvent) (m₁ m₂ : Machine) (e : FileEvent) (fileName : Option CString)
    (reserved : Nat → UInt8) (curr fd : Nat) (s : CString), after fileStep m' run = some m₁ →
    m₁.fs.inodeBlocks n = m'.fs.inodeBlocks n → e.call = .create fileName reserved →
    Picks (e.enter m₁) fileName curr fd n s → fileStep m₁ e = some m₂ →
    (m₂.fs.inodeBlocks n).fileSize = 0 ∧ ∀ b, ¬Owns m₂.fs n b

theorem not_owns_of_first {fs : Fs} {n : Nat} (first : (fs.inodeBlocks n).dataBlocks 0 = 0) (b : Nat) :
    ¬Owns fs n b := fun ⟨k, listed, _⟩ => listed.2 0 (Nat.zero_le k) first

/-! ## What the walk clears -/

/-- What a `delete` that succeeds has done: it made `r` rounds. -/
structure Cleared (m : Machine) (index : Nat) (den : Dentry) (m' : Machine) (r : Nat) : Prop where
  passed : ∀ j, j < r → j < bitmapSlots ∧ (m.fs.inodeBlocks den.inodeNum).dataBlocks j ≠ 0
  stopped : r = 0 → (m.fs.inodeBlocks den.inodeNum).dataBlocks 0 = 0
  marks : ∀ b, m'.fs.dataBlockBitmap b = if b < r then false else m.fs.dataBlockBitmap b
  table : m'.fs.bootBlock.entries = m.fs.bootBlock.entries.eraseIdx index
  lists : m'.fs.inodeBlocks = m.fs.inodeBlocks

theorem delete_clears {m m' : Machine} {fileName : Option CString} {index : Nat} {den : Dentry}
    (found : readDentryByName m.fs fileName = some (some (index, den)))
    (ran : m.delete fileName = some (m', 0)) : ∃ r, Cleared m index den m' r := by
  rcases delete_some ran with ⟨_, failed, _⟩ | ⟨index', den', fs, deletes, wiped, rfl, _⟩
  · cases failed
  · obtain ⟨rfl, rfl⟩ := deletes.unique found
    obtain ⟨r, _, stopped, walked⟩ := wipeBlocks_some _ _ wiped
    refine ⟨r, fun j below => walked.passed j (Nat.zero_le j) (by omega), fun none' => ?_,
      fun b => ?_, ?_, walked.inodes⟩
    · -- the inode exists, so `inode_count` does not end the walk before round 0
      have rounds := deletes.inside
      rcases stopped with all | ended
      · omega
      · rwa [none'] at ended
    · rw [flush_bitmap, walked.marks b]
      exact if_congr (by omega) rfl rfl
    · simp only [flush_bootBlock]
      rw [walked.boot, entries_removed (readDentryByName_some found).1]

/-! ## The condition -/

/-- Of `r` distinct numbers, none of them 0, one is at least `r`. -/
theorem exists_ge_of_distinct {f : Nat → Nat} {r : Nat} (some' : 0 < r)
    (nonzero : ∀ j, j < r → f j ≠ 0) (distinct : ∀ j j', j < r → j' < r → f j = f j' → j = j') :
    ∃ j, j < r ∧ r ≤ f j := by
  by_contra below
  push Not at below
  have maps : ∀ j ∈ Finset.range r, f j ∈ Finset.Ico 1 r := by
    intro j inside
    rw [Finset.mem_range] at inside
    rw [Finset.mem_Ico]
    exact ⟨Nat.pos_of_ne_zero (nonzero j inside), below j inside⟩
  have fewer : (Finset.Ico 1 r).card < (Finset.range r).card := by
    rw [Nat.card_Ico, Finset.card_range]
    omega
  obtain ⟨j, inside, j', inside', apart, same⟩ :=
    Finset.exists_ne_map_eq_of_card_lt_of_maps_to fewer maps
  exact apart (distinct j j' (Finset.mem_range.1 inside) (Finset.mem_range.1 inside') same)

/-- A block that is passed stays marked. -/
theorem Cleared.kept {m m' : Machine} {index r : Nat} {den : Dentry}
    (cleared : Cleared m index den m' r) (some' : 0 < r) (exact' : ExactMarks m.fs)
    (once : OwnedOnce m.fs) (here : m.fs.bootBlock.entries[index]? = some den) :
    ∃ b, Owns m.fs den.inodeNum b ∧ m'.fs.dataBlockBitmap b = true := by
  have listed : ∀ j, j < r → Listed m.fs den.inodeNum j := fun j below =>
    ⟨Nat.lt_trans (cleared.passed j below).1 (by decide),
      fun j' upTo => (cleared.passed j' (by omega)).2⟩
  obtain ⟨j, below, large⟩ := exists_ge_of_distinct some'
    (fun j below => (cleared.passed j below).2)
    fun j j' below below' same => (once index index j j' den den here here (listed j below)
      (listed j' below') same).2
  have owns : Owns m.fs den.inodeNum ((m.fs.inodeBlocks den.inodeNum).dataBlocks j) :=
    ⟨j, listed j below, rfl⟩
  refine ⟨_, owns, ?_⟩
  rw [cleared.marks, if_neg (by omega)]
  exact ((exact' _).2 ⟨den, List.mem_of_getElem? here, owns⟩).2

/-- Without the entry of a file that has no block the same blocks are in use. -/
theorem Cleared.inUse {m m' : Machine} {index r b : Nat} {den : Dentry}
    (cleared : Cleared m index den m' r) (here : m.fs.bootBlock.entries[index]? = some den)
    (first : (m.fs.inodeBlocks den.inodeNum).dataBlocks 0 = 0) : InUse m'.fs b ↔ InUse m.fs b := by
  simp only [InUse, Owns, Listed]
  rw [cleared.table, cleared.lists]
  constructor
  · rintro ⟨other, mem, owns⟩
    exact ⟨other, List.mem_of_mem_eraseIdx mem, owns⟩
  · rintro ⟨other, mem, owns⟩
    refine ⟨other, ?_, owns⟩
    obtain ⟨i, there⟩ := List.mem_iff_getElem?.1 mem
    refine List.mem_eraseIdx_iff_getElem?.2 ⟨i, ?_, there⟩
    rintro rfl
    obtain rfl := Option.some.inj (here.symm.trans there)
    exact not_owns_of_first first b owns

/-- **What `delete` releases, exactly.** Where the marks are those of the blocks
in use, a `delete` that succeeds leaves them so, frees the blocks of the deleted
file and no others, and leaves an inode for an empty file, if and only if the
deleted file has no block. -/
theorem releases_iff {m m' : Machine} {fileName : Option CString} {index : Nat} {den : Dentry}
    (exact' : ExactMarks m.fs) (once : OwnedOnce m.fs)
    (found : readDentryByName m.fs fileName = some (some (index, den)))
    (ran : m.delete fileName = some (m', 0)) :
    ReleasesExactly m den.inodeNum m' ↔ (m.fs.inodeBlocks den.inodeNum).dataBlocks 0 = 0 := by
  obtain ⟨_, _, s, rfl, _⟩ := readDentryByName_some found
  have here := (readDentryByName_entry found).1
  obtain ⟨r, cleared⟩ := delete_clears found ran
  constructor
  · intro releases
    rcases Nat.eq_zero_or_pos r with none' | some'
    · exact cleared.stopped none'
    · obtain ⟨b, owns, marked⟩ := cleared.kept some' exact' once here
      exact absurd ((releases.freed b owns).symm.trans marked) Bool.false_ne_true
  · intro first
    have none' : r = 0 := by
      by_contra some'
      exact (cleared.passed 0 (Nat.pos_of_ne_zero some')).2 first
    have same : m'.fs.dataBlockBitmap = m.fs.dataBlockBitmap := by
      funext b
      rw [cleared.marks, if_neg (by omega)]
    refine ⟨fun b => ?_, fun b owns => absurd owns (not_owns_of_first first b), fun b _ _ => ?_, ?_⟩
    · rw [same, exact' b, cleared.inUse here first]
    · rw [same]
    · intro _ m₁ m₂ e fileName reserved curr fd s _ left call picks step
      rw [fileStep_of_picks call picks] at step
      obtain rfl := Option.some.inj step
      have inode : ((e.enter m₁).created curr fd den.inodeNum s reserved).fs.inodeBlocks
          den.inodeNum = { m.fs.inodeBlocks den.inodeNum with fileSize := 0 } := by
        rw [created_inodeBlocks, Function.update_self, FileEvent.enter_fs, left, cleared.lists]
      rw [inode]
      refine ⟨rfl, not_owns_of_first ?_⟩
      rw [inode]
      exact first

theorem closedFile_releases : ∃ m', closedFile.delete (some nameA) = some (m', 0) ∧
    ReleasesExactly closedFile 1 m' := by
  have first : ∀ n, (closedFile.fs.inodeBlocks n).dataBlocks 0 = 0 := by
    intro n
    by_cases here : n = 1
    · subst here
      rfl
    · have untouched : closedFile.fs.inodeBlocks n = Fs.empty.inodeBlocks n :=
        Function.update_of_ne here ..
      rw [untouched]
      rfl
  have empty : ∀ n b, ¬Owns closedFile.fs n b := fun n => not_owns_of_first (first n)
  have exact' : ExactMarks closedFile.fs := fun b =>
    iff_of_false (fun ⟨_, marked⟩ => Bool.false_ne_true marked) fun ⟨_, _, owns⟩ => empty _ b owns
  have once : OwnedOnce closedFile.fs := fun _ _ k _ _ _ _ _ listed => absurd ⟨k, listed, rfl⟩ (empty _ _)
  obtain ⟨m', ran⟩ : ∃ m', closedFile.delete (some nameA) = some (m', 0) := ⟨_, rfl⟩
  exact ⟨m', ran, (releases_iff exact' once (show readDentryByName _ _ =
    some (some (0, ⟨Machine.dentryName nameA, 2, 1, fun _ => 0⟩)) from rfl) ran).2 rfl⟩

/-! ## A file of one block -/

/-- `closedFile` with block 5 in the list of every inode, and marked. -/
def blockFile : Machine :=
  { closedFile with fs := { closedFile.fs with
    inodeBlocks := fun _ => ⟨10, fun k => if k = 0 then 5 else 0⟩
    dataBlockBitmap := fun b => b == 5 } }

theorem blockFile_listed {n k : Nat} : Listed blockFile.fs n k ↔ k = 0 := by
  constructor
  · intro listed
    by_contra later
    exact listed.2 k (le_refl k) (if_neg later)
  · rintro rfl
    refine ⟨by decide, fun j low => ?_⟩
    obtain rfl := Nat.le_zero.1 low
    exact Nat.succ_ne_zero 4

theorem blockFile_exactMarks : ExactMarks blockFile.fs := by
  intro b
  constructor
  · rintro ⟨_, marked⟩
    obtain rfl : b = 5 := of_decide_eq_true marked
    exact ⟨_, List.mem_singleton_self _, 0, blockFile_listed.2 rfl, rfl⟩
  · rintro ⟨den, _, k, listed, rfl⟩
    obtain rfl := blockFile_listed.1 listed
    exact ⟨show 5 < bitmapSlots by decide, rfl⟩

theorem blockFile_ownedOnce : OwnedOnce blockFile.fs := by
  intro i j k k' den den' here there listed listed' _
  have single : ∀ {i : Nat} {den : Dentry}, blockFile.fs.bootBlock.entries[i]? = some den → i = 0 :=
    fun found => Nat.lt_one_iff.1 (List.getElem?_eq_some_iff.1 found).1
  exact ⟨(single here).trans (single there).symm,
    (blockFile_listed.1 listed).trans (blockFile_listed.1 listed').symm⟩

/-- `delete("a")` clears mark 0, and block 5 stays marked. -/
theorem blockFile_keeps_mark : ExactMarks blockFile.fs ∧ OwnedOnce blockFile.fs ∧
    ∃ m', blockFile.delete (some nameA) = some (m', 0) ∧ ¬ReleasesExactly blockFile 1 m' := by
  refine ⟨blockFile_exactMarks, blockFile_ownedOnce, _, rfl, fun releases => ?_⟩
  have freed := releases.freed 5 ⟨0, blockFile_listed.2 rfl, rfl⟩
  cases freed

end Illinix.Kernel
