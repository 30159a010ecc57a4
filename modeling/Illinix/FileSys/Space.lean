/-
# FileSys.Space -- when blocks and slots run out

`find_free_datablock` answers -1 when the bitmap is full and `write_data` tests
its answer against 0, so no write is ever refused for want of space:
`never_refused`.  Nor does it compare the range with the 1023 slots of the inode.
`inBounds_iff` says which calls stay in their arrays: those the first checks
refuse, those inside one block of the list, and those across a boundary that end
before the last byte of the list and find a free block.
-/
import Illinix.FileSys.ByteRange

namespace Illinix.FileSys

open Illinix.Theory

set_option autoImplicit false

/-! ## Out of space -/

/-- The number of slots in the range of a write that have no block yet. -/
def newBlocks (fs : Fs) (inode offset len : Nat) : Nat :=
  (List.range' (offset / fsBlockSize)
    ((offset + len - 1) / fsBlockSize + 1 - offset / fsBlockSize)).countP fun k =>
      (fs.inodeBlocks inode).dataBlocks k = 0

/-- The number of blocks `data_block_bitmap` has free. -/
def freeBlocks (fs : Fs) : Nat :=
  (List.range fs.bootBlock.dataBlockCount).countP fun b =>
    0 < b ∧ b < bitmapSlots ∧ fs.dataBlockBitmap b = false

/-- The write fails and has changed neither the inode, nor the bitmap, nor a data
block. -/
def RefusesCleanly (fs : Fs) (inode offset : Nat) (buf : Option (Nat → UInt8)) (len : Nat) : Prop :=
  ∃ fs', writeData fs inode offset buf len = some (fs', -1) ∧
    fs'.inodeBlocks inode = fs.inodeBlocks inode ∧ fs'.dataBlockBitmap = fs.dataBlockBitmap ∧
    fs'.dataBlocks = fs.dataBlocks

section

variable {fs : Fs} {inode offset len : Nat}

/-- A write past the checks that comes back reports its length. -/
theorem reports_length {fs' : Fs} {src : Nat → UInt8} {v : Int}
    (valid : inode < fs.bootBlock.inodeCount) (some' : 0 < len)
    (low : offset ≤ (fs.inodeBlocks inode).fileSize)
    (ran : writeData fs inode offset (some src) len = some (fs', v)) : v = len := by
  have accepted : ¬(len = 0 ∨ fs.bootBlock.inodeCount ≤ inode) := by omega
  simp only [writeData, accepted, if_false, Nat.not_lt.2 low] at ran
  obtain ⟨⟨fs₁, wrote⟩, span, ran⟩ := Option.bind_eq_some_iff.1 ran
  have short : wrote = true ∧ len < 2 ^ 31 := by
    by_cases within : Within offset len
    · obtain ⟨_, _, all, _⟩ := (writeSpan_within some' within).1 span
      simp only [Within, fsBlockSize] at within
      exact ⟨all, by omega⟩
    · obtain ⟨_, _, _, last, _, all, _⟩ := (writeSpan_across within).1 span
      simp only [fsBlockSize, blockSlots] at last
      exact ⟨all, by omega⟩
  rw [short.1] at ran
  cases ran
  exact i32_of_lt short.2

/-- Some slot in the range still has no block, or two of them have one block. -/
def Overcommitted (fs : Fs) (inode offset len : Nat) : Prop :=
  ∃ k, offset / fsBlockSize ≤ k ∧ k ≤ (offset + len - 1) / fsBlockSize ∧
    ((fs.inodeBlocks inode).dataBlocks k = 0 ∨
      ∃ k', k < k' ∧ k' ≤ (offset + len - 1) / fsBlockSize ∧
        (fs.inodeBlocks inode).dataBlocks k = (fs.inodeBlocks inode).dataBlocks k')

theorem freeBlocks_pos {free : Nat} (found : findFreeDatablock fs = some free)
    (inside : free < fs.bootBlock.dataBlockCount) : 0 < freeBlocks fs := by
  obtain ⟨b, low, high, slot, unmarked⟩ := findFreeDatablock_found.1 ⟨free, found, inside⟩
  exact List.countP_pos_iff.2 ⟨b, List.mem_range.2 high, decide_eq_true ⟨low, slot, unmarked⟩⟩

/-- The slots entered get one free block: with more slots to fill than blocks to
fill them with, two share it. -/
theorem overcommitted_of_short {fs' : Fs} {src : Nat → UInt8}
    (some' : 0 < len) (short : freeBlocks fs < newBlocks fs inode offset len)
    (ran : writeData fs inode offset (some src) len = some (fs', (len : Int))) :
    Overcommitted fs' inode offset len := by
  obtain ⟨_, _, _, slots⟩ := writeData_inode some' ran
  rcases writeData_stores some' ran with ⟨within, _⟩ | ⟨across, free, found, inside, _⟩
  · have one : (offset + len - 1) / fsBlockSize = offset / fsBlockSize := by
      simp only [Within, fsBlockSize] at within ⊢
      omega
    have empty : (fs.inodeBlocks inode).dataBlocks (offset / fsBlockSize) = 0 := by
      have needed : 0 < newBlocks fs inode offset len := by omega
      rw [newBlocks, one, Nat.add_sub_cancel_left, List.range'_one, List.countP_pos_iff] at needed
      obtain ⟨k, here, zero⟩ := needed
      obtain rfl := List.mem_singleton.1 here
      simpa using zero
    refine ⟨offset / fsBlockSize, le_refl _, Nat.le_of_eq one.symm, Or.inl ?_⟩
    rw [slots 0 fun across => absurd within across, slotsAfter_within within, empty]
  · have after := slots free fun _ => found
    have entered : ∀ k, offset / fsBlockSize < k → k ≤ (offset + len - 1) / fsBlockSize →
        (fs'.inodeBlocks inode).dataBlocks k = free := by
      intro k above below
      rw [after]
      refine if_pos ⟨across, Or.inl ⟨above, below.trans ?_⟩⟩
      exact Nat.div_le_div_right (Nat.sub_le _ 1)
    have next : offset / fsBlockSize + 1 ≤ (offset + len - 1) / fsBlockSize := by
      simp only [Within, fsBlockSize] at across ⊢
      omega
    rcases Nat.eq_or_lt_of_le next with two | more
    · -- both slots of the range were empty
      have empty : (fs.inodeBlocks inode).dataBlocks (offset / fsBlockSize) = 0 := by
        have needed := freeBlocks_pos found inside
        by_contra full
        have count : (offset + len - 1) / fsBlockSize + 1 - offset / fsBlockSize = 2 := by omega
        rw [newBlocks, count] at short
        simp only [List.range'_succ, List.range'_zero, List.countP_cons, List.countP_nil, full,
          decide_false, Bool.false_eq_true, if_false] at short
        split_ifs at short <;> omega
      refine ⟨offset / fsBlockSize, le_refl _, by omega, Or.inr ⟨offset / fsBlockSize + 1, ?_, next, ?_⟩⟩
      · exact Nat.lt_succ_self _
      · rw [entered _ (Nat.lt_succ_self _) next, after]
        exact if_pos ⟨across, Or.inr ⟨rfl, empty⟩⟩
    · refine ⟨offset / fsBlockSize + 1, Nat.le_succ _, next, Or.inr ⟨offset / fsBlockSize + 2, ?_, more, ?_⟩⟩
      · exact Nat.lt_succ_self _
      · rw [entered _ (Nat.lt_succ_self _) next, entered _ (by omega) more]

/-- **No write is refused for want of space.** One that needs more blocks than are
free does not return -1; if it comes back, it reports its length, and its bytes
are in block 0 or share a block. -/
theorem never_refused (src : Nat → UInt8) (valid : inode < fs.bootBlock.inodeCount)
    (some' : 0 < len) (short : freeBlocks fs < newBlocks fs inode offset len) :
    ¬RefusesCleanly fs inode offset (some src) len ∧
      ∀ fs' v, offset ≤ (fs.inodeBlocks inode).fileSize →
        writeData fs inode offset (some src) len = some (fs', v) →
        v = len ∧ Overcommitted fs' inode offset len := by
  refine ⟨?_, fun fs' v low ran => ?_⟩
  · rintro ⟨fs', ran, _⟩
    rcases (writeData_refuses ran).1 rfl with none' | empty | outside
    · cases none'
    · omega
    · omega
  · obtain rfl := reports_length valid some' low ran
    exact ⟨rfl, overcommitted_of_short some' short ran⟩

end

/-- The file of `threeBlocks` in an image without a free block. -/
def noSpace : Fs := { threeBlocks with dataBlockBitmap := fun _ => true }

theorem noSpace_never_refused : ¬RefusesCleanly noSpace 1 12288 (some fun _ => 1) 1 :=
  (never_refused (fun _ => 1) (by decide) (by decide) (by decide)).1

theorem noSpace_formed : FormedFile noSpace 1 :=
  ⟨threeBlocks_formed.size, threeBlocks_formed.used, threeBlocks_formed.inRange,
    threeBlocks_formed.apart, fun _ _ _ => rfl⟩

/-- A byte at the end of a file of full blocks goes to block 0, and the file grows. -/
theorem noSpace_accepts : FormedFile noSpace 1 ∧ freeBlocks noSpace < newBlocks noSpace 1 12288 1 ∧
    (∃ fs', writeData noSpace 1 12288 (some fun _ => 1) 1 = some (fs', 1) ∧
      (fs'.inodeBlocks 1).fileSize = 12289 ∧ fs'.dataBlocks 0 0 = 1) ∧
    ¬RefusesCleanly noSpace 1 12288 (some fun _ => 1) 1 := by
  refine ⟨noSpace_formed, by decide, ⟨_, rfl, rfl, rfl⟩, ?_⟩
  rintro ⟨fs', ran, _⟩
  have accepted : ∃ fs₁, writeData noSpace 1 12288 (some fun _ => 1) 1 = some (fs₁, 1) := ⟨_, rfl⟩
  obtain ⟨fs₁, accepted⟩ := accepted
  rw [accepted] at ran
  exact absurd (Prod.mk.inj (Option.some.inj ran)).2 (by decide)

/-! ## Out of slots -/

/-- The call refuses, or keeps to its arrays and leaves the exact size. -/
def InBounds (fs : Fs) (inode offset : Nat) (buf : Option (Nat → UInt8)) (len : Nat) : Prop :=
  (∃ v, v ≤ 0 ∧ writeData fs inode offset buf len = some (fs, v)) ∨
    ∃ fs' v, writeData fs inode offset buf len = some (fs', v) ∧
      (fs'.inodeBlocks inode).fileSize = max (fs.inodeBlocks inode).fileSize (offset + len) ∧
      (fs'.inodeBlocks inode).fileSize ≤ blockSlots * fsBlockSize

/-- The first checks refuse the call; or the range lies in one block of the list;
or it ends before the last byte of the list and the bitmap has a free block. -/
inductive Fits (fs : Fs) (inode offset : Nat) (buf : Option (Nat → UInt8)) (len : Nat) : Prop where
  | noBuffer (none' : buf = none)
  | nothing (empty : len = 0)
  | beyond (late : (fs.inodeBlocks inode).fileSize < offset)
  | within (one : Within offset len) (start : offset < blockSlots * fsBlockSize)
  | across (several : ¬Within offset len) (ends : offset + len < blockSlots * fsBlockSize)
      (free : ∃ b, 0 < b ∧ b < fs.bootBlock.dataBlockCount ∧ b < bitmapSlots ∧
        fs.dataBlockBitmap b = false)

section

variable {fs : Fs} {inode offset len : Nat} {src : Nat → UInt8}

/-- The model's `none` is an access outside an array. -/
theorem returns_iff (formed : FormedFile fs inode) (valid : inode < fs.bootBlock.inodeCount)
    (some' : 0 < len) (low : offset ≤ (fs.inodeBlocks inode).fileSize) :
    (∃ fs' v, writeData fs inode offset (some src) len = some (fs', v)) ↔
      Fits fs inode offset (some src) len := by
  have accepted : ¬(len = 0 ∨ fs.bootBlock.inodeCount ≤ inode) := by omega
  constructor
  · rintro ⟨fs', v, ran⟩
    obtain rfl := reports_length valid some' low ran
    rcases writeData_stores some' ran with ⟨one, start, _⟩ | ⟨several, free, found, inside, last, _⟩
    · refine .within one ?_
      simp only [fsBlockSize, blockSlots] at start ⊢
      omega
    · refine .across several ?_ (findFreeDatablock_found.1 ⟨free, found, inside⟩)
      simp only [lastSlot, fsBlockSize, blockSlots] at last ⊢
      omega
  · intro fits
    simp only [writeData, accepted, if_false, Nat.not_lt.2 low]
    have returns : ∃ fs₁, writeSpan (fs.resized inode offset len) inode offset src len =
        some (fs₁, true) := by
      cases fits with
      | noBuffer none' => cases none'
      | nothing empty => omega
      | beyond late => omega
      | within one start =>
          have slot : offset / fsBlockSize < blockSlots := by
            simp only [fsBlockSize, blockSlots] at start ⊢
            omega
          exact ⟨_, (writeSpan_within some' one).2
            ⟨slot, by simpa using formed.inRange _ slot, rfl, rfl⟩⟩
      | across several ends free =>
          obtain ⟨free, found, inside⟩ := findFreeDatablock_found.2 free
          have last : (offset + len) / fsBlockSize < blockSlots := by
            simp only [fsBlockSize, blockSlots] at ends ⊢
            omega
          have slot : offset / fsBlockSize < blockSlots :=
            Nat.lt_of_le_of_lt (Nat.div_le_div_right (Nat.le_add_right _ _)) last
          have first : firstBlock (fs.inodeBlocks inode).dataBlocks offset len free <
              fs.bootBlock.dataBlockCount := by
            rw [firstBlock_across several]
            split_ifs
            · exact inside
            · exact formed.inRange _ slot
          exact ⟨_, (writeSpan_across several).2
            ⟨free, by simpa using found, by simpa using inside, last, by simpa using first, rfl, rfl⟩⟩
    obtain ⟨fs₁, span⟩ := returns
    rw [span]
    exact ⟨_, _, rfl⟩

/-- **Where a write stays in bounds.** For a well-formed file the call refuses, or
keeps to the 1023 slots and the blocks of the image and leaves the exact size, if
and only if the range fits. -/
theorem inBounds_iff (buf : Option (Nat → UInt8)) (formed : FormedFile fs inode)
    (valid : inode < fs.bootBlock.inodeCount) :
    InBounds fs inode offset buf len ↔ Fits fs inode offset buf len := by
  cases buf with
  | none => exact iff_of_true (Or.inl ⟨-1, by decide, rfl⟩) (.noBuffer rfl)
  | some src =>
      by_cases empty : len = 0
      · refine iff_of_true (Or.inl ⟨-1, by decide, ?_⟩) (.nothing empty)
        simp [writeData, empty]
      have accepted : ¬(len = 0 ∨ fs.bootBlock.inodeCount ≤ inode) := by omega
      rcases Nat.lt_or_ge (fs.inodeBlocks inode).fileSize offset with late | low
      · refine iff_of_true (Or.inl ⟨0, le_refl 0, ?_⟩) (.beyond late)
        simp [writeData, accepted, late]
      rw [← returns_iff formed valid (by omega) low]
      constructor
      · rintro (⟨v, _, ran⟩ | ⟨fs', v, ran, _⟩)
        · exact ⟨fs, v, ran⟩
        · exact ⟨fs', v, ran⟩
      · rintro ⟨fs', v, ran⟩
        obtain rfl := reports_length valid (by omega) low ran
        obtain ⟨_, reach, size, _⟩ := writeData_inode (by omega) ran
        have old := formed.size
        exact Or.inr ⟨fs', len, ran, size, by omega⟩

end

/-- The same write as above, with free blocks. -/
theorem threeBlocks_inBounds : InBounds threeBlocks 1 4090 (some fun _ => 1) 10 :=
  (inBounds_iff (some fun _ => 1) threeBlocks_formed (by decide)).2
    (.across (by decide) (by decide) ⟨4, by decide, by decide, by decide, by decide⟩)

/-- `write` with the count -1 at the end of the file leaves the block list. -/
theorem negative_count_overruns : FormedFile threeBlocks 1 ∧
    ¬InBounds threeBlocks 1 12288 (some fun _ => 1) (2 ^ 32 - 1) := by
  refine ⟨threeBlocks_formed, fun inside => ?_⟩
  have ran : ∃ fs' v, writeData threeBlocks 1 12288 (some fun _ => 1) (2 ^ 32 - 1) =
      some (fs', v) := by
    rcases inside with ⟨v, _, ran⟩ | ⟨fs', v, ran, _⟩
    · exact ⟨threeBlocks, v, ran⟩
    · exact ⟨fs', v, ran⟩
  cases (returns_iff threeBlocks_formed (by decide) (by decide) (by decide)).1 ran with
  | noBuffer none' => cases none'
  | nothing empty => exact absurd empty (by decide)
  | beyond late => exact absurd late (by decide)
  | within one start => exact absurd one (by decide)
  | across several ends free => exact absurd ends (by decide)

end Illinix.FileSys
