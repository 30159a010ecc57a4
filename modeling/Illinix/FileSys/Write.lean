/-
# FileSys.Write -- closed forms of the two paths of write_data

A write of `len` bytes at `offset` starts in the piece `offset / 4096` of the
file.  Inside one piece it stores into the block of that slot, whatever the slot
says: an unallocated slot is 0, and the bytes go to block 0.  Across a boundary
it allocates a block for the first slot if that is 0, and a block for each slot
it enters, up to and with the slot of `offset + len`.  Since nothing is marked,
all of these are the same block.

`writeSpan_within` and `writeSpan_across` give the exact condition under which
each path stays in its arrays, and the file system it leaves.
-/
import Illinix.FileSys.Data

namespace Illinix.FileSys

open Illinix.Theory

set_option autoImplicit false

/-! ## Updates of one inode and one block -/

section

variable (fs : Fs) (inode block k : Nat) (slots slots' : Nat → Nat) (data data' : Nat → UInt8)

@[simp] theorem setSlots_bootBlock : (fs.setSlots inode slots).bootBlock = fs.bootBlock := rfl

@[simp] theorem setSlots_dataBlocks : (fs.setSlots inode slots).dataBlocks = fs.dataBlocks := rfl

@[simp] theorem setSlots_slots :
    ((fs.setSlots inode slots).inodeBlocks inode).dataBlocks = slots := by
  simp [Fs.setSlots, Fs.setInode]

@[simp] theorem setSlots_size (i : Nat) :
    ((fs.setSlots inode slots).inodeBlocks i).fileSize = (fs.inodeBlocks i).fileSize := by
  by_cases same : i = inode <;> simp [Fs.setSlots, Fs.setInode, same]

theorem setSlots_other {i : Nat} (other : i ≠ inode) :
    (fs.setSlots inode slots).inodeBlocks i = fs.inodeBlocks i := by
  simp [Fs.setSlots, Fs.setInode, other]

@[simp] theorem setSlots_setSlots :
    (fs.setSlots inode slots).setSlots inode slots' = fs.setSlots inode slots' := by
  simp [Fs.setSlots, Fs.setInode]

@[simp] theorem setSlots_self : fs.setSlots inode (fs.inodeBlocks inode).dataBlocks = fs := by
  simp [Fs.setSlots, Fs.setInode]

@[simp] theorem setBlock_bootBlock : (fs.setBlock block data).bootBlock = fs.bootBlock := rfl

@[simp] theorem setBlock_inodeBlocks :
    (fs.setBlock block data).inodeBlocks = fs.inodeBlocks := rfl

@[simp] theorem setBlock_dataBlocks :
    (fs.setBlock block data).dataBlocks = Function.update fs.dataBlocks block data := rfl

@[simp] theorem setBlock_setBlock :
    (fs.setBlock block data).setBlock block data' = fs.setBlock block data' := by
  simp [Fs.setBlock]

@[simp] theorem setBlock_self : fs.setBlock block (fs.dataBlocks block) = fs := by
  simp [Fs.setBlock]

theorem setBlock_setSlots :
    (fs.setBlock block data).setSlots inode slots = (fs.setSlots inode slots).setBlock block data :=
  rfl

@[simp] theorem findFreeDatablock_setSlots :
    findFreeDatablock (fs.setSlots inode slots) = findFreeDatablock fs := rfl

@[simp] theorem findFreeDatablock_setBlock :
    findFreeDatablock (fs.setBlock block data) = findFreeDatablock fs := rfl

end

theorem storeBlock_eq_some {fs fs' : Fs} {block pos n : Nat} {src : Nat → UInt8} :
    fs.storeBlock block pos src n = some fs' ↔
      (block < fs.bootBlock.dataBlockCount ∨ n = 0) ∧
        fs' = fs.setBlock block (blit (fs.dataBlocks block) pos src n) := by
  rcases Nat.eq_zero_or_pos n with none' | some'
  · subst none'
    simp [Fs.storeBlock, eq_comm]
  · by_cases inside : block < fs.bootBlock.dataBlockCount
    · simp [Fs.storeBlock, inside, Nat.ne_of_gt some', eq_comm]
    · simp [Fs.storeBlock, inside, Nat.ne_of_gt some']

theorem setSlot_eq_some {fs fs' : Fs} {inode k block : Nat} :
    fs.setSlot inode k block = some fs' ↔ k < blockSlots ∧
      fs' = fs.setSlots inode (Function.update (fs.inodeBlocks inode).dataBlocks k block) := by
  by_cases inside : k < blockSlots <;> simp [Fs.setSlot, inside, eq_comm]

theorem slot_eq_some {fs : Fs} {inode k block : Nat} :
    fs.slot inode k = some block ↔
      k < blockSlots ∧ block = (fs.inodeBlocks inode).dataBlocks k := by
  by_cases inside : k < blockSlots <;> simp [Fs.slot, inside, eq_comm]

/-! ## The loop -/

/-- The slots after the loop has entered the `n` slots after `k`. -/
def spread (slots : Nat → Nat) (k n free : Nat) (j : Nat) : Nat :=
  if k < j ∧ j ≤ k + n then free else slots j

theorem spread_zero (slots : Nat → Nat) (k free : Nat) : spread slots k 0 free = slots := by
  funext j
  exact if_neg (by omega)

theorem spread_update (slots : Nat → Nat) (k n free : Nat) :
    spread (Function.update slots (k + 1) free) (k + 1) n free = spread slots k (n + 1) free := by
  funext j
  simp only [spread, Function.update_apply]
  split_ifs <;> omega

/-- The one block all whole pieces and the tail went to, one over the other. -/
def refill (src : Nat → UInt8) (tail : Nat) : Nat → Nat → (Nat → UInt8) → Nat → UInt8
  | 0, pos, data => blit data 0 (fun i => src (pos + i)) tail
  | n + 1, pos, data =>
      refill src tail n (pos + fsBlockSize) (blit data 0 (fun i => src (pos + i)) fsBlockSize)

theorem writeBlocks_eq_some (src : Nat → UInt8) (inode tail free : Nat) (n : Nat) :
    ∀ (k pos : Nat) (fs fs' : Fs), (fs.inodeBlocks inode).dataBlocks k = free →
      findFreeDatablock fs = some free →
      (writeBlocks src inode tail n k pos fs = some fs' ↔
        k + n < blockSlots ∧ (free < fs.bootBlock.dataBlockCount ∨ n = 0 ∧ tail = 0) ∧
          fs' = (fs.setSlots inode (spread (fs.inodeBlocks inode).dataBlocks k n free)).setBlock free
            (refill src tail n pos (fs.dataBlocks free))) := by
  induction n with
  | zero =>
      intro k pos fs fs' slot _
      simp only [writeBlocks, Option.bind_eq_bind, Option.bind_eq_some_iff, slot_eq_some, slot,
        storeBlock_eq_some, spread_zero, setSlots_self, refill, Nat.add_zero, true_and]
      constructor
      · rintro ⟨_, ⟨inside, rfl⟩, room, rfl⟩
        exact ⟨inside, room, rfl⟩
      · rintro ⟨inside, room, rfl⟩
        exact ⟨free, ⟨inside, rfl⟩, room, rfl⟩
  | succ n ih =>
      intro k pos fs fs' slot found
      -- the state after one round: the block stored, the next slot allocated
      let fs₁ := fs.setBlock free (blit (fs.dataBlocks free) 0 (fun i => src (pos + i)) fsBlockSize)
      let fs₂ := fs₁.setSlots inode
        (Function.update (fs.inodeBlocks inode).dataBlocks (k + 1) free)
      have slot₂ : (fs₂.inodeBlocks inode).dataBlocks (k + 1) = free := by simp [fs₂]
      have found₂ : findFreeDatablock fs₂ = some free := found
      have later := ih (k + 1) (pos + fsBlockSize) fs₂ fs' slot₂ found₂
      have closed : (fs₂.setSlots inode
          (spread (fs₂.inodeBlocks inode).dataBlocks (k + 1) n free)).setBlock free
            (refill src tail n (pos + fsBlockSize) (fs₂.dataBlocks free)) =
          (fs.setSlots inode (spread (fs.inodeBlocks inode).dataBlocks k (n + 1) free)).setBlock free
            (refill src tail (n + 1) pos (fs.dataBlocks free)) := by
        simp [fs₂, fs₁, spread_update, refill, setBlock_setSlots]
      rw [closed] at later
      have count₂ : fs₂.bootBlock.dataBlockCount = fs.bootBlock.dataBlockCount := rfl
      rw [count₂] at later
      constructor
      · intro run
        simp only [writeBlocks, Option.bind_eq_bind, Option.bind_eq_some_iff, slot_eq_some, slot,
          storeBlock_eq_some] at run
        obtain ⟨block, ⟨inside, here⟩, _, ⟨room, rfl⟩, free', found', _, set, run⟩ := run
        obtain rfl : free = free' := Option.some.inj (found.symm.trans found')
        subst block
        obtain ⟨_, rfl⟩ := setSlot_eq_some.1 set
        obtain ⟨high, _, same⟩ := later.1 run
        refine ⟨by omega, Or.inl ?_, same⟩
        exact room.resolve_right (by decide)
      · rintro ⟨high, room, same⟩
        have inside : free < fs.bootBlock.dataBlockCount := room.resolve_right (by omega)
        simp only [writeBlocks, Option.bind_eq_bind, Option.bind_eq_some_iff, slot_eq_some, slot,
          storeBlock_eq_some]
        refine ⟨free, ⟨by omega, rfl⟩, fs₁, ⟨Or.inl inside, rfl⟩, free, found, fs₂, ?_, ?_⟩
        · exact setSlot_eq_some.2 ⟨by omega, rfl⟩
        · exact later.2 ⟨by omega, Or.inl inside, same⟩

/-! ## The two paths -/

/-- The write stays in the piece it starts in. -/
def Within (offset len : Nat) : Prop := offset % fsBlockSize + len ≤ fsBlockSize

instance (offset len : Nat) : Decidable (Within offset len) := inferInstanceAs (Decidable (_ ≤ _))

/-- The block the first bytes of a write go to. -/
def firstBlock (slots : Nat → Nat) (offset len free : Nat) : Nat :=
  if ¬Within offset len ∧ slots (offset / fsBlockSize) = 0 then free
  else slots (offset / fsBlockSize)

/-- The slots after a write. -/
def slotsAfter (slots : Nat → Nat) (offset len free : Nat) (j : Nat) : Nat :=
  if ¬Within offset len ∧ (offset / fsBlockSize < j ∧ j ≤ (offset + len) / fsBlockSize ∨
    j = offset / fsBlockSize ∧ slots (offset / fsBlockSize) = 0) then free
  else slots j

theorem slotsAfter_within {offset len : Nat} (within : Within offset len) (slots : Nat → Nat)
    (free : Nat) : slotsAfter slots offset len free = slots := by
  funext j
  exact if_neg (fun across => across.1 within)

theorem writeSpan_within {fs fs' : Fs} {inode offset len : Nat} {src : Nat → UInt8} {wrote : Bool}
    (some' : 0 < len) (within : Within offset len) :
    writeSpan fs inode offset src len = some (fs', wrote) ↔
      offset / fsBlockSize < blockSlots ∧
      (fs.inodeBlocks inode).dataBlocks (offset / fsBlockSize) < fs.bootBlock.dataBlockCount ∧
      wrote = true ∧
      fs' = fs.setBlock ((fs.inodeBlocks inode).dataBlocks (offset / fsBlockSize))
        (blit (fs.dataBlocks ((fs.inodeBlocks inode).dataBlocks (offset / fsBlockSize)))
          (offset % fsBlockSize) src len) := by
  have path : len ≤ fsBlockSize - offset % fsBlockSize := by
    simp only [Within, fsBlockSize] at within ⊢
    omega
  simp only [writeSpan, path, if_true, Option.bind_eq_bind, Option.bind_eq_some_iff, slot_eq_some,
    storeBlock_eq_some, Option.some.injEq, Prod.mk.injEq, Nat.ne_of_gt some', or_false]
  constructor
  · rintro ⟨_, ⟨low, rfl⟩, _, ⟨inside, rfl⟩, rfl, rfl⟩
    exact ⟨low, inside, rfl, rfl⟩
  · rintro ⟨low, inside, rfl, rfl⟩
    exact ⟨_, ⟨low, rfl⟩, _, ⟨inside, rfl⟩, rfl, rfl⟩

/-- The boundaries a write enters, counted from its first piece. -/
theorem last_entered {offset len : Nat} (across : ¬Within offset len) :
    offset / fsBlockSize + 1 + (len - (fsBlockSize - offset % fsBlockSize)) / fsBlockSize =
      (offset + len) / fsBlockSize := by
  simp only [Within, fsBlockSize] at across ⊢
  omega

/-- The slots after the allocation for an empty first slot. -/
def allotted (slots : Nat → Nat) (k free j : Nat) : Nat :=
  if j = k ∧ slots k = 0 then free else slots j

theorem fillSlot_some {fs fs' : Fs} {inode k : Nat} (fill : fillSlot fs inode k = some fs') :
    k < blockSlots ∧ (fs'.inodeBlocks inode).dataBlocks k ≠ 0 ∧
      findFreeDatablock fs' = findFreeDatablock fs ∧
      ∀ free, findFreeDatablock fs = some free →
        fs' = fs.setSlots inode (allotted (fs.inodeBlocks inode).dataBlocks k free) := by
  simp only [fillSlot, Option.bind_eq_bind, Option.bind_eq_some_iff, slot_eq_some] at fill
  obtain ⟨_, ⟨inside, rfl⟩, fill⟩ := fill
  refine ⟨inside, ?_⟩
  split_ifs at fill with empty
  · obtain ⟨free, found, set⟩ := Option.bind_eq_some_iff.1 fill
    obtain ⟨_, rfl⟩ := setSlot_eq_some.1 set
    refine ⟨?_, rfl, ?_⟩
    · have pos := findFreeDatablock_pos found
      simp only [setSlots_slots, Function.update_self]
      omega
    · intro free' found'
      obtain rfl : free = free' := Option.some.inj (found.symm.trans found')
      congr 1
      funext j
      simp only [allotted, empty, and_true, Function.update_apply]
  · obtain rfl := Option.some.inj fill
    refine ⟨empty, rfl, fun free _ => ?_⟩
    have same : allotted (fs.inodeBlocks inode).dataBlocks k free = (fs.inodeBlocks inode).dataBlocks := by
      funext j
      simp only [allotted, empty, and_false, if_false]
    rw [same, setSlots_self]

theorem fillSlot_of_found {fs : Fs} (inode : Nat) {k free : Nat} (inside : k < blockSlots)
    (found : findFreeDatablock fs = some free) : fillSlot fs inode k =
      some (fs.setSlots inode (allotted (fs.inodeBlocks inode).dataBlocks k free)) := by
  have fill : ∃ fs', fillSlot fs inode k = some fs' := by
    simp only [fillSlot, Option.bind_eq_bind, slot_eq_some.2 ⟨inside, rfl⟩, Option.bind_some, found]
    split_ifs
    · exact ⟨_, setSlot_eq_some.2 ⟨inside, rfl⟩⟩
    · exact ⟨_, rfl⟩
  obtain ⟨fs', fill⟩ := fill
  rw [fill, (fillSlot_some fill).2.2.2 free found]

/-- What the copies after the first one leave in the free block. -/
def refilled (src : Nat → UInt8) (offset len : Nat) (data : Nat → UInt8) : Nat → UInt8 :=
  let remain := fsBlockSize - offset % fsBlockSize
  refill src ((len - remain) % fsBlockSize) ((len - remain) / fsBlockSize) remain data

/-- Both allocations and the loop's together. -/
theorem spread_allotted {offset len : Nat} (across : ¬Within offset len) (slots : Nat → Nat)
    (free : Nat) :
    spread (Function.update (allotted slots (offset / fsBlockSize) free) (offset / fsBlockSize + 1)
      free) (offset / fsBlockSize + 1)
        ((len - (fsBlockSize - offset % fsBlockSize)) / fsBlockSize) free =
      slotsAfter slots offset len free := by
  have last := last_entered across
  rw [spread_update]
  funext j
  simp only [spread, slotsAfter, across, not_false_eq_true, true_and, allotted]
  split_ifs <;> first | rfl | omega

theorem allotted_first {offset len : Nat} (across : ¬Within offset len) (slots : Nat → Nat)
    (free : Nat) : allotted slots (offset / fsBlockSize) free (offset / fsBlockSize) =
      firstBlock slots offset len free := by
  simp [allotted, firstBlock, across]

theorem writeSpan_across {fs fs' : Fs} {inode offset len : Nat} {src : Nat → UInt8} {wrote : Bool}
    (across : ¬Within offset len) :
    writeSpan fs inode offset src len = some (fs', wrote) ↔
      ∃ free, findFreeDatablock fs = some free ∧ free < fs.bootBlock.dataBlockCount ∧
        (offset + len) / fsBlockSize < blockSlots ∧
        firstBlock (fs.inodeBlocks inode).dataBlocks offset len free <
          fs.bootBlock.dataBlockCount ∧
        wrote = true ∧
        let first := firstBlock (fs.inodeBlocks inode).dataBlocks offset len free
        let fs₁ := (fs.setSlots inode
          (slotsAfter (fs.inodeBlocks inode).dataBlocks offset len free)).setBlock first
            (blit (fs.dataBlocks first) (offset % fsBlockSize) src
              (fsBlockSize - offset % fsBlockSize))
        fs' = fs₁.setBlock free (refilled src offset len (fs₁.dataBlocks free)) := by
  have path : ¬len ≤ fsBlockSize - offset % fsBlockSize := by
    simp only [Within, fsBlockSize] at across ⊢
    omega
  have some' : fsBlockSize - offset % fsBlockSize ≠ 0 := by
    simp only [fsBlockSize]
    omega
  have more : ¬((len - (fsBlockSize - offset % fsBlockSize)) / fsBlockSize = 0 ∧
      (len - (fsBlockSize - offset % fsBlockSize)) % fsBlockSize = 0) := by
    simp only [fsBlockSize] at path ⊢
    omega
  have last := last_entered across
  have after := spread_allotted across (fs.inodeBlocks inode).dataBlocks
  have entry := allotted_first across (fs.inodeBlocks inode).dataBlocks
  simp only [writeSpan, path, if_false, Option.bind_eq_bind, Option.bind_eq_some_iff]
  constructor
  · rintro ⟨fs₁, fill, block, slot, run⟩
    obtain ⟨inside, filled, same, closed⟩ := fillSlot_some fill
    obtain ⟨_, rfl⟩ := slot_eq_some.1 slot
    simp only [filled, if_false, Option.bind_eq_some_iff, storeBlock_eq_some, some', or_false,
      Option.some.injEq, Prod.mk.injEq] at run
    obtain ⟨fs₂, ⟨room, rfl⟩, free, found, fs₃, set, fs₄, run, rfl, rfl⟩ := run
    rw [findFreeDatablock_setBlock, same] at found
    obtain rfl := closed free found
    obtain ⟨_, rfl⟩ := setSlot_eq_some.1 set
    have loop := (writeBlocks_eq_some src inode _ free _ _ _ _ _ (by simp) (by simpa using found)).1 run
    obtain ⟨low, inside', rfl⟩ := loop
    simp only [setSlots_slots, entry, setBlock_bootBlock, setSlots_bootBlock] at room inside'
    refine ⟨free, found, inside'.resolve_right more, last ▸ low, room, rfl, ?_⟩
    simp [setBlock_setSlots, after, entry, refilled]
  · rintro ⟨free, found, inside, low, room, rfl, rfl⟩
    have start : offset / fsBlockSize < blockSlots :=
      Nat.lt_of_le_of_lt (Nat.div_le_div_right (Nat.le_add_right offset len)) low
    have next : offset / fsBlockSize + 1 < blockSlots :=
      Nat.lt_of_le_of_lt (Nat.le_add_right _ _) (last.symm ▸ low)
    have filled := (fillSlot_some (fillSlot_of_found inode start found)).2.1
    refine ⟨_, fillSlot_of_found inode start found, _, slot_eq_some.2 ⟨start, rfl⟩, ?_⟩
    rw [if_neg filled]
    simp only [Option.bind_eq_some_iff, storeBlock_eq_some, some', or_false, Option.some.injEq,
      Prod.mk.injEq, setSlots_slots, entry]
    refine ⟨_, ⟨room, rfl⟩, free, found, _, setSlot_eq_some.2 ⟨next, rfl⟩, _,
      (writeBlocks_eq_some src inode _ free _ _ _ _ _ (by simp) (by simpa using found)).2
        ⟨last.symm ▸ low, Or.inl inside, rfl⟩, ?_, trivial⟩
    simp [setBlock_setSlots, after, refilled]

/-! ## write_data -/

/-- The effect of a write of `len` bytes at `offset` on the file system, `free`
being what `find_free_datablock` gives: one inode, at most two blocks and the
disk. -/
structure Wrote (fs fs' : Fs) (inode offset len free : Nat) : Prop where
  bootBlock : fs'.bootBlock = fs.bootBlock
  bitmap : fs'.dataBlockBitmap = fs.dataBlockBitmap
  others : ∀ i, i ≠ inode → fs'.inodeBlocks i = fs.inodeBlocks i
  reach : offset + len ≤ fsBlockSize * blockSlots
  entered : ¬Within offset len → (offset + len) / fsBlockSize < blockSlots
  size : (fs'.inodeBlocks inode).fileSize = max (fs.inodeBlocks inode).fileSize (offset + len)
  slots : (fs'.inodeBlocks inode).dataBlocks =
    slotsAfter (fs.inodeBlocks inode).dataBlocks offset len free
  blocks : ∀ b, b ≠ firstBlock (fs.inodeBlocks inode).dataBlocks offset len free →
    (¬Within offset len → b ≠ free) → fs'.dataBlocks b = fs.dataBlocks b

section

variable (fs : Fs) (inode offset len : Nat)

@[simp] theorem resized_bootBlock : (fs.resized inode offset len).bootBlock = fs.bootBlock := by
  simp only [Fs.resized]
  split_ifs <;> rfl

@[simp] theorem resized_dataBlocks : (fs.resized inode offset len).dataBlocks = fs.dataBlocks := by
  simp only [Fs.resized]
  split_ifs <;> rfl

@[simp] theorem resized_bitmap :
    (fs.resized inode offset len).dataBlockBitmap = fs.dataBlockBitmap := by
  simp only [Fs.resized]
  split_ifs <;> rfl

@[simp] theorem resized_slots (i : Nat) :
    ((fs.resized inode offset len).inodeBlocks i).dataBlocks = (fs.inodeBlocks i).dataBlocks := by
  simp only [Fs.resized]
  split_ifs
  · by_cases same : i = inode <;> simp [Fs.setSize, Fs.setInode, same]
  · rfl

theorem resized_others {i : Nat} (other : i ≠ inode) :
    (fs.resized inode offset len).inodeBlocks i = fs.inodeBlocks i := by
  simp only [Fs.resized]
  split_ifs
  · simp [Fs.setSize, Fs.setInode, other]
  · rfl

theorem resized_size : ((fs.resized inode offset len).inodeBlocks inode).fileSize =
    max (fs.inodeBlocks inode).fileSize (u32 (offset + len)) := by
  simp only [Fs.resized]
  split_ifs with grows
  · simp [Fs.setSize, Fs.setInode, Nat.max_eq_right (Nat.le_of_lt grows)]
  · rw [Nat.max_eq_left (Nat.le_of_not_lt grows)]

@[simp] theorem findFreeDatablock_resized :
    findFreeDatablock (fs.resized inode offset len) = findFreeDatablock fs := by
  simp only [findFreeDatablock, resized_bootBlock, resized_bitmap]

end

@[simp] theorem flush_bootBlock (fs : Fs) : fs.flush.bootBlock = fs.bootBlock := rfl

@[simp] theorem flush_dataBlocks (fs : Fs) : fs.flush.dataBlocks = fs.dataBlocks := rfl

@[simp] theorem flush_bitmap (fs : Fs) : fs.flush.dataBlockBitmap = fs.dataBlockBitmap := rfl

theorem wrote_within {fs : Fs} {inode offset len : Nat} {src : Nat → UInt8}
    (within : Within offset len) (low : offset / fsBlockSize < blockSlots) :
    Wrote fs ((fs.resized inode offset len).setBlock
      ((fs.inodeBlocks inode).dataBlocks (offset / fsBlockSize))
      (blit (fs.dataBlocks ((fs.inodeBlocks inode).dataBlocks (offset / fsBlockSize)))
        (offset % fsBlockSize) src len)).flush inode offset len 0 := by
  have reach : offset + len ≤ fsBlockSize * blockSlots := by
    simp only [Within, fsBlockSize, blockSlots] at within low ⊢
    omega
  have exact' : u32 (offset + len) = offset + len :=
    u32_of_lt (Nat.lt_of_le_of_lt reach (by decide))
  constructor
  · simp
  · simp [Fs.setBlock]
  · intro i other
    simp [resized_others _ _ _ _ other]
  · exact reach
  · exact fun across => absurd within across
  · simp [resized_size, exact']
  · simp [slotsAfter_within within]
  · intro b first _
    simp only [firstBlock, within, not_true_eq_false, false_and, if_false] at first
    simp [Function.update_of_ne first]

/-- A write over the end of its first piece, with what ends up in the two blocks. -/
theorem wrote_across {fs : Fs} {inode offset len free : Nat} (first rest : Nat → UInt8)
    (across : ¬Within offset len) (low : (offset + len) / fsBlockSize < blockSlots) :
    Wrote fs ((((fs.resized inode offset len).setSlots inode
      (slotsAfter (fs.inodeBlocks inode).dataBlocks offset len free)).setBlock
        (firstBlock (fs.inodeBlocks inode).dataBlocks offset len free) first).setBlock free rest).flush
      inode offset len free := by
  have reach : offset + len ≤ fsBlockSize * blockSlots := by
    simp only [fsBlockSize, blockSlots] at low ⊢
    omega
  have exact' : u32 (offset + len) = offset + len :=
    u32_of_lt (Nat.lt_of_le_of_lt reach (by decide))
  constructor
  · simp
  · simp [Fs.setBlock, Fs.setSlots, Fs.setInode]
  · intro i other
    simp [resized_others _ _ _ _ other, setSlots_other _ _ _ other]
  · exact reach
  · exact fun _ => low
  · simp [resized_size, exact']
  · simp
  · intro b first allocated
    simp [Function.update_of_ne first, Function.update_of_ne (allocated across)]

/-- **What write_data can do**: nothing, or a write of the whole range. -/
theorem writeData_some {fs fs' : Fs} {inode offset len : Nat} {buf : Option (Nat → UInt8)} {v : Int}
    (ran : writeData fs inode offset buf len = some (fs', v)) :
    (fs' = fs ∧ v ≤ 0 ∧ (v = -1 ↔ buf.isNone ∨ len = 0 ∨ fs.bootBlock.inodeCount ≤ inode)) ∨
      ∃ free, 0 < len ∧ inode < fs.bootBlock.inodeCount ∧
      offset ≤ (fs.inodeBlocks inode).fileSize ∧
      (¬Within offset len → findFreeDatablock fs = some free) ∧
      Wrote fs fs' inode offset len free ∧ v = i32 len ∧ buf.isSome := by
  cases buf with
  | none =>
      cases ran
      exact Or.inl ⟨rfl, by decide, iff_of_true rfl (Or.inl rfl)⟩
  | some src =>
      simp only [writeData] at ran
      split_ifs at ran with refused beyond
      · cases ran
        exact Or.inl ⟨rfl, by decide, iff_of_true rfl (Or.inr refused)⟩
      · cases ran
        exact Or.inl ⟨rfl, le_refl 0, iff_of_false (by decide) fun refuses =>
          refused (by simpa using refuses)⟩
      have some' : 0 < len := by omega
      obtain ⟨⟨fs₁, wrote⟩, span, ran⟩ := Option.bind_eq_some_iff.1 ran
      right
      by_cases within : Within offset len
      · obtain ⟨low, _, rfl, rfl⟩ := (writeSpan_within some' within).1 span
        cases ran
        refine ⟨0, some', by omega, by omega, fun across => absurd within across, ?_, rfl, rfl⟩
        simpa using wrote_within within (by simpa using low)
      · obtain ⟨free, found, _, low, _, rfl, rfl⟩ := (writeSpan_across within).1 span
        cases ran
        refine ⟨free, some', by omega, by omega, fun _ => by simpa using found, ?_, rfl, rfl⟩
        simpa using wrote_across _ _ within low

/-- **When write_data returns -1**: it has nothing to write, or no such inode. -/
theorem writeData_refuses {fs fs' : Fs} {inode offset len : Nat} {buf : Option (Nat → UInt8)}
    {v : Int} (ran : writeData fs inode offset buf len = some (fs', v)) :
    v = -1 ↔ buf.isNone ∨ len = 0 ∨ fs.bootBlock.inodeCount ≤ inode := by
  rcases writeData_some ran with ⟨_, _, refuses⟩ | ⟨free, some', inside, _, _, wrote, rfl, given⟩
  · exact refuses
  · have small : len < 2 ^ 31 := by
      have reach := wrote.reach
      simp only [fsBlockSize, blockSlots] at reach
      omega
    rw [i32_of_lt small]
    refine iff_of_false (by omega) ?_
    rintro (none' | empty | outside)
    · rw [Option.isNone_iff_eq_none] at none'
      rw [none'] at given
      cases given
    · omega
    · omega

/-- A write that returns its length has sent the image to the disk. -/
theorem writeData_flushes {fs fs' : Fs} {inode offset len : Nat} {buf : Option (Nat → UInt8)}
    (ran : writeData fs inode offset buf len = some (fs', (len : Int))) (some' : 0 < len) :
    ∃ fs₁ : Fs, fs' = fs₁.flush := by
  cases buf with
  | none =>
      have failed := (Prod.mk.inj (Option.some.inj ran)).2
      omega
  | some src =>
      simp only [writeData] at ran
      split_ifs at ran
      · have failed := (Prod.mk.inj (Option.some.inj ran)).2
        omega
      · have failed := (Prod.mk.inj (Option.some.inj ran)).2
        omega
      obtain ⟨⟨fs₁, wrote⟩, _, ran⟩ := Option.bind_eq_some_iff.1 ran
      cases wrote with
      | true => exact ⟨fs₁, (Prod.mk.inj (Option.some.inj ran)).1.symm⟩
      | false =>
          have failed := (Prod.mk.inj (Option.some.inj ran)).2
          omega

theorem writeData_bootBlock {fs fs' : Fs} {inode offset len : Nat} {buf : Option (Nat → UInt8)}
    {v : Int} (ran : writeData fs inode offset buf len = some (fs', v)) :
    fs'.bootBlock = fs.bootBlock := by
  rcases writeData_some ran with ⟨same, _⟩ | ⟨_, _, _, _, _, wrote, _⟩
  · rw [same]
  · exact wrote.bootBlock

end Illinix.FileSys
