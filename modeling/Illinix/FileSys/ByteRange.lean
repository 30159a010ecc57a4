/-
# FileSys.ByteRange -- write_data as an update of a byte range

A write should replace the bytes of its range and leave the others.  Inside one
block it does.  Across a boundary every slot it enters gets the free block,
allocated before or not: what these slots held is lost, and all of them show the
last piece stored.  `updated_iff` is the exact condition: from the first such
slot on the buffer repeats every 4096 bytes, and what follows the range in the
last slot is what the free block has there.
-/
import Illinix.FileSys.Append
import Illinix.FileSys.Slices

namespace Illinix.FileSys

open Illinix.Theory

set_option autoImplicit false

/-- The bytes of a file: its data, up to the size. -/
def Fs.bytes (fs : Fs) (inode : Nat) : List UInt8 :=
  (fs.fileData inode).take (fs.inodeBlocks inode).fileSize

theorem bytes_eq {fs : Fs} {inode : Nat}
    (size : (fs.inodeBlocks inode).fileSize ≤ blockSlots * fsBlockSize) :
    fs.bytes inode = firsts (fs.content inode) (fs.inodeBlocks inode).fileSize := by
  have front := take_drop_firsts (fs.content inode) (m := 0) ((Nat.zero_add _).trans_le size)
  simp only [List.drop_zero, Nat.zero_add] at front
  rw [Fs.bytes, fileData_eq, front]

/-- A well-formed file: the size fits the block list, the slots it reaches are
allocated, and the allocated slots have blocks of their own, in range and marked. -/
structure FormedFile (fs : Fs) (inode : Nat) : Prop where
  size : (fs.inodeBlocks inode).fileSize ≤ blockSlots * fsBlockSize
  used : ∀ k, fsBlockSize * k < (fs.inodeBlocks inode).fileSize →
    (fs.inodeBlocks inode).dataBlocks k ≠ 0
  inRange : ∀ k, k < blockSlots → (fs.inodeBlocks inode).dataBlocks k < fs.bootBlock.dataBlockCount
  apart : ∀ k k', k < blockSlots → k' < blockSlots → (fs.inodeBlocks inode).dataBlocks k ≠ 0 →
    (fs.inodeBlocks inode).dataBlocks k = (fs.inodeBlocks inode).dataBlocks k' → k = k'
  marked : ∀ k, k < blockSlots → (fs.inodeBlocks inode).dataBlocks k ≠ 0 →
    fs.dataBlockBitmap ((fs.inodeBlocks inode).dataBlocks k) = true

/-- The file after an update: the new bytes from `offset` on, the old ones
around them. -/
structure Updated (fs fs' : Fs) (inode offset : Nat) (new : List UInt8) : Prop where
  size : (fs'.inodeBlocks inode).fileSize = max (fs.inodeBlocks inode).fileSize (offset + new.length)
  bytes : fs'.bytes inode = splice (fs.bytes inode) offset new

/-! ## What the free block holds at the end -/

theorem refill_apply (src : Nat → UInt8) (tail n : Nat) : ∀ (pos : Nat) (data : Nat → UInt8) {i : Nat},
    i < fsBlockSize → refill src tail n pos data i =
      if i < tail then src (pos + fsBlockSize * n + i)
      else if 0 < n then src (pos + fsBlockSize * (n - 1) + i) else data i := by
  induction n with
  | zero =>
      intro pos data i _
      simp only [refill, blit, Nat.zero_le, true_and, Nat.zero_add, Nat.sub_zero, Nat.mul_zero,
        Nat.add_zero, Nat.lt_irrefl, if_false]
  | succ n ih =>
      intro pos data i inside
      have next : pos + fsBlockSize + fsBlockSize * n = pos + fsBlockSize * (n + 1) := by ring
      rw [refill, ih _ _ inside, next, if_pos (Nat.succ_pos n), Nat.add_sub_cancel]
      cases n with
      | zero =>
          rw [if_neg (Nat.lt_irrefl 0), blit_inside _ _ (Nat.zero_le i) (by omega)]
          rfl
      | succ n =>
          have before : pos + fsBlockSize + fsBlockSize * n = pos + fsBlockSize * (n + 1) := by ring
          rw [if_pos (Nat.succ_pos n), Nat.add_sub_cancel, before]

/-- The last slot a write enters. -/
def lastSlot (offset len : Nat) : Nat := (offset + len) / fsBlockSize

/-- Place by place, the free block holds the last bytes stored there. -/
theorem refilled_apply {offset len i : Nat} {src : Nat → UInt8} (across : ¬Within offset len)
    (data : Nat → UInt8) (inside : i < fsBlockSize) : refilled src offset len data i =
      if fsBlockSize * lastSlot offset len + i < offset + len then
        src (fsBlockSize * lastSlot offset len + i - offset)
      else if offset / fsBlockSize + 1 < lastSlot offset len then
        src (fsBlockSize * (lastSlot offset len - 1) + i - offset)
      else data i := by
  have last := last_entered across
  rw [refilled, refill_apply _ _ _ _ _ inside]
  generalize rounds : (len - (fsBlockSize - offset % fsBlockSize)) / fsBlockSize = n at last ⊢
  have tail : i < (len - (fsBlockSize - offset % fsBlockSize)) % fsBlockSize ↔
      fsBlockSize * lastSlot offset len + i < offset + len := by
    simp only [lastSlot, Within, fsBlockSize] at *
    omega
  have more : 0 < n ↔ offset / fsBlockSize + 1 < lastSlot offset len := by
    simp only [lastSlot]
    omega
  have place : fsBlockSize - offset % fsBlockSize + fsBlockSize * n + i =
      fsBlockSize * lastSlot offset len + i - offset := by
    simp only [lastSlot, fsBlockSize] at last ⊢
    omega
  simp only [tail, more]
  split_ifs with _ several
  · rw [place]
  · congr 1
    simp only [lastSlot, fsBlockSize] at last several ⊢
    omega
  · rfl

/-! ## The stores of a write -/

/-- A write that has returned its length: the data blocks afterwards. -/
theorem writeData_stores {fs fs' : Fs} {inode offset len : Nat} {src : Nat → UInt8} (some' : 0 < len)
    (ran : writeData fs inode offset (some src) len = some (fs', (len : Int))) :
    (Within offset len ∧ offset / fsBlockSize < blockSlots ∧
      fs'.dataBlocks = Function.update fs.dataBlocks
        ((fs.inodeBlocks inode).dataBlocks (offset / fsBlockSize))
        (blit (fs.dataBlocks ((fs.inodeBlocks inode).dataBlocks (offset / fsBlockSize)))
          (offset % fsBlockSize) src len)) ∨
    (¬Within offset len ∧ ∃ free, findFreeDatablock fs = some free ∧
      free < fs.bootBlock.dataBlockCount ∧ lastSlot offset len < blockSlots ∧
      ∃ first blocks, first = firstBlock (fs.inodeBlocks inode).dataBlocks offset len free ∧
        blocks = Function.update fs.dataBlocks first
          (blit (fs.dataBlocks first) (offset % fsBlockSize) src
            (fsBlockSize - offset % fsBlockSize)) ∧
        fs'.dataBlocks = Function.update blocks free (refilled src offset len (blocks free))) := by
  simp only [writeData] at ran
  split_ifs at ran
  · have failed := (Prod.mk.inj (Option.some.inj ran)).2
    omega
  · have failed := (Prod.mk.inj (Option.some.inj ran)).2
    omega
  obtain ⟨⟨fs₁, wrote⟩, span, ran⟩ := Option.bind_eq_some_iff.1 ran
  by_cases within : Within offset len
  · obtain ⟨low, _, rfl, rfl⟩ := (writeSpan_within some' within).1 span
    have same := (Prod.mk.inj (Option.some.inj ran)).1
    refine Or.inl ⟨within, low, ?_⟩
    rw [← same]
    simp
  · obtain ⟨free, found, inside, low, _, rfl, rfl⟩ := (writeSpan_across within).1 span
    have same := (Prod.mk.inj (Option.some.inj ran)).1
    refine Or.inr ⟨within, free, by simpa using found, by simpa using inside, low, _, _, rfl, rfl, ?_⟩
    rw [← same]
    simp

/-- The size and the slots afterwards. -/
theorem writeData_inode {fs fs' : Fs} {inode offset len : Nat} {src : Nat → UInt8} (some' : 0 < len)
    (ran : writeData fs inode offset (some src) len = some (fs', (len : Int))) :
    offset ≤ (fs.inodeBlocks inode).fileSize ∧ offset + len ≤ blockSlots * fsBlockSize ∧
      (fs'.inodeBlocks inode).fileSize = max (fs.inodeBlocks inode).fileSize (offset + len) ∧
      ∀ free, (¬Within offset len → findFreeDatablock fs = some free) →
        (fs'.inodeBlocks inode).dataBlocks =
          slotsAfter (fs.inodeBlocks inode).dataBlocks offset len free := by
  rcases writeData_some ran with ⟨_, failed, _⟩ | ⟨free, _, _, low, found, wrote, _⟩
  · omega
  · refine ⟨low, by rw [Nat.mul_comm]; exact wrote.reach, wrote.size, fun free' found' => ?_⟩
    rw [wrote.slots]
    refine slotsAfter_free fun across => ?_
    exact Option.some.inj ((found across).symm.trans (found' across))

/-! ## The content afterwards -/

/-- The first position whose slot gets the free block, when the write crosses a
boundary. -/
def relinkedFrom (slots : Nat → Nat) (offset : Nat) : Nat :=
  fsBlockSize * if slots (offset / fsBlockSize) = 0 then offset / fsBlockSize
    else offset / fsBlockSize + 1

/-- Byte `i` of the free block after a write across a boundary. -/
def stored (slots : Nat → Nat) (offset len : Nat) (src old : Nat → UInt8) (i : Nat) : UInt8 :=
  if fsBlockSize * lastSlot offset len + i < offset + len then
    src (fsBlockSize * lastSlot offset len + i - offset)
  else if relinkedFrom slots offset < fsBlockSize * lastSlot offset len then
    src (fsBlockSize * (lastSlot offset len - 1) + i - offset)
  else old i

section

variable {fs fs' : Fs} {inode offset len : Nat} {src : Nat → UInt8}

/-- A write that starts in an empty slot starts at its beginning. -/
theorem empty_first (formed : FormedFile fs inode) (low : offset ≤ (fs.inodeBlocks inode).fileSize)
    (empty : (fs.inodeBlocks inode).dataBlocks (offset / fsBlockSize) = 0) :
    offset = fsBlockSize * (offset / fsBlockSize) := by
  by_contra inside
  refine formed.used (offset / fsBlockSize) ?_ empty
  have start := Nat.mul_div_le offset fsBlockSize
  omega

theorem relinkedFrom_ge (formed : FormedFile fs inode)
    (low : offset ≤ (fs.inodeBlocks inode).fileSize) :
    offset ≤ relinkedFrom (fs.inodeBlocks inode).dataBlocks offset := by
  simp only [relinkedFrom]
  split_ifs with empty
  · exact Nat.le_of_eq (empty_first formed low empty)
  · simp only [fsBlockSize]
    omega

/-- A slot a position of the file uses has a block of its own, unlike `free`. -/
theorem own_block (formed : FormedFile fs inode) {free k k' : Nat} (inside : k < blockSlots)
    (inside' : k' < blockSlots) (used : fsBlockSize * k < (fs.inodeBlocks inode).fileSize)
    (unmarked : fs.dataBlockBitmap free = false) (apart : k ≠ k') :
    (fs.inodeBlocks inode).dataBlocks k ≠ (fs.inodeBlocks inode).dataBlocks k' ∧
      (fs.inodeBlocks inode).dataBlocks k ≠ free := by
  have allocated := formed.used k used
  refine ⟨fun shared => apart (formed.apart k k' inside inside' allocated shared), ?_⟩
  rintro rfl
  exact Bool.false_ne_true (unmarked.symm.trans (formed.marked k inside allocated))

/-- What a write stores in the block of its first slot is an update there. -/
theorem blit_piece {p n : Nat} (here : p / fsBlockSize = offset / fsBlockSize)
    (piece : n = min len (fsBlockSize - offset % fsBlockSize)) :
    blit (fs.dataBlocks ((fs.inodeBlocks inode).dataBlocks (offset / fsBlockSize)))
      (offset % fsBlockSize) src n (p % fsBlockSize) = blit (fs.content inode) offset src len p := by
  simp only [blit, Fs.content, here]
  have range : (offset % fsBlockSize ≤ p % fsBlockSize ∧ p % fsBlockSize < offset % fsBlockSize + n) ↔
      offset ≤ p ∧ p < offset + len := by
    simp only [fsBlockSize] at here piece ⊢
    omega
  have place : p % fsBlockSize - offset % fsBlockSize = p - offset := by
    simp only [fsBlockSize] at here ⊢
    omega
  simp only [range, place]

/-- Inside one block the write is an update. -/
theorem content_within (formed : FormedFile fs inode) (some' : 0 < len) (within : Within offset len)
    (ran : writeData fs inode offset (some src) len = some (fs', (len : Int))) {p : Nat}
    (inside : p < max (fs.inodeBlocks inode).fileSize (offset + len)) :
    fs'.content inode p = blit (fs.content inode) offset src len p := by
  obtain ⟨low, reach, _, slots⟩ := writeData_inode some' ran
  have same := slots 0 fun across => absurd within across
  rw [slotsAfter_within within] at same
  rcases writeData_stores some' ran with ⟨_, start, blocks⟩ | ⟨across, _⟩
  · rw [Fs.content, same, blocks]
    by_cases here : p / fsBlockSize = offset / fsBlockSize
    · rw [here, Function.update_self]
      refine blit_piece here ?_
      simp only [Within] at within
      omega
    · have outside : ¬(offset ≤ p ∧ p < offset + len) := by
        simp only [Within, fsBlockSize] at within here ⊢
        omega
      have size := formed.size
      have slot : p / fsBlockSize < blockSlots := by
        simp only [fsBlockSize, blockSlots] at inside size reach ⊢
        omega
      have used : fsBlockSize * (p / fsBlockSize) < (fs.inodeBlocks inode).fileSize := by
        have bound := Nat.mul_div_le p fsBlockSize
        omega
      have apart : (fs.inodeBlocks inode).dataBlocks (p / fsBlockSize) ≠
          (fs.inodeBlocks inode).dataBlocks (offset / fsBlockSize) := fun shared =>
        here (formed.apart _ _ slot start (formed.used _ used) shared)
      rw [Function.update_of_ne apart, blit_outside _ _ outside, Fs.content]
  · exact absurd within across

/-- The state of a write that crosses a boundary. -/
structure Crossed (fs fs' : Fs) (inode offset len : Nat) (src : Nat → UInt8) (free : Nat) : Prop where
  across : ¬Within offset len
  unmarked : fs.dataBlockBitmap free = false
  low : offset ≤ (fs.inodeBlocks inode).fileSize
  reach : offset + len ≤ blockSlots * fsBlockSize
  last : lastSlot offset len < blockSlots
  slots : (fs'.inodeBlocks inode).dataBlocks =
    slotsAfter (fs.inodeBlocks inode).dataBlocks offset len free
  blocks : ∃ first blocks, first = firstBlock (fs.inodeBlocks inode).dataBlocks offset len free ∧
    blocks = Function.update fs.dataBlocks first (blit (fs.dataBlocks first) (offset % fsBlockSize)
      src (fsBlockSize - offset % fsBlockSize)) ∧
    fs'.dataBlocks = Function.update blocks free (refilled src offset len (blocks free))

theorem crossed_of_writeData (some' : 0 < len) (across : ¬Within offset len)
    (ran : writeData fs inode offset (some src) len = some (fs', (len : Int))) :
    ∃ free, findFreeDatablock fs = some free ∧ Crossed fs fs' inode offset len src free := by
  obtain ⟨low, reach, _, slots⟩ := writeData_inode some' ran
  rcases writeData_stores some' ran with ⟨within, _⟩ | ⟨_, free, found, inside, last, blocks⟩
  · exact absurd within across
  · exact ⟨free, found, across, findFreeDatablock_unmarked found inside, low, reach, last,
      slots free fun _ => found, blocks⟩

theorem Crossed.next {free : Nat} (crossed : Crossed fs fs' inode offset len src free) :
    offset / fsBlockSize + 1 ≤ lastSlot offset len := by
  have last := last_entered crossed.across
  rw [lastSlot, ← last]
  exact Nat.le_add_right _ _

/-- The block of a first slot that was in use is not the free one. -/
theorem Crossed.full_ne_free (formed : FormedFile fs inode) {free : Nat}
    (crossed : Crossed fs fs' inode offset len src free)
    (full : (fs.inodeBlocks inode).dataBlocks (offset / fsBlockSize) ≠ 0) :
    (fs.inodeBlocks inode).dataBlocks (offset / fsBlockSize) ≠ free := by
  have next := crossed.next
  have last := crossed.last
  rintro rfl
  exact Bool.false_ne_true (crossed.unmarked.symm.trans (formed.marked _ (by omega) full))

theorem firstBlock_across {slots : Nat → Nat} (across : ¬Within offset len) (free : Nat) :
    firstBlock slots offset len free =
      if slots (offset / fsBlockSize) = 0 then free else slots (offset / fsBlockSize) := by
  simp only [firstBlock, across, not_false_eq_true, true_and]

/-- The slots that get the free block show what it holds at the end. -/
theorem content_relinked (formed : FormedFile fs inode) {free : Nat}
    (crossed : Crossed fs fs' inode offset len src free) {p : Nat}
    (start : relinkedFrom (fs.inodeBlocks inode).dataBlocks offset ≤ p)
    (inside : p / fsBlockSize ≤ lastSlot offset len) :
    fs'.content inode p = stored (fs.inodeBlocks inode).dataBlocks offset len src
      (fs.dataBlocks free) (p % fsBlockSize) := by
  have next := crossed.next
  have below : p % fsBlockSize < fsBlockSize := Nat.mod_lt _ (by decide)
  obtain ⟨first, blocks, isFirst, stores, after⟩ := crossed.blocks
  rw [firstBlock_across crossed.across] at isFirst
  have slot : (fs'.inodeBlocks inode).dataBlocks (p / fsBlockSize) = free := by
    rw [crossed.slots]
    refine if_pos ⟨crossed.across, ?_⟩
    simp only [relinkedFrom] at start
    split_ifs at start with empty
    · have reached : offset / fsBlockSize ≤ p / fsBlockSize := by
        simp only [fsBlockSize] at start ⊢
        omega
      rcases Nat.eq_or_lt_of_le reached with same | later
      · exact Or.inr ⟨same.symm, empty⟩
      · exact Or.inl ⟨later, inside⟩
    · refine Or.inl ⟨?_, inside⟩
      simp only [fsBlockSize] at start ⊢
      omega
  rw [Fs.content, slot, after, Function.update_self, refilled_apply crossed.across _ below]
  simp only [stored]
  refine if_congr Iff.rfl rfl ?_
  by_cases empty : (fs.inodeBlocks inode).dataBlocks (offset / fsBlockSize) = 0
  · -- the first piece went to the free block as well
    have aligned := empty_first formed crossed.low empty
    have begins : relinkedFrom (fs.inodeBlocks inode).dataBlocks offset <
        fsBlockSize * lastSlot offset len := by
      rw [relinkedFrom, if_pos empty]
      simp only [fsBlockSize] at next ⊢
      omega
    rw [if_pos begins]
    split_ifs with several
    · rfl
    · rw [stores, isFirst, if_pos empty, Function.update_self]
      have whole : offset % fsBlockSize = 0 := by
        simp only [fsBlockSize] at aligned ⊢
        omega
      rw [whole, blit_inside _ _ (Nat.zero_le _) (by omega)]
      congr 1
      simp only [fsBlockSize] at aligned next several ⊢
      omega
  · have other : free ≠ first := by
      rw [isFirst, if_neg empty]
      exact (crossed.full_ne_free formed empty).symm
    have begins : relinkedFrom (fs.inodeBlocks inode).dataBlocks offset <
        fsBlockSize * lastSlot offset len ↔ offset / fsBlockSize + 1 < lastSlot offset len := by
      rw [relinkedFrom, if_neg empty]
      simp only [fsBlockSize]
      omega
    rw [stores, Function.update_of_ne other]
    exact if_congr begins.symm rfl rfl

/-- The first piece, when it went to a block of the file. -/
theorem content_first (formed : FormedFile fs inode) {free : Nat}
    (crossed : Crossed fs fs' inode offset len src free) {p : Nat}
    (here : p / fsBlockSize = offset / fsBlockSize)
    (full : (fs.inodeBlocks inode).dataBlocks (offset / fsBlockSize) ≠ 0) :
    fs'.content inode p = blit (fs.content inode) offset src len p := by
  obtain ⟨first, blocks, isFirst, stores, after⟩ := crossed.blocks
  rw [firstBlock_across crossed.across, if_neg full] at isFirst
  have kept : (fs'.inodeBlocks inode).dataBlocks (p / fsBlockSize) = first := by
    rw [crossed.slots, here, isFirst]
    refine if_neg ?_
    rintro ⟨_, ⟨later, _⟩ | ⟨_, empty⟩⟩
    · exact absurd later (Nat.lt_irrefl _)
    · exact full empty
  have other : first ≠ free := by
    rw [isFirst]
    exact crossed.full_ne_free formed full
  rw [Fs.content, kept, after, Function.update_of_ne other, stores, Function.update_self, isFirst]
  refine blit_piece here ?_
  have across := crossed.across
  simp only [Within] at across
  omega

/-- A piece the write does not reach. -/
theorem content_unreached (formed : FormedFile fs inode) {free : Nat}
    (crossed : Crossed fs fs' inode offset len src free) {p : Nat}
    (inside : p < max (fs.inodeBlocks inode).fileSize (offset + len))
    (outside : p / fsBlockSize < offset / fsBlockSize ∨ lastSlot offset len < p / fsBlockSize) :
    fs'.content inode p = blit (fs.content inode) offset src len p := by
  have next := crossed.next
  have last := crossed.last
  have low := crossed.low
  have size := formed.size
  have reach := crossed.reach
  obtain ⟨first, blocks, isFirst, stores, after⟩ := crossed.blocks
  rw [firstBlock_across crossed.across] at isFirst
  have untouched : ¬(offset ≤ p ∧ p < offset + len) := by
    simp only [lastSlot, fsBlockSize] at outside
    omega
  have slot : p / fsBlockSize < blockSlots := by
    simp only [fsBlockSize, blockSlots] at inside size reach ⊢
    omega
  have used : fsBlockSize * (p / fsBlockSize) < (fs.inodeBlocks inode).fileSize := by
    have bound := Nat.mul_div_le p fsBlockSize
    omega
  obtain ⟨apart, notFree⟩ := own_block formed slot (show offset / fsBlockSize < blockSlots by omega)
    used crossed.unmarked (by omega)
  have notFirst : (fs.inodeBlocks inode).dataBlocks (p / fsBlockSize) ≠ first := by
    rw [isFirst]
    split_ifs
    · exact notFree
    · exact apart
  have kept : (fs'.inodeBlocks inode).dataBlocks (p / fsBlockSize) =
      (fs.inodeBlocks inode).dataBlocks (p / fsBlockSize) := by
    rw [crossed.slots]
    refine if_neg ?_
    rintro ⟨_, ⟨later, before⟩ | ⟨same, _⟩⟩
    · rw [lastSlot] at outside
      omega
    · rw [lastSlot] at outside next
      omega
  rw [blit_outside _ _ untouched, Fs.content, Fs.content, kept, after, Function.update_of_ne notFree,
    stores, Function.update_of_ne notFirst]

/-- Every other position shows what it should. -/
theorem content_elsewhere (formed : FormedFile fs inode) {free : Nat}
    (crossed : Crossed fs fs' inode offset len src free) {p : Nat}
    (inside : p < max (fs.inodeBlocks inode).fileSize (offset + len))
    (elsewhere : p < relinkedFrom (fs.inodeBlocks inode).dataBlocks offset ∨
      lastSlot offset len < p / fsBlockSize) :
    fs'.content inode p = blit (fs.content inode) offset src len p := by
  have next := crossed.next
  by_cases here : p / fsBlockSize = offset / fsBlockSize
  · refine content_first formed crossed here fun empty => ?_
    rw [relinkedFrom, if_pos empty] at elsewhere
    simp only [fsBlockSize] at elsewhere here next
    omega
  · refine content_unreached formed crossed inside (elsewhere.imp_left fun before => ?_)
    simp only [relinkedFrom] at before
    split_ifs at before
    all_goals
      simp only [fsBlockSize] at before here ⊢
      omega

/-! ## The condition -/

/-- From the first slot that gets the free block on, the buffer repeats every 4096
bytes; and what the file has behind the range in the last slot is what this
repetition puts there or, if the write enters one slot only, what the free block
has there. -/
structure Repeats (fs : Fs) (inode offset len : Nat) (src : Nat → UInt8) (free : Nat) : Prop where
  period : ∀ p, relinkedFrom (fs.inodeBlocks inode).dataBlocks offset ≤ p →
    p + fsBlockSize < offset + len → src (p + fsBlockSize - offset) = src (p - offset)
  rest : ∀ p, offset + len ≤ p → p < (fs.inodeBlocks inode).fileSize →
    p / fsBlockSize = lastSlot offset len → fs.content inode p =
      if relinkedFrom (fs.inodeBlocks inode).dataBlocks offset < fsBlockSize * lastSlot offset len then
        src (p - fsBlockSize - offset)
      else fs.dataBlocks free (p % fsBlockSize)

/-- A repeating buffer, any number of blocks further on. -/
theorem Repeats.periods {free p : Nat} (repeats : Repeats fs inode offset len src free)
    (start : relinkedFrom (fs.inodeBlocks inode).dataBlocks offset ≤ p) (n : Nat) :
    p + fsBlockSize * n < offset + len → src (p + fsBlockSize * n - offset) = src (p - offset) := by
  induction n with
  | zero =>
      intro _
      rfl
  | succ n ih =>
      intro inside
      rw [Nat.mul_succ, ← Nat.add_assoc] at inside ⊢
      rw [repeats.period _ (by omega) inside, ih (by omega)]

/-- The free block behind the range, in the last slot. -/
theorem stored_behind {slots : Nat → Nat} {old : Nat → UInt8} {p : Nat}
    (next : offset / fsBlockSize + 1 ≤ lastSlot offset len) (beyond : offset + len ≤ p)
    (slot : p / fsBlockSize = lastSlot offset len) :
    stored slots offset len src old (p % fsBlockSize) =
      if relinkedFrom slots offset < fsBlockSize * lastSlot offset len then
        src (p - fsBlockSize - offset)
      else old (p % fsBlockSize) := by
  have place := Nat.div_add_mod p fsBlockSize
  rw [slot] at place
  rw [stored, if_neg (by omega)]
  have before : fsBlockSize * (lastSlot offset len - 1) + p % fsBlockSize = p - fsBlockSize := by
    rw [Nat.mul_sub_one]
    have positive := Nat.mul_le_mul_left fsBlockSize ((Nat.le_add_left 1 _).trans next)
    omega
  rw [before]

/-- With a repeating buffer the free block holds the bytes of every slot that gets
it. -/
theorem stored_written {free p : Nat} {old : Nat → UInt8}
    (repeats : Repeats fs inode offset len src free)
    (start : relinkedFrom (fs.inodeBlocks inode).dataBlocks offset ≤ p)
    (inside : p / fsBlockSize ≤ lastSlot offset len) (written : p < offset + len) :
    stored (fs.inodeBlocks inode).dataBlocks offset len src old (p % fsBlockSize) =
      src (p - offset) := by
  have place := Nat.div_add_mod p fsBlockSize
  have room := Nat.mod_lt p (show 0 < fsBlockSize by decide)
  obtain ⟨n, last⟩ := Nat.exists_eq_add_of_le inside
  have whole : fsBlockSize * lastSlot offset len + p % fsBlockSize = p + fsBlockSize * n := by
    rw [last, Nat.mul_add]
    omega
  rw [stored]
  split_ifs with reached several
  · rw [whole] at reached ⊢
    exact repeats.periods start n reached
  -- the last piece is too short, so `p` is in a slot before it
  all_goals
    obtain ⟨n, rfl⟩ : ∃ k, n = k + 1 := by
      refine Nat.exists_eq_succ_of_ne_zero ?_
      rintro rfl
      rw [whole, Nat.mul_zero] at reached
      exact reached written
    rw [Nat.mul_succ] at whole
  · have before : fsBlockSize * (lastSlot offset len - 1) + p % fsBlockSize = p + fsBlockSize * n := by
      rw [last, ← Nat.add_assoc, Nat.add_sub_cancel, Nat.mul_add]
      omega
    have tail : fsBlockSize * lastSlot offset len ≤ offset + len := Nat.mul_div_le _ _
    rw [before]
    exact repeats.periods start n (by omega)
  · exact absurd (by omega) several

/-- The slots that get the free block show what they should exactly when the
buffer repeats. -/
theorem relinked_iff (formed : FormedFile fs inode) {free : Nat}
    (crossed : Crossed fs fs' inode offset len src free) :
    (∀ p, relinkedFrom (fs.inodeBlocks inode).dataBlocks offset ≤ p →
      p / fsBlockSize ≤ lastSlot offset len →
      p < max (fs.inodeBlocks inode).fileSize (offset + len) →
      stored (fs.inodeBlocks inode).dataBlocks offset len src (fs.dataBlocks free)
        (p % fsBlockSize) = blit (fs.content inode) offset src len p) ↔
      Repeats fs inode offset len src free := by
  have next := crossed.next
  have begins := relinkedFrom_ge formed crossed.low
  have ends : relinkedFrom (fs.inodeBlocks inode).dataBlocks offset ≤
      fsBlockSize * lastSlot offset len := by
    simp only [relinkedFrom]
    refine Nat.mul_le_mul_left _ ?_
    split_ifs <;> omega
  have tail : fsBlockSize * lastSlot offset len ≤ offset + len := Nat.mul_div_le _ _
  constructor
  · intro all
    refine ⟨fun p start inside => ?_, fun p beyond below slot => ?_⟩
    · have slot : (p + fsBlockSize) / fsBlockSize ≤ lastSlot offset len :=
        Nat.div_le_div_right (Nat.le_of_lt inside)
      have slot' : p / fsBlockSize ≤ lastSlot offset len :=
        (Nat.div_le_div_right (Nat.le_add_right _ _)).trans slot
      have here := all p start slot' (by omega)
      have there := all (p + fsBlockSize) (by omega) slot (by omega)
      rw [blit_inside _ _ (by omega) (by omega)] at here there
      rw [Nat.add_mod_right] at there
      exact there.symm.trans here
    · have start := Nat.mul_div_le p fsBlockSize
      rw [slot] at start
      have here := all p (by omega) (Nat.le_of_eq slot) (by omega)
      rw [stored_behind next beyond slot, blit_outside _ _ (by omega)] at here
      exact here.symm
  · intro repeats p start inside below
    rcases Nat.lt_or_ge p (offset + len) with written | beyond
    · rw [blit_inside _ _ (by omega) written]
      exact stored_written repeats start inside written
    · have slot : p / fsBlockSize = lastSlot offset len :=
        Nat.le_antisymm inside (Nat.div_le_div_right beyond)
      rw [stored_behind next beyond slot, blit_outside _ _ (by omega)]
      exact (repeats.rest p beyond (by omega) slot).symm

theorem updated_iff_content (formed : FormedFile fs inode) (some' : 0 < len)
    (ran : writeData fs inode offset (some src) len = some (fs', (len : Int))) :
    Updated fs fs' inode offset (firsts src len) ↔
      ∀ p, p < max (fs.inodeBlocks inode).fileSize (offset + len) →
        fs'.content inode p = blit (fs.content inode) offset src len p := by
  obtain ⟨low, reach, size, _⟩ := writeData_inode some' ran
  have old := formed.size
  have splices : fs'.bytes inode = splice (fs.bytes inode) offset (firsts src len) ↔
      ∀ p, p < max (fs.inodeBlocks inode).fileSize (offset + len) →
        fs'.content inode p = blit (fs.content inode) offset src len p := by
    rw [bytes_eq (by omega), bytes_eq old, splice_firsts _ _ low, size, firsts_eq_iff]
  refine ⟨fun updated => splices.1 updated.bytes, fun content => ⟨?_, splices.2 content⟩⟩
  rw [size, firsts_length]

/-- **Where a write is an update of its range.** A write that returned its length
has replaced the bytes of the range and left the others exactly when it stays in
one block or its buffer repeats. -/
theorem updated_iff (formed : FormedFile fs inode) (some' : 0 < len)
    (ran : writeData fs inode offset (some src) len = some (fs', (len : Int))) :
    Updated fs fs' inode offset (firsts src len) ↔
      (¬Within offset len → ∀ free, findFreeDatablock fs = some free →
        Repeats fs inode offset len src free) := by
  rw [updated_iff_content formed some' ran]
  by_cases within : Within offset len
  · exact iff_of_true (fun p => content_within formed some' within ran)
      fun across => absurd within across
  obtain ⟨free, found, crossed⟩ := crossed_of_writeData some' within ran
  have condition : (¬Within offset len → ∀ free, findFreeDatablock fs = some free →
      Repeats fs inode offset len src free) ↔ Repeats fs inode offset len src free := by
    refine ⟨fun all => all within free found, fun repeats _ free' found' => ?_⟩
    obtain rfl := Option.some.inj (found.symm.trans found')
    exact repeats
  rw [condition, ← relinked_iff formed crossed]
  constructor
  · intro all p start inside below
    rw [← content_relinked formed crossed start inside]
    exact all p below
  · intro relinked p below
    by_cases place : relinkedFrom (fs.inodeBlocks inode).dataBlocks offset ≤ p ∧
        p / fsBlockSize ≤ lastSlot offset len
    · rw [content_relinked formed crossed place.1 place.2]
      exact relinked p place.1 place.2 below
    · refine content_elsewhere formed crossed below ?_
      omega

end

/-! ## A file of three blocks -/

/-- A file of three full blocks, 1 to 3, of bytes 7; the rest of the image is 0. -/
def threeBlocks : Fs :=
  { Fs.empty with
    inodeBlocks := fun _ => ⟨12288, fun k => if k < 3 then k + 1 else 0⟩
    dataBlocks := fun b _ => if b < 4 then 7 else 0
    dataBlockBitmap := fun b => b < 4 }

theorem threeBlocks_formed : FormedFile threeBlocks 1 := by
  constructor
  · decide
  · intro k used
    have size : fsBlockSize * k < 12288 := used
    simp only [fsBlockSize] at size
    simp [threeBlocks, show k < 3 by omega]
  · intro k _
    simp only [threeBlocks]
    split_ifs <;> simp [Fs.empty]; omega
  · intro k k' _ _ allocated shared
    simp only [threeBlocks] at allocated shared
    split_ifs at allocated shared <;> omega
  · intro k _ allocated
    simp only [threeBlocks] at allocated ⊢
    split_ifs at allocated ⊢ with used
    · exact decide_eq_true (Nat.succ_lt_succ used)
    · simp

/-- A write inside the first block. -/
theorem threeBlocks_updated : ∃ fs', writeData threeBlocks 1 100 (some fun _ => 1) 10 = some (fs', 10) ∧
    Updated threeBlocks fs' 1 100 (firsts (fun _ => 1) 10) := by
  obtain ⟨fs', ran⟩ : ∃ fs', writeData threeBlocks 1 100 (some fun _ => 1) 10 =
    some (fs', ((10 : Nat) : Int)) := ⟨_, rfl⟩
  have within : Within 100 10 := by decide
  exact ⟨fs', ran, (updated_iff threeBlocks_formed (by decide) ran).2 fun across =>
    absurd within across⟩

/-- A write of ten bytes over the first boundary: byte 4200, far behind it, is lost
with the second block. -/
theorem threeBlocks_lost : FormedFile threeBlocks 1 ∧
    ∃ fs', writeData threeBlocks 1 4090 (some fun _ => 1) 10 = some (fs', 10) ∧
      ¬Updated threeBlocks fs' 1 4090 (firsts (fun _ => 1) 10) := by
  refine ⟨threeBlocks_formed, ?_⟩
  obtain ⟨fs', ran⟩ : ∃ fs', writeData threeBlocks 1 4090 (some fun _ => 1) 10 =
    some (fs', ((10 : Nat) : Int)) := ⟨_, rfl⟩
  refine ⟨fs', ran, fun updated => ?_⟩
  have content := (updated_iff_content threeBlocks_formed (by decide) ran).1 updated 4200 (by decide)
  have across : ¬Within 4090 10 := by decide
  obtain ⟨free, found, crossed⟩ := crossed_of_writeData (by decide) across ran
  obtain rfl : 4 = free := Option.some.inj found
  rw [content_relinked threeBlocks_formed crossed (by decide) (by decide)] at content
  exact absurd content (by decide)

end Illinix.FileSys
