/-
# FileSys.Data -- read_data, write_data and the two searches for a free index

Both transfers split `[offset, offset + len)` at the 4096-byte boundaries and
walk the slots of `data_blocks`.  An access outside an array (a slot from 1023
on, a block from `data_block_count` on, a bitmap entry from 64 on) makes the
call `none`; a copy of no bytes touches nothing.

Neither search marks what it returns, and both read `data_block_bitmap`.  So
`find_free_datablock` gives the same block on every call, and a write across
several boundaries puts one block into every slot it enters: `writeBlocks_some`
is the closed form of that loop and `writeSpan_some` that of the two paths.
-/
import Illinix.FileSys.Disk

namespace Illinix.FileSys

open Illinix.Theory

set_option autoImplicit false

/-! ## Free indices -/

/-- The loop of `find_free_datablock` and `find_free_inode`, `n` indices left. -/
def scanFree (bits : Nat → Bool) : Nat → Nat → Option Nat
  | 0, _ => some (2 ^ 32 - 1)
  | n + 1, i => do
      let used ← bitmapGet bits i
      if used then scanFree bits n (i + 1) else some i

def findFreeDatablock (fs : Fs) : Option Nat :=
  scanFree fs.dataBlockBitmap (fs.bootBlock.dataBlockCount - 1) 1

def findFreeInode (fs : Fs) : Option Nat :=
  scanFree fs.dataBlockBitmap (fs.bootBlock.inodeCount - 1) 1

theorem scanFree_pos (bits : Nat → Bool) (n : Nat) : ∀ (i found : Nat), 0 < i →
    scanFree bits n i = some found → 0 < found := by
  induction n with
  | zero =>
      intro i found _ scan
      simp only [scanFree, Option.some.injEq] at scan
      omega
  | succ n ih =>
      intro i found pos scan
      simp only [scanFree, Option.bind_eq_bind, Option.bind_eq_some_iff] at scan
      obtain ⟨used, _, scan⟩ := scan
      split_ifs at scan
      · exact ih (i + 1) found (by omega) scan
      · obtain rfl := Option.some.inj scan
        exact pos

theorem scanFree_lt (bits : Nat → Bool) (n : Nat) : ∀ (i found : Nat),
    scanFree bits n i = some found → found = 2 ^ 32 - 1 ∨ i ≤ found ∧ found < i + n := by
  induction n with
  | zero =>
      intro i found scan
      simp only [scanFree, Option.some.injEq] at scan
      exact Or.inl scan.symm
  | succ n ih =>
      intro i found scan
      simp only [scanFree, Option.bind_eq_bind, Option.bind_eq_some_iff] at scan
      obtain ⟨used, _, scan⟩ := scan
      split_ifs at scan
      · exact (ih (i + 1) found scan).imp id fun ⟨low, high⟩ => ⟨by omega, by omega⟩
      · obtain rfl := Option.some.inj scan
        exact Or.inr ⟨le_refl _, by omega⟩

/-- What the search gives is not marked. -/
theorem scanFree_unmarked {bits : Nat → Bool} (n : Nat) : ∀ {i found : Nat},
    scanFree bits n i = some found → found ≠ 2 ^ 32 - 1 → bits found = false := by
  induction n with
  | zero =>
      intro i found scan granted
      exact absurd (Option.some.inj scan).symm granted
  | succ n ih =>
      intro i found scan granted
      simp only [scanFree, Option.bind_eq_bind, Option.bind_eq_some_iff] at scan
      obtain ⟨used, get, scan⟩ := scan
      split_ifs at scan with marked
      · exact ih scan granted
      · obtain rfl := Option.some.inj scan
        simp only [bitmapGet] at get
        split_ifs at get
        obtain rfl := Option.some.inj get
        simpa using marked

/-- The search finds an index if there is one in its range and in the bitmap. -/
theorem scanFree_found {bits : Nat → Bool} (n : Nat) : ∀ {i : Nat}, i + n ≤ 2 ^ 32 - 1 →
    ((∃ found, scanFree bits n i = some found ∧ found < i + n) ↔
      ∃ b, i ≤ b ∧ b < i + n ∧ b < bitmapSlots ∧ bits b = false) := by
  induction n with
  | zero =>
      intro i short
      constructor
      · rintro ⟨found, scan, below⟩
        obtain rfl := Option.some.inj scan
        omega
      · rintro ⟨b, low, high, _⟩
        omega
  | succ n ih =>
      intro i short
      have later := ih (show i + 1 + n ≤ 2 ^ 32 - 1 by omega)
      rw [show i + 1 + n = i + (n + 1) by omega] at later
      simp only [scanFree, Option.bind_eq_bind]
      by_cases inside : i < bitmapSlots
      · simp only [bitmapGet, inside, if_true, Option.bind_some]
        cases marked : bits i with
        | true =>
            simp only [if_true]
            rw [later]
            refine exists_congr fun b => ⟨fun ⟨low, rest⟩ => ⟨by omega, rest⟩, ?_⟩
            rintro ⟨low, high, slot, unmarked⟩
            have apart : i ≠ b := by
              rintro rfl
              exact Bool.false_ne_true (unmarked.symm.trans marked)
            exact ⟨by omega, high, slot, unmarked⟩
        | false =>
            simp only [Bool.false_eq_true, if_false]
            exact iff_of_true ⟨i, rfl, by omega⟩ ⟨i, le_refl i, by omega, inside, marked⟩
      · simp only [bitmapGet, inside, if_false, Option.bind_none]
        refine iff_of_false ?_ ?_
        · rintro ⟨found, scan, _⟩
          cases scan
        · rintro ⟨b, low, _, slot, _⟩
          omega

theorem findFreeDatablock_pos {fs : Fs} {free : Nat} (found : findFreeDatablock fs = some free) :
    0 < free := scanFree_pos _ _ 1 free Nat.one_pos found

theorem findFreeDatablock_unmarked {fs : Fs} {free : Nat}
    (found : findFreeDatablock fs = some free) (inside : free < fs.bootBlock.dataBlockCount) :
    fs.dataBlockBitmap free = false := by
  have bound := fs.bootBlock.dataBlockCount_lt
  exact scanFree_unmarked _ found (by omega)

/-- A block is found if one from 1 on is not marked, among the 64 of the bitmap. -/
theorem findFreeDatablock_found {fs : Fs} :
    (∃ free, findFreeDatablock fs = some free ∧ free < fs.bootBlock.dataBlockCount) ↔
      ∃ b, 0 < b ∧ b < fs.bootBlock.dataBlockCount ∧ b < bitmapSlots ∧
        fs.dataBlockBitmap b = false := by
  have bound := fs.bootBlock.dataBlockCount_lt
  rcases Nat.eq_zero_or_pos fs.bootBlock.dataBlockCount with none' | some'
  · rw [none']
    exact iff_of_false (fun ⟨_, _, below⟩ => absurd below (Nat.not_lt_zero _))
      fun ⟨_, _, below, _⟩ => absurd below (Nat.not_lt_zero _)
  · have search := @scanFree_found fs.dataBlockBitmap (fs.bootBlock.dataBlockCount - 1) 1 (by omega)
    rw [show 1 + (fs.bootBlock.dataBlockCount - 1) = fs.bootBlock.dataBlockCount by omega] at search
    exact search

theorem findFreeInode_lt {fs : Fs} {inode : Nat} (found : findFreeInode fs = some inode)
    (granted : inode ≠ 2 ^ 32 - 1) : inode < fs.bootBlock.inodeCount := by
  rcases scanFree_lt _ _ 1 inode found with full | ⟨low, high⟩
  · exact absurd full granted
  · omega

/-! ## Slots and blocks -/

/-- `inode_blocks[inode].data_blocks[k]` -/
def Fs.slot (fs : Fs) (inode k : Nat) : Option Nat :=
  if k < blockSlots then some ((fs.inodeBlocks inode).dataBlocks k) else none

def Fs.setInode (fs : Fs) (inode : Nat) (i : Inode) : Fs :=
  { fs with inodeBlocks := Function.update fs.inodeBlocks inode i }

def Fs.setSize (fs : Fs) (inode size : Nat) : Fs :=
  fs.setInode inode { fs.inodeBlocks inode with fileSize := size }

def Fs.setSlots (fs : Fs) (inode : Nat) (slots : Nat → Nat) : Fs :=
  fs.setInode inode { fs.inodeBlocks inode with dataBlocks := slots }

def Fs.setSlot (fs : Fs) (inode k block : Nat) : Option Fs :=
  if k < blockSlots then
    some (fs.setSlots inode (Function.update (fs.inodeBlocks inode).dataBlocks k block))
  else none

def Fs.setBlock (fs : Fs) (block : Nat) (data : Nat → UInt8) : Fs :=
  { fs with dataBlocks := Function.update fs.dataBlocks block data }

/-- `memcpy(data_blocks[block].data + pos, src, n)` -/
def Fs.storeBlock (fs : Fs) (block pos : Nat) (src : Nat → UInt8) (n : Nat) : Option Fs :=
  if n = 0 then some fs
  else if block < fs.bootBlock.dataBlockCount then
    some (fs.setBlock block (blit (fs.dataBlocks block) pos src n))
  else none

/-- `memcpy(buf + at, data_blocks[data_blocks[k]].data + pos, n)` -/
def Fs.loadBlock (fs : Fs) (inode k pos : Nat) (buf : Nat → UInt8) (at' n : Nat) :
    Option (Nat → UInt8) :=
  if n = 0 then some buf
  else do
    let block ← fs.slot inode k
    if block < fs.bootBlock.dataBlockCount then
      some (blit buf at' (fun i => fs.dataBlocks block (pos + i)) n)
    else none

/-! ## read_data -/

/-- The loop of `read_data` and the copy after it: `n` whole blocks, then
`tail` bytes of the next. -/
def readBlocks (fs : Fs) (inode tail : Nat) : Nat → Nat → Nat → (Nat → UInt8) →
    Option (Nat → UInt8)
  | 0, k, pos, buf => fs.loadBlock inode k 0 buf pos tail
  | n + 1, k, pos, buf => do
      let buf ← fs.loadBlock inode k 0 buf pos fsBlockSize
      readBlocks fs inode tail n (k + 1) (pos + fsBlockSize) buf

/-- The two paths of `read_data`, for a range that lies in the file. -/
def readSpan (fs : Fs) (inode offset : Nat) (buf : Nat → UInt8) (len : Nat) :
    Option (Nat → UInt8) :=
  let k := offset / fsBlockSize
  let offset := offset % fsBlockSize
  let remain := fsBlockSize - offset
  if len ≤ remain then fs.loadBlock inode k offset buf 0 len
  else do
    let buf ← fs.loadBlock inode k offset buf 0 remain
    readBlocks fs inode ((len - remain) % fsBlockSize) ((len - remain) / fsBlockSize) (k + 1)
      remain buf

/-- The return value, and the buffer. -/
def readData (fs : Fs) (inode offset : Nat) (buf : Option (Nat → UInt8)) (len : Nat) :
    Option (Int × Option (Nat → UInt8)) :=
  match buf with
  | none => some (-1, none)
  | some buf =>
      if len = 0 ∨ fs.bootBlock.inodeCount ≤ inode then some (-1, some buf)
      else
        let size := (fs.inodeBlocks inode).fileSize
        if size ≤ offset then some (0, some buf)
        else
          let len := if size - offset < len then size - offset else len
          (readSpan fs inode offset buf len).map fun buf => (i32 len, some buf)

/-! ## write_data -/

/-- The loop of `write_data` and the copy after it: `n` whole blocks, each
followed by an allocation for the next slot, then `tail` bytes. -/
def writeBlocks (src : Nat → UInt8) (inode tail : Nat) : Nat → Nat → Nat → Fs → Option Fs
  | 0, k, pos, fs => do
      let block ← fs.slot inode k
      fs.storeBlock block 0 (fun i => src (pos + i)) tail
  | n + 1, k, pos, fs => do
      let block ← fs.slot inode k
      let fs ← fs.storeBlock block 0 (fun i => src (pos + i)) fsBlockSize
      let free ← findFreeDatablock fs
      let fs ← fs.setSlot inode (k + 1) free
      writeBlocks src inode tail n (k + 1) (pos + fsBlockSize) fs

/-- `!*block && !(*block = find_free_datablock())` fills an empty slot. -/
def fillSlot (fs : Fs) (inode k : Nat) : Option Fs := do
  let block ← fs.slot inode k
  if block = 0 then do
    let free ← findFreeDatablock fs
    fs.setSlot inode k free
  else some fs

/-- The two paths of `write_data` from slot `k` on.  The flag is `false` when
the allocation for an empty first slot gave 0. -/
def writeSpan (fs : Fs) (inode offset : Nat) (src : Nat → UInt8) (len : Nat) :
    Option (Fs × Bool) :=
  let k := offset / fsBlockSize
  let offset := offset % fsBlockSize
  let remain := fsBlockSize - offset
  if len ≤ remain then do
    let block ← fs.slot inode k
    let fs ← fs.storeBlock block offset src len
    some (fs, true)
  else do
    let fs ← fillSlot fs inode k
    let block ← fs.slot inode k
    if block = 0 then some (fs, false)
    else do
      let fs ← fs.storeBlock block offset src remain
      let free ← findFreeDatablock fs
      let fs ← fs.setSlot inode (k + 1) free
      let fs ← writeBlocks src inode ((len - remain) % fsBlockSize) ((len - remain) / fsBlockSize)
        (k + 1) remain fs
      some (fs, true)

/-- The file size grows to `offset + len`, if that is more. -/
def Fs.resized (fs : Fs) (inode offset len : Nat) : Fs :=
  if (fs.inodeBlocks inode).fileSize < u32 (offset + len) then fs.setSize inode (u32 (offset + len))
  else fs

def writeData (fs : Fs) (inode offset : Nat) (buf : Option (Nat → UInt8)) (len : Nat) :
    Option (Fs × Int) :=
  match buf with
  | none => some (fs, -1)
  | some src =>
      if len = 0 ∨ fs.bootBlock.inodeCount ≤ inode then some (fs, -1)
      else
        if (fs.inodeBlocks inode).fileSize < offset then some (fs, 0)
        else do
          let (fs, wrote) ← writeSpan (fs.resized inode offset len) inode offset src len
          if wrote then some (fs.flush, i32 len) else some (fs, -1)

end Illinix.FileSys
