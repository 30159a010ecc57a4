/-
# FileSys.Slices -- read_data is slicing

The data of a file is the concatenation of its data blocks.  The single-block
path, the head, the whole blocks and the tail of `read_data` together return a
slice of it, `readData_slice`: for every offset and length, with the end of the
file as the only cut.  The image and the bitmaps are not among its results: all
it stores goes to the buffer.
-/
import Illinix.FileSys.Read

namespace Illinix.FileSys

open Illinix.Theory

set_option autoImplicit false

/-- The data blocks of a file, one after the other. -/
def Fs.fileData (fs : Fs) (inode : Nat) : List UInt8 :=
  (List.range blockSlots).flatMap fun k =>
    firsts (fs.dataBlocks ((fs.inodeBlocks inode).dataBlocks k)) fsBlockSize

/-- The file size is one the block list can hold, and every slot it reaches has a
block of the image. -/
structure Sized (fs : Fs) (inode : Nat) : Prop where
  size : (fs.inodeBlocks inode).fileSize ≤ blockSlots * fsBlockSize
  blocks : ∀ k, fsBlockSize * k < (fs.inodeBlocks inode).fileSize →
    (fs.inodeBlocks inode).dataBlocks k < fs.bootBlock.dataBlockCount

/-- The data, byte by byte. -/
theorem fileData_eq (fs : Fs) (inode : Nat) :
    fs.fileData inode = firsts (fs.content inode) (blockSlots * fsBlockSize) := by
  simp only [Fs.fileData]
  rw [flatMap_firsts (fun k => fs.dataBlocks ((fs.inodeBlocks inode).dataBlocks k))
    (show 0 < fsBlockSize by decide), Nat.mul_comm]
  rfl

/-- A range before the end of the file has slots and blocks. -/
theorem readable_of_sized {fs : Fs} {inode offset len : Nat} (sized : Sized fs inode)
    (inside : offset + len ≤ (fs.inodeBlocks inode).fileSize) : Readable fs inode offset len := by
  intro p low high
  have start : fsBlockSize * (p / fsBlockSize) ≤ p := Nat.mul_div_le p fsBlockSize
  refine ⟨?_, sized.blocks _ (by omega)⟩
  have size := sized.size
  exact Nat.div_lt_of_lt_mul (by rw [Nat.mul_comm]; omega)

/-- **`read_data` is slicing.** It returns the number of bytes between the offset
and the end of the file, at most `len`, and puts the slice at the front of the
buffer. -/
theorem readData_slice {fs : Fs} {inode : Nat} (valid : inode < fs.bootBlock.inodeCount)
    (sized : Sized fs inode) (offset : Nat) (buf : Nat → UInt8) {len : Nat} (some' : 0 < len) :
    ∃ n buf', n = min len ((fs.inodeBlocks inode).fileSize - offset) ∧
      readData fs inode offset (some buf) len = some ((n : Int), some buf') ∧
      firsts buf' n = ((fs.fileData inode).drop offset).take n ∧
      ∀ i, n ≤ i → buf' i = buf i := by
  have accepted : ¬(len = 0 ∨ fs.bootBlock.inodeCount ≤ inode) := by omega
  simp only [readData, accepted, if_false]
  by_cases ended : (fs.inodeBlocks inode).fileSize ≤ offset
  · refine ⟨0, buf, by omega, ?_, ?_, fun i _ => rfl⟩
    · rw [if_pos ended]
      rfl
    · rw [List.take_zero]
      rfl
  -- the length the code works with, and the bytes it copies
  generalize clipped : min len ((fs.inodeBlocks inode).fileSize - offset) = n
  have length : (if (fs.inodeBlocks inode).fileSize - offset < len then
      (fs.inodeBlocks inode).fileSize - offset else len) = n := by
    split_ifs <;> omega
  have size := sized.size
  have short : n < 2 ^ 31 := by
    simp only [blockSlots, fsBlockSize] at size
    omega
  have copied : readSpan fs inode offset buf n =
      some (blit buf 0 (fun i => fs.content inode (offset + i)) n) :=
    readSpan_eq_some.2 ⟨readable_of_sized sized (by omega), rfl⟩
  refine ⟨n, blit buf 0 (fun i => fs.content inode (offset + i)) n, rfl, ?_, ?_,
    fun i beyond => blit_outside _ _ (by omega)⟩
  · rw [if_neg ended, length, copied, i32_of_lt short]
    rfl
  · rw [firsts_blit, fileData_eq, take_drop_firsts _ (by omega)]

/-- A file of 5000 bytes in blocks 1 and 2. -/
def twoBlocks : Fs :=
  { Fs.empty with inodeBlocks := fun _ => ⟨5000, fun k => k + 1⟩ }

/-- A read of the ten bytes around the block edge. -/
theorem twoBlocks_slice : ∃ buf', readData twoBlocks 1 4090 (some fun _ => 0) 10 = some (10, some buf') ∧
    firsts buf' 10 = ((twoBlocks.fileData 1).drop 4090).take 10 := by
  have sized : Sized twoBlocks 1 := by
    refine ⟨by decide, fun k used => ?_⟩
    have size : fsBlockSize * k < 5000 := used
    change k + 1 < 63
    simp only [fsBlockSize] at size
    omega
  obtain ⟨n, buf', length, ran, slice, _⟩ :=
    readData_slice (by decide) sized 4090 (fun _ => 0) (show 0 < 10 by decide)
  have size : (twoBlocks.inodeBlocks 1).fileSize = 5000 := rfl
  obtain rfl : n = 10 := by omega
  exact ⟨buf', ran, slice⟩

end Illinix.FileSys
