/-
# FileSys.Image -- the file system image and its bytes

The three parts of filesys.h: the boot block with its directory, the inodes and
the data blocks.  Arrays are functions of the index; the operations state the
bound at each access.  `Image.byte` is the image as the flat memory that starts
at `boot_block`, and `Image.ofBytes` reads the three parts back from such
memory; `byte_ofBytes` says that no byte is lost on the way.

Strings come from user programs as `const uint8_t *`: a `CString` is what lies
before the terminating NUL.
-/
import Illinix.Theory.Bytes

namespace Illinix.FileSys

open Illinix.Theory

set_option autoImplicit false

def fsBlockSize : Nat := 4096
def fsMaxLen : Nat := 32

/-- The length of `boot_block_t.dentries`. -/
def dentrySlots : Nat := 63

/-- The length of `inode_t.data_blocks`. -/
def blockSlots : Nat := 1023

/-- The length of `inode_bitmap` and `data_block_bitmap`. -/
def bitmapSlots : Nat := 64

/-- A NUL-terminated string, without its NUL. -/
structure CString where
  bytes : List UInt8
  noNul : (0 : UInt8) ∉ bytes

/-- The byte at index `i`; 0 at the end. -/
def CString.at (s : CString) (i : Nat) : UInt8 := s.bytes.getD i 0

structure Dentry where
  fileName : Nat → UInt8
  fileType : Nat
  inodeNum : Nat
  reserved : Nat → UInt8

structure Inode where
  fileSize : Nat
  dataBlocks : Nat → Nat

structure BootBlock where
  dentryCount : Nat
  inodeCount : Nat
  dataBlockCount : Nat
  reserved : Nat → UInt8
  dentries : Nat → Dentry
  inodeCount_lt : inodeCount < 2 ^ 32
  dataBlockCount_lt : dataBlockCount < 2 ^ 32

structure Image where
  bootBlock : BootBlock
  inodeBlocks : Nat → Inode
  dataBlocks : Nat → Nat → UInt8

/-- The mounted file system: the image in memory, the two bitmaps, and the disk
by sector and byte. -/
structure Fs extends Image where
  inodeBitmap : Nat → Bool
  dataBlockBitmap : Nat → Bool
  disk : Nat → Nat → UInt8

/-- A mounted image with no entry, no block in any list and zeroed data, of 64
inodes and 63 data blocks as the shipped one has. -/
def Fs.empty : Fs where
  bootBlock := {
    dentryCount := 0
    inodeCount := 64
    dataBlockCount := 63
    reserved := fun _ => 0
    dentries := fun _ => ⟨fun _ => 0, 0, 0, fun _ => 0⟩
    inodeCount_lt := by decide
    dataBlockCount_lt := by decide }
  inodeBlocks _ := ⟨0, fun _ => 0⟩
  dataBlocks _ _ := 0
  inodeBitmap _ := false
  dataBlockBitmap _ := false
  disk _ _ := 0

/-! ## The image as bytes -/

def Dentry.byte (d : Dentry) (k : Nat) : UInt8 :=
  if k < 32 then d.fileName k
  else if k < 36 then leByte d.fileType (k - 32)
  else if k < 40 then leByte d.inodeNum (k - 36)
  else d.reserved (k - 40)

def BootBlock.byte (b : BootBlock) (k : Nat) : UInt8 :=
  if k < 4 then leByte b.dentryCount k
  else if k < 8 then leByte b.inodeCount (k - 4)
  else if k < 12 then leByte b.dataBlockCount (k - 8)
  else if k < 64 then b.reserved (k - 12)
  else (b.dentries ((k - 64) / 64)).byte ((k - 64) % 64)

def Inode.byte (i : Inode) (k : Nat) : UInt8 :=
  if k < 4 then leByte i.fileSize k else leByte (i.dataBlocks ((k - 4) / 4)) ((k - 4) % 4)

def Image.byte (m : Image) (k : Nat) : UInt8 :=
  if k < fsBlockSize then m.bootBlock.byte k
  else if k / fsBlockSize - 1 < m.bootBlock.inodeCount then
    (m.inodeBlocks (k / fsBlockSize - 1)).byte (k % fsBlockSize)
  else m.dataBlocks (k / fsBlockSize - 1 - m.bootBlock.inodeCount) (k % fsBlockSize)

/-- The extent of the image in bytes: boot block, inodes, data blocks. -/
def Image.extent (m : Image) : Nat :=
  (m.bootBlock.inodeCount + m.bootBlock.dataBlockCount + 1) * fsBlockSize

def Dentry.ofBytes (bytes : Nat → UInt8) (pos : Nat) : Dentry where
  fileName k := bytes (pos + k)
  fileType := leWord bytes (pos + 32)
  inodeNum := leWord bytes (pos + 36)
  reserved k := bytes (pos + 40 + k)

def BootBlock.ofBytes (bytes : Nat → UInt8) : BootBlock where
  dentryCount := leWord bytes 0
  inodeCount := leWord bytes 4
  dataBlockCount := leWord bytes 8
  reserved k := bytes (12 + k)
  dentries i := Dentry.ofBytes bytes (64 + 64 * i)
  inodeCount_lt := leWord_lt bytes 4
  dataBlockCount_lt := leWord_lt bytes 8

def Inode.ofBytes (bytes : Nat → UInt8) (pos : Nat) : Inode where
  fileSize := leWord bytes pos
  dataBlocks j := leWord bytes (pos + 4 + 4 * j)

def Image.ofBytes (bytes : Nat → UInt8) : Image where
  bootBlock := BootBlock.ofBytes bytes
  inodeBlocks i := Inode.ofBytes bytes (fsBlockSize * (i + 1))
  dataBlocks b k := bytes (fsBlockSize * (b + (BootBlock.ofBytes bytes).inodeCount + 1) + k)

theorem Dentry.byte_ofBytes (bytes : Nat → UInt8) (pos k : Nat) :
    (Dentry.ofBytes bytes pos).byte k = bytes (pos + k) := by
  simp only [Dentry.byte, Dentry.ofBytes]
  split_ifs with name type inode
  · rfl
  · rw [leByte_leWord bytes _ (by omega)]
    congr 1; omega
  · rw [leByte_leWord bytes _ (by omega)]
    congr 1; omega
  · congr 1; omega

theorem BootBlock.byte_ofBytes (bytes : Nat → UInt8) (k : Nat) :
    (BootBlock.ofBytes bytes).byte k = bytes k := by
  simp only [BootBlock.byte]
  split_ifs with dentry inode data reserved
  · exact (leByte_leWord bytes 0 (by omega)).trans (by rw [Nat.zero_add])
  · exact (leByte_leWord bytes 4 (by omega)).trans (by congr 1; omega)
  · exact (leByte_leWord bytes 8 (by omega)).trans (by congr 1; omega)
  · change bytes (12 + (k - 12)) = bytes k
    congr 1; omega
  · exact (Dentry.byte_ofBytes bytes _ _).trans (by congr 1; omega)

theorem Inode.byte_ofBytes (bytes : Nat → UInt8) (pos k : Nat) :
    (Inode.ofBytes bytes pos).byte k = bytes (pos + k) := by
  simp only [Inode.byte, Inode.ofBytes]
  split_ifs with size
  · exact leByte_leWord bytes _ size
  · rw [leByte_leWord bytes _ (by omega)]
    congr 1; omega

/-- **No byte of the flat memory is lost in the three parts.** -/
theorem Image.byte_ofBytes (bytes : Nat → UInt8) (k : Nat) :
    (Image.ofBytes bytes).byte k = bytes k := by
  simp only [Image.byte]
  split_ifs with boot inode
  · exact BootBlock.byte_ofBytes bytes k
  · refine (Inode.byte_ofBytes bytes _ _).trans ?_
    congr 1
    simp only [fsBlockSize] at boot ⊢
    omega
  · change bytes (fsBlockSize * (k / fsBlockSize - 1 - (BootBlock.ofBytes bytes).inodeCount +
      (BootBlock.ofBytes bytes).inodeCount + 1) + k % fsBlockSize) = bytes k
    congr 1
    have below : (BootBlock.ofBytes bytes).inodeCount ≤ k / fsBlockSize - 1 := Nat.le_of_not_lt inode
    simp only [fsBlockSize] at boot below ⊢
    omega

end Illinix.FileSys
