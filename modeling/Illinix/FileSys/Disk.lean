/-
# FileSys.Disk -- sectors, and mounting the image

The drive is a store of 512-byte sectors, always ready; the sector number it
gets is the low 28 bits of `index`.  `write_data` and `delete` send the image
from `boot_block` on to sector 5000 with `flush`; `file_system_init` reads as
many sectors back over the boot module and builds the two bitmaps.

`readAtaSectors_writeAtaSectors` is the round trip of the drive itself.
-/
import Illinix.FileSys.Image

namespace Illinix.FileSys

open Illinix.Theory

set_option autoImplicit false

def ataSectorSize : Nat := 512
def ataSectorBound : Nat := 0x0FFFFFFF

/-- The sector `file_system_init`, `write_data` and `delete` start at. -/
def imageSector : Nat := 5000

abbrev Disk : Type := Nat → Nat → UInt8

/-- The sector number in the four address registers. -/
def lba (index : Nat) : Nat := index % 2 ^ 28

/-- The loop of `write_ata_sectors`, `n` sectors left, from `buf + pos` on. -/
def writeSectors (buf : Nat → UInt8) : Nat → Nat → Nat → Disk → Disk
  | 0, _, _, disk => disk
  | n + 1, index, pos, disk =>
      writeSectors buf n (u32 (index + 1)) (pos + ataSectorSize)
        (Function.update disk (lba index) fun k => buf (pos + k))

/-- The loop of `read_ata_sectors`, `n` sectors left, to `buf + pos` on. -/
def readSectors (disk : Disk) : Nat → Nat → Nat → (Nat → UInt8) → Nat → UInt8
  | 0, _, _, buf => buf
  | n + 1, index, pos, buf =>
      readSectors disk n (u32 (index + 1)) (pos + ataSectorSize)
        (blit buf pos (disk (lba index)) ataSectorSize)

/-- The number of bytes moved, and the disk. -/
def writeAtaSectors (index count : Nat) (buf : Option (Nat → UInt8)) (disk : Disk) : Nat × Disk :=
  match buf with
  | none => (0, disk)
  | some buf =>
      if count = 0 ∨ ataSectorBound ≤ index then (0, disk)
      else (u32 (count * ataSectorSize), writeSectors buf count index 0 disk)

/-- The number of bytes moved, and the buffer. -/
def readAtaSectors (index count : Nat) (buf : Option (Nat → UInt8)) (disk : Disk) :
    Nat × Option (Nat → UInt8) :=
  match buf with
  | none => (0, none)
  | some buf =>
      if count = 0 ∨ ataSectorBound ≤ index then (0, some buf)
      else (u32 (count * ataSectorSize), some (readSectors disk count index 0 buf))

/-- `inode_count + data_block_count + 1`, in `uint32_t`. -/
def Image.sectorCount (m : Image) : Nat :=
  u32 (m.bootBlock.inodeCount + m.bootBlock.dataBlockCount + 1)

def Fs.flush (fs : Fs) : Fs :=
  { fs with disk := (writeAtaSectors imageSector fs.sectorCount (some fs.byte) fs.disk).2 }

@[simp] theorem flush_toImage (fs : Fs) : fs.flush.toImage = fs.toImage := rfl

/-! ## Mounting -/

def bitmapGet (bits : Nat → Bool) (i : Nat) : Option Bool :=
  if i < bitmapSlots then some (bits i) else none

def bitmapSet (bits : Nat → Bool) (i : Nat) (bit : Bool) : Option (Nat → Bool) :=
  if i < bitmapSlots then some (Function.update bits i bit) else none

/-- The inner loop of `file_system_init`, `n` slots left: mark the blocks of one
inode up to the first slot that is 0. -/
def markBlocks (inode : Inode) : Nat → Nat → (Nat → Bool) → Option (Nat → Bool)
  | 0, _, bits => some bits
  | n + 1, j, bits =>
      if inode.dataBlocks j = 0 then some bits
      else do
        let bits ← bitmapSet bits (inode.dataBlocks j) true
        markBlocks inode n (j + 1) bits

/-- The outer loop of `file_system_init`, `n` directory entries left. -/
def markDentries : Nat → Nat → Fs → Option Fs
  | 0, _, fs => some fs
  | n + 1, i, fs =>
      if i < dentrySlots then
        let dentry := fs.bootBlock.dentries i
        if dentry.fileName 0 = 0 then markDentries n (i + 1) fs
        else if dentry.inodeNum < fs.bootBlock.inodeCount then do
          let inodes ← bitmapSet fs.inodeBitmap dentry.inodeNum true
          let blocks ← markBlocks (fs.inodeBlocks dentry.inodeNum) 64 0 fs.dataBlockBitmap
          markDentries n (i + 1) { fs with inodeBitmap := inodes, dataBlockBitmap := blocks }
        else none
      else none

/-- The image `file_system_init` works on: the boot module, with the sectors of
the disk read over it. -/
def mountedImage (module : Image) (disk : Disk) : Image :=
  match (readAtaSectors imageSector module.sectorCount (some module.byte) disk).2 with
  | some bytes => Image.ofBytes bytes
  | none => module

def fileSystemInit (module : Image) (disk : Disk) : Option Fs :=
  let image := mountedImage module disk
  markDentries image.bootBlock.dentryCount 0
    { image with inodeBitmap := fun _ => false, dataBlockBitmap := fun _ => false, disk := disk }

/-! ## The drive -/

theorem writeSectors_other (buf : Nat → UInt8) (n : Nat) : ∀ (index pos : Nat) (disk : Disk)
    (sector : Nat), index + n ≤ 2 ^ 28 → (sector < index ∨ index + n ≤ sector) →
    writeSectors buf n index pos disk sector = disk sector := by
  induction n with
  | zero => intro index pos disk sector _ _; rfl
  | succ n ih =>
      intro index pos disk sector room outside
      have next : u32 (index + 1) = index + 1 := u32_of_lt (by omega)
      have low : lba index = index := Nat.mod_eq_of_lt (by omega)
      rw [writeSectors, next, ih _ _ _ _ (by omega) (by omega), low,
        Function.update_of_ne (by omega)]

theorem writeSectors_sector (buf : Nat → UInt8) (n : Nat) : ∀ (index pos : Nat) (disk : Disk)
    (i : Nat), index + n ≤ 2 ^ 28 → i < n →
    writeSectors buf n index pos disk (index + i) = fun k => buf (pos + ataSectorSize * i + k) := by
  induction n with
  | zero => intro index pos disk i _ below; omega
  | succ n ih =>
      intro index pos disk i room below
      have next : u32 (index + 1) = index + 1 := u32_of_lt (by omega)
      have low : lba index = index := Nat.mod_eq_of_lt (by omega)
      rw [writeSectors, next, low]
      rcases Nat.eq_zero_or_pos i with first | later
      · subst first
        rw [writeSectors_other _ _ _ _ _ _ (by omega) (by omega)]
        simp only [Nat.add_zero, Nat.mul_zero, Function.update_self]
      · obtain ⟨i, rfl⟩ := Nat.exists_eq_succ_of_ne_zero (by omega : i ≠ 0)
        have shift : index + (i + 1) = index + 1 + i := by omega
        rw [Nat.succ_eq_add_one, shift, ih (index + 1) _ _ i (by omega) (by omega)]
        funext k
        congr 1
        simp only [ataSectorSize]
        omega

/-- The bytes a read leaves in the buffer: the sectors' where it reaches, the
old ones elsewhere. -/
theorem readSectors_eq (disk : Disk) (n : Nat) : ∀ (index pos : Nat) (buf : Nat → UInt8),
    index + n ≤ 2 ^ 28 → readSectors disk n index pos buf =
      blit buf pos (fun k => disk (index + k / ataSectorSize) (k % ataSectorSize))
        (ataSectorSize * n) := by
  induction n with
  | zero => intro index pos buf _; simp [readSectors]
  | succ n ih =>
      intro index pos buf room
      have next : u32 (index + 1) = index + 1 := u32_of_lt (by omega)
      have low : lba index = index := Nat.mod_eq_of_lt (by omega)
      let src := fun k => disk (index + k / ataSectorSize) (k % ataSectorSize)
      have first : blit buf pos (disk index) ataSectorSize = blit buf pos src ataSectorSize := by
        refine blit_congr _ _ fun k below => ?_
        simp only [src, Nat.div_eq_of_lt below, Nat.mod_eq_of_lt below, Nat.add_zero]
      have rest : (fun k => disk (index + 1 + k / ataSectorSize) (k % ataSectorSize)) =
          fun k => src (ataSectorSize + k) := by
        funext k
        simp only [src, Nat.add_div_left k (show 0 < ataSectorSize by decide), Nat.add_mod_left]
        congr 1
        omega
      rw [readSectors, next, low, ih (index + 1) _ _ (by omega), first, rest, blit_blit,
        Nat.mul_succ, Nat.add_comm (ataSectorSize * n)]

/-- **What the drive is given it gives back.** -/
theorem readAtaSectors_writeAtaSectors (index count : Nat) (buf old : Nat → UInt8) (disk : Disk)
    (room : index + count ≤ 2 ^ 28) (start : index < ataSectorBound) :
    (readAtaSectors index count (some old) (writeAtaSectors index count (some buf) disk).2).2 =
      some (blit old 0 buf (ataSectorSize * count)) := by
  rcases Nat.eq_zero_or_pos count with none' | some'
  · subst none'
    simp [readAtaSectors]
  · have accepted : ¬(count = 0 ∨ ataSectorBound ≤ index) := by omega
    simp only [readAtaSectors, writeAtaSectors, accepted, if_false, Option.some.injEq]
    rw [readSectors_eq _ _ _ _ _ room]
    funext k
    simp only [blit]
    split_ifs with inside
    · have below : k / ataSectorSize < count := by
        simp only [ataSectorSize] at inside ⊢
        omega
      rw [Nat.sub_zero, writeSectors_sector buf count index 0 disk _ room below]
      simp only [ataSectorSize]
      congr 1
      omega
    · rfl

theorem readSectors_beyond (disk : Disk) (n : Nat) : ∀ (index pos : Nat) (buf : Nat → UInt8) (k : Nat),
    pos + ataSectorSize * n ≤ k → readSectors disk n index pos buf k = buf k := by
  induction n with
  | zero => intro index pos buf k _; rfl
  | succ n ih =>
      intro index pos buf k beyond
      rw [Nat.mul_succ] at beyond
      rw [readSectors, ih _ _ _ _ (by omega), blit_outside _ _ (by omega)]

/-! ## What mounting gives -/

/-- From the last sector read on, the mounted image is the boot module. -/
theorem mountedImage_byte_beyond (module : Image) (disk : Disk) {k : Nat}
    (beyond : ataSectorSize * module.sectorCount ≤ k) :
    (mountedImage module disk).byte k = module.byte k := by
  simp only [mountedImage, readAtaSectors]
  split_ifs
  · exact Image.byte_ofBytes _ k
  · rw [Image.byte_ofBytes, readSectors_beyond _ _ _ _ _ _ (by omega)]

/-- Up to there it is what the disk holds. -/
theorem mountedImage_byte_disk {module : Image} (disk : Disk)
    (room : imageSector + module.sectorCount ≤ 2 ^ 28) {k : Nat}
    (below : k < ataSectorSize * module.sectorCount) :
    (mountedImage module disk).byte k = disk (imageSector + k / ataSectorSize) (k % ataSectorSize) := by
  have some' : ¬(module.sectorCount = 0 ∨ ataSectorBound ≤ imageSector) := by
    have start : ¬ataSectorBound ≤ imageSector := by decide
    simp only [start, or_false]
    intro none'
    simp only [none', Nat.mul_zero, Nat.not_lt_zero] at below
  simp only [mountedImage, readAtaSectors, if_neg some']
  rw [Image.byte_ofBytes, readSectors_eq _ _ _ _ _ room,
    blit_inside _ _ (Nat.zero_le k) (by omega), Nat.sub_zero]

/-- After a flush it is what was flushed. -/
theorem mountedImage_byte_flush {module : Image} (fs : Fs) (same : module.sectorCount = fs.sectorCount)
    (room : imageSector + fs.sectorCount ≤ 2 ^ 28) {k : Nat}
    (below : k < ataSectorSize * fs.sectorCount) :
    (mountedImage module fs.flush.disk).byte k = fs.byte k := by
  have back := readAtaSectors_writeAtaSectors imageSector fs.sectorCount fs.byte module.byte fs.disk
    room (by decide)
  simp only [mountedImage, Fs.flush, same, back]
  rw [Image.byte_ofBytes, blit_inside _ _ (Nat.zero_le k) (by omega), Nat.sub_zero]

theorem markDentries_image (n : Nat) : ∀ {i : Nat} {fs fs' : Fs}, markDentries n i fs = some fs' →
    fs'.toImage = fs.toImage := by
  induction n with
  | zero =>
      intro i fs fs' ran
      obtain rfl := Option.some.inj ran
      rfl
  | succ n ih =>
      intro i fs fs' ran
      simp only [markDentries] at ran
      split_ifs at ran
      · exact ih ran
      · obtain ⟨inodes, _, ran⟩ := Option.bind_eq_some_iff.1 ran
        obtain ⟨blocks, _, ran⟩ := Option.bind_eq_some_iff.1 ran
        have rest := ih ran
        exact rest

theorem fileSystemInit_image {module : Image} {disk : Disk} {fs : Fs}
    (ran : fileSystemInit module disk = some fs) : fs.toImage = mountedImage module disk :=
  markDentries_image _ ran

/-- What mounting works on is read from bytes, whether or not the boot module was. -/
theorem mountedImage_eq_ofBytes (module : Image) (disk : Disk) :
    mountedImage module disk = Image.ofBytes (mountedImage module disk).byte := by
  obtain ⟨bytes, same⟩ : ∃ bytes, mountedImage module disk = Image.ofBytes bytes := by
    simp only [mountedImage, readAtaSectors]
    split_ifs
    · exact ⟨_, rfl⟩
    · exact ⟨_, rfl⟩
  rw [same, funext (Image.byte_ofBytes bytes)]

section

variable (m : Image) {i : Nat}

theorem byte_inodeCount (small : i < 4) : m.byte (4 + i) = leByte m.bootBlock.inodeCount i := by
  rw [Image.byte, if_pos (by simp only [fsBlockSize]; omega), BootBlock.byte, if_neg (by omega),
    if_pos (by omega)]
  congr 1
  omega

theorem byte_dataBlockCount (small : i < 4) :
    m.byte (8 + i) = leByte m.bootBlock.dataBlockCount i := by
  rw [Image.byte, if_pos (by simp only [fsBlockSize]; omega), BootBlock.byte, if_neg (by omega),
    if_neg (by omega), if_pos (by omega)]
  congr 1
  omega

/-- The image read back from its bytes has its extent. -/
theorem ofBytes_extent : (Image.ofBytes m.byte).extent = m.extent := by
  have inodes : leWord m.byte 4 = m.bootBlock.inodeCount :=
    leWord_leByte m.bootBlock.inodeCount_lt _ 4 fun _ small => byte_inodeCount m small
  have blocks : leWord m.byte 8 = m.bootBlock.dataBlockCount :=
    leWord_leByte m.bootBlock.dataBlockCount_lt _ 8 fun _ small => byte_dataBlockCount m small
  simp only [Image.extent, Image.ofBytes, BootBlock.ofBytes, inodes, blocks]

end

/-- The boot module has the counts of the image. -/
def SameCounts (module : Image) (fs : Fs) : Prop :=
  module.bootBlock.inodeCount = fs.bootBlock.inodeCount ∧
    module.bootBlock.dataBlockCount = fs.bootBlock.dataBlockCount

/-- `file_system_init` on the boot module and the disk of `fs` gives back every
byte of the image of `fs`. -/
def Restores (module : Image) (fs : Fs) : Prop :=
  ∃ fs', fileSystemInit module fs.disk = some fs' ∧ ∀ k, k < fs.extent → fs'.byte k = fs.byte k

/-- The image with its last byte changed, as a boot module. -/
def spoiled (fs : Fs) : Image :=
  Image.ofBytes (Function.update fs.byte (fs.extent - 1) (fs.byte (fs.extent - 1) + 1))

theorem spoiled_sameCounts (fs : Fs) : SameCounts (spoiled fs) fs := by
  have long : fs.extent - 1 ≥ 4095 := by
    simp only [Image.extent, fsBlockSize]
    omega
  constructor
  · refine leWord_leByte fs.bootBlock.inodeCount_lt _ 4 fun i small => ?_
    rw [Function.update_of_ne (by omega), byte_inodeCount fs.toImage small]
  · refine leWord_leByte fs.bootBlock.dataBlockCount_lt _ 8 fun i small => ?_
    rw [Function.update_of_ne (by omega), byte_dataBlockCount fs.toImage small]

/-- **Mounting does not restore the image**: `N` sectors of 512 bytes hold an
eighth of the `N` blocks of 4096, and the last byte comes from the boot module. -/
theorem spoiled_not_restored (fs : Fs) : ¬Restores (spoiled fs) fs := by
  rintro ⟨fs', ran, same⟩
  have counts := spoiled_sameCounts fs
  have short : (spoiled fs).sectorCount ≤
      fs.bootBlock.inodeCount + fs.bootBlock.dataBlockCount + 1 := by
    simp only [Image.sectorCount, counts.1, counts.2]
    exact Nat.mod_le _ _
  have beyond : ataSectorSize * (spoiled fs).sectorCount ≤ fs.extent - 1 := by
    simp only [Image.extent, fsBlockSize, ataSectorSize]
    omega
  have last := same (fs.extent - 1) (by simp only [Image.extent, fsBlockSize]; omega)
  rw [fileSystemInit_image ran, mountedImage_byte_beyond _ _ beyond, spoiled, Image.byte_ofBytes,
    Function.update_self] at last
  exact absurd last (by simp)

end Illinix.FileSys
