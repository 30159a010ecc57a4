/-
# FileSys.Mount -- the two bitmaps after file_system_init

`file_system_init` walks the directory and, for each entry with a name, the
block list of its inode up to the first 0 or to slot 64.  Every store to a bitmap
adds one index to those marked, so the walks add what they pass (`Marks`).

In a well-formed image a block list ends at its first 0, and the distinct blocks
before it are fewer than 64: the walk passes them all.  `fileSystemInit_exact`
says that mounting such an image succeeds and marks its files and nothing else.
`fileSystemInit_isSome` is when it succeeds, for any image.
-/
import Illinix.FileSys.Disk
import Mathlib.Data.Finset.Card
import Mathlib.Order.Interval.Finset.Nat

namespace Illinix.FileSys

open Illinix.Theory

set_option autoImplicit false

/-! ## Marking -/

/-- `bits'` has the marks of `bits` and those in `s`. -/
def Marks (bits bits' : Nat → Bool) (s : Nat → Prop) : Prop :=
  ∀ b, bits' b = true ↔ bits b = true ∨ s b

section

variable {bits bits' bits'' : Nat → Bool} {s t : Nat → Prop} {i : Nat}

theorem Marks.none (bits : Nat → Bool) (empty : ∀ b, ¬s b) : Marks bits bits s :=
  fun b => (or_iff_left (empty b)).symm

theorem Marks.trans (first : Marks bits bits' s) (second : Marks bits' bits'' t) :
    Marks bits bits'' fun b => s b ∨ t b := by
  intro b
  rw [second b, first b, or_assoc]

theorem Marks.congr (marks : Marks bits bits' s) (same : ∀ b, s b ↔ t b) : Marks bits bits' t :=
  fun b => (marks b).trans (or_congr_right (same b))

theorem bitmapSet_marks (bits : Nat → Bool) (inside : i < bitmapSlots) :
    ∃ bits', bitmapSet bits i true = some bits' ∧ Marks bits bits' (· = i) := by
  refine ⟨_, if_pos inside, fun b => ?_⟩
  rw [Function.update_apply]
  by_cases here : b = i
  · simp [here]
  · simp [here]

/-- What holds somewhere from `i` on holds at `i` or behind it. -/
theorem exists_from_iff (i : Nat) {p : Nat → Prop} :
    (∃ k, i ≤ k ∧ p k) ↔ p i ∨ ∃ k, i + 1 ≤ k ∧ p k := by
  constructor
  · rintro ⟨k, low, holds⟩
    rcases Nat.eq_or_lt_of_le low with rfl | later
    · exact Or.inl holds
    · exact Or.inr ⟨k, later, holds⟩
  · rintro (holds | ⟨k, low, holds⟩)
    · exact ⟨i, Nat.le_refl i, holds⟩
    · exact ⟨k, Nat.le_of_succ_le low, holds⟩

end

/-! ## Well-formed images -/

/-- Entry `i` of the directory has a name. -/
def BootBlock.Named (b : BootBlock) (i : Nat) : Prop :=
  i < b.dentryCount ∧ (b.dentries i).fileName 0 ≠ 0

/-- The list of an inode: `n` distinct blocks of the image other than block 0,
and 0 in the slots behind them. -/
structure BlockList (count : Nat) (inode : Inode) (n : Nat) : Prop where
  fits : n ≤ blockSlots
  inRange : ∀ j, j < n → 0 < inode.dataBlocks j ∧ inode.dataBlocks j < count
  distinct : ∀ j k, j < n → k < n → inode.dataBlocks j = inode.dataBlocks k → j = k
  zeros : ∀ j, n ≤ j → j < blockSlots → inode.dataBlocks j = 0

/-- The image fits the bitmaps, and its named entries have inodes with block
lists. -/
structure WellFormed (m : Image) : Prop where
  dentries : m.bootBlock.dentryCount ≤ dentrySlots
  inodes : m.bootBlock.inodeCount ≤ bitmapSlots
  blocks : m.bootBlock.dataBlockCount ≤ bitmapSlots
  inRange : ∀ i, m.bootBlock.Named i →
    (m.bootBlock.dentries i).inodeNum < m.bootBlock.inodeCount
  lists : ∀ i, m.bootBlock.Named i → ∃ n, BlockList m.bootBlock.dataBlockCount
    (m.inodeBlocks (m.bootBlock.dentries i).inodeNum) n

/-- Block `b` is in the list of the inode. -/
def Inode.Lists (inode : Inode) (b : Nat) : Prop :=
  b ≠ 0 ∧ ∃ j, j < blockSlots ∧ inode.dataBlocks j = b

/-- Inode `n` is that of a named entry. -/
def Image.InodeUsed (m : Image) (n : Nat) : Prop :=
  ∃ i, m.bootBlock.Named i ∧ (m.bootBlock.dentries i).inodeNum = n

/-- Block `b` is in the list of a named entry's inode. -/
def Image.BlockUsed (m : Image) (b : Nat) : Prop :=
  ∃ i, m.bootBlock.Named i ∧ (m.inodeBlocks (m.bootBlock.dentries i).inodeNum).Lists b

section

variable {inode : Inode} {count n : Nat}

/-- Distinct blocks from 1 on are fewer than the count. -/
theorem BlockList.short (list : BlockList count inode n) : n ≤ count - 1 := by
  have maps : Set.MapsTo inode.dataBlocks (Finset.range n : Set Nat) (Finset.Ico 1 count) := by
    intro j mem
    have inside := list.inRange j (Finset.mem_range.1 mem)
    exact Finset.mem_coe.2 (Finset.mem_Ico.2 inside)
  have injective : Set.InjOn inode.dataBlocks (Finset.range n : Set Nat) := fun j low k high =>
    list.distinct j k (Finset.mem_range.1 low) (Finset.mem_range.1 high)
  have card := Finset.card_le_card_of_injOn inode.dataBlocks maps injective
  rwa [Finset.card_range, Nat.card_Ico] at card

theorem BlockList.lists (list : BlockList count inode n) (b : Nat) :
    inode.Lists b ↔ ∃ j, j < n ∧ inode.dataBlocks j = b := by
  constructor
  · rintro ⟨some', j, inside, rfl⟩
    refine ⟨j, ?_, rfl⟩
    by_contra beyond
    exact some' (list.zeros j (Nat.le_of_not_lt beyond) inside)
  · rintro ⟨j, low, rfl⟩
    have fits := list.fits
    exact ⟨Nat.ne_of_gt (list.inRange j low).1, j, by omega, rfl⟩

/-! ## The walks -/

/-- The walk of a block list from slot `j` on, with rounds left for the rest. -/
theorem markBlocks_marks (list : BlockList count inode n) (small : count ≤ bitmapSlots) (r : Nat) :
    ∀ (j : Nat) (bits : Nat → Bool), j ≤ n → n ≤ j + r → j + r ≤ blockSlots →
      ∃ bits', markBlocks inode r j bits = some bits' ∧
        Marks bits bits' fun b => ∃ k, j ≤ k ∧ k < n ∧ inode.dataBlocks k = b := by
  induction r with
  | zero =>
      intro j bits _ enough _
      exact ⟨bits, rfl, .none bits fun b ⟨k, low, high, _⟩ => by omega⟩
  | succ r ih =>
      intro j bits low enough inside
      simp only [markBlocks]
      rcases Nat.eq_or_lt_of_le low with rfl | more
      · rw [if_pos (list.zeros j (le_refl j) (by omega))]
        exact ⟨bits, rfl, .none bits fun b ⟨k, low, high, _⟩ => by omega⟩
      · obtain ⟨some', below⟩ := list.inRange j more
        obtain ⟨mid, set, one⟩ := bitmapSet_marks bits (below.trans_le small)
        obtain ⟨bits', walked, rest⟩ := ih (j + 1) mid more (by omega) (by omega)
        rw [if_neg (Nat.ne_of_gt some'), set]
        refine ⟨bits', walked, (one.trans rest).congr fun b => ?_⟩
        rw [exists_from_iff j]
        exact or_congr_left ⟨fun same => ⟨more, same.symm⟩, fun here => here.2.symm⟩

/-- The walk from slot 0, with its 64 rounds. -/
theorem markBlocks_lists (list : BlockList count inode n) (small : count ≤ bitmapSlots)
    (bits : Nat → Bool) :
    ∃ bits', markBlocks inode 64 0 bits = some bits' ∧ Marks bits bits' inode.Lists := by
  have short := list.short
  have slots : bitmapSlots = 64 := rfl
  obtain ⟨bits', walked, marks⟩ :=
    markBlocks_marks list small 64 0 bits (Nat.zero_le n) (by omega) (by decide)
  refine ⟨bits', walked, marks.congr fun b => ?_⟩
  rw [list.lists]
  simp only [Nat.zero_le, true_and]

end

/-- The walk of the directory from entry `i` on. -/
theorem markDentries_marks {m : Image} (formed : WellFormed m) (n : Nat) : ∀ (i : Nat) (fs : Fs),
    fs.toImage = m → i + n = m.bootBlock.dentryCount →
    ∃ fs', markDentries n i fs = some fs' ∧
      Marks fs.inodeBitmap fs'.inodeBitmap (fun x => ∃ k, i ≤ k ∧ m.bootBlock.Named k ∧
        (m.bootBlock.dentries k).inodeNum = x) ∧
      Marks fs.dataBlockBitmap fs'.dataBlockBitmap (fun b => ∃ k, i ≤ k ∧ m.bootBlock.Named k ∧
        (m.inodeBlocks (m.bootBlock.dentries k).inodeNum).Lists b) := by
  induction n with
  | zero =>
      intro i fs _ total
      refine ⟨fs, rfl, .none _ ?_, .none _ ?_⟩
      · rintro x ⟨k, low, ⟨inside, _⟩, _⟩
        omega
      · rintro b ⟨k, low, ⟨inside, _⟩, _⟩
        omega
  | succ n ih =>
      rintro i fs rfl total
      have bound := formed.dentries
      simp only [markDentries]
      rw [if_pos (show i < dentrySlots by omega)]
      by_cases blank : (fs.bootBlock.dentries i).fileName 0 = 0
      · have unnamed : ¬fs.bootBlock.Named i := fun named => named.2 blank
        obtain ⟨fs', walked, inodes, blocks⟩ := ih (i + 1) fs rfl (by omega)
        rw [if_pos blank]
        refine ⟨fs', walked, inodes.congr fun x => ?_, blocks.congr fun b => ?_⟩
        · rw [exists_from_iff i, or_iff_right fun here => unnamed here.1]
        · rw [exists_from_iff i, or_iff_right fun here => unnamed here.1]
      · have named : fs.bootBlock.Named i := ⟨by omega, blank⟩
        have inside := formed.inRange i named
        obtain ⟨len, list⟩ := formed.lists i named
        obtain ⟨inodeBits, setInode, inode⟩ :=
          bitmapSet_marks fs.inodeBitmap (inside.trans_le formed.inodes)
        obtain ⟨blockBits, setBlocks, listed⟩ :=
          markBlocks_lists list formed.blocks fs.dataBlockBitmap
        obtain ⟨fs', walked, inodes, blocks⟩ := ih (i + 1)
          { fs with inodeBitmap := inodeBits, dataBlockBitmap := blockBits } rfl (by omega)
        rw [if_neg blank, if_pos inside, setInode, setBlocks]
        refine ⟨fs', walked, (inode.trans inodes).congr fun x => ?_,
          (listed.trans blocks).congr fun b => ?_⟩
        · rw [exists_from_iff i]
          exact or_congr_left ⟨fun same => ⟨named, same.symm⟩, fun here => here.2.symm⟩
        · rw [exists_from_iff i]
          exact or_congr_left ⟨fun lists => ⟨named, lists⟩, fun here => here.2⟩

/-- **The bitmaps built at start-up are exact.** On a well-formed image mounting
goes through, and the marks are the inodes of the named entries and the blocks in
their lists. -/
theorem fileSystemInit_exact (module : Image) (disk : Disk)
    (formed : WellFormed (mountedImage module disk)) :
    ∃ fs, fileSystemInit module disk = some fs ∧
      (∀ n, fs.inodeBitmap n = true ↔ (mountedImage module disk).InodeUsed n) ∧
      ∀ b, fs.dataBlockBitmap b = true ↔ (mountedImage module disk).BlockUsed b := by
  obtain ⟨fs, walked, inodes, blocks⟩ :=
    markDentries_marks formed (mountedImage module disk).bootBlock.dentryCount 0
      { mountedImage module disk with
        inodeBitmap := fun _ => false, dataBlockBitmap := fun _ => false, disk := disk }
      rfl (Nat.zero_add _)
  refine ⟨fs, walked, fun n => (inodes n).trans ?_, fun b => (blocks b).trans ?_⟩
  · simp [Image.InodeUsed]
  · simp [Image.BlockUsed]

/-! ## When the marks fit -/

/-- The walk of the list stays inside the bitmap: up to the first 0 or slot 64. -/
def Inode.Fits (inode : Inode) : Prop :=
  ∀ j, j < 64 → (∀ i, i ≤ j → inode.dataBlocks i ≠ 0) → inode.dataBlocks j < bitmapSlots

/-- The marks of entry `i` stay inside the bitmaps. -/
def Image.EntryFits (m : Image) (i : Nat) : Prop :=
  i < dentrySlots ∧ ((m.bootBlock.dentries i).fileName 0 ≠ 0 →
    (m.bootBlock.dentries i).inodeNum < m.bootBlock.inodeCount ∧
    (m.bootBlock.dentries i).inodeNum < bitmapSlots ∧
    (m.inodeBlocks (m.bootBlock.dentries i).inodeNum).Fits)

/-- `file_system_init` stays inside the directory, the inodes and the bitmaps. -/
def Image.Mounts (m : Image) : Prop := ∀ i, i < m.bootBlock.dentryCount → m.EntryFits i

theorem bitmapSet_isSome {bits : Nat → Bool} {i : Nat} {bit : Bool} :
    (bitmapSet bits i bit).isSome ↔ i < bitmapSlots := by
  simp only [bitmapSet]
  split_ifs with inside
  · exact iff_of_true rfl inside
  · exact iff_of_false Bool.false_ne_true inside

theorem markBlocks_isSome (inode : Inode) (r : Nat) : ∀ (j : Nat) (bits : Nat → Bool),
    (markBlocks inode r j bits).isSome ↔ ∀ k, j ≤ k → k < j + r →
      (∀ i, j ≤ i → i ≤ k → inode.dataBlocks i ≠ 0) → inode.dataBlocks k < bitmapSlots := by
  induction r with
  | zero =>
      intro j bits
      exact iff_of_true rfl fun k low high => absurd high (by omega)
  | succ r ih =>
      intro j bits
      simp only [markBlocks]
      by_cases stop : inode.dataBlocks j = 0
      · rw [if_pos stop]
        exact iff_of_true rfl fun k low _ passed => absurd stop (passed j (le_refl j) low)
      rw [if_neg stop]
      cases set : bitmapSet bits (inode.dataBlocks j) true with
      | none =>
          refine iff_of_false Bool.false_ne_true fun all => ?_
          have here := all j (le_refl j) (by omega) fun i low high => by
            rwa [Nat.le_antisymm high low]
          exact absurd (bitmapSet_isSome.2 here) (by rw [set]; exact Bool.false_ne_true)
      | some mid =>
          have here : inode.dataBlocks j < bitmapSlots := bitmapSet_isSome.1 (by rw [set]; rfl)
          refine (ih (j + 1) mid).trans ⟨fun rest k low high passed => ?_,
            fun all k low high passed => ?_⟩
          · rcases Nat.eq_or_lt_of_le low with rfl | later
            · exact here
            · exact rest k later (by omega) fun i low => passed i (by omega)
          · refine all k (by omega) (by omega) fun i low' high' => ?_
            rcases Nat.eq_or_lt_of_le low' with rfl | later
            · exact stop
            · exact passed i later high'

theorem markDentries_isSome {m : Image} (n : Nat) : ∀ (i : Nat) (fs : Fs), fs.toImage = m →
    ((markDentries n i fs).isSome ↔ ∀ k, i ≤ k → k < i + n → m.EntryFits k) := by
  induction n with
  | zero =>
      intro i fs _
      exact iff_of_true rfl fun k low high => absurd high (by omega)
  | succ n ih =>
      rintro i fs rfl
      -- entry `i` first, the rest by induction
      have split : (∀ k, i ≤ k → k < i + (n + 1) → fs.EntryFits k) ↔
          fs.EntryFits i ∧ ∀ k, i + 1 ≤ k → k < i + 1 + n → fs.EntryFits k := by
        constructor
        · exact fun all => ⟨all i (le_refl i) (by omega), fun k low high => all k (by omega) (by omega)⟩
        · rintro ⟨first, rest⟩ k low high
          rcases Nat.eq_or_lt_of_le low with rfl | later
          · exact first
          · exact rest k later (by omega)
      rw [split]
      simp only [markDentries]
      by_cases slot : i < dentrySlots
      swap
      · rw [if_neg slot]
        exact iff_of_false Bool.false_ne_true fun both => slot both.1.1
      rw [if_pos slot]
      by_cases blank : (fs.bootBlock.dentries i).fileName 0 = 0
      · rw [if_pos blank, ih (i + 1) fs rfl]
        exact (and_iff_right ⟨slot, fun named => absurd blank named⟩).symm
      rw [if_neg blank]
      by_cases inside : (fs.bootBlock.dentries i).inodeNum < fs.bootBlock.inodeCount
      swap
      · rw [if_neg inside]
        exact iff_of_false Bool.false_ne_true fun both => inside (both.1.2 blank).1
      rw [if_pos inside]
      cases inode : bitmapSet fs.inodeBitmap (fs.bootBlock.dentries i).inodeNum true with
      | none =>
          refine iff_of_false Bool.false_ne_true fun both => ?_
          exact absurd (bitmapSet_isSome.2 (both.1.2 blank).2.1) (by rw [inode]; exact Bool.false_ne_true)
      | some inodes =>
          have marked := bitmapSet_isSome.1 (by rw [inode]; rfl)
          have lists := markBlocks_isSome (fs.inodeBlocks (fs.bootBlock.dentries i).inodeNum) 64 0
            fs.dataBlockBitmap
          simp only [Nat.zero_le, true_implies, Nat.zero_add] at lists
          cases blocks : markBlocks (fs.inodeBlocks (fs.bootBlock.dentries i).inodeNum) 64 0
              fs.dataBlockBitmap with
          | none =>
              refine iff_of_false Bool.false_ne_true fun both => ?_
              exact absurd (lists.2 (both.1.2 blank).2.2) (by rw [blocks]; exact Bool.false_ne_true)
          | some bits =>
              have listed := lists.1 (by rw [blocks]; rfl)
              refine (ih (i + 1) _ ?_).trans
                (and_iff_right ⟨slot, fun _ => ⟨inside, marked, listed⟩⟩).symm
              rfl

/-- **When mounting goes through.** -/
theorem fileSystemInit_isSome (module : Image) (disk : Disk) :
    (fileSystemInit module disk).isSome ↔ (mountedImage module disk).Mounts := by
  have walk := markDentries_isSome (m := mountedImage module disk)
    (mountedImage module disk).bootBlock.dentryCount 0
    { mountedImage module disk with
      inodeBitmap := fun _ => false, dataBlockBitmap := fun _ => false, disk := disk } rfl
  simp only [Nat.zero_le, true_implies, Nat.zero_add] at walk
  exact walk

/-- Mounting looks at bytes of the image only. -/
theorem mounts_congr {bytes bytes' : Nat → UInt8}
    (same : ∀ k, k < (Image.ofBytes bytes).extent → bytes k = bytes' k)
    (mounts : (Image.ofBytes bytes).Mounts) : (Image.ofBytes bytes').Mounts := by
  have block : fsBlockSize ≤ (Image.ofBytes bytes).extent := Nat.le_mul_of_pos_left _ (Nat.succ_pos _)
  have word : ∀ pos, pos + 4 ≤ fsBlockSize → leWord bytes' pos = leWord bytes pos := fun pos inside =>
    leWord_congr fun k small => (same (pos + k) (by omega)).symm
  have count : (Image.ofBytes bytes').bootBlock.dentryCount =
      (Image.ofBytes bytes).bootBlock.dentryCount := word 0 (by decide)
  have inodes : (Image.ofBytes bytes').bootBlock.inodeCount =
      (Image.ofBytes bytes).bootBlock.inodeCount := word 4 (by decide)
  intro i low
  rw [count] at low
  obtain ⟨slot, fits⟩ := mounts i low
  have slot' : i < 63 := slot
  have first : ((Image.ofBytes bytes').bootBlock.dentries i).fileName 0 =
      ((Image.ofBytes bytes).bootBlock.dentries i).fileName 0 :=
    (same (64 + 64 * i + 0) (by simp only [fsBlockSize] at block; omega)).symm
  have number : ((Image.ofBytes bytes').bootBlock.dentries i).inodeNum =
      ((Image.ofBytes bytes).bootBlock.dentries i).inodeNum :=
    word (64 + 64 * i + 32 + 4) (by simp only [fsBlockSize]; omega)
  refine ⟨slot, fun named => ?_⟩
  rw [first] at named
  obtain ⟨inside, small, list⟩ := fits named
  rw [number, inodes]
  refine ⟨inside, small, fun j rounds passed => ?_⟩
  have slots : ∀ k, k ≤ j → ((Image.ofBytes bytes').inodeBlocks
      ((Image.ofBytes bytes).bootBlock.dentries i).inodeNum).dataBlocks k =
      ((Image.ofBytes bytes).inodeBlocks
        ((Image.ofBytes bytes).bootBlock.dentries i).inodeNum).dataBlocks k := by
    intro k short
    refine leWord_congr fun b small => (same _ ?_).symm
    simp only [Image.extent, fsBlockSize]
    omega
  rw [slots j (le_refl j)]
  exact list j rounds fun k short => slots k short ▸ passed k short

theorem sectorCount_le (m : Image) :
    m.sectorCount ≤ m.bootBlock.inodeCount + m.bootBlock.dataBlockCount + 1 := Nat.mod_le _ _

/-- The sectors moved are an eighth of the image, or less. -/
theorem sectors_le_extent {module : Image} {fs : Fs} (counts : SameCounts module fs) :
    ataSectorSize * module.sectorCount ≤ fs.extent := by
  have few := sectorCount_le module
  rw [counts.1, counts.2] at few
  simp only [Image.extent, fsBlockSize, ataSectorSize]
  omega

/-- Mounting restores the image if its marks fit and all its bytes are there. -/
theorem restores_iff {module : Image} {fs : Fs} : Restores module fs ↔
    (Image.ofBytes fs.byte).Mounts ∧
      ∀ k, k < fs.extent → (mountedImage module fs.disk).byte k = fs.byte k := by
  have mounts : (∀ k, k < fs.extent → (mountedImage module fs.disk).byte k = fs.byte k) →
      ((fileSystemInit module fs.disk).isSome ↔ (Image.ofBytes fs.byte).Mounts) := by
    intro same
    have here := ofBytes_extent fs.toImage
    have head : ∀ pos, pos + 4 ≤ fsBlockSize → leWord (mountedImage module fs.disk).byte pos =
        leWord fs.byte pos := fun pos inside => leWord_congr fun k small => same _ (by
      have block : fsBlockSize ≤ fs.extent := Nat.le_mul_of_pos_left _ (Nat.succ_pos _)
      omega)
    have extent : (Image.ofBytes (mountedImage module fs.disk).byte).extent = fs.extent := by
      rw [← here]
      simp only [Image.extent, Image.ofBytes, BootBlock.ofBytes, head 4 (by decide),
        head 8 (by decide)]
    rw [fileSystemInit_isSome, mountedImage_eq_ofBytes]
    constructor
    · refine mounts_congr fun k inside => same k ?_
      rwa [extent] at inside
    · refine mounts_congr fun k inside => (same k ?_).symm
      rwa [here] at inside
  constructor
  · rintro ⟨fs', ran, same⟩
    have same' : ∀ k, k < fs.extent → (mountedImage module fs.disk).byte k = fs.byte k := by
      rw [← fileSystemInit_image ran]
      exact same
    exact ⟨(mounts same').1 (by rw [ran]; rfl), same'⟩
  · rintro ⟨fits, same⟩
    obtain ⟨fs', ran⟩ := Option.isSome_iff_exists.1 ((mounts same).2 fits)
    refine ⟨fs', ran, ?_⟩
    rw [fileSystemInit_image ran]
    exact same

/-! ## One file -/

/-- A disk that agrees with the boot module changes nothing. -/
theorem mountedImage_ofBytes {bytes : Nat → UInt8} {disk : Disk}
    (room : imageSector + (Image.ofBytes bytes).sectorCount ≤ 2 ^ 28)
    (same : ∀ k, disk (imageSector + k / ataSectorSize) (k % ataSectorSize) = bytes k) :
    mountedImage (Image.ofBytes bytes) disk = Image.ofBytes bytes := by
  have flat : (Image.ofBytes bytes).byte = bytes := funext (Image.byte_ofBytes bytes)
  have read : ∀ n, imageSector + n ≤ 2 ^ 28 →
      readSectors disk n imageSector 0 bytes = bytes := by
    intro n room
    rw [readSectors_eq _ _ _ _ _ room]
    funext k
    simp only [blit, Nat.sub_zero, same]
    split_ifs <;> rfl
  simp only [mountedImage, readAtaSectors, flat]
  split_ifs
  · rfl
  · exact congrArg Image.ofBytes (read _ room)

/-- One entry, named "a", with inode 0 of one block, which is block 1 of two. -/
def oneEntryBytes (k : Nat) : UInt8 :=
  if k = 0 ∨ k = 4 ∨ k = 4096 ∨ k = 4100 then 1
  else if k = 8 then 2
  else if k = 64 then 97
  else 0

def oneEntryDisk : Disk := fun sector k => oneEntryBytes (ataSectorSize * (sector - imageSector) + k)

theorem oneEntry_mounted :
    mountedImage (Image.ofBytes oneEntryBytes) oneEntryDisk = Image.ofBytes oneEntryBytes := by
  refine mountedImage_ofBytes (by decide) fun k => ?_
  simp only [oneEntryDisk]
  rw [Nat.add_sub_cancel_left, Nat.div_add_mod]

theorem oneEntry_list : BlockList 2 ((Image.ofBytes oneEntryBytes).inodeBlocks 0) 1 := by
  refine ⟨by decide, fun j low => ?_, fun j k low high _ => by omega, fun j low _ => ?_⟩
  · obtain rfl : j = 0 := Nat.lt_one_iff.1 low
    decide
  · have clear : ∀ i, i < 4 → oneEntryBytes (4096 + 4 + 4 * j + i) = 0 := by
      intro i small
      simp only [oneEntryBytes]
      rw [if_neg (by omega), if_neg (by omega), if_neg (by omega)]
    have first := clear 0 (by omega)
    rw [Nat.add_zero] at first
    show leWord oneEntryBytes (4096 + 4 + 4 * j) = 0
    simp only [leWord, first, clear 1 (by omega), clear 2 (by omega), clear 3 (by omega)]
    rfl

theorem oneEntry_formed : WellFormed (Image.ofBytes oneEntryBytes) := by
  have one : ∀ i, (Image.ofBytes oneEntryBytes).bootBlock.Named i → i = 0 :=
    fun i named => Nat.lt_one_iff.1 named.1
  refine ⟨by decide, by decide, by decide, fun i named => ?_, fun i named => ?_⟩
  · obtain rfl := one i named
    decide
  · obtain rfl := one i named
    exact ⟨1, oneEntry_list⟩

theorem oneEntry_exact : ∃ fs, fileSystemInit (Image.ofBytes oneEntryBytes) oneEntryDisk = some fs ∧
    (∀ n, fs.inodeBitmap n = true ↔
      (mountedImage (Image.ofBytes oneEntryBytes) oneEntryDisk).InodeUsed n) ∧
    ∀ b, fs.dataBlockBitmap b = true ↔
      (mountedImage (Image.ofBytes oneEntryBytes) oneEntryDisk).BlockUsed b :=
  fileSystemInit_exact _ _ (oneEntry_mounted.symm ▸ oneEntry_formed)

end Illinix.FileSys
