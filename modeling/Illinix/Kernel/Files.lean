/-
# Kernel.Files -- the system calls on descriptors and files

`read`, `write`, `open`, `close`, `create` and `delete` of syscall.c, for the
current process.  A descriptor's `ops` field picks the driver function; the RTC
and terminal drivers are the ones of rtc.c and term.c.  A call is `none` when it
leaves an array, dereferences a bad pointer or draws outside the video pages.

A call is taken whole, with no interrupt inside: the kernel runs with interrupts
on, and an interrupt between two stores of one call is looked at for the RTC's
driver only (`Kernel.Rtc`).  A buffer is a value outside the kernel's memory: the
bytes a call reads from it or leaves in it.

Two reads block: `terminal_read` spins until the keyboard handler clears
`in_progress`, `rtc_read` until the RTC handler has fired.  Such a call is
`waiting`, and `resume` is one more round of its loop.
-/
import Illinix.Kernel.Screen

namespace Illinix.Kernel

open Illinix.FileSys Illinix.Theory

set_option autoImplicit false

def rtcMaxFreq : Int := 1024
def rtcMinFreq : Int := 2

/-- What a read has come to: a return value with the buffer, or a spin loop. -/
inductive Reading where
  | returned (value : Int) (buf : Option (Nat → UInt8))
  | waiting

/-- The result of a call that does not block: the machine and the return value. -/
abbrev Call : Type := Option (Machine × Int)

namespace Machine

/-! ## term.c and rtc.c -/

/-- One test of the loop of `terminal_read`, and what follows it. -/
def terminalPoll (m : Machine) (buf : Nat → UInt8) (count : Nat) : Option (Machine × Reading) :=
  let t := m.terms m.activeTermId
  if t.inProgress then some (m, .waiting)
  else
    let buf := if t.length < count then Function.update buf t.length 0 else buf
    let count := if t.length < count then t.length else count
    if count ≤ maxTerminal then
      some (m.setTerm m.activeTermId { t with length := 0, inProgress := true },
        .returned (i32 count) (some (blit buf 0 t.content count)))
    else none

def terminalRead (m : Machine) (buf : Option (Nat → UInt8)) (count : Nat) :
    Option (Machine × Reading) :=
  match buf with
  | none => some (m, .returned (-1) none)
  | some buf =>
      if count = 0 then some (m, .returned (-1) (some buf))
      else
        let t := m.activeTermId
        terminalPoll (m.setTerm t { m.terms t with inProgress := true }) buf count

/-- One round of the loop of `rtc_read`, and its return.  `--rtc_fired` and the
store of `rtc_curr` are two stores; `rtcPoll_stores` takes them apart. -/
def rtcPoll (m : Machine) (buf : Option (Nat → UInt8)) : Option (Machine × Reading) := do
  let curr ← m.getCurrentPcb
  let pcb := m.pcbs curr
  if pcb.rtc = false then some (m, .returned (-1) buf)
  else if 0 < pcb.rtcFired then
    some (m.setPcb curr { pcb with rtcFired := pcb.rtcFired - 1, rtcCurr := pcb.rtcRate },
      .returned 0 buf)
  else some (m, .waiting)

def rtcRead (m : Machine) (buf : Option (Nat → UInt8)) : Option (Machine × Reading) := do
  let curr ← m.getCurrentPcb
  rtcPoll (m.setPcb curr { m.pcbs curr with rtcFired := 0 }) buf

/-- Three stores in a row; `rtcOpen_stores` takes them apart. -/
def rtcOpen (m : Machine) : Call := do
  let curr ← m.getCurrentPcb
  let rate := (rtcMaxFreq / rtcMinFreq).toNat
  some (m.setPcb curr
    { m.pcbs curr with rtc := true, rtcFired := 0, rtcCurr := rate, rtcRate := rate }, 0)

def rtcClose (m : Machine) : Call := do
  let curr ← m.getCurrentPcb
  some (m.setPcb curr { m.pcbs curr with rtc := false }, 0)

/-- `freq & (freq - 1)` is zero, for a positive `freq`. -/
def powerOfTwo (freq : Int) : Bool := freq.toNat &&& (freq - 1).toNat = 0

def rtcWrite (m : Machine) (buf : Option (Nat → UInt8)) (count : Nat) : Call :=
  match buf with
  | none => some (m, -1)
  | some buf =>
      if count ≠ 4 then some (m, -1)
      else
        let freq := i32 (leWord buf 0)
        if freq < rtcMinFreq ∨ rtcMaxFreq < freq ∨ powerOfTwo freq = false then some (m, -1)
        else do
          let curr ← m.getCurrentPcb
          if (m.pcbs curr).rtc = false then some (m, -1)
          else
            let rate := (rtcMaxFreq / freq).toNat
            some (m.setPcb curr { m.pcbs curr with rtcCurr := rate, rtcRate := rate }, 0)

/-! ## The driver tables -/

def dirRead (m : Machine) (buf : Option (Nat → UInt8)) (count : Nat) :
    Option (Machine × Reading) :=
  match buf with
  | none => some ({ m with dirPos := 0 }, .returned 0 none)
  | some buf =>
      if m.fs.bootBlock.dentryCount ≤ m.dirPos then
        some ({ m with dirPos := 0 }, .returned 0 (some buf))
      else if m.dirPos < dentrySlots then
        let de := m.fs.bootBlock.dentries m.dirPos
        let count := if fsMaxLen + 1 < count then fsMaxLen + 1 else count
        some ({ m with dirPos := u32 (m.dirPos + 1) },
          .returned (i32 count) (some (blit buf 0 de.byte count)))
      else none

def fileRead (m : Machine) (file : File) (buf : Option (Nat → UInt8)) (count : Nat) :
    Option (Machine × Reading) := do
  let (value, buf) ← readData m.fs file.inode file.filePos buf count
  some (m, .returned value buf)

/-- `files[fd].ops->read` -/
def opsRead (m : Machine) (file : File) (buf : Option (Nat → UInt8)) (count : Nat) :
    Option (Machine × Reading) :=
  match file.ops with
  | .stdin => m.terminalRead buf count
  | .file => m.fileRead file buf count
  | .dir => m.dirRead buf count
  | .rtc => m.rtcRead buf
  | .stdout | .null => some (m, .returned (-1) buf)

/-- The loop of a blocked `files[fd].ops->read`, once more. -/
def opsPoll (m : Machine) (file : File) (buf : Option (Nat → UInt8)) (count : Nat) :
    Option (Machine × Reading) :=
  match file.ops, buf with
  | .stdin, some buf => m.terminalPoll buf count
  | .rtc, buf => m.rtcPoll buf
  | _, _ => none

def fileWrite (m : Machine) (file : File) (buf : Option (Nat → UInt8)) (count : Nat) : Call := do
  let (fs, value) ← writeData m.fs file.inode file.filePos buf count
  some ({ m with fs := fs }, value)

/-- `files[fd].ops->write` -/
def opsWrite (m : Machine) (file : File) (buf : Option (Nat → UInt8)) (count : Nat) : Call :=
  match file.ops with
  | .stdout => m.terminalWrite buf count
  | .file => m.fileWrite file buf count
  | .rtc => m.rtcWrite buf count
  | .stdin | .dir | .null => some (m, -1)

/-- `files[fd].ops->close` -/
def opsClose (m : Machine) (ops : FileOps) : Call :=
  match ops with
  | .rtc => m.rtcClose
  | .stdin | .stdout | .file | .dir => some (m, 0)
  | .null => some (m, -1)

/-- `ops->open` -/
def opsOpen (m : Machine) (ops : FileOps) (fileName : Option CString) : Call :=
  match ops with
  | .rtc => m.rtcOpen
  | .stdin | .stdout => some (m, 0)
  | .file => do
      let found ← readDentryByName m.fs fileName
      match found with
      | none => some (m, -1)
      | some (_, den) => some (m, i32 den.inodeNum)
  | .dir => do
      let found ← readDentryByName m.fs fileName
      some (m, if found.isNone then -1 else 0)
  | .null => some (m, -1)

/-- `file_ops_map` -/
def fileOpsMap (fileType : Nat) : Option FileOps :=
  match fileType with
  | 0 => some .rtc
  | 1 => some .dir
  | 2 => some .file
  | _ => none

/-! ## The system calls -/

/-- `fd < low || fd >= 8 || curr->files[fd].present == 0` is false. -/
def usable (m : Machine) (curr low : Nat) (fd : Int) : Bool :=
  low ≤ fd ∧ fd < fileCount ∧ ((m.pcbs curr).files fd.toNat).present

/-- The end of `read`. -/
def advance (m : Machine) (curr fd : Nat) : Reading → Machine × Reading
  | .waiting => (m, .waiting)
  | .returned value buf =>
      if 0 ≤ value then
        let file := (m.pcbs curr).files fd
        (m.setFile curr fd { file with filePos := u32 (file.filePos + value.toNat) },
          .returned value buf)
      else (m, .returned (-1) buf)

def read (m : Machine) (fd : Int) (buf : Option (Nat → UInt8)) (count : Nat) :
    Option (Machine × Reading) := do
  let curr ← m.getCurrentPcb
  if m.usable curr 0 fd then do
    let (m, reading) ← m.opsRead ((m.pcbs curr).files fd.toNat) buf count
    some (m.advance curr fd.toNat reading)
  else some (m, .returned (-1) buf)

/-- A blocked `read`, resumed. -/
def resume (m : Machine) (fd : Int) (buf : Option (Nat → UInt8)) (count : Nat) :
    Option (Machine × Reading) := do
  let curr ← m.getCurrentPcb
  let (m, reading) ← m.opsPoll ((m.pcbs curr).files fd.toNat) buf count
  some (m.advance curr fd.toNat reading)

/-- `written_bytes` is unsigned, so the test `written_bytes >= 0` always holds
and the position moves by `written_bytes` modulo 2^32 on -1 as well. -/
def write (m : Machine) (fd : Int) (buf : Option (Nat → UInt8)) (count : Nat) : Call := do
  let curr ← m.getCurrentPcb
  if m.usable curr 0 fd then do
    let (m, value) ← m.opsWrite ((m.pcbs curr).files fd.toNat) buf count
    let file := (m.pcbs curr).files fd.toNat
    some (m.setFile curr fd.toNat
      { file with filePos := u32 (file.filePos + (value % 2 ^ 32).toNat) }, value)
  else some (m, -1)

/-- The first descriptor from 2 on that is not present. -/
def freeFd (pcb : Pcb) : Option Nat :=
  ([2, 3, 4, 5, 6, 7] : List Nat).find? fun i => (pcb.files i).present = false

def open' (m : Machine) (fileName : Option CString) : Call := do
  let curr ← m.getCurrentPcb
  match freeFd (m.pcbs curr) with
  | none => some (m, -1)
  | some i => do
      let found ← readDentryByName m.fs fileName
      match found with
      | none => some (m, -1)
      | some (_, den) => do
          let ops ← fileOpsMap den.fileType
          let (m, value) ← m.opsOpen ops fileName
          if value = -1 then some (m, -1)
          else some (m.setFile curr i ⟨ops, den.inodeNum, 0, true⟩, i)

def close (m : Machine) (fd : Int) : Call := do
  let curr ← m.getCurrentPcb
  if m.usable curr 2 fd then do
    let (m, value) ← m.opsClose ((m.pcbs curr).files fd.toNat).ops
    if value = 0 then
      some (m.setFile curr fd.toNat { (m.pcbs curr).files fd.toNat with present := false }, 0)
    else some (m, -1)
  else some (m, -1)

/-- The name bytes of a new entry: the string, cut at 32 bytes, padded with 0. -/
def dentryName (s : CString) (k : Nat) : UInt8 := if k < fsMaxLen then s.at k else 0

/-- The end of `create`: the entry and the empty inode go into the file system,
the descriptor into the process. -/
def created (m : Machine) (curr fd inode : Nat) (s : CString) (reserved : Nat → UInt8) : Machine :=
  let boot := m.fs.bootBlock
  let den : Dentry := ⟨dentryName s, 2, inode, reserved⟩
  let fs := m.fs.setSize inode 0
  let fs := { fs with bootBlock := { boot with
    dentryCount := boot.dentryCount + 1
    dentries := Function.update boot.dentries boot.dentryCount den } }
  { m with fs := fs }.setFile curr fd ⟨.file, inode, 0, true⟩

/-- `reserved` is what the local `den` holds in its last 24 bytes.  The code does
not ask whether the directory is full: it stores entry 63 behind the boot block,
over inode 0, and goes on.  That is `none` here, and a run that gets there has
failed: nothing is claimed of it. -/
def create (m : Machine) (fileName : Option CString) (reserved : Nat → UInt8) : Call := do
  let curr ← m.getCurrentPcb
  match freeFd (m.pcbs curr) with
  | none => some (m, -1)
  | some fd => do
      let found ← readDentryByName m.fs fileName
      if found.isSome then some (m, -1)
      else do
        let inode ← findFreeInode m.fs
        if inode = 2 ^ 32 - 1 then some (m, -1)
        else do
          let s ← fileName
          if m.fs.bootBlock.dentryCount < dentrySlots then
            some (m.created curr fd inode s reserved, fd)
          else none

/-- Some descriptor from 2 on of a process from `TERMINAL_COUNT` on has the inode. -/
def inUse (m : Machine) (inode : Nat) : Bool :=
  ([3, 4, 5] : List Nat).any fun p => ([2, 3, 4, 5, 6, 7] : List Nat).any fun fd =>
    ((m.pcbs p).files fd).present && ((m.pcbs p).files fd).inode == inode

/-- The loop of `delete`, `n` rounds left: zero the block of slot `i` and clear
the bitmap entry of index `i`. -/
def wipeBlocks (inode : Nat) : Nat → Nat → Fs → Option Fs
  | 0, i, fs => do
      let _ ← fs.slot inode i
      some fs
  | n + 1, i, fs => do
      let block ← fs.slot inode i
      if block = 0 then some fs
      else do
        let fs ← fs.storeBlock block 0 (fun _ => 0) fsBlockSize
        let bits ← bitmapSet fs.dataBlockBitmap i false
        wipeBlocks inode n (i + 1) { fs with dataBlockBitmap := bits }

def zeroDentry : Dentry := ⟨fun _ => 0, 0, 0, fun _ => 0⟩

/-- The entries after `index` moved up by one, and the last one zeroed. -/
def removeDentry (b : BootBlock) (index : Nat) : BootBlock :=
  { b with
    dentryCount := b.dentryCount - 1
    dentries := fun j =>
      if j = b.dentryCount - 1 then zeroDentry
      else if index ≤ j ∧ j < b.dentryCount then b.dentries (j + 1)
      else b.dentries j }

def delete (m : Machine) (fileName : Option CString) : Call := do
  let found ← readDentryByName m.fs fileName
  match found with
  | none => do
      let m ← puts (text "File does not exist!\n") m
      some (m, -1)
  | some (index, den) =>
      if m.inUse den.inodeNum then do
        let m ← puts (text "File is openning in other process(es)!\n") m
        some (m, -1)
      else if den.inodeNum < m.fs.bootBlock.inodeCount then do
        let fs ← wipeBlocks den.inodeNum m.fs.bootBlock.inodeCount 0 m.fs
        if fs.bootBlock.dentryCount ≤ dentrySlots then
          let fs := { fs with bootBlock := removeDentry fs.bootBlock index }
          some ({ m with fs := fs.flush }, 0)
        else none
      else none

end Machine

end Illinix.Kernel
