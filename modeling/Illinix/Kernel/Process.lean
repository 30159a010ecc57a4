/-
# Kernel.Process -- execute, halt and the shells

Each process has a kernel stack with its PCB at the low end.  A trap from user
mode starts at `tss.esp0`; code that is already in the kernel stays on its stack.
`enterKernel` is the one or the other, so which PCB the next kernel code takes
for its own follows from `tss_esp0` and the saved frame pointers, as in the
source: a frame pointer is the `ebp` of a function, with the caller's `ebp` and
the return address above it.

`execute` ends in user mode and `halt` in the parent's call of `execute`, or for
a base shell in `execute("shell")`.  The program image and `argv` are left out.
Calls are taken whole: interrupts are off in `halt` and in `execute` from its
checks on, up to the `sti` before the `iret` (`Kernel.Window`).
-/
import Illinix.Kernel.Files

namespace Illinix.Kernel

open Illinix.FileSys Illinix.Theory

set_option autoImplicit false

def executableMagic : Nat := 0x464C457F

/-- The bytes a trap from user mode pushes: SS, ESP, EFLAGS, CS and EIP. -/
def trapFrame : Nat := 20

/-- The bytes above the frame pointer of a kernel function at least: a trap frame
and two words for `leave; ret`.  `initiate_shells` pushes just these. -/
def shellFrame : Nat := trapFrame + 8

/-- How a call that may leave its process ends: it returns, starts a program,
lets another process go on, or returns `value` from the call of `execute` in
`parent` that started `child`. -/
inductive Ended where
  | returned (value : Int)
  | user
  | resumed
  | delivered (parent child value : Nat)

/-- The result of a call that may leave its process. -/
abbrev Switch : Type := Option (Machine × Ended)

namespace Machine

/-! ## Kernel stacks -/

/-- Where the kernel is on a stack, or where the next trap takes it. -/
def stackPointer (m : Machine) : Nat := if m.userMode then m.tssEsp0 - trapFrame else m.esp

/-- `ebp` can be the frame pointer of a function the kernel enters now: it lies
on the same stack, below a trap frame, the caller's `ebp` and a return address. -/
def Frame (m : Machine) (ebp : Nat) : Prop :=
  ebp / kernelStackSize = m.stackPointer / kernelStackSize ∧
    ebp % kernelStackSize + shellFrame ≤ kernelStackSize

instance (m : Machine) (ebp : Nat) : Decidable (m.Frame ebp) := inferInstanceAs (Decidable (_ ∧ _))

/-- The kernel enters a function with this frame pointer. -/
def enterKernel (m : Machine) (ebp : Nat) : Option Machine :=
  if m.Frame ebp then some { m with esp := ebp, userMode := false } else none

/-- `leave; ret` with this frame pointer. -/
def leaveRet (m : Machine) (ebp : Nat) : Machine := { m with esp := ebp + 8 }

/-- The process whose PCB kernel code takes for its own from here on. -/
def running (m : Machine) : Option Nat := { m with esp := m.stackPointer }.getCurrentPcb

/-! ## execute -/

/-- The program name: the first word among the first 128 characters. -/
def commandName (command : CString) : Option CString :=
  let spaces := (command.bytes.take maxTerminal).takeWhile (· = ' '.toUInt8)
  let rest := command.bytes.drop spaces.length
  if rest = [] then none
  else some ⟨(rest.take (maxTerminal - spaces.length)).takeWhile (· ≠ ' '.toUInt8), fun mem =>
    command.noNul (List.mem_of_mem_drop (List.mem_of_mem_take ((List.takeWhile_sublist _).mem mem)))⟩

/-- The checks of `execute`; `magic` is what the local of that name holds before
`read_data`. -/
def checkExecutable (fs : Fs) (name : CString) (magic : Nat → UInt8) : Option Bool := do
  let found ← readDentryByName fs (some name)
  match found with
  | none => some false
  | some (_, den) => do
      let (value, bytes) ← readData fs den.inodeNum 0 (some magic) 4
      some (value ≠ -1 ∧ leWord (bytes.getD magic) 0 = executableMagic)

/-- The lowest PCB that is not present. -/
def freePid (m : Machine) : Option Nat :=
  (List.range maxProcess).find? fun p => (m.pcbs p).present = false

/-- stdin, stdout and no other file. -/
def startFiles (files : Nat → File) (i : Nat) : File :=
  if i = 0 then { files 0 with ops := .stdin, present := true }
  else if i = 1 then { files 1 with ops := .stdout, present := true }
  else { files i with present := false }

/-- `execute` from its checks on, up to its `sti`: the PCB, the terminal, paging and
the task state segment.  The stack is still the caller's.  For a command without
an argument the copy of `argv` is too long and its end falls on `files[0]`, in
fields that nothing reads for stdin. -/
def launching (m : Machine) (pid : Nat) (parent : Option Nat) : Machine :=
  let pcb := m.pcbs pid
  let m := m.setPcb pid { pcb with
    present := true
    pid := pid
    parent := parent
    parentEbp := m.esp
    esp0 := stackTop pid
    files := startFiles pcb.files }
  let m := m.setTerm m.activeTermId { m.terms m.activeTermId with pid := pid }
  { m with userPage := 2 + pid, tssEsp0 := stackTop pid }

/-- After the `iret` the program runs. -/
def launched (m : Machine) (pid : Nat) (parent : Option Nat) : Machine :=
  { m.launching pid parent with userMode := true }

def execute (m : Machine) (command : Option CString) (magic : Nat → UInt8) : Switch := do
  match command.bind commandName with
  | none => some (m, .returned (-1))
  | some name => do
      let executable ← checkExecutable m.fs name magic
      if executable then
        match m.freePid with
        | none => some (m, .returned (-1))
        | some pid =>
            if pid < terminalCount then some (m.launched pid none, .user)
            else do
              let curr ← m.getCurrentPcb
              some (m.launched pid (some curr), .user)
      else some (m, .returned (-1))

/-! ## halt -/

/-- The loop of `halt` over the descriptors of process `p`. -/
def closeFiles (p : Nat) : List Nat → Machine → Option Machine
  | [], m => some m
  | i :: rest, m =>
      if ((m.pcbs p).files i).present then do
        let (m, _) ← m.opsClose ((m.pcbs p).files i).ops
        closeFiles p rest (m.setFile p i { (m.pcbs p).files i with present := false })
      else closeFiles p rest m

/-- The end of `halt`: back into the parent's `execute`. -/
def returnToParent (m : Machine) (p : Nat) (status : UInt8) : Switch := do
  let q ← (m.pcbs p).parent
  let m := m.setTerm m.activeTermId { m.terms m.activeTermId with pid := (m.pcbs q).pid }
  let m := { m with userPage := 2 + (m.pcbs q).pid, tssEsp0 := (m.pcbs q).esp0 }
  if m.exceptionOccurred then
    some ({ m with exceptionOccurred := false }.leaveRet (m.pcbs p).parentEbp, .delivered q p 256)
  else some (m.leaveRet (m.pcbs p).parentEbp, .delivered q p status.toNat)

def shellName : CString := ⟨text "shell", by decide⟩

/-- After `execute("shell")`: when that returns, `halt` goes on to its end. -/
def restarted (p : Nat) (status : UInt8) : Machine × Ended → Switch
  | (m, .returned _) => m.returnToParent p status
  | (m, ended) => some (m, ended)

def halt (m : Machine) (status : UInt8) (magic : Nat → UInt8) : Switch := do
  let p ← m.getCurrentPcb
  let m := m.setPcb p { m.pcbs p with present := false, vidmap := false, rtc := false }
  let m ← closeFiles p [2, 3, 4, 5, 6, 7] m
  let m := m.setTerm m.activeTermId { m.terms m.activeTermId with toBeHalt := false }
  if (m.pcbs p).pid < terminalCount then do
    let m := m.setPcb p { m.pcbs p with present := false }
    let started ← m.execute (some shellName) magic
    restarted p status started
  else m.returnToParent p status

/-! ## initiate_shells -/

/-- The page table entries for the display's second mapping and the terminals'
buffers. -/
def mapTerminals (m : Machine) : Machine :=
  let pages := m.screen.vid.kernelVidmem
  let pages := Function.update pages (vidmemIndex + 1) ⟨true, vidmemIndex⟩
  let pages := Function.update pages (vidmemIndex + 2) ⟨true, (pages (vidmemIndex + 2)).base⟩
  let pages := Function.update pages (vidmemIndex + 3) ⟨true, (pages (vidmemIndex + 3)).base⟩
  let pages := Function.update pages (vidmemIndex + 4) ⟨true, (pages (vidmemIndex + 4)).base⟩
  { m with screen := { m.screen with vid := { m.screen.vid with kernelVidmem := pages } } }

/-- One round of the loop of `initiate_shells`. -/
def setUpShell (m : Machine) (pid : Nat) : Machine :=
  let m := m.setTerm pid { m.terms pid with
    pid := pid
    content := fun _ => 0
    length := 0
    inProgress := false
    toBeHalt := false
    cursorX := 0
    cursorY := 0 }
  let m := m.setPcb pid { m.pcbs pid with
    present := true
    vidmap := false
    rtc := false
    pid := pid
    parent := none
    parentEbp := 0
    esp0 := stackTop pid
    files := startFiles (m.pcbs pid).files
    ebp := stackTop pid - shellFrame }
  { m with userPage := 2 + pid }

/-- The shells of terminals 2, 1 and 0, and the jump into the last. -/
def startShells (m : Machine) : Machine :=
  let m := ((m.setUpShell 2).setUpShell 1).setUpShell 0
  let m := { m with tssEsp0 := (m.pcbs 0).esp0, userMode := false }
  (m.setScreenCoordinate 0 0).leaveRet (m.pcbs 0).ebp

/-- The flag is `false` when there is no shell to run. -/
def initiateShells (m : Machine) (magic : Nat → UInt8) : Option (Machine × Bool) := do
  let m := m.mapTerminals
  let executable ← checkExecutable m.fs shellName magic
  if executable then some (m.startShells, true)
  else do
    let m ← puts (text "Executable shell was not found!") m
    some (m, false)

/-- The state `initiate_shells` finds: no process, and the page table and video
pointer as `paging_init` and the loader left them. -/
structure Booted (m : Machine) : Prop where
  shown : m.shownTermId = 0
  active : m.activeTermId = 0
  absent : ∀ p, p < maxProcess → (m.pcbs p).present = false
  kernelVidmem : ∀ i, m.screen.vid.kernelVidmem i = ⟨i = vidmemIndex, i⟩
  userVidmem : m.userVidmem = ⟨false, vidmemIndex⟩
  videoMem : m.screen.vid.videoMem = vidmemIndex

theorem mounted_booted (fs : Fs) : (mounted fs).Booted :=
  ⟨rfl, rfl, fun _ _ => rfl, fun _ => rfl, rfl, rfl⟩

theorem start_activeTermId (m : Machine) :
    m.mapTerminals.startShells.activeTermId = m.activeTermId := by
  simp only [startShells, setUpShell, leaveRet, setScreenCoordinate, setPcb, setTerm, mapTerminals]

theorem start_shownTermId (m : Machine) :
    m.mapTerminals.startShells.shownTermId = m.shownTermId := by
  simp only [startShells, setUpShell, leaveRet, setScreenCoordinate, setPcb, setTerm, mapTerminals]

theorem initiateShells_some {m m' : Machine} {magic : Nat → UInt8}
    (started : m.initiateShells magic = some (m', true)) : m' = m.mapTerminals.startShells := by
  obtain ⟨executable, _, started⟩ := Option.bind_eq_some_iff.1 started
  split_ifs at started
  · exact (Prod.mk.inj (Option.some.inj started)).1.symm
  · obtain ⟨mid, _, failed⟩ := Option.bind_eq_some_iff.1 started
    simp at failed

end Machine

end Illinix.Kernel
