/-
# Kernel.State -- the state of the kernel

One record for what the handlers and system calls share: the file system, the
six PCBs, the three terminals, the console with the page table it draws through,
the user mappings, the task state segment's `esp0`, and the few globals.

`get_current_pcb` masks the stack pointer, so the stack pointer is part of the
state and "the current process" is computed from it: `getCurrentPcb_of_onStack`
is the one fact about the mask the rest uses.  PCBs and processes are named by
their index in `pcbs`.
-/
import Illinix.Console.Frame
import Illinix.FileSys.Write
import Illinix.FileSys.Directory

namespace Illinix.Kernel

open Illinix.Console Illinix.FileSys Illinix.Theory

set_option autoImplicit false

def terminalCount : Nat := 3
def maxProcess : Nat := 6
def maxTerminal : Nat := 128
def fileCount : Nat := 8
def kernelStack : Nat := 0x800000
def kernelStackSize : Nat := 0x2000
def vidmemIndex : Nat := 0xB8

/-! ## Processes and terminals -/

/-- The tables of `file_operations_t` in syscall.c. -/
inductive FileOps where
  | null
  | stdin
  | stdout
  | file
  | dir
  | rtc
  deriving DecidableEq, Repr

structure File where
  ops : FileOps
  inode : Nat
  filePos : Nat
  present : Bool

structure Pcb where
  present : Bool
  vidmap : Bool
  rtc : Bool
  rtcFired : Nat
  rtcCurr : Nat
  rtcRate : Nat
  pid : Nat
  parent : Option Nat
  ebp : Nat
  parentEbp : Nat
  esp0 : Nat
  files : Nat → File

structure Terminal where
  pid : Nat
  content : Nat → UInt8
  length : Nat
  inProgress : Bool
  toBeHalt : Bool
  cursorX : Int
  cursorY : Int

/-! ## Video memory -/

/-- A page table entry: whether it is present, and its frame. -/
structure Pte where
  present : Bool
  base : Nat
  deriving DecidableEq, Repr

/-- The number of character cells in a page. -/
def pageCells : Int := 2048

/-- What `video_mem` reaches: the page it points to, the kernel's page table
for the first 4 MB, and the physical frames by cell. -/
structure Bus where
  videoMem : Nat
  kernelVidmem : Nat → Pte
  frames : Nat → Int → Cell

/-- The frame and the cell in it at index `i` from `video_mem`, through the
page table; `none` is a page fault. -/
def Bus.translate (b : Bus) (i : Int) : Option (Nat × Int) :=
  let linear := b.videoMem * pageCells + i
  let page := linear / pageCells
  if 0 ≤ page ∧ page < 1024 ∧ (b.kernelVidmem page.toNat).present then
    some ((b.kernelVidmem page.toNat).base, linear % pageCells)
  else none

def Bus.setCell (b : Bus) (frame : Nat) (j : Int) (c : Cell) : Bus :=
  { b with frames := Function.update b.frames frame (Function.update (b.frames frame) j c) }

instance : Video Bus where
  load b i := (b.translate i).map fun (frame, j) => b.frames frame j
  store b i c := (b.translate i).map fun (frame, j) => b.setCell frame j c

/-! ## The machine -/

structure Machine where
  fs : Fs
  pcbs : Nat → Pcb
  terms : Nat → Terminal
  shownTermId : Nat
  activeTermId : Nat
  screen : Screen Bus
  /-- The hardware cursor, in the two registers `set_cursor_pos` writes. -/
  cursorPos : Int
  /-- `page_table_user_vidmem[VIDMEM_INDEX]` -/
  userVidmem : Pte
  /-- The frame of `page_directories[USER_ENTRY]`. -/
  userPage : Nat
  tssEsp0 : Nat
  /-- The kernel stack pointer, while the CPU is in the kernel. -/
  esp : Nat
  userMode : Bool
  exceptionOccurred : Bool
  keyboardBitmap : Nat
  /-- The static `pos` of `dir_read`. -/
  dirPos : Nat

namespace Machine

def setPcb (m : Machine) (p : Nat) (pcb : Pcb) : Machine :=
  { m with pcbs := Function.update m.pcbs p pcb }

def setFile (m : Machine) (p fd : Nat) (file : File) : Machine :=
  m.setPcb p { m.pcbs p with files := Function.update (m.pcbs p).files fd file }

def setTerm (m : Machine) (t : Nat) (term : Terminal) : Machine :=
  { m with terms := Function.update m.terms t term }

/-- The machine with a mounted file system, before `initiate_shells`: kernel
memory as the loader zeroed it, and the page table of `paging_init`. -/
def mounted (fs : Fs) : Machine where
  fs := fs
  pcbs _ := {
    present := false, vidmap := false, rtc := false, rtcFired := 0, rtcCurr := 0, rtcRate := 0,
    pid := 0, parent := none, ebp := 0, parentEbp := 0, esp0 := 0,
    files := fun _ => ⟨.null, 0, 0, false⟩ }
  terms _ := {
    pid := 0, content := fun _ => 0, length := 0, inProgress := false, toBeHalt := false,
    cursorX := 0, cursorY := 0 }
  shownTermId := 0
  activeTermId := 0
  screen := {
    vid := {
      videoMem := vidmemIndex
      kernelVidmem := fun i => ⟨i = vidmemIndex, i⟩
      frames := fun _ _ => ⟨0, 0⟩ }
    screenX := 0
    screenY := 0 }
  cursorPos := 0
  userVidmem := ⟨false, vidmemIndex⟩
  userPage := 0
  tssEsp0 := 0
  esp := kernelStack
  userMode := false
  exceptionOccurred := false
  keyboardBitmap := 0
  dirPos := 0

end Machine

theorem setPcb_same (m : Machine) (p : Nat) (pcb : Pcb) : (m.setPcb p pcb).pcbs p = pcb := by
  simp [Machine.setPcb]

theorem setPcb_other (m : Machine) {p q : Nat} (pcb : Pcb) (other : q ≠ p) :
    (m.setPcb p pcb).pcbs q = m.pcbs q := by
  simp [Machine.setPcb, other]

/-! ## The current process -/

/-- The address of `pcbs[p]`, at the low end of the kernel stack of `p`. -/
def pcbAddr (p : Nat) : Nat := kernelStack - (p + 1) * kernelStackSize

/-- `get_current_pcb`, as an index of `pcbs`. -/
def Machine.getCurrentPcb (m : Machine) : Option Nat :=
  (List.range maxProcess).find? fun p => pcbAddr p = m.esp &&& 0x7FE000

theorem getCurrentPcb_congr {m m' : Machine} (same : m'.esp = m.esp) :
    m'.getCurrentPcb = m.getCurrentPcb := by
  simp only [Machine.getCurrentPcb, same]

/-- `KERNEL_STACK - KERNEL_STACK_SIZE * p`, the high end of the stack of `p`. -/
def stackTop (p : Nat) : Nat := kernelStack - kernelStackSize * p

/-- A stack pointer in the kernel stack of process `p`. -/
def OnStack (p esp : Nat) : Prop := p < maxProcess ∧ pcbAddr p ≤ esp ∧ esp < stackTop p

instance (p esp : Nat) : Decidable (OnStack p esp) := inferInstanceAs (Decidable (_ ∧ _))

theorem mask_eq (esp : Nat) : esp &&& 0x7FE000 = esp / 2 ^ 13 % 2 ^ 10 * 2 ^ 13 := by
  have mask : 0x7FE000 = (2 ^ 10 - 1) * 2 ^ 13 := by decide
  rw [mask]
  apply Nat.eq_of_testBit_eq
  intro i
  simp only [Nat.testBit_and, Nat.testBit_mul_two_pow, Nat.testBit_mod_two_pow,
    Nat.testBit_div_two_pow, Nat.testBit_two_pow_sub_one]
  by_cases low : 13 ≤ i
  · rw [Nat.sub_add_cancel low]
    cases esp.testBit i <;> simp [low]
  · simp [low]

/-- **The current process is the one whose stack the kernel runs on.** -/
theorem getCurrentPcb_of_onStack {m : Machine} {p : Nat} (on : OnStack p m.esp) :
    m.getCurrentPcb = some p := by
  obtain ⟨inside, low, high⟩ := on
  simp only [maxProcess] at inside
  have addr : m.esp &&& 0x7FE000 = pcbAddr p := by
    rw [mask_eq]
    simp only [pcbAddr, stackTop, kernelStack, kernelStackSize] at low high ⊢
    omega
  rw [Machine.getCurrentPcb, addr, List.find?_range_eq_some]
  refine ⟨by simp, by simpa [maxProcess] using inside, fun q below => ?_⟩
  have apart : pcbAddr q ≠ pcbAddr p := by
    simp only [pcbAddr, kernelStack, kernelStackSize]
    omega
  simpa using apart

end Illinix.Kernel
