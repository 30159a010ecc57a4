/-
# Linkage.Cpu -- registers, traps and linkage.S

The registers, the kernel stacks as memory, and what the assembly of the kernel
does to them: the wrappers of linkage.S, push by push and pop by pop, and `leave`
and `ret`.  A `Core` has the kernel's machine beside them, which says whose stack a
trap takes and where the saved frame pointers are.

Compiled C code is not read here.  A C function pushes its caller's frame pointer
and may leave anything in the registers and below its frame (`Scratch`); it keeps
its frame pointer and the segment registers.  Where it returns to is an address on
the stack, and `arrive` is the assembly that lies there.

Handlers run as one step, so the interrupt flag inside them is left out.
-/
import Illinix.Theory.Stack
import Illinix.Theory.Fields
import Illinix.Interrupt.Idt
import Illinix.Kernel.System

namespace Illinix.Linkage

open Illinix.Kernel Illinix.Theory Illinix.Interrupt

set_option autoImplicit false

/-! ## Registers -/

def kernelDs : Nat := 0x0018
def userCs : Nat := 0x0023
def userDs : Nat := 0x002B
def userStack : Nat := 0x8400000

def interruptFlag : Field := ⟨9, 1⟩

/-- What `save_context` saves, the word on top first. -/
structure Regs where
  ebx : Nat
  ecx : Nat
  edx : Nat
  esi : Nat
  edi : Nat
  ebp : Nat
  eax : Nat
  ds : Nat
  es : Nat
  fs : Nat
  deriving DecidableEq, Repr

structure Cpu where
  regs : Regs
  esp : Nat
  eip : Nat
  cs : Nat
  ss : Nat
  eflags : Nat
  deriving DecidableEq, Repr

def Cpu.user (c : Cpu) : Bool := c.cs % 4 = 3

def Regs.words (r : Regs) : List Nat :=
  [r.ebx, r.ecx, r.edx, r.esi, r.edi, r.ebp, r.eax, r.ds, r.es, r.fs]

/-- What a trap saves, the word on top first. -/
def Cpu.trapWords (c : Cpu) : List Nat :=
  if c.user then [c.eip, c.cs, c.eflags, c.esp, c.ss] else [c.eip, c.cs, c.eflags]

/-- All that an interrupt wrapper saves. -/
def Cpu.words (c : Cpu) : List Nat := c.regs.words ++ c.trapWords

/-- A segment register after the way out to user code, which may not keep a
kernel segment. -/
def outward (selector : Nat) : Nat :=
  if selector = kernelCs ∨ selector = kernelDs then 0 else selector

def Regs.outward (r : Regs) : Regs :=
  { r with ds := Linkage.outward r.ds, es := Linkage.outward r.es, fs := Linkage.outward r.fs }

/-- The places in the kernel's code that addresses on the stacks point to. -/
structure Layout where
  /-- Behind the call of the handler in each wrapper. -/
  pitReturn : Nat
  keyboardReturn : Nat
  rtcReturn : Nat
  callReturn : Nat
  /-- In `keyboard_handler`, behind the call of `switch_terminal`. -/
  switchReturn : Nat
  /-- Behind a call of `halt`, in `pit_handler` or the handler of an exception. -/
  haltReturn : Nat
  iretExec : Nat
  /-- `syscall_entries` -/
  entry : Nat → Nat
  apart : [pitReturn, keyboardReturn, rtcReturn, callReturn, switchReturn, iretExec].Nodup
  inside : ∀ n, entry n ≠ switchReturn

/-- How far the C code of a system call is. -/
inductive Progress where
  /-- At the first instruction of function `n` of the table. -/
  | entered (n : Nat)
  /-- In the loop of a read. -/
  | reading (fd : Int) (count : Nat)
  | answered (value : Int)
  deriving DecidableEq, Repr

structure Core where
  machine : Machine
  cpu : Cpu
  mem : Nat → Nat
  /-- Where each process is in the C code of its system call. -/
  code : Nat → Progress

/-- The number is one of the table. -/
def Regs.Listed (r : Regs) : Prop := 1 ≤ r.eax ∧ r.eax ≤ 12

instance (r : Regs) : Decidable r.Listed := inferInstanceAs (Decidable (_ ∧ _))

/-- What compiled code leaves in the registers, in its part of the stack, and how
many words it has pushed. -/
structure Scratch where
  regs : Regs
  mem : Nat → Nat
  locals : Nat

namespace Core

/-! ## Instructions -/

def stack (c : Core) : Stack Nat := ⟨c.mem, c.cpu.esp⟩

def withStack (c : Core) (s : Stack Nat) : Core :=
  { c with mem := s.mem, cpu := { c.cpu with esp := s.top } }

def pushl (c : Core) (w : Nat) : Core := c.withStack (c.stack.push w)

/-- `pushl` of one word after the other. -/
def pushAll (c : Core) (ws : List Nat) : Core := c.withStack (c.stack.pushes ws)

def popl (c : Core) : Nat × Core := (c.mem c.cpu.esp, c.withStack c.stack.pop.2)

/-- A trap, on the stack of the task state segment if it comes from user code. -/
def trap (c : Core) : Core :=
  let old := c.cpu
  if old.user then
    let c := { c with cpu := { c.cpu with esp := c.machine.tssEsp0, ss := kernelDs } }
    let c := c.pushAll [old.ss, old.esp, old.eflags, old.cs, old.eip]
    { c with cpu := { c.cpu with cs := kernelCs } }
  else c.pushAll [old.eflags, old.cs, old.eip]

def iret (c : Core) : Core :=
  let (eip, c) := c.popl
  let (cs, c) := c.popl
  let (eflags, c) := c.popl
  let c := { c with cpu := { c.cpu with eip := eip, cs := cs, eflags := eflags } }
  if c.cpu.user then
    let (esp, c) := c.popl
    let (ss, c) := c.popl
    { c with
      machine := { c.machine with userMode := true }
      cpu := { c.cpu with esp := esp, ss := ss, regs := c.cpu.regs.outward } }
  else c

/-- `leave; ret` with the frame pointer `ebp`. -/
def leaveRet (c : Core) (ebp : Nat) : Core :=
  let c := { c with cpu := { c.cpu with esp := ebp } }
  let (ebp, c) := c.popl
  let (eip, c) := c.popl
  { c with cpu := { c.cpu with eip := eip, regs := { c.cpu.regs with ebp := ebp } } }

/-! ## linkage.S -/

def saveContext (c : Core) : Core :=
  let r := c.cpu.regs
  c.pushAll [r.fs, r.es, r.ds, r.eax, r.ebp, r.edi, r.esi, r.edx, r.ecx, r.ebx]

def restoreContext (c : Core) : Core :=
  let (ebx, c) := c.popl
  let (ecx, c) := c.popl
  let (edx, c) := c.popl
  let (esi, c) := c.popl
  let (edi, c) := c.popl
  let (ebp, c) := c.popl
  let (eax, c) := c.popl
  let (ds, c) := c.popl
  let (es, c) := c.popl
  let (fs, c) := c.popl
  { c with cpu := { c.cpu with regs := ⟨ebx, ecx, edx, esi, edi, ebp, eax, ds, es, fs⟩ } }

def restoreContextSyscall (c : Core) : Core :=
  let (ebx, c) := c.popl
  let (ecx, c) := c.popl
  let (edx, c) := c.popl
  let (esi, c) := c.popl
  let (edi, c) := c.popl
  let (ebp, c) := c.popl
  let c := { c with cpu := { c.cpu with esp := c.cpu.esp + 4 } }
  let (ds, c) := c.popl
  let (es, c) := c.popl
  let (fs, c) := c.popl
  { c with cpu := { c.cpu with regs := ⟨ebx, ecx, edx, esi, edi, ebp, c.cpu.regs.eax, ds, es, fs⟩ } }

/-- A C function sets up its frame. -/
def prologue (c : Core) : Core :=
  let c := c.pushl c.cpu.regs.ebp
  { c with cpu := { c.cpu with regs := { c.cpu.regs with ebp := c.cpu.esp } } }

/-- `call` of a C function that will return to `back`. -/
def call (c : Core) (back : Nat) : Core := (c.pushl back).prologue

/-- The C code of a function with its frame set up. -/
def body (c : Core) (s : Scratch) : Core :=
  let ebp := c.cpu.regs.ebp
  { c with
    cpu := { c.cpu with
      esp := ebp - 4 * s.locals
      regs := { s.regs with ebp := ebp, ds := c.cpu.regs.ds, es := c.cpu.regs.es, fs := c.cpu.regs.fs } }
    mem := fun x => if x / kernelStackSize = ebp / kernelStackSize ∧ x < ebp then s.mem x
      else c.mem x }

/-- A device's wrapper, up to the frame of its handler. -/
def interrupt (c : Core) (back : Nat) : Core := (c.trap.saveContext).call back

/-- `system_call_done` -/
def systemCallDone (c : Core) : Core := c.restoreContextSyscall.iret

/-- The assembly that `ret` has come to. -/
def arrive (l : Layout) (c : Core) : Option Core :=
  if c.cpu.eip = l.pitReturn ∨ c.cpu.eip = l.keyboardReturn ∨ c.cpu.eip = l.rtcReturn then
    some c.restoreContext.iret
  else if c.cpu.eip = l.callReturn then
    some { c with cpu := { c.cpu with esp := c.cpu.esp + 12 } }.systemCallDone
  else if c.cpu.eip = l.iretExec then some c.iret
  else if c.cpu.eip = l.switchReturn then some c
  else none

/-- `system_call_wrapper` up to the call, for a number in the table. -/
def dispatch (l : Layout) (c : Core) : Core :=
  let n := c.cpu.regs.eax
  -- the word that `pushw $0x18; popw %ds` has written to is the next one pushed
  let c := { c with cpu := { c.cpu with regs := { c.cpu.regs with ds := kernelDs } } }
  let c := c.pushAll [c.cpu.regs.edx, c.cpu.regs.ecx, c.cpu.regs.ebx, l.callReturn]
  { c with cpu := { c.cpu with eip := l.entry n } }

def systemCallWrapper (l : Layout) (c : Core) : Core :=
  let c := c.trap.saveContext
  if c.cpu.regs.Listed then c.dispatch l
  else
    -- bad_sysc_num: -1
    { c with cpu := { c.cpu with regs := { c.cpu.regs with eax := 2 ^ 32 - 1 } } }.systemCallDone

end Core

end Illinix.Linkage
