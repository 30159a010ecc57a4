/-
# Linkage.Core -- the kernel with its stacks

The steps of the kernel down to the registers and the words on the kernel stacks:
traps, the wrappers, and the assembly in `execute`, `halt`, `pit_handler`,
`switch_terminal` and `initiate_shells`.  The C code in between is the machine's
step, with the frame pointer that the stack gives it.

A step puts out what it comes to for the threads.  In a system call the C code may
use the registers and its part of the stack as it likes from one step to the next;
what it stores through a pointer from user code is no word of a kernel stack here.
Interrupts are off in `keyboard_handler`, so no key comes while a process is left in it.

They are on in the last instructions of `execute`, `sti; pushfl; pushl CS; pushl EIP;
iret`.  By then the terminal, the page and `tss.esp0` are the new program's, and the
stack is still that of the process that called.  So this window is a state of its own,
in which interrupts come (`CoreState`).  `Uninterrupted` says that none does.
-/
import Illinix.Linkage.Threads
import Illinix.Kernel.KernelCalls

namespace Illinix.Linkage

open Illinix.Kernel Illinix.Theory Illinix.Interrupt

set_option autoImplicit false

namespace Core

/-- The process whose turn it is. -/
def head (c : Core) : Nat := (c.machine.terms c.machine.activeTermId).pid

/-- The processor is in `keyboard_handler`, behind `switch_terminal`. -/
def inKeyboard (l : Layout) (c : Core) : Bool := !c.cpu.user && c.cpu.eip = l.switchReturn

/-- The processor is in the C code of a system call. -/
def inCall (l : Layout) (c : Core) : Bool := !c.cpu.user && c.cpu.eip ≠ l.switchReturn

/-! ## C code -/

/-- The C code of process `p` goes on, with these registers and words. -/
def goOn (l : Layout) (c : Core) (p : Nat) (cpu : Cpu) (mem : Nat → Nat) : Option Core :=
  if cpu.cs = kernelCs ∧ cpu.ss = kernelDs ∧ cpu.eip ≠ l.switchReturn ∧ cpu.esp ≤ callBase p then
    some { c with
      cpu := cpu
      mem := fun x =>
        if pcbAddr p ≤ x ∧ x < stackTop p - 60 ∧ x ≠ callBase p then mem x else c.mem x }
  else none

/-- The machine's step for a C function with its frame set up. -/
def made (c : Core) (call : SystemCall) : Option (Core × Outcome) := do
  let (m, outcome) ← SystemEvent.run c.machine (.call c.cpu.regs.ebp call)
  some ({ c with machine := m }, outcome)

/-! ## execute and halt -/

/-- The end of `execute` up to its `iret`, with the program's entry. -/
def enterUser (c : Core) (entry : Nat) : Core :=
  let c := { c with
    machine := { c.machine with userMode := false }
    cpu := { c.cpu with
      regs := { c.cpu.regs with ds := userDs }
      eflags := interruptFlag.set c.cpu.eflags 1 } }
  c.pushAll [userDs, userStack, c.cpu.eflags, userCs, entry]

/-- The `iret` of `execute`. -/
def enter (c : Core) : Core × ThreadEvent := (c.iret, .starts c.iret.head c.iret.cpu)

/-- A call that does not come back: a program is to start, or a child has ended and
`execute` returns in its parent. -/
def depart (l : Layout) (c : Core) (entry : Nat) : Outcome → Option (Core × ThreadEvent)
  | .ended .user =>
      -- the words of `enterUser` have their place on the stack
      if (c.cpu.esp - 20) / kernelStackSize = c.cpu.regs.ebp / kernelStackSize then
        some (c.enterUser entry, .launches)
      else none
  | .ended (.delivered parent child value) => do
      let c := { c with cpu := { c.cpu with regs := { c.cpu.regs with eax := value } } }
      let c ← (c.leaveRet (c.machine.pcbs child).parentEbp).arrive l
      some (c, .delivers parent value)
  | _ => none

/-! ## System calls -/

/-- `int $0x80` -/
def int80 (l : Layout) (c : Core) : Option (Core × ThreadEvent) :=
  if c.cpu.user then
    let c' := c.systemCallWrapper l
    if c.cpu.regs.Listed then
      some ({ c' with code := Function.update c.code c.head (.entered c.cpu.regs.eax) }, .calls)
    else some (c', .refuses)
  else none

/-- The C function of a system call, from its first instruction on. -/
def serve (l : Layout) (c : Core) (call : SystemCall) (s : Scratch) (cpu : Cpu) (entry : Nat) :
    Option (Core × ThreadEvent) :=
  match c.code c.head with
  | .entered n => do
      let p := c.head
      let argument := fun i => c.mem (c.cpu.esp + 4 * i)
      if c.inCall l ∧ Serves n (argument 1) (argument 2) (argument 3) call then
        let (c, outcome) ← (c.prologue.body s).made call
        match Progress.next call outcome with
        | some progress => do
            let c ← { c with code := Function.update c.code p progress }.goOn l p cpu s.mem
            some (c, .serves call outcome cpu c.mem)
        | none => c.depart l entry outcome
      else none
  | _ => none

/-- The loop of a read looks again. -/
def poll (l : Layout) (c : Core) (ebp : Nat) (buf : Option (Nat → UInt8)) (cpu : Cpu)
    (mem : Nat → Nat) : Option (Core × ThreadEvent) :=
  match c.code c.head with
  | .reading fd count => do
      let p := c.head
      if c.inCall l then
        let (m, outcome) ← SystemEvent.run c.machine (.call ebp (.resume fd buf count))
        let progress ← Progress.next (.resume fd buf count) outcome
        let c ← { c with machine := m, code := Function.update c.code p progress }.goOn l p cpu mem
        some (c, .serves (.resume fd buf count) outcome cpu c.mem)
      else none
  | _ => none

/-- `getargs`, `set_handler` and `sigreturn`. -/
def answer (l : Layout) (c : Core) (value : Int) (cpu : Cpu) (mem : Nat → Nat) :
    Option (Core × ThreadEvent) :=
  match c.code c.head with
  | .entered n => do
      let p := c.head
      if c.inCall l ∧ Answers n value then
        let c ← { c with code := Function.update c.code p (.answered value) }.goOn l p cpu mem
        some (c, .answers value cpu c.mem)
      else none
  | _ => none

/-- C code between two steps of the machine. -/
def work (l : Layout) (c : Core) (cpu : Cpu) (mem : Nat → Nat) : Option (Core × ThreadEvent) :=
  match c.code c.head with
  | .entered _ => none
  | _ => do
      if c.inCall l then
        let c ← c.goOn l c.head cpu mem
        some (c, .works cpu c.mem)
      else none

/-- The C function returns, with its stack pointer back at the return address. -/
def sysret (l : Layout) (c : Core) : Option (Core × ThreadEvent) :=
  match c.code c.head with
  | .answered value => do
      if c.inCall l then
        let c := { c with cpu := { c.cpu with
          esp := callBase c.head, regs := { c.cpu.regs with eax := wordOf value } } }
        let (eip, c) := c.popl
        let c ← { c with cpu := { c.cpu with eip := eip } }.arrive l
        some (c, .returns)
      else none
  | _ => none

/-! ## Exceptions -/

/-- The handler of an exception, as far as the C code of `halt(255)`. -/
def faultFrame (l : Layout) (c : Core) (error : Option Nat) (s s' : Scratch) : Core :=
  let c := (c.trap.pushAll error.toList).prologue.body s
  ((c.pushl 255).call l.haltReturn).body s'

/-- An exception with its error code, if it has one. -/
def fault (l : Layout) (c : Core) (vector address : Nat) (error : Option Nat) (s s' : Scratch)
    (magic : Nat → UInt8) (entry : Nat) : Option (Core × ThreadEvent) :=
  if c.inKeyboard l then none
  else do
    let (c, _) ← (c.faultFrame l error s s').made (.kernel (.raise vector address))
    let (c, outcome) ← c.made (.kernel (.halt 255 magic))
    c.depart l entry outcome

/-! ## Interrupts -/

/-- The process that runs now goes on where it was left. -/
def resume (l : Layout) (c : Core) : Option Core := (c.leaveRet (c.machine.pcbs c.head).ebp).arrive l

/-- `to_be_halt`, as far as the C code of `halt`, with the frame pointer that the
process was left with. -/
def toBeHalt (l : Layout) (c : Core) (frame : Nat) (s : Scratch) : Core :=
  let c := { c with cpu := { c.cpu with esp := frame } }
  let (ebp, c) := c.popl
  let c := { c with cpu := { c.cpu with regs := { c.cpu.regs with ebp := ebp } } }
  ((c.pushl 6).call l.haltReturn).body s

/-- There is room for the frame of `halt` where process `p` was left. -/
def HaltFits (l : Layout) (c : Core) (p : Nat) (s : Scratch) : Prop :=
  let frame := (c.machine.pcbs p).ebp
  (c.toBeHalt l frame s).cpu.regs.ebp / kernelStackSize = frame / kernelStackSize

/-- The stack of the process to be halted, on which `halt` has done its part. -/
def haltNext (l : Layout) (c : Core) (frame : Nat) (s : Scratch) (entry : Nat) (outcome : Outcome) :
    Option (Core × ThreadEvent) :=
  let c := c.toBeHalt l frame s
  if c.cpu.regs.ebp / kernelStackSize = frame / kernelStackSize then c.depart l entry outcome
  else none

def tick (l : Layout) (c : Core) (s s' : Scratch) (magic : Nat → UInt8) (entry : Nat) :
    Option (Core × ThreadEvent) := do
  let next := (c.machine.terms c.machine.nextTermId).pid
  let (c, outcome) ← ((c.interrupt l.pitReturn).body s).made (.kernel (.pitHandler magic))
  match outcome with
  | .ended .resumed => do
      let c ← c.resume l
      some (c, .resumes c.head c.cpu.regs)
  | _ => c.haltNext l (c.machine.pcbs next).ebp s' entry outcome

/-- `keyboard_handler`, and for F1 to F3 `switch_terminal`, with their frames. -/
def keyFrame (l : Layout) (c : Core) (scancode : Nat) (s s' : Scratch) : Core :=
  let c := (c.interrupt l.keyboardReturn).body s
  if scF1 ≤ scancode ∧ scancode ≤ scF3 then (c.call l.switchReturn).body s' else c

/-- The end of the handler, whose frame pointer is `frame`. -/
def keyDone (l : Layout) (c : Core) (frame : Nat) : Outcome → Option (Core × ThreadEvent)
  | .ended .resumed => do
      let c ← c.resume l
      some (c, .leaves c.head c.cpu.regs)
  | _ => do
      let c ← (c.leaveRet frame).arrive l
      some (c, .stays)

def key (l : Layout) (c : Core) (scancode : Nat) (s s' : Scratch) : Option (Core × ThreadEvent) :=
  if c.inKeyboard l then none
  else do
    let frame := ((c.interrupt l.keyboardReturn).body s).cpu.regs.ebp
    let (c, outcome) ← (c.keyFrame l scancode s s').made (.kernel (.keyboardHandler scancode))
    c.keyDone l frame outcome

def rtc (l : Layout) (c : Core) (s : Scratch) : Option (Core × ThreadEvent) := do
  let c := (c.interrupt l.rtcReturn).body s
  let (c, _) ← c.made .rtcHandler
  let c ← (c.leaveRet c.cpu.regs.ebp).arrive l
  some (c, .stays)

/-- `keyboard_handler` goes on behind `switch_terminal` and returns. -/
def finish (l : Layout) (c : Core) (s : Scratch) : Option (Core × ThreadEvent) :=
  if c.inKeyboard l then do
    let c ← ((c.body s).leaveRet c.cpu.regs.ebp).arrive l
    some (c, .finishes)
  else none

/-- User code runs: it has no way to the kernel stacks. -/
def user (c : Core) (cpu : Cpu) : Option (Core × ThreadEvent) :=
  if c.cpu.user ∧ UserCpu cpu then some ({ c with cpu := cpu }, .runs cpu) else none

end Core

/-! ## Events -/

inductive CoreEvent where
  | user (cpu : Cpu)
  | int80
  | serve (call : SystemCall) (s : Scratch) (cpu : Cpu) (entry : Nat)
  | poll (ebp : Nat) (buf : Option (Nat → UInt8)) (cpu : Cpu) (mem : Nat → Nat)
  | answer (value : Int) (cpu : Cpu) (mem : Nat → Nat)
  | work (cpu : Cpu) (mem : Nat → Nat)
  | sysret
  | enter
  | fault (vector address : Nat) (error : Option Nat) (s s' : Scratch) (magic : Nat → UInt8)
      (entry : Nat)
  | tick (s s' : Scratch) (magic : Nat → UInt8) (entry : Nat)
  | key (scancode : Nat) (s s' : Scratch)
  | rtc (s : Scratch)
  | finish (s : Scratch)

def Core.step (l : Layout) (c : Core) : CoreEvent → Option (Core × ThreadEvent)
  | .user cpu => c.user cpu
  | .int80 => c.int80 l
  | .serve call s cpu entry => c.serve l call s cpu entry
  | .poll ebp buf cpu mem => c.poll l ebp buf cpu mem
  | .answer value cpu mem => c.answer l value cpu mem
  | .work cpu mem => c.work l cpu mem
  | .sysret => c.sysret l
  | .enter => some c.enter
  | .fault vector address error s s' magic entry => c.fault l vector address error s s' magic entry
  | .tick s s' magic entry => c.tick l s s' magic entry
  | .key scancode s s' => c.key l scancode s s'
  | .rtc s => c.rtc l s
  | .finish s => c.finish l s

/-! ## The window of execute -/

/-- The core, and whether it is between the `sti` and the `iret` of `execute`, with the
words for the `iret` pushed. -/
structure CoreState where
  core : Core
  entering : Bool

/-- A step comes to the window when it launches a program, and an interrupt that
returns goes back to it. -/
def ThreadEvent.opens (entering : Bool) : ThreadEvent → Bool
  | .launches => true
  | .stays => entering
  | _ => false

def CoreEvent.isInterrupt : CoreEvent → Bool
  | .tick _ _ _ _ | .key _ _ _ | .rtc _ => true
  | _ => false

/-- In the window there is the `iret`, and interrupts come. -/
def CoreEvent.comes (entering : Bool) : CoreEvent → Bool
  | .enter => entering
  | event => event.isInterrupt || !entering

def coreStep (l : Layout) (s : CoreState) (event : CoreEvent) : Option (CoreState × ThreadEvent) :=
  if event.comes s.entering then
    (s.core.step l event).map fun r => (⟨r.1, r.2.opens s.entering⟩, r.2)
  else none

theorem coreStep_some {l : Layout} {s s' : CoreState} {event : CoreEvent} {e : ThreadEvent} :
    coreStep l s event = some (s', e) ↔ event.comes s.entering = true ∧
      ∃ c, s.core.step l event = some (c, e) ∧ s' = ⟨c, e.opens s.entering⟩ := by
  rw [coreStep]
  by_cases comes : event.comes s.entering = true
  · rw [if_pos comes, and_iff_right comes, Option.map_eq_some_iff]
    constructor
    · rintro ⟨⟨c, _⟩, stepped, same⟩
      cases same
      exact ⟨c, stepped, rfl⟩
    · rintro ⟨c, stepped, rfl⟩
      exact ⟨_, stepped, rfl⟩
  · rw [if_neg comes]
    exact iff_of_false (Option.some_ne_none _).symm fun both => comes both.1

/-- No interrupt comes between the `sti` and the `iret`. -/
def Uninterrupted (s : CoreState) (event : CoreEvent) : Prop :=
  s.entering = true → event.isInterrupt = false

instance (s : CoreState) (event : CoreEvent) : Decidable (Uninterrupted s event) :=
  inferInstanceAs (Decidable (_ → _))

theorem enter_of_comes {event : CoreEvent} (comes : event.comes true = true)
    (quiet : event.isInterrupt = false) : event = .enter := by
  cases event with
  | enter => rfl
  | tick | key | rtc => exact nomatch quiet
  | user | int80 | serve | poll | answer | work | sysret | fault | finish => exact nomatch comes

/-! ## initiate_shells -/

/-- The words for a shell, on top of its stack. -/
def Core.setUpStack (l : Layout) (c : Core) (pid entry : Nat) : Core :=
  let esp := c.cpu.esp
  let c := { c with cpu := { c.cpu with esp := (c.machine.pcbs pid).esp0 } }
  let c := c.pushAll [userDs, userStack, c.cpu.eflags, userCs, entry, l.iretExec, entry]
  { c with cpu := { c.cpu with esp := esp } }

/-- The stacks of the three shells, and the jump into the first. -/
def Core.start (l : Layout) (c : Core) (entry : Nat) : Option Core :=
  (((c.setUpStack l 2 entry).setUpStack l 1 entry).setUpStack l 0 entry).resume l

end Illinix.Linkage
