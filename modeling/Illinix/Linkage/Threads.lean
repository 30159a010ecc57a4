/-
# Linkage.Threads -- what the kernel is for: threads

The abstract machine has no stacks.  Each process is a thread: the registers its
user code goes on with, and while it is in a system call the registers and the
stack of the kernel code that works for it.  Only the thread that runs changes its
own part; a tick or a terminal switch says which thread runs next and touches no
registers at all.

A system call of number `eax` with the arguments `ebx`, `ecx` and `edx` changes
`eax` and nothing else of what user code sees; so does `execute`, when the child has
ended.
-/
import Illinix.Linkage.Cpu

namespace Illinix.Linkage

open Illinix.Kernel Illinix.Theory Illinix.Interrupt

set_option autoImplicit false

/-! ## System calls -/

def signed (w : Nat) : Int := if w < 2 ^ 31 then w else (w : Int) - 2 ^ 32

/-- A result in `eax`. -/
def wordOf (v : Int) : Nat := (v % 2 ^ 32).toNat

/-- The call that number `n` is with three argument words; a pointer argument is the
null pointer or one to something. -/
def Serves (n a b c : Nat) : SystemCall → Prop
  | .kernel (.halt status _) => n = 1 ∧ status = UInt8.ofNat a
  | .kernel (.execute command _) => n = 2 ∧ (command.isNone ↔ a = 0)
  | .read fd buf count => n = 3 ∧ fd = signed a ∧ (buf.isNone ↔ b = 0) ∧ count = c
  | .file (.write fd buf count) => n = 4 ∧ fd = signed a ∧ (buf.isNone ↔ b = 0) ∧ count = c
  | .file (.open' fileName) => n = 5 ∧ (fileName.isNone ↔ a = 0)
  | .file (.close fd) => n = 6 ∧ fd = signed a
  | .kernel (.vidmap start) => n = 8 ∧ start = a
  | .file (.create fileName _) => n = 11 ∧ (fileName.isNone ↔ a = 0)
  | .file (.delete fileName) => n = 12 ∧ (fileName.isNone ↔ a = 0)
  | _ => False

instance (n a b c : Nat) : ∀ call, Decidable (Serves n a b c call)
  | .kernel (.halt _ _) | .kernel (.execute _ _) | .kernel (.vidmap _) | .read _ _ _
  | .file (.write _ _ _) | .file (.open' _) | .file (.close _) | .file (.create _ _)
  | .file (.delete _) => inferInstanceAs (Decidable (_ ∧ _))
  | .kernel (.raise _ _) | .kernel (.pitHandler _) | .kernel (.keyboardHandler _)
  | .kernel (.putc _) | .resume _ _ _ | .rtcHandler => inferInstanceAs (Decidable False)

/-- The results of `getargs`, and of `set_handler` and `sigreturn`, which do nothing. -/
def Answers (n : Nat) (v : Int) : Prop := n = 7 ∨ (n = 9 ∨ n = 10) ∧ v = 0

instance (n : Nat) (v : Int) : Decidable (Answers n v) := inferInstanceAs (Decidable (_ ∨ _))

/-- How far the C code is once a call has come to this outcome, if it goes on. -/
def Progress.next (call : SystemCall) : Outcome → Option Progress
  | .reading .waiting =>
      match call with
      | .read fd _ count | .resume fd _ count => some (.reading fd count)
      | _ => none
  | .reading (.returned value _) => some (.answered value)
  | .ended (.returned value) => some (.answered value)
  | .ended _ => none

/-! ## Threads -/

/-- The kernel's part of a thread: its registers and, below the system call's
frame, its stack. -/
structure Inside where
  cpu : Cpu
  stack : Nat → Nat
  progress : Progress

structure Thread where
  user : Cpu
  inside : Option Inside
  /-- It was left in `keyboard_handler`. -/
  owing : Bool
  /-- It has never run: its registers will be those of the processor then. -/
  fresh : Bool

/-- The registers the thread goes on with. -/
def Thread.cpu (t : Thread) : Cpu := (t.inside.map Inside.cpu).getD t.user

/-- The thread once it has begun to run. -/
def Thread.begun (t : Thread) (regs : Regs) : Thread :=
  if t.fresh then { t with user := { t.user with regs := regs }, fresh := false } else t

structure Threads where
  running : Nat
  thread : Nat → Thread

/-- What a step of the kernel comes to. -/
inductive ThreadEvent where
  | runs (cpu : Cpu)
  | calls
  | refuses
  | serves (call : SystemCall) (outcome : Outcome) (cpu : Cpu) (stack : Nat → Nat)
  | answers (value : Int) (cpu : Cpu) (stack : Nat → Nat)
  | works (cpu : Cpu) (stack : Nat → Nat)
  | returns
  /-- An interrupt has come and gone. -/
  | stays
  | resumes (p : Nat) (regs : Regs)
  /-- The running thread is left in `keyboard_handler` and `p` goes on. -/
  | leaves (p : Nat) (regs : Regs)
  | finishes
  /-- `execute` is done but for its `iret`. -/
  | launches
  | starts (p : Nat) (cpu : Cpu)
  | delivers (p : Nat) (value : Nat)

/-- The address of the return address of a system call's C function. -/
def callBase (p : Nat) : Nat := stackTop p - 76

/-- The registers at the first instruction of that function. -/
def entryCpu (l : Layout) (p : Nat) (user : Cpu) : Cpu where
  regs := { user.regs with ds := kernelDs }
  esp := callBase p
  eip := l.entry user.regs.eax
  cs := kernelCs
  ss := kernelDs
  eflags := user.eflags

/-- Registers that user code can have. -/
def UserCpu (c : Cpu) : Prop := c.user = true ∧ c.regs.outward = c.regs

instance (c : Cpu) : Decidable (UserCpu c) := inferInstanceAs (Decidable (_ ∧ _))

/-- The registers a program starts with. -/
structure Begins (c : Cpu) : Prop where
  user : UserCpu c
  esp : c.esp = userStack
  cs : c.cs = userCs
  ss : c.ss = userDs
  ds : c.regs.ds = userDs
  interrupts : interruptFlag.get c.eflags = 1

def Cpu.setEax (c : Cpu) (v : Nat) : Cpu := { c with regs := { c.regs with eax := v } }

namespace Threads

def set (a : Threads) (p : Nat) (t : Thread) : Threads :=
  { a with thread := Function.update a.thread p t }

/-- The running thread, which is not in `keyboard_handler`. -/
structure Current (a : Threads) (t : Thread) : Prop where
  thread : a.thread a.running = t
  free : t.owing = false

/-- Thread `p` goes on. -/
def goTo (a : Threads) (p : Nat) (regs : Regs) : Threads :=
  { a.set p ((a.thread p).begun regs) with running := p }

end Threads

/-- The running thread in the kernel, in the part `k`. -/
structure Enters (a : Threads) (t : Thread) (k : Inside) : Prop extends a.Current t where
  inside : t.inside = some k

/-- The registers a shell has on its stack at boot, where the general ones are those
of the processor once it goes on. -/
def shellCpu (eflags entry : Nat) : Cpu where
  regs := ⟨0, 0, 0, 0, 0, 0, 0, 0, 0, 0⟩
  esp := userStack
  eip := entry
  cs := userCs
  ss := userDs
  eflags := eflags

/-- No process has run yet. -/
def Threads.boot (eflags entry : Nat) : Threads where
  running := 0
  thread _ := ⟨shellCpu eflags entry, none, false, true⟩

inductive ThreadStep (l : Layout) : Threads → ThreadEvent → Threads → Prop where
  | runs {a : Threads} {t : Thread} {cpu : Cpu} (current : a.Current t) (outside : t.inside = none)
      (user : UserCpu cpu) : ThreadStep l a (.runs cpu) (a.set a.running { t with user := cpu })
  | calls {a : Threads} {t : Thread} (current : a.Current t) (outside : t.inside = none)
      (listed : t.user.regs.Listed) (stack : Nat → Nat) :
      ThreadStep l a .calls (a.set a.running { t with
        inside := some ⟨entryCpu l a.running t.user, stack, .entered t.user.regs.eax⟩ })
  | refuses {a : Threads} {t : Thread} (current : a.Current t) (outside : t.inside = none)
      (unlisted : ¬t.user.regs.Listed) :
      ThreadStep l a .refuses (a.set a.running { t with user := t.user.setEax (wordOf (-1)) })
  | serves {a : Threads} {t : Thread} {k : Inside} {call : SystemCall} {outcome : Outcome}
      {progress : Progress} {cpu : Cpu} {stack : Nat → Nat} (enters : Enters a t k)
      (entered : k.progress = .entered t.user.regs.eax)
      (serves : Serves t.user.regs.eax t.user.regs.ebx t.user.regs.ecx t.user.regs.edx call)
      (next : Progress.next call outcome = some progress) :
      ThreadStep l a (.serves call outcome cpu stack)
        (a.set a.running { t with inside := some ⟨cpu, stack, progress⟩ })
  | polls {a : Threads} {t : Thread} {k : Inside} {fd : Int} {buf : Option (Nat → UInt8)}
      {count : Nat} {outcome : Outcome} {progress : Progress} {cpu : Cpu} {stack : Nat → Nat}
      (enters : Enters a t k) (reading : k.progress = .reading fd count)
      (next : Progress.next (.resume fd buf count) outcome = some progress) :
      ThreadStep l a (.serves (.resume fd buf count) outcome cpu stack)
        (a.set a.running { t with inside := some ⟨cpu, stack, progress⟩ })
  | answers {a : Threads} {t : Thread} {k : Inside} {value : Int} {cpu : Cpu} {stack : Nat → Nat}
      (enters : Enters a t k) (entered : k.progress = .entered t.user.regs.eax)
      (answers : Answers t.user.regs.eax value) :
      ThreadStep l a (.answers value cpu stack)
        (a.set a.running { t with inside := some ⟨cpu, stack, .answered value⟩ })
  | works {a : Threads} {t : Thread} {k : Inside} {cpu : Cpu} {stack : Nat → Nat}
      (enters : Enters a t k) (begun : ∀ n, k.progress ≠ .entered n) :
      ThreadStep l a (.works cpu stack)
        (a.set a.running { t with inside := some { k with cpu := cpu, stack := stack } })
  | returns {a : Threads} {t : Thread} {k : Inside} {value : Int} (enters : Enters a t k)
      (answered : k.progress = .answered value) :
      ThreadStep l a .returns
        (a.set a.running { t with user := t.user.setEax (wordOf value), inside := none })
  | stays {a : Threads} : ThreadStep l a .stays a
  | resumes {a : Threads} {p : Nat} {regs : Regs} :
      ThreadStep l a (.resumes p regs) (a.goTo p regs)
  | leaves {a : Threads} {t : Thread} {p : Nat} {regs : Regs} (current : a.Current t) :
      ThreadStep l a (.leaves p regs) ((a.set a.running { t with owing := true }).goTo p regs)
  | finishes {a : Threads} {t : Thread} (thread : a.thread a.running = t) (owing : t.owing = true) :
      ThreadStep l a .finishes (a.set a.running { t with owing := false })
  | launches {a : Threads} : ThreadStep l a .launches a
  | starts {a : Threads} {p : Nat} {cpu : Cpu} (begins : Begins cpu) :
      ThreadStep l a (.starts p cpu) { a.set p ⟨cpu, none, false, false⟩ with running := p }
  | delivers {a : Threads} {t : Thread} {k : Inside} {p value : Nat} (thread : a.thread p = t)
      (waiting : t.inside = some k) (call : t.user.regs.eax = 2) :
      ThreadStep l a (.delivers p value)
        { a.set p { t with user := t.user.setEax value, inside := none } with running := p }

end Illinix.Linkage
