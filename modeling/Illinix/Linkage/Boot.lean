/-
# Linkage.Boot -- runs of the kernel with its stacks

The words that `initiate_shells` puts on the stacks of the three shells make them
threads that have not run yet, and the jump into the first is the first step.
`threads_refined` is the refinement for every run from there on in which no interrupt
comes between the `sti` and the `iret` of `execute`, and `returns_arrive` says that on
no such run a return goes astray.  After a tick in that window one does.
-/
import Illinix.Linkage.Arrivals
import Illinix.Theory.Run

namespace Illinix.Linkage

open Illinix.Kernel Illinix.Theory Illinix.Interrupt Machine

set_option autoImplicit false

/-! ## From initiate_shells on -/

/-- What `initiate_shells` has put on the stack of a shell. -/
def ShellWords (l : Layout) (mem : Nat → Nat) (eflags entry p : Nat) : Prop :=
  Holds mem (stackTop p - shellFrame) [entry, l.iretExec, entry, userCs, eflags, userStack, userDs]

section

variable {l : Layout} {c c' : Core} {entry p : Nat}

theorem setUpStack_eq (l : Layout) (c : Core) (p entry : Nat) : c.setUpStack l p entry = { c with
    mem := (Stack.pushes ⟨c.mem, (c.machine.pcbs p).esp0⟩
      [userDs, userStack, c.cpu.eflags, userCs, entry, l.iretExec, entry]).mem } := by
  simp only [Core.setUpStack, Core.pushAll, Core.withStack, Core.stack]

theorem setUpStack_self (inside : p < maxProcess) (esp0 : (c.machine.pcbs p).esp0 = stackTop p) :
    ShellWords l (c.setUpStack l p entry).mem c.cpu.eflags entry p := by
  have room : 4 * 7 ≤ (c.machine.pcbs p).esp0 := by
    rw [esp0]
    simp only [stackTop, kernelStack, kernelStackSize, maxProcess] at inside ⊢
    omega
  have held := Stack.pushes_holds
    [userDs, userStack, c.cpu.eflags, userCs, entry, l.iretExec, entry]
    ⟨c.mem, (c.machine.pcbs p).esp0⟩ room
  have top := Stack.pushes_top [userDs, userStack, c.cpu.eflags, userCs, entry, l.iretExec, entry]
    ⟨c.mem, (c.machine.pcbs p).esp0⟩
  rw [top, esp0] at held
  rw [setUpStack_eq, esp0]
  exact held

theorem setUpStack_other {q : Nat} (inside : p < maxProcess) (inside' : q < maxProcess) (other : q ≠ p)
    (esp0 : (c.machine.pcbs p).esp0 = stackTop p) (words : ShellWords l c.mem c.cpu.eflags entry q) :
    ShellWords l (c.setUpStack l p entry).mem c.cpu.eflags entry q := by
  refine Holds.congr words fun x low high => ?_
  rw [setUpStack_eq]
  change (Stack.pushes ⟨c.mem, (c.machine.pcbs p).esp0⟩ [userDs, userStack, c.cpu.eflags, userCs,
    entry, l.iretExec, entry]).mem x = c.mem x
  apply pushes_others inside (Nat.le_of_eq esp0)
  · rw [esp0]
    simp only [pcbAddr, stackTop, kernelStack, kernelStackSize, maxProcess, List.length_cons,
      List.length_nil] at inside ⊢
    omega
  · apply Others.not_onStack other
    simp only [OnStack, pcbAddr, stackTop, kernelStack, kernelStackSize, shellFrame, trapFrame,
      maxProcess, List.length_cons, List.length_nil] at low high inside' ⊢
    omega

/-- The stacks of these shells have been set up, and nothing else has changed. -/
structure SetUp (l : Layout) (entry : Nat) (done : List Nat) (c c' : Core) : Prop where
  machine : c'.machine = c.machine
  cpu : c'.cpu = c.cpu
  inside : ∀ p ∈ done, p < maxProcess
  words : ∀ p ∈ done, ShellWords l c'.mem c.cpu.eflags entry p

theorem SetUp.next {done : List Nat} (setUp : SetUp l entry done c c') (inside : p < maxProcess)
    (other : p ∉ done) (esp0 : (c.machine.pcbs p).esp0 = stackTop p) :
    SetUp l entry (p :: done) c (c'.setUpStack l p entry) := by
  have esp0' : (c'.machine.pcbs p).esp0 = stackTop p := by
    rw [setUp.machine]
    exact esp0
  refine ⟨?_, ?_, fun q mem => ?_, fun q mem => ?_⟩
  · rw [setUpStack_eq]
    exact setUp.machine
  · rw [setUpStack_eq]
    exact setUp.cpu
  · rcases List.mem_cons.1 mem with rfl | before
    · exact inside
    · exact setUp.inside q before
  · rw [← setUp.cpu]
    rcases List.mem_cons.1 mem with rfl | before
    · exact setUpStack_self inside esp0'
    · have differ : q ≠ p := fun same => other (same ▸ before)
      apply setUpStack_other inside (setUp.inside q before) differ esp0'
      rw [setUp.cpu]
      exact setUp.words q before

theorem setUp_start (esp0 : ∀ p, p < terminalCount → (c.machine.pcbs p).esp0 = stackTop p) :
    SetUp l entry [0, 1, 2] c
      (((c.setUpStack l 2 entry).setUpStack l 1 entry).setUpStack l 0 entry) := by
  have none' : SetUp l entry [] c c := ⟨rfl, rfl, fun _ => nofun, fun _ => nofun⟩
  apply ((none'.next _ _ (esp0 2 _)).next _ _ (esp0 1 _)).next _ _ (esp0 0 _)
  all_goals decide

theorem start_alive {m : Machine} (booted : m.Booted)
    (alive : m.mapTerminals.startShells.sessions.Alive p) : p < terminalCount := by
  by_contra high
  have absent : (m.mapTerminals.pcbs p).present = false := booted.absent p alive.1
  have present := alive.2
  rw [startShells_present _ (Nat.le_of_not_lt high), absent] at present
  cases present

/-- A shell with its words on the stack has not run yet. -/
theorem shell_suspended {mem : Nat → Nat} {code : Nat → Progress} {eflags : Nat}
    (inside : p < maxProcess) (words : ShellWords l mem eflags entry p) :
    Suspended l mem code p ((Threads.boot eflags entry).thread p) (stackTop p - shellFrame) := by
  have user : Cpu.user (shellCpu eflags entry) = true := show decide (userCs % 4 = 3) = true by decide
  obtain ⟨_, back, saved⟩ := words
  refine .fresh rfl rfl rfl back ?_ ?_ user
  · change Holds mem _ (if Cpu.user (shellCpu eflags entry) then _ else _)
    rw [if_pos user]
    exact saved
  · simp only [stackTop, kernelStack, kernelStackSize, shellFrame, trapFrame, maxProcess] at inside ⊢
    omega

theorem refines_first {eflags : Nat} (sched : Scheduled c.machine.sessions)
    (fresh : ∀ p, p < terminalCount → Fresh c.machine.sessions p)
    (alive : ∀ p, c.machine.sessions.Alive p → p < terminalCount) (active : c.machine.activeTermId = 0)
    (words : ∀ p, p < terminalCount → ShellWords l c.mem eflags entry p)
    (cs : c.cpu.cs = kernelCs) (ss : c.cpu.ss = kernelDs) : ∃ c', c.resume l = some c' ∧
      Refines l c' ((Threads.boot eflags entry).goTo 0 c'.cpu.regs) := by
  have suspended : ∀ p, p < terminalCount → Suspended l c.mem c.code (c.machine.sessions.head p)
      ((Threads.boot eflags entry).thread (c.machine.sessions.head p))
      (c.machine.sessions.ebp (c.machine.sessions.head p)) := by
    intro p low
    rw [(fresh p low).head, (fresh p low).ebp]
    exact shell_suspended (Nat.lt_trans low (by decide)) (words p low)
  have root : ∀ q r, c.machine.sessions.Alive q → c.machine.sessions.parent q ≠ some r := by
    intro q r here up
    cases (fresh q (alive q here)).parent.symm.trans up
  have others : Others l c.machine.sessions c.mem c.code (Threads.boot eflags entry).thread := by
    refine ⟨fun t low _ => suspended t low, fun q r here up => ?_, fun q r here up => ?_⟩
    · exact absurd up (root q r here)
    · exact absurd up (root q r here)
  have turn := suspended c.machine.activeTermId sched.active
  have head : c.head = 0 := by
    change c.machine.sessions.head c.machine.activeTermId = 0
    rw [active]
    exact (fresh 0 (by decide)).head
  obtain ⟨cpu, resumed, ref⟩ := resume_goes sched others turn cs ss
  rw [head] at ref
  exact ⟨c.at cpu, resumed, ref⟩

/-- **The shells as `initiate_shells` leaves them** are threads that have not run yet. -/
theorem refines_start {m₀ : Machine} (booted : m₀.Booted)
    (machine : c.machine = m₀.mapTerminals.startShells) (cs : c.cpu.cs = kernelCs)
    (ss : c.cpu.ss = kernelDs) : ∃ c', c.start l entry = some c' ∧
      Refines l c' ((Threads.boot c.cpu.eflags entry).goTo 0 c'.cpu.regs) := by
  have fresh : ∀ p, p < terminalCount → Fresh c.machine.sessions p := fun p low =>
    machine ▸ startShells_fresh m₀.mapTerminals low
  have active : c.machine.activeTermId = 0 := by
    rw [machine, Machine.start_activeTermId]
    exact booted.active
  have setUp : SetUp l entry [0, 1, 2] c _ := setUp_start fun p low => (fresh p low).esp0
  rw [Core.start]
  generalize ((c.setUpStack l 2 entry).setUpStack l 1 entry).setUpStack l 0 entry = c₁ at setUp ⊢
  have same := setUp.machine.trans machine
  apply refines_first
  · rw [same]
    exact scheduled_start booted
  · intro p low
    rw [setUp.machine]
    exact fresh p low
  · intro p alive
    rw [same] at alive
    exact start_alive booted alive
  · rw [setUp.machine]
    exact active
  · intro p low
    apply setUp.words
    simp only [terminalCount] at low
    simp only [List.mem_cons, List.not_mem_nil, or_false]
    omega
  · rw [setUp.cpu]
    exact cs
  · rw [setUp.cpu]
    exact ss

/-- A run in which no interrupt comes in the window. -/
def Unbroken (l : Layout) (c : Core) (run : List CoreEvent) : Prop :=
  Meets (silent (coreStep l)) Uninterrupted ⟨c, false⟩ run

instance (run : List CoreEvent) : Decidable (Unbroken l c run) :=
  inferInstanceAs (Decidable (Meets _ _ _ _))

theorem start_stands {m₀ m : Machine} {magic : Nat → UInt8} (booted : m₀.Booted)
    (started : m₀.initiateShells magic = some (m, true)) (machine : c.machine = m)
    (cs : c.cpu.cs = kernelCs) (ss : c.cpu.ss = kernelDs) (entry : Nat) :
    ∃ c₁, c.start l entry = some c₁ ∧
      Stands l ((Threads.boot c.cpu.eflags entry).goTo 0 c₁.cpu.regs) ⟨c₁, false⟩ := by
  obtain rfl := Machine.initiateShells_some started
  exact refines_start booted machine cs ss

theorem refines_trace {m₀ m : Machine} {magic : Nat → UInt8} (booted : m₀.Booted)
    (started : m₀.initiateShells magic = some (m, true)) (machine : c.machine = m)
    (cs : c.cpu.cs = kernelCs) (ss : c.cpu.ss = kernelDs) (entry : Nat) :
    ∃ c₁, c.start l entry = some c₁ ∧
      ∀ (run : List CoreEvent) (s : CoreState) (labels : List ThreadEvent), Unbroken l c₁ run →
        trace (coreStep l) ⟨c₁, false⟩ run = some (s, labels) → ∃ a,
          Path (ThreadStep l) (Threads.boot c.cpu.eflags entry) (.resumes 0 c₁.cpu.regs :: labels) a ∧
          Stands l a s := by
  obtain ⟨c₁, start, stands⟩ := start_stands booted started machine cs ss entry
  refine ⟨c₁, start, fun run s labels unbroken ran => ?_⟩
  obtain ⟨a, path, stands'⟩ := trace_simulates (fun s a => Stands l a s)
    (fun _ _ _ _ _ stands alone step => stands_step stands alone step) run ⟨c₁, false⟩ s labels _
    stands unbroken ran
  exact ⟨a, .cons .resumes path, stands'⟩

/-- Outside the window the processor has the registers of the running thread. -/
theorem Stands.outside {s : CoreState} {a : Threads} (stands : Stands l a s)
    (outside : s.entering = false) : Refines l s.core a := by
  obtain ⟨c, _ | _⟩ := s
  · exact stands
  · cases outside

end

/-- **The kernel with its stacks refines threads.** From the three shells on, in every
run of user code, system calls, exceptions and interrupts, down to the registers and
the words on the kernel stacks, each step is one of the threads, of which each owns
its registers, as long as no interrupt comes in the window of `execute`; and outside
that the processor has those of the running thread, unless that was left in
`keyboard_handler`. -/
theorem threads_refined (l : Layout) (m₀ m : Machine) (magic : Nat → UInt8) (booted : m₀.Booted)
    (started : m₀.initiateShells magic = some (m, true)) (c₀ : Core) (machine : c₀.machine = m)
    (cs : c₀.cpu.cs = kernelCs) (ss : c₀.cpu.ss = kernelDs) (entry : Nat) :
    ∃ c, c₀.start l entry = some c ∧
      ∀ (run : List CoreEvent) (s : CoreState) (labels : List ThreadEvent), Unbroken l c run →
        trace (coreStep l) ⟨c, false⟩ run = some (s, labels) → ∃ a,
          Path (ThreadStep l) (Threads.boot c₀.cpu.eflags entry) (.resumes 0 c.cpu.regs :: labels) a ∧
          (s.entering = false → a.running = s.core.head ∧
            if (a.thread a.running).owing then s.core.inKeyboard l = true
            else s.core.cpu = (a.thread a.running).cpu) := by
  obtain ⟨c, start, refines⟩ := refines_trace (l := l) booted started machine cs ss entry
  refine ⟨c, start, fun run s labels unbroken ran => ?_⟩
  obtain ⟨a, path, stands⟩ := refines run s labels unbroken ran
  refine ⟨a, path, fun outside => ?_⟩
  have ref' := stands.outside outside
  refine ⟨ref'.running, ?_⟩
  rw [ref'.thread]
  split_ifs with owing
  · obtain ⟨cs, _, eip, _⟩ := ref'.runs.handler owing
    simp [Core.inKeyboard, kernel_not_user cs, eip]
  · exact ref'.runs.plain (by simpa using owing)

/-- **No return goes astray.** In every state that a run from the three shells on comes
to with no interrupt in the window of `execute`, an event whose C code gets through ends
at a return address that the kernel has put on the stack. -/
theorem returns_arrive (l : Layout) (m₀ m : Machine) (magic : Nat → UInt8) (booted : m₀.Booted)
    (started : m₀.initiateShells magic = some (m, true)) (c₀ : Core) (machine : c₀.machine = m)
    (cs : c₀.cpu.cs = kernelCs) (ss : c₀.cpu.ss = kernelDs) (entry : Nat) :
    ∃ c, c₀.start l entry = some c ∧
      ∀ (run : List CoreEvent) (s : CoreState) (labels : List ThreadEvent), Unbroken l c run →
        trace (coreStep l) ⟨c, false⟩ run = some (s, labels) → ∀ event : CoreEvent,
          event.comes s.entering = true → Uninterrupted s event → event.Served l s.core →
            ∃ s' e, coreStep l s event = some (s', e) := by
  obtain ⟨c, start, refines⟩ := refines_trace (l := l) booted started machine cs ss entry
  refine ⟨c, start, fun run s labels unbroken ran event comes alone served => ?_⟩
  obtain ⟨_, _, stands⟩ := refines run s labels unbroken ran
  exact stands_goes stands comes alone served

/-! ## A run -/

def somewhere : Layout where
  pitReturn := 0x400100
  keyboardReturn := 0x400200
  rtcReturn := 0x400300
  callReturn := 0x400400
  switchReturn := 0x400500
  haltReturn := 0x400600
  iretExec := 0x400700
  entry n := 0x400800 + n
  apart := by decide
  inside n := by omega

/-- The processor in `initiate_shells`, once the shells are there. -/
def bootCore : Core where
  machine := shells
  cpu := ⟨⟨0, 0, 0, 0, 0, 0, 0, kernelDs, kernelDs, kernelDs⟩, 0x7FFF00, 0, kernelCs, kernelDs, 2⟩
  mem _ := 0
  code _ := .answered 0

/-- The first shell with its number of the call, or the result, in `eax`. -/
def inShell (eax : Nat) : Cpu :=
  ⟨⟨1, 2, 3, 4, 5, 6, eax, userDs, userDs, userDs⟩, userStack, 0x8048100, userCs, userDs, 0x202⟩

def inSigreturn : Cpu :=
  ⟨⟨7, 7, 7, 7, 7, 7, 7, kernelDs, kernelDs, kernelDs⟩, 0x7F9E00, 0x400900, kernelCs, kernelDs, 0x202⟩

def litter : Scratch := ⟨⟨1, 2, 3, 4, 5, 6, 7, 0, 0, 0⟩, fun _ => 9, 3⟩

def ticks (n : Nat) : List CoreEvent := List.replicate n (.tick litter litter (fun _ => 0) 0)

/-- The first shell runs a shell of its own, up to the window. -/
def nested : List CoreEvent :=
  [.user (inShell 2), .int80,
    .serve (.kernel (.execute (some shellName) fun _ => 0)) litter inSigreturn 0x8048094]

/-- The child is entered.  `sigreturn` in it, with three ticks in the call, F2 before it
returns, and two more until it goes on in `keyboard_handler`. -/
def switched : List CoreEvent :=
  nested ++ [.enter, .user (inShell 10), .int80] ++ ticks 3 ++
    [.answer 0 inSigreturn (fun _ => 5), .key 0x3C litter litter] ++ ticks 2 ++
    [.finish litter, .sysret]

/-- After a tick in the window the child has no place to go on at: its turn comes with
the third tick. -/
example : (bootCore.start somewhere 0x8048094).map (fun c =>
    ((trace (coreStep somewhere) ⟨c, false⟩ (nested ++ ticks 2)).isSome,
      (trace (coreStep somewhere) ⟨c, false⟩ (nested ++ ticks 3)).isSome)) =
    some (true, false) := by
  decide +kernel

theorem switched_unbroken {c : Core} (start : bootCore.start somewhere 0x8048094 = some c) :
    Unbroken somewhere c switched := by
  have all : ∀ c ∈ bootCore.start somewhere 0x8048094, Unbroken somewhere c switched := by
    decide +kernel
  exact all c start

theorem shells_threads : ∃ c, bootCore.start somewhere 0x8048094 = some c ∧
    ∃ s labels, trace (coreStep somewhere) ⟨c, false⟩ switched = some (s, labels) ∧
      s.core.cpu = inShell 0 ∧ ∃ a,
        Path (ThreadStep somewhere) (Threads.boot 2 0x8048094) (.resumes 0 c.cpu.regs :: labels) a ∧
        (s.entering = false → a.running = s.core.head ∧
          if (a.thread a.running).owing then s.core.inKeyboard somewhere = true
          else s.core.cpu = (a.thread a.running).cpu) := by
  obtain ⟨c, start, refined⟩ := threads_refined somewhere (mounted shellFs) shells (fun _ => 0)
    (mounted_booted shellFs) shells_started bootCore rfl rfl rfl 0x8048094
  have ends : ((bootCore.start somewhere 0x8048094).bind fun c =>
      trace (coreStep somewhere) ⟨c, false⟩ switched).map (fun r => r.1.core.cpu) =
        some (inShell 0) := by
    decide +kernel
  obtain ⟨⟨s, labels⟩, ran, cpu⟩ := Option.map_eq_some_iff.1 ends
  rw [start] at ran
  exact ⟨c, start, s, labels, ran, cpu, refined switched s labels (switched_unbroken start) ran⟩

theorem shells_return : ∃ c, bootCore.start somewhere 0x8048094 = some c ∧
    ∃ s labels, trace (coreStep somewhere) ⟨c, false⟩ switched.dropLast = some (s, labels) ∧
      CoreEvent.sysret.Served somewhere s.core ∧
      ∃ s' e, coreStep somewhere s .sysret = some (s', e) := by
  obtain ⟨c, start, arrive⟩ := returns_arrive somewhere (mounted shellFs) shells (fun _ => 0)
    (mounted_booted shellFs) shells_started bootCore rfl rfl rfl 0x8048094
  have ends : ((bootCore.start somewhere 0x8048094).bind fun c =>
      trace (coreStep somewhere) ⟨c, false⟩ switched.dropLast).map (fun r =>
        (r.1.entering, r.1.core.inCall somewhere, r.1.core.code r.1.core.head)) =
          some (false, true, .answered 0) := by
    decide +kernel
  have unbroken : ∀ c ∈ bootCore.start somewhere 0x8048094,
      Unbroken somewhere c switched.dropLast := by
    decide +kernel
  obtain ⟨⟨s, labels⟩, ran, state⟩ := Option.map_eq_some_iff.1 ends
  rw [start] at ran
  obtain ⟨outside, state⟩ := Prod.mk.inj state
  obtain ⟨called, answered⟩ := Prod.mk.inj state
  have served : CoreEvent.sysret.Served somewhere s.core := ⟨called, 0, answered⟩
  have comes : CoreEvent.sysret.comes s.entering = true := congrArg (!·) outside
  exact ⟨c, start, s, labels, ran, served, arrive _ s labels (unbroken c start) ran .sysret comes
    (fun _ => rfl) served⟩

end Illinix.Linkage
