/-
# Linkage.Projection -- the core's machine is the kernel's

`step_reaches` says that a step of the core is, for its machine, some steps of the
kernel: calls and the `iret` behind them.  In the window of `execute` the `iret` is
still to come, and the machine is taken as it is then (`CoreState.settled`).  So what
every step of the kernel keeps (`Reaches.keeps`) holds in every run of the core, and
the page tables can be put beside the threads: `own_memory` says that the thread whose
registers the processor has is the one whose image user code reaches.
-/
import Illinix.Linkage.Boot
import Illinix.Kernel.UserPages

namespace Illinix.Linkage

open Illinix.Kernel Illinix.Theory Illinix.Interrupt Machine
open Illinix.Memory (pagingCount)
open Illinix.Memory.Paging (userTranslate)

set_option autoImplicit false

/-- Steps of the kernel lead from one state of the machine to the other. -/
def Reaches (m m' : Machine) : Prop := ∃ run : List SystemEvent, after systemStep m run = some m'

namespace Reaches

variable {m m' m'' : Machine}

theorem refl (m : Machine) : Reaches m m := ⟨[], rfl⟩

theorem trans (first : Reaches m m') (second : Reaches m' m'') : Reaches m m'' := by
  obtain ⟨run, ran⟩ := first
  obtain ⟨run', ran'⟩ := second
  refine ⟨run ++ run', ?_⟩
  rw [after_append, ran]
  exact ran'

/-- What every step of the kernel keeps. -/
theorem keeps (Inv : Machine → Prop) (keep : ∀ m e m', Inv m → systemStep m e = some m' → Inv m')
    (reaches : Reaches m m') (inv : Inv m) : Inv m' := by
  obtain ⟨run, ran⟩ := reaches
  have every := every_of_invariant Inv (Q := fun _ _ m => Inv m)
    (fun m e m' inv step => ⟨keep m e m' inv step, keep m e m' inv step⟩) run m inv
  exact after_of_every run m m' inv every ran

theorem one {event : SystemEvent} {outcome : Outcome} (ran : event.run m = some (m', outcome)) :
    Reaches m m' := by
  refine ⟨[event], ?_⟩
  rw [after_cons, systemStep, ran]
  rfl

theorem iret (m : Machine) : Reaches m { m with userMode := true } := by
  have step : SystemEvent.run m .iret = some ({ m with userMode := true }, .ended .user) := rfl
  exact .one step

end Reaches

/-- The machine, in the window once the `iret` is done. -/
def CoreState.settled : CoreState → Machine
  | ⟨c, true⟩ => { c.machine with userMode := true }
  | ⟨c, false⟩ => c.machine

section

variable {l : Layout} {c c' : Core} {e : ThreadEvent} {m : Machine}

/-! ## The parts of a step -/

theorem made_reaches {call : SystemCall} {outcome : Outcome}
    (made : c.made call = some (c', outcome)) (same : c.machine = m) : Reaches m c'.machine := by
  subst same
  obtain ⟨m, ran, rfl⟩ := made_some made
  exact .one ran

/-- Back in user code, the machine's `iret`; in the kernel, nothing. -/
theorem iret_reaches (same : c.machine = m) : Reaches m c.iret.machine := by
  subst same
  simp only [Core.iret]
  split_ifs
  · exact .iret _
  · exact .refl _

theorem iret_settled (user : c.iret.cpu.user = true) :
    c.iret.machine = CoreState.settled ⟨c, true⟩ := by
  simp only [Core.iret] at user ⊢
  split_ifs at user ⊢
  · rfl
  · contradiction

theorem arrive_reaches (arrived : c.arrive l = some c') (same : c.machine = m) :
    Reaches m c'.machine := by
  simp only [Core.arrive] at arrived
  split_ifs at arrived
  · cases arrived
    exact iret_reaches same
  · cases arrived
    exact iret_reaches same
  · cases arrived
    exact iret_reaches same
  · cases arrived
    exact same ▸ .refl _

theorem goOn_reaches {p : Nat} {cpu : Cpu} {mem : Nat → Nat}
    (goes : c.goOn l p cpu mem = some c') (same : c.machine = m) : Reaches m c'.machine := by
  simp only [Core.goOn] at goes
  split_ifs at goes
  cases goes
  exact same ▸ .refl _

theorem depart_reaches {entry : Nat} {outcome : Outcome}
    (step : c.depart l entry outcome = some (c', e)) (same : c.machine = m) :
    Reaches m (CoreState.settled ⟨c', e.opens false⟩) := by
  cases outcome with
  | reading how => cases step
  | ended how =>
      cases how with
      | user =>
          simp only [Core.depart] at step
          split_ifs at step
          cases step
          exact same ▸ .iret _
      | delivered parent child value =>
          obtain ⟨c₁, arrived, last⟩ := Option.bind_eq_some_iff.1 step
          cases last
          exact arrive_reaches arrived same
      | returned value => cases step
      | resumed => cases step

/-! ## The events -/

theorem restoreContextSyscall_machine (c : Core) : c.restoreContextSyscall.machine = c.machine := rfl

theorem trap_machine (c : Core) : c.trap.machine = c.machine := by
  rw [Core.trap_eq]

theorem int80_reaches (step : c.int80 l = some (c', e)) :
    Reaches c.machine (CoreState.settled ⟨c', e.opens false⟩) := by
  have wrapper : Reaches c.machine (c.systemCallWrapper l).machine := by
    simp only [Core.systemCallWrapper]
    split_ifs
    · rw [show (Core.dispatch l c.trap.saveContext).machine = c.machine from trap_machine c]
      exact .refl _
    · exact iret_reaches ((restoreContextSyscall_machine _).trans (trap_machine c))
  simp only [Core.int80] at step
  split_ifs at step <;> (cases step; exact wrapper)

theorem serve_reaches {call : SystemCall} {s : Scratch} {cpu : Cpu} {entry : Nat}
    (step : c.serve l call s cpu entry = some (c', e)) :
    Reaches c.machine (CoreState.settled ⟨c', e.opens false⟩) := by
  simp only [Core.serve] at step
  split at step
  · split_ifs at step
    obtain ⟨⟨c₁, outcome⟩, made, step⟩ := Option.bind_eq_some_iff.1 step
    have first : Reaches c.machine c₁.machine := made_reaches made rfl
    split at step
    · obtain ⟨c₂, goes, same⟩ := Option.bind_eq_some_iff.1 step
      cases same
      exact first.trans (goOn_reaches goes rfl)
    · exact first.trans (depart_reaches step rfl)
  · cases step

theorem poll_reaches {ebp : Nat} {buf : Option (Nat → UInt8)} {cpu : Cpu} {mem : Nat → Nat}
    (step : c.poll l ebp buf cpu mem = some (c', e)) :
    Reaches c.machine (CoreState.settled ⟨c', e.opens false⟩) := by
  simp only [Core.poll] at step
  split at step
  · split_ifs at step
    obtain ⟨⟨m, outcome⟩, ran, step⟩ := Option.bind_eq_some_iff.1 step
    obtain ⟨progress, _, step⟩ := Option.bind_eq_some_iff.1 step
    obtain ⟨c₂, goes, same⟩ := Option.bind_eq_some_iff.1 step
    cases same
    exact (Reaches.one ran).trans (goOn_reaches goes rfl)
  · cases step

theorem answer_reaches {value : Int} {cpu : Cpu} {mem : Nat → Nat}
    (step : c.answer l value cpu mem = some (c', e)) :
    Reaches c.machine (CoreState.settled ⟨c', e.opens false⟩) := by
  simp only [Core.answer] at step
  split at step
  · split_ifs at step
    obtain ⟨c₂, goes, same⟩ := Option.bind_eq_some_iff.1 step
    cases same
    exact goOn_reaches goes rfl
  · cases step

theorem work_reaches {cpu : Cpu} {mem : Nat → Nat} (step : c.work l cpu mem = some (c', e)) :
    Reaches c.machine (CoreState.settled ⟨c', e.opens false⟩) := by
  simp only [Core.work] at step
  split at step
  · cases step
  · split_ifs at step
    obtain ⟨c₂, goes, same⟩ := Option.bind_eq_some_iff.1 step
    cases same
    exact goOn_reaches goes rfl

theorem sysret_reaches (step : c.sysret l = some (c', e)) :
    Reaches c.machine (CoreState.settled ⟨c', e.opens false⟩) := by
  simp only [Core.sysret] at step
  split at step
  · split_ifs at step
    obtain ⟨c₂, arrived, same⟩ := Option.bind_eq_some_iff.1 step
    cases same
    exact arrive_reaches arrived rfl
  · cases step

theorem fault_reaches {vector address entry : Nat} {error : Option Nat} {s s' : Scratch}
    {magic : Nat → UInt8} (step : c.fault l vector address error s s' magic entry = some (c', e)) :
    Reaches c.machine (CoreState.settled ⟨c', e.opens false⟩) := by
  simp only [Core.fault] at step
  split_ifs at step
  obtain ⟨⟨c₁, _⟩, raised, step⟩ := Option.bind_eq_some_iff.1 step
  obtain ⟨⟨c₂, outcome⟩, halted, step⟩ := Option.bind_eq_some_iff.1 step
  have first : Reaches c.machine c₁.machine := made_reaches raised (faultFrame_machine ..)
  exact first.trans ((made_reaches halted rfl).trans (depart_reaches step rfl))

theorem haltNext_reaches {frame entry : Nat} {s : Scratch} {outcome : Outcome}
    (step : c.haltNext l frame s entry outcome = some (c', e)) :
    Reaches c.machine (CoreState.settled ⟨c', e.opens false⟩) := by
  simp only [Core.haltNext] at step
  split_ifs at step
  exact depart_reaches step rfl

theorem tick_reaches {s s' : Scratch} {magic : Nat → UInt8} {entry : Nat}
    (step : c.tick l s s' magic entry = some (c', e)) :
    Reaches c.machine (CoreState.settled ⟨c', e.opens false⟩) := by
  simp only [Core.tick] at step
  obtain ⟨⟨c₁, outcome⟩, made, step⟩ := Option.bind_eq_some_iff.1 step
  refine (made_reaches made (interrupt_machine ..)).trans ?_
  split at step
  · obtain ⟨c₂, resumed, same⟩ := Option.bind_eq_some_iff.1 step
    cases same
    exact arrive_reaches resumed rfl
  · exact haltNext_reaches step

theorem key_reaches {scancode : Nat} {s s' : Scratch} (step : c.key l scancode s s' = some (c', e)) :
    Reaches c.machine (CoreState.settled ⟨c', e.opens false⟩) := by
  simp only [Core.key] at step
  split_ifs at step
  obtain ⟨⟨c₁, outcome⟩, made, step⟩ := Option.bind_eq_some_iff.1 step
  refine (made_reaches made (keyFrame_machine ..)).trans ?_
  simp only [Core.keyDone] at step
  split at step
  · obtain ⟨c₂, resumed, same⟩ := Option.bind_eq_some_iff.1 step
    cases same
    exact arrive_reaches resumed rfl
  · obtain ⟨c₂, arrived, same⟩ := Option.bind_eq_some_iff.1 step
    cases same
    exact arrive_reaches arrived rfl

theorem rtc_reaches {s : Scratch} (step : c.rtc l s = some (c', e)) :
    Reaches c.machine (CoreState.settled ⟨c', e.opens false⟩) := by
  obtain ⟨⟨c₁, _⟩, made, step⟩ := Option.bind_eq_some_iff.1 step
  obtain ⟨c₂, arrived, same⟩ := Option.bind_eq_some_iff.1 step
  cases same
  exact (made_reaches made (interrupt_machine ..)).trans (arrive_reaches arrived rfl)

theorem finish_reaches {s : Scratch} (step : c.finish l s = some (c', e)) :
    Reaches c.machine (CoreState.settled ⟨c', e.opens false⟩) := by
  simp only [Core.finish] at step
  split_ifs at step
  obtain ⟨c₂, arrived, same⟩ := Option.bind_eq_some_iff.1 step
  cases same
  exact arrive_reaches arrived rfl

/-- **A step of the core** is for its machine a run of the kernel. -/
theorem step_reaches {s s' : CoreState} {event : CoreEvent} {a : Threads} (stands : Stands l a s)
    (alone : Uninterrupted s event) (step : coreStep l s event = some (s', e)) :
    Reaches s.settled s'.settled := by
  obtain ⟨comes, c', stepped, rfl⟩ := coreStep_some.1 step
  obtain ⟨c, _ | _⟩ := s
  · change c.step l event = some (c', e) at stepped
    cases event with
    | user cpu =>
        simp only [Core.step, Core.user] at stepped
        split_ifs at stepped
        cases stepped
        exact .refl _
    | int80 => exact int80_reaches stepped
    | serve call s cpu entry => exact serve_reaches stepped
    | poll ebp buf cpu mem => exact poll_reaches stepped
    | answer value cpu mem => exact answer_reaches stepped
    | work cpu mem => exact work_reaches stepped
    | sysret => exact sysret_reaches stepped
    | enter => cases comes
    | fault vector address error s s' magic entry => exact fault_reaches stepped
    | tick s s' magic entry => exact tick_reaches stepped
    | key scancode s s' => exact key_reaches stepped
    | rtc s => exact rtc_reaches stepped
    | finish s => exact finish_reaches stepped
  · obtain rfl := enter_of_comes comes (alone rfl)
    cases stepped
    have launches : Launches l c a := stands
    have settled : c.iret.machine = CoreState.settled ⟨c, true⟩ :=
      iret_settled launches.begins.user.1
    exact settled ▸ .refl _

end

theorem start_reaches {l : Layout} {c c' : Core} {entry : Nat} (started : c.start l entry = some c') :
    Reaches c.machine c'.machine := by
  have machine : (((c.setUpStack l 2 entry).setUpStack l 1 entry).setUpStack l 0 entry).machine =
      c.machine := by
    simp only [setUpStack_eq]
  simp only [Core.start, Core.resume] at started
  exact arrive_reaches started machine

/-- **A thread has its own memory.** In every run of the core from the three shells on
with no interrupt in the window of `execute`, its machine does what the kernel can do,
the thread whose registers user code has is the one whose image it reaches, and other
than that user code reaches at most the page of video memory. -/
theorem own_memory (l : Layout) (tables : Memory.Layout) (m₀ m : Machine) (magic : Nat → UInt8)
    (booted : m₀.Booted) (started : m₀.initiateShells magic = some (m, true)) (c₀ : Core)
    (machine : c₀.machine = m) (cs : c₀.cpu.cs = kernelCs) (ss : c₀.cpu.ss = kernelDs) (entry : Nat) :
    ∃ c, c₀.start l entry = some c ∧
      ∀ (run : List CoreEvent) (s : CoreState) (labels : List ThreadEvent), Unbroken l c run →
        trace (coreStep l) ⟨c, false⟩ run = some (s, labels) → Reaches m s.settled ∧ ∃ a,
          Path (ThreadStep l) (Threads.boot c₀.cpu.eflags entry) (.resumes 0 c.cpu.regs :: labels) a ∧
          (s.entering = false →
            (s.core.cpu.user = true → s.core.cpu = (a.thread a.running).cpu) ∧
            ∀ store page, page < pagingCount * pagingCount →
              userTranslate tables (s.core.machine.paging tables) store page =
                if page / pagingCount = userEntry then
                  some ((2 + a.running) * pagingCount + page % pagingCount)
                else if page = videoPage ∧ s.core.machine.userVidmem.present then
                  some s.core.machine.userVidmem.base
                else none) := by
  obtain ⟨c, start, begins⟩ := start_stands (l := l) booted started machine cs ss entry
  refine ⟨c, start, fun run s labels unbroken ran => ?_⟩
  have one : ∀ s event s' e a, Stands l a s ∧ Reaches m s.settled → Uninterrupted s event →
      coreStep l s event = some (s', e) →
      ∃ a', ThreadStep l a e a' ∧ Stands l a' s' ∧ Reaches m s'.settled := by
    rintro s event s' e a ⟨stands, reached⟩ alone step
    obtain ⟨a', first, stands'⟩ := stands_step stands alone step
    exact ⟨a', first, stands', reached.trans (step_reaches stands alone step)⟩
  have booted' : Reaches m c.machine := machine ▸ start_reaches start
  obtain ⟨a, path, stands, reached⟩ := trace_simulates
    (fun s a => Stands l a s ∧ Reaches m s.settled) one run ⟨c, false⟩ s labels _
    ⟨begins, booted'⟩ unbroken ran
  refine ⟨reached, a, .cons .resumes path, fun outside => ?_⟩
  have ref := stands.outside outside
  obtain ⟨c', _ | _⟩ := s
  swap
  · cases outside
  obtain rfl := initiateShells_some started
  have kept : Scheduled c'.machine.sessions ∧ LowVideo c'.machine := by
    refine reached.keeps (fun m => Scheduled m.sessions ∧ LowVideo m) ?_ ?_
    · exact fun m e m' inv step => ⟨scheduled_system inv.1 step, lowVideo_step inv.1 step inv.2⟩
    · exact ⟨scheduled_start booted, lowVideo_start booted⟩
  refine ⟨fun user => ?_, fun store page inside => ?_⟩
  · rw [ref.thread]
    apply ref.runs.plain
    by_contra owing
    obtain ⟨cs, _⟩ := ref.runs.handler (by simpa using owing)
    simp [kernel_not_user cs] at user
  · rw [ref.running]
    exact space_scheduled tables kept.1 kept.2 store inside

theorem shells_own_memory : ∃ c, bootCore.start somewhere 0x8048094 = some c ∧
    ∃ s labels, trace (coreStep somewhere) ⟨c, false⟩ switched = some (s, labels) ∧
      s.core.cpu = inShell 0 ∧ Reaches shells s.settled ∧ ∃ a,
        Path (ThreadStep somewhere) (Threads.boot 2 0x8048094) (.resumes 0 c.cpu.regs :: labels) a ∧
        (s.entering = false →
          (s.core.cpu.user = true → s.core.cpu = (a.thread a.running).cpu) ∧
          ∀ store page, page < pagingCount * pagingCount →
            userTranslate tablesLast (s.core.machine.paging tablesLast) store page =
              if page / pagingCount = userEntry then
                some ((2 + a.running) * pagingCount + page % pagingCount)
              else if page = videoPage ∧ s.core.machine.userVidmem.present then
                some s.core.machine.userVidmem.base
              else none) := by
  obtain ⟨c, start, own⟩ := own_memory somewhere tablesLast (mounted shellFs) shells (fun _ => 0)
    (mounted_booted shellFs) shells_started bootCore rfl rfl rfl 0x8048094
  have ends : ((bootCore.start somewhere 0x8048094).bind fun c =>
      trace (coreStep somewhere) ⟨c, false⟩ switched).map (fun r => r.1.core.cpu) =
        some (inShell 0) := by
    decide +kernel
  obtain ⟨⟨s, labels⟩, ran, cpu⟩ := Option.map_eq_some_iff.1 ends
  rw [start] at ran
  exact ⟨c, start, s, labels, ran, cpu, own switched s labels (switched_unbroken start) ran⟩

end Illinix.Linkage
