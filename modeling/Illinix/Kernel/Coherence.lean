/-
# Kernel.Coherence -- one stack of processes for each terminal

Parent pointers make the processes a forest of three chains, one for each
terminal, with a base shell at the end (`Theory.Chain`).  `execute` pushes on the
active terminal's chain, `halt` pops from it, and a tick or a terminal switch
makes another chain the active one.

`Scheduled` is the invariant, on what of the machine the scheduler works with:
besides the forest it keeps every saved frame pointer on the stack of the process
it belongs to, which is what makes `get_current_pcb` right after each switch.
`scheduled_step` says that every kernel entry keeps it, and
`coherent_of_scheduled` what it means for the machine.
-/
import Illinix.Kernel.KernelCalls
import Illinix.Theory.Chain

namespace Illinix.Kernel

open Illinix.FileSys Illinix.Theory Machine

set_option autoImplicit false

/-! ## Stacks -/

theorem onStack_iff {p x : Nat} :
    OnStack p x ↔ p < maxProcess ∧ x / kernelStackSize = 1023 - p := by
  simp only [OnStack, pcbAddr, stackTop, kernelStack, kernelStackSize, maxProcess]
  omega

/-- A frame pointer on the stack of `p`, with room above it. -/
def SavedFrame (p ebp : Nat) : Prop :=
  OnStack p ebp ∧ ebp % kernelStackSize + shellFrame ≤ kernelStackSize

theorem SavedFrame.leave {p ebp : Nat} (saved : SavedFrame p ebp) : OnStack p (ebp + 8) := by
  obtain ⟨on, room⟩ := saved
  rw [onStack_iff] at on ⊢
  simp only [kernelStackSize, shellFrame, trapFrame] at on room ⊢
  omega

/-- A trap from user mode, on the stack of `p`. -/
theorem trap_onStack {p : Nat} (inside : p < maxProcess) : OnStack p (stackTop p - trapFrame) := by
  simp only [OnStack, maxProcess, pcbAddr, stackTop, kernelStack, kernelStackSize, trapFrame]
    at inside ⊢
  omega

theorem shell_savedFrame {p : Nat} (inside : p < maxProcess) :
    SavedFrame p (stackTop p - shellFrame) := by
  simp only [SavedFrame, OnStack, maxProcess, pcbAddr, stackTop, kernelStack, kernelStackSize,
    shellFrame, trapFrame] at inside ⊢
  omega

/-! ## What the scheduler works with -/

structure Sessions where
  present : Nat → Bool
  pid : Nat → Nat
  parent : Nat → Option Nat
  ebp : Nat → Nat
  parentEbp : Nat → Nat
  esp0 : Nat → Nat
  head : Nat → Nat
  activeTermId : Nat
  userPage : Nat
  tssEsp0 : Nat
  stackPointer : Nat

def Machine.Context.sessions (c : Context) : Sessions where
  present p := (c.pcbs p).present
  pid p := (c.pcbs p).pid
  parent p := (c.pcbs p).parent
  ebp p := (c.pcbs p).ebp
  parentEbp p := (c.pcbs p).parentEbp
  esp0 p := (c.pcbs p).esp0
  head := c.pids
  activeTermId := c.activeTermId
  userPage := c.userPage
  tssEsp0 := c.tssEsp0
  stackPointer := if c.userMode then c.tssEsp0 - trapFrame else c.esp

def Machine.sessions (m : Machine) : Sessions := m.context.sessions

def Sessions.Alive (s : Sessions) (p : Nat) : Prop := p < maxProcess ∧ s.present p = true

/-- The process on top of a terminal's chain, and the base shell at its end. -/
def Sessions.headOf (s : Sessions) (t : Fin terminalCount) : Nat := s.head t

def baseOf (t : Fin terminalCount) : Nat := t

structure Scheduled (s : Sessions) : Prop where
  active : s.activeTermId < terminalCount
  forest : ∃ chains, Forest s.parent s.Alive s.headOf baseOf chains
  pid : ∀ p, s.Alive p → s.pid p = p
  esp0 : ∀ p, s.Alive p → s.esp0 p = stackTop p
  parentFrame : ∀ p q, s.Alive p → s.parent p = some q → SavedFrame q (s.parentEbp p)
  waiting : ∀ t, t < terminalCount → t ≠ s.activeTermId → SavedFrame (s.head t) (s.ebp (s.head t))
  stack : OnStack (s.head s.activeTermId) s.stackPointer
  userPage : s.userPage = 2 + s.head s.activeTermId
  tssEsp0 : s.tssEsp0 = stackTop (s.head s.activeTermId)

namespace Scheduled

variable {s : Sessions}

theorem head_alive (sched : Scheduled s) {t : Nat} (inside : t < terminalCount) :
    s.Alive (s.head t) := by
  obtain ⟨chains, forest⟩ := sched.forest
  exact forest.head_live ⟨t, inside⟩

theorem base_alive (sched : Scheduled s) {t : Nat} (inside : t < terminalCount) : s.Alive t := by
  obtain ⟨chains, forest⟩ := sched.forest
  exact forest.base_live ⟨t, inside⟩

theorem head_injective (sched : Scheduled s) {t u : Nat} (inside : t < terminalCount)
    (inside' : u < terminalCount) (same : s.head t = s.head u) : t = u := by
  obtain ⟨chains, forest⟩ := sched.forest
  exact congrArg Fin.val (forest.head_injective (i := ⟨t, inside⟩) (j := ⟨u, inside'⟩) same)

end Scheduled

/-! ## In the kernel -/

/-- Kernel code runs with its frame on the stack of the active terminal's
process. -/
structure InKernel (m : Machine) : Prop where
  sched : Scheduled m.sessions
  kernel : m.userMode = false
  frame : SavedFrame (m.terms m.activeTermId).pid m.esp

theorem InKernel.current {m : Machine} (inside : InKernel m) :
    m.getCurrentPcb = some (m.terms m.activeTermId).pid :=
  getCurrentPcb_of_onStack inside.frame.1

/-- A kernel stack pointer on the running process's stack keeps the invariant. -/
theorem Scheduled.onStack {m : Machine} (sched : Scheduled m.sessions) {esp : Nat}
    (on : OnStack (m.terms m.activeTermId).pid esp) :
    Scheduled ({ m with esp := esp, userMode := false } : Machine).sessions :=
  { sched with stack := on }

theorem inKernel_enter {m : Machine} {ebp : Nat} (sched : Scheduled m.sessions)
    (frame : m.Frame ebp) : InKernel { m with esp := ebp, userMode := false } := by
  obtain ⟨same, room⟩ := frame
  have stack : OnStack (m.terms m.activeTermId).pid m.stackPointer := sched.stack
  have on : OnStack (m.terms m.activeTermId).pid ebp := by
    rw [onStack_iff] at stack ⊢
    exact ⟨stack.1, same.trans stack.2⟩
  exact ⟨sched.onStack on, rfl, on, room⟩

/-- Back in user mode, the next trap takes the running process's stack. -/
theorem scheduled_iret {m : Machine} (sched : Scheduled m.sessions) :
    Scheduled ({ m with userMode := true } : Machine).sessions := by
  have inside := (sched.head_alive sched.active).1
  have trap := trap_onStack inside
  rw [← sched.tssEsp0] at trap
  exact { sched with stack := trap }

/-! ## The stores of the scheduler -/

theorem setPcb_sessions (m : Machine) (q : Nat) (pcb : Pcb) :
    (m.setPcb q pcb).sessions = { m.sessions with
      present := Function.update m.sessions.present q pcb.present
      pid := Function.update m.sessions.pid q pcb.pid
      parent := Function.update m.sessions.parent q pcb.parent
      ebp := Function.update m.sessions.ebp q pcb.ebp
      parentEbp := Function.update m.sessions.parentEbp q pcb.parentEbp
      esp0 := Function.update m.sessions.esp0 q pcb.esp0 } := by
  have field : ∀ {β : Type} (f : Pcb → β), (fun p => f (Function.update m.pcbs q pcb p)) =
      Function.update (fun p => f (m.pcbs p)) q (f pcb) := fun f =>
    Function.comp_update f m.pcbs q pcb
  simp only [sessions, context, Context.sessions, setPcb]
  rw [← field Pcb.present, ← field Pcb.pid, ← field Pcb.parent, ← field Pcb.ebp,
    ← field Pcb.parentEbp, ← field Pcb.esp0]
  rfl

theorem setTerm_sessions (m : Machine) (t : Nat) (term : Terminal) :
    (m.setTerm t term).sessions =
      { m.sessions with head := Function.update m.sessions.head t term.pid } := by
  have pids : (fun u => (Function.update m.terms t term u).pid) =
      Function.update (fun u => (m.terms u).pid) t term.pid :=
    Function.comp_update Terminal.pid m.terms t term
  simp only [sessions, context, Context.sessions, setTerm]
  rw [← pids]
  rfl

/-! ## execute -/

theorem launched_sessions (m : Machine) (pid : Nat) (parent : Option Nat) :
    (m.launched pid parent).sessions = { m.sessions with
      present := Function.update m.sessions.present pid true
      pid := Function.update m.sessions.pid pid pid
      parent := Function.update m.sessions.parent pid parent
      parentEbp := Function.update m.sessions.parentEbp pid m.esp
      esp0 := Function.update m.sessions.esp0 pid (stackTop pid)
      head := Function.update m.sessions.head m.activeTermId pid
      userPage := 2 + pid
      tssEsp0 := stackTop pid
      stackPointer := stackTop pid - trapFrame } := by
  have step : (m.launched pid parent).sessions = { ((m.setPcb pid { m.pcbs pid with
      present := true
      pid := pid
      parent := parent
      parentEbp := m.esp
      esp0 := stackTop pid
      files := startFiles (m.pcbs pid).files }).setTerm m.activeTermId
        { m.terms m.activeTermId with pid := pid }).sessions with
      userPage := 2 + pid
      tssEsp0 := stackTop pid
      stackPointer := stackTop pid - trapFrame } := rfl
  have kept : Function.update m.sessions.ebp pid (m.pcbs pid).ebp = m.sessions.ebp :=
    Function.update_eq_self pid _
  rw [step, setTerm_sessions, setPcb_sessions]
  simp only [kept]

/-- **A child goes on top** of the active terminal's chain. -/
theorem scheduled_child {m : Machine} {pid : Nat} (inside : InKernel m)
    (free : m.freePid = some pid) :
    Scheduled (m.launched pid (some (m.terms m.activeTermId).pid)).sessions := by
  have sched := inside.sched
  obtain ⟨low, absent, _⟩ := freePid_some free
  have fresh : ¬m.sessions.Alive pid := fun alive => by
    have present : (m.pcbs pid).present = true := alive.2
    simp [absent] at present
  have differ : ∀ p, m.sessions.Alive p → p ≠ pid := fun p alive same => fresh (same ▸ alive)
  obtain ⟨chains, forest⟩ := sched.forest
  rw [launched_sessions]
  have alive_iff : ∀ p, p < maxProcess ∧ Function.update m.sessions.present pid true p = true ↔
      m.sessions.Alive p ∨ p = pid := by
    intro p
    by_cases here : p = pid
    · subst here
      simp [low]
    · simp [here, Sessions.Alive]
  refine ⟨sched.active, ⟨_, forest.push (i := ⟨_, sched.active⟩) fresh (Function.update_self ..)
    (fun p alive => Function.update_of_ne (differ p alive) ..) (Function.update_self ..)
    (fun t other => ?_) alive_iff⟩, ?_, ?_, ?_, ?_, ?_, ?_, ?_⟩
  · exact Function.update_of_ne (fun same => other (Fin.ext same)) ..
  · intro p alive
    rcases (alive_iff p).1 alive with old | rfl
    · exact (Function.update_of_ne (differ p old) ..).trans (sched.pid p old)
    · exact Function.update_self ..
  · intro p alive
    rcases (alive_iff p).1 alive with old | rfl
    · exact (Function.update_of_ne (differ p old) ..).trans (sched.esp0 p old)
    · exact Function.update_self ..
  · intro p q alive up
    rcases (alive_iff p).1 alive with old | rfl
    · simp only [Function.update_of_ne (differ p old)] at up ⊢
      exact sched.parentFrame p q old up
    · simp only [Function.update_self, Option.some.injEq] at up ⊢
      exact up ▸ inside.frame
  · intro t low other
    have kept : Function.update m.sessions.head m.activeTermId pid t = m.sessions.head t :=
      Function.update_of_ne other ..
    simp only [kept]
    exact sched.waiting t low other
  · simp only [show m.sessions.activeTermId = m.activeTermId from rfl, Function.update_self]
    exact trap_onStack low
  · simp only [show m.sessions.activeTermId = m.activeTermId from rfl, Function.update_self]
  · simp only [show m.sessions.activeTermId = m.activeTermId from rfl, Function.update_self]

/-! ## halt -/

theorem released_sessions (m : Machine) (p : Nat) (rtc : Nat → Bool) (files : Nat → Nat → File) :
    (m.released p rtc files).sessions =
      { m.sessions with present := Function.update m.sessions.present p false } := by
  have refiled : ∀ m : Machine, (m.refiled rtc files).sessions = m.sessions := fun _ => rfl
  have self : ∀ {β : Type} (f : Pcb → β), Function.update (fun q => f (m.pcbs q)) p (f (m.pcbs p)) =
      fun q => f (m.pcbs q) := fun f => Function.update_eq_self p _
  have pids : Function.update m.sessions.head m.activeTermId (m.terms m.activeTermId).pid =
      m.sessions.head := Function.update_eq_self _ _
  rw [Machine.released, setTerm_sessions, refiled, setPcb_sessions]
  simp only [pids]
  simp only [sessions, context, Context.sessions, self Pcb.pid, self Pcb.parent, self Pcb.ebp,
    self Pcb.parentEbp, self Pcb.esp0]

/-- A base shell that halts is restarted in its own PCB: that is the lowest free
one, as the shells before it are always there. -/
theorem restarts_self {m : Machine} {pid : Nat} {parent : Option Nat} {rtc : Nat → Bool}
    {files : Nat → Nat → File} (inside : InKernel m)
    (base : (m.terms m.activeTermId).pid < terminalCount)
    (launches : Launches (m.released (m.terms m.activeTermId).pid rtc files) pid parent) :
    pid = (m.terms m.activeTermId).pid ∧ parent = none := by
  have sched := inside.sched
  obtain ⟨low, absent, before⟩ := freePid_some launches.free
  have present : ∀ q, ((m.released (m.terms m.activeTermId).pid rtc files).pcbs q).present =
      Function.update m.sessions.present (m.terms m.activeTermId).pid false q := fun q =>
    congrFun (congrArg Sessions.present (released_sessions m _ rtc files)) q
  have same : pid = (m.terms m.activeTermId).pid := by
    rcases Nat.lt_trichotomy pid (m.terms m.activeTermId).pid with less | same | more
    · have alive := (sched.base_alive (Nat.lt_trans less base)).2
      rw [present, Function.update_of_ne (Nat.ne_of_lt less), alive] at absent
      simp at absent
    · exact same
    · have still := before _ more
      rw [present, Function.update_self] at still
      simp at still
  refine ⟨same, ?_⟩
  rcases launches.parent with ⟨_, none'⟩ | ⟨high, _⟩
  · exact none'
  · omega

/-- **A restarted base shell** leaves the chains as they are. -/
theorem scheduled_restart {m : Machine} {rtc : Nat → Bool} {files : Nat → Nat → File}
    (inside : InKernel m) (base : (m.terms m.activeTermId).pid < terminalCount) :
    Scheduled ((m.released (m.terms m.activeTermId).pid rtc files).launched
      (m.terms m.activeTermId).pid none).sessions := by
  have sched := inside.sched
  obtain ⟨low, alive⟩ := sched.head_alive sched.active
  obtain ⟨chains, forest⟩ := sched.forest
  generalize top : (m.terms m.activeTermId).pid = h at base
  have head : m.sessions.head m.sessions.activeTermId = h := top
  rw [head] at low alive
  have root : m.sessions.parent h = none := forest.base_top ⟨h, base⟩
  have restored : Function.update (Function.update m.sessions.present h false) h true =
      m.sessions.present := by
    rw [Function.update_idem, ← alive, Function.update_eq_self]
  have parents : Function.update m.sessions.parent h none = m.sessions.parent := by
    rw [← root, Function.update_eq_self]
  have pids : Function.update m.sessions.pid h h = m.sessions.pid := by
    have self := Function.update_eq_self h m.sessions.pid
    rwa [sched.pid h ⟨low, alive⟩] at self
  have tops : Function.update m.sessions.esp0 h (stackTop h) = m.sessions.esp0 := by
    rw [← sched.esp0 h ⟨low, alive⟩, Function.update_eq_self]
  have heads : Function.update m.sessions.head m.activeTermId h = m.sessions.head := by
    rw [← head]
    exact Function.update_eq_self _ _
  rw [launched_sessions, released_sessions]
  have activeId : (m.released h rtc files).activeTermId = m.activeTermId := rfl
  have esp : (m.released h rtc files).esp = m.esp := rfl
  simp only [restored, parents, pids, tops, activeId, esp, heads]
  refine ⟨sched.active, ⟨chains, forest⟩, sched.pid, sched.esp0, fun p q alive up => ?_,
    sched.waiting, ?_, congrArg (2 + ·) head.symm, congrArg stackTop head.symm⟩
  · have other : p ≠ h := by
      rintro rfl
      rw [show m.sessions.parent p = some q from up] at root
      simp at root
    simp only [Function.update_of_ne other]
    exact sched.parentFrame p q alive up
  · show OnStack (m.sessions.head m.sessions.activeTermId) _
    rw [head]
    exact trap_onStack low

theorem returned_sessions {m m' : Machine} {p : Nat} {status : UInt8} {ended : Ended}
    (kernel : m.userMode = false) (ran : m.returnToParent p status = some (m', ended)) :
    ∃ q, m.sessions.parent p = some q ∧ m'.sessions = { m.sessions with
      head := Function.update m.sessions.head m.activeTermId (m.sessions.pid q)
      userPage := 2 + m.sessions.pid q
      tssEsp0 := m.sessions.esp0 q
      stackPointer := m.sessions.parentEbp p + 8 } := by
  obtain ⟨q, up, _, rfl⟩ := returnToParent_some ran
  refine ⟨q, up, ?_⟩
  generalize returned : m.setTerm m.activeTermId
    { m.terms m.activeTermId with pid := (m.pcbs q).pid } = mid
  have sessions := setTerm_sessions m m.activeTermId
    { m.terms m.activeTermId with pid := (m.pcbs q).pid }
  have mode : mid.userMode = false := by
    rw [← returned]
    exact kernel
  rw [returned] at sessions
  have step : ∀ page top ebp, (({ mid with
      userPage := page
      tssEsp0 := top
      exceptionOccurred := false } : Machine).leaveRet ebp).sessions =
      { mid.sessions with userPage := page, tssEsp0 := top, stackPointer := ebp + 8 } := by
    intro page top ebp
    simp [Machine.leaveRet, Machine.sessions, Machine.context, Context.sessions, mode]
  rw [step, sessions]
  rfl

/-- **A halted child leaves the chain** to its parent. -/
theorem scheduled_return {m m' : Machine} {rtc : Nat → Bool} {files : Nat → Nat → File}
    {status : UInt8} {ended : Ended} (inside : InKernel m)
    (ran : (m.released (m.terms m.activeTermId).pid rtc files).returnToParent
      (m.terms m.activeTermId).pid status = some (m', ended)) : Scheduled m'.sessions := by
  have sched := inside.sched
  obtain ⟨q, up, sessions⟩ := returned_sessions
    (show (m.released _ rtc files).userMode = false from inside.kernel) ran
  obtain ⟨low, alive⟩ := sched.head_alive sched.active
  obtain ⟨chains, forest⟩ := sched.forest
  generalize top : (m.terms m.activeTermId).pid = h at up sessions
  have head : m.sessions.head m.sessions.activeTermId = h := top
  rw [head] at low alive
  rw [released_sessions] at up sessions
  have parentAlive : m.sessions.Alive q := forest.parent_live ⟨low, alive⟩ up
  have up' : m.sessions.parent (m.sessions.headOf ⟨_, sched.active⟩) = some q := by
    rw [show m.sessions.headOf ⟨_, sched.active⟩ = h from head]
    exact up
  have activeId : (m.released h rtc files).activeTermId = m.sessions.activeTermId := rfl
  simp only [activeId, sched.pid q parentAlive, sched.esp0 q parentAlive] at sessions
  have alive_iff : ∀ p, p < maxProcess ∧ Function.update m.sessions.present h false p = true ↔
      m.sessions.Alive p ∧ p ≠ h := by
    intro p
    by_cases here : p = h
    · subst here
      simp
    · simp [here, Sessions.Alive]
  rw [sessions]
  refine ⟨sched.active, ⟨_, forest.pop (i := ⟨_, sched.active⟩) (q := q) up'
    (fun _ _ _ => rfl) (Function.update_self ..) (fun t other => ?_) ?_⟩, ?_, ?_, ?_, ?_, ?_, ?_, ?_⟩
  · exact Function.update_of_ne (fun same => other (Fin.ext same)) ..
  · intro p
    rw [show m.sessions.headOf ⟨_, sched.active⟩ = h from head]
    exact alive_iff p
  · exact fun p alive' => sched.pid p ((alive_iff p).1 alive').1
  · exact fun p alive' => sched.esp0 p ((alive_iff p).1 alive').1
  · exact fun p r alive' => sched.parentFrame p r ((alive_iff p).1 alive').1
  · intro t low' other
    have kept : Function.update m.sessions.head m.sessions.activeTermId q t = m.sessions.head t :=
      Function.update_of_ne other ..
    simp only [kept]
    exact sched.waiting t low' other
  · simp only [Function.update_self]
    exact (sched.parentFrame h q ⟨low, alive⟩ up).leave
  · simp only [Function.update_self]
  · simp only [Function.update_self]

theorem scheduled_halt {m m' : Machine} {status : UInt8} {magic : Nat → UInt8} {ended : Ended}
    (inside : InKernel m) (ran : m.halt status magic = some (m', ended)) :
    Scheduled m'.sessions := by
  obtain ⟨p, current, ended⟩ := halt_inv ran
  obtain rfl := Option.some.inj (inside.current.symm.trans current)
  rcases ended with ⟨base, pid, parent, launches, rfl, _⟩ | returned
  · rw [show (m.pcbs (m.terms m.activeTermId).pid).pid = (m.terms m.activeTermId).pid from
      inside.sched.pid _ (inside.sched.head_alive inside.sched.active)] at base
    obtain ⟨rfl, rfl⟩ := restarts_self inside base launches
    exact scheduled_restart inside base
  · exact scheduled_return inside returned

/-! ## The tick and the terminal switch -/

theorem scheduled_execute {m m' : Machine} {command : Option CString} {magic : Nat → UInt8}
    {ended : Ended} (inside : InKernel m) (ran : m.execute command magic = some (m', ended)) :
    Scheduled m'.sessions := by
  rcases execute_some ran with ⟨rfl, _⟩ | ⟨pid, parent, launches, rfl, _⟩
  · exact inside.sched
  · obtain ⟨low, absent, _⟩ := freePid_some launches.free
    rcases launches.parent with ⟨base, _⟩ | ⟨_, curr, current, rfl⟩
    · have present : (m.pcbs pid).present = true := (inside.sched.base_alive base).2
      simp [absent] at present
    · obtain rfl := Option.some.inj (inside.current.symm.trans current)
      exact scheduled_child inside launches.free

/-- The context but for the video pages. -/
theorem sessions_of_mapped {m mid : Machine} {frame : Nat}
    (same : mid.context = (m.mapVidmem frame).context) : mid.sessions = m.sessions :=
  (congrArg Context.sessions same).trans rfl

/-- What `switchTo` stores, when the process left is the running one. -/
theorem turned_sessions {m : Machine} (sched : Scheduled m.sessions) (kernel : m.userMode = false)
    {t : Nat} (low : t < terminalCount) (x : Nat) :
    ({ m.turned (m.sessions.head m.sessions.activeTermId) t with esp := x } : Machine).sessions =
      { m.sessions with
        ebp := Function.update m.sessions.ebp (m.sessions.head m.sessions.activeTermId) m.esp
        activeTermId := t
        tssEsp0 := stackTop (m.sessions.head t)
        userPage := 2 + m.sessions.head t
        stackPointer := x } := by
  have alive := sched.head_alive sched.active
  have next := sched.head_alive low
  have esp0 := sched.esp0 _ alive
  have top := sched.tssEsp0
  generalize m.sessions.head m.sessions.activeTermId = h at alive esp0 top ⊢
  have self : ∀ {β : Type} (f : Nat → β), Function.update f h (f h) = f := fun f =>
    Function.update_eq_self h f
  generalize stored : ({ m with activeTermId := t } : Machine).setPcb h
    { m.pcbs h with ebp := m.esp, esp0 := m.tssEsp0 } = s
  have sessions : s.sessions = { m.sessions with
      ebp := Function.update m.sessions.ebp h m.esp, activeTermId := t } := by
    have esp0s : Function.update m.sessions.esp0 h m.tssEsp0 = m.sessions.esp0 := by
      rw [show m.tssEsp0 = m.sessions.esp0 h from top.trans esp0.symm, self]
    rw [← stored, setPcb_sessions]
    change ({ m.sessions with
      present := Function.update m.sessions.present h (m.sessions.present h)
      pid := Function.update m.sessions.pid h (m.sessions.pid h)
      parent := Function.update m.sessions.parent h (m.sessions.parent h)
      ebp := Function.update m.sessions.ebp h m.esp
      parentEbp := Function.update m.sessions.parentEbp h (m.sessions.parentEbp h)
      esp0 := Function.update m.sessions.esp0 h m.tssEsp0
      activeTermId := t } : Sessions) = _
    simp only [self, esp0s]
  have mode : s.userMode = false := stored ▸ kernel
  have whole : ({ m.turned h t with esp := x } : Machine).sessions = { s.sessions with
      tssEsp0 := s.sessions.esp0 (m.sessions.head t)
      userPage := 2 + s.sessions.pid (m.sessions.head t)
      stackPointer := x } := by
    rw [← stored] at mode ⊢
    simp only [turned, switchTo, Machine.sessions, Machine.context, Context.sessions] at mode ⊢
    simp only [mode]
    rfl
  rw [whole, sessions]
  simp only [sched.esp0 _ next, sched.pid _ next]

/-- Control goes to terminal `t`: the frame pointer of the process left and that
of the process that goes on both stay on their stacks. -/
theorem scheduled_turn {m : Machine} (mid : Machine) {curr t : Nat} (inside : InKernel m)
    (same : mid.sessions = m.sessions) (kernel : mid.userMode = false) (esp : mid.esp = m.esp)
    (turns : Turns m mid curr t) (low : t < terminalCount) :
    SavedFrame (mid.terms t).pid ((mid.turned curr t).savedEbp t) ∧
      ∀ x, OnStack (mid.terms t).pid x → Scheduled ({ mid.turned curr t with esp := x }).sessions := by
  have sched : Scheduled mid.sessions := same.symm ▸ inside.sched
  obtain rfl := Option.some.inj (inside.current.symm.trans turns.current)
  have leaves : (m.terms m.activeTermId).pid = mid.sessions.head mid.sessions.activeTermId := by
    rw [same]
    rfl
  have frame : SavedFrame (mid.sessions.head mid.sessions.activeTermId) mid.esp := by
    rw [← leaves, esp]
    exact inside.frame
  rw [leaves]
  have stored := turned_sessions sched kernel low
  have saved : ∀ u, u < terminalCount → SavedFrame (mid.sessions.head u) (Function.update
      mid.sessions.ebp (mid.sessions.head mid.sessions.activeTermId) mid.esp
        (mid.sessions.head u)) := by
    intro u below
    by_cases active : u = mid.sessions.activeTermId
    · rw [active, Function.update_self]
      exact frame
    · have other : mid.sessions.head u ≠ mid.sessions.head mid.sessions.activeTermId := fun eq =>
        active (sched.head_injective below sched.active eq)
      rw [Function.update_of_ne other]
      exact sched.waiting u below active
  constructor
  · have ebp : (mid.turned (mid.sessions.head mid.sessions.activeTermId) t).savedEbp t =
        Function.update mid.sessions.ebp (mid.sessions.head mid.sessions.activeTermId) mid.esp
          (mid.sessions.head t) := congrFun (congrArg Sessions.ebp (stored 0)) (mid.sessions.head t)
    rw [ebp]
    exact saved t low
  · intro x on
    rw [stored x]
    exact ⟨low, sched.forest, sched.pid, sched.esp0, sched.parentFrame, fun u below _ => saved u below,
      on, rfl, rfl⟩

theorem scheduled_pitHandler {m m' : Machine} {magic : Nat → UInt8} {ended : Ended}
    (inside : InKernel m) (ran : m.pitHandler magic = some (m', ended)) :
    Scheduled m'.sessions := by
  obtain ⟨curr, mid, m₁, rfl, turns, rfl, ended⟩ := pitHandler_some ran
  have screen := turnScreen_context m m.nextTermId
  have low : m.nextTermId < terminalCount := Nat.mod_lt _ (by decide)
  obtain ⟨saved, sched⟩ := scheduled_turn _ inside (sessions_of_mapped screen)
    ((congrArg Context.userMode screen).trans inside.kernel) (congrArg Context.esp screen) turns low
  rcases ended with ⟨_, halted⟩ | ⟨rfl, _⟩
  · refine scheduled_halt ⟨sched _ saved.1, ?_, saved⟩ halted
    exact (congrArg Context.userMode screen).trans inside.kernel
  · exact sched _ saved.leave

theorem scheduled_switchTerminal {m m' : Machine} {t : Nat} {ended : Ended} (inside : InKernel m)
    (low : t < terminalCount) (ran : m.switchTerminal t = some (m', ended)) :
    Scheduled m'.sessions := by
  rcases switchTerminal_some ran with ⟨_, rfl⟩ | ⟨curr, mid, m₁, _, swapped, turns, rfl, rfl, _⟩
  · exact inside.sched
  · have screen := swapScreens_context swapped
    obtain ⟨saved, sched⟩ := scheduled_turn { mid with shownTermId := t } inside
      (show mid.sessions = m.sessions from sessions_of_mapped screen) ((congrArg Context.userMode screen).trans inside.kernel)
      (congrArg Context.esp screen) ⟨turns.current, turns.inside⟩ low
    exact sched _ saved.leave

/-! ## Steps and runs -/

theorem sessions_of_drawn {m m' : Machine} (drawn : Drawn m m') : m'.sessions = m.sessions :=
  congrArg Context.sessions drawn

theorem vidmapped_sessions (m : Machine) (p : Nat) :
    (m.setPcb p { m.pcbs p with vidmap := true }).sessions = m.sessions := by
  have self : ∀ {β : Type} (f : Nat → β), Function.update f p (f p) = f := fun f =>
    Function.update_eq_self p f
  rw [setPcb_sessions]
  change ({ m.sessions with
    present := Function.update m.sessions.present p (m.sessions.present p)
    pid := Function.update m.sessions.pid p (m.sessions.pid p)
    parent := Function.update m.sessions.parent p (m.sessions.parent p)
    ebp := Function.update m.sessions.ebp p (m.sessions.ebp p)
    parentEbp := Function.update m.sessions.parentEbp p (m.sessions.parentEbp p)
    esp0 := Function.update m.sessions.esp0 p (m.sessions.esp0 p) } : Sessions) = _
  simp only [self]

theorem scheduled_run {m m' : Machine} {body : KernelCall} {ended : Ended} (inside : InKernel m)
    (ran : body.run m = some (m', ended)) : Scheduled m'.sessions := by
  cases body with
  | execute command magic => exact scheduled_execute inside ran
  | halt status magic => exact scheduled_halt inside ran
  | raise vector address =>
      obtain ⟨_, raised, same⟩ := Option.map_eq_some_iff.1 ran
      cases same
      obtain ⟨mid, drawn, rfl⟩ := raise_some raised
      have sched : Scheduled mid.sessions := (sessions_of_drawn drawn).symm ▸ inside.sched
      exact sched
  | pitHandler magic => exact scheduled_pitHandler inside ran
  | keyboardHandler scancode =>
      rcases keyboardHandler_some ran with ⟨t, low, switched⟩ | ⟨typed, _⟩
      · exact scheduled_switchTerminal inside low switched
      · exact (sessions_of_drawn (typeKey_drawn typed)).symm ▸ inside.sched
  | vidmap start =>
      obtain ⟨⟨next, v⟩, mapped, same⟩ := Option.map_eq_some_iff.1 ran
      cases same
      rcases vidmap_some mapped with ⟨rfl, _⟩ | ⟨curr, _, _, rfl⟩
      · exact inside.sched
      · have sched : Scheduled (m.setPcb curr { m.pcbs curr with vidmap := true }).sessions :=
          (vidmapped_sessions m curr).symm ▸ inside.sched
        exact sched
  | putc c =>
      obtain ⟨_, drew, same⟩ := Option.map_eq_some_iff.1 ran
      cases same
      exact (sessions_of_drawn (putc_drawn drew)).symm ▸ inside.sched

/-- **Every kernel entry keeps the invariant.** -/
theorem scheduled_step {m m' : Machine} {e : KernelEvent} (sched : Scheduled m.sessions)
    (step : kernelStep m e = some m') : Scheduled m'.sessions := by
  cases e with
  | call ebp body =>
      obtain ⟨frame, ended, ran⟩ := kernelStep_call.1 step
      exact scheduled_run (inKernel_enter sched frame) ran
  | iret =>
      obtain rfl := Option.some.inj step
      exact scheduled_iret sched

/-! ## From initiate_shells on -/

/-- A base shell as `initiate_shells` leaves it. -/
structure Fresh (s : Sessions) (p : Nat) : Prop where
  present : s.present p = true
  pid : s.pid p = p
  parent : s.parent p = none
  esp0 : s.esp0 p = stackTop p
  ebp : s.ebp p = stackTop p - shellFrame
  head : s.head p = p

/-- Three base shells and no other process. -/
theorem scheduled_of_fresh {s : Sessions} (fresh : ∀ p, p < terminalCount → Fresh s p)
    (alive_iff : ∀ p, s.Alive p ↔ p < terminalCount) (active : s.activeTermId = 0)
    (stack : OnStack 0 s.stackPointer) (userPage : s.userPage = 2) (tssEsp0 : s.tssEsp0 = stackTop 0) :
    Scheduled s := by
  have head : s.head 0 = 0 := (fresh 0 (by decide)).head
  constructor
  · rw [active]
    decide
  · refine ⟨fun t => [(t : Nat)], ⟨fun t => ?_, fun t u p mem mem' => ?_, fun p => ?_⟩⟩
    · rw [show s.headOf t = t from (fresh t t.isLt).head]
      exact .root (fresh t t.isLt).parent
    · exact Fin.ext ((List.mem_singleton.1 mem).symm.trans (List.mem_singleton.1 mem'))
    · rw [alive_iff]
      exact ⟨fun low => ⟨⟨p, low⟩, List.mem_singleton.2 rfl⟩, fun ⟨t, mem⟩ =>
        List.mem_singleton.1 mem ▸ t.isLt⟩
  · exact fun p alive => (fresh p ((alive_iff p).1 alive)).pid
  · exact fun p alive => (fresh p ((alive_iff p).1 alive)).esp0
  · intro p q alive up
    rw [(fresh p ((alive_iff p).1 alive)).parent] at up
    simp at up
  · intro t low _
    rw [(fresh t low).head, (fresh t low).ebp]
    exact shell_savedFrame (Nat.lt_trans low (by decide))
  · rw [active, head]
    exact stack
  · rw [active, head, userPage]
  · rw [active, head, tssEsp0]

theorem startShells_fresh (m : Machine) {p : Nat} (low : p < terminalCount) :
    Fresh m.startShells.sessions p := by
  simp only [terminalCount] at low
  obtain rfl | rfl | rfl : p = 0 ∨ p = 1 ∨ p = 2 := by omega
  all_goals exact ⟨rfl, rfl, rfl, rfl, rfl, rfl⟩

theorem startShells_present (m : Machine) {p : Nat} (high : terminalCount ≤ p) :
    m.startShells.sessions.present p = (m.pcbs p).present := by
  simp only [terminalCount] at high
  have apart : p ≠ 0 ∧ p ≠ 1 ∧ p ≠ 2 := by omega
  simp [startShells, setUpShell, Machine.sessions, Machine.context, Context.sessions, leaveRet,
    setScreenCoordinate, setPcb, setTerm, apart]

theorem scheduled_start {m : Machine} (booted : m.Booted) :
    Scheduled m.mapTerminals.startShells.sessions := by
  have fresh := fun p (low : p < terminalCount) => startShells_fresh m.mapTerminals low
  have alive_iff : ∀ p, m.mapTerminals.startShells.sessions.Alive p ↔ p < terminalCount := by
    intro p
    constructor
    · rintro ⟨low, present⟩
      by_contra high
      have absent : (m.mapTerminals.pcbs p).present = false := booted.absent p low
      rw [startShells_present _ (Nat.le_of_not_lt high), absent] at present
      simp at present
    · exact fun low => ⟨Nat.lt_trans low (by decide), (fresh p low).present⟩
  have active : m.mapTerminals.startShells.activeTermId = 0 :=
    (start_activeTermId m).trans booted.active
  have esp : m.mapTerminals.startShells.esp = stackTop 0 - shellFrame + 8 := rfl
  have userPage : m.mapTerminals.startShells.userPage = 2 := rfl
  have tssEsp0 : m.mapTerminals.startShells.tssEsp0 = stackTop 0 := rfl
  refine scheduled_of_fresh fresh alive_iff active ?_ userPage tssEsp0
  show OnStack 0 m.mapTerminals.startShells.esp
  rw [esp]
  decide

/-- Coherence of processes and terminals: the running process is the active
terminal's; the parent pointers make one chain for each terminal, disjoint and
with every present PCB; the user page and `tss.esp0` are the running process's. -/
structure Coherent (m : Machine) : Prop where
  running : m.running = some (m.terms m.activeTermId).pid
  chains : ∃ chains : Fin terminalCount → List Nat, Forest (fun p => (m.pcbs p).parent)
    (fun p => p < maxProcess ∧ (m.pcbs p).present = true)
    (fun t : Fin terminalCount => (m.terms t).pid) (fun t : Fin terminalCount => (t : Nat)) chains
  userPage : m.userPage = 2 + (m.pcbs (m.terms m.activeTermId).pid).pid
  tssEsp0 : m.tssEsp0 = (m.pcbs (m.terms m.activeTermId).pid).esp0

theorem coherent_of_scheduled {m : Machine} (sched : Scheduled m.sessions) : Coherent m := by
  have alive := sched.head_alive sched.active
  have stack : OnStack (m.terms m.activeTermId).pid ({ m with esp := m.stackPointer } : Machine).esp :=
    sched.stack
  refine ⟨getCurrentPcb_of_onStack stack, sched.forest, ?_, ?_⟩
  · exact sched.userPage.trans (congrArg (2 + ·) (sched.pid _ alive).symm)
  · exact sched.tssEsp0.trans (sched.esp0 _ alive).symm

/-- A file system with one file, the four bytes of an executable named "shell". -/
def shellFs : Fs :=
  { Fs.empty with
    bootBlock := { Fs.empty.bootBlock with
      dentryCount := 1
      dentries := fun _ => ⟨dentryName shellName, 2, 0, fun _ => 0⟩ }
    inodeBlocks := fun _ => ⟨4, fun _ => 0⟩
    dataBlocks := fun _ => leByte executableMagic }

/-- The three shells on that file system. -/
def shells : Machine := (mounted shellFs).mapTerminals.startShells

theorem shells_started :
    (mounted shellFs).initiateShells (fun _ => 0) = some (shells, true) := by
  have executable : checkExecutable (mounted shellFs).mapTerminals.fs shellName (fun _ => 0) =
      some true := rfl
  simp only [initiateShells, executable]
  rfl

end Illinix.Kernel
