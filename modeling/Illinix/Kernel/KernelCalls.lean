/-
# Kernel.KernelCalls -- what each call that may switch processes can do

`KernelEvent`s are the entries of the kernel: `execute`, `halt`, an exception
handler up to its `halt`, the timer tick, the keyboard, `vidmap` and `putc`, each
with the frame pointer it runs at; and the return to user mode.  A process in the
kernel may be interrupted there, so an event's frame may lie on a stack that is
in use; `enterKernel` says on which.

As in `FileCalls`, one inversion lemma for each call says all the call can do.
-/
import Illinix.Kernel.Keyboard
import Illinix.Theory.Run

namespace Illinix.Kernel

open Illinix.FileSys Illinix.Theory

set_option autoImplicit false

/-! ## Events -/

inductive KernelCall where
  | execute (command : Option CString) (magic : Nat → UInt8)
  | halt (status : UInt8) (magic : Nat → UInt8)
  | raise (vector address : Nat)
  | pitHandler (magic : Nat → UInt8)
  | keyboardHandler (scancode : Nat)
  | vidmap (start : Nat)
  | putc (c : UInt8)

def KernelCall.run (m : Machine) : KernelCall → Switch
  | .execute command magic => m.execute command magic
  | .halt status magic => m.halt status magic
  | .raise vector address => (m.raise vector address).map (·, .returned 0)
  | .pitHandler magic => m.pitHandler magic
  | .keyboardHandler scancode => m.keyboardHandler scancode
  | .vidmap start => (m.vidmap start).map fun r => (r.1, .returned r.2)
  | .putc c => (m.putc c).map (·, .returned 0)

inductive KernelEvent where
  | call (ebp : Nat) (call : KernelCall)
  | iret

def KernelEvent.run (m : Machine) : KernelEvent → Switch
  | .call ebp body => do
      let m ← m.enterKernel ebp
      body.run m
  | .iret => some ({ m with userMode := true }, .user)

def kernelStep (m : Machine) (e : KernelEvent) : Option Machine := (e.run m).map Prod.fst

theorem kernelStep_call {m m' : Machine} {ebp : Nat} {body : KernelCall} :
    kernelStep m (.call ebp body) = some m' ↔ m.Frame ebp ∧
      ∃ ended, body.run { m with esp := ebp, userMode := false } = some (m', ended) := by
  simp only [kernelStep, KernelEvent.run, Machine.enterKernel, Option.map_eq_some_iff,
    Option.bind_eq_bind, Option.bind_eq_some_iff, Prod.exists, exists_and_right, exists_eq_right]
  constructor
  · rintro ⟨ended, mid, entered, ran⟩
    split_ifs at entered with frame
    obtain rfl := Option.some.inj entered
    exact ⟨frame, ended, ran⟩
  · rintro ⟨frame, ended, ran⟩
    exact ⟨ended, _, if_pos frame, ran⟩

/-- The descriptors of `fds` closed. -/
def closeEach (files : Nat → File) (fds : List Nat) (fd : Nat) : File :=
  if fd ∈ fds then { files fd with present := false } else files fd

namespace Machine

variable {m m' : Machine} {magic : Nat → UInt8} {ended : Ended}

/-! ## execute -/

/-- `execute` starts `pid`: it is the lowest free one, and its parent is the
current process, or nothing for a base shell. -/
structure Launches (m : Machine) (pid : Nat) (parent : Option Nat) : Prop where
  free : m.freePid = some pid
  parent : (pid < terminalCount ∧ parent = none) ∨
    (terminalCount ≤ pid ∧ ∃ curr, m.getCurrentPcb = some curr ∧ parent = some curr)

theorem execute_some {command : Option CString}
    (ran : m.execute command magic = some (m', ended)) :
    (m' = m ∧ ended = .returned (-1)) ∨
      ∃ pid parent, Launches m pid parent ∧ m' = m.launched pid parent ∧ ended = .user := by
  simp only [execute] at ran
  split at ran
  · cases ran
    exact Or.inl ⟨rfl, rfl⟩
  · obtain ⟨executable, _, ran⟩ := Option.bind_eq_some_iff.1 ran
    split at ran
    · split at ran
      · cases ran
        exact Or.inl ⟨rfl, rfl⟩
      · rename_i pid free
        split_ifs at ran with low
        · cases ran
          exact Or.inr ⟨pid, none, ⟨free, Or.inl ⟨low, rfl⟩⟩, rfl, rfl⟩
        · obtain ⟨curr, current, ran⟩ := Option.bind_eq_some_iff.1 ran
          cases ran
          exact Or.inr ⟨pid, some curr,
            ⟨free, Or.inr ⟨Nat.le_of_not_lt low, curr, current, rfl⟩⟩, rfl, rfl⟩
    · cases ran
      exact Or.inl ⟨rfl, rfl⟩

/-- The lowest free PCB. -/
theorem freePid_some {pid : Nat} (free : m.freePid = some pid) :
    pid < maxProcess ∧ (m.pcbs pid).present = false ∧
      ∀ q, q < pid → (m.pcbs q).present = true := by
  rw [freePid, List.find?_range_eq_some] at free
  obtain ⟨absent, inside, before⟩ := free
  exact ⟨by simpa using inside, by simpa using absent, fun q below => by simpa using before q below⟩

/-! ## halt -/

/-- The PCBs with other files and RTC flags. -/
def refiled (m : Machine) (rtc : Nat → Bool) (files : Nat → Nat → File) : Machine :=
  { m with pcbs := fun q => { m.pcbs q with rtc := rtc q, files := files q } }

/-- The machine once `halt` has given up the PCB of `p` and is done with its files. -/
def released (m : Machine) (p : Nat) (rtc : Nat → Bool) (files : Nat → Nat → File) : Machine :=
  ((m.setPcb p { m.pcbs p with present := false, vidmap := false, rtc := false }).refiled rtc
    files).setTerm m.activeTermId { m.terms m.activeTermId with toBeHalt := false }

/-- The machine once `halt` has given up the PCB and the files of process `p`. -/
def givenUp (m : Machine) (p : Nat) : Machine :=
  m.released p (Function.update (fun q => (m.pcbs q).rtc) p false)
    (Function.update (fun q => (m.pcbs q).files) p
      (closeEach (m.pcbs p).files [2, 3, 4, 5, 6, 7]))

theorem closeEach_cons (files : Nat → File) (i : Nat) (rest : List Nat) :
    closeEach (Function.update files i { files i with present := false }) rest =
      closeEach files (i :: rest) := by
  funext fd
  simp only [closeEach, List.mem_cons, Function.update_apply]
  by_cases here : fd = i
  · subst here
    simp
  · simp [here]

/-- Closing a descriptor that is not present changes nothing. -/
theorem closeEach_absent {files : Nat → File} {i : Nat} (absent : (files i).present = false)
    (rest : List Nat) : closeEach files (i :: rest) = closeEach files rest := by
  rw [← closeEach_cons, show ({ files i with present := false } : File) = files i by rw [← absent],
    Function.update_eq_self]

/-- With the RTC flag off already, a driver's close changes nothing. -/
theorem opsClose_off {p : Nat} (current : m.getCurrentPcb = some p) (off : (m.pcbs p).rtc = false)
    (ops : FileOps) : ∃ v, m.opsClose ops = some (m, v) := by
  cases ops with
  | rtc =>
      refine ⟨0, ?_⟩
      simp only [opsClose, rtcClose, current, Option.bind_eq_bind, Option.bind_some]
      rw [show ({ m.pcbs p with rtc := false } : Pcb) = m.pcbs p by rw [← off], setPcb,
        Function.update_eq_self]
  | null | stdin | stdout | file | dir => exact ⟨_, rfl⟩

/-- The loop of `halt` over the descriptors. -/
theorem closeFiles_eq {p : Nat} (fds : List Nat) : ∀ {m : Machine}, m.getCurrentPcb = some p →
    (m.pcbs p).rtc = false → closeFiles p fds m =
      some (m.setPcb p { m.pcbs p with files := closeEach (m.pcbs p).files fds }) := by
  induction fds with
  | nil =>
      intro m _ _
      show some m = some (m.setPcb p (m.pcbs p))
      rw [setPcb, Function.update_eq_self]
  | cons i rest ih =>
      intro m current off
      rw [closeFiles]
      split_ifs with present
      · obtain ⟨v, closed⟩ := opsClose_off current off ((m.pcbs p).files i).ops
        have current' : (m.setFile p i { (m.pcbs p).files i with present := false }).getCurrentPcb =
            some p := current
        have later := ih current' (by simpa [setFile, setPcb_same] using off)
        simp only [closed, Option.bind_eq_bind, Option.bind_some, later]
        simp [setFile, setPcb, closeEach_cons]
      · rw [closeEach_absent (by simpa using present)]
        exact ih current off

theorem returnToParent_some {p : Nat} {status : UInt8}
    (ran : m.returnToParent p status = some (m', ended)) :
    ∃ q, (m.pcbs p).parent = some q ∧
      ended = .delivered q p (if m.exceptionOccurred then 256 else status.toNat) ∧
      m' = (({ m.setTerm m.activeTermId { m.terms m.activeTermId with pid := (m.pcbs q).pid } with
        userPage := 2 + (m.pcbs q).pid
        tssEsp0 := (m.pcbs q).esp0
        exceptionOccurred := false } : Machine).leaveRet (m.pcbs p).parentEbp) := by
  obtain ⟨q, up, ran⟩ := Option.bind_eq_some_iff.1 ran
  refine ⟨q, up, ?_⟩
  by_cases flag : m.exceptionOccurred
  · simp only [flag, setTerm, if_true, Option.some.injEq, Prod.mk.injEq] at ran ⊢
    obtain ⟨rfl, rfl⟩ := ran
    exact ⟨rfl, rfl⟩
  · simp only [Bool.not_eq_true] at flag
    simp only [flag, setTerm, Bool.false_eq_true, if_false, Option.some.injEq, Prod.mk.injEq] at ran ⊢
    obtain ⟨rfl, rfl⟩ := ran
    exact ⟨rfl, by rw [← flag]⟩

theorem released_setPcb (m : Machine) (p : Nat) (rtc : Nat → Bool) (files : Nat → Nat → File) :
    (m.released p rtc files).setPcb p { (m.released p rtc files).pcbs p with present := false } =
      m.released p rtc files := by
  have same : ({ (m.released p rtc files).pcbs p with present := false } : Pcb) =
      (m.released p rtc files).pcbs p := by
    simp [released, setTerm, refiled, setPcb]
  rw [same, setPcb, Function.update_eq_self]

/-- `halt` once the files are closed. -/
theorem halt_of_closed {p : Nat} {status : UInt8} {rtc : Nat → Bool} {files : Nat → Nat → File}
    (current : m.getCurrentPcb = some p)
    (closed : closeFiles p [2, 3, 4, 5, 6, 7]
      (m.setPcb p { m.pcbs p with present := false, vidmap := false, rtc := false }) =
        some ((m.setPcb p { m.pcbs p with present := false, vidmap := false, rtc := false }).refiled
          rtc files)) :
    m.halt status magic =
      if (m.pcbs p).pid < terminalCount then
        ((m.released p rtc files).execute (some shellName) magic).bind (restarted p status)
      else (m.released p rtc files).returnToParent p status := by
  have pid : ((m.released p rtc files).pcbs p).pid = (m.pcbs p).pid := by
    simp [released, setTerm, refiled, setPcb]
  simp only [halt, current, closed, Option.bind_eq_bind, Option.bind_some]
  change (if ((m.released p rtc files).pcbs p).pid < terminalCount then
    (execute ((m.released p rtc files).setPcb p
      { (m.released p rtc files).pcbs p with present := false }) (some shellName) magic).bind
        (restarted p status)
    else (m.released p rtc files).returnToParent p status) = _
  rw [released_setPcb, pid]

/-- **halt** gives up the process; then a base shell is started again, or the
parent goes on. -/
theorem halt_eq {p : Nat} (current : m.getCurrentPcb = some p) (status : UInt8)
    (magic : Nat → UInt8) :
    m.halt status magic = if (m.pcbs p).pid < terminalCount then
        ((m.givenUp p).execute (some shellName) magic).bind (restarted p status)
      else (m.givenUp p).returnToParent p status := by
  generalize off : m.setPcb p { m.pcbs p with present := false, vidmap := false, rtc := false } = gone
  have current' : gone.getCurrentPcb = some p := by
    rw [← off]
    exact current
  have pcb : gone.pcbs p = { m.pcbs p with present := false, vidmap := false, rtc := false } := by
    rw [← off, setPcb_same]
  have closed := closeFiles_eq [2, 3, 4, 5, 6, 7] current' (by rw [pcb])
  have shape : gone.setPcb p { gone.pcbs p with
      files := closeEach (gone.pcbs p).files [2, 3, 4, 5, 6, 7] } =
        gone.refiled (Function.update (fun q => (m.pcbs q).rtc) p false)
          (Function.update (fun q => (m.pcbs q).files) p
            (closeEach (m.pcbs p).files [2, 3, 4, 5, 6, 7])) := by
    rw [pcb, ← off]
    simp only [setPcb, refiled]
    congr 1
    funext q
    by_cases here : q = p
    · subst here
      simp
    · simp [here]
  rw [shape, ← off] at closed
  exact halt_of_closed current closed

theorem halt_inv {status : UInt8} (ran : m.halt status magic = some (m', ended)) :
    ∃ p, m.getCurrentPcb = some p ∧
      (((m.pcbs p).pid < terminalCount ∧ ∃ pid parent, Launches (m.givenUp p) pid parent ∧
          m' = (m.givenUp p).launched pid parent ∧ ended = .user) ∨
        (m.givenUp p).returnToParent p status = some (m', ended)) := by
  obtain ⟨p, current, _⟩ := Option.bind_eq_some_iff.1 ran
  refine ⟨p, current, ?_⟩
  rw [halt_eq current] at ran
  split_ifs at ran with base
  · obtain ⟨⟨next, how⟩, started, rest⟩ := Option.bind_eq_some_iff.1 ran
    rcases execute_some started with ⟨rfl, rfl⟩ | ⟨pid, parent, launches, rfl, rfl⟩
    · exact Or.inr rest
    · cases rest
      exact Or.inl ⟨base, pid, parent, launches, rfl, rfl⟩
  · exact Or.inr ran

/-! ## The tick and the terminal switch -/

def nextTermId (m : Machine) : Nat := (m.activeTermId + 1) % terminalCount

/-- The machine with terminal `t` active, before its process goes on. -/
def turned (m : Machine) (curr t : Nat) : Machine :=
  { m with activeTermId := t }.switchTo curr (m.terms t).pid

/-- Control goes from `curr` to the process of terminal `t`, the screen part
having made `mid` of `m`. -/
structure Turns (m mid : Machine) (curr t : Nat) : Prop where
  current : m.getCurrentPcb = some curr
  inside : (mid.terms t).pid < maxProcess

/-- The frame pointer the process of terminal `t` was left with. -/
def savedEbp (m : Machine) (t : Nat) : Nat := (m.pcbs (m.terms t).pid).ebp

theorem pitHandler_some (ran : m.pitHandler magic = some (m', ended)) :
    ∃ curr mid m₁, mid = m.turnScreen m.nextTermId ∧ Turns m mid curr m.nextTermId ∧
      m₁ = mid.turned curr m.nextTermId ∧
      (((mid.terms m.nextTermId).toBeHalt ∧
          { m₁ with esp := m₁.savedEbp m.nextTermId }.halt 6 magic = some (m', ended)) ∨
        (m' = m₁.leaveRet (m₁.savedEbp m.nextTermId) ∧ ended = .resumed)) := by
  simp only [pitHandler, Option.bind_eq_bind, Option.bind_eq_some_iff] at ran
  obtain ⟨curr, current, ran⟩ := ran
  split at ran
  · rename_i inside
    have esp : (m.turnScreen m.nextTermId).esp = m.esp :=
      congrArg Context.esp (turnScreen_context m m.nextTermId)
    have current' : m.getCurrentPcb = some curr := by
      rw [← current]
      exact (getCurrentPcb_congr esp).symm
    refine ⟨curr, _, _, rfl, ⟨current', inside⟩, rfl, ?_⟩
    split at ran
    · rename_i halts
      exact Or.inl ⟨halts, ran⟩
    · cases ran
      exact Or.inr ⟨rfl, rfl⟩
  · simp at ran

theorem switchTerminal_some {t : Nat} (ran : m.switchTerminal t = some (m', ended)) :
    (t = m.shownTermId ∧ m' = m) ∨
      ∃ curr mid m₁, t ≠ m.shownTermId ∧ m.swapScreens t = some mid ∧ Turns m mid curr t ∧
        m₁ = { mid with shownTermId := t }.turned curr t ∧
        m' = m₁.leaveRet (m₁.savedEbp t) ∧ ended = .resumed := by
  simp only [switchTerminal] at ran
  split_ifs at ran with shown
  · cases ran
    exact Or.inl ⟨shown, rfl⟩
  · simp only [Option.bind_eq_bind, Option.bind_eq_some_iff] at ran
    obtain ⟨mid, swapped, curr, current, ran⟩ := ran
    have esp : mid.esp = m.esp := congrArg Context.esp (swapScreens_context swapped)
    rw [getCurrentPcb_congr esp] at current
    split at ran
    · rename_i inside
      cases ran
      exact Or.inr ⟨curr, mid, _, shown, swapped, ⟨current, inside⟩, rfl, rfl, rfl⟩
    · simp at ran

theorem keyboardHandler_some {scancode : Nat} (ran : m.keyboardHandler scancode = some (m', ended)) :
    (∃ t, t < terminalCount ∧ m.switchTerminal t = some (m', ended)) ∨
      (m.typeKey scancode = some m' ∧ ended = .returned 0) := by
  simp only [keyboardHandler] at ran
  split_ifs at ran with switches
  · refine Or.inl ⟨_, ?_, ran⟩
    simp only [scF1, scF3, terminalCount] at switches ⊢
    omega
  · obtain ⟨mid, typed, same⟩ := Option.map_eq_some_iff.1 ran
    cases same
    exact Or.inr ⟨typed, rfl⟩

/-! ## vidmap and the exception handlers -/

theorem vidmap_some {start : Nat} {v : Int} (ran : m.vidmap start = some (m', v)) :
    (m' = m ∧ v = -1) ∨ ∃ curr, m.getCurrentPcb = some curr ∧ v = 0 ∧
      m' = { m.setPcb curr { m.pcbs curr with vidmap := true } with
        userVidmem := ⟨true, if m.activeTermId = m.shownTermId then vidmemIndex
          else vidmemIndex + (m.pcbs curr).pid + 2⟩ } := by
  simp only [vidmap] at ran
  split_ifs at ran
  · cases ran
    exact Or.inl ⟨rfl, rfl⟩
  all_goals
    obtain ⟨curr, current, ran⟩ := Option.bind_eq_some_iff.1 ran
    cases ran
    refine Or.inr ⟨curr, current, rfl, ?_⟩
    simp_all [setPcb]

theorem raise_some {vector address : Nat} (ran : m.raise vector address = some m') :
    ∃ mid, Drawn m mid ∧ m' = { mid with exceptionOccurred := true } := by
  simp only [raise, Option.bind_eq_bind, Option.bind_eq_some_iff] at ran
  obtain ⟨_, _, mid, drew, ran⟩ := ran
  exact ⟨mid, puts_drawn _ drew, (Option.some.inj ran).symm⟩

end Machine

end Illinix.Kernel
