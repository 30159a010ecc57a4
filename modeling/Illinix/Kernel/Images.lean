/-
# Kernel.Images -- the memory of the processes

Each process has 4 MB of memory for its image.  `Computer` puts it beside the machine:
the running process stores to it through the page tables, `execute` copies the
program there, and system calls store what they return through the caller's
pointer, with no check of it.

`images_kept` says that the images are apart all the same: while a process neither
runs nor ends, no step of any run changes a byte of its image.  `program_loaded`
says what `execute` puts in an image.
-/
import Illinix.Kernel.UserPages
import Illinix.Kernel.Executables
import Illinix.Kernel.VideoPresence

namespace Illinix.Kernel

open Illinix.FileSys Illinix.Theory Machine
open Illinix.Memory (Layout pagingCount)
open Illinix.Memory.Paging (translate userTranslate)

set_option autoImplicit false

def programImage : Nat := 0x08048000
def programImageLimit : Nat := 0x3B8000
def pageBytes : Nat := 4096

/-- The machine and the images, by physical address. -/
structure Computer where
  machine : Machine
  ram : Nat → UInt8

/-- The bytes of the image of process `p`. -/
def InImage (p a : Nat) : Prop := a / (pagingCount * pageBytes) = 2 + p

/-- Where the program lies in the image of process `p`. -/
def programBase (p : Nat) : Nat := (2 + p) * (pagingCount * pageBytes) + programImage % (pagingCount * pageBytes)

/-- A byte of a frame of the first 4 MB. -/
def Bus.setByte (b : Bus) (frame offset : Nat) (v : UInt8) : Bus :=
  let cell := b.frames frame (offset / 2)
  b.setCell frame (offset / 2) (if offset % 2 = 0 then { cell with ch := v } else { cell with attr := v })

namespace Computer

/-- A store to physical memory; one to the kernel's own 4 MB leaves the model. -/
def storeByte (c : Computer) (frame offset : Nat) (v : UInt8) : Option Computer :=
  if frame / pagingCount = 0 then
    some { c with machine := { c.machine with
      screen := { c.machine.screen with vid := c.machine.screen.vid.setByte frame offset v } } }
  else if frame / pagingCount = 1 then none
  else some { c with ram := Function.update c.ram (frame * pageBytes + offset) v }

/-- A store of kernel code. -/
def kernelStore (l : Layout) (c : Computer) (a : Nat) (v : UInt8) : Option Computer := do
  let frame ← translate l (c.machine.paging l) (a / pageBytes)
  c.storeByte frame (a % pageBytes) v

/-- A store of user code. -/
def userStore (l : Layout) (c : Computer) (a : Nat) (v : UInt8) : Option Computer := do
  let frame ← userTranslate l (c.machine.paging l) true (a / pageBytes)
  c.storeByte frame (a % pageBytes) v

/-- The copy of a program to `PROGRAM_IMAGE`, from byte `i` on, `n` bytes left. -/
def copyProgram (l : Layout) (bytes : Nat → UInt8) : Nat → Nat → Computer → Option Computer
  | 0, _, c => some c
  | n + 1, i, c => do
      let c ← c.kernelStore l (programImage + i) (bytes i)
      copyProgram l bytes n (i + 1) c

/-- `read_data(den.inode_num, 0, PROGRAM_IMAGE, PROGRAM_IMAGE_LIMIT)` -/
def loadProgram (l : Layout) (c : Computer) (name : CString) : Option Computer := do
  let found ← readDentryByName c.machine.fs (some name)
  let (_, den) ← found
  let (n, bytes) ← readData c.machine.fs den.inodeNum 0 (some fun _ => 0) programImageLimit
  copyProgram l (bytes.getD fun _ => 0) n.toNat 0 c

end Computer

/-- The program a call starts, if it starts one: `halt` runs `execute("shell")`. -/
def KernelCall.program : KernelCall → Option CString
  | .execute command _ => command.bind commandName
  | _ => some shellName

inductive ComputerEvent where
  | system (e : SystemEvent)
  | store (a : UInt32) (v : UInt8)
  | copyOut (a : UInt32) (v : UInt8)

/-- A step: an event of the system, with the program loaded if it starts one; a
store of user code; a store of kernel code through a pointer of the caller. -/
def computerStep (l : Layout) (c : Computer) : ComputerEvent → Option Computer
  | .system e => do
      let (m, outcome) ← e.run c.machine
      match e, outcome with
      | .call _ (.kernel call), .ended .user => do
          let name ← call.program
          Computer.loadProgram l { c with machine := m } name
      | _, _ => some { c with machine := m }
  | .store a v => if c.machine.userMode then c.userStore l a.toNat v else none
  | .copyOut a v => if c.machine.userMode then none else c.kernelStore l a.toNat v

/-! ## Stores -/

section

variable {l : Layout} {c c' : Computer} {v : UInt8}

/-- The scheduler and the page tables of two machines agree. -/
structure SameTables (m m' : Machine) : Prop where
  sessions : m'.sessions = m.sessions
  pages : m'.screen.vid.kernelVidmem = m.screen.vid.kernelVidmem
  video : m'.userVidmem = m.userVidmem
  page : m'.userPage = m.userPage
  fs : m'.fs = m.fs

theorem SameTables.refl (m : Machine) : SameTables m m := ⟨rfl, rfl, rfl, rfl, rfl⟩

theorem SameTables.paging {m m' : Machine} (same : SameTables m m') : m'.paging l = m.paging l := by
  unfold Machine.paging
  rw [same.pages, same.video, same.page]

/-- What a store does: a byte of the first 4 MB, or a byte of an image. -/
theorem storeByte_some {frame offset : Nat} (stored : c.storeByte frame offset v = some c') :
    SameTables c.machine c'.machine ∧ (c'.ram = c.ram ∨ 2 ≤ frame / pagingCount ∧
      c' = { c with ram := Function.update c.ram (frame * pageBytes + offset) v }) := by
  simp only [Computer.storeByte] at stored
  split_ifs at stored with low kernel
  · obtain rfl := Option.some.inj stored
    exact ⟨⟨rfl, rfl, rfl, rfl, rfl⟩, Or.inl rfl⟩
  · obtain rfl := Option.some.inj stored
    have high : 2 ≤ frame / pagingCount := by
      generalize frame / pagingCount = k at low kernel ⊢
      omega
    exact ⟨.refl _, Or.inr ⟨high, rfl⟩⟩

/-- A store of kernel code changes no image but that of the running process. -/
theorem kernelStore_kept (low : LowVideo c.machine) (small : c.machine.userPage < 2 ^ 10) {a : Nat}
    (inside : a < 2 ^ 32) (stored : c.kernelStore l a v = some c') :
    SameTables c.machine c'.machine ∧
      ∀ p b, InImage p b → 2 + p ≠ c.machine.userPage → c'.ram b = c.ram b := by
  obtain ⟨frame, reached, stored⟩ := Option.bind_eq_some_iff.1 stored
  obtain ⟨same, ram⟩ := storeByte_some stored
  refine ⟨same, fun p b image other => ?_⟩
  rcases ram with kept | ⟨high, rfl⟩
  · rw [kept]
  · have page : a / pageBytes < pagingCount * pagingCount := by
      simp only [pageBytes, pagingCount]
      omega
    have offset : a % pageBytes < pageBytes := Nat.mod_lt _ (by decide)
    refine Function.update_of_ne ?_ ..
    rintro rfl
    rcases translate_reaches l low small page reached with near | ⟨_, far⟩
    · simp only [pagingCount] at near high
      omega
    · simp only [InImage, pagingCount, pageBytes] at image far offset
      omega

theorem userStore_kernel {a : Nat} (stored : c.userStore l a v = some c') :
    c.kernelStore l a v = some c' := by
  obtain ⟨frame, reached, stored⟩ := Option.bind_eq_some_iff.1 stored
  exact Option.bind_eq_some_iff.2 ⟨frame, Memory.Paging.translate_of_user reached, stored⟩

/-! ## The program -/

/-- A store to a byte of the program, through the user page. -/
theorem kernelStore_program {p i : Nat} (page : c.machine.userPage = 2 + p) (small : p < maxProcess)
    (inside : i < programImageLimit) :
    c.kernelStore l (programImage + i) v =
      some { c with ram := Function.update c.ram (programBase p + i) v } := by
  have entry : (programImage + i) / pageBytes / pagingCount = userEntry := by
    simp only [programImage, programImageLimit, pageBytes, pagingCount, userEntry] at inside ⊢
    omega
  have bound : c.machine.userPage < 2 ^ 10 := by
    simp only [maxProcess] at small
    omega
  have frame : ((2 + p) * pagingCount + (programImage + i) / pageBytes % pagingCount) / pagingCount =
      2 + p := by
    simp only [pagingCount]
    omega
  have address : ((2 + p) * pagingCount + (programImage + i) / pageBytes % pagingCount) * pageBytes +
      (programImage + i) % pageBytes = programBase p + i := by
    simp only [programBase, programImage, programImageLimit, pageBytes, pagingCount] at inside ⊢
    omega
  simp only [Computer.kernelStore]
  rw [translate_user l c.machine entry bound, page, Option.bind_eq_bind, Option.bind_some]
  simp only [Computer.storeByte]
  rw [frame, address, if_neg (by omega), if_neg (by omega)]

/-- The copy fills the image with the bytes it is given. -/
theorem copyProgram_eq {p : Nat} (small : p < maxProcess) (bytes : Nat → UInt8) (n : Nat) :
    ∀ (i : Nat) (c : Computer), c.machine.userPage = 2 + p → i + n ≤ programImageLimit →
      Computer.copyProgram l bytes n i c =
        some { c with ram := blit c.ram (programBase p + i) (fun k => bytes (i + k)) n } := by
  induction n with
  | zero =>
      intro i c page inside
      simp only [Computer.copyProgram, blit_zero]
  | succ n ih =>
      intro i c page inside
      simp only [Computer.copyProgram]
      rw [kernelStore_program page small (by omega), Option.bind_eq_bind, Option.bind_some]
      have rest := ih (i + 1)
        { c with ram := Function.update c.ram (programBase p + i) (bytes i) } page (by omega)
      have one : blit c.ram (programBase p + i) (fun k => bytes (i + k)) 1 =
          Function.update c.ram (programBase p + i) (bytes i) := by
        simpa using blit_succ c.ram (fun k => bytes (i + k)) (programBase p + i) 0
      have whole := blit_blit c.ram (fun k => bytes (i + k)) (programBase p + i) 1 n
      rw [Nat.add_comm 1 n, one] at whole
      rw [rest, ← whole]
      simp only [Nat.add_assoc]

/-- A read from the start of a file gets its first bytes. -/
theorem readData_start {fs : Fs} {inode len : Nat} (small : len < 2 ^ 31) {buf : Nat → UInt8} {n : Int}
    {bytes : Option (Nat → UInt8)} (read : readData fs inode 0 (some buf) len = some (n, bytes)) :
    n.toNat ≤ len ∧ (0 < len → inode < fs.bootBlock.inodeCount →
      n.toNat = min len (fs.inodeBlocks inode).fileSize) ∧
        ∀ k, k < n.toNat → bytes.getD (fun _ => 0) k = fs.content inode k := by
  simp only [readData] at read
  generalize clipped : (if (fs.inodeBlocks inode).fileSize - 0 < len then
    (fs.inodeBlocks inode).fileSize - 0 else len) = k at read
  have length : k = min len (fs.inodeBlocks inode).fileSize := by
    rw [← clipped]
    split_ifs <;> omega
  split_ifs at read with refused empty
  · cases read
    exact ⟨Nat.zero_le _, fun some' valid => by omega, fun k inside => absurd inside (Nat.not_lt_zero k)⟩
  · cases read
    refine ⟨Nat.zero_le _, fun _ _ => ?_, fun k inside => absurd inside (Nat.not_lt_zero k)⟩
    rw [Nat.le_zero.1 empty, Nat.min_zero]
    rfl
  · obtain ⟨buf', copied, same⟩ := Option.map_eq_some_iff.1 read
    obtain ⟨_, rfl⟩ := readSpan_eq_some.1 copied
    cases same
    rw [i32_of_lt (by omega), Int.toNat_natCast]
    refine ⟨by omega, fun _ _ => length, fun i inside => ?_⟩
    rw [Option.getD_some, blit_inside _ _ (Nat.zero_le i) (by omega), Nat.sub_zero, Nat.zero_add]

theorem loadProgram_eq {p : Nat} (page : c.machine.userPage = 2 + p) (small : p < maxProcess)
    {name : CString} {index : Nat} {den : Dentry} {n : Int} {bytes : Option (Nat → UInt8)}
    (found : readDentryByName c.machine.fs (some name) = some (some (index, den)))
    (read : readData c.machine.fs den.inodeNum 0 (some fun _ => 0) programImageLimit = some (n, bytes)) :
    c.loadProgram l name = some { c with
      ram := blit c.ram (programBase p) (c.machine.fs.content den.inodeNum) n.toNat } := by
  obtain ⟨short, _, front⟩ := readData_start (by decide) read
  simp only [Computer.loadProgram, found, read, Option.bind_eq_bind, Option.bind_some]
  rw [copyProgram_eq small _ _ 0 c page (by omega), Nat.add_zero]
  congr 2
  refine blit_congr _ _ fun k inside => ?_
  rw [Nat.zero_add, front k inside]

/-- **What is loaded**: the file, up to `PROGRAM_IMAGE_LIMIT`, and nothing else. -/
theorem loadProgram_some {p : Nat} (page : c.machine.userPage = 2 + p) (small : p < maxProcess)
    {name : CString} (loaded : c.loadProgram l name = some c') :
    ∃ index den n, readDentryByName c.machine.fs (some name) = some (some (index, den)) ∧
      n ≤ programImageLimit ∧
      (den.inodeNum < c.machine.fs.bootBlock.inodeCount →
        n = min programImageLimit (c.machine.fs.inodeBlocks den.inodeNum).fileSize) ∧
      c' = { c with ram := blit c.ram (programBase p) (c.machine.fs.content den.inodeNum) n } := by
  have ran := loaded
  simp only [Computer.loadProgram, Option.bind_eq_bind, Option.bind_eq_some_iff, Prod.exists] at loaded
  obtain ⟨_, named, index, den, rfl, n, bytes, read, _⟩ := loaded
  obtain ⟨short, length, _⟩ := readData_start (by decide) read
  rw [loadProgram_eq page small named read] at ran
  exact ⟨index, den, n.toNat, named, short, length (by decide), (Option.some.inj ran).symm⟩

end

/-! ## Steps -/

/-- The event ends process `q`: it halts, by a call or for Ctrl+C at a tick. -/
def Ends (m : Machine) (e : SystemEvent) (q : Nat) : Prop :=
  ∃ n status magic, Halting m e n status magic ∧ n.getCurrentPcb = some q

def ComputerEnds (c : Computer) (e : ComputerEvent) (q : Nat) : Prop :=
  match e with
  | .system e => Ends c.machine e q
  | _ => False

section

variable {l : Layout} {c c' : Computer} {m m' : Machine} {ebp : Nat} {call : KernelCall}

/-- `halt` ends in user mode when it has started a shell: in the PCB of the process
that halts, or in one that was free. -/
theorem launched_of_halt {n : Machine} {status : UInt8} {magic : Nat → UInt8}
    (ran : n.halt status magic = some (m', .user)) : ∃ p pid parent, n.getCurrentPcb = some p ∧
      m' = (n.givenUp p).launched pid parent ∧ pid < maxProcess ∧
        (pid = p ∨ (n.pcbs pid).present = false) := by
  obtain ⟨p, current, ⟨_, pid, parent, launches, rfl, _⟩ | back⟩ := halt_inv ran
  · obtain ⟨low, absent, _⟩ := freePid_some launches.free
    rw [givenUp_present] at absent
    refine ⟨p, pid, parent, current, rfl, low, ?_⟩
    split_ifs at absent with same
    · exact Or.inl same
    · exact Or.inr absent
  · obtain ⟨q, _, how, _⟩ := returnToParent_some back
    cases how

/-- The event has started a program as process `pid`, in an image that no process
has or that its process has just given up. -/
structure StartsProgram (m : Machine) (e : SystemEvent) (m' : Machine) (pid : Nat) : Prop where
  page : m'.userPage = 2 + pid
  inside : pid < maxProcess
  head : (m'.terms m'.activeTermId).pid = pid
  fs : m'.fs = m.fs
  fresh : (m.pcbs pid).present = false ∨ Ends m e pid

theorem switchTerminal_no_user (t : Nat) : m.switchTerminal t ≠ some (m', .user) := by
  intro switched
  by_cases shown : t = m.shownTermId
  · simp only [switchTerminal, if_pos shown] at switched
    cases switched
  · rcases switchTerminal_some switched with ⟨same, _⟩ | ⟨_, _, _, _, _, _, _, _, how⟩
    · exact shown same
    · cases how

theorem starts_of_halt {e : SystemEvent} {n : Machine} {status : UInt8} {magic : Nat → UInt8}
    (sched : Scheduled m.sessions) (halting : Halting m e n status magic)
    (present : ∀ q, (n.pcbs q).present = (m.pcbs q).present)
    (halted : n.halt status magic = some (m', .user)) : ∃ pid, StartsProgram m e m' pid := by
  obtain ⟨p, pid, parent, current, rfl, low, fresh⟩ := launched_of_halt halted
  refine ⟨pid, rfl, low, launched_head .., (halting_inKernel sched halting).2.1, ?_⟩
  rcases fresh with rfl | absent
  · exact Or.inr ⟨n, status, magic, halting, current⟩
  · exact Or.inl ((present pid).symm.trans absent)

theorem program_starts (sched : Scheduled m.sessions)
    (ran : SystemEvent.run m (.call ebp (.kernel call)) = some (m', .ended .user)) :
    ∃ pid, StartsProgram m (.call ebp (.kernel call)) m' pid := by
  obtain ⟨frame, ran⟩ := run_call.1 ran
  obtain ⟨⟨next, how⟩, made, same⟩ := Option.map_eq_some_iff.1 ran
  cases same
  cases call with
  | execute command magic =>
      rcases execute_some made with ⟨_, how⟩ | ⟨pid, parent, launches, rfl, _⟩
      · cases how
      · obtain ⟨low, absent, _⟩ := freePid_some launches.free
        exact ⟨pid, rfl, low, launched_head .., rfl, Or.inl absent⟩
  | halt status magic => exact starts_of_halt sched (.halt frame) (fun _ => rfl) made
  | raise vector address =>
      obtain ⟨_, _, same⟩ := Option.map_eq_some_iff.1 made
      cases same
  | pitHandler magic =>
      by_cases marked : ((m.entered ebp).terms (m.entered ebp).nextTermId).toBeHalt = true
      · have inside : InKernel (m.entered ebp) := inKernel_enter sched frame
        have halted := (pitHandler_ctrlC inside marked magic).symm.trans made
        refine starts_of_halt sched (.ctrlC frame marked) (fun q => ?_) halted
        have turned := (turned_devices ((m.entered ebp).turnScreen (m.entered ebp).nextTermId)
          ((m.entered ebp).terms (m.entered ebp).activeTermId).pid (m.entered ebp).nextTermId).present q
        refine turned.trans ?_
        have pcbs : ((m.entered ebp).turnScreen (m.entered ebp).nextTermId).pcbs = m.pcbs :=
          congrArg Context.pcbs (turnScreen_context (m.entered ebp) (m.entered ebp).nextTermId)
        rw [pcbs]
      · obtain ⟨_, _, _, rfl, _, _, ⟨marked', _⟩ | ⟨_, how⟩⟩ := pitHandler_some made
        · rw [turnScreen_toBeHalt] at marked'
          exact absurd marked' marked
        · cases how
  | keyboardHandler scancode =>
      rcases keyboardHandler_some made with ⟨t, _, switched⟩ | ⟨_, how⟩
      · exact absurd switched (switchTerminal_no_user t)
      · cases how
  | vidmap start =>
      obtain ⟨_, _, same⟩ := Option.map_eq_some_iff.1 made
      cases same
  | putc c =>
      obtain ⟨_, _, same⟩ := Option.map_eq_some_iff.1 made
      cases same

/-- What a step does with an event of the system. -/
theorem computerStep_system {e : SystemEvent} (step : computerStep l c (.system e) = some c') :
    ∃ m outcome, e.run c.machine = some (m, outcome) ∧ (c' = { c with machine := m } ∨
      ∃ ebp call name, e = .call ebp (.kernel call) ∧ outcome = .ended .user ∧
        call.program = some name ∧ Computer.loadProgram l { c with machine := m } name = some c') := by
  obtain ⟨⟨m, outcome⟩, ran, rest⟩ := Option.bind_eq_some_iff.1 step
  refine ⟨m, outcome, ran, ?_⟩
  dsimp only at rest
  split at rest
  · obtain ⟨name, named, loaded⟩ := Option.bind_eq_some_iff.1 rest
    exact Or.inr ⟨_, _, name, rfl, rfl, named, loaded⟩
  · exact Or.inl (Option.some.inj rest).symm

/-! ## Images over a run -/

/-- What holds of every state of a run. -/
structure Placed (c : Computer) : Prop where
  sched : Scheduled c.machine.sessions
  low : LowVideo c.machine

theorem Placed.page (placed : Placed c) : ∃ p, c.machine.running = some p ∧ p < maxProcess ∧
    c.machine.userPage = 2 + p ∧ c.machine.userPage < 2 ^ 10 := by
  have alive := placed.sched.head_alive placed.sched.active
  have bound : (c.machine.terms c.machine.activeTermId).pid < maxProcess := alive.1
  have page : c.machine.userPage = 2 + (c.machine.terms c.machine.activeTermId).pid :=
    placed.sched.userPage
  refine ⟨_, (coherent_of_scheduled placed.sched).running, bound, page, ?_⟩
  simp only [maxProcess] at bound
  omega

theorem Placed.stored (placed : Placed c) (same : SameTables c.machine c'.machine) : Placed c' := by
  refine ⟨same.sessions ▸ placed.sched, fun i inside => ?_, ?_⟩
  · rw [same.pages]
    exact placed.low.kernel i inside
  · rw [same.video]
    exact placed.low.user

theorem Placed.step {e : ComputerEvent} (placed : Placed c) (step : computerStep l c e = some c') :
    Placed c' := by
  obtain ⟨_, _, _, _, small⟩ := placed.page
  cases e with
  | system e =>
      obtain ⟨m, outcome, ran, rest⟩ := computerStep_system step
      have stepped : systemStep c.machine e = some m := by
        rw [systemStep, ran]
        rfl
      have sched := scheduled_system placed.sched stepped
      have low := lowVideo_step placed.sched stepped placed.low
      rcases rest with rfl | ⟨ebp, call, name, rfl, rfl, _, loaded⟩
      · exact ⟨sched, low⟩
      · obtain ⟨pid, starts⟩ := program_starts placed.sched ran
        obtain ⟨_, _, _, _, _, _, rfl⟩ :=
          loadProgram_some (c := { c with machine := m }) starts.page starts.inside loaded
        exact ⟨sched, low⟩
  | store a v =>
      simp only [computerStep] at step
      split_ifs at step
      exact placed.stored
        (kernelStore_kept placed.low small a.toNat_lt (userStore_kernel step)).1
  | copyOut a v =>
      simp only [computerStep] at step
      split_ifs at step
      exact placed.stored (kernelStore_kept placed.low small a.toNat_lt step).1

/-- Process `q` is there, and neither runs nor ends at this step. -/
def AtRest (q : Nat) (c : Computer) (e : ComputerEvent) : Prop :=
  c.machine.sessions.Alive q ∧ c.machine.running ≠ some q ∧ ¬ComputerEnds c e q

/-- The event ends no process: it is no halt, and no tick that finds its terminal
marked. -/
def ComputerEvent.spares (m : Machine) : ComputerEvent → Bool
  | .system (.call _ (.kernel (.halt _ _))) => false
  | .system (.call _ (.kernel (.pitHandler _))) => !(m.terms m.nextTermId).toBeHalt
  | _ => true

theorem not_ends_of_spares {e : ComputerEvent} (spares : e.spares c.machine = true) (q : Nat) :
    ¬ComputerEnds c e q := by
  cases e with
  | system e =>
      rintro ⟨n, status, magic, halting, _⟩
      cases halting with
      | halt frame => cases spares
      | ctrlC frame marked =>
          simp only [ComputerEvent.spares, marked, Bool.not_true, Bool.false_eq_true] at spares
  | store a v => exact id
  | copyOut a v => exact id

/-- `AtRest`, of an event that ends no process at all. -/
def StaysOut (q : Nat) (c : Computer) (e : ComputerEvent) : Prop :=
  (q < maxProcess ∧ (c.machine.pcbs q).present = true) ∧ c.machine.running ≠ some q ∧
    e.spares c.machine = true

instance (q : Nat) (c : Computer) (e : ComputerEvent) : Decidable (StaysOut q c e) :=
  inferInstanceAs (Decidable (_ ∧ _ ∧ _))

theorem StaysOut.atRest {e : ComputerEvent} {q : Nat} (out : StaysOut q c e) : AtRest q c e :=
  ⟨out.1, out.2.1, not_ends_of_spares out.2.2 q⟩

/-- **One step** leaves the image of a process at rest as it is. -/
theorem image_kept {e : ComputerEvent} {q : Nat} (placed : Placed c) (rests : AtRest q c e)
    (step : computerStep l c e = some c') {a : Nat} (image : InImage q a) : c'.ram a = c.ram a := by
  obtain ⟨alive, other, lives⟩ := rests
  obtain ⟨p, running, _, page, small⟩ := placed.page
  have apart : 2 + q ≠ c.machine.userPage := by
    rw [page]
    intro same
    exact other (running.trans (congrArg some (by omega)))
  cases e with
  | system e =>
      obtain ⟨m, outcome, ran, rfl | ⟨ebp, call, name, rfl, rfl, _, loaded⟩⟩ := computerStep_system step
      · rfl
      · obtain ⟨pid, starts⟩ := program_starts placed.sched ran
        obtain ⟨_, _, n, _, fits, _, rfl⟩ :=
          loadProgram_some (c := { c with machine := m }) starts.page starts.inside loaded
        have differ : pid ≠ q := by
          rintro rfl
          rcases starts.fresh with absent | ends
          · have present : (c.machine.pcbs pid).present = true := alive.2
            exact Bool.noConfusion (absent.symm.trans present)
          · exact lives ends
        refine blit_outside _ _ fun inside => differ ?_
        simp only [InImage, programBase, programImage, programImageLimit, pagingCount, pageBytes]
          at image fits inside
        omega
  | store a v =>
      simp only [computerStep] at step
      split_ifs at step
      exact (kernelStore_kept placed.low small a.toNat_lt (userStore_kernel step)).2 q _ image apart
  | copyOut a v =>
      simp only [computerStep] at step
      split_ifs at step
      exact (kernelStore_kept placed.low small a.toNat_lt step).2 q _ image apart

theorem placed_start {m₀ : Machine} (booted : m₀.Booted) (ram : Nat → UInt8) :
    Placed ⟨m₀.mapTerminals.startShells, ram⟩ :=
  ⟨scheduled_start booted, lowVideo_start booted⟩

theorem placed_after : ∀ (run : List ComputerEvent) (c c' : Computer), Placed c →
    after (computerStep l) c run = some c' → Placed c' := by
  intro run c c' placed reached
  refine after_of_every run c c' placed ?_ reached
  exact every_of_invariant Placed (fun c e c' placed step => ⟨placed.step step, placed.step step⟩) run c placed

theorem images_kept_from {q : Nat} : ∀ (run : List ComputerEvent) (c c' : Computer), Placed c →
    Meets (computerStep l) (AtRest q) c run → after (computerStep l) c run = some c' →
      ∀ a, InImage q a → c'.ram a = c.ram a := by
  intro run
  induction run with
  | nil =>
      intro c c' _ _ reached a _
      obtain rfl : c = c' := by simpa using reached
      rfl
  | cons e rest ih =>
      intro c c' placed meets reached a image
      obtain ⟨mid, step, later⟩ := Option.bind_eq_some_iff.1 reached
      rw [ih mid c' (placed.step step) (meets.2 mid step) later a image]
      exact image_kept placed meets.1 step image

end

/-- **Images are apart**: as long as a process neither runs nor ends, nothing that
the other processes and the kernel do changes a byte of its image. -/
theorem images_kept (l : Layout) (m₀ m : Machine) (magic : Nat → UInt8) (booted : m₀.Booted)
    (started : m₀.initiateShells magic = some (m, true)) (ram : Nat → UInt8)
    (pre run : List ComputerEvent) (c c' : Computer) (q a : Nat)
    (before : after (computerStep l) ⟨m, ram⟩ pre = some c) (rests : Meets (computerStep l) (AtRest q) c run)
    (behind : after (computerStep l) c run = some c') (image : InImage q a) : c'.ram a = c.ram a := by
  obtain rfl := initiateShells_some started
  exact images_kept_from run c c' (placed_after pre _ c (placed_start booted ram) before) rests behind
    a image

/-- The first shell runs a shell of its own, which stores a byte to its image; the tick
goes to the second shell, and that stores one to its own. -/
def twoStores : List ComputerEvent :=
  [.system .iret, .system (.call 0x7FFF00 (.kernel (.execute (some shellName) fun _ => 0))),
    .store 0x08048004 7, .system (.call 0x7F9F00 (.kernel (.pitHandler fun _ => 0))),
    .system .iret, .store 0x08048004 9]

theorem third_shell_kept : ∃ c',
    after (computerStep tablesLast) ⟨shells, fun _ => 0⟩ twoStores = some c' ∧
    c'.ram (programBase 3) = shells.fs.content 0 0 ∧ c'.ram (programBase 3 + 4) = 7 ∧
      c'.ram (programBase 1 + 4) = 9 ∧ ∀ a, InImage 2 a → c'.ram a = 0 := by
  have out : Meets (computerStep tablesLast) (StaysOut 2) ⟨shells, fun _ => 0⟩ twoStores := by
    decide +kernel
  have ends : (after (computerStep tablesLast) ⟨shells, fun _ => 0⟩ twoStores).map (fun c =>
      (c.ram (programBase 3), c.ram (programBase 3 + 4), c.ram (programBase 1 + 4))) =
        some (shells.fs.content 0 0, 7, 9) := by
    decide +kernel
  obtain ⟨c', reached, bytes⟩ := Option.map_eq_some_iff.1 ends
  obtain ⟨first, bytes⟩ := Prod.mk.inj bytes
  obtain ⟨second, third⟩ := Prod.mk.inj bytes
  have rests := meets_mono (fun _ _ => StaysOut.atRest) twoStores _ out
  exact ⟨c', reached, first, second, third, fun a image => images_kept tablesLast (mounted shellFs)
    shells (fun _ => 0) (mounted_booted shellFs) shells_started (fun _ => 0) [] twoStores
    ⟨shells, fun _ => 0⟩ c' 2 a rfl rests reached image⟩

/-! ## What execute loads -/

/-- **execute loads the file it has checked**: in every state of every run, what it
starts is a process that was not there, and its image then holds the file from
`PROGRAM_IMAGE` on; no other byte of any image is changed. -/
theorem program_loaded (l : Layout) (m₀ m : Machine) (magic : Nat → UInt8) (booted : m₀.Booted)
    (started : m₀.initiateShells magic = some (m, true)) (ram : Nat → UInt8) (run : List ComputerEvent)
    (c c' : Computer) (before : after (computerStep l) ⟨m, ram⟩ run = some c) (ebp : Nat)
    (command : Option CString) (local' : Nat → UInt8)
    (step : computerStep l c (.system (.call ebp (.kernel (.execute command local')))) = some c')
    (entered : c'.machine.userMode = true) :
    ∃ p den n, c'.machine.running = some p ∧ ¬c.machine.sessions.Alive p ∧
      Names c.machine.fs command den ∧
      n = min programImageLimit (c.machine.fs.inodeBlocks den.inodeNum).fileSize ∧
      (∀ i, i < n → c'.ram (programBase p + i) = c.machine.fs.content den.inodeNum i) ∧
      ∀ a, ¬(programBase p ≤ a ∧ a < programBase p + n) → c'.ram a = c.ram a := by
  obtain rfl := initiateShells_some started
  have placed := placed_after run _ c (placed_start booted ram) before
  have running := (coherent_of_scheduled (placed.step step).sched).running
  obtain ⟨next, outcome, ran, _⟩ := computerStep_system step
  obtain ⟨frame, made⟩ := run_call.1 ran
  obtain ⟨⟨next', how⟩, called, same⟩ := Option.map_eq_some_iff.1 made
  obtain ⟨rfl, rfl⟩ := Prod.mk.inj same
  simp only [computerStep, ran, Option.bind_eq_bind, Option.bind_some] at step
  rcases execute_some called with ⟨rfl, rfl⟩ | ⟨p, parent, launches, rfl, rfl⟩
  · obtain rfl := Option.some.inj step
    cases entered
  obtain ⟨name, named, loaded⟩ := Option.bind_eq_some_iff.1 step
  have named' : command.bind commandName = some name := named
  obtain ⟨low, absent, _⟩ := freePid_some launches.free
  obtain ⟨index, den, n, found, _, length, rfl⟩ := loadProgram_some
    (c := { c with machine := (c.machine.entered ebp).launched p parent }) rfl low loaded
  have found' : readDentryByName c.machine.fs (some name) = some (some (index, den)) := found
  rcases starts_of_execute called with same | ⟨_, ⟨name', parsed, executable⟩, _⟩
  · have mode := congrArg Machine.userMode same
    cases mode
  obtain rfl := Option.some.inj (named'.symm.trans parsed)
  have valid : den.inodeNum < c.machine.fs.bootBlock.inodeCount :=
    ((checkExecutable_iff found').1 executable).1.valid
  refine ⟨p, den, n, ?_, fun alive => ?_, ⟨name, index, named', found'⟩, length valid, ?_, ?_⟩
  · rw [running]
    exact congrArg some (launched_head (c.machine.entered ebp) p parent)
  · have present : (c.machine.pcbs p).present = true := alive.2
    exact Bool.noConfusion (absent.symm.trans present)
  · intro i inside
    refine (blit_inside _ _ (by omega) (by omega)).trans ?_
    rw [Nat.add_sub_cancel_left]
    rfl
  · exact fun a outside => blit_outside _ _ outside

/-- The first shell runs a shell, which is a file of four bytes. -/
theorem shell_loaded : ∃ c', computerStep tablesLast ⟨shells, fun _ => 0⟩
    (.system (.call 0x7FFF00 (.kernel (.execute (some shellName) fun _ => 0)))) = some c' ∧
      ∃ p den n, c'.machine.running = some p ∧ ¬shells.sessions.Alive p ∧
        Names shells.fs (some shellName) den ∧
        n = min programImageLimit (shells.fs.inodeBlocks den.inodeNum).fileSize ∧
        (∀ i, i < n → c'.ram (programBase p + i) = shells.fs.content den.inodeNum i) ∧
        ∀ a, ¬(programBase p ≤ a ∧ a < programBase p + n) → c'.ram a = 0 := by
  have ran : SystemEvent.run shells (.call 0x7FFF00 (.kernel (.execute (some shellName) fun _ => 0))) =
      some ((shells.entered 0x7FFF00).launched 3 (some 0), .ended .user) := rfl
  have named : KernelCall.program (.execute (some shellName) fun _ => 0) = some shellName := rfl
  have found : readDentryByName ((shells.entered 0x7FFF00).launched 3 (some 0)).fs (some shellName) =
      some (some (0, ⟨dentryName shellName, 2, 0, fun _ => 0⟩)) := rfl
  have loaded := loadProgram_eq (l := tablesLast) (p := 3)
    (c := ⟨(shells.entered 0x7FFF00).launched 3 (some 0), fun _ => 0⟩) rfl (by decide) found rfl
  have step : computerStep tablesLast ⟨shells, fun _ => 0⟩
      (.system (.call 0x7FFF00 (.kernel (.execute (some shellName) fun _ => 0)))) =
        Computer.loadProgram tablesLast ⟨(shells.entered 0x7FFF00).launched 3 (some 0), fun _ => 0⟩
          shellName := by
    simp only [computerStep, ran, named, Option.bind_eq_bind, Option.bind_some]
  exact ⟨_, step.trans loaded, program_loaded tablesLast (mounted shellFs) shells (fun _ => 0)
    (mounted_booted shellFs) shells_started (fun _ => 0) [] ⟨shells, fun _ => 0⟩ _ rfl 0x7FFF00
    (some shellName) (fun _ => 0) (step.trans loaded) rfl⟩

end Illinix.Kernel
