/-
# Interrupt.Delivery -- interrupts and their ends

A `Board` is the kernel's machine with its interrupt controllers.  The processor
acknowledges an interrupt and goes through the gate of its vector; the handlers
end it with `send_eoi`: the timer's first thing, the RTC's and the keyboard's
last thing.

`keyboard_handler` may not get there: for F1 to F3 it calls `switch_terminal`,
which goes on in another process.  `inKeyboard` says which process was left
there; it sends the end of interrupt when it gets its next turn (`finish`), and
can do nothing else before.  Until then the keyboard's line is in service.

`serviced_step` is the invariant: at most the keyboard's line is in service
between two steps, so the timer always gets through.

`execute` is one step, with the `sti` and the `iret` at its end: an interrupt
between these two is no step of a run here.  An F-key there would leave the end of
interrupt with the process that called `execute`, which no terminal has any more.
-/
import Illinix.Interrupt.I8259
import Illinix.Interrupt.Idt
import Illinix.Kernel.Marks

namespace Illinix.Interrupt

open Illinix.Kernel Illinix.Theory

set_option autoImplicit false

def keyboardIrq : Nat := 1
def rtcIrq : Nat := 8

structure Board where
  machine : Machine
  controller : Controller
  /-- The process was left inside `keyboard_handler`, before its `send_eoi`. -/
  inKeyboard : Nat → Bool

/-! ## Boot -/

/-- The controllers once `i8259_init`, `keyboard_init`, `rtc_init` and `pit_init`
are through. -/
def bootController (pics : PicPair) : Controller :=
  (((Controller.loaded pics).i8259Init.enableIrq keyboardIrq).enableIrq rtcIrq).enableIrq 0

/-- The board when the first shell starts. -/
def bootBoard (pics : PicPair) (m : Machine) : Board := ⟨m, bootController pics, fun _ => false⟩

/-! ## Events -/

inductive BoardEvent where
  /-- A device asks for an interrupt. -/
  | raise (n : Nat)
  /-- The processor takes an interrupt with this vector, and the handler runs with
  this frame pointer. -/
  | interrupt (v : BitVec 8) (ebp scancode : Nat) (magic : Nat → UInt8)
  /-- The running process goes on in `keyboard_handler`, behind `switch_terminal`. -/
  | finish
  /-- Anything else the running process does. -/
  | software (e : SystemEvent)

/-- The event is an interrupt handler. -/
def isHandler : SystemEvent → Bool
  | .call _ (.kernel (.pitHandler _)) => true
  | .call _ (.kernel (.keyboardHandler _)) => true
  | .call _ .rtcHandler => true
  | _ => false

namespace Board

def lines (b : Board) : Lines := b.controller.pics.lines

def sendEoi (b : Board) (n : Nat) : Board := { b with controller := b.controller.sendEoi n }

def pitInterrupt (b : Board) (ebp : Nat) (magic : Nat → UInt8) : Option Board := do
  let b := b.sendEoi 0
  let next := (b.machine.terms b.machine.nextTermId).pid
  let (m, outcome) ← SystemEvent.run b.machine (.call ebp (.kernel (.pitHandler magic)))
  match outcome with
  | .ended .resumed => some { b with machine := m }
  -- `halt` drops what the next process was in the middle of
  | _ => some { b with machine := m, inKeyboard := Function.update b.inKeyboard next false }

def keyboardInterrupt (b : Board) (ebp scancode : Nat) : Option Board := do
  let p ← b.machine.running
  let (m, outcome) ← SystemEvent.run b.machine (.call ebp (.kernel (.keyboardHandler scancode)))
  match outcome with
  | .ended .resumed =>
      some { b with machine := m, inKeyboard := Function.update b.inKeyboard p true }
  | _ => some (sendEoi { b with machine := m } keyboardIrq)

def rtcInterrupt (b : Board) (ebp : Nat) : Option Board := do
  let (m, _) ← SystemEvent.run b.machine (.call ebp .rtcHandler)
  some (sendEoi { b with machine := m } rtcIrq)

/-- The handler of a device, from its gate on. -/
def handle (b : Board) (ebp scancode : Nat) (magic : Nat → UInt8) : Handler → Option Board
  | .pitIntWrapper => b.pitInterrupt ebp magic
  | .keyboardIntWrapper => b.keyboardInterrupt ebp scancode
  | .rtcIntWrapper => b.rtcInterrupt ebp
  | _ => none

/-- The running process is in `keyboard_handler`. -/
def owing (b : Board) : Bool := (b.machine.running.map b.inKeyboard).getD false

def finish (b : Board) : Option Board := do
  let p ← b.machine.running
  if b.inKeyboard p then
    some { b.sendEoi keyboardIrq with inKeyboard := Function.update b.inKeyboard p false }
  else none

end Board

def boardStep (b : Board) : BoardEvent → Option Board
  | .raise n => do
      let c ← controllerStep b.controller (.raise n)
      some { b with controller := c }
  | .interrupt v ebp scancode magic => do
      let c ← controllerStep b.controller (.acknowledge v)
      let (h, _, _) ← gateOf v.toNat
      Board.handle { b with controller := c } ebp scancode magic h
  | .finish => b.finish
  | .software e =>
      if isHandler e || b.owing then none
      else do
        let m ← systemStep b.machine e
        some { b with machine := m }

/-! ## The invariant -/

/-- What holds between two steps. -/
structure Serviced (b : Board) : Prop where
  sched : Scheduled b.machine.sessions
  programmed : b.controller.Programmed
  opened : ∀ n, b.lines.isOpen n = true ↔ n = 0 ∨ n = keyboardIrq ∨ n = cascadeLine ∨ n = rtcIrq
  serving : ∀ n, b.lines.serving n = true → n = keyboardIrq
  owed : ∀ p, b.inKeyboard p = true → b.lines.serving keyboardIrq = true ∧
    ∃ t, t < terminalCount ∧ (b.machine.terms t).pid = p
  single : ∀ p q, b.inKeyboard p = true → b.inKeyboard q = true → p = q

section

variable {b b' : Board} {c c' : Controller}

theorem bootController_lines (pics : PicPair) : (bootController pics).Programmed ∧
    (bootController pics).pics.lines =
      ((bootLines.setOpen keyboardIrq true).setOpen rtcIrq true).setOpen 0 true := by
  have loaded := Controller.programmed_init (Controller.loaded pics)
  have keyboard := loaded.setMask keyboardIrq true
  have rtc := keyboard.setMask rtcIrq true
  have eqs : bootController pics =
      (((Controller.loaded pics).i8259Init.setMask keyboardIrq true).setMask rtcIrq true).setMask 0
        true := by
    rw [bootController, Controller.enableIrq_eq loaded, if_pos (by decide),
      Controller.enableIrq_eq keyboard, if_pos (by decide), Controller.enableIrq_eq rtc,
      if_pos (by decide)]
  rw [eqs]
  refine ⟨rtc.setMask 0 true, ?_⟩
  rw [Controller.setMask_lines rtc (by decide), Controller.setMask_lines keyboard (by decide),
    Controller.setMask_lines loaded (by decide), loaded_lines]

theorem serviced_boot {m₀ : Machine} (booted : m₀.Booted) (pics : PicPair) :
    Serviced (bootBoard pics m₀.mapTerminals.startShells) := by
  obtain ⟨programmed, lines⟩ := bootController_lines pics
  refine ⟨scheduled_start booted, programmed, fun n => ?_, fun n busy => ?_, nofun, nofun⟩
  · simp only [bootBoard, Board.lines, lines, Lines.setOpen, bootLines, Function.update_apply]
    split_ifs <;> simp_all
  · simp only [bootBoard, Board.lines, lines, Lines.setOpen, bootLines] at busy
    cases busy

/-! ## What an interrupt can do -/

theorem acknowledge_some (programmed : c.Programmed) {v : BitVec 8}
    (taken : controllerStep c (.acknowledge v) = some c') : ∃ n, c.pics.lines.Best n ∧
      v.toNat = 0x20 + n ∧ c'.Programmed ∧ c'.pics.lines = c.pics.lines.serve n := by
  obtain ⟨n, best, vector, rfl⟩ := programmed.acknowledge_iff.1 taken
  obtain ⟨inside, own⟩ := PicPair.pending_inside best.pending
  refine ⟨n, best, ?_, programmed_step (e := .acknowledge v) programmed trivial taken,
    PicPair.taken_lines inside own⟩
  rw [vector, BitVec.toNat_ofNat]
  omega

theorem sendEoi_some (programmed : c.Programmed) {n : Nat} (inside : n < 16)
    (serving : c.pics.lines.serving n = true) :
    (c.sendEoi n).Programmed ∧ (c.sendEoi n).pics.lines = c.pics.lines.finish n := by
  refine ⟨programmed_step (e := .sendEoi n) programmed (fun _ => serving) rfl, ?_⟩
  rw [Controller.sendEoi_eq, if_pos inside]
  exact PicPair.finished_lines

/-- The interrupt has gone through the controllers, with these lines in service
after it. -/
structure Handled (b b' : Board) (serving : Nat → Bool) : Prop where
  programmed : b'.controller.Programmed
  isOpen : b'.lines.isOpen = b.lines.isOpen
  serving : b'.lines.serving = serving

/-- What the handlers come to. -/
inductive Took (b b' : Board) : BoardEvent → Prop where
  | tick {ebp scancode : Nat} {magic : Nat → UInt8} (handled : Handled b b' b.lines.serving)
      (ran : SystemEvent.run b.machine (.call ebp (.kernel (.pitHandler magic))) =
        some (b'.machine, .ended .resumed)) (left : b'.inKeyboard = b.inKeyboard) :
      Took b b' (.interrupt 0x20 ebp scancode magic)
  | halted {ebp scancode : Nat} {magic : Nat → UInt8} {outcome : Outcome}
      (handled : Handled b b' b.lines.serving)
      (ran : SystemEvent.run b.machine (.call ebp (.kernel (.pitHandler magic))) =
        some (b'.machine, outcome)) (halts : outcome ≠ .ended .resumed)
      (left : b'.inKeyboard =
        Function.update b.inKeyboard (b.machine.terms b.machine.nextTermId).pid false) :
      Took b b' (.interrupt 0x20 ebp scancode magic)
  | typed {ebp scancode : Nat} {magic : Nat → UInt8} {outcome : Outcome}
      (handled : Handled b b' b.lines.serving) (idle : b.lines.serving keyboardIrq = false)
      (ran : SystemEvent.run b.machine (.call ebp (.kernel (.keyboardHandler scancode))) =
        some (b'.machine, outcome)) (stays : outcome ≠ .ended .resumed)
      (left : b'.inKeyboard = b.inKeyboard) :
      Took b b' (.interrupt 0x21 ebp scancode magic)
  | switched {p ebp scancode : Nat} {magic : Nat → UInt8}
      (handled : Handled b b' (Function.update b.lines.serving keyboardIrq true))
      (idle : b.lines.serving keyboardIrq = false) (running : b.machine.running = some p)
      (ran : SystemEvent.run b.machine (.call ebp (.kernel (.keyboardHandler scancode))) =
        some (b'.machine, .ended .resumed))
      (left : b'.inKeyboard = Function.update b.inKeyboard p true) :
      Took b b' (.interrupt 0x21 ebp scancode magic)
  | rtc {ebp scancode : Nat} {magic : Nat → UInt8} {outcome : Outcome}
      (handled : Handled b b' b.lines.serving) (idle : b.lines.serving keyboardIrq = false)
      (ran : SystemEvent.run b.machine (.call ebp .rtcHandler) = some (b'.machine, outcome))
      (left : b'.inKeyboard = b.inKeyboard) : Took b b' (.interrupt 0x28 ebp scancode magic)

/-- Acknowledged and ended, an interrupt leaves the lines in service as they were. -/
theorem handled_ended {b' : Board} {n : Nat} (best : b.lines.Best n) (programmed : c.Programmed)
    (lines : c.pics.lines = b.lines.serve n) (inside : n < 16)
    (ended : b'.controller = c.sendEoi n) : Handled b b' b.lines.serving := by
  have busy : c.pics.lines.serving n = true := by
    rw [lines]
    exact Function.update_self ..
  obtain ⟨programmed', lines'⟩ := sendEoi_some programmed inside busy
  rw [← ended] at programmed' lines'
  rw [lines] at lines'
  have isOpen := congrArg Lines.isOpen lines'
  refine ⟨programmed', isOpen, (congrArg Lines.serving lines').trans ?_⟩
  simp only [Lines.finish, Lines.serve, Function.update_idem]
  rw [← best.idle, Function.update_eq_self]

/-- An interrupt at the level of the keyboard or below waits for its end. -/
theorem keyboard_idle {s : Lines} {n : Nat} (best : s.Best n)
    (below : 1 ≤ lineLevel n) : s.serving keyboardIrq = false := by
  by_contra busy
  have above := best.above keyboardIrq (by simpa using busy)
  rw [show lineLevel keyboardIrq = 1 by decide] at above
  omega

theorem took_of_step {v : BitVec 8} {ebp scancode : Nat} {magic : Nat → UInt8}
    (serviced : Serviced b) (step : boardStep b (.interrupt v ebp scancode magic) = some b') :
    Took b b' (.interrupt v ebp scancode magic) := by
  simp only [boardStep, Option.bind_eq_bind, Option.bind_eq_some_iff, Prod.exists] at step
  obtain ⟨c, taken, h, level, off, gate, step⟩ := step
  obtain ⟨n, best, vector, programmed, lines⟩ := acknowledge_some serviced.programmed taken
  obtain ⟨inside, own⟩ := PicPair.pending_inside best.pending
  have vec : v = BitVec.ofNat 8 (0x20 + n) := by
    rw [← vector, BitVec.ofNat_toNat, BitVec.setWidth_eq]
  rw [vector] at gate
  rcases (serviced.opened n).1 best.pending.2.1 with rfl | rfl | rfl | rfl
  · cases gate
    subst vec
    simp only [Board.handle, Board.pitInterrupt, Option.bind_eq_bind, Option.bind_eq_some_iff,
      Prod.exists] at step
    obtain ⟨m, outcome, ran, step⟩ := step
    split at step
    · cases step
      exact .tick (handled_ended best programmed lines inside rfl) ran rfl
    · rename_i halts
      cases step
      exact .halted (handled_ended best programmed lines inside rfl) ran halts rfl
  · cases gate
    subst vec
    have idle := keyboard_idle best (by decide)
    simp only [Board.handle, Board.keyboardInterrupt, Option.bind_eq_bind, Option.bind_eq_some_iff,
      Prod.exists] at step
    obtain ⟨p, running, m, outcome, ran, step⟩ := step
    split at step
    · cases step
      have isOpen := congrArg Lines.isOpen lines
      have serving := congrArg Lines.serving lines
      exact .switched ⟨programmed, isOpen, serving⟩ idle running ran rfl
    · rename_i stays
      cases step
      exact .typed (handled_ended best programmed lines inside rfl) idle ran stays rfl
  · exact absurd rfl own
  · cases gate
    subst vec
    have idle := keyboard_idle best (by decide)
    simp only [Board.handle, Board.rtcInterrupt, Option.bind_eq_bind, Option.bind_eq_some_iff,
      Prod.exists] at step
    obtain ⟨m, outcome, ran, step⟩ := step
    cases step
    exact .rtc (handled_ended best programmed lines inside rfl) idle ran rfl

/-! ### The machine's part -/

theorem step_of_run {m m' : Machine} {e : SystemEvent} {outcome : Outcome}
    (ran : e.run m = some (m', outcome)) : systemStep m e = some m' := by
  rw [systemStep, ran]
  rfl

/-- A tick or a switch that lets a process go on leaves the terminals their
processes. -/
theorem resumed_heads {m m' : Machine} {ebp : Nat} {call : KernelCall}
    (ran : SystemEvent.run m (.call ebp (.kernel call)) = some (m', .ended .resumed)) (t : Nat) :
    (m'.terms t).pid = (m.terms t).pid := by
  obtain ⟨frame, ran⟩ := run_call.1 ran
  obtain ⟨⟨_, how⟩, made, same⟩ := Option.map_eq_some_iff.1 ran
  obtain ⟨rfl, same⟩ := Prod.mk.inj same
  cases same
  cases call with
  | execute command magic =>
      rcases Machine.execute_some made with ⟨_, how⟩ | ⟨_, _, _, _, how⟩ <;> cases how
  | halt status magic => exact absurd made halt_not_resumed
  | raise vector address =>
      obtain ⟨_, _, same⟩ := Option.map_eq_some_iff.1 made
      cases same
  | pitHandler magic =>
      obtain ⟨curr, mid, m₁, rfl, _, rfl, ⟨_, halted⟩ | ⟨rfl, _⟩⟩ := Machine.pitHandler_some made
      · exact absurd halted halt_not_resumed
      · exact congrFun (congrArg Machine.Context.pids (Machine.turnScreen_context ..)) t
  | keyboardHandler scancode =>
      rcases Machine.keyboardHandler_some made with ⟨u, _, switched⟩ | ⟨_, how⟩
      · rcases Machine.switchTerminal_some switched with
          ⟨_, rfl⟩ | ⟨curr, mid, m₁, _, swapped, _, rfl, rfl, _⟩
        · rfl
        · exact congrFun (congrArg Machine.Context.pids (Machine.swapScreens_context swapped)) t
      · cases how
  | vidmap start =>
      obtain ⟨_, _, same⟩ := Option.map_eq_some_iff.1 made
      cases same
  | putc c =>
      obtain ⟨_, _, same⟩ := Option.map_eq_some_iff.1 made
      cases same

theorem Serviced.running (serviced : Serviced b) :
    b.machine.running = some (b.machine.terms b.machine.activeTermId).pid :=
  (coherent_of_scheduled serviced.sched).running

theorem Serviced.owing_iff (serviced : Serviced b) : b.owing = true ↔
    b.inKeyboard (b.machine.terms b.machine.activeTermId).pid = true := by
  simp only [Board.owing, serviced.running, Option.map_some, Option.getD_some]

/-- While the keyboard's line is not in service no process owes its end. -/
theorem Serviced.none_owes (serviced : Serviced b) (idle : b.lines.serving keyboardIrq = false)
    (p : Nat) : b.inKeyboard p = false := by
  by_contra owes
  have busy := (serviced.owed p (by simpa using owes)).1
  exact nomatch idle.symm.trans busy

theorem software_active {m m' : Machine} {e : SystemEvent} (sched : Scheduled m.sessions)
    (plain : isHandler e = false) (step : systemStep m e = some m') :
    TurnsTo m m' m.activeTermId m.shownTermId := by
  have turned := turn_step sched step
  match e, plain with
  | .iret, _ => exact turned
  | .call _ (.file _), _ => exact turned
  | .call _ (.read _ _ _), _ => exact turned
  | .call _ (.resume _ _ _), _ => exact turned
  | .call _ (.kernel (.execute _ _)), _ => exact turned
  | .call _ (.kernel (.halt _ _)), _ => exact turned
  | .call _ (.kernel (.raise _ _)), _ => exact turned
  | .call _ (.kernel (.vidmap _)), _ => exact turned
  | .call _ (.kernel (.putc _)), _ => exact turned

theorem software_some {e : SystemEvent} (step : boardStep b (.software e) = some b') :
    isHandler e = false ∧ b.owing = false ∧ ∃ m, systemStep b.machine e = some m ∧
      b' = { b with machine := m } := by
  simp only [boardStep] at step
  split_ifs at step with stops
  obtain ⟨m, ran, step⟩ := Option.bind_eq_some_iff.1 step
  rw [Bool.or_eq_true, not_or, Bool.not_eq_true, Bool.not_eq_true] at stops
  exact ⟨stops.1, stops.2, m, ran, (Option.some.inj step).symm⟩

theorem finish_some (serviced : Serviced b) (step : boardStep b .finish = some b') :
    b.owing = true ∧ b' = { b.sendEoi keyboardIrq with
      inKeyboard := Function.update b.inKeyboard
        (b.machine.terms b.machine.activeTermId).pid false } := by
  simp only [boardStep, Board.finish, serviced.running, Option.bind_eq_bind, Option.bind_some] at step
  split_ifs at step with owes
  exact ⟨serviced.owing_iff.2 owes, (Option.some.inj step).symm⟩

theorem raise_some {n : Nat} (step : boardStep b (.raise n) = some b') : ∃ c,
    controllerStep b.controller (.raise n) = some c ∧ b' = { b with controller := c } := by
  obtain ⟨c, raised, step⟩ := Option.bind_eq_some_iff.1 step
  exact ⟨c, raised, (Option.some.inj step).symm⟩

theorem raise_lines {n : Nat} (programmed : c.Programmed)
    (raised : controllerStep c (.raise n) = some c') :
    c'.pics.lines = c.pics.lines.request n := by
  have lines := controllerStep_lines programmed (.raise n)
  rw [raised] at lines
  simp only [lineStep] at lines
  split_ifs at lines
  · exact Option.some.inj lines
  · cases lines

theorem serviced_raise {n : Nat} (serviced : Serviced b)
    (step : boardStep b (.raise n) = some b') : Serviced b' := by
  obtain ⟨c, raised, rfl⟩ := raise_some step
  have lines := raise_lines serviced.programmed raised
  have programmed := programmed_step (e := .raise n) serviced.programmed trivial raised
  have isOpen : c.pics.lines.isOpen = b.lines.isOpen := by
    rw [lines]
    rfl
  have serving : c.pics.lines.serving = b.lines.serving := by
    rw [lines]
    rfl
  refine ⟨serviced.sched, programmed, fun n => ?_, fun n busy => ?_, fun p owes => ?_,
    serviced.single⟩
  · exact (Eq.congr_left (congrFun isOpen n)).trans (serviced.opened n)
  · exact serviced.serving n ((congrFun serving n).symm.trans busy)
  · obtain ⟨busy, head⟩ := serviced.owed p owes
    exact ⟨(congrFun serving _).trans busy, head⟩

theorem serviced_software {e : SystemEvent} (serviced : Serviced b)
    (step : boardStep b (.software e) = some b') : Serviced b' := by
  obtain ⟨plain, free, m, ran, rfl⟩ := software_some step
  refine ⟨scheduled_system serviced.sched ran, serviced.programmed, serviced.opened,
    serviced.serving, fun p owes => ?_, serviced.single⟩
  obtain ⟨busy, t, inside, head⟩ := serviced.owed p owes
  have elsewhere : t ≠ b.machine.activeTermId := by
    rintro rfl
    exact nomatch free.symm.trans (serviced.owing_iff.2 (head ▸ owes))
  exact ⟨busy, t, inside,
    ((software_active serviced.sched plain ran).others t elsewhere).trans head⟩

theorem serviced_finish (serviced : Serviced b) (step : boardStep b .finish = some b') :
    Serviced b' := by
  obtain ⟨owes, rfl⟩ := finish_some serviced step
  have busy := (serviced.owed _ (serviced.owing_iff.1 owes)).1
  obtain ⟨programmed, lines⟩ := sendEoi_some serviced.programmed (show keyboardIrq < 16 by decide)
    busy
  have isOpen : (b.controller.sendEoi keyboardIrq).pics.lines.isOpen = b.lines.isOpen := by
    rw [lines]
    rfl
  have none : ∀ p, Function.update b.inKeyboard
      (b.machine.terms b.machine.activeTermId).pid false p = false := by
    intro p
    rw [Function.update_apply]
    split_ifs with same
    · rfl
    · by_contra other
      exact same (serviced.single p _ (by simpa using other) (serviced.owing_iff.1 owes))
  refine ⟨serviced.sched, programmed, fun n => ?_, fun n busy => ?_, fun p owes => ?_,
    fun p q owes => ?_⟩
  · exact (Eq.congr_left (congrFun isOpen n)).trans (serviced.opened n)
  · refine serviced.serving n ?_
    change (b.controller.sendEoi keyboardIrq).pics.lines.serving n = true at busy
    rw [lines] at busy
    simp only [Lines.finish, Function.update_apply] at busy
    split_ifs at busy
    exact busy
  · exact nomatch (none p).symm.trans owes
  · exact nomatch (none p).symm.trans owes

theorem Handled.opened {serving : Nat → Bool} (handled : Handled b b' serving)
    (serviced : Serviced b) (n : Nat) : b'.lines.isOpen n = true ↔
      n = 0 ∨ n = keyboardIrq ∨ n = cascadeLine ∨ n = rtcIrq :=
  (Eq.congr_left (congrFun handled.isOpen n)).trans (serviced.opened n)

theorem Handled.quiet (handled : Handled b b' b.lines.serving) (serviced : Serviced b) (n : Nat)
    (busy : b'.lines.serving n = true) : n = keyboardIrq :=
  serviced.serving n ((congrFun handled.serving n).symm.trans busy)

/-- Nobody owes an end, and the handler has sent its own. -/
theorem serviced_ended (serviced : Serviced b) (handled : Handled b b' b.lines.serving)
    (idle : b.lines.serving keyboardIrq = false) (left : b'.inKeyboard = b.inKeyboard)
    (sched : Scheduled b'.machine.sessions) : Serviced b' := by
  have none : ∀ p, b'.inKeyboard p = false := fun p =>
    (congrFun left p).trans (serviced.none_owes idle p)
  exact ⟨sched, handled.programmed, handled.opened serviced, handled.quiet serviced,
    fun p owes => (nomatch (none p).symm.trans owes),
    fun p q owes => (nomatch (none p).symm.trans owes)⟩

/-- The tick has halted the process whose turn it was to be, which owes nothing now. -/
theorem serviced_halted (serviced : Serviced b) (handled : Handled b b' b.lines.serving)
    (sched : Scheduled b'.machine.sessions)
    (others : ∀ t, t ≠ b.machine.nextTermId →
      (b'.machine.terms t).pid = (b.machine.terms t).pid)
    (left : b'.inKeyboard = Function.update b.inKeyboard
      (b.machine.terms b.machine.nextTermId).pid false) : Serviced b' := by
  have before : ∀ p, b'.inKeyboard p = true →
      p ≠ (b.machine.terms b.machine.nextTermId).pid ∧ b.inKeyboard p = true := by
    intro p owes
    rw [left, Function.update_apply] at owes
    split_ifs at owes with same
    exact ⟨same, owes⟩
  refine ⟨sched, handled.programmed, handled.opened serviced, handled.quiet serviced,
    fun p owes => ?_,
    fun p q owes owes' => serviced.single p q (before p owes).2 (before q owes').2⟩
  obtain ⟨busy, t, inside, head⟩ := serviced.owed p (before p owes).2
  have elsewhere : t ≠ b.machine.nextTermId := fun same =>
    (before p owes).1 (head.symm.trans (congrArg (fun t => (b.machine.terms t).pid) same))
  exact ⟨(congrFun handled.serving _).trans busy, t, inside, (others t elsewhere).trans head⟩

/-- The running process is left in `keyboard_handler`, and owes its end. -/
theorem serviced_switched (serviced : Serviced b)
    (handled : Handled b b' (Function.update b.lines.serving keyboardIrq true))
    (sched : Scheduled b'.machine.sessions) (idle : b.lines.serving keyboardIrq = false)
    (heads : ∀ t, (b'.machine.terms t).pid = (b.machine.terms t).pid)
    (left : b'.inKeyboard = Function.update b.inKeyboard
      (b.machine.terms b.machine.activeTermId).pid true) : Serviced b' := by
  have only : ∀ q, b'.inKeyboard q = true →
      q = (b.machine.terms b.machine.activeTermId).pid := by
    intro q owes
    rw [left, Function.update_apply] at owes
    split_ifs at owes with same
    · exact same
    · exact nomatch (serviced.none_owes idle q).symm.trans owes
  refine ⟨sched, handled.programmed, handled.opened serviced, fun n busy => ?_,
    fun q owes => ⟨?_, _, serviced.sched.active, ?_⟩,
    fun q r owes owes' => (only q owes).trans (only r owes').symm⟩
  · rw [handled.serving, Function.update_apply] at busy
    split_ifs at busy with same
    · exact same
    · exact serviced.serving n busy
  · rw [handled.serving, Function.update_self]
  · exact (heads _).trans (only q owes).symm

theorem serviced_interrupt {v : BitVec 8} {ebp scancode : Nat} {magic : Nat → UInt8}
    (serviced : Serviced b) (step : boardStep b (.interrupt v ebp scancode magic) = some b') :
    Serviced b' := by
  have sched : ∀ {e : SystemEvent} {m : Machine}, systemStep b.machine e = some m →
      Scheduled m.sessions := scheduled_system serviced.sched
  cases took_of_step serviced step with
  | tick handled ran left =>
      refine ⟨sched (step_of_run ran), handled.programmed, handled.opened serviced,
        handled.quiet serviced, fun p owes => ?_, fun p q => left ▸ serviced.single p q⟩
      obtain ⟨busy, t, inside, head⟩ := serviced.owed p (left ▸ owes)
      exact ⟨(congrFun handled.serving _).trans busy, t, inside, (resumed_heads ran t).trans head⟩
  | halted handled ran halts left =>
      have turned := turn_step serviced.sched (step_of_run ran)
      exact serviced_halted serviced handled (sched (step_of_run ran)) turned.others left
  | typed handled idle ran stays left =>
      exact serviced_ended serviced handled idle left (sched (step_of_run ran))
  | rtc handled idle ran left =>
      exact serviced_ended serviced handled idle left (sched (step_of_run ran))
  | switched handled idle running ran left =>
      rename_i p
      obtain rfl : p = _ := Option.some.inj (running.symm.trans serviced.running)
      exact serviced_switched serviced handled (sched (step_of_run ran)) idle (resumed_heads ran) left

/-- **Every step keeps the invariant.** -/
theorem serviced_step {e : BoardEvent} (serviced : Serviced b) (step : boardStep b e = some b') :
    Serviced b' := by
  cases e with
  | raise n => exact serviced_raise serviced step
  | software e => exact serviced_software serviced step
  | finish => exact serviced_finish serviced step
  | interrupt v ebp scancode magic => exact serviced_interrupt serviced step

end

/-! ## Runs -/

/-- Between two steps the only interrupt in service is the keyboard's, the process
that is to end it is one and is a terminal's; a waiting tick gets through, and the
keyboard and the RTC do unless that end is due. -/
structure Attended (b : Board) : Prop where
  serving : ∀ n, b.lines.serving n = true → n = keyboardIrq
  owed : ∀ p, b.inKeyboard p = true → b.lines.serving keyboardIrq = true ∧
    (∃ t, t < terminalCount ∧ (b.machine.terms t).pid = p) ∧ ∀ q, b.inKeyboard q = true → q = p
  tick : b.lines.requested 0 = true → (controllerStep b.controller (.acknowledge 0x20)).isSome
  others : ∀ v, (controllerStep b.controller (.acknowledge v)).isSome →
    v = 0x20 ∨ b.lines.serving keyboardIrq = false ∧ (v = 0x21 ∨ v = 0x28)

theorem Serviced.attended {b : Board} (serviced : Serviced b) : Attended b := by
  refine ⟨serviced.serving, fun p owes => ?_, fun asked => ?_, fun v taken => ?_⟩
  · obtain ⟨busy, head⟩ := serviced.owed p owes
    exact ⟨busy, head, fun q owes' => serviced.single q p owes' owes⟩
  · have pending : b.lines.Pending 0 := ⟨asked, (serviced.opened 0).2 (Or.inl rfl), nofun⟩
    have best : b.lines.Best 0 := by
      refine ⟨pending, fun k busy => ?_, fun k other => ?_⟩
      · rw [serviced.serving k busy]
        decide
      · have own := (PicPair.pending_inside other).2
        simp only [lineLevel, cascadeLine] at own ⊢
        split_ifs <;> omega
    have taken := serviced.programmed.acknowledge_iff.2 ⟨0, best, rfl, rfl⟩
    exact Option.isSome_iff_exists.2 ⟨_, taken⟩
  · obtain ⟨c, taken⟩ := Option.isSome_iff_exists.1 taken
    obtain ⟨n, best, rfl, _⟩ := serviced.programmed.acknowledge_iff.1 taken
    have own := (PicPair.pending_inside best.pending).2
    rcases (serviced.opened n).1 best.pending.2.1 with rfl | rfl | rfl | rfl
    · exact Or.inl rfl
    · exact Or.inr ⟨keyboard_idle best (by decide), Or.inl rfl⟩
    · exact absurd rfl own
    · exact Or.inr ⟨keyboard_idle best (by decide), Or.inr rfl⟩

/-- **Interrupts in every run.** -/
theorem attended_run (m₀ m : Machine) (magic : Nat → UInt8) (booted : m₀.Booted)
    (started : m₀.initiateShells magic = some (m, true)) (pics : PicPair) (run : List BoardEvent) :
    Every boardStep (fun _ _ b => Attended b) (bootBoard pics m) run := by
  obtain rfl := Machine.initiateShells_some started
  exact every_of_invariant Serviced (fun b e b' serviced step =>
    ⟨serviced_step serviced step, (serviced_step serviced step).attended⟩) run _
    (serviced_boot booted pics)

/-- A key comes while the shells run, then F2, then the tick. -/
def keyThenF2 : List BoardEvent :=
  [.software .iret, .raise 1, .interrupt 0x21 0x7FFF00 0x1E fun _ => 0, .software .iret, .raise 1,
    .raise 8, .interrupt 0x21 0x7FFF00 0x3C fun _ => 0, .raise 0]

theorem shells_attended : (after boardStep (bootBoard ⟨stalePic, stalePic⟩ shells) keyThenF2).isSome ∧
    Every boardStep (fun _ _ b => Attended b) (bootBoard ⟨stalePic, stalePic⟩ shells) keyThenF2 :=
  ⟨by rfl, attended_run (Machine.mounted shellFs) shells (fun _ => 0)
    (Machine.mounted_booted shellFs) shells_started _ keyThenF2⟩

end Illinix.Interrupt
