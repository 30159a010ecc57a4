/-
# Interrupt.I8259 -- the interrupt controllers as i8259.c drives them

The kernel sees the chips through four ports and keeps a copy of each mask in
memory.  `Programmed` is what `i8259_init` brings about, whatever the chips were
doing before: vectors from 0x20 and 0x28 on, the cascade on line 2, and masks
equal to the copies.

`LineEvent`s are what happens to the controllers: a device raises its line, the
processor acknowledges a vector, the kernel calls `enable_irq`, `disable_irq`
and `send_eoi`.  `controllerStep` runs the source's functions on the chips,
`lineStep` says what they are for, and the two agree on every run that ends only
interrupts in service.
-/
import Illinix.Theory.Pic
import Illinix.Theory.Run

namespace Illinix.Interrupt

open Illinix.Theory

set_option autoImplicit false

def master8259Command : Nat := 0x20
def master8259Data : Nat := 0x21
def slave8259Command : Nat := 0xA0
def slave8259Data : Nat := 0xA1

def icw1 : BitVec 8 := 0x11
def icw2Master : BitVec 8 := 0x20
def icw2Slave : BitVec 8 := 0x28
def icw3Master : BitVec 8 := 0x04
def icw3Slave : BitVec 8 := 0x02
def icw4 : BitVec 8 := 0x01

def eoi : BitVec 8 := 0x60
def slaveIrq : Nat := 0x02
def irqMasterMax : Nat := 0x07
def irqMax : Nat := 0x0F

/-- The chips, and the kernel's `master_mask` and `slave_mask`. -/
structure Controller where
  pics : PicPair
  masterMask : BitVec 8
  slaveMask : BitVec 8
  deriving DecidableEq, Repr

namespace Controller

/-- `outb` on the controllers' ports. -/
def outb (c : Controller) (data : BitVec 8) (port : Nat) : Controller :=
  if port = master8259Command then
    { c with pics := { c.pics with master := c.pics.master.command data } }
  else if port = master8259Data then
    { c with pics := { c.pics with master := c.pics.master.data data } }
  else if port = slave8259Command then
    { c with pics := { c.pics with slave := c.pics.slave.command data } }
  else if port = slave8259Data then
    { c with pics := { c.pics with slave := c.pics.slave.data data } }
  else c

def i8259Init (c : Controller) : Controller :=
  let c := c.outb 0xFF master8259Data
  let c := c.outb 0xFF slave8259Data
  let c := c.outb icw1 master8259Command
  let c := c.outb icw1 slave8259Command
  let c := c.outb icw2Master master8259Data
  let c := c.outb icw2Slave slave8259Data
  let c := c.outb icw3Master master8259Data
  let c := c.outb icw3Slave slave8259Data
  let c := c.outb icw4 master8259Data
  let c := c.outb icw4 slave8259Data
  let c := c.outb c.masterMask master8259Data
  c.outb c.slaveMask slave8259Data

def enableIrq (c : Controller) (irqNum : Nat) : Controller :=
  if irqNum > irqMax then c
  else if irqNum ≤ irqMasterMax then
    let c := { c with masterMask := c.masterMask &&& ~~~(1#8 <<< irqNum) }
    c.outb c.masterMask master8259Data
  else
    let c := { c with slaveMask := c.slaveMask &&& ~~~(1#8 <<< (irqNum - 8)) }
    c.outb c.slaveMask slave8259Data

def disableIrq (c : Controller) (irqNum : Nat) : Controller :=
  if irqNum > irqMax then c
  else if irqNum ≤ irqMasterMax then
    let c := { c with masterMask := c.masterMask ||| (1#8 <<< irqNum) }
    c.outb c.masterMask master8259Data
  else
    let c := { c with slaveMask := c.slaveMask ||| (1#8 <<< (irqNum - 8)) }
    c.outb c.slaveMask slave8259Data

def sendEoi (c : Controller) (irqNum : Nat) : Controller :=
  if irqNum > irqMax then c
  else if irqNum > irqMasterMax then
    let c := c.outb (eoi ||| BitVec.ofNat 8 (irqNum - 8)) slave8259Command
    c.outb (eoi ||| BitVec.ofNat 8 slaveIrq) master8259Command
  else c.outb (eoi ||| BitVec.ofNat 8 irqNum) master8259Command

/-- The kernel's masks as the loader puts them into memory, over chips in any
state. -/
def loaded (pics : PicPair) : Controller := ⟨pics, 0xFB, 0xFF⟩

/-! ## What the initialization sets up -/

/-- The chips as `i8259_init` programs them, with the kernel's masks in them. -/
structure Programmed (c : Controller) : Prop where
  cascaded : c.pics.Cascaded
  masterBase : c.pics.master.base = icw2Master
  slaveBase : c.pics.slave.base = icw2Slave
  masterMask : c.pics.master.imr = c.masterMask
  slaveMask : c.pics.slave.imr = c.slaveMask

variable {c : Controller}

/-- The chips after the initialization: nothing is left of what they were. -/
theorem i8259Init_eq (c : Controller) : c.i8259Init =
    { c with pics :=
      { master := ⟨0, c.masterMask, 0, icw2Master, icw3Master, icw4, .ready⟩
        slave := ⟨0, c.slaveMask, 0, icw2Slave, icw3Slave, icw4, .ready⟩ } } := rfl

theorem programmed_init (c : Controller) : c.i8259Init.Programmed := by
  rw [i8259Init_eq]
  have normal : ∀ irr imr isr base cascade,
      (⟨irr, imr, isr, base, cascade, icw4, .ready⟩ : Pic).normal = true := by
    intro _ _ _ _ _
    exact (by decide : (decide (PicStage.ready = .ready) && decide (icw4 &&& 0x13 = 1)) = true)
  refine ⟨⟨normal .., normal .., rfl, rfl, ?_, ?_⟩, rfl, rfl, rfl, rfl⟩
  · simp
  · simp

theorem Programmed.of_setup (programmed : c.Programmed) {pics : PicPair} (cascaded : pics.Cascaded)
    (same : pics.setup = c.pics.setup) : ({ c with pics := pics } : Controller).Programmed := by
  simp only [PicPair.setup, Prod.mk.injEq] at same
  obtain ⟨⟨imr, base⟩, imr', base'⟩ := same
  exact ⟨cascaded, base.trans programmed.masterBase, base'.trans programmed.slaveBase,
    imr.trans programmed.masterMask, imr'.trans programmed.slaveMask⟩

/-- The vectors of the sixteen lines follow each other. -/
theorem Programmed.vector (programmed : c.Programmed) {n : Nat} (inside : n < 16) :
    c.pics.vector n = BitVec.ofNat 8 (0x20 + n) := by
  rw [PicPair.vector, programmed.masterBase, programmed.slaveBase]
  revert n
  decide

theorem command_eoi (chip : Pic) {n : Nat} (inside : n < 8) :
    chip.command (eoi ||| BitVec.ofNat 8 n) = { chip with isr := clearBit chip.isr n } := by
  have word : ∀ n, n < 8 → (eoi ||| BitVec.ofNat 8 n).getLsbD 4 = false ∧
      (eoi ||| BitVec.ofNat 8 n).toNat / 8 = 12 ∧ (eoi ||| BitVec.ofNat 8 n).toNat % 8 = n := by
    decide
  obtain ⟨plain, order, line⟩ := word n inside
  rw [Pic.command, plain, if_neg Bool.false_ne_true, if_pos order, line]

theorem data_ready {chip : Pic} (normal : chip.normal = true) (v : BitVec 8) :
    chip.data v = { chip with imr := v } := by
  have ready : chip.stage = .ready := by
    simp only [Pic.normal, Bool.and_eq_true, decide_eq_true_eq] at normal
    exact normal.1
  rw [Pic.data, ready]

/-- An end of interrupt goes to every chip of its line. -/
theorem sendEoi_eq (c : Controller) (n : Nat) :
    c.sendEoi n = if n < 16 then { c with pics := c.pics.finished n } else c := by
  by_cases inside : n < 16
  · rw [if_pos inside, sendEoi, if_neg (by simp only [irqMax]; omega)]
    by_cases low : n < 8
    · rw [if_neg (by simp only [irqMasterMax]; omega), PicPair.finished, if_pos low]
      exact congrArg (fun chip => { c with pics := { c.pics with master := chip } })
        (command_eoi _ low)
    · rw [if_pos (by simp only [irqMasterMax]; omega), PicPair.finished, if_neg low]
      have master := command_eoi c.pics.master (n := cascadeLine) (by decide)
      have slave := command_eoi c.pics.slave (n := n - 8) (by omega)
      exact congrArg₂ (fun one other => { c with pics := ⟨one, other⟩ }) master slave
  · rw [if_neg inside, sendEoi, if_pos (by simp only [irqMax]; omega)]

/-- Opening or closing a line in the kernel's masks and the chips'. -/
def setMask (c : Controller) (n : Nat) (isOpen : Bool) : Controller :=
  let bit := if isOpen then clearBit else setBit
  if n < 8 then
    { c with
      masterMask := bit c.masterMask n
      pics := { c.pics with master := { c.pics.master with imr := bit c.masterMask n } } }
  else
    { c with
      slaveMask := bit c.slaveMask (n - 8)
      pics := { c.pics with slave := { c.pics.slave with imr := bit c.slaveMask (n - 8) } } }

theorem enableIrq_eq (programmed : c.Programmed) (n : Nat) :
    c.enableIrq n = if n < 16 then c.setMask n true else c := by
  have master := data_ready programmed.cascaded.masterNormal (clearBit c.masterMask n)
  have slave := data_ready programmed.cascaded.slaveNormal (clearBit c.slaveMask (n - 8))
  by_cases inside : n < 16
  · rw [if_pos inside, enableIrq, if_neg (by simp only [irqMax]; omega), setMask]
    by_cases low : n < 8
    · rw [if_pos (by simp only [irqMasterMax]; omega), if_pos low]
      exact congrArg (fun chip => (⟨{ c.pics with master := chip }, clearBit c.masterMask n,
        c.slaveMask⟩ : Controller)) master
    · rw [if_neg (by simp only [irqMasterMax]; omega), if_neg low]
      exact congrArg (fun chip => (⟨{ c.pics with slave := chip }, c.masterMask,
        clearBit c.slaveMask (n - 8)⟩ : Controller)) slave
  · rw [if_neg inside, enableIrq, if_pos (by simp only [irqMax]; omega)]

theorem disableIrq_eq (programmed : c.Programmed) (n : Nat) :
    c.disableIrq n = if n < 16 then c.setMask n false else c := by
  have master := data_ready programmed.cascaded.masterNormal (setBit c.masterMask n)
  have slave := data_ready programmed.cascaded.slaveNormal (setBit c.slaveMask (n - 8))
  by_cases inside : n < 16
  · rw [if_pos inside, disableIrq, if_neg (by simp only [irqMax]; omega), setMask]
    by_cases low : n < 8
    · rw [if_pos (by simp only [irqMasterMax]; omega), if_pos low]
      exact congrArg (fun chip => (⟨{ c.pics with master := chip }, setBit c.masterMask n,
        c.slaveMask⟩ : Controller)) master
    · rw [if_neg (by simp only [irqMasterMax]; omega), if_neg low]
      exact congrArg (fun chip => (⟨{ c.pics with slave := chip }, c.masterMask,
        setBit c.slaveMask (n - 8)⟩ : Controller)) slave
  · rw [if_neg inside, disableIrq, if_pos (by simp only [irqMax]; omega)]

theorem Programmed.setMask (programmed : c.Programmed) (n : Nat) (isOpen : Bool) :
    (c.setMask n isOpen).Programmed := by
  have cascaded := programmed.cascaded
  by_cases low : n < 8
  · rw [Controller.setMask, if_pos low]
    exact ⟨cascaded.congr ⟨rfl, rfl, rfl, rfl⟩ ⟨rfl, rfl, rfl, rfl⟩, programmed.masterBase,
      programmed.slaveBase, rfl, programmed.slaveMask⟩
  · rw [Controller.setMask, if_neg low]
    exact ⟨cascaded.congr ⟨rfl, rfl, rfl, rfl⟩ ⟨rfl, rfl, rfl, rfl⟩, programmed.masterBase,
      programmed.slaveBase, programmed.masterMask, rfl⟩

/-- The mask bit of line `n` opens or closes the line and no other. -/
theorem setMask_lines (programmed : c.Programmed) {n : Nat} (inside : n < 16) (isOpen : Bool) :
    (c.setMask n isOpen).pics.lines = c.pics.lines.setOpen n isOpen := by
  have masks : ∀ i, lineBit (c.setMask n isOpen).pics.master.imr (c.setMask n isOpen).pics.slave.imr i =
      if i = n then !isOpen else lineBit c.masterMask c.slaveMask i := by
    intro i
    obtain low | ⟨k, rfl⟩ := line_cases n
    · rw [setMask, if_pos low, programmed.slaveMask]
      cases isOpen
      · exact (lineBit_setLow _ _ low i).trans (by split_ifs with same <;> simp [same])
      · exact (lineBit_clearLow _ _ low i).trans (by split_ifs with same <;> simp [same])
    · rw [setMask, if_neg (by omega), Nat.add_sub_cancel_left, programmed.masterMask]
      cases isOpen
      · exact (lineBit_setHigh _ _ (by omega) i).trans (by split_ifs with same <;> simp [same])
      · exact (lineBit_clearHigh _ _ k i).trans (by split_ifs with same <;> simp [same])
  refine Lines.ext ?_ (funext fun i => ?_) ?_
  · simp only [setMask]
    split_ifs <;> rfl
  · simp only [PicPair.lines, Lines.setOpen, Function.update_apply, masks, programmed.masterMask,
      programmed.slaveMask]
    by_cases same : i = n
    · rw [if_pos same, if_pos same, Bool.not_not, same, decide_eq_true inside, Bool.true_and]
    · rw [if_neg same, if_neg same]
  · simp only [setMask]
    split_ifs <;> rfl

end Controller

/-! ## Runs -/

inductive LineEvent where
  /-- A device on the line asks for an interrupt. -/
  | raise (n : Nat)
  /-- The processor takes an interrupt and gets this vector. -/
  | acknowledge (v : BitVec 8)
  | enableIrq (n : Nat)
  | disableIrq (n : Nat)
  | sendEoi (n : Nat)
  deriving DecidableEq, Repr

open Controller

def controllerStep (c : Controller) : LineEvent → Option Controller
  | .raise n => if n < 16 ∧ n ≠ cascadeLine then some { c with pics := c.pics.raise n } else none
  | .acknowledge v => do
      let (pics, vector) ← c.pics.acknowledge
      if vector = v then some { c with pics := pics } else none
  | .enableIrq n => some (c.enableIrq n)
  | .disableIrq n => some (c.disableIrq n)
  | .sendEoi n => some (c.sendEoi n)

open Classical in
/-- What the controllers are for: requests are kept until they are delivered, in
the order of the levels, at the vector of the line. -/
noncomputable def lineStep (s : Lines) : LineEvent → Option Lines
  | .raise n => if n < 16 ∧ n ≠ cascadeLine then some (s.request n) else none
  | .acknowledge v =>
      if ∃ n, s.Best n ∧ v = BitVec.ofNat 8 (0x20 + n) then some (s.serve (v.toNat - 0x20)) else none
  | .enableIrq n => some (if n < 16 then s.setOpen n true else s)
  | .disableIrq n => some (if n < 16 then s.setOpen n false else s)
  | .sendEoi n => some (if n < 16 then s.finish n else s)

/-- Only interrupts in service are ended. -/
def EndsServed (c : Controller) : LineEvent → Prop
  | .sendEoi n => n < 16 → c.pics.lines.serving n = true
  | _ => True

instance (c : Controller) : (e : LineEvent) → Decidable (EndsServed c e)
  | .sendEoi n => inferInstanceAs (Decidable (n < 16 → _))
  | .raise _ => instDecidableTrue
  | .acknowledge _ => instDecidableTrue
  | .enableIrq _ => instDecidableTrue
  | .disableIrq _ => instDecidableTrue

section

variable {c c' : Controller}

theorem Controller.Programmed.acknowledge_iff (programmed : c.Programmed) {v : BitVec 8} :
    controllerStep c (.acknowledge v) = some c' ↔ ∃ n, c.pics.lines.Best n ∧
      v = BitVec.ofNat 8 (0x20 + n) ∧ c' = { c with pics := c.pics.taken n } := by
  simp only [controllerStep, Option.bind_eq_bind, Option.bind_eq_some_iff, Prod.exists]
  constructor
  · rintro ⟨pics, vector, taken, rest⟩
    split_ifs at rest with same
    obtain rfl := Option.some.inj rest
    obtain ⟨n, best, rfl, rfl⟩ := (PicPair.acknowledge_iff programmed.cascaded).1 taken
    have inside := (PicPair.pending_inside best.pending).1
    exact ⟨n, best, same.symm.trans (programmed.vector inside), rfl⟩
  · rintro ⟨n, best, rfl, rfl⟩
    have inside := (PicPair.pending_inside best.pending).1
    refine ⟨_, _, (PicPair.acknowledge_iff programmed.cascaded).2 ⟨n, best, rfl, rfl⟩, ?_⟩
    rw [programmed.vector inside, if_pos rfl]

theorem programmed_step {e : LineEvent} (programmed : c.Programmed) (ends : EndsServed c e)
    (step : controllerStep c e = some c') : c'.Programmed := by
  have cascaded := programmed.cascaded
  cases e with
  | raise n =>
      simp only [controllerStep] at step
      split_ifs at step
      obtain rfl := Option.some.inj step
      exact programmed.of_setup (cascaded.raise n) (c.pics.raise_setup n)
  | acknowledge v =>
      obtain ⟨n, best, rfl, rfl⟩ := programmed.acknowledge_iff.1 step
      exact programmed.of_setup (cascaded.taken best) (c.pics.taken_setup n)
  | enableIrq n =>
      obtain rfl := Option.some.inj step
      rw [enableIrq_eq programmed]
      split_ifs
      · exact programmed.setMask n true
      · exact programmed
  | disableIrq n =>
      obtain rfl := Option.some.inj step
      rw [disableIrq_eq programmed]
      split_ifs
      · exact programmed.setMask n false
      · exact programmed
  | sendEoi n =>
      obtain rfl := Option.some.inj step
      rw [sendEoi_eq]
      split_ifs with inside
      · exact programmed.of_setup (cascaded.finished (ends inside)) (c.pics.finished_setup n)
      · exact programmed

/-- One event, seen as lines. -/
theorem controllerStep_lines (programmed : c.Programmed) (e : LineEvent) :
    (controllerStep c e).map (fun c => c.pics.lines) = lineStep c.pics.lines e := by
  cases e with
  | raise n =>
      simp only [controllerStep, lineStep]
      split_ifs with line
      · exact congrArg some (PicPair.raise_lines line.1 line.2)
      · rfl
  | acknowledge v =>
      simp only [lineStep]
      split_ifs with best
      · obtain ⟨n, best, vector⟩ := best
        have inside := PicPair.pending_inside best.pending
        have line : v.toNat - 0x20 = n := by
          rw [vector, BitVec.toNat_ofNat]
          omega
        rw [programmed.acknowledge_iff.2 ⟨n, best, vector, rfl⟩, line]
        exact congrArg some (PicPair.taken_lines inside.1 inside.2)
      · rw [Option.map_eq_none_iff, Option.eq_none_iff_forall_ne_some]
        intro c' step
        obtain ⟨n, chosen, vector, _⟩ := programmed.acknowledge_iff.1 step
        exact best ⟨n, chosen, vector⟩
  | enableIrq n =>
      simp only [controllerStep, lineStep, Option.map_some, enableIrq_eq programmed]
      split_ifs with inside
      · rw [setMask_lines programmed inside]
      · rfl
  | disableIrq n =>
      simp only [controllerStep, lineStep, Option.map_some, disableIrq_eq programmed]
      split_ifs with inside
      · rw [setMask_lines programmed inside]
      · rfl
  | sendEoi n =>
      simp only [controllerStep, lineStep, Option.map_some, sendEoi_eq]
      split_ifs
      · exact congrArg some PicPair.finished_lines
      · rfl

end

/-- The lines at boot: only the gate of the upper eight is open. -/
def bootLines : Lines := ⟨fun _ => false, fun n => n = cascadeLine, fun _ => false⟩

theorem loaded_lines (pics : PicPair) : (loaded pics).i8259Init.pics.lines = bootLines := by
  rw [i8259Init_eq]
  have masks : ∀ n, n < 16 → lineBit (0xFB : BitVec 8) 0xFF n = decide (n ≠ cascadeLine) := by decide
  refine Lines.ext (funext fun n => ?_) (funext fun n => ?_) (funext fun n => ?_)
  · simp [PicPair.lines, bootLines, lineBit]
  · simp only [PicPair.lines, bootLines, loaded]
    by_cases inside : n < 16
    · rw [masks n inside]
      simp [inside]
    · simp only [inside, decide_false, Bool.false_and]
      exact (decide_eq_false (by simp only [cascadeLine]; omega)).symm
  · simp [PicPair.lines, bootLines, lineBit]

/-- **The controllers are what i8259.c makes of them: sixteen lines.** -/
theorem controller_refines (pics : PicPair) (run : List LineEvent)
    (ends : Meets controllerStep EndsServed (loaded pics).i8259Init run) :
    (after controllerStep (loaded pics).i8259Init run).map (fun c => c.pics.lines) =
        after lineStep bootLines run ∧
      Every controllerStep (fun _ _ c => c.Programmed) (loaded pics).i8259Init run := by
  constructor
  · rw [← loaded_lines pics]
    exact after_view (fun c => c.pics.lines) lineStep Programmed
      (fun c e programmed _ => controllerStep_lines programmed e)
      (fun c e c' programmed ends step => programmed_step programmed ends step) run _
      (programmed_init _) ends
  · exact every_of_meets Programmed (fun c e c' programmed ends step =>
      ⟨programmed_step programmed ends step, programmed_step programmed ends step⟩) run _
      (programmed_init _) ends

/-- A chip that was left in the middle of another initialization. -/
def stalePic : Pic := ⟨0xFF, 0, 0xFF, 8, 0, 0, .icw3 false⟩

/-- A key comes while the RTC waits, and the RTC again while it is served. -/
def keyThenRtc : List LineEvent := [.enableIrq 8, .enableIrq 1, .raise 8, .raise 1,
  .acknowledge 0x21, .sendEoi 1, .acknowledge 0x28, .raise 8, .sendEoi 8, .acknowledge 0x28]

theorem keyThenRtc_served : (after lineStep bootLines keyThenRtc).isSome = true ∧
    Every controllerStep (fun _ _ c => c.Programmed) (loaded ⟨stalePic, stalePic⟩).i8259Init
      keyThenRtc := by
  obtain ⟨same, programmed⟩ := controller_refines ⟨stalePic, stalePic⟩ keyThenRtc (by decide)
  refine ⟨?_, programmed⟩
  rw [← same, Option.isSome_map]
  decide

end Illinix.Interrupt
