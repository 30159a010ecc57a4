/-
# Interrupt.Idt -- the interrupt descriptor table

`idt_init` writes twenty-four gates and takes the present bit from the others.  A
gate is the 64-bit word of `idt_desc_t`, and `deliver` reads it as the processor
does: what may get in through it, with which handler, and whether interrupts stay
on inside.

`gateOf` says in one line a vector what the table is for, and `delivered_iff`
that the table means just that, for handlers anywhere in memory and whatever the
table held before.
-/
import Illinix.Theory.Fields

namespace Illinix.Interrupt

open Illinix.Theory

set_option autoImplicit false

/-! ## Gates -/

def offsetLow : Field := ⟨0, 16⟩
def segSelector : Field := ⟨16, 16⟩
def reserved4 : Field := ⟨32, 8⟩
def reserved3 : Field := ⟨40, 1⟩
def reserved2 : Field := ⟨41, 1⟩
def reserved1 : Field := ⟨42, 1⟩
def size : Field := ⟨43, 1⟩
def reserved0 : Field := ⟨44, 1⟩
def dpl : Field := ⟨45, 2⟩
def present : Field := ⟨47, 1⟩
def offsetHigh : Field := ⟨48, 16⟩

/-- The type of a gate as the processor takes it: bits 40 to 44. -/
def gateType : Field := ⟨40, 5⟩

def kernelCs : Nat := 0x0010
def numVec : Nat := 256

/-- The handlers idt.c puts into gates. -/
inductive Handler where
  | exceptionDivideByZero
  | exceptionDebug
  | exceptionNonMaskableInterrupt
  | exceptionBreakpoint
  | exceptionOverflow
  | exceptionBoundRangeExceeded
  | exceptionInvalidOpcode
  | exceptionDeviceNotAvailable
  | exceptionDoubleFault
  | exceptionSegmentOverrun
  | exceptionInvalidTss
  | exceptionSegmentNotPresent
  | exceptionStackSegmentFault
  | exceptionGeneralProtection
  | exceptionPageFault
  | exceptionReserved
  | exceptionX87FloatingPointError
  | exceptionAlignmentCheck
  | exceptionMachineCheck
  | exceptionSIMDFloatingPoint
  | pitIntWrapper
  | keyboardIntWrapper
  | rtcIntWrapper
  | systemCallWrapper
  deriving DecidableEq, Repr

/-- The table, a word for each vector. -/
abbrev Idt : Type := Nat → Nat

namespace Idt

/-- `SET_IDT_ENTRY` -/
def setIdtEntry (word handler : Nat) : Nat :=
  let word := offsetHigh.set word (handler / 2 ^ 16)
  offsetLow.set word (handler % 2 ^ 16)

/-- The gate `INIT_IDT_PRESENT` makes of a word. -/
def gateWord (word ddppll type entry : Nat) : Nat :=
  let word := present.set word 1
  let word := dpl.set word ddppll
  let word := reserved0.set word 0
  let word := size.set word 1
  let word := reserved1.set word 1
  let word := reserved2.set word 1
  let word := reserved3.set word type
  let word := reserved4.set word 0
  let word := segSelector.set word kernelCs
  setIdtEntry word entry

def initIdtUnpresent (idt : Idt) (i : Nat) : Idt := Function.update idt i (present.set (idt i) 0)

def initIdtPresent (idt : Idt) (i ddppll type entry : Nat) : Idt :=
  Function.update idt i (gateWord (idt i) ddppll type entry)

def initInterrupt (idt : Idt) (i entry : Nat) : Idt := idt.initIdtPresent i 0 0 entry
def initException (idt : Idt) (i entry : Nat) : Idt := idt.initIdtPresent i 0 1 entry
def initSystemcall (idt : Idt) (i entry : Nat) : Idt := idt.initIdtPresent i 3 1 entry

end Idt

/-- The exception handlers, from vector 0 on. -/
def exceptions : List Handler :=
  [.exceptionDivideByZero, .exceptionDebug, .exceptionNonMaskableInterrupt, .exceptionBreakpoint,
    .exceptionOverflow, .exceptionBoundRangeExceeded, .exceptionInvalidOpcode,
    .exceptionDeviceNotAvailable, .exceptionDoubleFault, .exceptionSegmentOverrun,
    .exceptionInvalidTss, .exceptionSegmentNotPresent, .exceptionStackSegmentFault,
    .exceptionGeneralProtection, .exceptionPageFault, .exceptionReserved,
    .exceptionX87FloatingPointError, .exceptionAlignmentCheck, .exceptionMachineCheck,
    .exceptionSIMDFloatingPoint]

def pitIntrIndex : Nat := 0x20
def keyboardIntrIndex : Nat := 0x21
def rtcIntrIndex : Nat := 0x28
def systemCallIndex : Nat := 0x80

/-- `idt_init`, with the handlers' addresses in `layout`. -/
def idtInit (layout : Handler → Nat) (idt : Idt) : Idt :=
  let idt := exceptions.zipIdx.foldl (fun idt p => idt.initException p.2 (layout p.1)) idt
  let idt := (List.range' 0x14 (numVec - 0x14)).foldl Idt.initIdtUnpresent idt
  let idt := idt.initInterrupt pitIntrIndex (layout .pitIntWrapper)
  let idt := idt.initInterrupt keyboardIntrIndex (layout .keyboardIntWrapper)
  let idt := idt.initInterrupt rtcIntrIndex (layout .rtcIntWrapper)
  idt.initSystemcall systemCallIndex (layout .systemCallWrapper)

/-! ## How the processor reads a gate -/

/-- What asks for a vector: a device or a fault, or an `int` instruction of code
at a privilege level. -/
inductive Source where
  | hardware
  | software (cpl : Nat)
  deriving DecidableEq, Repr

/-- Where the processor goes on. -/
structure Entry where
  selector : Nat
  offset : Nat
  /-- Whether the gate takes the interrupt flag away. -/
  interruptsOff : Bool
  deriving DecidableEq, Repr

def Source.allowed : Source → Nat → Bool
  | .hardware, _ => true
  | .software cpl, level => cpl ≤ level

/-- The entry through a vector, or none for a fault. -/
def Idt.deliver (idt : Idt) (source : Source) (vector : Nat) : Option Entry :=
  let word := idt vector
  if source.allowed (dpl.get word) ∧ present.get word = 1 ∧
      (gateType.get word = 0xE ∨ gateType.get word = 0xF) then
    some ⟨segSelector.get word, offsetLow.get word + 2 ^ 16 * offsetHigh.get word,
      gateType.get word = 0xE⟩
  else none

/-- What the table is for: the handler of a vector, the level that may ask for it
by `int`, and whether interrupts are off inside. -/
def gateOf (vector : Nat) : Option (Handler × Nat × Bool) :=
  if vector < 0x14 then exceptions[vector]?.map fun h => (h, 0, false)
  else if vector = pitIntrIndex then some (.pitIntWrapper, 0, true)
  else if vector = keyboardIntrIndex then some (.keyboardIntWrapper, 0, true)
  else if vector = rtcIntrIndex then some (.rtcIntWrapper, 0, true)
  else if vector = systemCallIndex then some (.systemCallWrapper, 3, false)
  else none

/-! ## What is in the table -/

section

variable {α : Type} (key : α → Nat) (value : α → Nat → Nat) {v : Nat}

theorem foldl_update_absent (l : List α) : ∀ idt : Idt, (∀ a ∈ l, key a ≠ v) →
    l.foldl (fun idt a => Function.update idt (key a) (value a (idt (key a)))) idt v = idt v := by
  induction l with
  | nil => intro idt _; rfl
  | cons a rest ih =>
      intro idt other
      rw [List.foldl_cons, ih _ fun b mem => other b (List.mem_cons_of_mem a mem)]
      exact Function.update_of_ne (other a List.mem_cons_self).symm ..

theorem foldl_update_mem {a : α} (l : List α) : ∀ idt : Idt, (l.map key).Nodup → a ∈ l →
    l.foldl (fun idt a => Function.update idt (key a) (value a (idt (key a)))) idt (key a) =
      value a (idt (key a)) := by
  induction l with
  | nil => exact fun _ _ mem => nomatch mem
  | cons b rest ih =>
      intro idt distinct mem
      rw [List.map_cons, List.nodup_cons] at distinct
      rw [List.foldl_cons]
      obtain rfl | later := List.mem_cons.1 mem
      · rw [foldl_update_absent key value rest _ fun c inside same =>
          distinct.1 (List.mem_map.2 ⟨c, inside, same⟩), Function.update_self]
      · have other : key b ≠ key a := fun same => distinct.1 (List.mem_map.2 ⟨a, later, same.symm⟩)
        rw [ih _ distinct.2 later, Function.update_of_ne other.symm]

end

/-- A gate, as the processor reads it. -/
structure Reads (word level type entry : Nat) : Prop where
  present : present.get word = 1
  level : dpl.get word = level
  type : gateType.get word = 0xE + type
  selector : segSelector.get word = kernelCs
  entry : offsetLow.get word + 2 ^ 16 * offsetHigh.get word = entry

/-- The type of a gate, from its bits. -/
theorem gateType_bits (word : Nat) : gateType.get word = reserved3.get word +
    2 * reserved2.get word + 4 * reserved1.get word + 8 * size.get word +
      16 * reserved0.get word := by
  simp only [Field.get, gateType, reserved3, reserved2, reserved1, size, reserved0]
  omega

theorem gateWord_reads (word : Nat) {level type entry : Nat} (low : level < 4) (bit : type < 2)
    (small : entry < 2 ^ 32) : Reads (Idt.gateWord word level type entry) level type entry := by
  constructor
  · simp (disch := decide) only [Idt.gateWord, Idt.setIdtEntry, Field.get_set_other, Field.get_set]
    rfl
  · simp (disch := decide) only [Idt.gateWord, Idt.setIdtEntry, Field.get_set_other, Field.get_set]
    exact Nat.mod_eq_of_lt low
  · rw [gateType_bits]
    simp (disch := decide) only [Idt.gateWord, Idt.setIdtEntry, Field.get_set_other, Field.get_set]
    simp only [reserved3, reserved2, reserved1, size, reserved0]
    omega
  · simp (disch := decide) only [Idt.gateWord, Idt.setIdtEntry, Field.get_set_other, Field.get_set]
    rfl
  · simp (disch := decide) only [Idt.gateWord, Idt.setIdtEntry, Field.get_set_other, Field.get_set]
    simp only [offsetLow, offsetHigh]
    omega

/-- A gate lets in who may, at its handler. -/
theorem Reads.deliver {idt : Idt} {v level type entry : Nat} (reads : Reads (idt v) level type entry)
    (bit : type < 2) (source : Source) : idt.deliver source v =
      if source.allowed level then some ⟨kernelCs, entry, type = 0⟩ else none := by
  have kind : type = 0 ∨ 0xE + type = 0xF := by omega
  simp only [Idt.deliver, reads.present, reads.level, reads.type, reads.selector, reads.entry,
    Nat.add_eq_left, kind, and_true]

theorem deliver_absent {idt : Idt} {v : Nat} (absent : present.get (idt v) = 0) (source : Source) :
    idt.deliver source v = none := by
  simp only [Idt.deliver, absent]
  exact if_neg fun all => nomatch all.2.1

section

variable (layout : Handler → Nat) (idt : Idt)

/-- The table before the four gates of the devices and the system calls. -/
def exceptionGates : Idt :=
  (List.range' 0x14 (numVec - 0x14)).foldl Idt.initIdtUnpresent
    (exceptions.zipIdx.foldl (fun idt p => idt.initException p.2 (layout p.1)) idt)

theorem exceptionGates_low {v : Nat} {h : Handler} (found : exceptions[v]? = some h) :
    exceptionGates layout idt v = Idt.gateWord (idt v) 0 1 (layout h) := by
  have inside : v < exceptions.length := (List.getElem?_eq_some_iff.1 found).1
  have mem : (h, v) ∈ exceptions.zipIdx := List.mk_mem_zipIdx_iff_getElem?.2 found
  have first := @foldl_update_absent _ id (fun _ word => present.set word 0) v
    (List.range' 0x14 (numVec - 0x14))
    (exceptions.zipIdx.foldl (fun idt p => idt.initException p.2 (layout p.1)) idt)
    fun i high => by
      have low : v < 0x14 := inside
      have := (List.mem_range'_1.1 high).1
      simp only [id]
      omega
  have gate := foldl_update_mem Prod.snd
    (fun (p : Handler × Nat) word => Idt.gateWord word 0 1 (layout p.1)) exceptions.zipIdx idt
    (by decide) mem
  exact first.trans gate

theorem exceptionGates_high {v : Nat} (low : 0x14 ≤ v) (inside : v < numVec) :
    present.get (exceptionGates layout idt v) = 0 := by
  have mem : v ∈ List.range' 0x14 (numVec - 0x14) := by
    rw [List.mem_range'_1]
    omega
  have cleared := foldl_update_mem id (fun _ word => present.set word 0)
    (List.range' 0x14 (numVec - 0x14))
    (exceptions.zipIdx.foldl (fun idt p => idt.initException p.2 (layout p.1)) idt)
    (by rw [List.map_id]; exact List.nodup_range') mem
  rw [exceptionGates]
  refine (congrArg present.get cleared).trans ?_
  exact Field.get_set ..

theorem idtInit_other {v : Nat} (other : v ≠ pitIntrIndex ∧ v ≠ keyboardIntrIndex ∧
    v ≠ rtcIntrIndex ∧ v ≠ systemCallIndex) : idtInit layout idt v = exceptionGates layout idt v := by
  obtain ⟨pit, keyboard, rtc, call⟩ := other
  simp only [idtInit, Idt.initSystemcall, Idt.initInterrupt, Idt.initIdtPresent]
  rw [Function.update_of_ne call, Function.update_of_ne rtc, Function.update_of_ne keyboard,
    Function.update_of_ne pit]
  rfl

/-- Every gate of the table, as `gateOf` lists it. -/
theorem idtInit_reads (small : ∀ h, layout h < 2 ^ 32) {v level : Nat} {h : Handler} {off : Bool}
    (listed : gateOf v = some (h, level, off)) :
    Reads (idtInit layout idt v) level (if off then 0 else 1) (layout h) := by
  simp only [gateOf] at listed
  split_ifs at listed with low pit keyboard rtc call
  · obtain ⟨h', found, same⟩ := Option.map_eq_some_iff.1 listed
    cases same
    have other : v ≠ pitIntrIndex ∧ v ≠ keyboardIntrIndex ∧ v ≠ rtcIntrIndex ∧
        v ≠ systemCallIndex := by
      simp only [pitIntrIndex, keyboardIntrIndex, rtcIntrIndex, systemCallIndex]
      omega
    rw [idtInit_other layout idt other, exceptionGates_low layout idt found]
    exact gateWord_reads _ (by decide) (by decide) (small h)
  -- the four gates written last are at vectors of their own
  all_goals
    cases listed
    subst v
    simp (disch := decide) only [idtInit, Idt.initSystemcall, Idt.initInterrupt, Idt.initIdtPresent,
      Function.update_of_ne, Function.update_self]
    exact gateWord_reads _ (by decide) (by decide) (small _)

theorem gateOf_none {v : Nat} (unlisted : gateOf v = none) : 0x14 ≤ v ∧ v ≠ pitIntrIndex ∧
    v ≠ keyboardIntrIndex ∧ v ≠ rtcIntrIndex ∧ v ≠ systemCallIndex := by
  simp only [gateOf] at unlisted
  split_ifs at unlisted with low pit keyboard rtc call
  · have inside : v < exceptions.length := low
    rw [Option.map_eq_none_iff, List.getElem?_eq_none_iff] at unlisted
    omega
  · exact ⟨Nat.not_lt.1 low, pit, keyboard, rtc, call⟩

end

/-- **The table means what it is for.** -/
theorem delivered_iff (layout : Handler → Nat) (small : ∀ h, layout h < 2 ^ 32) (idt : Idt)
    (source : Source) (v : Nat) (inside : v < numVec) (entry : Entry) :
    (idtInit layout idt).deliver source v = some entry ↔ ∃ h level off,
      gateOf v = some (h, level, off) ∧ source.allowed level = true ∧
        entry = ⟨kernelCs, layout h, off⟩ := by
  cases listed : gateOf v with
  | none =>
      obtain ⟨low, other⟩ := gateOf_none listed
      have absent := exceptionGates_high layout idt low inside
      rw [← idtInit_other layout idt other] at absent
      rw [deliver_absent absent]
      constructor
      · exact fun delivered => nomatch delivered
      · exact fun ⟨_, _, _, gate, _⟩ => nomatch gate
  | some gate =>
      obtain ⟨h, level, off⟩ := gate
      have reads := idtInit_reads layout idt small listed
      have kind : decide ((if off then 0 else 1) = 0) = off := by cases off <;> rfl
      rw [reads.deliver (by cases off <;> decide), kind]
      constructor
      · intro delivered
        split_ifs at delivered with allowed
        exact ⟨h, level, off, rfl, allowed, (Option.some.inj delivered).symm⟩
      · rintro ⟨_, _, _, same, allowed, rfl⟩
        cases same
        rw [if_pos allowed]

/-- A kernel with the wrappers at one place and the exception handlers at another. -/
def linkedAt : Handler → Nat
  | .pitIntWrapper => 0x400C10
  | .keyboardIntWrapper => 0x400C70
  | .rtcIntWrapper => 0x400CD0
  | .systemCallWrapper => 0x400D30
  | h => 0x403000 + 0x40 * exceptions.idxOf h

theorem linkedAt_small (h : Handler) : linkedAt h < 2 ^ 32 := by
  cases h <;> decide

/-- A system call, with a table of random words before `idt_init`. -/
theorem systemCall_delivered : (idtInit linkedAt fun v => 0xDEADBEEF * v).deliver (.software 3) 0x80 =
    some ⟨kernelCs, 0x400D30, false⟩ :=
  (delivered_iff linkedAt linkedAt_small _ (.software 3) 0x80 (by decide) _).2
    ⟨.systemCallWrapper, 3, false, rfl, rfl, rfl⟩

/-- A user program gets in at vector 0x80 only. -/
theorem user_gate (v : Nat) : (∃ h level off, gateOf v = some (h, level, off) ∧
    (Source.software 3).allowed level = true) ↔ v = systemCallIndex := by
  constructor
  · rintro ⟨h, level, off, listed, allowed⟩
    simp only [gateOf] at listed
    split_ifs at listed with low pit keyboard rtc call
    · obtain ⟨h', found, same⟩ := Option.map_eq_some_iff.1 listed
      cases same
      exact nomatch allowed
    · cases listed; exact nomatch allowed
    · cases listed; exact nomatch allowed
    · cases listed; exact nomatch allowed
    · exact call
  · rintro rfl
    exact ⟨_, _, _, rfl, rfl⟩

end Illinix.Interrupt
