/-
# Kernel.Keyboard -- the keyboard handler and the exception handlers

`keyboard_handler` reads one scan code.  A visible key, tab, backspace and enter
go to the shown terminal's line and screen; F1 to F3 switch terminals; Ctrl+L
clears, Ctrl+C marks the shown terminal for the next tick.

The twenty exception handlers of idt.c differ in their text only: each prints it,
sets `exception_occurred` and calls `halt(255)`.  `raise` is such a handler up to
that call; interrupts are on until then.
-/
import Illinix.Kernel.Sched
import Mathlib.Data.Nat.Digits.Defs

namespace Illinix.Kernel

open Illinix.FileSys Illinix.Theory

set_option autoImplicit false

/-! ## Scan codes -/

def scBackspace : Nat := 0x0E
def scTab : Nat := 0x0F
def scEnter : Nat := 0x1C
def scLeftControl : Nat := 0x1D
def scLeftShift : Nat := 0x2A
def scRightShift : Nat := 0x36
def scLeftAlt : Nat := 0x38
def scCapsLock : Nat := 0x3A
def scF1 : Nat := 0x3B
def scF3 : Nat := 0x3D
def scLeftControlRel : Nat := 0x9D
def scLeftShiftRel : Nat := 0xAA
def scRightShiftRel : Nat := 0xB6

/-- The keys of Ctrl+L and Ctrl+C. -/
def scL : Nat := 0x26
def scC : Nat := 0x2E

def kbfLeftShift : Nat := 0x1
def kbfRightShift : Nat := 0x2
def kbfAlt : Nat := 0x4
def kbfCapsLock : Nat := 0x8
def kbfControl : Nat := 0x10

def visibleScancodeMap : List UInt8 :=
  [0, 0] ++ text "1234567890-=" ++ [0, 0] ++ text "qwertyuiop[]" ++ [0, 0] ++
    text "asdfghjkl;'`" ++ [0] ++ text "\\zxcvbnm,./" ++ [0, 0, 0] ++ text " "

def visibleScancodeMapShifted : List UInt8 :=
  [0, 0] ++ text "!@#$%^&*()_+" ++ [0, 0] ++ text "QWERTYUIOP[]" ++ [0, 0] ++
    text "ASDFGHJKL:\"~" ++ [0] ++ text "|ZXCVBNM<>?" ++ [0, 0, 0] ++ text " "

namespace Machine

/-! ## keyboard_handler -/

def setKeys (m : Machine) (keys : Nat) : Machine :=
  { m with keyboardBitmap := m.keyboardBitmap ||| keys }

def clearKeys (m : Machine) (keys : Nat) : Machine :=
  { m with keyboardBitmap := m.keyboardBitmap &&& (0xFFFFFFFF ^^^ keys) }

def pressed (m : Machine) (key : Nat) : Bool := m.keyboardBitmap &&& key ≠ 0

/-- `content[length++] = c` for the shown terminal. -/
def pushInput (m : Machine) (c : UInt8) : Option Machine :=
  let t := m.terms m.shownTermId
  if t.length < maxTerminal then
    some (m.setTerm m.shownTermId
      { t with content := Function.update t.content t.length c, length := t.length + 1 })
  else none

/-- `content[--length] = 0` for the shown terminal. -/
def popInput (m : Machine) : Option Machine :=
  let t := m.terms m.shownTermId
  if t.length ≤ maxTerminal then
    some (m.setTerm m.shownTermId
      { t with content := Function.update t.content (t.length - 1) 0, length := t.length - 1 })
  else none

/-- A key of the visible map, `ch` its character. -/
def visibleKey (m : Machine) (scancode : Nat) (ch : UInt8) : Option Machine :=
  let term := m.terms m.shownTermId
  if m.pressed kbfControl then
    if scancode = scL then m.clear
    else if scancode = scC then some (m.setTerm m.shownTermId { term with toBeHalt := true })
    else some m
  else do
    let m ← m.echo ch
    if (m.terms m.shownTermId).length < maxTerminal then m.pushInput ch else some m

/-- The keys that only change `keyboard_bitmap`. -/
def modifierKey (m : Machine) (scancode : Nat) : Option Machine :=
  if scancode = scLeftShift then some (m.setKeys kbfLeftShift)
  else if scancode = scRightShift then some (m.setKeys kbfRightShift)
  else if scancode = scLeftShiftRel ∨ scancode = scRightShiftRel then
    some (m.clearKeys (kbfLeftShift ||| kbfRightShift))
  else if scancode = scCapsLock then some (m.clearKeys kbfCapsLock)
  else if scancode = scLeftAlt then some (m.setKeys kbfAlt)
  else if scancode = scLeftControl then some (m.setKeys kbfControl)
  else if scancode = scLeftControlRel then some (m.clearKeys kbfControl)
  else none

def charOf (m : Machine) (scancode : Nat) : UInt8 :=
  let map := if m.pressed kbfLeftShift ∨ m.pressed kbfRightShift then visibleScancodeMapShifted
    else visibleScancodeMap
  map.getD scancode 0

/-- The keys of the line: tab, backspace, enter and the visible ones. -/
def lineKey (m : Machine) (scancode : Nat) : Option Machine :=
  if scancode = scTab then do
    let m ← m.echo '\t'.toUInt8
    m.pushInput '\t'.toUInt8
  else if scancode = scBackspace then
    if 0 < (m.terms m.shownTermId).length then do
      let m ← m.echo 0x08
      m.popInput
    else some m
  else if scancode = scEnter then do
    let m ← m.echo '\n'.toUInt8
    some (m.setTerm m.shownTermId { m.terms m.shownTermId with inProgress := false })
  else if visibleScancodeMap.getD scancode 0 = 0 then some m
  else m.visibleKey scancode (m.charOf scancode)

/-- `keyboard_handler`, for the keys that do not switch terminals. -/
def typeKey (m : Machine) (scancode : Nat) : Option Machine :=
  match m.modifierKey scancode with
  | some m => some m
  | none => m.lineKey scancode

def keyboardHandler (m : Machine) (scancode : Nat) : Switch :=
  if scF1 ≤ scancode ∧ scancode ≤ scF3 then m.switchTerminal (scancode - scF1)
  else (m.typeKey scancode).map (·, .returned 0)

section

variable {m m' : Machine}

theorem pushInput_drawn {c : UInt8} (pushed : m.pushInput c = some m') : Drawn m m' := by
  simp only [pushInput] at pushed
  split_ifs at pushed
  obtain rfl := Option.some.inj pushed
  exact setTerm_drawn m rfl

theorem popInput_drawn (popped : m.popInput = some m') : Drawn m m' := by
  simp only [popInput] at popped
  split_ifs at popped
  obtain rfl := Option.some.inj popped
  exact setTerm_drawn m rfl

theorem visibleKey_drawn {scancode : Nat} {ch : UInt8}
    (typed : m.visibleKey scancode ch = some m') : Drawn m m' := by
  simp only [visibleKey] at typed
  split_ifs at typed
  · exact clear_drawn typed
  · obtain rfl := Option.some.inj typed
    exact setTerm_drawn m rfl
  · obtain rfl := Option.some.inj typed
    exact Drawn.refl m
  · obtain ⟨mid, drew, typed⟩ := Option.bind_eq_some_iff.1 typed
    split_ifs at typed
    · exact (echo_drawn drew).trans (pushInput_drawn typed)
    · obtain rfl := Option.some.inj typed
      exact echo_drawn drew

theorem modifierKey_drawn {scancode : Nat} (pressed : m.modifierKey scancode = some m') :
    Drawn m m' := by
  simp only [modifierKey] at pressed
  split_ifs at pressed <;> obtain rfl := Option.some.inj pressed <;> rfl

/-- The keys that switch terminals are no modifiers. -/
theorem modifierKey_switch {scancode : Nat} (switches : scF1 ≤ scancode ∧ scancode ≤ scF3) :
    m.modifierKey scancode = none := by
  have apart : scancode ≠ scLeftShift ∧ scancode ≠ scRightShift ∧
      ¬(scancode = scLeftShiftRel ∨ scancode = scRightShiftRel) ∧ scancode ≠ scCapsLock ∧
      scancode ≠ scLeftAlt ∧ scancode ≠ scLeftControl ∧ scancode ≠ scLeftControlRel := by
    simp only [scF1, scF3, scLeftShift, scRightShift, scLeftShiftRel, scRightShiftRel, scCapsLock,
      scLeftAlt, scLeftControl, scLeftControlRel] at switches ⊢
    omega
  obtain ⟨left, right, released, caps, alt, control, control'⟩ := apart
  simp only [modifierKey]
  rw [if_neg left, if_neg right, if_neg released, if_neg caps, if_neg alt, if_neg control,
    if_neg control']

theorem lineKey_drawn {scancode : Nat} (typed : m.lineKey scancode = some m') : Drawn m m' := by
  simp only [lineKey] at typed
  split_ifs at typed
  · obtain ⟨mid, drew, pushed⟩ := Option.bind_eq_some_iff.1 typed
    exact (echo_drawn drew).trans (pushInput_drawn pushed)
  · obtain ⟨mid, drew, popped⟩ := Option.bind_eq_some_iff.1 typed
    exact (echo_drawn drew).trans (popInput_drawn popped)
  · obtain rfl := Option.some.inj typed
    exact Drawn.refl m
  · obtain ⟨mid, drew, ended⟩ := Option.bind_eq_some_iff.1 typed
    obtain rfl := Option.some.inj ended
    exact (echo_drawn drew).trans (setTerm_drawn mid rfl)
  · obtain rfl := Option.some.inj typed
    exact Drawn.refl m
  · exact visibleKey_drawn typed

/-- A key that does not switch terminals changes the console and the input line
only. -/
theorem typeKey_drawn {scancode : Nat} (typed : m.typeKey scancode = some m') : Drawn m m' := by
  simp only [typeKey] at typed
  split at typed
  · rename_i mid pressed
    obtain rfl := Option.some.inj typed
    exact modifierKey_drawn pressed
  · exact lineKey_drawn typed

end

/-! ## idt.c -/

def itoa (value radix : Nat) : List UInt8 :=
  let lookup := text "0123456789ABCDEFGHIJKLMNOPQRSTUVWXYZ"
  if value = 0 then text "0"
  else ((Nat.digits radix value).map fun i => lookup.getD i 0).reverse

/-- What the handler of a vector prints; `address` is `cr2`. -/
def exceptionText (vector address : Nat) : Option (List UInt8) :=
  match vector with
  | 0x00 => some (text " Exception 0x00: Divide By Zero\n")
  | 0x01 => some (text " Exception 0x01: Debug\n")
  | 0x02 => some (text " Exception 0x02: Non-maskable interrupt\n")
  | 0x03 => some (text " Exception 0x03: Breakpoint\n")
  | 0x04 => some (text " Exception 0x04: Overflow\n")
  | 0x05 => some (text " Exception 0x05: Bound Range Exceeded\n")
  | 0x06 => some (text " Exception 0x06: Invalid Opcode\n")
  | 0x07 => some (text " Exception 0x07: Device Not Available\n")
  | 0x08 => some (text " Exception 0x08: Double Fault\n")
  | 0x09 => some (text " Exception 0x09: Coprocessor Segment Overrun\n")
  | 0x0A => some (text " Exception 0x0A: Invalid TSS\n")
  | 0x0B => some (text " Exception 0x0B: Segment Not Present\n")
  | 0x0C => some (text " Exception 0x0C: Stack-Segment Fault\n")
  | 0x0D => some (text " Exception 0x0D: General Protection\n")
  | 0x0E => some (text " Exception 0x0E: Page Fault (at 0x" ++ itoa address 16 ++ text ")\n")
  | 0x0F => some (text " Exception 0x0F: Reserved\n")
  | 0x10 => some (text " Exception 0x10: x87 FPU Floating-Point Error\n")
  | 0x11 => some (text " Exception 0x11: Alignment Check\n")
  | 0x12 => some (text " Exception 0x12: Machine Check\n")
  | 0x13 => some (text " Exception 0x13: SIMD Floating-Point\n")
  | _ => none

/-- An exception handler up to its call of `halt(255)`. -/
def raise (m : Machine) (vector address : Nat) : Option Machine := do
  let message ← exceptionText vector address
  let m ← puts message m
  some { m with exceptionOccurred := true }

end Machine

end Illinix.Kernel
