/-
# Kernel.Messages -- what the exception handlers print

`Kernel.Keyboard` has the texts of the handlers of idt.c.  Each handler is one
call of `printf`; here are the calls, and `exceptionText_printf` says that they
print these texts.
-/
import Illinix.Kernel.Keyboard
import Illinix.Console.Printf

namespace Illinix.Kernel.Machine

open Illinix.Theory Illinix.Console

set_option autoImplicit false

/-- The characters are those of `lookup`. -/
theorem itoa_eq_numeralText (value radix : Nat) :
    itoa value radix = Text.numeralText radix value := by
  have lookup : Text.lookup = text "0123456789ABCDEFGHIJKLMNOPQRSTUVWXYZ" ++ [0] := rfl
  have same : ∀ d, (text "0123456789ABCDEFGHIJKLMNOPQRSTUVWXYZ").getD d 0 = Text.digitChar d := by
    intro d
    rw [Text.digitChar, lookup]
    by_cases inside : d < (text "0123456789ABCDEFGHIJKLMNOPQRSTUVWXYZ").length
    · rw [List.getD_append _ _ _ _ inside]
    · have beyond := Nat.le_of_not_lt inside
      rw [List.getD_append_right _ _ _ _ beyond, List.getD_eq_default _ _ beyond]
      cases d - (text "0123456789ABCDEFGHIJKLMNOPQRSTUVWXYZ").length <;> rfl
  rw [itoa, Text.numeralText, numeral]
  split_ifs
  · rfl
  · simp only [same, List.map_reverse]

/-- The format of the handler of a vector. -/
def exceptionFormat (vector : Nat) : List UInt8 :=
  if vector = 0x0E then text " Exception 0x0E: Page Fault (at 0x%x)\n"
  else (exceptionText vector 0).getD []

/-- Only the page fault has something to convert. -/
theorem exceptionText_constant {vector : Nat} (other : vector ≠ 0x0E) (address : Nat) :
    exceptionText vector address = exceptionText vector 0 := by
  unfold exceptionText
  split
  all_goals first
    | rfl
    | exact absurd rfl other

/-- Read off the characters of the literal. -/
theorem text_plain (l : List Char) (plain : l.all (·.toUInt8 != '%'.toUInt8) = true) :
    ∀ c ∈ text (String.ofList l), c ≠ '%'.toUInt8 := by
  intro c mem
  rw [text, String.toList_ofList] at mem
  obtain ⟨d, inside, rfl⟩ := List.mem_map.1 mem
  simpa using List.all_eq_true.1 plain d inside

theorem exceptionText_plain {vector address : Nat} {message : List UInt8}
    (other : vector ≠ 0x0E) (handled : exceptionText vector address = some message) :
    ∀ c ∈ message, c ≠ '%'.toUInt8 := by
  unfold exceptionText at handled
  split at handled
  all_goals first
    | exact absurd rfl other
    | exact Option.some.inj handled ▸ text_plain _ (by decide)
    | cases handled

def pageFaultFront : List UInt8 := text " Exception 0x0E: Page Fault (at 0x"
def pageFaultBack : List UInt8 := text ")\n"

theorem exceptionFormat_pageFault : exceptionFormat 0x0E =
    pageFaultFront ++ '%'.toUInt8 :: 'x'.toUInt8 :: (pageFaultBack ++ []) := by decide +kernel

theorem pageFault_printf {format : Nat → UInt8} (reads : Reads format 0 (exceptionFormat 0x0E))
    (address : UInt32) (junk : Nat → Nat → UInt8) :
    (Text.printf ⟨(exceptionFormat 0x0E).length + 1, format⟩ [.word address] junk).map (·.1) =
      exceptionText 0x0E address.toNat := by
  have length : (exceptionFormat 0x0E).length + 1 =
      1 + pageFaultBack.length + 1 + 1 + pageFaultFront.length := by decide +kernel
  rw [exceptionFormat_pageFault] at reads
  obtain ⟨percent, _, letter, _, rest⟩ := reads.append
  have converted := Text.convert_hex address [] (junk (0 + pageFaultFront.length + 1))
  rw [← letter] at converted
  rw [Text.printf, length,
    Text.mainLoop_text pageFaultFront 0 reads (text_plain _ (by decide)),
    Text.mainLoop_percent percent, Text.formatCharSwitch_convert (letter ▸ by decide) converted,
    Text.mainLoop_text pageFaultBack _ rest (text_plain _ (by decide)),
    Text.mainLoop_nul rest.append]
  simp only [Option.map_some, Option.bind_eq_bind, Option.bind_some, exceptionText,
    itoa_eq_numeralText, List.append_nil, Option.some.injEq]
  exact (List.append_assoc _ _ _).symm

/-- **A handler prints its text.** -/
theorem exceptionText_printf {vector : Nat} {address : UInt32} {message : List UInt8}
    (handled : exceptionText vector address.toNat = some message) {format : Nat → UInt8}
    (reads : Reads format 0 (exceptionFormat vector)) (junk : Nat → Nat → UInt8) :
    (Text.printf ⟨(exceptionFormat vector).length + 1, format⟩ [.word address] junk).map (·.1) =
      some message := by
  by_cases fault : vector = 0x0E
  · subst fault
    rw [pageFault_printf reads, handled]
  · have plain := exceptionText_plain fault handled
    rw [exceptionText_constant fault] at handled
    have same : exceptionFormat vector = message := by
      rw [exceptionFormat, if_neg fault, handled, Option.getD_some]
    rw [same] at reads ⊢
    rw [Text.printf_text reads plain]
    rfl

end Illinix.Kernel.Machine
