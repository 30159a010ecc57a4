/-
# Console.Printf -- printf of lib.c

The result of `printf` is the list of bytes passed to `putc` and the return
value; `none` is an access outside an object or an argument of the wrong kind.
The format is one object, and a run that reads behind its NUL leaves the object
of `length + 1` bytes.

The pointer `buf` is advanced by the main loop, by the conversion switch and by
its `#`.  `conversionOpen` is where in this nesting a place of the format is, and
`printf_stops_iff` says that the run stops at the NUL exactly if no conversion is
open there: `buf++` after the switch passes a NUL that the switch has read.
-/
import Illinix.Console.Numerals
import Mathlib.Data.List.Basic

namespace Illinix.Console.Text

open Illinix.Theory

set_option autoImplicit false

/-- An object of `size` bytes. -/
structure Object where
  size : Nat
  bytes : Nat → UInt8

/-- A word of the argument list, or a pointer to the beginning of an object. -/
inductive Arg where
  | word (w : UInt32)
  | str (s : Object)

/-! ## The conversions -/

section

variable (junk : Nat → UInt8)

/-- `%x`; `conv_buf` has 64 bytes, `junk` before the first store. -/
def printHex (value : Nat) : Option (List UInt8) := do
  let convBuf ← itoa value 64 0 16 junk
  puts convBuf 64 0

/-- `while (i < 8)`, with the rounds that are left. -/
def fillZeros : (rounds i : Nat) → (Nat → UInt8) → Nat → UInt8
  | 0, _, mem => mem
  | rounds + 1, i, mem => fillZeros rounds (i + 1) (Function.update mem i '0'.toUInt8)

/-- `%#x` -/
def printHexAlternate (value : Nat) : Option (List UInt8) := do
  let convBuf ← itoa value (64 - 8) 8 16 junk
  let startingIndex ← strlen convBuf (64 - 8) 8
  puts (fillZeros (8 - startingIndex) startingIndex convBuf) (64 - startingIndex) startingIndex

/-- `%u`; `conv_buf` has 36 bytes here and in `%d`. -/
def printUnsigned (value : Nat) : Option (List UInt8) := do
  let convBuf ← itoa value 36 0 10 junk
  puts convBuf 36 0

/-- `%d`; the minus wraps. -/
def printSigned (value : Nat) : Option (List UInt8) := do
  let convBuf ←
    if i32 value < 0 then
      itoa (u32 (2 ^ 32 - value)) (36 - 1) 1 10 (Function.update junk 0 '-'.toUInt8)
    else itoa value 36 0 10 junk
  puts convBuf 36 0

/-- A conversion that takes a word: the bytes it prints and the arguments left. -/
def takeWord (print : UInt32 → Option (List UInt8)) :
    List Arg → Option (List UInt8 × List Arg)
  | .word w :: args => (print w).map (·, args)
  | _ => none

def takeStr : List Arg → Option (List UInt8 × List Arg)
  | .str s :: args => (puts s.bytes s.size 0).map (·, args)
  | _ => none

/-- The conversion switch at a character other than `#`. -/
def convert (c : UInt8) (alternate : Bool) (args : List Arg) : Option (List UInt8 × List Arg) :=
  if c = '%'.toUInt8 then some (['%'.toUInt8], args)
  else if c = 'x'.toUInt8 then
    takeWord (fun w => if alternate then printHexAlternate junk w.toNat else printHex junk w.toNat)
      args
  else if c = 'u'.toUInt8 then takeWord (fun w => printUnsigned junk w.toNat) args
  else if c = 'd'.toUInt8 then takeWord (fun w => printSigned junk w.toNat) args
  else if c = 'c'.toUInt8 then takeWord (fun w => some [w.toUInt8]) args
  else if c = 's'.toUInt8 then takeStr args
  else some ([], args)

end

/-! ## printf -/

section

-- the content of the locals at the conversion at each place of the format
variable (format : Nat → UInt8) (junk : Nat → Nat → UInt8)

mutual

/-- The `while` of `printf` at `pos`, with `left` bytes of the format left: what
is printed and where the loop ends. -/
def mainLoop : (left pos : Nat) → List Arg → Option (List UInt8 × Nat)
  | 0, _, _ => none
  | left + 1, pos, args =>
      if format pos = 0 then some ([], pos)
      else if format pos = '%'.toUInt8 then formatCharSwitch left (pos + 1) false args
      else (mainLoop left (pos + 1) args).map fun (out, last) => (format pos :: out, last)

/-- `format_char_switch` -/
def formatCharSwitch : (left pos : Nat) → (alternate : Bool) → List Arg →
    Option (List UInt8 × Nat)
  | 0, _, _, _ => none
  | left + 1, pos, alternate, args =>
      if format pos = '#'.toUInt8 then formatCharSwitch left (pos + 1) true args
      else do
        let (text, args) ← convert (junk pos) (format pos) alternate args
        let (out, last) ← mainLoop left (pos + 1) args
        some (text ++ out, last)

end

end

/-- `printf(format, ...)`: what is printed and the result. -/
def printf (format : Object) (args : List Arg) (junk : Nat → Nat → UInt8) :
    Option (List UInt8 × Int) := do
  let (out, last) ← mainLoop format.bytes junk format.size 0 args
  some (out, i32 (u32 last))

/-! ## The nesting -/

/-- Whether a conversion is open behind `c`, if one is or is not before it. -/
def conversionOpen (isOpen : Bool) (c : UInt8) : Bool :=
  if isOpen then c = '#'.toUInt8 else c = '%'.toUInt8

/-- Behind the last character no conversion is open. -/
def Whole (format : List UInt8) : Prop := format.foldl conversionOpen false = false

instance (format : List UInt8) : Decidable (Whole format) := inferInstanceAs (Decidable (_ = _))

/-! ## What a format asks for -/

inductive Kind where
  | word
  | str

def conversionKind (c : UInt8) : Option Kind :=
  if c = 'x'.toUInt8 ∨ c = 'u'.toUInt8 ∨ c = 'd'.toUInt8 ∨ c = 'c'.toUInt8 then some .word
  else if c = 's'.toUInt8 then some .str
  else none

/-- The arguments of a format; `isOpen` as in `conversionOpen`. -/
def demands : (isOpen : Bool) → List UInt8 → List Kind
  | _, [] => []
  | isOpen, c :: rest =>
      if isOpen && !conversionOpen isOpen c then
        (conversionKind c).toList ++ demands (conversionOpen isOpen c) rest
      else demands (conversionOpen isOpen c) rest

/-- The arguments are of these kinds, the strings with a NUL in their objects. -/
def Supplied : List Kind → List Arg → Prop
  | [], _ => True
  | .word :: kinds, .word _ :: args => Supplied kinds args
  | .str :: kinds, .str s :: args =>
      (∃ l, Reads s.bytes 0 l ∧ l.length < s.size) ∧ Supplied kinds args
  | _, _ => False

/-! ## What the conversions print -/

/-- The numeral of a signed value. -/
def signedText (value : Int) : List UInt8 :=
  (if value < 0 then ['-'.toUInt8] else []) ++ numeralText 10 value.natAbs

/-- Eight hexadecimal digits. -/
def hexText (value : Nat) : List UInt8 :=
  List.replicate (8 - (numeralText 16 value).length) '0'.toUInt8 ++ numeralText 16 value

section

variable {value : Nat} (bound : value < 2 ^ 32) (junk : Nat → UInt8)

theorem numeralText_length_le {radix : Nat} (large : 1 < radix) (bound : value < 2 ^ 32) :
    (numeralText radix value).length ≤ 32 := by
  rw [numeralText_length]
  exact numeral_length_le large (bound.trans_le (Nat.pow_le_pow_left large 32)) (by decide)

theorem hexNumeral_length_le (bound : value < 2 ^ 32) : (numeralText 16 value).length ≤ 8 := by
  rw [numeralText_length]
  exact numeral_length_le (by decide) bound (by decide)

include bound in
/-- A buffer of 33 bytes and more, converted and printed. -/
theorem puts_itoa {radix left : Nat} (large : 1 < radix) (small : radix ≤ 36) (room : 32 < left) :
    (itoa value left 0 radix junk).bind (fun convBuf => puts convBuf left 0) =
      some (numeralText radix value) := by
  have length := numeralText_length_le large bound
  rw [itoa_put large small bound (by rw [← numeralText_length]; omega), Option.bind_some]
  exact puts_reads (reads_put _ _ _ (numeralText_ne_zero large small)) (by omega)

include bound in
theorem printHex_eq : printHex junk value = some (numeralText 16 value) :=
  puts_itoa bound junk (by decide) (by decide) (by decide)

include bound in
theorem printUnsigned_eq : printUnsigned junk value = some (numeralText 10 value) :=
  puts_itoa bound junk (by decide) (by decide) (by decide)

theorem fillZeros_eq : ∀ (rounds i : Nat) (mem : Nat → UInt8),
    fillZeros rounds i mem = put mem i (List.replicate rounds '0'.toUInt8) := by
  intro rounds
  induction rounds with
  | zero => exact fun _ _ => rfl
  | succ rounds ih => exact fun i mem => ih (i + 1) _

include bound in
/-- The padding ends where the digits begin. -/
theorem printHexAlternate_eq : printHexAlternate junk value = some (hexText value) := by
  have length := hexNumeral_length_le bound
  have nonzero : ∀ c ∈ numeralText 16 value, c ≠ 0 := numeralText_ne_zero (by decide) (by decide)
  have padding := List.length_replicate (n := 8 - (numeralText 16 value).length)
    (a := '0'.toUInt8)
  have stored : fillZeros (8 - (numeralText 16 value).length) (numeralText 16 value).length
      (put junk 8 (numeralText 16 value ++ [0])) =
        put junk (numeralText 16 value).length (hexText value ++ [0]) := by
    have before := put_before junk (numeralText 16 value).length
      (List.replicate (8 - (numeralText 16 value).length) '0'.toUInt8) (numeralText 16 value ++ [0])
    rw [padding, Nat.add_sub_cancel' length] at before
    rw [fillZeros_eq, hexText, List.append_assoc, before]
  have wholeNonzero : ∀ c ∈ hexText value, c ≠ 0 := by
    intro c mem
    rcases List.mem_append.1 mem with zero | digit
    · rw [List.eq_of_mem_replicate zero]
      decide
    · exact nonzero c digit
  have whole : (hexText value).length = 8 := by
    rw [hexText, List.length_append, padding]
    omega
  rw [printHexAlternate, itoa_put (by decide) (by decide) bound
    (by rw [← numeralText_length]; omega)]
  simp only [Option.bind_eq_bind, Option.bind_some,
    strlen_reads (reads_put _ junk 8 nonzero) (show _ < 64 - 8 by omega), stored]
  exact puts_reads (reads_put _ _ _ wholeNonzero) (by omega)

include bound in
theorem printSigned_eq : printSigned junk value = some (signedText (i32 value)) := by
  rw [signedText]
  by_cases negative : i32 value < 0
  · have high : ¬value < 2 ^ 31 := fun low => by
      rw [i32, if_pos low] at negative
      omega
    have wrapped : u32 (2 ^ 32 - value) = (i32 value).natAbs := by
      rw [i32, if_neg high, u32]
      omega
    have magnitude : (i32 value).natAbs < 2 ^ 32 := wrapped ▸ Nat.mod_lt _ (by decide)
    have length := numeralText_length_le (show 1 < 10 by decide) magnitude
    have nonzero : ∀ c ∈ '-'.toUInt8 :: numeralText 10 (i32 value).natAbs, c ≠ 0 :=
      List.forall_mem_cons.2 ⟨by decide, numeralText_ne_zero (by decide) (by decide)⟩
    rw [printSigned, if_pos negative, if_pos negative, wrapped,
      itoa_put (by decide) (by decide) magnitude (by rw [← numeralText_length]; omega)]
    refine puts_reads (reads_put _ junk 0 nonzero) ?_
    rw [List.length_append, List.length_singleton]
    omega
  · have same : (i32 value).natAbs = value := by
      rw [i32] at negative ⊢
      split_ifs at negative ⊢
      · exact Int.natAbs_natCast value
      · omega
    rw [printSigned, if_neg negative, if_neg negative, same]
    exact puts_itoa bound junk (by decide) (by decide) (by decide)

end

/-- A conversion that gets what it asks for goes through. -/
theorem convert_supplied (junk : Nat → UInt8) (c : UInt8) (alternate : Bool) {kinds : List Kind}
    {args : List Arg} (supplied : Supplied ((conversionKind c).toList ++ kinds) args) :
    ∃ text args', convert junk c alternate args = some (text, args') ∧ Supplied kinds args' := by
  have onWord : ∀ {print : UInt32 → Option (List UInt8)}, (∀ w, ∃ text, print w = some text) →
      Supplied (.word :: kinds) args →
      ∃ text args', takeWord print args = some (text, args') ∧ Supplied kinds args' := by
    intro print total supplied
    match args, supplied with
    | .word w :: args, supplied =>
        obtain ⟨text, printed⟩ := total w
        exact ⟨text, args, by rw [takeWord, printed]; rfl, supplied⟩
  have onHex : ∀ w : UInt32, ∃ text, (if alternate then printHexAlternate junk w.toNat
      else printHex junk w.toNat) = some text := by
    intro w
    split_ifs
    · exact ⟨_, printHexAlternate_eq w.toNat_lt junk⟩
    · exact ⟨_, printHex_eq w.toNat_lt junk⟩
  by_cases percent : c = '%'.toUInt8
  · rw [percent] at supplied
    exact ⟨_, args, if_pos percent, supplied⟩
  rw [convert, if_neg percent]
  by_cases hex : c = 'x'.toUInt8
  · rw [hex] at supplied
    rw [if_pos hex]
    exact onWord onHex supplied
  rw [if_neg hex]
  split_ifs with unsigned signed char string
  · rw [unsigned] at supplied
    exact onWord (fun w => ⟨_, printUnsigned_eq w.toNat_lt junk⟩) supplied
  · rw [signed] at supplied
    exact onWord (fun w => ⟨_, printSigned_eq w.toNat_lt junk⟩) supplied
  · rw [char] at supplied
    exact onWord (fun w => ⟨_, rfl⟩) supplied
  · rw [string] at supplied
    match args, supplied with
    | .str s :: args, ⟨⟨l, reads, inside⟩, supplied⟩ =>
        exact ⟨l, args, by rw [takeStr, puts_reads reads inside]; rfl, supplied⟩
  · have kind : conversionKind c = none := by
      have noWord : ¬(c = 'x'.toUInt8 ∨ c = 'u'.toUInt8 ∨ c = 'd'.toUInt8 ∨ c = 'c'.toUInt8) := by
        rintro (is | is | is | is) <;> contradiction
      rw [conversionKind, if_neg noWord, if_neg string]
    rw [kind] at supplied
    exact ⟨[], args, rfl, supplied⟩

/-! ## The loops -/

section

variable {format : Nat → UInt8} {junk : Nat → Nat → UInt8} {left pos : Nat} {args : List Arg}

theorem mainLoop_nul (nul : format pos = 0) :
    mainLoop format junk (left + 1) pos args = some ([], pos) := if_pos nul

theorem mainLoop_percent (percent : format pos = '%'.toUInt8) :
    mainLoop format junk (left + 1) pos args =
      formatCharSwitch format junk left (pos + 1) false args := by
  rw [mainLoop, percent, if_neg (by decide), if_pos rfl]

theorem mainLoop_plain (some' : format pos ≠ 0) (plain : format pos ≠ '%'.toUInt8) :
    mainLoop format junk (left + 1) pos args =
      (mainLoop format junk left (pos + 1) args).map fun (out, last) => (format pos :: out, last) := by
  rw [mainLoop, if_neg some', if_neg plain]

theorem formatCharSwitch_alternate (hash : format pos = '#'.toUInt8) (alternate : Bool) :
    formatCharSwitch format junk (left + 1) pos alternate args =
      formatCharSwitch format junk left (pos + 1) true args := if_pos hash

theorem formatCharSwitch_convert {alternate : Bool} {text : List UInt8} {args' : List Arg}
    (plain : format pos ≠ '#'.toUInt8)
    (converted : convert (junk pos) (format pos) alternate args = some (text, args')) :
    formatCharSwitch format junk (left + 1) pos alternate args =
      (mainLoop format junk left (pos + 1) args').map fun (out, last) => (text ++ out, last) := by
  rw [formatCharSwitch, if_neg plain, converted, Option.map_eq_bind]
  rfl

end

/-- Text in front is printed as it is. -/
theorem mainLoop_text {format : Nat → UInt8} {junk : Nat → Nat → UInt8} {left : Nat}
    {args : List Arg} {rest : List UInt8} (l : List UInt8) :
    ∀ pos, Reads format pos (l ++ rest) → (∀ c ∈ l, c ≠ '%'.toUInt8) →
      mainLoop format junk (left + l.length) pos args =
        (mainLoop format junk left (pos + l.length) args).map fun (out, last) =>
          (l ++ out, last) := by
  induction l with
  | nil => exact fun pos _ _ => Option.map_id'.symm
  | cons c l ih =>
      rintro pos ⟨rfl, some', reads⟩ plain
      have next : pos + (format pos :: l).length = pos + 1 + l.length := by
        rw [List.length_cons]
        omega
      rw [next, List.length_cons, ← Nat.add_assoc,
        mainLoop_plain some' (plain _ List.mem_cons_self),
        ih (pos + 1) reads fun c mem => plain c (List.mem_cons_of_mem _ mem), Option.map_map]
      rfl

section

variable {format : Nat → UInt8} (junk : Nat → Nat → UInt8)

/-- A run of a loop that is to end at `last`, and does if `whole`. -/
def Stops (whole : Prop) (last : Nat) (run : Option (List UInt8 × Nat)) : Prop :=
  (whole → ∃ out, run = some (out, last)) ∧ (¬whole → run = none)

theorem Stops.map {whole : Prop} {last : Nat} {run : Option (List UInt8 × Nat)}
    (stops : Stops whole last run) (f : List UInt8 → List UInt8) :
    Stops whole last (run.map fun (out, last) => (f out, last)) := by
  refine ⟨fun holds => ?_, fun fails => by rw [stops.2 fails]; rfl⟩
  obtain ⟨out, ran⟩ := stops.1 holds
  exact ⟨f out, by rw [ran]; rfl⟩

/-- The two loops, by induction on the format that is left. -/
theorem loops_stop (l : List UInt8) : ∀ (pos : Nat) (args : List Arg), Reads format pos l →
    (Supplied (demands false l) args → Stops (l.foldl conversionOpen false = false)
      (pos + l.length) (mainLoop format junk (l.length + 1) pos args)) ∧
    ∀ alternate, Supplied (demands true l) args → Stops (l.foldl conversionOpen true = false)
      (pos + l.length) (formatCharSwitch format junk (l.length + 1) pos alternate args) := by
  induction l with
  | nil =>
      intro pos args reads
      have nul : format pos = 0 := reads
      refine ⟨fun _ => ⟨fun _ => ⟨[], mainLoop_nul nul⟩, fun whole => absurd rfl whole⟩,
        fun alternate _ => ⟨fun whole => absurd whole (by decide), fun _ => ?_⟩⟩
      -- the switch reads the NUL and the loop goes on behind it
      rw [List.length_nil, formatCharSwitch, nul, if_neg (by decide)]
      rfl
  | cons c l ih =>
      intro pos args reads
      obtain ⟨rfl, some', rest⟩ := reads
      have last : pos + (format pos :: l).length = pos + 1 + l.length := by
        rw [List.length_cons]
        omega
      rw [last, List.length_cons]
      refine ⟨fun supplied => ?_, fun alternate supplied => ?_⟩
      · rw [List.foldl_cons]
        by_cases percent : format pos = '%'.toUInt8
        · have opened : conversionOpen false (format pos) = true := decide_eq_true percent
          rw [mainLoop_percent percent, opened]
          refine (ih (pos + 1) args rest).2 false ?_
          simpa [demands, opened] using supplied
        · have closed : conversionOpen false (format pos) = false := decide_eq_false percent
          rw [mainLoop_plain some' percent, closed]
          refine ((ih (pos + 1) args rest).1 ?_).map (format pos :: ·)
          simpa [demands, closed] using supplied
      · rw [List.foldl_cons]
        by_cases hash : format pos = '#'.toUInt8
        · have opened : conversionOpen true (format pos) = true := decide_eq_true hash
          rw [formatCharSwitch_alternate hash, opened]
          refine (ih (pos + 1) args rest).2 true ?_
          simpa [demands, opened] using supplied
        · have closed : conversionOpen true (format pos) = false := decide_eq_false hash
          have supplied' : Supplied ((conversionKind (format pos)).toList ++ demands false l) args := by
            simpa [demands, closed] using supplied
          obtain ⟨text, args', converted, left⟩ :=
            convert_supplied (junk pos) (format pos) alternate supplied'
          rw [formatCharSwitch_convert hash converted, closed]
          exact ((ih (pos + 1) args' rest).1 left).map (text ++ ·)

end

/-- **`printf` stops at the end of its format** exactly if no conversion is open
there, and returns the length if that is an `int32_t`. -/
theorem printf_stops_iff (format : Nat → UInt8) (l : List UInt8) (args : List Arg)
    (junk : Nat → Nat → UInt8) (reads : Reads format 0 l) (supplied : Supplied (demands false l) args) :
    (∃ out, printf ⟨l.length + 1, format⟩ args junk = some (out, (l.length : Int))) ↔
      Whole l ∧ l.length < 2 ^ 31 := by
  have stops := (loops_stop junk l 0 args reads).1 supplied
  rw [Nat.zero_add] at stops
  have length : i32 (u32 l.length) = (l.length : Int) ↔ l.length < 2 ^ 31 := by
    simp only [i32, u32]
    split_ifs
    · omega
    · omega
  by_cases whole : Whole l
  · obtain ⟨out, ran⟩ := stops.1 whole
    simp only [printf, ran, Option.bind_eq_bind, Option.bind_some, Option.some.injEq, Prod.mk.injEq,
      exists_eq_left', length, whole, true_and]
  · have ran := stops.2 whole
    simp only [printf, ran, whole, Option.bind_eq_bind, Option.bind_none, false_and, reduceCtorEq,
      exists_false]

/-- A text without conversions. -/
theorem printf_text {format : Nat → UInt8} {l : List UInt8} (reads : Reads format 0 l)
    (plain : ∀ c ∈ l, c ≠ '%'.toUInt8) (args : List Arg) (junk : Nat → Nat → UInt8) :
    printf ⟨l.length + 1, format⟩ args junk = some (l, i32 (u32 l.length)) := by
  rw [← List.append_nil l] at reads
  have nul : format (0 + l.length) = 0 := reads.append
  have run : mainLoop format junk (l.length + 1) 0 args = some (l ++ [], 0 + l.length) := by
    rw [Nat.add_comm, mainLoop_text l 0 reads plain, mainLoop_nul nul, Option.map_some]
  rw [List.append_nil, Nat.zero_add] at run
  rw [printf, run]
  rfl

/-! ## The bad endings -/

theorem conversionOpen_hashes (n : Nat) :
    (List.replicate n '#'.toUInt8).foldl conversionOpen true = true := by
  induction n with
  | zero => rfl
  | succ n ih =>
      rw [List.replicate_succ, List.foldl_cons]
      exact ih

/-- A format that is not whole ends in a `%` and any number of `#`. -/
theorem not_whole_iff (l : List UInt8) : ¬Whole l ↔
    ∃ before n, Whole before ∧ l = before ++ '%'.toUInt8 :: List.replicate n '#'.toUInt8 := by
  constructor
  · induction l using List.reverseRecOn with
    | nil => exact fun whole => absurd rfl whole
    | append_singleton l c ih =>
        intro opened
        rw [Whole, List.foldl_append] at opened
        by_cases whole : Whole l
        · have before : l.foldl conversionOpen false = false := whole
          simp only [before, List.foldl_cons, List.foldl_nil, conversionOpen, Bool.false_eq_true,
            if_false, decide_eq_false_iff_not, not_not] at opened
          exact ⟨l, 0, whole, by rw [opened]; rfl⟩
        · have before : l.foldl conversionOpen false = true := Bool.eq_true_of_not_eq_false whole
          simp only [before, List.foldl_cons, List.foldl_nil, conversionOpen, if_true,
            decide_eq_false_iff_not, not_not] at opened
          obtain ⟨first, n, whole', rfl⟩ := ih whole
          refine ⟨first, n + 1, whole', ?_⟩
          rw [opened, List.replicate_succ', List.append_assoc, List.cons_append]
  · rintro ⟨before, n, whole, rfl⟩
    have closed : before.foldl conversionOpen false = false := whole
    rw [Whole, List.foldl_append, closed, List.foldl_cons]
    exact Bool.eq_false_iff.not.2 (not_not.2 (conversionOpen_hashes n))

/-- The string `l` in a memory of its own. -/
def cString (l : List UInt8) : Nat → UInt8 := put (fun _ => 0) 0 (l ++ [0])

theorem reads_cString {l : List UInt8} (nonzero : ∀ c ∈ l, c ≠ 0) : Reads (cString l) 0 l :=
  reads_put l _ 0 nonzero

/-! ## Numerals -/

theorem hexText_length {value : Nat} (bound : value < 2 ^ 32) : (hexText value).length = 8 := by
  have length := hexNumeral_length_le bound
  rw [hexText, List.length_append, List.length_replicate]
  omega

theorem digitChar_mem_hex : ∀ d, d < 16 → digitChar d ∈ lookup.take 16 := by decide

theorem hexText_digits (value : Nat) : ∀ c ∈ hexText value, c ∈ lookup.take 16 := by
  intro c mem
  rcases List.mem_append.1 mem with zero | digit
  · rw [List.eq_of_mem_replicate zero]
    decide
  · obtain ⟨d, inside, rfl⟩ := List.mem_map.1 digit
    exact digitChar_mem_hex d ((numeral_isNumeral (by decide) value).below d inside)

theorem hexText_reads (value : Nat) : numeralValue 16 ((hexText value).map charDigit) = value := by
  have zero : charDigit '0'.toUInt8 = 0 := by decide
  rw [hexText, List.map_append, List.map_replicate, zero, numeralValue_zeros]
  exact numeralText_reads (by decide) (by decide) value

theorem convert_hex (w : UInt32) (args : List Arg) (junk : Nat → UInt8) :
    convert junk 'x'.toUInt8 false (.word w :: args) = some (numeralText 16 w.toNat, args) := by
  have printed : convert junk 'x'.toUInt8 false (.word w :: args) =
      (printHex junk w.toNat).map (·, args) := rfl
  rw [printed, printHex_eq w.toNat_lt]
  rfl

theorem convert_hexAlternate (w : UInt32) (args : List Arg) (junk : Nat → UInt8) :
    convert junk 'x'.toUInt8 true (.word w :: args) = some (hexText w.toNat, args) := by
  have printed : convert junk 'x'.toUInt8 true (.word w :: args) =
      (printHexAlternate junk w.toNat).map (·, args) := rfl
  rw [printed, printHexAlternate_eq w.toNat_lt]
  rfl

theorem convert_signed (w : UInt32) (alternate : Bool) (args : List Arg) (junk : Nat → UInt8) :
    convert junk 'd'.toUInt8 alternate (.word w :: args) =
      some (signedText (i32 w.toNat), args) := by
  have printed : convert junk 'd'.toUInt8 alternate (.word w :: args) =
      (printSigned junk w.toNat).map (·, args) := rfl
  rw [printed, printSigned_eq w.toNat_lt]
  rfl

/-- The two conversions as the whole format. -/
theorem printf_hexAlternate {format : Nat → UInt8}
    (reads : Reads format 0 ['%'.toUInt8, '#'.toUInt8, 'x'.toUInt8])
    (w : UInt32) (args : List Arg) (junk : Nat → Nat → UInt8) :
    printf ⟨4, format⟩ (.word w :: args) junk = some (hexText w.toNat, 3) := by
  obtain ⟨percent, _, hash, _, letter, _, nul⟩ := reads
  have converted := convert_hexAlternate w args (junk 2)
  rw [← letter] at converted
  have run : mainLoop format junk 4 0 (.word w :: args) = some (hexText w.toNat ++ [], 3) := by
    rw [mainLoop_percent percent, formatCharSwitch_alternate hash,
      formatCharSwitch_convert (letter ▸ by decide) converted, mainLoop_nul nul, Option.map_some]
  rw [List.append_nil] at run
  rw [printf, run]
  rfl

theorem printf_signed {format : Nat → UInt8} (reads : Reads format 0 ['%'.toUInt8, 'd'.toUInt8])
    (w : UInt32) (args : List Arg) (junk : Nat → Nat → UInt8) :
    printf ⟨3, format⟩ (.word w :: args) junk = some (signedText (i32 w.toNat), 2) := by
  obtain ⟨percent, _, letter, _, nul⟩ := reads
  have converted := convert_signed w false args (junk 1)
  rw [← letter] at converted
  have run : mainLoop format junk 3 0 (.word w :: args) =
      some (signedText (i32 w.toNat) ++ [], 2) := by
    rw [mainLoop_percent percent, formatCharSwitch_convert (letter ▸ by decide) converted,
      mainLoop_nul nul, Option.map_some]
  rw [List.append_nil] at run
  rw [printf, run]
  rfl

/-- **Numerals are exact.** `itoa` stores the one numeral of the value and a NUL,
`%#x` prints eight hexadecimal digits that read as the argument, and `%d` the
numeral of its magnitude, behind a minus if it is negative. -/
theorem numerals_exact {value radix left : Nat} (bound : value < 2 ^ 32) (large : 2 ≤ radix)
    (small : radix ≤ 36) (room : 33 ≤ left) (buf : Nat) (mem : Nat → UInt8) (w : UInt32)
    (args : List Arg) (junk : Nat → UInt8) :
    (∃ digits, Numeral radix value digits ∧ (∀ other, Numeral radix value other → other = digits) ∧
      digits.length + 1 ≤ 33 ∧
      itoa value left buf radix mem = some (put mem buf (digits.map digitChar ++ [0])) ∧
      numeralValue radix ((digits.map digitChar).map charDigit) = value) ∧
    (∃ text, convert junk 'x'.toUInt8 true (.word w :: args) = some (text, args) ∧
      (∀ format junk, Reads format 0 ['%'.toUInt8, '#'.toUInt8, 'x'.toUInt8] →
        printf ⟨4, format⟩ (.word w :: args) junk = some (text, 3)) ∧
      text.length = 8 ∧ (∀ c ∈ text, c ∈ lookup.take 16) ∧
      numeralValue 16 (text.map charDigit) = w.toNat) ∧
    ∃ text, (∀ alternate, convert junk 'd'.toUInt8 alternate (.word w :: args) = some (text, args)) ∧
      (∀ format junk, Reads format 0 ['%'.toUInt8, 'd'.toUInt8] →
        printf ⟨3, format⟩ (.word w :: args) junk = some (text, 2)) ∧
      ∃ digits, Numeral 10 (i32 w.toNat).natAbs digits ∧
        text = (if i32 w.toNat < 0 then ['-'.toUInt8] else []) ++ digits.map digitChar := by
  have length := numeralText_length_le large bound
  rw [numeralText_length] at length
  refine ⟨⟨numeral radix value, numeral_isNumeral large value, fun other isNumeral =>
    isNumeral.eq_numeral large, by omega, itoa_put large small bound (by omega) mem,
    numeralText_reads large small value⟩, ⟨hexText w.toNat, convert_hexAlternate w args junk,
    fun format junk reads => printf_hexAlternate reads w args junk, hexText_length w.toNat_lt,
    hexText_digits _, hexText_reads _⟩, signedText (i32 w.toNat),
    fun alternate => convert_signed w alternate args junk,
    fun format junk reads => printf_signed reads w args junk, numeral 10 (i32 w.toNat).natAbs,
    numeral_isNumeral (by decide) _, rfl⟩

theorem numerals_exact_binary :
    ∃ digits, Numeral 2 0xffffffff digits ∧ (∀ other, Numeral 2 0xffffffff other → other = digits) ∧
      digits.length + 1 ≤ 33 ∧
      itoa 0xffffffff 33 0 2 (fun _ => 7) = some (put (fun _ => 7) 0 (digits.map digitChar ++ [0])) ∧
      numeralValue 2 ((digits.map digitChar).map charDigit) = 0xffffffff :=
  (numerals_exact (by decide) (by decide) (by decide) (by decide) 0 (fun _ => 7) 0 []
    (fun _ => 0)).1

/-! ## Two formats -/

def paddedFormat : List UInt8 := "0x%#x\n".toList.map Char.toUInt8

theorem padded_stops : ∃ out, printf ⟨7, cString paddedFormat⟩ [.word 14] (fun _ _ => 0) =
    some (out, 6) :=
  (printf_stops_iff _ paddedFormat [.word 14] _ (reads_cString (by decide +kernel)) trivial).2
    (by decide)

/-- What the first round of `rtc_test('$')` prints. -/
def dollarPercent : List UInt8 := "$%".toList.map Char.toUInt8

/-- The NUL behind the `%` is passed. -/
theorem dollarPercent_runs_on :
    ¬∀ (format : Nat → UInt8) (l : List UInt8) (args : List Arg) (junk : Nat → Nat → UInt8),
      Reads format 0 l → Supplied (demands false l) args →
      ∃ out, printf ⟨l.length + 1, format⟩ args junk = some (out, (l.length : Int)) := by
  intro claim
  have reads : Reads (cString dollarPercent) 0 dollarPercent :=
    reads_cString (by decide +kernel)
  obtain ⟨out, ran⟩ := claim _ dollarPercent [] (fun _ _ => 0) reads trivial
  have stops := (loops_stop (fun _ _ => 0) dollarPercent 0 [] reads).1 trivial
  simp only [printf, stops.2 (by decide)] at ran
  cases ran

end Illinix.Console.Text
