/-
# Console.Numerals -- strlen, puts, strrev and itoa of lib.c

A pointer into a string or a buffer is an offset `pos` in a memory of bytes; of the
object it points into, `left` bytes are left from there on.  An access behind
them is `none`: it leaves the object.

`itoa` writes the digits from the lowest on and reverses them in place
(`itoaLoop_put`, `strrev_put`), which gives the numeral of the value
(`itoa_put`).
-/
import Illinix.Theory.Bytes
import Illinix.Theory.Strings
import Illinix.Theory.Numerals
import Mathlib.Data.UInt

namespace Illinix.Console.Text

open Illinix.Theory

set_option autoImplicit false

/-! ## Strings -/

def strlen (mem : Nat → UInt8) : (left pos : Nat) → Option Nat
  | 0, _ => none
  | left + 1, pos =>
      if mem pos = 0 then some 0 else (strlen mem left (pos + 1)).map (· + 1)

/-- The bytes that `puts` passes to `putc`. -/
def puts (mem : Nat → UInt8) : (left pos : Nat) → Option (List UInt8)
  | 0, _ => none
  | left + 1, pos =>
      if mem pos = 0 then some [] else (puts mem left (pos + 1)).map (mem pos :: ·)

section

variable {mem : Nat → UInt8} {l : List UInt8}

theorem strlen_reads : ∀ {l : List UInt8} {left pos : Nat}, Reads mem pos l → l.length < left →
    strlen mem left pos = some l.length
  | _, 0, _, _, room => absurd room (Nat.not_lt_zero _)
  | [], left + 1, pos, reads, _ => if_pos reads
  | b :: l, left + 1, pos, reads, room => by
      have rest := strlen_reads reads.2.2 (Nat.lt_of_succ_lt_succ room)
      rw [strlen, if_neg (reads.1 ▸ reads.2.1), rest]
      rfl

theorem puts_reads : ∀ {l : List UInt8} {left pos : Nat}, Reads mem pos l → l.length < left →
    puts mem left pos = some l
  | _, 0, _, _, room => absurd room (Nat.not_lt_zero _)
  | [], left + 1, pos, reads, _ => if_pos reads
  | b :: l, left + 1, pos, reads, room => by
      have rest := puts_reads reads.2.2 (Nat.lt_of_succ_lt_succ room)
      rw [puts, if_neg (reads.1 ▸ reads.2.1), rest, reads.1]
      rfl

end

/-! ## strrev -/

/-- The loop of `strrev`, from index `beg` and index `last`. -/
def strrevLoop (s : Nat) : (rounds : Nat) → (beg last : Int) → (Nat → UInt8) → Option (Nat → UInt8)
  | rounds, beg, last, mem =>
      if beg < last then
        match rounds with
        | 0 => none
        | rounds + 1 =>
            let tmp := mem (s + last.toNat)
            let mem := Function.update mem (s + last.toNat) (mem (s + beg.toNat))
            strrevLoop s rounds (beg + 1) (last - 1) (Function.update mem (s + beg.toNat) tmp)
      else some mem

/-- `strrev(s)`; each round brings the indices nearer by 2. -/
def strrev (left s : Nat) (mem : Nat → UInt8) : Option (Nat → UInt8) := do
  let len ← strlen mem left s
  strrevLoop s len 0 (i32 (u32 (len + (2 ^ 32 - 1)))) mem

/-- The string of `n` bytes at `s` with the outermost `k` pairs exchanged. -/
def exchanged (mem : Nat → UInt8) (s n k : Nat) : Nat → UInt8 := fun a =>
  if s ≤ a ∧ a < s + n ∧ (a - s < k ∨ n - k ≤ a - s) then mem (s + (n - 1 - (a - s))) else mem a

theorem exchanged_zero (mem : Nat → UInt8) (s n : Nat) : exchanged mem s n 0 = mem := by
  funext a
  exact if_neg (by omega)

/-- One round. -/
theorem exchanged_succ (mem : Nat → UInt8) (s : Nat) {n k : Nat} (more : 2 * k + 1 < n) :
    exchanged mem s n (k + 1) =
      Function.update (Function.update (exchanged mem s n k) (s + (n - 1 - k))
        (exchanged mem s n k (s + k))) (s + k) (exchanged mem s n k (s + (n - 1 - k))) := by
  have low : exchanged mem s n k (s + k) = mem (s + k) := if_neg (by omega)
  have high : exchanged mem s n k (s + (n - 1 - k)) = mem (s + (n - 1 - k)) := if_neg (by omega)
  rw [low, high]
  funext a
  simp only [Function.update_apply]
  split_ifs with first last
  · subst first
    rw [exchanged, if_pos (by omega), Nat.add_sub_cancel_left]
  · subst last
    rw [exchanged, if_pos (by omega)]
    congr 1
    omega
  · simp only [exchanged]
    congr 1
    apply propext
    omega

/-- When the indices have met, the string is reversed. -/
theorem exchanged_all (mem : Nat → UInt8) (s k : Nat) (l : List UInt8) (met : l.length ≤ 2 * k + 1)
    (bytes : ∀ i (low : i < l.length), mem (s + i) = l[i]) :
    exchanged mem s l.length k = put mem s l.reverse := by
  refine eq_put (fun i low => ?_) fun a outside => if_neg ?_
  · rw [List.length_reverse] at low
    rw [List.getElem_reverse, ← bytes]
    simp only [exchanged, Nat.add_sub_cancel_left]
    split_ifs
    · rfl
    · congr 1
      omega
  · rw [List.length_reverse] at outside
    omega

theorem strrevLoop_exchanged (mem : Nat → UInt8) (s n : Nat) : ∀ (rounds k : Nat),
    k + rounds = n → ∃ k', n ≤ 2 * k' + 1 ∧
      strrevLoop s rounds k ((n : Int) - 1 - k) (exchanged mem s n k) =
        some (exchanged mem s n k') := by
  intro rounds
  induction rounds with
  | zero =>
      intro k total
      refine ⟨k, by omega, ?_⟩
      rw [strrevLoop, if_neg (by omega)]
  | succ rounds ih =>
      intro k total
      by_cases more : 2 * k + 1 < n
      · obtain ⟨k', met, ran⟩ := ih (k + 1) (by omega)
        refine ⟨k', met, ?_⟩
        have beg : ((k : Int)).toNat = k := Int.toNat_natCast k
        have last : ((n : Int) - 1 - k).toNat = n - 1 - k := by omega
        have next : ((k + 1 : Nat) : Int) = k + 1 := Int.natCast_succ k
        rw [exchanged_succ mem s more, next, ← Int.sub_sub] at ran
        rw [strrevLoop, if_pos (by omega), beg, last]
        exact ran
      · refine ⟨k, by omega, ?_⟩
        rw [strrevLoop, if_neg (by omega)]

/-- **`strrev` reverses the string** in its place. -/
theorem strrev_put {mem : Nat → UInt8} {left s : Nat} {l : List UInt8} (reads : Reads mem s l)
    (room : l.length < left) (small : l.length ≤ 2 ^ 31) :
    strrev left s mem = some (put mem s l.reverse) := by
  have last : i32 (u32 (l.length + (2 ^ 32 - 1))) = (l.length : Int) - 1 := by
    simp only [i32, u32]
    split_ifs
    · omega
    · omega
  obtain ⟨k, met, ran⟩ := strrevLoop_exchanged mem s l.length l.length 0 (Nat.zero_add _)
  rw [exchanged_zero, exchanged_all mem s k l met reads.getElem] at ran
  rw [strrev, strlen_reads reads room, Option.bind_eq_bind, Option.bind_some, last]
  simpa using ran

/-! ## itoa -/

/-- `lookup[]`, with its NUL. -/
def lookup : List UInt8 :=
  "0123456789ABCDEFGHIJKLMNOPQRSTUVWXYZ".toList.map Char.toUInt8 ++ [0]

/-- The division loop of `itoa`, with `left` bytes of the buffer left. -/
def itoaLoop (radix : Nat) : (left newval newbuf : Nat) → (Nat → UInt8) →
    Option ((Nat → UInt8) × Nat)
  | left, newval, newbuf, mem =>
      if 0 < newval then
        match left with
        | 0 => none
        | left + 1 =>
            if radix = 0 then none
            else do
              let digit ← lookup[newval % radix]?
              itoaLoop radix left (newval / radix) (newbuf + 1) (Function.update mem newbuf digit)
      else some (mem, newbuf)

/-- The memory after `itoa(value, buf, radix)`, with `left` bytes from `buf` on. -/
def itoa (value left buf radix : Nat) (mem : Nat → UInt8) : Option (Nat → UInt8) :=
  if value = 0 then
    if 2 ≤ left then
      some (Function.update (Function.update mem buf '0'.toUInt8) (buf + 1) 0)
    else none
  else do
    let (mem, newbuf) ← itoaLoop radix left value buf mem
    if newbuf < buf + left then strrev left buf (Function.update mem newbuf 0) else none

def digitChar (d : Nat) : UInt8 := lookup.getD d 0

/-- The digit a character stands for. -/
def charDigit (c : UInt8) : Nat := lookup.idxOf c

/-- The characters of the numeral of a value. -/
def numeralText (radix value : Nat) : List UInt8 := (numeral radix value).map digitChar

theorem digitChar_ne_zero : ∀ d, d < 36 → digitChar d ≠ 0 := by decide

theorem charDigit_digitChar : ∀ d, d < 36 → charDigit (digitChar d) = d := by decide

section

variable {radix value left : Nat}

/-- The lowest digit comes first. -/
theorem itoaLoop_put (large : 1 < radix) (small : radix ≤ 36) :
    ∀ (left newval newbuf : Nat) (mem : Nat → UInt8), (Nat.digits radix newval).length ≤ left →
      itoaLoop radix left newval newbuf mem =
        some (put mem newbuf ((Nat.digits radix newval).map digitChar),
          newbuf + (Nat.digits radix newval).length) := by
  intro left
  induction left with
  | zero =>
      intro newval newbuf mem room
      have none' := List.eq_nil_of_length_eq_zero (Nat.le_zero.1 room)
      have done : newval = 0 := Nat.digits_eq_nil_iff_eq_zero.1 none'
      rw [itoaLoop, if_neg (by omega), none']
      rfl
  | succ left ih =>
      intro newval newbuf mem room
      rcases Nat.eq_zero_or_pos newval with rfl | more
      · rw [itoaLoop, if_neg (by omega), Nat.digits_zero]
        rfl
      · have digits := Nat.digits_def' large more
        have below : newval % radix < 36 := (Nat.mod_lt _ (by omega)).trans_le small
        have digit : lookup[newval % radix]? = some (digitChar (newval % radix)) := by
          have inside : newval % radix < lookup.length := below.trans (by decide)
          rw [digitChar, List.getD_eq_getElem?_getD, List.getElem?_eq_getElem inside,
            Option.getD_some]
        rw [digits, List.length_cons] at room
        rw [itoaLoop, if_pos more]
        simp only [if_neg (show radix ≠ 0 by omega), digit, Option.bind_eq_bind, Option.bind_some]
        rw [ih _ _ _ (by omega), digits]
        simp only [List.map_cons, put, List.length_cons]
        congr 2
        omega

theorem numeralText_length (radix value : Nat) :
    (numeralText radix value).length = (numeral radix value).length := List.length_map _

theorem numeralText_ne_zero (large : 1 < radix) (small : radix ≤ 36) :
    ∀ c ∈ numeralText radix value, c ≠ 0 := by
  intro c mem
  obtain ⟨d, digit, rfl⟩ := List.mem_map.1 mem
  exact digitChar_ne_zero d (((numeral_isNumeral large value).below d digit).trans_le small)

/-- The characters read as the value. -/
theorem numeralText_reads (large : 1 < radix) (small : radix ≤ 36) (value : Nat) :
    numeralValue radix ((numeralText radix value).map charDigit) = value := by
  have isNumeral := numeral_isNumeral large value
  have digits : (numeralText radix value).map charDigit = numeral radix value := by
    rw [numeralText, List.map_map]
    refine (List.map_congr_left fun d mem => ?_).trans (List.map_id _)
    exact charDigit_digitChar d ((isNumeral.below d mem).trans_le small)
  rw [digits, isNumeral.reads]

/-- **`itoa` stores the numeral and a NUL** and nothing else. -/
theorem itoa_put (large : 1 < radix) (small : radix ≤ 36) (bound : value < 2 ^ 32) {buf : Nat}
    (room : (numeral radix value).length < left) (mem : Nat → UInt8) :
    itoa value left buf radix mem = some (put mem buf (numeralText radix value ++ [0])) := by
  by_cases zero : value = 0
  · subst zero
    rw [itoa, if_pos rfl, if_pos (show 2 ≤ left from room)]
    rfl
  · have text : numeralText radix value = ((Nat.digits radix value).map digitChar).reverse := by
      rw [numeralText, numeral_of_ne_zero zero, List.map_reverse]
    have nonzero : ∀ c ∈ numeralText radix value, c ≠ 0 := numeralText_ne_zero large small
    have length : (numeral radix value).length = (Nat.digits radix value).length := by
      rw [numeral_of_ne_zero zero, List.length_reverse]
    have atMost := numeral_length_le large (bound.trans_le (Nat.pow_le_pow_left large 32)) (by decide)
    rw [length] at room atMost
    rw [text] at nonzero ⊢
    have reads := reads_put ((Nat.digits radix value).map digitChar) mem buf fun c digit =>
      nonzero c (List.mem_reverse.2 digit)
    have stored := put_concat mem buf ((Nat.digits radix value).map digitChar) 0
    rw [List.length_map] at stored
    have reversed : strrev left buf _ = some _ :=
      strrev_put reads (by rwa [List.length_map]) (by rw [List.length_map]; omega)
    rw [put_over mem buf (List.length_reverse) [0]] at reversed
    rw [itoa, if_neg zero, itoaLoop_put large small left value buf mem room.le]
    simp only [Option.bind_eq_bind, Option.bind_some]
    rw [if_pos (by omega), ← stored, reversed]

end

end Illinix.Console.Text
