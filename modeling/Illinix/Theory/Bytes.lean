/-
# Theory.Bytes -- byte memories, copies and little-endian words

A byte memory is a function from addresses.  `blit dst pos src n` is `dst` with
the `n` bytes from `pos` on replaced by the first `n` bytes of `src`: what a
`memcpy` of `n` bytes does.  `leByte` and `leWord` are the four bytes of a
32-bit word and the word of four bytes, least significant first.
-/
import Mathlib.Logic.Function.Basic
import Mathlib.Tactic.Ring
import Mathlib.Tactic.SplitIfs

namespace Illinix.Theory

set_option autoImplicit false

/-- Reduction of an exact result to `uint32_t`. -/
def u32 (n : Nat) : Nat := n % 2 ^ 32

/-- The `int32_t` with the bits of a `uint32_t`. -/
def i32 (n : Nat) : Int := if n < 2 ^ 31 then n else (n : Int) - 2 ^ 32

theorem u32_of_lt {n : Nat} (small : n < 2 ^ 32) : u32 n = n := Nat.mod_eq_of_lt small

theorem i32_of_lt {n : Nat} (small : n < 2 ^ 31) : i32 n = n := if_pos small

section

universe u

variable {β : Type u}

def blit (dst : Nat → β) (pos : Nat) (src : Nat → β) (n : Nat) : Nat → β :=
  fun k => if pos ≤ k ∧ k < pos + n then src (k - pos) else dst k

theorem blit_inside (dst src : Nat → β) {pos n k : Nat} (low : pos ≤ k) (high : k < pos + n) :
    blit dst pos src n k = src (k - pos) := if_pos ⟨low, high⟩

theorem blit_outside (dst src : Nat → β) {pos n k : Nat} (outside : ¬(pos ≤ k ∧ k < pos + n)) :
    blit dst pos src n k = dst k := if_neg outside

@[simp] theorem blit_zero (dst : Nat → β) (pos : Nat) (src : Nat → β) :
    blit dst pos src 0 = dst := by
  funext k
  exact blit_outside dst src (by omega)

theorem blit_congr (dst : Nat → β) {src src' : Nat → β} (pos : Nat) {n : Nat}
    (same : ∀ k, k < n → src k = src' k) : blit dst pos src n = blit dst pos src' n := by
  funext k
  simp only [blit]
  split_ifs with inside
  · exact same _ (by omega)
  · rfl

/-- Two copies of adjacent ranges are one copy. -/
theorem blit_blit (dst src : Nat → β) (pos m n : Nat) :
    blit (blit dst pos src m) (pos + m) (fun k => src (m + k)) n = blit dst pos src (m + n) := by
  funext k
  simp only [blit]
  split_ifs <;> first | omega | rfl | (congr 1; omega)

/-- One byte more, at the end. -/
theorem blit_succ (dst src : Nat → β) (pos n : Nat) :
    blit dst pos src (n + 1) = Function.update (blit dst pos src n) (pos + n) (src n) := by
  funext k
  simp only [blit, Function.update_apply]
  split_ifs with whole last part part last
  · rw [last, Nat.add_sub_cancel_left]
  · rfl
  · omega
  · omega
  · omega
  · rfl

/-- One byte more, at the beginning. -/
theorem blit_succ' (dst src : Nat → β) (pos n : Nat) :
    blit dst pos src (n + 1) =
      Function.update (blit dst (pos + 1) (fun i => src (i + 1)) n) pos (src 0) := by
  funext k
  simp only [blit, Function.update_apply]
  split_ifs with whole first part part first
  · rw [first, Nat.sub_self]
  · congr 1
    omega
  · omega
  · omega
  · omega
  · rfl

/-! ## The list at the beginning of a memory -/

/-- The first `n` bytes. -/
def firsts (src : Nat → β) (n : Nat) : List β := (List.range n).map src

theorem firsts_length (src : Nat → β) (n : Nat) : (firsts src n).length = n := by
  simp [firsts]

theorem firsts_getElem? (src : Nat → β) (n i : Nat) :
    (firsts src n)[i]? = if i < n then some (src i) else none := by
  simp only [firsts]
  rw [List.getElem?_map]
  split_ifs with inside
  · rw [List.getElem?_range inside, Option.map_some]
  · rw [List.getElem?_eq_none (by simpa using inside), Option.map_none]

theorem firsts_congr {src src' : Nat → β} {n : Nat} (same : ∀ k, k < n → src k = src' k) :
    firsts src n = firsts src' n :=
  List.map_congr_left fun k inside => same k (List.mem_range.1 inside)

theorem firsts_add (src : Nat → β) (m n : Nat) :
    firsts src (m + n) = firsts src m ++ firsts (fun k => src (m + k)) n := by
  simp only [firsts]
  rw [List.range_add, List.map_append, List.map_map]
  rfl

/-- The first `n` places behind the first `m`. -/
theorem take_drop_firsts (src : Nat → β) {m n total : Nat} (inside : m + n ≤ total) :
    ((firsts src total).drop m).take n = firsts (fun k => src (m + k)) n := by
  obtain ⟨rest, rfl⟩ := Nat.exists_eq_add_of_le inside
  rw [Nat.add_assoc, firsts_add, firsts_add, List.drop_left' (firsts_length src m),
    List.take_left' (firsts_length _ n)]

theorem firsts_eq_iff {src src' : Nat → β} {n : Nat} :
    firsts src n = firsts src' n ↔ ∀ k, k < n → src k = src' k := by
  refine ⟨fun same k inside => ?_, firsts_congr⟩
  have place := congrArg (fun l => l[k]?) same
  simpa only [firsts_getElem?, if_pos inside, Option.some.injEq] using place

/-- The list with what lies from `start` on replaced by `new`, as far as that
reaches. -/
def splice (l : List β) (start : Nat) (new : List β) : List β :=
  l.take start ++ new ++ l.drop (start + new.length)

/-- Splicing lists is copying into memories. -/
theorem splice_firsts (dst src : Nat → β) {start size : Nat} (inside : start ≤ size) (n : Nat) :
    splice (firsts dst size) start (firsts src n) =
      firsts (blit dst start src n) (max size (start + n)) := by
  simp only [splice]
  refine List.ext_getElem? fun k => ?_
  rw [firsts_length, List.append_assoc, List.getElem?_append, List.length_take, firsts_length,
    Nat.min_eq_left inside, List.getElem?_append, firsts_length, List.getElem?_drop,
    List.getElem?_take, firsts_getElem?, firsts_getElem?, firsts_getElem?, firsts_getElem?]
  simp only [blit]
  split_ifs <;> first | rfl | omega | (congr 2; omega)

/-- Blocks of `size` places, one after the other. -/
theorem flatMap_firsts (block : Nat → Nat → β) {size : Nat} (some' : 0 < size) (count : Nat) :
    ((List.range count).flatMap fun b => firsts (block b) size) =
      firsts (fun k => block (k / size) (k % size)) (size * count) := by
  induction count with
  | zero => rfl
  | succ count ih =>
      rw [List.range_succ, List.flatMap_append, ih, List.flatMap_singleton, Nat.mul_succ, firsts_add]
      refine congrArg _ (firsts_congr fun k inside => ?_)
      rw [Nat.mul_add_div some', Nat.mul_add_mod, Nat.div_eq_of_lt inside, Nat.mod_eq_of_lt inside,
        Nat.add_zero]

theorem firsts_succ (src : Nat → β) (n : Nat) : firsts src (n + 1) = firsts src n ++ [src n] := by
  simp [firsts, List.range_succ]

/-- Storing behind the list appends. -/
theorem firsts_update (src : Nat → β) (n : Nat) (b : β) :
    firsts (Function.update src n b) (n + 1) = firsts src n ++ [b] := by
  rw [firsts_succ, Function.update_self]
  refine congrArg (· ++ [b]) (firsts_congr fun k inside => ?_)
  exact Function.update_of_ne (Nat.ne_of_lt inside) b src

/-- Giving up the last place removes the last element, whatever is stored there. -/
theorem firsts_update_pred (src : Nat → β) (n : Nat) (b : β) :
    firsts (Function.update src (n - 1) b) (n - 1) = (firsts src n).dropLast := by
  cases n with
  | zero => rfl
  | succ n =>
      rw [firsts_succ, List.dropLast_concat, Nat.add_sub_cancel]
      exact firsts_congr fun k inside => Function.update_of_ne (Nat.ne_of_lt inside) b src

/-- Moving the places after `i` down by one removes element `i`. -/
theorem firsts_eraseIdx (src : Nat → β) {n i : Nat} (inside : i < n) :
    (firsts src n).eraseIdx i = firsts (fun k => if i ≤ k then src (k + 1) else src k) (n - 1) := by
  refine List.ext_getElem? fun k => ?_
  rw [List.getElem?_eraseIdx, firsts_getElem?, firsts_getElem?, firsts_getElem?]
  split_ifs <;> first | rfl | omega

theorem firsts_blit (dst src : Nat → β) (n : Nat) : firsts (blit dst 0 src n) n = firsts src n :=
  firsts_congr fun k inside => blit_inside dst src (Nat.zero_le k) (by omega)

end

/-! ## Little-endian words -/

def leByte (n i : Nat) : UInt8 := UInt8.ofNat (n / 256 ^ i % 256)

def leWord (bytes : Nat → UInt8) (pos : Nat) : Nat :=
  (bytes pos).toNat + 256 * (bytes (pos + 1)).toNat + 256 ^ 2 * (bytes (pos + 2)).toNat +
    256 ^ 3 * (bytes (pos + 3)).toNat

theorem leWord_lt (bytes : Nat → UInt8) (pos : Nat) : leWord bytes pos < 2 ^ 32 := by
  have h0 := (bytes pos).toNat_lt
  have h1 := (bytes (pos + 1)).toNat_lt
  have h2 := (bytes (pos + 2)).toNat_lt
  have h3 := (bytes (pos + 3)).toNat_lt
  simp only [leWord]
  omega

/-- The bytes of a word are the bytes it was read from. -/
theorem leWord_congr {bytes bytes' : Nat → UInt8} {pos pos' : Nat}
    (same : ∀ k, k < 4 → bytes (pos + k) = bytes' (pos' + k)) :
    leWord bytes pos = leWord bytes' pos' := by
  have first := same 0 (by omega)
  rw [Nat.add_zero, Nat.add_zero] at first
  simp only [leWord, first, same 1 (by omega), same 2 (by omega), same 3 (by omega)]

theorem leByte_leWord (bytes : Nat → UInt8) (pos : Nat) {i : Nat} (small : i < 4) :
    leByte (leWord bytes pos) i = bytes (pos + i) := by
  have h0 := (bytes pos).toNat_lt
  have h1 := (bytes (pos + 1)).toNat_lt
  have h2 := (bytes (pos + 2)).toNat_lt
  have h3 := (bytes (pos + 3)).toNat_lt
  apply UInt8.toNat_inj.1
  simp only [leByte, UInt8.toNat_ofNat', leWord]
  match i, small with
  | 0, _ => simp only [Nat.add_zero, Nat.pow_zero]; omega
  | 1, _ => omega
  | 2, _ => omega
  | 3, _ => omega

/-- A word is the word of its bytes. -/
theorem leWord_leByte {n : Nat} (small : n < 2 ^ 32) (bytes : Nat → UInt8) (pos : Nat)
    (same : ∀ i, i < 4 → bytes (pos + i) = leByte n i) : leWord bytes pos = n := by
  have b0 := same 0 (by omega)
  rw [Nat.add_zero] at b0
  simp only [leWord, b0, same 1 (by omega), same 2 (by omega), same 3 (by omega), leByte,
    UInt8.toNat_ofNat']
  omega

end Illinix.Theory
