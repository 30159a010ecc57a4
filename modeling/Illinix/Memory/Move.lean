/-
# Memory.Move -- memmove of lib.c

`rep movsb` copies byte by byte, upwards or downwards as the direction flag
says; `memmove` sets the flag when the source begins below the destination.
`memmove_eq` is what the choice is for: overlap or not, the destination gets the
bytes the source had before the call.
-/
import Illinix.Theory.Bytes

namespace Illinix.Memory

open Illinix.Theory

set_option autoImplicit false

/-- `rep movsb` from `esi` to `edi`, `ecx` bytes left; `df` is the direction flag. -/
def repMovsb (df : Bool) : Nat → Nat → Nat → (Nat → UInt8) → Nat → UInt8
  | 0, _, _, mem => mem
  | ecx + 1, esi, edi, mem =>
      repMovsb df ecx (if df then esi - 1 else esi + 1) (if df then edi - 1 else edi + 1)
        (Function.update mem edi (mem esi))

def memmove (dest src n : Nat) (mem : Nat → UInt8) : Nat → UInt8 :=
  if dest ≤ src then repMovsb false n src dest mem
  else repMovsb true n (src + n - 1) (dest + n - 1) mem

/-- `memset(dest, c, n)` -/
def memset (dest : Nat) (c : UInt8) (n : Nat) (mem : Nat → UInt8) : Nat → UInt8 :=
  blit mem dest (fun _ => c) n

/-- A copy that stores the first byte and goes on with the memory that gives. -/
theorem blit_update (mem : Nat → UInt8) (dest src n : Nat) (unread : dest ≤ src ∨ src + n < dest) :
    blit (Function.update mem dest (mem src)) (dest + 1)
        (fun i => Function.update mem dest (mem src) (src + 1 + i)) n =
      blit mem dest (fun i => mem (src + i)) (n + 1) := by
  funext k
  simp only [blit, Function.update_apply]
  split_ifs with later here whole whole here whole whole
  · omega
  · omega
  · congr 1
    omega
  · omega
  · rw [here, Nat.sub_self, Nat.add_zero]
  · omega
  · omega
  · rfl

/-- Upwards, what is read next has not been overwritten if the destination is
the lower one. -/
theorem repMovsb_up (n : Nat) : ∀ (src dest : Nat) (mem : Nat → UInt8), dest ≤ src →
    repMovsb false n src dest mem = blit mem dest (fun i => mem (src + i)) n := by
  induction n with
  | zero =>
      intro src dest mem _
      exact (blit_zero _ _ _).symm
  | succ n ih =>
      intro src dest mem below
      simp only [repMovsb, Bool.false_eq_true, if_false]
      rw [ih _ _ _ (by omega), blit_update _ _ _ _ (Or.inl below)]

/-- Downwards, if the source is. -/
theorem repMovsb_down (n : Nat) : ∀ (src dest : Nat) (mem : Nat → UInt8), src ≤ dest →
    repMovsb true n (src + n - 1) (dest + n - 1) mem =
      blit mem dest (fun i => mem (src + i)) n := by
  induction n with
  | zero =>
      intro src dest mem _
      exact (blit_zero _ _ _).symm
  | succ n ih =>
      intro src dest mem below
      simp only [repMovsb, if_true]
      rw [← Nat.add_assoc, ← Nat.add_assoc, Nat.add_sub_cancel, Nat.add_sub_cancel, ih _ _ _ below,
        blit_succ]
      have unread : ∀ i, i < n → Function.update mem (dest + n) (mem (src + n)) (src + i) =
          mem (src + i) := fun i low => Function.update_of_ne (by omega) _ _
      rw [blit_congr _ _ unread]
      funext k
      simp only [blit, Function.update_apply]
      split_ifs <;> first | omega | rfl

/-- **The destination gets the bytes the source had**, whether the ranges overlap
or not. -/
theorem memmove_eq (dest src n : Nat) (mem : Nat → UInt8) :
    memmove dest src n mem = blit mem dest (fun i => mem (src + i)) n := by
  simp only [memmove]
  split_ifs with up
  · exact repMovsb_up n src dest mem up
  · exact repMovsb_down n src dest mem (by omega)

/-! ## memcpy -/

/-- `memcpy(dest, src, n)`: bytes upwards, at addresses of 32 bits. -/
def memcpy : Nat → Nat → Nat → (Nat → UInt8) → Nat → UInt8
  | _, _, 0, mem => mem
  | dest, src, n + 1, mem =>
      memcpy (Theory.u32 (dest + 1)) (Theory.u32 (src + 1)) n (Function.update mem dest (mem src))

/-- Between two ranges that are apart it copies the bytes as they are. -/
theorem memcpy_eq (n : Nat) : ∀ (dest src : Nat) (mem : Nat → UInt8), dest + n ≤ 2 ^ 32 →
    src + n ≤ 2 ^ 32 → (dest + n ≤ src ∨ src + n ≤ dest) →
    memcpy dest src n mem = blit mem dest (fun i => mem (src + i)) n := by
  induction n with
  | zero =>
      intro dest src mem _ _ _
      exact (blit_zero _ _ _).symm
  | succ n ih =>
      intro dest src mem low low' apart
      rcases Nat.eq_zero_or_pos n with rfl | more
      · rw [memcpy, memcpy, blit_succ, blit_zero]
        rfl
      · have next : Theory.u32 (dest + 1) = dest + 1 := u32_of_lt (by omega)
        have next' : Theory.u32 (src + 1) = src + 1 := u32_of_lt (by omega)
        rw [memcpy, next, next', ih _ _ _ (by omega) (by omega) (by omega),
          blit_update _ _ _ _ (by omega)]

end Illinix.Memory
