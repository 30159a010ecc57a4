/-
# Memory.Assembly -- memcpy and memmove of lib.c, instruction by instruction

The two routines are assembly: `%esi` and `%edi` walk the source and the
destination, and `rep movs` moves bytes or double words in the direction the flag
gives.  A double word is loaded whole before it is stored.

Whatever the sizes of the steps, a copy upwards has after `k` bytes the first `k`
bytes of the source in the destination (`Upward`), and one downwards the last `k`
(`Downward`).  `Memory.Move` has the routines byte by byte; `memmove_refines` and
`memcpy_refines` say that these here are those.
-/
import Illinix.Memory.Move
import Mathlib.Data.UInt

namespace Illinix.Memory.Assembly

open Illinix.Theory

set_option autoImplicit false

/-! ## The instructions -/

/-- What the string instructions work on. -/
structure StringRegs where
  esi : Nat
  edi : Nat
  df : Bool
  mem : Nat → UInt8

/-- `movb (%esi), %al; movb %al, (%edi); addl $1, %edi; addl $1, %esi` -/
def moveByte (s : StringRegs) : StringRegs :=
  { s with
    mem := Function.update s.mem s.edi (s.mem s.esi)
    esi := Theory.u32 (s.esi + 1)
    edi := Theory.u32 (s.edi + 1) }

/-- A register after a string instruction of `size` bytes. -/
def advance (df : Bool) (size reg : Nat) : Nat :=
  if df then Theory.u32 (reg + (2 ^ 32 - size)) else Theory.u32 (reg + size)

/-- The `size` bytes at `edi`, which are those that were at `esi`. -/
def storeBytes (size : Nat) (s : StringRegs) : Nat → UInt8 :=
  (List.range size).foldl
    (fun mem i => Function.update mem (Theory.u32 (s.edi + i)) (s.mem (Theory.u32 (s.esi + i))))
    s.mem

/-- `movsb` is `movs 1` and `movsl` is `movs 4`. -/
def movs (size : Nat) (s : StringRegs) : StringRegs :=
  { s with
    mem := storeBytes size s
    esi := advance s.df size s.esi
    edi := advance s.df size s.edi }

/-- `rep movs` with the count in `%ecx` -/
def repMovs (size : Nat) : Nat → StringRegs → StringRegs
  | 0, s => s
  | ecx + 1, s => repMovs size ecx (movs size s)

/-! ## The routines -/

/-- `.memcpy_bottom`, with the count in `%edx` -/
def memcpyBottom : Nat → StringRegs → StringRegs
  | 0, s => s
  | edx + 1, s => memcpyBottom edx (moveByte s)

/-- `.memcpy_aligned` -/
def memcpyAligned (ecx : Nat) (s : StringRegs) : StringRegs :=
  memcpyBottom (ecx % 4) (repMovs 4 (ecx / 4) { s with df := false })

/-- `.memcpy_top`, with the count in `%ecx` -/
def memcpyTop : Nat → StringRegs → StringRegs
  | 0, s => s
  | ecx + 1, s =>
      if s.edi % 4 = 0 then memcpyAligned (ecx + 1) s else memcpyTop ecx (moveByte s)

/-- The memory after `memcpy(dest, src, n)`; `df` is the direction flag at the call. -/
def memcpy (dest src n : Nat) (df : Bool) (mem : Nat → UInt8) : Nat → UInt8 :=
  (memcpyTop n { esi := src, edi := dest, df := df, mem := mem }).mem

/-- `memmove` from `cmp %edi, %esi` on, with the count in `%ecx` -/
def memmoveGo (ecx : Nat) (s : StringRegs) : StringRegs :=
  if s.edi ≤ s.esi then repMovs 1 ecx s
  else repMovs 1 ecx
    { s with
      esi := Theory.u32 (s.esi + ecx + (2 ^ 32 - 1))
      edi := Theory.u32 (s.edi + ecx + (2 ^ 32 - 1))
      df := true }

/-- The memory after `memmove(dest, src, n)`, which clears the flag first. -/
def memmove (dest src n : Nat) (mem : Nat → UInt8) : Nat → UInt8 :=
  (memmoveGo n { esi := src, edi := dest, df := false, mem := mem }).mem

/-! ## One instruction -/

theorem storeBytes_eq (s : StringRegs) (size : Nat) (low : s.esi + size ≤ 2 ^ 32)
    (low' : s.edi + size ≤ 2 ^ 32) :
    storeBytes size s = blit s.mem s.edi (fun i => s.mem (s.esi + i)) size := by
  induction size with
  | zero => exact (blit_zero _ _ _).symm
  | succ size ih =>
      have last : storeBytes (size + 1) s = Function.update (storeBytes size s)
          (Theory.u32 (s.edi + size)) (s.mem (Theory.u32 (s.esi + size))) := by
        simp only [storeBytes]
        rw [List.range_succ, List.foldl_append]
        rfl
      rw [last, ih (by omega) (by omega), u32_of_lt (show s.edi + size < 2 ^ 32 by omega),
        u32_of_lt (show s.esi + size < 2 ^ 32 by omega), ← blit_succ]

/-- A byte by hand is `movsb` upwards. -/
theorem moveByte_eq (s : StringRegs) (inside : s.esi < 2 ^ 32) (inside' : s.edi < 2 ^ 32) :
    moveByte s = { movs 1 { s with df := false } with df := s.df } := by
  have stored : storeBytes 1 { s with df := false } =
      Function.update s.mem s.edi (s.mem s.esi) := by
    rw [storeBytes_eq _ _ inside inside', blit_succ, blit_zero]
    rfl
  simp only [moveByte, movs, advance, stored, Bool.false_eq_true, if_false]

/-! ## Upwards -/

/-- The ranges of a copy upwards: no byte of the source is overwritten before it
has been read. -/
structure Climbs (dest src n : Nat) : Prop where
  source : src + n ≤ 2 ^ 32
  target : dest + n ≤ 2 ^ 32
  unread : dest ≤ src ∨ src + n ≤ dest

/-- A copy from `src` to `dest` upwards, `k` bytes on. -/
structure Upward (mem : Nat → UInt8) (dest src k : Nat) (s : StringRegs) : Prop where
  esi : s.esi = Theory.u32 (src + k)
  edi : s.edi = Theory.u32 (dest + k)
  moved : s.mem = blit mem dest (fun i => mem (src + i)) k

section

variable {mem : Nat → UInt8} {dest src n k : Nat} {s : StringRegs}

theorem Upward.flag (up : Upward mem dest src k s) (df : Bool) :
    Upward mem dest src k { s with df := df } := ⟨up.esi, up.edi, up.moved⟩

/-- One step of any size. -/
theorem Upward.movs (climbs : Climbs dest src n) (up : Upward mem dest src k s)
    (clear : s.df = false) {size : Nat} (some' : 0 < size) (room : k + size ≤ n) :
    Upward mem dest src (k + size) (movs size s) := by
  have source := climbs.source
  have target := climbs.target
  have esi : s.esi = src + k := up.esi.trans (u32_of_lt (by omega))
  have edi : s.edi = dest + k := up.edi.trans (u32_of_lt (by omega))
  refine ⟨?_, ?_, ?_⟩
  · simp only [Assembly.movs, advance, clear, Bool.false_eq_true, if_false]
    rw [esi, Nat.add_assoc]
  · simp only [Assembly.movs, advance, clear, Bool.false_eq_true, if_false]
    rw [edi, Nat.add_assoc]
  · have stored := storeBytes_eq s size (by omega) (by omega)
    rw [esi, edi, up.moved] at stored
    refine stored.trans ?_
    rw [← blit_blit]
    refine blit_congr _ _ fun i inside => ?_
    have unread := climbs.unread
    rw [blit_outside _ _ (by omega), Nat.add_assoc]

theorem Upward.moveByte (climbs : Climbs dest src n) (up : Upward mem dest src k s)
    (room : k < n) : Upward mem dest src (k + 1) (moveByte s) := by
  have source := climbs.source
  have target := climbs.target
  rw [moveByte_eq s (up.esi.trans_lt (Nat.mod_lt _ (by decide)))
    (up.edi.trans_lt (Nat.mod_lt _ (by decide)))]
  exact ((up.flag false).movs climbs rfl Nat.one_pos room).flag s.df

theorem Upward.repMovs (climbs : Climbs dest src n) {size : Nat} (some' : 0 < size) (ecx : Nat) :
    ∀ {k : Nat} {s : StringRegs}, Upward mem dest src k s → s.df = false →
      k + size * ecx ≤ n → Upward mem dest src (k + size * ecx) (repMovs size ecx s) := by
  induction ecx with
  | zero => exact fun up _ _ => up
  | succ ecx ih =>
      intro k s up clear room
      rw [Nat.mul_succ] at room
      have next := ih (up.movs climbs clear some' (by omega)) clear (by omega)
      have total : k + size * (ecx + 1) = k + size + size * ecx := by
        rw [Nat.mul_succ]
        omega
      rwa [total]

theorem Upward.memcpyBottom (climbs : Climbs dest src n) (edx : Nat) :
    ∀ {k : Nat} {s : StringRegs}, Upward mem dest src k s → k + edx = n →
      Upward mem dest src n (memcpyBottom edx s) := by
  induction edx with
  | zero =>
      rintro k s up rfl
      exact up
  | succ edx ih => exact fun up total => ih (up.moveByte climbs (by omega)) (by omega)

theorem Upward.memcpyAligned (climbs : Climbs dest src n) (up : Upward mem dest src k s)
    {ecx : Nat} (total : k + ecx = n) : Upward mem dest src n (memcpyAligned ecx s) :=
  ((up.flag false).repMovs climbs (by decide) (ecx / 4) rfl (by omega)).memcpyBottom climbs
    (ecx % 4) (by omega)

theorem Upward.memcpyTop (climbs : Climbs dest src n) (ecx : Nat) :
    ∀ {k : Nat} {s : StringRegs}, Upward mem dest src k s → k + ecx = n →
      Upward mem dest src n (memcpyTop ecx s) := by
  induction ecx with
  | zero =>
      rintro k s up rfl
      exact up
  | succ ecx ih =>
      intro k s up total
      simp only [Assembly.memcpyTop]
      split_ifs
      · exact up.memcpyAligned climbs total
      · exact ih (up.moveByte climbs (by omega)) (by omega)

end

/-! ## Downwards -/

/-- A copy downwards, with `k` bytes left. -/
structure Downward (mem : Nat → UInt8) (dest src n k : Nat) (s : StringRegs) : Prop where
  esi : s.esi = Theory.u32 (src + k + (2 ^ 32 - 1))
  edi : s.edi = Theory.u32 (dest + k + (2 ^ 32 - 1))
  moved : s.mem = blit mem (dest + k) (fun i => mem (src + k + i)) (n - k)

section

variable {mem : Nat → UInt8} {dest src n : Nat}

theorem u32_pred {a : Nat} (small : a < 2 ^ 32) : Theory.u32 (a + 1 + (2 ^ 32 - 1)) = a := by
  simp only [Theory.u32]
  omega

theorem Downward.movsb (source : src + n ≤ 2 ^ 32) (target : dest + n ≤ 2 ^ 32)
    (below : src < dest) {k : Nat} {s : StringRegs} (down : Downward mem dest src n (k + 1) s)
    (set : s.df = true) (room : k < n) : Downward mem dest src n k (movs 1 s) := by
  have esi : s.esi = src + k := down.esi.trans (u32_pred (a := src + k) (by omega))
  have edi : s.edi = dest + k := down.edi.trans (u32_pred (a := dest + k) (by omega))
  refine ⟨?_, ?_, ?_⟩
  · simp only [movs, advance, set, if_true, esi]
  · simp only [movs, advance, set, if_true, edi]
  · have stored := storeBytes_eq s 1 (by omega) (by omega)
    rw [esi, edi, blit_succ, blit_zero, down.moved, blit_outside _ _ (by omega)] at stored
    have grown : n - k = n - (k + 1) + 1 := by omega
    refine stored.trans ?_
    rw [grown, blit_succ']
    congr 2
    funext i
    congr 1
    omega

theorem Downward.repMovsb (source : src + n ≤ 2 ^ 32) (target : dest + n ≤ 2 ^ 32)
    (below : src < dest) (k : Nat) :
    ∀ {s : StringRegs}, Downward mem dest src n k s → s.df = true → k ≤ n →
      Downward mem dest src n 0 (repMovs 1 k s) := by
  induction k with
  | zero => exact fun down _ _ => down
  | succ k ih =>
      exact fun down set room => ih (down.movsb source target below set room) set (by omega)

end

/-! ## The two routines -/

/-- `mem'` has the `n` bytes of `mem` from `src` on at `dest`, and is `mem`
elsewhere. -/
structure Moved (mem mem' : Nat → UInt8) (dest src n : Nat) : Prop where
  bytes : ∀ i, i < n → mem' (dest + i) = mem (src + i)
  kept : ∀ a, ¬(dest ≤ a ∧ a < dest + n) → mem' a = mem a

section

variable {dest src n : Nat}

theorem moved_iff {mem mem' : Nat → UInt8} :
    Moved mem mem' dest src n ↔ mem' = blit mem dest (fun i => mem (src + i)) n := by
  constructor
  · intro moved
    funext a
    simp only [blit]
    split_ifs with inside
    · have byte := moved.bytes (a - dest) (by omega)
      rwa [Nat.add_sub_cancel' inside.1] at byte
    · exact moved.kept a inside
  · rintro rfl
    refine ⟨fun i inside => ?_, fun a outside => blit_outside _ _ outside⟩
    rw [blit_inside _ _ (Nat.le_add_right _ _) (by omega), Nat.add_sub_cancel_left]

theorem upward_zero (mem : Nat → UInt8) (inside : src < 2 ^ 32) (inside' : dest < 2 ^ 32)
    (df : Bool) : Upward mem dest src 0 { esi := src, edi := dest, df := df, mem := mem } :=
  ⟨(u32_of_lt inside).symm, (u32_of_lt inside').symm, (blit_zero _ _ _).symm⟩

/-- With the source below the destination the copy begins at the last byte. -/
theorem downward_all (mem : Nat → UInt8) : Downward mem dest src n n
    { esi := Theory.u32 (src + n + (2 ^ 32 - 1)), edi := Theory.u32 (dest + n + (2 ^ 32 - 1)),
      df := true, mem := mem } := by
  refine ⟨rfl, rfl, ?_⟩
  rw [Nat.sub_self, blit_zero]

theorem memmove_blit (source : src + n ≤ 2 ^ 32) (target : dest + n ≤ 2 ^ 32)
    (mem : Nat → UInt8) : memmove dest src n mem = blit mem dest (fun i => mem (src + i)) n := by
  rcases Nat.eq_zero_or_pos n with rfl | some'
  · rw [blit_zero]
    simp only [memmove, memmoveGo]
    split_ifs <;> rfl
  · simp only [memmove, memmoveGo]
    split_ifs with up
    · have start := upward_zero mem (show src < 2 ^ 32 by omega) (show dest < 2 ^ 32 by omega) false
      have done := start.repMovs ⟨source, target, Or.inl up⟩ Nat.one_pos n rfl (by omega)
      rw [Nat.zero_add, Nat.one_mul] at done
      exact done.moved
    · have below : src < dest := Nat.lt_of_not_le up
      exact ((downward_all mem).repMovsb source target below n rfl (le_refl n)).moved

/-- Also where the destination begins below the source. -/
theorem memcpy_blit (climbs : Climbs dest src n) (df : Bool) (mem : Nat → UInt8) :
    memcpy dest src n df mem = blit mem dest (fun i => mem (src + i)) n := by
  have source := climbs.source
  have target := climbs.target
  rcases Nat.eq_zero_or_pos n with rfl | some'
  · exact (blit_zero _ _ _).symm
  · have start := upward_zero mem (show src < 2 ^ 32 by omega) (show dest < 2 ^ 32 by omega) df
    exact (start.memcpyTop climbs n (Nat.zero_add n)).moved

theorem memmove_refines (source : src + n ≤ 2 ^ 32) (target : dest + n ≤ 2 ^ 32)
    (mem : Nat → UInt8) : memmove dest src n mem = Memory.memmove dest src n mem := by
  rw [memmove_blit source target, memmove_eq]

theorem memcpy_refines (source : src + n ≤ 2 ^ 32) (target : dest + n ≤ 2 ^ 32)
    (apart : dest + n ≤ src ∨ src + n ≤ dest) (df : Bool) (mem : Nat → UInt8) :
    memcpy dest src n df mem = Memory.memcpy dest src n mem := by
  rw [memcpy_blit ⟨source, target, by omega⟩, memcpy_eq n dest src mem target source apart]

/-- **The overlapping move.** Wherever the ranges lie, the destination of
`memmove` gets the bytes that the source had and nothing else changes; between
ranges that are apart `memcpy` does the same. -/
theorem memmove_moved_memcpy (dest src n : Nat) (df : Bool) (mem : Nat → UInt8)
    (source : src + n ≤ 2 ^ 32) (target : dest + n ≤ 2 ^ 32) :
    Moved mem (memmove dest src n mem) dest src n ∧
      ((dest + n ≤ src ∨ src + n ≤ dest) → memcpy dest src n df mem = memmove dest src n mem) := by
  refine ⟨moved_iff.2 (memmove_blit source target mem), fun apart => ?_⟩
  have climbs : Climbs dest src n := ⟨source, target, by omega⟩
  rw [memcpy_blit climbs, memmove_blit source target]

theorem sevenBytes_moved :
    Moved UInt8.ofNat (memmove 6 5 7 UInt8.ofNat) 6 5 7 ∧
      memcpy 13 5 8 true UInt8.ofNat = memmove 13 5 8 UInt8.ofNat :=
  ⟨(memmove_moved_memcpy 6 5 7 false _ (by decide) (by decide)).1,
    (memmove_moved_memcpy 13 5 8 true _ (by decide) (by decide)).2 (by decide)⟩

end

end Illinix.Memory.Assembly
