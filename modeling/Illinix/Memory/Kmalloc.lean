/-
# Memory.Kmalloc -- the kernel allocator of malloc.c

The heap is a map from addresses to `block_t` headers and the list head
`kmem_blocks`; pointers are addresses and `NULL` is 0.  Every header the code
visits is 16-byte aligned, so two headers never overlap in part.

`kmalloc_init` maps exactly the window `[KMALLOC_BEGIN, KMALLOC_BEGIN +
KMALLOC_SIZE)`: the directory entries around it are not present, so a header
access outside the window is a page fault, `none` here.  The field `start` of
`block_t` is never read or written.
-/
import Mathlib.Algebra.Ring.Nat
import Mathlib.Data.Option.Basic
import Mathlib.Tactic.SplitIfs

namespace Illinix.Memory

set_option autoImplicit false

def kmallocBegin : Nat := 0x3000000
def kmallocSize : Nat := 0x1000 * 1024 * 4

/-- `sizeof(block_t)`. -/
def headerSize : Nat := 16

/-- `size > 0x400000` is refused: kmalloc is for small blocks. -/
def kmallocLimit : Nat := 0x400000

def alignedSize (x : Nat) : Nat := (x + 15) / 16 * 16

/-- Reduction to `uint32_t`. -/
def u32 (x : Nat) : Nat := x % 2 ^ 32

structure Block where
  prev : Nat
  next : Nat
  size : Nat
  deriving DecidableEq, Repr

structure Heap where
  kmemBlocks : Nat
  block : Nat → Block

namespace Heap

/-- The header at `p` lies in the mapped window. -/
def Mapped (p : Nat) : Prop := kmallocBegin ≤ p ∧ p + headerSize ≤ kmallocBegin + kmallocSize

instance (p : Nat) : Decidable (Mapped p) := inferInstanceAs (Decidable (_ ∧ _))

def load (h : Heap) (p : Nat) : Option Block :=
  if Mapped p then some (h.block p) else none

def store (h : Heap) (p : Nat) (b : Block) : Option Heap :=
  if Mapped p then some { h with block := fun q => if q = p then b else h.block q } else none

/-- `p->field = value`. -/
def modify (h : Heap) (p : Nat) (f : Block → Block) : Option Heap := do
  let b ← h.load p
  h.store p (f b)

/-- `if (p) p->field = value;` -/
def modifyIf (h : Heap) (p : Nat) (f : Block → Block) : Option Heap :=
  if p ≠ 0 then h.modify p f else some h

/-- The search loop of `kmalloc`: the first free block whose size field is large
enough, 0 when the list ends.  `fuel` bounds the visits. -/
def firstFit (h : Heap) (size : Nat) : Nat → Nat → Option Nat
  | 0, _ => none
  | fuel + 1, curr =>
      if curr = 0 then some 0
      else do
        let b ← h.load curr
        if size ≤ b.size then some curr else firstFit h size fuel b.next

/-- No list visits more headers than the 32-bit space has. -/
def visits : Nat := 2 ^ 32 / headerSize

/-- All of `curr` is used up: take it out of the list. -/
def takeWhole (h : Heap) (curr : Nat) (b : Block) : Option (Heap × Nat) := do
  let h ← h.modifyIf b.prev fun p => { p with next := b.next }
  let h ← h.modifyIf b.next fun n => { n with prev := b.prev }
  some (h, u32 (curr + headerSize))

/-- Cut `curr` in two.  `next->size` is computed from `curr->size`, which the
statement before it has already set to `size`. -/
def split (h : Heap) (curr size realSize : Nat) : Option (Heap × Nat) := do
  let h ← h.modify curr fun b => { b with size := size }
  let b ← h.load curr
  let next := u32 (curr + realSize)
  let h ← h.store next { prev := b.prev, next := b.next, size := u32 (b.size + 2 ^ 32 - realSize) }
  let h ← h.modifyIf b.prev fun p => { p with next := next }
  let h ← h.modifyIf b.next fun n => { n with prev := next }
  let h := if curr = h.kmemBlocks then { h with kmemBlocks := next } else h
  some (h, u32 (curr + headerSize))

/-- The code after the loop: lay out the window from its start. -/
def firstUse (h : Heap) (size realSize : Nat) : Option (Heap × Nat) := do
  let h ← h.store kmallocBegin { prev := 0, next := 0, size := size }
  let rest := u32 (kmallocBegin + realSize)
  let h ← h.store rest { prev := 0, next := 0, size := u32 (kmallocSize + 2 ^ 32 - realSize) }
  some ({ h with kmemBlocks := rest }, kmallocBegin + headerSize)

def kmalloc (h : Heap) (size : Nat) : Option (Heap × Nat) :=
  if size = 0 ∨ size > kmallocLimit then some (h, 0)
  else do
    let size := alignedSize size
    let realSize := size + headerSize
    let curr ← h.firstFit size visits h.kmemBlocks
    if curr ≠ 0 then do
      let b ← h.load curr
      if b.size - size < headerSize then h.takeWhole curr b else h.split curr size realSize
    else h.firstUse size realSize

/-- The heap before the first call: `kmem_blocks` is `NULL`, the window zeroed. -/
def initial : Heap := ⟨0, fun _ => ⟨0, 0, 0⟩⟩

/-- The free list: the blocks reachable from `kmem_blocks`. -/
inductive Free (h : Heap) : Nat → Prop
  | head : h.kmemBlocks ≠ 0 → Free h h.kmemBlocks
  | next {b : Nat} : Free h b → (h.block b).next ≠ 0 → Free h (h.block b).next

/-! ## What the paths of the code do -/

section

variable {h : Heap} {b : Nat}

theorem modifyIf_eq {p : Nat} (mapped : p ≠ 0 → Mapped p) (f : Block → Block) :
    h.modifyIf p f = some { h with
      block := fun q => if q = p ∧ p ≠ 0 then f (h.block q) else h.block q } := by
  simp only [modifyIf]
  by_cases null : p = 0
  · simp [null]
  · rw [if_pos null]
    simp only [Heap.modify, load, store, if_pos (mapped null), Option.bind_eq_bind,
      Option.bind_some, Option.some.injEq, Heap.mk.injEq, true_and]
    funext q
    by_cases here : q = p
    · simp [here, null]
    · simp [here]

theorem takeWhole_eq (mapped : Mapped b) (prev : (h.block b).prev ≠ 0 → Mapped (h.block b).prev)
    (next : (h.block b).next ≠ 0 → Mapped (h.block b).next) :
    ∃ h', h.takeWhole b (h.block b) = some (h', b + headerSize) ∧ h'.kmemBlocks = h.kmemBlocks ∧
      ∀ a, a ≠ 0 → h'.block a =
        { prev := if a = (h.block b).next then (h.block b).prev else (h.block a).prev
          next := if a = (h.block b).prev then (h.block b).next else (h.block a).next
          size := (h.block a).size } := by
  have result : u32 (b + headerSize) = b + headerSize := by
    simp only [Mapped, kmallocBegin, kmallocSize, headerSize] at mapped
    simp only [u32, headerSize]
    omega
  simp only [takeWhole, modifyIf_eq prev, modifyIf_eq next, Option.bind_eq_bind, Option.bind_some,
    result, Option.some.injEq, Prod.mk.injEq, and_true, exists_eq_left', true_and]
  intro a some'
  have here : ∀ p, (a = p ∧ p ≠ 0) ↔ a = p := fun p =>
    and_iff_left_of_imp fun same => same ▸ some'
  simp only [here]
  split_ifs <;> rfl

theorem ite_head {p : Prop} [Decidable p] (m k : Nat) (block : Nat → Block) :
    (if p then Heap.mk m block else Heap.mk k block) = ⟨if p then m else k, block⟩ := by
  split_ifs <;> rfl

theorem split_eq {size : Nat} (mapped : Mapped b) (room : Mapped (b + (size + headerSize)))
    (prev : (h.block b).prev ≠ 0 → Mapped (h.block b).prev)
    (next : (h.block b).next ≠ 0 → Mapped (h.block b).next)
    (notPrev : (h.block b).prev ≠ b + (size + headerSize))
    (notNext : (h.block b).next ≠ b + (size + headerSize)) :
    ∃ h', h.split b size (size + headerSize) = some (h', b + headerSize) ∧
      h'.kmemBlocks = (if b = h.kmemBlocks then b + (size + headerSize) else h.kmemBlocks) ∧
      ∀ a, a ≠ 0 → h'.block a =
        if a = b + (size + headerSize) then
          { prev := (h.block b).prev, next := (h.block b).next, size := 2 ^ 32 - headerSize }
        else
          { prev := if a = (h.block b).next then b + (size + headerSize) else (h.block a).prev
            next := if a = (h.block b).prev then b + (size + headerSize) else (h.block a).next
            size := if a = b then size else (h.block a).size } := by
  have result : u32 (b + headerSize) = b + headerSize := by
    simp only [Mapped, kmallocBegin, kmallocSize, headerSize] at mapped
    simp only [u32, headerSize]
    omega
  have nextAt : u32 (b + (size + headerSize)) = b + (size + headerSize) := by
    simp only [Mapped, kmallocBegin, kmallocSize, headerSize] at room
    simp only [u32, headerSize]
    omega
  have underflow : u32 (size + 2 ^ 32 - (size + headerSize)) = 2 ^ 32 - headerSize := by
    simp only [u32, headerSize]
    omega
  simp only [split, Heap.modify, load, store, if_pos mapped, nextAt, if_pos room, underflow,
    Option.bind_eq_bind, Option.bind_some, if_true, modifyIf_eq prev, modifyIf_eq next, result,
    ite_head, Option.some.injEq, Prod.mk.injEq, and_true, exists_eq_left', true_and]
  intro a some'
  have here : ∀ p, (a = p ∧ p ≠ 0) ↔ a = p := fun p =>
    and_iff_left_of_imp fun same => same ▸ some'
  simp only [here]
  by_cases cut : a = b + (size + headerSize)
  · have away : ¬a = (h.block b).prev := cut ▸ Ne.symm notPrev
    have away' : ¬a = (h.block b).next := cut ▸ Ne.symm notNext
    simp only [if_pos cut, if_neg away, if_neg away']
  · simp only [if_neg cut]
    by_cases same : a = b
    · subst same
      simp only [if_true]
      split_ifs <;> rfl
    · simp only [if_neg same]
      split_ifs <;> rfl

/-- A rest outside the window cannot be stored. -/
theorem split_unmapped {size : Nat} (small : size ≤ kmallocLimit) (mapped : Mapped b)
    (outside : ¬Mapped (b + (size + headerSize))) :
    h.split b size (size + headerSize) = none := by
  have nextAt : ¬Mapped (u32 (b + (size + headerSize))) := by
    simp only [Mapped, u32, kmallocBegin, kmallocSize, headerSize, kmallocLimit] at *
    omega
  simp only [split, Heap.modify, load, store, if_pos mapped, if_neg nextAt, Option.bind_eq_bind,
    Option.bind_some, Option.bind_none]

theorem firstUse_eq {size : Nat} (small : size ≤ kmallocLimit) :
    ∃ h', h.firstUse size (size + headerSize) = some (h', kmallocBegin + headerSize) ∧
      h'.kmemBlocks = kmallocBegin + (size + headerSize) ∧
      h'.block h'.kmemBlocks = ⟨0, 0, kmallocSize - (size + headerSize)⟩ := by
  simp only [kmallocLimit] at small
  have mapped : Mapped kmallocBegin := by decide
  have rest : u32 (kmallocBegin + (size + headerSize)) = kmallocBegin + (size + headerSize) := by
    simp only [u32, kmallocBegin, headerSize]
    omega
  have left : u32 (kmallocSize + 2 ^ 32 - (size + headerSize)) =
      kmallocSize - (size + headerSize) := by
    simp only [u32, kmallocSize, headerSize]
    omega
  have mapped' : Mapped (kmallocBegin + (size + headerSize)) := by
    simp only [Mapped, kmallocBegin, kmallocSize, headerSize]
    omega
  simp only [firstUse, store, if_pos mapped, rest, left, if_pos mapped', Option.bind_eq_bind,
    Option.bind_some, Option.some.injEq, Prod.mk.injEq, and_true, exists_eq_left', if_true]

end

end Heap

end Illinix.Memory
