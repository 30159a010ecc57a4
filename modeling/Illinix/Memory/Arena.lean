/-
# Memory.Arena -- which allocation sequences kmalloc serves safely

An `Arena` is the heap together with the regions handed out so far.  `Sound`
says what a caller relies on: the regions lie in the window, they are pairwise
apart, and none covers the header of a free block; `Honest` adds that a request
no free block has room for is refused without effect.

From the second call on, the one free block claims `2^32 - 16` bytes, so the
search never fails and nothing is ever refused: the code hands out consecutive
regions until a header falls outside the window.  `safe_iff` is the exact
condition for a whole sequence of requests.
-/
import Illinix.Theory.Run
import Illinix.Memory.Kmalloc

namespace Illinix.Memory

open Illinix.Theory Heap

set_option autoImplicit false

/-- A region `[start, start + size)`. -/
structure Region where
  start : Nat
  size : Nat

namespace Region

def Apart (r q : Region) : Prop := r.start + r.size ≤ q.start ∨ q.start + q.size ≤ r.start

def Inside (r : Region) (low high : Nat) : Prop := low ≤ r.start ∧ r.start + r.size ≤ high

theorem Inside.mono {r : Region} {low high low' high' : Nat} (inside : r.Inside low high)
    (lower : low' ≤ low) (higher : high ≤ high') : r.Inside low' high' :=
  ⟨lower.trans inside.1, inside.2.trans higher⟩

end Region

/-- The heap and the regions handed out so far, newest first. -/
structure Arena where
  heap : Heap
  taken : List Region

namespace Arena

def initial : Arena := ⟨Heap.initial, []⟩

/-- One call of `kmalloc`: a result other than `NULL` is a region in use. -/
def call (a : Arena) (size : Nat) : Option Arena :=
  (a.heap.kmalloc size).map fun (h, p) =>
    ⟨h, if p = 0 then a.taken else ⟨p, size⟩ :: a.taken⟩

/-- The region a free block's header occupies. -/
def header (b : Nat) : Region := ⟨b, headerSize⟩

/-- The free block at `b` has room for `size` bytes: the payload runs neither
past the window nor into the header of another block, free or in use. -/
def HasRoom (a : Arena) (b size : Nat) : Prop :=
  b + headerSize + size ≤ kmallocBegin + kmallocSize ∧
  (∀ c, a.heap.Free c → b < c → b + headerSize + size ≤ c) ∧
  ∀ r ∈ a.taken, b < r.start - headerSize → b + headerSize + size ≤ r.start - headerSize

structure Sound (a : Arena) : Prop where
  inside : ∀ r ∈ a.taken, r.Inside kmallocBegin (kmallocBegin + kmallocSize)
  apart : a.taken.Pairwise Region.Apart
  headers : ∀ r ∈ a.taken, ∀ b, a.heap.Free b → r.Apart (header b)

/-- What one call owes: a sound arena, and a refusal without effect when the
heap is in use and no free block has room. -/
def Honest (a : Arena) (size : Nat) (a' : Arena) : Prop :=
  a'.Sound ∧ (a.heap.kmemBlocks ≠ 0 → (∀ b, a.heap.Free b → ¬ a.HasRoom b size) → a' = a)

/-- The bytes a request takes from the window: nothing when `kmalloc` refuses it
outright, else its header and its rounded size. -/
def cost (size : Nat) : Nat :=
  if size = 0 ∨ size > kmallocLimit then 0 else headerSize + alignedSize size

def total (sizes : List Nat) : Nat := (sizes.map cost).sum

/-- The arena after accepted requests of `used` bytes in all. -/
inductive Filled (a : Arena) : Nat → Prop
  | unused : a.heap.kmemBlocks = 0 → a.taken = [] → Filled a 0
  | upTo {used : Nat} : a.heap.kmemBlocks = kmallocBegin + used →
      (a.heap.block a.heap.kmemBlocks).prev = 0 → (a.heap.block a.heap.kmemBlocks).next = 0 →
      kmallocLimit + headerSize ≤ (a.heap.block a.heap.kmemBlocks).size →
      used % 16 = 0 → used < kmallocSize →
      (∀ r ∈ a.taken, r.Inside kmallocBegin (kmallocBegin + used)) →
      a.taken.Pairwise Region.Apart → Filled a used

theorem cost_of_refused {size : Nat} (refused : size = 0 ∨ size > kmallocLimit) : cost size = 0 :=
  if_pos refused

theorem cost_of_accepted {size : Nat} (accepted : ¬(size = 0 ∨ size > kmallocLimit)) :
    cost size = headerSize + alignedSize size := if_neg accepted

/-- An accepted request takes a header and at least its size, in whole units of
16 bytes, and never more than the largest request. -/
theorem alignedSize_bounds {size : Nat} (accepted : ¬(size = 0 ∨ size > kmallocLimit)) :
    size ≤ alignedSize size ∧ alignedSize size % 16 = 0 ∧ alignedSize size ≤ kmallocLimit := by
  simp only [alignedSize, kmallocLimit] at accepted ⊢
  omega

theorem call_of_refused (a : Arena) {size : Nat} (refused : size = 0 ∨ size > kmallocLimit) :
    a.call size = some a := by
  simp only [call, kmalloc, if_pos refused, Option.map_some, if_true]

/-- The first accepted request lays out the window. -/
theorem kmalloc_first {h : Heap} {size : Nat} (accepted : ¬(size = 0 ∨ size > kmallocLimit))
    (unused : h.kmemBlocks = 0) :
    ∃ h', h.kmalloc size = some (h', kmallocBegin + headerSize) ∧
      h'.kmemBlocks = kmallocBegin + cost size ∧
      h'.block h'.kmemBlocks = ⟨0, 0, kmallocSize - cost size⟩ := by
  have none_found : h.firstFit (alignedSize size) visits h.kmemBlocks = some 0 := by
    rw [unused, show visits = (visits - 1) + 1 by decide]
    simp only [firstFit, if_true]
  have ran : h.kmalloc size = h.firstUse (alignedSize size) (alignedSize size + headerSize) := by
    simp only [kmalloc, if_neg accepted, none_found, Option.bind_eq_bind, Option.bind_some, ne_eq,
      not_true_eq_false, if_false]
  rw [cost_of_accepted accepted, Nat.add_comm headerSize, ran]
  exact firstUse_eq (alignedSize_bounds accepted).2.2

/-- A later accepted request splits the only free block; its header faults when
it falls outside the window. -/
theorem kmalloc_later {h : Heap} {size used : Nat} (accepted : ¬(size = 0 ∨ size > kmallocLimit))
    (head : h.kmemBlocks = kmallocBegin + used) (prev : (h.block h.kmemBlocks).prev = 0)
    (next : (h.block h.kmemBlocks).next = 0)
    (roomy : kmallocLimit + headerSize ≤ (h.block h.kmemBlocks).size)
    (aligned : used % 16 = 0) (below : used < kmallocSize) :
    (used + cost size < kmallocSize → ∃ h',
      h.kmalloc size = some (h', kmallocBegin + used + headerSize) ∧
      h'.kmemBlocks = kmallocBegin + (used + cost size) ∧
      h'.block h'.kmemBlocks = ⟨0, 0, 2 ^ 32 - headerSize⟩) ∧
    (¬ used + cost size < kmallocSize → h.kmalloc size = none) := by
  obtain ⟨fits, rounded, small⟩ := alignedSize_bounds accepted
  have nonnull : h.kmemBlocks ≠ 0 := by
    rw [head]
    simp only [kmallocBegin]
    omega
  have mapped : Mapped h.kmemBlocks := by
    rw [head]
    simp only [Mapped, kmallocBegin, headerSize, kmallocSize] at below ⊢
    omega
  have found : h.firstFit (alignedSize size) visits h.kmemBlocks = some h.kmemBlocks := by
    rw [show visits = (visits - 1) + 1 by decide]
    simp only [firstFit, if_neg nonnull, load, if_pos mapped, Option.bind_eq_bind, Option.bind_some,
      if_pos (show alignedSize size ≤ (h.block h.kmemBlocks).size by omega)]
  have ran : h.kmalloc size =
      h.split h.kmemBlocks (alignedSize size) (alignedSize size + headerSize) := by
    simp only [kmalloc, if_neg accepted, found, Option.bind_eq_bind, Option.bind_some, ne_eq, nonnull,
      not_false_eq_true, if_true, load, if_pos mapped]
    rw [if_neg (by simp only [headerSize] at roomy ⊢; omega)]
  have nextAt : h.kmemBlocks + (alignedSize size + headerSize) =
      kmallocBegin + (used + cost size) := by
    rw [head, cost_of_accepted accepted]
    omega
  have later : (0 : Nat) ≠ h.kmemBlocks + (alignedSize size + headerSize) := by omega
  have window : Mapped (h.kmemBlocks + (alignedSize size + headerSize)) ↔
      used + cost size < kmallocSize := by
    rw [nextAt, cost_of_accepted accepted]
    simp only [Mapped, kmallocBegin, kmallocSize, headerSize]
    omega
  rw [ran]
  refine ⟨fun room => ?_, fun full => ?_⟩
  · obtain ⟨h', ran', head', blocks⟩ := split_eq mapped (window.2 room)
      (fun some' => absurd prev some') (fun some' => absurd next some') (prev ▸ later) (next ▸ later)
    rw [if_pos rfl] at head'
    refine ⟨h', head ▸ ran', head'.trans nextAt, ?_⟩
    rw [head', blocks _ later.symm, if_pos rfl, prev, next]
  · exact split_unmapped small mapped fun inside => full (window.1 inside)

/-- A list whose head has no successor has one block. -/
theorem free_single {h : Heap} (next : (h.block h.kmemBlocks).next = 0) {b : Nat} (free : h.Free b) :
    b = h.kmemBlocks := by
  induction free with
  | head => rfl
  | next _ more ih => exact absurd (ih ▸ next) more

theorem Filled.sound {a : Arena} {used : Nat} (filled : a.Filled used) : a.Sound := by
  cases filled with
  | unused null none_taken =>
      refine ⟨?_, ?_, ?_⟩ <;> simp [none_taken]
  | upTo head prev next roomy aligned below inside apart =>
      refine ⟨fun r mem => (inside r mem).mono (le_refl _) (by omega), apart, ?_⟩
      intro r mem b free
      rw [free_single next free, head]
      exact Or.inl (inside r mem).2

/-- One call that stays in the window keeps the arena and meets its contract. -/
theorem call_filled {a : Arena} {used size : Nat} (filled : a.Filled used)
    (room : used + cost size < kmallocSize) :
    ∃ a', a.call size = some a' ∧ a'.Filled (used + cost size) ∧ a.Honest size a' := by
  by_cases refused : size = 0 ∨ size > kmallocLimit
  · rw [cost_of_refused refused, Nat.add_zero]
    exact ⟨a, call_of_refused a refused, filled, filled.sound, fun _ _ => rfl⟩
  obtain ⟨fits, rounded, small⟩ := alignedSize_bounds refused
  have price := cost_of_accepted refused
  cases filled with
  | unused null none_taken =>
      obtain ⟨h', ran, head, block⟩ := kmalloc_first refused null
      have filled' : Filled ⟨h', [⟨kmallocBegin + headerSize, size⟩]⟩ (0 + cost size) := by
        refine .upTo (by simpa using head) (by simp [block]) (by simp [block]) ?_ ?_ (by omega) ?_ (by simp)
        · simp only [block, price, headerSize, kmallocSize, kmallocLimit] at small ⊢
          omega
        · simp only [price, headerSize]; omega
        · simp only [List.mem_singleton, forall_eq, Region.Inside, price]
          omega
      refine ⟨_, ?_, filled', filled'.sound, fun inUse => absurd null inUse⟩
      simp only [call, ran, Option.map_some, none_taken]
      rw [if_neg (by decide)]
  | upTo head prev next roomy aligned below inside apart =>
      obtain ⟨h', ran, head', block⟩ :=
        (kmalloc_later refused head prev next roomy aligned below).1 room
      have newest : ∀ r ∈ a.taken, Region.Apart ⟨kmallocBegin + used + headerSize, size⟩ r :=
        fun r mem => Or.inr ((inside r mem).2.trans (by simp only; omega))
      have filled' : Filled ⟨h', ⟨kmallocBegin + used + headerSize, size⟩ :: a.taken⟩
          (used + cost size) := by
        refine .upTo head' (by simp [block]) (by simp [block]) ?_ ?_ room ?_
          (List.pairwise_cons.2 ⟨newest, apart⟩)
        · simp only [block, headerSize, kmallocLimit]; omega
        · simp only [price, headerSize]; omega
        · intro r mem
          rcases List.mem_cons.1 mem with rfl | old
          · simp only [Region.Inside, price]
            omega
          · exact (inside r old).mono (le_refl _) (by omega)
      refine ⟨_, ?_, filled', filled'.sound, fun inUse full => ?_⟩
      · simp only [call, ran, Option.map_some]
        rw [if_neg (by simp only [kmallocBegin]; omega)]
      · -- the one free block does have room, so nothing is owed
        refine absurd ?_ (full _ (.head inUse))
        rw [head]
        refine ⟨by omega, fun c free later => ?_, fun r mem later => ?_⟩
        · rw [free_single next free, head] at later
          omega
        · have := (inside r mem).2
          omega

/-- A call that would leave the window faults. -/
theorem call_overfull {a : Arena} {used size : Nat} (filled : a.Filled used)
    (full : ¬ used + cost size < kmallocSize) : a.call size = none := by
  by_cases refused : size = 0 ∨ size > kmallocLimit
  · rw [cost_of_refused refused] at full
    cases filled with
    | unused => exact absurd (by decide) full
    | upTo _ _ _ _ _ below => exact absurd below full
  cases filled with
  | unused null none_taken =>
      have := (alignedSize_bounds refused).2.2
      rw [cost_of_accepted refused] at full
      simp only [headerSize, kmallocSize, kmallocLimit] at full this
      omega
  | upTo head prev next roomy aligned below inside apart =>
      rw [call, (kmalloc_later refused head prev next roomy aligned below).2 full, Option.map_none]

/-- The exact condition for the rest of a sequence, by induction on it. -/
theorem safe_iff_of_filled : ∀ (sizes : List Nat) (a : Arena) (used : Nat), a.Filled used →
    (used < kmallocSize ∧ Safe call Honest a sizes ↔ used + total sizes < kmallocSize) := by
  intro sizes
  induction sizes with
  | nil => intro a used _; simp [Safe, total]
  | cons size sizes ih =>
      intro a used filled
      have sum : used + total (size :: sizes) = used + cost size + total sizes := by
        simp only [total, List.map_cons, List.sum_cons]; omega
      rw [sum]
      by_cases room : used + cost size < kmallocSize
      · obtain ⟨a', ran, filled', honest⟩ := call_filled filled room
        rw [← ih a' _ filled']
        simp only [Safe, ran, Option.some.injEq, exists_eq_left', honest, true_and]
        constructor
        · exact fun h => ⟨room, h.2⟩
        · exact fun h => ⟨by omega, h.2⟩
      · simp only [Safe, call_overfull filled room, reduceCtorEq, false_and, exists_false, and_false,
          false_iff]
        omega

/-- **Allocator safety.** A sequence of requests is served soundly, call after
call, exactly when the accepted ones with their headers take fewer bytes than
the window has. -/
theorem safe_iff (sizes : List Nat) : Safe call Honest initial sizes ↔ total sizes < kmallocSize := by
  have exact_sum := safe_iff_of_filled sizes initial 0 (.unused rfl rfl)
  rw [Nat.zero_add] at exact_sum
  exact ⟨fun safe => exact_sum.1 ⟨by decide, safe⟩, fun room => (exact_sum.2 room).2⟩

/-- Four of the largest requests: the fourth is neither served nor refused. -/
theorem four_largest_unsafe : ¬ Safe call Honest initial [0x400000, 0x400000, 0x400000, 0x400000] := by
  intro safe
  have room := (safe_iff_of_filled _ initial 0 (.unused rfl rfl)).1 ⟨by decide, safe⟩
  exact absurd room (by decide)

end Arena

end Illinix.Memory
