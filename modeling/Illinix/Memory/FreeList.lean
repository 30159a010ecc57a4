/-
# Memory.FreeList -- what one kmalloc does to the free list

A `FreeList` is what the code takes the list for: the headers from `kmem_blocks`
on are linked both ways, lie at multiples of 16, and with their payloads cover
ranges of the window that are pairwise apart.  `Conserves` is what a call owes:
such a list again, which with the block handed out has the bytes of the old one.

Of the four ways through the code one does it, the removal of a block that is
not the head (`takeWhole_conserves`).  The head stays in the list when it is
removed, a split gives the rest the size `2^32 - 16`, and the code after the loop
a block that ends 16 bytes behind the window.
-/
import Illinix.Theory.Linked
import Illinix.Memory.Arena
import Mathlib.Data.List.Nodup
import Mathlib.Data.List.Pairwise
import Mathlib.Data.List.Perm.Subperm

namespace Illinix.Memory

open Illinix.Theory

set_option autoImplicit false

namespace Region

/-- The byte at `a` is in the region. -/
def Covers (r : Region) (a : Nat) : Prop := r.start ≤ a ∧ a < r.start + r.size

theorem Apart.symm {r q : Region} (apart : r.Apart q) : q.Apart r := Or.symm apart

/-- Regions with bytes that are apart do not begin at one address. -/
theorem Apart.start_ne {r q : Region} (apart : r.Apart q) (some' : 0 < r.size) (some'' : 0 < q.size) :
    r.start ≠ q.start := by
  simp only [Apart] at apart
  omega

end Region

namespace Heap

/-- The bytes of the block at `b`: its header and its payload. -/
def extent (h : Heap) (b : Nat) : Region := ⟨b, headerSize + (h.block b).size⟩

structure FreeList (h : Heap) (l : List Nat) : Prop where
  head : h.kmemBlocks = l.headD 0
  links : Segment (fun b => (h.block b).prev) (fun b => (h.block b).next) 0 0 l 0
  aligned : ∀ b ∈ l, b % 16 = 0
  inside : ∀ b ∈ l, (h.extent b).Inside kmallocBegin (kmallocBegin + kmallocSize)
  apart : l.Pairwise fun b c => (h.extent b).Apart (h.extent c)

/-- The byte at `a` belongs to a block of the list. -/
def Holds (h : Heap) (l : List Nat) (a : Nat) : Prop := ∃ b ∈ l, (h.extent b).Covers a

/-- From the heap `h` with the list `l` to `h'` with `l'`, the block at `b` handed
out. -/
structure Conserves (h : Heap) (l : List Nat) (h' : Heap) (l' : List Nat) (b : Nat) : Prop where
  list : FreeList h' l'
  gone : b ∉ l'
  apart : ∀ c ∈ l', (h'.extent b).Apart (h'.extent c)
  bytes : ∀ a, Holds h' l' a ∨ (h'.extent b).Covers a ↔ Holds h l a

/-- The first free block with room for the rounded size is not the head, and has
less than a header to spare. -/
def FitsBehindHead (h : Heap) (l : List Nat) (size : Nat) : Prop :=
  ∃ b, l.find? (fun b => alignedSize size ≤ (h.block b).size) = some b ∧ b ≠ h.kmemBlocks ∧
    (h.block b).size < alignedSize size + headerSize

/-! ## The blocks of a list -/

section

variable {h : Heap} {l : List Nat} {b : Nat}

theorem FreeList.mapped (list : FreeList h l) (mem : b ∈ l) : Mapped b := by
  have inside := list.inside b mem
  simp only [extent, Region.Inside] at inside
  simp only [Mapped]
  omega

theorem FreeList.nodup (list : FreeList h l) : l.Nodup :=
  list.apart.imp fun apart => apart.start_ne (Nat.add_pos_left (by decide) _)
    (Nat.add_pos_left (by decide) _)

theorem FreeList.apart_of_ne (list : FreeList h l) {c : Nat} (mem : b ∈ l) (mem' : c ∈ l)
    (differ : b ≠ c) : (h.extent b).Apart (h.extent c) := by
  have symm : Std.Symm fun b c => (h.extent b).Apart (h.extent c) := ⟨fun _ _ => Region.Apart.symm⟩
  exact list.apart.forall mem mem' differ

theorem FreeList.head_mem (list : FreeList h l) (some' : h.kmemBlocks ≠ 0) : h.kmemBlocks ∈ l := by
  cases l with
  | nil => exact absurd list.head some'
  | cons b rest => exact list.head ▸ List.mem_cons_self

theorem FreeList.head_ne (list : FreeList h l) (mem : b ∈ l) : h.kmemBlocks ≠ 0 := by
  cases l with
  | nil => cases mem
  | cons c rest => exact list.head ▸ list.links.1

/-- The blocks begin at different multiples of 16 in the window. -/
theorem FreeList.length_lt (list : FreeList h l) : l.length < visits := by
  have units : (l.map (· / 16)).Nodup := by
    refine list.nodup.map_on fun b mem c mem' same => ?_
    have := list.aligned b mem
    have := list.aligned c mem'
    omega
  have below : l.map (· / 16) ⊆ List.range (2 ^ 26) := by
    intro u mem
    obtain ⟨b, inside, rfl⟩ := List.mem_map.1 mem
    have mapped := list.mapped inside
    simp only [Mapped, kmallocBegin, kmallocSize, headerSize] at mapped
    exact List.mem_range.2 (by omega)
  have short := (List.subperm_of_subset units below).length_le
  rw [List.length_map, List.length_range] at short
  exact short.trans_lt (by decide)

/-! ## The search -/

theorem firstFit_eq (size : Nat) : ∀ (l : List Nat) (q fuel : Nat),
    Segment (fun b => (h.block b).prev) (fun b => (h.block b).next) 0 q l 0 →
    (∀ b ∈ l, Mapped b) → l.length < fuel → h.firstFit size fuel (l.headD 0) =
      some ((l.find? fun b => size ≤ (h.block b).size).getD 0) := by
  intro l
  induction l with
  | nil =>
      intro q fuel _ _ enough
      obtain ⟨fuel, rfl⟩ := Nat.exists_eq_succ_of_ne_zero (Nat.ne_of_gt enough)
      rfl
  | cons b rest ih =>
      intro q fuel links mapped enough
      obtain ⟨fuel, rfl⟩ := Nat.exists_eq_succ_of_ne_zero (Nat.ne_of_gt (Nat.zero_lt_of_lt enough))
      obtain ⟨some', _, next, more⟩ := links
      rw [List.headD_cons]
      simp only [firstFit, if_neg some', load, if_pos (mapped b (by simp)),
        Option.bind_eq_bind, Option.bind_some]
      by_cases fits : size ≤ (h.block b).size
      · rw [if_pos fits, List.find?_cons_of_pos (by simpa using fits), Option.getD_some]
      · rw [if_neg fits, List.find?_cons_of_neg (by simpa using fits)]
        have again := ih b fuel more (fun c mem => mapped c (by simp [mem])) (by simpa using enough)
        rwa [← next] at again

/-- The call, by what the search finds. -/
theorem kmalloc_found (list : FreeList h l) {size : Nat}
    (accepted : ¬(size = 0 ∨ size > kmallocLimit))
    (found : l.find? (fun b => alignedSize size ≤ (h.block b).size) = some b) :
    h.kmalloc size =
      if (h.block b).size - alignedSize size < headerSize then h.takeWhole b (h.block b)
      else h.split b (alignedSize size) (alignedSize size + headerSize) := by
  have mem := List.mem_of_find?_eq_some found
  have search := firstFit_eq (alignedSize size) l 0 visits list.links
    (fun c mem => list.mapped mem) list.length_lt
  rw [found, Option.getD_some, ← list.head] at search
  simp only [kmalloc, if_neg accepted, search, Option.bind_eq_bind, Option.bind_some, ne_eq,
    list.links.ne_null mem, not_false_eq_true, if_true, load, if_pos (list.mapped mem)]

theorem kmalloc_exhausted (list : FreeList h l) {size : Nat}
    (accepted : ¬(size = 0 ∨ size > kmallocLimit))
    (full : l.find? (fun b => alignedSize size ≤ (h.block b).size) = none) :
    h.kmalloc size = h.firstUse (alignedSize size) (alignedSize size + headerSize) := by
  have search := firstFit_eq (alignedSize size) l 0 visits list.links
    (fun c mem => list.mapped mem) list.length_lt
  rw [full, Option.getD_none, ← list.head] at search
  simp only [kmalloc, if_neg accepted, search, Option.bind_eq_bind, Option.bind_some, ne_eq,
    not_true_eq_false, if_false]

/-! ## A whole block -/

/-- What a list gives for a block in it. -/
theorem FreeList.neighbours (list : FreeList h l) (mem : b ∈ l) :
    ((h.block b).prev ≠ 0 → (h.block b).prev ∈ l) ∧
      ((h.block b).next ≠ 0 → (h.block b).next ∈ l) := by
  obtain ⟨before, after, rfl⟩ := List.append_of_mem mem
  obtain ⟨_, _, prev, next, _⟩ := (segment_append _ _ _).1 list.links
  simp only at prev next
  rw [prev, next]
  constructor
  · intro some'
    rcases List.eq_nil_or_concat' before with rfl | ⟨front, p, rfl⟩
    · exact absurd rfl some'
    · simp
  · intro some'
    cases after with
    | nil => exact absurd rfl some'
    | cons n rest => simp

theorem FreeList.takeWhole (list : FreeList h l) (mem : b ∈ l) :
    ∃ h', h.takeWhole b (h.block b) = some (h', b + headerSize) ∧ h'.kmemBlocks = h.kmemBlocks ∧
      ∀ a, a ≠ 0 → h'.block a =
        { prev := if a = (h.block b).next then (h.block b).prev else (h.block a).prev
          next := if a = (h.block b).prev then (h.block b).next else (h.block a).next
          size := (h.block a).size } := by
  have neighbours := list.neighbours mem
  exact takeWhole_eq (list.mapped mem) (fun some' => list.mapped (neighbours.1 some'))
    fun some' => list.mapped (neighbours.2 some')

/-- The list after a removal behind the head. -/
theorem FreeList.without {before after : List Nat} (list : FreeList h (before ++ b :: after))
    (behind : before ≠ []) {h' : Heap} (head : h'.kmemBlocks = h.kmemBlocks)
    (blocks : ∀ a, a ≠ 0 → h'.block a =
      { prev := if a = (h.block b).next then (h.block b).prev else (h.block a).prev
        next := if a = (h.block b).prev then (h.block b).next else (h.block a).next
        size := (h.block a).size }) : FreeList h' (before ++ after) := by
  have rest : (before ++ after).Sublist (before ++ b :: after) :=
    (List.sublist_cons_self b after).append_left before
  have block : ∀ c ∈ before ++ after, h'.block c = _ := fun c inside =>
    blocks c (list.links.ne_null (rest.subset inside))
  have extents : ∀ c ∈ before ++ after, h'.extent c = h.extent c := by
    intro c inside
    simp only [extent, block c inside]
  refine ⟨?_, ?_, fun c inside => list.aligned c (rest.subset inside), ?_, ?_⟩
  · rw [head, list.head]
    cases before with
    | nil => exact absurd rfl behind
    | cons c before => rfl
  · refine list.links.unlink list.nodup (fun a inside => ?_) fun a inside => ?_
    · rw [block a inside]
    · rw [block a inside]
  · intro c inside
    rw [extents c inside]
    exact list.inside c (rest.subset inside)
  · refine (list.apart.sublist rest).imp_of_mem fun {c d} inside inside' apart => ?_
    rwa [extents c inside, extents d inside']

/-- Behind the head it is what the list needs. -/
theorem takeWhole_conserves {before after : List Nat} (list : FreeList h (before ++ b :: after))
    (behind : before ≠ []) : ∃ h', h.takeWhole b (h.block b) = some (h', b + headerSize) ∧
      Conserves h (before ++ b :: after) h' (before ++ after) b := by
  have mem : b ∈ before ++ b :: after := by simp
  obtain ⟨h', ran, head, blocks⟩ := list.takeWhole mem
  have rest : ∀ c ∈ before ++ after, c ∈ before ++ b :: after :=
    ((List.sublist_cons_self b after).append_left before).subset
  have extents : ∀ c ∈ before ++ b :: after, h'.extent c = h.extent c := by
    intro c inside
    simp only [extent, blocks c (list.links.ne_null inside)]
  have gone : b ∉ before ++ after := (List.nodup_middle.1 list.nodup).notMem
  refine ⟨h', ran, list.without behind head blocks, gone, fun c inside => ?_, fun a => ?_⟩
  · rw [extents b mem, extents c (rest c inside)]
    exact list.apart_of_ne mem (rest c inside) (ne_of_mem_of_not_mem inside gone).symm
  · simp only [Holds]
    rw [extents b mem]
    constructor
    · rintro (⟨c, inside, covers⟩ | covers)
      · exact ⟨c, rest c inside, extents c (rest c inside) ▸ covers⟩
      · exact ⟨b, mem, covers⟩
    · rintro ⟨c, inside, covers⟩
      rw [← extents c inside] at covers
      rcases List.mem_append.1 inside with left | right
      · exact Or.inl ⟨c, List.mem_append_left _ left, covers⟩
      · rcases List.mem_cons.1 right with rfl | right
        · exact Or.inr (extents c mem ▸ covers)
        · exact Or.inl ⟨c, List.mem_append_right _ right, covers⟩

/-- The head stays where it is. -/
theorem takeWhole_keeps_head (list : FreeList h l) (mem : b ∈ l) (head : b = h.kmemBlocks)
    {h' : Heap} {l' : List Nat} {p : Nat} (ran : h.takeWhole b (h.block b) = some (h', p)) :
    ¬Conserves h l h' l' (p - headerSize) := by
  obtain ⟨h'', ran', kept, _⟩ := list.takeWhole mem
  obtain ⟨rfl, rfl⟩ := Prod.mk.inj (Option.some.inj (ran'.symm.trans ran))
  intro conserves
  have still := conserves.list.head
  rw [kept, ← head] at still
  refine conserves.gone ?_
  rw [Nat.add_sub_cancel]
  cases l' with
  | nil => exact absurd still (list.links.ne_null mem)
  | cons c rest => exact still ▸ List.mem_cons_self

/-! ## A block cut in two -/

/-- The rest of a block begins in it, so no block of the list begins there. -/
theorem FreeList.rest_ne (list : FreeList h l) (mem : b ∈ l) {size c : Nat}
    (room : size + headerSize ≤ (h.block b).size) (node : c ∈ l) :
    c ≠ b + (size + headerSize) := by
  by_cases same : b = c
  · simp only [headerSize]
    omega
  · have apart := list.apart_of_ne mem node same
    simp only [Region.Apart, extent, headerSize] at apart room ⊢
    omega

/-- What the code makes the head, with `m` in the place of `b`. -/
theorem FreeList.headD_before {before after : List Nat} (list : FreeList h (before ++ b :: after))
    (m : Nat) : (if b = h.kmemBlocks then m else h.kmemBlocks) = before.headD m := by
  cases before with
  | nil =>
      have here : b = h.kmemBlocks := list.head.symm
      rw [if_pos here, List.headD_nil]
  | cons c before =>
      have here : h.kmemBlocks = c := list.head
      have differ : b ≠ h.kmemBlocks := fun same =>
        (List.nodup_middle.1 list.nodup).notMem (by simp [same, here])
      rw [if_neg differ, here, List.headD_cons]

/-- The rest of the block claims more bytes than the window has, and the list
gets to it whatever the block was. -/
theorem split_oversized {before after : List Nat} (list : FreeList h (before ++ b :: after))
    {size : Nat} (room : size + headerSize ≤ (h.block b).size) {h' : Heap} {l' : List Nat} {p : Nat}
    (ran : h.split b size (size + headerSize) = some (h', p)) : ¬FreeList h' l' := by
  have mem : b ∈ before ++ b :: after := by simp
  have neighbours := list.neighbours mem
  have inside := list.inside b mem
  simp only [extent, Region.Inside] at inside
  have rest : Mapped (b + (size + headerSize)) := by
    simp only [Mapped]
    omega
  have zero : (0 : Nat) ≠ b + (size + headerSize) := by
    simp only [headerSize]
    omega
  have notNode : ∀ c, (c ≠ 0 → c ∈ before ++ b :: after) → c ≠ b + (size + headerSize) := by
    intro c node
    by_cases null : c = 0
    · exact null ▸ zero
    · exact list.rest_ne mem room (node null)
  obtain ⟨h'', ran', head, blocks⟩ := split_eq (list.mapped mem) rest
    (fun some' => list.mapped (neighbours.1 some')) (fun some' => list.mapped (neighbours.2 some'))
    (notNode _ neighbours.1) (notNode _ neighbours.2)
  obtain ⟨rfl, rfl⟩ := Prod.mk.inj (Option.some.inj (ran'.symm.trans ran))
  intro list'
  have reached : b + (size + headerSize) ∈ l' := by
    refine Segment.reach (list.links.redirect list.nodup (fun _ _ => rfl) fun a left => ?_)
      zero.symm list'.links ?_
    · have node : a ∈ before ++ b :: after := List.mem_append_left _ left
      rw [blocks a (list.links.ne_null node), if_neg (list.rest_ne mem room node)]
    · rw [← list.headD_before, ← head]
      refine list'.head_mem ?_
      rw [head]
      split_ifs
      · exact zero.symm
      · exact list.head_ne mem
  have fits := (list'.inside _ reached).2
  have oversized := blocks _ zero.symm
  rw [if_pos rfl] at oversized
  simp only [extent, oversized] at fits
  simp only [kmallocBegin, kmallocSize, headerSize] at fits
  omega

/-! ## No block at all -/

/-- The one block it leaves ends a header behind the window. -/
theorem firstUse_oversized {size : Nat} (small : size ≤ kmallocLimit) {h' : Heap} {l' : List Nat}
    {p : Nat} (ran : h.firstUse size (size + headerSize) = some (h', p)) : ¬FreeList h' l' := by
  obtain ⟨h'', ran', head, left⟩ := firstUse_eq (h := h) small
  obtain ⟨rfl, rfl⟩ := Prod.mk.inj (Option.some.inj (ran'.symm.trans ran))
  intro list'
  have fits := (list'.inside _ (list'.head_mem ?_)).2
  · simp only [extent, left] at fits
    simp only [head, kmallocLimit, kmallocSize, headerSize] at fits small
    omega
  · rw [head]
    simp only [kmallocBegin]
    omega

end

/-! ## One call -/

/-- **One call conserves the free list** exactly when the first block with room
is behind the head and is used up. -/
theorem kmalloc_conserves_iff {h : Heap} {l : List Nat} {size : Nat} (list : FreeList h l)
    (some' : 0 < size) (small : size ≤ kmallocLimit) :
    (∃ h' p l', h.kmalloc size = some (h', p) ∧ Conserves h l h' l' (p - headerSize)) ↔
      FitsBehindHead h l size := by
  have accepted : ¬(size = 0 ∨ size > kmallocLimit) :=
    fun refused => refused.elim (Nat.ne_of_gt some') (Nat.not_lt_of_le small)
  have aligned := (Arena.alignedSize_bounds accepted).2.2
  simp only [FitsBehindHead]
  cases found : l.find? (fun b => alignedSize size ≤ (h.block b).size) with
  | none =>
      rw [kmalloc_exhausted list accepted found]
      constructor
      · rintro ⟨h', p, l', ran, conserves⟩
        exact absurd conserves.list (firstUse_oversized aligned ran)
      · rintro ⟨b, found', _⟩
        cases found'
  | some b =>
      have mem := List.mem_of_find?_eq_some found
      have fits : alignedSize size ≤ (h.block b).size := by
        simpa using List.find?_some found
      rw [kmalloc_found list accepted found]
      by_cases spare : (h.block b).size - alignedSize size < headerSize
      · rw [if_pos spare]
        constructor
        · rintro ⟨h', p, l', ran, conserves⟩
          exact ⟨b, rfl, fun head => takeWhole_keeps_head list mem head ran conserves, by omega⟩
        · rintro ⟨c, same, behind, _⟩
          obtain rfl := Option.some.inj same
          obtain ⟨before, after, rfl⟩ := List.append_of_mem mem
          have notFirst : before ≠ [] := by
            rintro rfl
            exact behind list.head.symm
          obtain ⟨h', ran, conserves⟩ := takeWhole_conserves list notFirst
          exact ⟨h', _, _, ran, by rwa [Nat.add_sub_cancel]⟩
      · rw [if_neg spare]
        obtain ⟨before, after, rfl⟩ := List.append_of_mem mem
        constructor
        · rintro ⟨h', p, l', ran, conserves⟩
          exact absurd conserves.list (split_oversized list (by omega) ran)
        · rintro ⟨c, same, _, less⟩
          obtain rfl := Option.some.inj same
          omega

/-- Three blocks of the window, and a request for all of the second. -/
def threeBlocks : Heap where
  kmemBlocks := kmallocBegin
  block b :=
    if b = kmallocBegin then ⟨0, kmallocBegin + 64, 16⟩
    else if b = kmallocBegin + 64 then ⟨kmallocBegin, kmallocBegin + 256, 32⟩
    else ⟨kmallocBegin + 64, 0, 4096⟩

theorem threeBlocks_list :
    FreeList threeBlocks [kmallocBegin, kmallocBegin + 64, kmallocBegin + 256] := by
  refine ⟨rfl, ?_, by decide, ?_, ?_⟩
  · simp [Segment, threeBlocks, kmallocBegin]
  · simp [Region.Inside, extent, threeBlocks, kmallocBegin, kmallocSize, headerSize]
  · simp [Region.Apart, extent, threeBlocks, kmallocBegin, headerSize]

theorem threeBlocks_conserved : ∃ h' p l', threeBlocks.kmalloc 32 = some (h', p) ∧
    Conserves threeBlocks [kmallocBegin, kmallocBegin + 64, kmallocBegin + 256] h' l'
      (p - headerSize) :=
  (kmalloc_conserves_iff threeBlocks_list (by decide) (by decide)).2
    ⟨kmallocBegin + 64, by decide, by decide, by decide⟩

/-- The window as one free block. -/
def oneBlock : Heap := ⟨kmallocBegin, fun _ => ⟨0, 0, kmallocSize - headerSize⟩⟩

theorem oneBlock_list : FreeList oneBlock [kmallocBegin] := by
  refine ⟨rfl, ?_, by decide, ?_, ?_⟩
  · exact ⟨by decide, rfl, rfl, trivial⟩
  · intro b mem
    obtain rfl := List.mem_singleton.1 mem
    simp only [Region.Inside, extent, oneBlock, kmallocSize, headerSize]
    omega
  · exact List.pairwise_singleton _ _

/-- The first request cuts it in two. -/
theorem oneBlock_not_conserved :
    ¬∀ (h : Heap) (l : List Nat) (size : Nat), FreeList h l → 0 < size → size ≤ kmallocLimit →
      (∃ b ∈ l, size ≤ (h.block b).size) →
      ∃ h' p l', h.kmalloc size = some (h', p) ∧ Conserves h l h' l' (p - headerSize) := by
  intro claim
  have size : (oneBlock.block kmallocBegin).size = kmallocSize - headerSize := rfl
  have room : alignedSize 16 + headerSize ≤ (oneBlock.block kmallocBegin).size := by
    rw [size]
    decide
  have list : FreeList oneBlock ([] ++ [kmallocBegin]) := oneBlock_list
  have found : [kmallocBegin].find? (fun b => alignedSize 16 ≤ (oneBlock.block b).size) =
      some kmallocBegin := List.find?_cons_of_pos (decide_eq_true (by omega))
  obtain ⟨h', p, l', ran, conserves⟩ := claim oneBlock [kmallocBegin] 16 oneBlock_list (by decide)
    (by decide) ⟨kmallocBegin, List.mem_singleton_self _, by rw [size]; decide⟩
  rw [kmalloc_found oneBlock_list (by decide) found, if_neg (by omega)] at ran
  exact split_oversized list room ran conserves.list

end Heap

end Illinix.Memory
