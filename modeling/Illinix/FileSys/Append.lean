/-
# FileSys.Append -- strings written one after the other

A program that creates a file writes its strings at the end of what it wrote
before.  `laidOut` is the slot list such a sequence of writes leaves, from the
lengths alone: a slot a write enters across a boundary holds the free block, and
so does an empty slot a crossing write starts in.

`appends_slots` says that every successful sequence leaves that list, and
`appends_of_placed` that when the list gives each piece of the file a block of
its own, the sequence succeeds and the content is the concatenation.
-/
import Illinix.FileSys.Read
import Mathlib.Data.List.GetD

namespace Illinix.FileSys

open Illinix.Theory

set_option autoImplicit false

/-- The buffer of a byte string. -/
def stringBytes (s : List UInt8) (i : Nat) : UInt8 := s.getD i 0

/-- The strings, written to the inode from `offset` on; each write returns the
length of its string. -/
def Appends (inode : Nat) : Nat → List (List UInt8) → Fs → Fs → Prop
  | _, [], fs, fs' => fs' = fs
  | offset, s :: rest, fs, fs' => ∃ fs₁,
      writeData fs inode offset (some (stringBytes s)) s.length = some (fs₁, (s.length : Int)) ∧
        Appends inode (offset + s.length) rest fs₁ fs'

/-- The slots after writes of these lengths, from `offset` on. -/
def laidOut (free : Nat) : (Nat → Nat) → Nat → List Nat → Nat → Nat
  | slots, _, [] => slots
  | slots, offset, len :: lens =>
      laidOut free (slotsAfter slots offset len free) (offset + len) lens

/-- Where a write crosses a boundary, `find_free_datablock` returns and the last
slot entered is in `data_blocks`. -/
def CrossingsFit (found : Option Nat) : Nat → List Nat → Prop
  | _, [] => True
  | offset, len :: lens =>
      (¬Within offset len → found.isSome = true ∧ (offset + len) / fsBlockSize < blockSlots) ∧
        CrossingsFit found (offset + len) lens

/-- Each piece of the first `total` bytes has a block in range, and no two have
the same. -/
structure OwnBlocks (count total : Nat) (slots : Nat → Nat) : Prop where
  inRange : ∀ k, fsBlockSize * k < total → slots k < count
  apart : ∀ k k', fsBlockSize * k < total → fsBlockSize * k' < total → slots k = slots k' → k = k'

/-! ## Slots below the end are final -/

theorem slotsAfter_below {slots : Nat → Nat} {offset len free k : Nat}
    (below : fsBlockSize * k < offset)
    (kept : ¬Within offset len → slots (offset / fsBlockSize) ≠ 0) :
    slotsAfter slots offset len free k = slots k := by
  refine if_neg ?_
  rintro ⟨across, ⟨low, _⟩ | ⟨_, empty⟩⟩
  · simp only [fsBlockSize] at below low
    omega
  · exact kept across empty

/-! ## A write over the end of its first piece -/

section

variable {slots : Nat → Nat} {count offset len free total k : Nat}

/-- It reaches into the next piece. -/
theorem crossing_next (across : ¬Within offset len) :
    fsBlockSize * (offset / fsBlockSize + 1) < offset + len := by
  simp only [Within, fsBlockSize] at across ⊢
  omega

theorem crossing_start (across : ¬Within offset len) (below : k ≤ offset / fsBlockSize) :
    fsBlockSize * k < offset + len :=
  (Nat.mul_le_mul_left _ (by omega)).trans_lt (crossing_next across)

theorem slotsAfter_kept (kept : slots (offset / fsBlockSize) ≠ 0) (below : k ≤ offset / fsBlockSize) :
    slotsAfter slots offset len free k = slots k := by
  refine if_neg ?_
  rintro ⟨_, ⟨high, _⟩ | ⟨_, empty⟩⟩
  · omega
  · exact kept empty

theorem slotsAfter_next (across : ¬Within offset len) (above : offset / fsBlockSize < k)
    (below : fsBlockSize * k < offset + len) : slotsAfter slots offset len free k = free := by
  refine if_pos ⟨across, Or.inl ⟨above, ?_⟩⟩
  simp only [fsBlockSize] at below ⊢
  omega

/-- A crossing write that starts in an empty slot puts one block in two slots. -/
theorem crossing_from_allocated
    (own : OwnBlocks count total (slotsAfter slots offset len free)) (inside : offset + len ≤ total)
    (across : ¬Within offset len) : slots (offset / fsBlockSize) ≠ 0 := by
  intro empty
  have piece := crossing_next across
  have first : slotsAfter slots offset len free (offset / fsBlockSize) = free :=
    if_pos ⟨across, Or.inr ⟨rfl, empty⟩⟩
  have second : slotsAfter slots offset len free (offset / fsBlockSize + 1) = free :=
    slotsAfter_next across (Nat.lt_succ_self _) piece
  have start := crossing_start across (le_refl _)
  have same := own.apart _ _ (by omega) (by omega) (first.trans second.symm)
  omega

/-- The block it adds was in no slot up to its first piece. -/
theorem crossing_notFree (own : OwnBlocks count (offset + len) (slotsAfter slots offset len free))
    (across : ¬Within offset len) (below : k ≤ offset / fsBlockSize) : slots k ≠ free := by
  intro shared
  have next := crossing_next across
  have kept := crossing_from_allocated own (le_refl _) across
  have added : slotsAfter slots offset len free (offset / fsBlockSize + 1) = free :=
    slotsAfter_next across (Nat.lt_succ_self _) next
  have same := own.apart k _ (crossing_start across below) next
    ((slotsAfter_kept kept below).trans (shared.trans added.symm))
  omega

/-- It ends in the next piece: two more would get one block. -/
theorem crossing_two (own : OwnBlocks count (offset + len) (slotsAfter slots offset len free))
    (across : ¬Within offset len) : offset + len ≤ fsBlockSize * (offset / fsBlockSize + 2) := by
  by_contra more
  have next := crossing_next across
  have third : fsBlockSize * (offset / fsBlockSize + 2) < offset + len := by omega
  have same := own.apart _ _ next third
    ((slotsAfter_next across (Nat.lt_succ_self _) next).trans
      (slotsAfter_next across (by omega) third).symm)
  omega

end

theorem OwnBlocks.mono {count total total' : Nat} {slots : Nat → Nat}
    (own : OwnBlocks count total slots) (less : total' ≤ total) : OwnBlocks count total' slots :=
  ⟨fun k below => own.inRange k (by omega),
    fun k k' below below' => own.apart k k' (by omega) (by omega)⟩

theorem OwnBlocks.congr {count total : Nat} {slots slots' : Nat → Nat}
    (own : OwnBlocks count total slots) (same : ∀ k, fsBlockSize * k < total → slots' k = slots k) :
    OwnBlocks count total slots' := by
  refine ⟨fun k below => ?_, fun k k' below below' shared => ?_⟩
  · rw [same k below]
    exact own.inRange k below
  · rw [same k below, same k' below'] at shared
    exact own.apart k k' below below' shared

/-- When the final list gives each piece its own block, no later write moves a
slot below the end. -/
theorem laidOut_below {free count : Nat} (lens : List Nat) : ∀ {slots : Nat → Nat} {offset : Nat},
    OwnBlocks count (offset + lens.sum) (laidOut free slots offset lens) →
    ∀ k, fsBlockSize * k < offset → laidOut free slots offset lens k = slots k := by
  induction lens with
  | nil => intro slots offset _ k _; rfl
  | cons len lens ih =>
      intro slots offset own k below
      rw [List.sum_cons, ← Nat.add_assoc] at own
      have later := ih own
      have own' : OwnBlocks count (offset + len) (slotsAfter slots offset len free) :=
        (own.mono (Nat.le_add_right _ _)).congr fun k below => (later k below).symm
      rw [laidOut, later k (by omega)]
      exact slotsAfter_below below (crossing_from_allocated own' (le_refl _))

/-! ## One write at the end -/

/-- A copy after the first block that stays in one block. -/
theorem refilled_one {offset len : Nat} {src data : Nat → UInt8}
    (one : len - (fsBlockSize - offset % fsBlockSize) ≤ fsBlockSize) :
    refilled src offset len data =
      blit data 0 (fun i => src (fsBlockSize - offset % fsBlockSize + i))
        (len - (fsBlockSize - offset % fsBlockSize)) := by
  rcases Nat.eq_or_lt_of_le one with full | part
  · simp only [refilled, full, Nat.mod_self, Nat.div_self (show 0 < fsBlockSize by decide), refill,
      blit_zero]
  · simp only [refilled, Nat.mod_eq_of_lt part, Nat.div_eq_of_lt part, refill]

/-- The blocks of a file after a write at its end, piece by piece. -/
structure PiecesAfter (fs fs' : Fs) (inode offset : Nat) (src : Nat → UInt8) (len : Nat) : Prop where
  before : ∀ k, k < offset / fsBlockSize →
    fs'.dataBlocks ((fs'.inodeBlocks inode).dataBlocks k) =
      fs.dataBlocks ((fs.inodeBlocks inode).dataBlocks k)
  first : fs'.dataBlocks ((fs'.inodeBlocks inode).dataBlocks (offset / fsBlockSize)) =
    blit (fs.dataBlocks ((fs.inodeBlocks inode).dataBlocks (offset / fsBlockSize)))
      (offset % fsBlockSize) src (min len (fsBlockSize - offset % fsBlockSize))
  second : ¬Within offset len → ∃ data,
    fs'.dataBlocks ((fs'.inodeBlocks inode).dataBlocks (offset / fsBlockSize + 1)) =
      blit data 0 (fun i => src (fsBlockSize - offset % fsBlockSize + i))
        (len - (fsBlockSize - offset % fsBlockSize))
  last : offset + len ≤ fsBlockSize * (offset / fsBlockSize + 2)

theorem content_before {fs fs' : Fs} {inode offset len : Nat} {src : Nat → UInt8}
    (pieces : PiecesAfter fs fs' inode offset src len) {p : Nat} (below : p < offset) :
    fs'.content inode p = fs.content inode p := by
  have piece : p / fsBlockSize ≤ offset / fsBlockSize := Nat.div_le_div_right (Nat.le_of_lt below)
  rcases Nat.eq_or_lt_of_le piece with same | before
  · have outside : ¬(offset % fsBlockSize ≤ p % fsBlockSize ∧ p % fsBlockSize <
        offset % fsBlockSize + min len (fsBlockSize - offset % fsBlockSize)) := by
      simp only [fsBlockSize] at same ⊢
      omega
    rw [Fs.content, Fs.content, same, pieces.first, blit_outside _ _ outside]
  · rw [Fs.content, Fs.content, pieces.before _ before]

theorem content_written {fs fs' : Fs} {inode offset len : Nat} {src : Nat → UInt8}
    (pieces : PiecesAfter fs fs' inode offset src len) {i : Nat} (below : i < len) :
    fs'.content inode (offset + i) = src i := by
  have last := pieces.last
  by_cases here : offset % fsBlockSize + i < fsBlockSize
  · have piece : (offset + i) / fsBlockSize = offset / fsBlockSize := by
      simp only [fsBlockSize] at here ⊢
      omega
    have within : (offset + i) % fsBlockSize = offset % fsBlockSize + i := by
      simp only [fsBlockSize] at here ⊢
      omega
    rw [Fs.content, piece, within, pieces.first,
      blit_inside _ _ (Nat.le_add_right _ _) (by omega), Nat.add_sub_cancel_left]
  · have across : ¬Within offset len := by
      simp only [Within]
      omega
    obtain ⟨data, second⟩ := pieces.second across
    have piece : (offset + i) / fsBlockSize = offset / fsBlockSize + 1 := by
      simp only [fsBlockSize] at here last ⊢
      omega
    have within : (offset + i) % fsBlockSize = i - (fsBlockSize - offset % fsBlockSize) := by
      simp only [fsBlockSize] at here last ⊢
      omega
    rw [Fs.content, piece, within, second, blit_inside _ _ (Nat.zero_le _) (by omega)]
    congr 1
    omega

theorem piecesAfter_within {fs : Fs} {inode offset len : Nat} {src : Nat → UInt8}
    (some' : 0 < len) (within : Within offset len)
    (own : OwnBlocks fs.bootBlock.dataBlockCount (offset + len) (fs.inodeBlocks inode).dataBlocks) :
    PiecesAfter fs ((fs.resized inode offset len).setBlock
      ((fs.inodeBlocks inode).dataBlocks (offset / fsBlockSize))
      (blit (fs.dataBlocks ((fs.inodeBlocks inode).dataBlocks (offset / fsBlockSize)))
        (offset % fsBlockSize) src len)).flush inode offset src len := by
  have start : fsBlockSize * (offset / fsBlockSize) < offset + len := by
    simp only [fsBlockSize]
    omega
  constructor
  · intro k before
    have apart : (fs.inodeBlocks inode).dataBlocks k ≠
        (fs.inodeBlocks inode).dataBlocks (offset / fsBlockSize) := by
      intro shared
      have below : fsBlockSize * k < offset + len := by
        simp only [fsBlockSize] at before start ⊢
        omega
      have same := own.apart _ _ below start shared
      omega
    simp [Function.update_of_ne apart]
  · have fits : min len (fsBlockSize - offset % fsBlockSize) = len := by
      simp only [Within] at within
      omega
    simp [fits]
  · exact fun across => absurd within across
  · simp only [Within, fsBlockSize] at within ⊢
    omega

theorem piecesAfter_across {fs : Fs} {inode offset len free : Nat} {src : Nat → UInt8}
    (across : ¬Within offset len)
    (own : OwnBlocks fs.bootBlock.dataBlockCount (offset + len)
      (slotsAfter (fs.inodeBlocks inode).dataBlocks offset len free)) :
    let first := firstBlock (fs.inodeBlocks inode).dataBlocks offset len free
    let fs₁ := ((fs.resized inode offset len).setSlots inode
      (slotsAfter (fs.inodeBlocks inode).dataBlocks offset len free)).setBlock first
        (blit (fs.dataBlocks first) (offset % fsBlockSize) src
          (fsBlockSize - offset % fsBlockSize))
    PiecesAfter fs (fs₁.setBlock free (refilled src offset len (fs₁.dataBlocks free))).flush
      inode offset src len := by
  intro first fs₁
  have kept := crossing_from_allocated own (le_refl _) across
  have next := crossing_next across
  have notFree : ∀ k, k ≤ offset / fsBlockSize → (fs.inodeBlocks inode).dataBlocks k ≠ free :=
    fun _ below => crossing_notFree own across below
  have firstIs : first = (fs.inodeBlocks inode).dataBlocks (offset / fsBlockSize) := by
    simp only [first, firstBlock, kept, and_false, if_false]
  constructor
  · intro k before
    have low : slotsAfter _ offset len free k = _ := slotsAfter_kept kept (Nat.le_of_lt before)
    have apart : (fs.inodeBlocks inode).dataBlocks k ≠ first := by
      rw [firstIs]
      intro shared
      have same := own.apart k _ (crossing_start across (Nat.le_of_lt before))
        (crossing_start across (le_refl _))
        (low.trans (shared.trans (slotsAfter_kept kept (le_refl _)).symm))
      omega
    simp [fs₁, low, Function.update_of_ne (notFree k (Nat.le_of_lt before)),
      Function.update_of_ne apart]
  · have fits : min len (fsBlockSize - offset % fsBlockSize) =
        fsBlockSize - offset % fsBlockSize := by
      simp only [Within] at across
      omega
    simp [fs₁, slotsAfter_kept kept (le_refl _), Function.update_of_ne (notFree _ (le_refl _)),
      firstIs, fits]
  · intro _
    have tail : len - (fsBlockSize - offset % fsBlockSize) ≤ fsBlockSize := by
      have one := crossing_two own across
      simp only [fsBlockSize] at one ⊢
      omega
    refine ⟨fs.dataBlocks free, ?_⟩
    have apart : free ≠ first := by
      rw [firstIs]
      exact Ne.symm (notFree _ (le_refl _))
    simp [fs₁, slotsAfter_next across (Nat.lt_succ_self _) next, refilled_one tail,
      Function.update_of_ne apart]
  · exact crossing_two own across

/-- The file after a write at its end. -/
structure Appended (fs fs' : Fs) (inode offset : Nat) (s : List UInt8) : Prop where
  bootBlock : fs'.bootBlock = fs.bootBlock
  found : findFreeDatablock fs' = findFreeDatablock fs
  size : (fs'.inodeBlocks inode).fileSize = offset + s.length
  slots : (fs'.inodeBlocks inode).dataBlocks =
    slotsAfter (fs.inodeBlocks inode).dataBlocks offset s.length ((findFreeDatablock fs).getD 0)

theorem slotsAfter_free {slots : Nat → Nat} {offset len free free' : Nat}
    (same : ¬Within offset len → free = free') :
    slotsAfter slots offset len free = slotsAfter slots offset len free' := by
  by_cases within : Within offset len
  · rw [slotsAfter_within within, slotsAfter_within within]
  · rw [same within]

/-- What a write at the end of the file that returned its length has done. -/
theorem appended_of_writeData {fs fs' : Fs} {inode offset : Nat} {s : List UInt8}
    (size : (fs.inodeBlocks inode).fileSize = offset) (some' : 0 < s.length)
    (ran : writeData fs inode offset (some (stringBytes s)) s.length =
      some (fs', (s.length : Int))) :
    Appended fs fs' inode offset s ∧ (¬Within offset s.length →
      (findFreeDatablock fs).isSome = true ∧ (offset + s.length) / fsBlockSize < blockSlots) := by
  rcases writeData_some ran with ⟨_, failed, _⟩ | ⟨free, _, _, _, found, wrote, _⟩
  · omega
  · refine ⟨⟨wrote.bootBlock, ?_, ?_, ?_⟩, fun across => ⟨by rw [found across]; rfl,
      wrote.entered across⟩⟩
    · simp only [findFreeDatablock, wrote.bootBlock, wrote.bitmap]
    · rw [wrote.size, size]
      omega
    · rw [wrote.slots]
      refine slotsAfter_free fun across => ?_
      rw [found across]
      rfl

/-- **One write at the end of a file** whose pieces have blocks of their own
succeeds, leaves the bytes before it and puts the string after them. -/
theorem append_one {fs : Fs} {inode offset : Nat} {s : List UInt8}
    (valid : inode < fs.bootBlock.inodeCount) (size : (fs.inodeBlocks inode).fileSize = offset)
    (some' : 0 < s.length) (short : offset + s.length ≤ fsBlockSize * blockSlots)
    (crossing : ¬Within offset s.length →
      (findFreeDatablock fs).isSome = true ∧ (offset + s.length) / fsBlockSize < blockSlots)
    (own : OwnBlocks fs.bootBlock.dataBlockCount (offset + s.length)
      (slotsAfter (fs.inodeBlocks inode).dataBlocks offset s.length
        ((findFreeDatablock fs).getD 0))) :
    ∃ fs', writeData fs inode offset (some (stringBytes s)) s.length =
        some (fs', (s.length : Int)) ∧
      PiecesAfter fs fs' inode offset (stringBytes s) s.length := by
  have accepted : ¬(s.length = 0 ∨ fs.bootBlock.inodeCount ≤ inode) := by omega
  have atEnd : ¬(fs.inodeBlocks inode).fileSize < offset := by omega
  have positive : i32 s.length = (s.length : Int) := by
    refine i32_of_lt (Nat.lt_of_le_of_lt (Nat.le_add_left _ offset) ?_)
    exact Nat.lt_of_le_of_lt short (by decide)
  have start : fsBlockSize * (offset / fsBlockSize) < offset + s.length := by
    simp only [fsBlockSize]
    omega
  by_cases within : Within offset s.length
  · rw [slotsAfter_within within] at own
    have low : offset / fsBlockSize < blockSlots := by
      simp only [fsBlockSize, blockSlots] at start short ⊢
      omega
    have span : writeSpan (fs.resized inode offset s.length) inode offset (stringBytes s) s.length =
        some (_, true) := (writeSpan_within some' within).2
      ⟨low, by simpa using own.inRange _ start, rfl, rfl⟩
    refine ⟨_, ?_, piecesAfter_within some' within own⟩
    simp only [writeData, accepted, atEnd, if_false, span, Option.bind_eq_bind, Option.bind_some,
      if_true, positive, resized_slots, resized_dataBlocks]
  · obtain ⟨found, last⟩ := crossing within
    obtain ⟨free, found⟩ := Option.isSome_iff_exists.1 found
    rw [found, Option.getD_some] at own
    have next : fsBlockSize * (offset / fsBlockSize + 1) < offset + s.length := by
      simp only [Within, fsBlockSize] at within ⊢
      omega
    have entered : slotsAfter (fs.inodeBlocks inode).dataBlocks offset s.length free
        (offset / fsBlockSize + 1) = free := by
      refine if_pos ⟨within, Or.inl ⟨Nat.lt_succ_self _, ?_⟩⟩
      simp only [fsBlockSize] at next ⊢
      omega
    have kept := crossing_from_allocated own (le_refl _) within
    have first : slotsAfter (fs.inodeBlocks inode).dataBlocks offset s.length free
        (offset / fsBlockSize) =
        firstBlock (fs.inodeBlocks inode).dataBlocks offset s.length free := by
      simp [slotsAfter, firstBlock, kept]
    have span : writeSpan (fs.resized inode offset s.length) inode offset (stringBytes s) s.length =
        some (_, true) := (writeSpan_across within).2
      ⟨free, by simpa using found, by simpa [entered] using own.inRange _ next, last,
        by simpa [first] using own.inRange _ start, rfl, rfl⟩
    refine ⟨_, ?_, piecesAfter_across within own⟩
    simp only [writeData, accepted, atEnd, if_false, span, Option.bind_eq_bind, Option.bind_some,
      if_true, positive, resized_slots, resized_dataBlocks]

/-! ## A sequence of writes -/

/-- The slot list of the writes gives each piece of the file a block of its own,
and every crossing finds a block and a slot. -/
structure Placed (fs : Fs) (inode offset : Nat) (lens : List Nat) : Prop where
  crossings : CrossingsFit (findFreeDatablock fs) offset lens
  own : OwnBlocks fs.bootBlock.dataBlockCount (offset + lens.sum)
    (laidOut ((findFreeDatablock fs).getD 0) (fs.inodeBlocks inode).dataBlocks offset lens)

/-- What a sequence of writes from `offset` on leaves of the file before it. -/
structure Sequenced (fs fs' : Fs) (inode offset : Nat) (strings : List (List UInt8)) : Prop where
  bootBlock : fs'.bootBlock = fs.bootBlock
  size : (fs'.inodeBlocks inode).fileSize = offset + (strings.map List.length).sum
  slots : (fs'.inodeBlocks inode).dataBlocks =
    laidOut ((findFreeDatablock fs).getD 0) (fs.inodeBlocks inode).dataBlocks offset
      (strings.map List.length)

/-- **Every successful sequence** leaves the slot list of its lengths. -/
theorem appends_slots {inode : Nat} (strings : List (List UInt8)) : ∀ {offset : Nat} {fs fs' : Fs},
    (fs.inodeBlocks inode).fileSize = offset → (∀ s ∈ strings, 0 < s.length) →
    Appends inode offset strings fs fs' →
    Sequenced fs fs' inode offset strings ∧
      CrossingsFit (findFreeDatablock fs) offset (strings.map List.length) := by
  induction strings with
  | nil =>
      rintro offset fs fs' size _ rfl
      exact ⟨⟨rfl, size, rfl⟩, trivial⟩
  | cons s rest ih =>
      rintro offset fs fs' size nonempty ⟨fs₁, ran, later⟩
      obtain ⟨one, crossing⟩ := appended_of_writeData size (nonempty s (by simp)) ran
      obtain ⟨seq, crossings⟩ := ih one.size (fun t mem => nonempty t (by simp [mem])) later
      refine ⟨⟨seq.bootBlock.trans one.bootBlock, ?_, ?_⟩, crossing, one.found ▸ crossings⟩
      · rw [seq.size, List.map_cons, List.sum_cons, Nat.add_assoc]
      · rw [seq.slots, one.slots, one.found]
        rfl

theorem stringBytes_append (s t : List UInt8) (i : Nat) :
    stringBytes (s ++ t) i =
      if i < s.length then stringBytes s i else stringBytes t (i - s.length) := by
  split_ifs with front
  · exact List.getD_append _ _ _ _ front
  · exact List.getD_append_right _ _ _ _ (Nat.le_of_not_lt front)

/-- **A placed sequence** succeeds; the bytes before it stay, and after them comes
the concatenation of its strings. -/
theorem appends_of_placed {inode : Nat} (strings : List (List UInt8)) : ∀ {offset : Nat} {fs : Fs},
    inode < fs.bootBlock.inodeCount → (fs.inodeBlocks inode).fileSize = offset →
    (∀ s ∈ strings, 0 < s.length) →
    offset + (strings.map List.length).sum ≤ fsBlockSize * blockSlots →
    Placed fs inode offset (strings.map List.length) →
    ∃ fs', Appends inode offset strings fs fs' ∧
      (∀ p, p < offset → fs'.content inode p = fs.content inode p) ∧
      ∀ p, p < (strings.map List.length).sum →
        fs'.content inode (offset + p) = stringBytes strings.flatten p := by
  induction strings with
  | nil =>
      intro offset fs _ _ _ _ _
      exact ⟨fs, rfl, fun _ _ => rfl, fun p below => absurd below (Nat.not_lt_zero p)⟩
  | cons s rest ih =>
      intro offset fs valid size nonempty short placed
      obtain ⟨⟨crossing, crossings⟩, own⟩ := placed
      rw [List.map_cons, List.sum_cons, ← Nat.add_assoc] at own short
      have own₁ : OwnBlocks fs.bootBlock.dataBlockCount (offset + s.length)
          (slotsAfter (fs.inodeBlocks inode).dataBlocks offset s.length
            ((findFreeDatablock fs).getD 0)) :=
        (own.mono (Nat.le_add_right _ _)).congr fun k below => (laidOut_below _ own k below).symm
      have some' := nonempty s (by simp)
      obtain ⟨fs₁, ran, pieces⟩ := append_one valid size some' (by omega) crossing own₁
      obtain ⟨one, _⟩ := appended_of_writeData size some' ran
      have placed₁ : Placed fs₁ inode (offset + s.length) (rest.map List.length) := by
        refine ⟨one.found ▸ crossings, ?_⟩
        rw [one.bootBlock, one.found, one.slots]
        exact own
      obtain ⟨fs', later, before, after⟩ := ih (by rw [one.bootBlock]; exact valid) one.size
        (fun t mem => nonempty t (by simp [mem])) short placed₁
      refine ⟨fs', ⟨fs₁, ran, later⟩, fun p below => ?_, fun p below => ?_⟩
      · rw [before p (by omega), content_before pieces below]
      · rw [List.flatten_cons, stringBytes_append]
        rw [List.map_cons, List.sum_cons] at below
        split_ifs with front
        · rw [before _ (by omega), content_written pieces front]
        · have shift : offset + p = offset + s.length + (p - s.length) := by omega
          rw [shift, after _ (by omega)]

/-! ## A fresh inode -/

theorem within_of_le {offset len : Nat} (short : offset + len ≤ fsBlockSize) :
    Within offset len := by
  have below := Nat.mod_le offset fsBlockSize
  simp only [Within]
  omega

theorem laidOut_within {free : Nat} (lens : List Nat) : ∀ {slots : Nat → Nat} {offset : Nat},
    offset + lens.sum ≤ fsBlockSize → laidOut free slots offset lens = slots := by
  induction lens with
  | nil => intro slots offset _; rfl
  | cons len lens ih =>
      intro slots offset short
      rw [List.sum_cons] at short
      rw [laidOut, slotsAfter_within (within_of_le (by omega)), ih (by omega)]

theorem crossingsFit_within {found : Option Nat} (lens : List Nat) : ∀ {offset : Nat},
    offset + lens.sum ≤ fsBlockSize → CrossingsFit found offset lens := by
  induction lens with
  | nil => intro offset _; trivial
  | cons len lens ih =>
      intro offset short
      rw [List.sum_cons] at short
      exact ⟨fun across => absurd (within_of_le (by omega)) across, ih (by omega)⟩

/-- With no slot allocated, pieces of their own end with the first block. -/
theorem one_block_of_own {free count : Nat} {slots : Nat → Nat}
    (fresh : ∀ k, k < blockSlots → slots k = 0) (lens : List Nat) : ∀ {offset : Nat},
    offset ≤ fsBlockSize → (∀ len ∈ lens, 0 < len) →
    offset + lens.sum ≤ fsBlockSize * blockSlots →
    OwnBlocks count (offset + lens.sum) (laidOut free slots offset lens) →
    offset + lens.sum ≤ fsBlockSize := by
  induction lens with
  | nil => intro offset short _ _ _; simpa using short
  | cons len lens ih =>
      intro offset short positive total own
      have some' := positive len (by simp)
      rw [List.sum_cons, ← Nat.add_assoc] at own total ⊢
      have own₁ : OwnBlocks count (offset + len) (slotsAfter slots offset len free) :=
        (own.mono (Nat.le_add_right _ _)).congr fun k below => (laidOut_below _ own k below).symm
      have low : offset / fsBlockSize < blockSlots := by
        simp only [fsBlockSize, blockSlots] at total ⊢
        omega
      by_cases within : Within offset len
      · rw [laidOut, slotsAfter_within within] at own
        rw [slotsAfter_within within] at own₁
        refine ih ?_ (fun l mem => positive l (by simp [mem])) total own
        -- past the first block, pieces 0 and 1 would both be block 0
        by_contra past
        have same := own₁.apart 0 1 (by omega) (by omega)
          ((fresh 0 (by decide)).trans (fresh 1 (by decide)).symm)
        omega
      · exact absurd (fresh _ low) (crossing_from_allocated own₁ (le_refl _) within)

/-- **On a fresh inode** the writes are placed exactly when the file fits in one
block. -/
theorem placed_fresh {fs : Fs} {inode : Nat} {lens : List Nat}
    (fresh : ∀ k, k < blockSlots → (fs.inodeBlocks inode).dataBlocks k = 0)
    (positive : ∀ len ∈ lens, 0 < len) (total : lens.sum ≤ fsBlockSize * blockSlots)
    (block : 0 < fs.bootBlock.dataBlockCount) :
    Placed fs inode 0 lens ↔ lens.sum ≤ fsBlockSize := by
  constructor
  · intro placed
    simpa using one_block_of_own fresh lens (Nat.zero_le _) positive (by omega) placed.own
  · intro short
    refine ⟨crossingsFit_within lens (by omega), ?_⟩
    rw [laidOut_within lens (by omega)]
    have first : ∀ k, fsBlockSize * k < 0 + lens.sum → k = 0 := by
      simp only [fsBlockSize] at short ⊢
      omega
    refine ⟨fun k below => ?_, fun k k' below below' _ => ?_⟩
    · rw [first k below, fresh 0 (by decide)]
      exact block
    · rw [first k below, first k' below']

end Illinix.FileSys
