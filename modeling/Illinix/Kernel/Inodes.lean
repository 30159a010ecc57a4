/-
# Kernel.Inodes -- which inode create hands out

Regular files should have one inode each.  `write`, `open`, `close` and `delete`
keep that; `create` keeps it exactly when the inode `find_free_inode` gives is
not already in use.  Nothing makes it so: the search reads `data_block_bitmap`
and neither it nor `create` marks anything, so a second `create` finds the inode
of the first.  On a full directory `create` stores the new entry over inode 0;
such a create counts as a failure.

`inodes_exclusive_iff` is the exact condition, for every run.
-/
import Illinix.Kernel.FileCalls

namespace Illinix.Kernel

open Illinix.FileSys Illinix.Theory

set_option autoImplicit false

/-! ## Inodes in use -/

/-- Entry `i` of the directory is a regular file with inode `n`. -/
def Live (b : BootBlock) (i n : Nat) : Prop :=
  i < b.dentryCount ∧ (b.dentries i).fileType = 2 ∧ (b.dentries i).inodeNum = n

/-- No two live entries of regular files have one inode. -/
def DistinctInodes (b : BootBlock) : Prop := ∀ i j n, Live b i n → Live b j n → i = j

/-- A process has a regular file with inode `n` open. -/
def Held (m : Machine) (n : Nat) : Prop :=
  ∃ p, p < maxProcess ∧ ∃ fd, 2 ≤ fd ∧ fd < fileCount ∧ ((m.pcbs p).files fd).present = true ∧
    ((m.pcbs p).files fd).ops = .file ∧ ((m.pcbs p).files fd).inode = n

def Used (m : Machine) (n : Nat) : Prop := (∃ i, Live m.fs.bootBlock i n) ∨ Held m n

/-! ## What the calls do to the directory -/

theorem live_created {m : Machine} {curr fd inode i n : Nat} {s : CString}
    {reserved : Nat → UInt8} :
    Live (m.created curr fd inode s reserved).fs.bootBlock i n ↔
      Live m.fs.bootBlock i n ∨ i = m.fs.bootBlock.dentryCount ∧ n = inode := by
  simp only [Live, created_dentryCount, created_dentries, Function.update_apply]
  by_cases last : i = m.fs.bootBlock.dentryCount
  · subst last
    simp [eq_comm]
  · simp only [last, if_false, false_and, or_false, and_congr_left_iff]
    intro _
    omega

theorem live_removed {b : BootBlock} {index i n : Nat} (live : Live (Machine.removeDentry b index) i n)
    (inside : index < b.dentryCount) :
    Live b (if index ≤ i then i + 1 else i) n := by
  obtain ⟨low, type, inode⟩ := live
  simp only [Machine.removeDentry] at low type inode
  rw [if_neg (by omega)] at type inode
  split_ifs at type inode ⊢ <;> first | exact ⟨by omega, type, inode⟩ | omega

theorem distinct_removed {b : BootBlock} {index : Nat} (distinct : DistinctInodes b)
    (inside : index < b.dentryCount) : DistinctInodes (Machine.removeDentry b index) := by
  intro i j n here there
  have same := distinct _ _ n (live_removed here inside) (live_removed there inside)
  split_ifs at same <;> omega

theorem distinct_created {m : Machine} {curr fd inode : Nat} {s : CString} {reserved : Nat → UInt8}
    (distinct : DistinctInodes m.fs.bootBlock) (unused : ¬∃ i, Live m.fs.bootBlock i inode) :
    DistinctInodes (m.created curr fd inode s reserved).fs.bootBlock := by
  intro i j n here there
  rcases live_created.1 here with old | ⟨rfl, new⟩ <;> rcases live_created.1 there with old' | ⟨rfl, new'⟩
  · exact distinct i j n old old'
  · exact absurd ⟨i, new' ▸ old⟩ unused
  · exact absurd ⟨j, new ▸ old'⟩ unused
  · rfl

/-! ## The condition -/

/-- What a step should do: leave the inodes of regular files distinct and, if it
creates a file, take an inode that nothing uses and leave the size of every used
one. -/
structure TakesUnused (m : Machine) (e : FileEvent) (m' : Machine) : Prop where
  distinct : DistinctInodes m'.fs.bootBlock
  fresh : ∀ fileName reserved fd curr, e.call = .create fileName reserved →
    e.call.run (e.enter m) = some (m', fd) → fd ≠ -1 → (e.enter m).getCurrentPcb = some curr →
    ¬Used m ((m'.pcbs curr).files fd.toNat).inode
  sizes : ∀ fileName reserved n, e.call = .create fileName reserved → Used m n →
    (m'.fs.inodeBlocks n).fileSize = (m.fs.inodeBlocks n).fileSize

/-- If the event is a `create` that passes its checks, nothing uses the inode
`find_free_inode` gives, and the directory has a slot left. -/
def FindsUnused (m : Machine) (e : FileEvent) : Prop :=
  ∀ fileName reserved curr fd inode s, e.call = .create fileName reserved →
    Passes (e.enter m) fileName curr fd inode s →
    ¬Used m inode ∧ m.fs.bootBlock.dentryCount < dentrySlots

theorem takesUnused_iff {m m' : Machine} {e : FileEvent} (distinct : DistinctInodes m.fs.bootBlock)
    (step : fileStep m e = some m') : TakesUnused m e m' ↔ FindsUnused m e := by
  obtain ⟨v, ran⟩ := fileStep_some.1 step
  -- a call that creates nothing has nothing to take
  have other : DistinctInodes m'.fs.bootBlock → (∀ fileName reserved, e.call ≠ .create fileName reserved) →
      (TakesUnused m e m' ↔ FindsUnused m e) := fun distinct' create =>
    iff_of_true ⟨distinct', fun _ _ _ _ call => absurd call (create _ _),
      fun _ _ _ call => absurd call (create _ _)⟩ fun _ _ _ _ _ _ call => absurd call (create _ _)
  cases edits_of_ran ran with
  | kept boot create _ =>
      have distinct' : DistinctInodes m'.fs.bootBlock := by
        rw [boot]
        exact distinct
      by_cases creates : ∃ fileName reserved, e.call = .create fileName reserved
      · obtain ⟨fileName, reserved, call⟩ := creates
        obtain ⟨rfl, rfl, refused⟩ := create _ _ call
        refine iff_of_true ⟨distinct', ?_, fun _ _ _ _ _ => rfl⟩ ?_
        · intro _ _ fd _ _ again granted
          rw [ran] at again
          exact absurd (Prod.mk.inj (Option.some.inj again)).2.symm granted
        · intro fileName' reserved' curr fd inode s call' passes
          obtain ⟨rfl, rfl⟩ := FileCall.create.inj (call.symm.trans call')
          exact absurd (room_of_step step call passes) (refused _ _ _ _)
      · exact other distinct' fun fileName reserved call => creates ⟨fileName, reserved, call⟩
  | removed call found boot _ =>
      refine other ?_ fun _ _ call' => nomatch call.symm.trans call'
      rw [boot]
      exact distinct_removed distinct (readDentryByName_some found).1
  | @added s reserved curr fd inode call picks same value =>
      subst m' v
      constructor
      · intro takes fileName' reserved' curr' fd' inode' s' call' picks'
        obtain ⟨rfl, rfl⟩ := FileCall.create.inj (call.symm.trans call')
        obtain rfl : inode = inode' := Option.some.inj (picks.found.symm.trans picks'.found)
        have unused := takes.fresh (some s) reserved fd curr call ran (by omega) picks.current
        rw [Int.toNat_natCast, created_file] at unused
        exact ⟨unused, picks.room⟩
      · intro finds
        have unused : ¬Used m inode := (finds (some s) reserved curr fd inode s call picks.toPasses).1
        refine ⟨distinct_created distinct fun live => unused (Or.inl live), ?_, ?_⟩
        · intro _ _ fd' curr' _ again _ current
          rw [ran] at again
          obtain rfl := (Prod.mk.inj (Option.some.inj again)).2
          obtain rfl : curr = curr' := Option.some.inj (picks.current.symm.trans current)
          rwa [Int.toNat_natCast, created_file]
        · intro _ _ n _ used
          have apart : n ≠ inode := fun same => unused (same ▸ used)
          rw [created_inodeBlocks, Function.update_of_ne apart]
          rfl

/-- **Inode exclusivity, exactly.** From a directory whose regular files have
distinct inodes, every step of a run keeps them distinct and takes an unused
inode, and every `create` stores inside the directory, if and only if before
every `create` of the run that passes its checks nothing uses the inode
`find_free_inode` gives and the directory has a slot left. -/
theorem inodes_exclusive_iff (m : Machine) (distinct : DistinctInodes m.fs.bootBlock)
    (run : List FileEvent) :
    Every fileStep TakesUnused m run ∧ Meets fileStep StoresInside m run ↔
      Meets fileStep FindsUnused m run := by
  refine every_and_meets_iff (fun m => DistinctInodes m.fs.bootBlock) ?_ ?_ ?_ run m distinct
  · intro m e m' inv step
    rw [takesUnused_iff inv step]
    exact and_iff_left (storesInside_of_step step)
  · intro m e _ stuck
    constructor
    · intro stores fileName reserved curr fd inode s call passes
      obtain ⟨m', step⟩ := stores fileName reserved curr fd inode s call passes
      cases stuck.symm.trans step
    · intro finds fileName reserved curr fd inode s call passes
      exact (fileStep_of_passes call passes).2 (finds fileName reserved curr fd inode s call passes).2
  · intro m e m' inv guard step
    exact ((takesUnused_iff inv step).2 guard).distinct

/-! ## Two creates in a row -/

/-- A `create` by process 3. -/
def createBy3 (s : CString) : FileEvent := ⟨0x7F9F00, .create (some s) fun _ => 0⟩

def nameA : CString := ⟨[97], by decide⟩
def nameB : CString := ⟨[98], by decide⟩

theorem createBy3_step (m : Machine) (fd inode : Nat) (s : CString)
    (free : Machine.freeFd (m.pcbs 3) = some fd) (absent : readDentryByName m.fs (some s) = some none)
    (found : findFreeInode m.fs = some inode) (granted : inode ≠ 2 ^ 32 - 1)
    (room : m.fs.bootBlock.dentryCount < dentrySlots) :
    fileStep m (createBy3 s) =
      some (((createBy3 s).enter m).created 3 fd inode s fun _ => 0) := by
  have current : ((createBy3 s).enter m).getCurrentPcb = some 3 :=
    getCurrentPcb_of_onStack (show OnStack 3 0x7F9F00 by decide)
  exact fileStep_some.2
    ⟨_, create_of_picks _ ⟨⟨current, free, absent, found, granted, rfl⟩, room⟩⟩

/-- `create("a")`, then `create("b")`: both entries have inode 1. -/
theorem two_creates_share : ¬Every fileStep TakesUnused (Machine.mounted Fs.empty)
    [createBy3 nameA, createBy3 nameB] := by
  intro every
  have first := createBy3_step (Machine.mounted Fs.empty) 2 1 nameA
    (by decide) (by rfl) (by decide) (by decide) (by decide)
  have second := createBy3_step (((createBy3 nameA).enter (Machine.mounted Fs.empty)).created
    3 2 1 nameA fun _ => 0) 3 1 nameB
    (by decide) (by rfl) (by decide) (by decide) (by decide)
  have good := ((every _ first).2 _ second).1.distinct 0 1 1
  exact absurd (good ⟨by decide, rfl, rfl⟩ ⟨by decide, rfl, rfl⟩) (by decide)

/-- Process 3 has created a file and holds it as descriptor 2. -/
def oneFile : Machine :=
  ((createBy3 nameA).enter (Machine.mounted Fs.empty)).created 3 2 1 nameA fun _ => 0

/-- A write of `count` bytes to descriptor 2 by process 3. -/
def writeBy3 (count : Nat) : FileEvent := ⟨0x7F9F00, .write 2 (some fun _ => 120) count⟩

theorem inodes_exclusive_empty : Every fileStep TakesUnused (Machine.mounted Fs.empty)
    [createBy3 nameA] ∧ Meets fileStep StoresInside (Machine.mounted Fs.empty) [createBy3 nameA] := by
  refine (inodes_exclusive_iff (Machine.mounted Fs.empty) ?_ [createBy3 nameA]).2 ⟨?_, fun _ _ => trivial⟩
  · rintro i j n ⟨low, _⟩
    exact absurd low (Nat.not_lt_zero i)
  · intro _ _ curr fd inode s _ _
    refine ⟨?_, by decide⟩
    rintro (⟨i, low, _⟩ | ⟨p, _, fd, _, _, present, _⟩)
    · exact absurd low (Nat.not_lt_zero i)
    · exact absurd present Bool.false_ne_true

end Illinix.Kernel
