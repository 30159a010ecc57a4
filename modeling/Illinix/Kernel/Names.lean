/-
# Kernel.Names -- the names in the directory

`create` looks a name up before it makes an entry, so names should stay distinct
and a new file should be found by its name.  But it cuts the name at 32 bytes
when it stores it, and `read_dentry_by_name` accepts no string of more than 32:
a longer name is never found, and each `create` of it adds an entry with the same
stored name.  And it does not ask whether the directory is full: the entry it
then stores is outside, where no search looks; such a create counts as a failure.

`names_kept_iff` says that this is all that goes wrong, for every run.
-/
import Illinix.Kernel.Removal
import Illinix.Kernel.RoundTrip

namespace Illinix.Kernel

open Illinix.FileSys Illinix.Theory

set_option autoImplicit false

/-! ## One step -/

/-- What a step should do: leave the names distinct and, if it creates a file,
let the name resolve to the entry and the inode just made. -/
structure KeepsNames (m : Machine) (e : FileEvent) (m' : Machine) : Prop where
  distinct : DistinctNames m'.fs.bootBlock
  resolves : ∀ s reserved fd curr, e.call = .create (some s) reserved →
    e.call.run (e.enter m) = some (m', fd) → fd ≠ -1 → (e.enter m).getCurrentPcb = some curr →
    ∃ den, readDentryByName m'.fs (some s) = some (some (m.fs.bootBlock.dentryCount, den)) ∧
      den = m'.fs.bootBlock.dentries m.fs.bootBlock.dentryCount ∧
      den.inodeNum = ((m'.pcbs curr).files fd.toNat).inode

/-- If the event is a `create` that passes its checks, the name has at most 32
bytes and the directory has a slot left. -/
def ShortName (m : Machine) (e : FileEvent) : Prop :=
  ∀ s reserved curr fd inode, e.call = .create (some s) reserved →
    Passes (e.enter m) (some s) curr fd inode s →
    s.bytes.length ≤ fsMaxLen ∧ m.fs.bootBlock.dentryCount < dentrySlots

theorem names_removed {b : BootBlock} {index : Nat} (distinct : DistinctNames b)
    (inside : index < b.dentryCount) : DistinctNames (Machine.removeDentry b index) := by
  simp only [DistinctNames]
  rw [entries_removed inside]
  exact distinct.eraseIdx index

/-- A new entry keeps the names distinct if its stored name was not there. -/
theorem names_created {m : Machine} {curr fd inode : Nat} {s : CString} {reserved : Nat → UInt8}
    (distinct : DistinctNames m.fs.bootBlock) (picks : Picks m (some s) curr fd inode s)
    (short : s.bytes.length ≤ fsMaxLen) :
    DistinctNames (m.created curr fd inode s reserved).fs.bootBlock := by
  simp only [DistinctNames]
  rw [entries_created, distinct_concat]
  refine ⟨distinct, ?_⟩
  rw [dentryName_name s short]
  exact (readDentryByName_lookup picks.absent).symm

/-- A name of more than 32 bytes is not found, whatever the directory. -/
theorem long_unresolved {fs : Fs} {s : CString} (long : fsMaxLen < s.bytes.length)
    {index : Nat} {den : Dentry} : readDentryByName fs (some s) ≠ some (some (index, den)) := by
  intro found
  have name := (readDentryByName_entry found).2
  have bound := den.name_length_le
  rw [name] at bound
  omega

/-! ## Runs -/

theorem keepsNames_iff {m m' : Machine} {e : FileEvent} (distinct : DistinctNames m.fs.bootBlock)
    (step : fileStep m e = some m') : KeepsNames m e m' ↔ ShortName m e := by
  obtain ⟨v, ran⟩ := fileStep_some.1 step
  cases edits_of_ran ran with
  | kept boot create _ =>
      refine iff_of_true ⟨?_, ?_⟩ ?_
      · rw [boot]
        exact distinct
      · intro s reserved fd curr call again granted
        rw [ran] at again
        cases again
        exact absurd (create _ _ call).2.1 granted
      · intro s reserved curr fd inode call passes
        exact absurd (room_of_step step call passes) ((create _ _ call).2.2 _ _ _ _)
  | removed call found boot _ =>
      refine iff_of_true ⟨?_, ?_⟩ ?_
      · rw [boot]
        exact names_removed distinct (readDentryByName_some found).1
      · intro _ _ _ _ call'
        exact nomatch call.symm.trans call'
      · intro _ _ _ _ _ call'
        exact nomatch call.symm.trans call'
  | @added s reserved curr fd inode call picks same value =>
      subst m' v
      constructor
      · intro keeps s' reserved' _ _ _ call' _
        obtain ⟨same, rfl⟩ := FileCall.create.inj (call.symm.trans call')
        cases same
        refine ⟨?_, picks.room⟩
        by_contra long
        obtain ⟨den, found, _⟩ := keeps.resolves s reserved fd curr call ran (by omega) picks.current
        exact long_unresolved (by omega) found
      · intro short
        have fits := (short s reserved curr fd inode call picks.toPasses).1
        refine ⟨names_created distinct picks fits, ?_⟩
        intro s' reserved' fd' curr' call' again _ current
        obtain ⟨same, rfl⟩ := FileCall.create.inj (call.symm.trans call')
        cases same
        rw [ran] at again
        obtain rfl := (Prod.mk.inj (Option.some.inj again)).2
        obtain rfl : curr = curr' := Option.some.inj (picks.current.symm.trans current)
        refine ⟨_, found_created (m := e.enter m) picks fits rfl, ?_, ?_⟩
        · rw [created_dentries, e.enter_fs, Function.update_self]
        · rw [Int.toNat_natCast, created_file]

/-- **Directory names, exactly.** From a directory with distinct names, every
step of a run keeps the names distinct and makes the name of a created file
resolve to it, and every `create` stores inside the directory, if and only if
every `create` of the run that passes its checks has a name of at most 32 bytes
and a slot left. -/
theorem names_kept_iff (m : Machine) (distinct : DistinctNames m.fs.bootBlock)
    (run : List FileEvent) :
    Every fileStep KeepsNames m run ∧ Meets fileStep StoresInside m run ↔
      Meets fileStep ShortName m run := by
  refine every_and_meets_iff (fun m => DistinctNames m.fs.bootBlock) ?_ ?_ ?_ run m distinct
  · intro m e m' inv step
    rw [keepsNames_iff inv step]
    exact and_iff_left (storesInside_of_step step)
  · intro m e _ stuck
    constructor
    · intro stores s reserved curr fd inode call passes
      obtain ⟨m', step⟩ := stores (some s) reserved curr fd inode s call passes
      cases stuck.symm.trans step
    · intro short fileName reserved curr fd inode s call passes
      obtain rfl := passes.named
      exact (fileStep_of_passes call passes).2 (short s reserved curr fd inode call passes).2
  · intro m e m' inv guard step
    exact ((keepsNames_iff inv step).2 guard).distinct

theorem names_kept_empty : Every fileStep KeepsNames (Machine.mounted Fs.empty)
    [createBy3 nameA, createBy3 nameB] ∧ Meets fileStep StoresInside (Machine.mounted Fs.empty)
    [createBy3 nameA, createBy3 nameB] := by
  refine (names_kept_iff (Machine.mounted Fs.empty) List.nodup_nil _).2
    ⟨?_, fun m' step => ⟨?_, fun _ _ => trivial⟩⟩
  · intro s _ _ _ _ call _
    cases call
    exact ⟨by decide, by decide⟩
  · obtain rfl : oneFile = m' := Option.some.inj step
    intro s _ _ _ _ call _
    cases call
    exact ⟨by decide, by decide⟩

/-! ## The same name twice -/

/-- A name of 33 bytes. -/
def longName : CString := ⟨List.replicate 33 97, by decide⟩

/-- The second `create` of a name of 33 bytes makes a second entry of its first
32. -/
theorem long_name_doubled : ¬Every fileStep KeepsNames (Machine.mounted Fs.empty)
    [createBy3 longName, createBy3 longName] := by
  intro every
  have first := createBy3_step (Machine.mounted Fs.empty) 2 1 longName
    (by decide) (by rfl) (by decide) (by decide) (by decide)
  have second := createBy3_step (((createBy3 longName).enter (Machine.mounted Fs.empty)).created
    3 2 1 longName fun _ => 0) 3 1 longName
    (by decide) (by rfl) (by decide) (by decide) (by decide)
  have good := ((every _ first).2 _ second).1.distinct
  exact absurd (distinctNames_iff.1 good 0 1 (by decide) (by decide) rfl) (by decide)

end Illinix.Kernel
