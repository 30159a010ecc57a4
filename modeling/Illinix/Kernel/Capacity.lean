/-
# Kernel.Capacity -- the 63 slots of the directory

`boot_block_t` has room for 63 entries and nothing in the code says so: `create`
stores at `dentries[dentry_count]` without looking at the count.  The slots a
call looks at or stores to are `FileCall.slots`.

`contained_iff` says when a run stays inside: no `create` may get as far as the
inode search on a full directory, unless that search fails.
-/
import Illinix.Kernel.Removal

namespace Illinix.Kernel

open Illinix.FileSys Illinix.Theory

set_option autoImplicit false

/-! ## The slots of a call -/

/-- The slots the search compares, up to the match. -/
def searchSlots (b : BootBlock) (s : CString) : Nat → Nat → List Nat
  | 0, _ => []
  | n + 1, i => i :: if (b.dentries i).named s then [] else searchSlots b s n (i + 1)

def lookupSlots (b : BootBlock) (fileName : Option CString) : List Nat :=
  match fileName with
  | none => []
  | some s => searchSlots b s b.dentryCount 0

/-- The search of `create`, and the slot of the new entry. -/
def createSlots (m : Machine) (fileName : Option CString) : List Nat :=
  match m.getCurrentPcb.bind fun curr => Machine.freeFd (m.pcbs curr) with
  | none => []
  | some _ =>
      lookupSlots m.fs.bootBlock fileName ++
        match readDentryByName m.fs fileName, findFreeInode m.fs, fileName with
        | some none, some inode, some _ =>
            if inode = 2 ^ 32 - 1 then [] else [m.fs.bootBlock.dentryCount]
        | _, _, _ => []

/-- The search of `delete`; then `memmove` and `memset` go over the slots from the
entry to the last one. -/
def deleteSlots (m : Machine) (fileName : Option CString) : List Nat :=
  lookupSlots m.fs.bootBlock fileName ++
    match readDentryByName m.fs fileName with
    | some (some (index, den)) =>
        if m.inUse den.inodeNum then []
        else List.range' index (m.fs.bootBlock.dentryCount - index)
    | _ => []

/-- The entries of `boot_block->dentries` the call reads or writes. -/
def FileCall.slots (m : Machine) : FileCall → List Nat
  | .create fileName _ => createSlots m fileName
  | .open' fileName =>
      match m.getCurrentPcb.bind fun curr => Machine.freeFd (m.pcbs curr) with
      | none => []
      | some _ => lookupSlots m.fs.bootBlock fileName
  | .delete fileName => deleteSlots m fileName
  | .close _ | .write _ _ _ => []

theorem searchSlots_lt {b : BootBlock} {s : CString} (n : Nat) :
    ∀ i k, k ∈ searchSlots b s n i → k < i + n := by
  induction n with
  | zero => exact fun i k mem => nomatch mem
  | succ n ih =>
      intro i k mem
      rcases List.mem_cons.1 mem with rfl | rest
      · omega
      · split_ifs at rest
        · exact nomatch rest
        · have bound := ih (i + 1) k rest
          omega

theorem lookupSlots_lt {b : BootBlock} {fileName : Option CString} {k : Nat}
    (mem : k ∈ lookupSlots b fileName) : k < b.dentryCount := by
  cases fileName with
  | none => exact nomatch mem
  | some s =>
      have bound := searchSlots_lt _ _ _ mem
      omega

/-! ## The condition -/

/-- By how much a call that returns `v` changes the number of entries. -/
def FileCall.entries (v : Int) : FileCall → Int
  | .create _ _ => if v = -1 then 0 else 1
  | .delete _ => if v = 0 then -1 else 0
  | .open' _ | .close _ | .write _ _ _ => 0

/-- What a call should do: keep to the 63 slots, count the entries exactly, and
refuse to create on a full directory. -/
structure Contained (m : Machine) (e : FileEvent) : Prop where
  before : m.fs.bootBlock.dentryCount ≤ dentrySlots
  slots : ∀ i, i ∈ e.call.slots (e.enter m) → i < dentrySlots
  count : ∀ m' v, e.call.run (e.enter m) = some (m', v) →
    m'.fs.bootBlock.dentryCount ≤ dentrySlots ∧
      (m'.fs.bootBlock.dentryCount : Int) = m.fs.bootBlock.dentryCount + e.call.entries v
  full : ∀ fileName reserved curr, e.call = .create fileName reserved →
    m.fs.bootBlock.dentryCount = dentrySlots → (e.enter m).getCurrentPcb = some curr →
    e.call.run (e.enter m) = some (e.enter m, -1)

/-- If the event is a `create` that finds a descriptor, no entry of the name, and
does not run out of inodes, the directory has a free slot. -/
def HasSlot (m : Machine) (e : FileEvent) : Prop :=
  ∀ fileName reserved curr fd, e.call = .create fileName reserved →
    (e.enter m).getCurrentPcb = some curr → Machine.freeFd (m.pcbs curr) = some fd →
    readDentryByName m.fs fileName = some none → findFreeInode m.fs ≠ some (2 ^ 32 - 1) →
    m.fs.bootBlock.dentryCount < dentrySlots

/-- **The count is exact**: it goes up with each entry made and down with each
taken out, never below 0. -/
theorem count_ran {m m' : Machine} {e : FileEvent} {v : Int}
    (ran : e.call.run (e.enter m) = some (m', v)) :
    (m'.fs.bootBlock.dentryCount : Int) = m.fs.bootBlock.dentryCount + e.call.entries v := by
  cases edits_of_ran ran with
  | kept boot create delete =>
      rw [boot]
      cases call : e.call with
      | create fileName reserved => simp [FileCall.entries, (create _ _ call).2.1]
      | delete fileName => simp [FileCall.entries, delete _ call]
      | write fd buf count => simp [FileCall.entries]
      | open' fileName => simp [FileCall.entries]
      | close fd => simp [FileCall.entries]
  | @added s reserved curr fd inode call picks same value =>
      have granted : (fd : Int) ≠ -1 := by omega
      subst m' v
      rw [call, created_dentryCount, FileCall.entries, if_neg granted]
      simp
  | removed call found boot value =>
      have inside := (readDentryByName_some found).1
      subst v
      rw [call, boot, FileCall.entries, if_pos rfl]
      simp only [Machine.removeDentry]
      omega

theorem room_step {m m' : Machine} {e : FileEvent}
    (room : m.fs.bootBlock.dentryCount ≤ dentrySlots) (step : fileStep m e = some m') :
    m'.fs.bootBlock.dentryCount ≤ dentrySlots := by
  obtain ⟨v, ran⟩ := fileStep_some.1 step
  cases edits_of_ran ran with
  | kept boot _ _ =>
      rw [boot]
      exact room
  | added call picks same value =>
      subst m'
      exact picks.room
  | removed call found boot value =>
      rw [boot]
      exact (Nat.sub_le _ _).trans room

/-- On a full directory a `create` that gets to the store leaves the array. -/
theorem create_overflows {m : Machine} {fileName : Option CString} {curr fd : Nat}
    (reserved : Nat → UInt8) (current : m.getCurrentPcb = some curr)
    (free : Machine.freeFd (m.pcbs curr) = some fd)
    (absent : readDentryByName m.fs fileName = some none)
    (inode : findFreeInode m.fs ≠ some (2 ^ 32 - 1))
    (full : ¬m.fs.bootBlock.dentryCount < dentrySlots) : m.create fileName reserved = none := by
  cases ran : m.create fileName reserved with
  | none => rfl
  | some result =>
      obtain ⟨m', v⟩ := result
      rcases create_some ran with ⟨rfl, rfl⟩ | ⟨_, _, _, _, picks, _⟩
      · simp only [Machine.create, current, free, absent, full, Option.bind_eq_bind,
          Option.bind_some, Option.isSome_none, Bool.false_eq_true, if_false,
          Option.bind_eq_some_iff] at ran
        obtain ⟨n, found, ran⟩ := ran
        have granted : n ≠ 2 ^ 32 - 1 := by
          rintro rfl
          exact inode found
        rw [if_neg granted] at ran
        simp at ran
      · exact absurd picks.room full

theorem createSlots_lt {m : Machine} {fileName : Option CString} {k : Nat}
    (room : m.fs.bootBlock.dentryCount ≤ dentrySlots)
    (slot : ∀ curr fd, m.getCurrentPcb = some curr → Machine.freeFd (m.pcbs curr) = some fd →
      readDentryByName m.fs fileName = some none → findFreeInode m.fs ≠ some (2 ^ 32 - 1) →
      m.fs.bootBlock.dentryCount < dentrySlots)
    (mem : k ∈ createSlots m fileName) : k < dentrySlots := by
  simp only [createSlots] at mem
  split at mem
  · exact nomatch mem
  · rename_i fd picked
    obtain ⟨curr, current, free⟩ := Option.bind_eq_some_iff.1 picked
    rcases List.mem_append.1 mem with searched | stored
    · exact Nat.lt_of_lt_of_le (lookupSlots_lt searched) room
    · split at stored
      · rename_i inode s found absent
        split_ifs at stored with none'
        · exact nomatch stored
        · obtain rfl := List.mem_singleton.1 stored
          refine slot curr fd current free absent ?_
          rw [found]
          exact fun same => none' (Option.some.inj same)
      · exact nomatch stored

theorem deleteSlots_lt {m : Machine} {fileName : Option CString} {k : Nat}
    (mem : k ∈ deleteSlots m fileName) : k < m.fs.bootBlock.dentryCount := by
  rcases List.mem_append.1 mem with searched | moved
  · exact lookupSlots_lt searched
  · split at moved
    · rename_i index den found
      have inside := (readDentryByName_some found).1
      split_ifs at moved
      · exact nomatch moved
      · have bound := (List.mem_range'_1.1 moved).2
        omega
    · exact nomatch moved

theorem contained_step {m : Machine} {e : FileEvent}
    (room : m.fs.bootBlock.dentryCount ≤ dentrySlots) : Contained m e ↔ HasSlot m e := by
  constructor
  · intro contained fileName reserved curr fd call current free absent inode
    by_contra full
    have refused := contained.full fileName reserved curr call (by omega) current
    rw [call] at refused
    have overflows := create_overflows reserved current free absent inode full
    cases overflows.symm.trans refused
  · intro slot
    refine ⟨room, ?_, fun m' v ran => ⟨room_step room (fileStep_some.2 ⟨v, ran⟩), count_ran ran⟩, ?_⟩
    · intro k mem
      cases call : e.call with
      | create fileName reserved =>
          rw [call] at mem
          refine createSlots_lt (m := e.enter m) room ?_ mem
          exact fun curr fd => slot fileName reserved curr fd call
      | delete fileName =>
          rw [call] at mem
          exact Nat.lt_of_lt_of_le (deleteSlots_lt mem) room
      | open' fileName =>
          rw [call] at mem
          simp only [FileCall.slots] at mem
          split at mem
          · exact nomatch mem
          · exact Nat.lt_of_lt_of_le (lookupSlots_lt mem) room
      | write fd buf count =>
          rw [call] at mem
          exact nomatch mem
      | close fd =>
          rw [call] at mem
          exact nomatch mem
    · intro fileName reserved curr call full current
      rw [call]
      -- which of the three checks of `create` refuses
      cases free : Machine.freeFd (m.pcbs curr) with
      | none => simp [FileCall.run, Machine.create, current, free]
      | some fd =>
          obtain ⟨found, looked⟩ := readDentryByName_defined room fileName
          cases found with
          | some entry => simp [FileCall.run, Machine.create, current, free, looked]
          | none =>
              have inode : findFreeInode m.fs = some (2 ^ 32 - 1) := by
                by_contra other
                have slot' := slot fileName reserved curr fd call current free looked other
                omega
              simp [FileCall.run, Machine.create, current, free, looked, inode]

/-- **Directory capacity, exactly.** From a directory of at most 63 entries, every
call of a run keeps to the 63 slots, counts exactly and refuses to create when
the directory is full, if and only if each `create` of the run that finds a
descriptor, no entry of the name and does not run out of inodes finds a free
slot. -/
theorem contained_iff (m : Machine) (room : m.fs.bootBlock.dentryCount ≤ dentrySlots)
    (run : List FileEvent) :
    Meets fileStep Contained m run ↔ Meets fileStep HasSlot m run := by
  refine meets_congr (fun m => m.fs.bootBlock.dentryCount ≤ dentrySlots) ?_ ?_ run m room
  · exact fun m e inv => contained_step inv
  · exact fun m e m' inv step => room_step inv step

theorem contained_empty :
    Meets fileStep Contained (Machine.mounted Fs.empty) [createBy3 nameA] := by
  refine (contained_iff (Machine.mounted Fs.empty) (by decide) _).2 ⟨?_, fun _ _ => trivial⟩
  intro _ _ _ _ _ _ _ _ _
  decide

/-! ## A full directory -/

/-- An image of 63 empty files, with distinct names and inodes. -/
def fullImage : Fs :=
  { Fs.empty with bootBlock := { Fs.empty.bootBlock with
      dentryCount := 63
      dentries := fun i => ⟨fun k => if k = 0 then UInt8.ofNat (i + 1) else 0, 2, i + 1, fun _ => 0⟩ } }

/-- One more `create` stores at `dentries[63]`. -/
theorem full_directory_overflows :
    ¬Meets fileStep Contained (Machine.mounted fullImage) [createBy3 nameA] := by
  rintro ⟨contained, _⟩
  have stored : 63 ∈ (createBy3 nameA).call.slots ((createBy3 nameA).enter (Machine.mounted fullImage)) := by
    decide +kernel
  exact absurd (contained.slots 63 stored) (by decide)

end Illinix.Kernel
