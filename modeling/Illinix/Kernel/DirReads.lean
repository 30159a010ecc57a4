/-
# Kernel.DirReads -- reading a directory through one descriptor

`dir_read` hands out the entries one at a time.  Where it is kept in a static
variable, and not with the descriptor: whoever reads a directory moves it for all.
So a descriptor gets the entries in order as long as each of its reads finds the
variable where its own last read left it, at 0 the first time.

`dirStep` counts for every open directory descriptor the entries it has got.
`enumerates_iff` is exact: a run serves every descriptor in order if and only if
each of its reads finds, at the shared position, the entry it should get.
-/
import Illinix.Kernel.Sequential

namespace Illinix.Kernel

open Illinix.FileSys Illinix.Theory Machine

set_option autoImplicit false

/-! ## Counting what is read -/

/-- For each descriptor of each process the number of entries it has got since
its `open`; nothing if it is not an open directory or has been told the end. -/
abbrev Progress : Type := Nat → Nat → Option Nat

def afterRead (value : Int) (got : Option Nat) : Option Nat :=
  if value = 0 then none else if 0 < value then got.map (· + 1) else got

/-- The count of descriptor `fd` of process `p` after a step from `m` to `m'`. -/
def progress (p fd : Nat) (m m' : Machine) (got : Option Nat) : SystemEvent → Outcome → Option Nat
  | .call ebp (.file (.open' _)), .ended (.returned value) =>
      if ((m'.pcbs p).files fd).present ∧ ((m'.pcbs p).files fd).ops = .dir then
        if (m.entered ebp).getCurrentPcb = some p ∧ value = fd then some 0 else got
      else none
  | .call ebp (.read fd' _ _), .reading (.returned value _) =>
      if ((m'.pcbs p).files fd).present ∧ ((m'.pcbs p).files fd).ops = .dir then
        if (m.entered ebp).getCurrentPcb = some p ∧ fd' = fd then afterRead value got else got
      else none
  | _, _ =>
      if ((m'.pcbs p).files fd).present ∧ ((m'.pcbs p).files fd).ops = .dir then got else none

def dirStep (s : Machine × Progress) (e : SystemEvent) : Option (Machine × Progress) :=
  (e.run s.1).map fun r => (r.1, fun p fd => progress p fd s.1 r.1 (s.2 p fd) e r.2)

/-- The event reads with a buffer through descriptor `fd` of process `p`, which
has got `k` entries. -/
structure ReadsDir (s : Machine × Progress) (e : SystemEvent) (p fd : Nat) (buf : Nat → UInt8)
    (count k : Nat) : Prop where
  event : ∃ ebp, e = .call ebp (.read fd (some buf) count) ∧ s.1.Frame ebp ∧
    (s.1.entered ebp).getCurrentPcb = some p
  positive : 0 < count
  got : s.2 p fd = some k

/-- What the read should return: the name of entry `k`, as much of it as asked
for, or 0 at the end. -/
def Returns (b : BootBlock) (k count : Nat) (value : Int) (got : Nat → UInt8) : Prop :=
  if k < b.dentryCount then
    value = (min count (fsMaxLen + 1) : Nat) ∧
      ∀ i, i < min count fsMaxLen → got i = (b.dentries k).fileName i
  else value = 0

/-- Each read of the event's descriptor returns the entry after the last one it
got. -/
def Enumerates (s : Machine × Progress) (e : SystemEvent) : Prop :=
  ∀ p fd buf count k, ReadsDir s e p fd buf count k → ∃ m' value got,
    e.run s.1 = some (m', .reading (.returned value (some got))) ∧
      Returns s.1.fs.bootBlock k count value got

/-- The read finds entry `k` at the shared position, or one that has the same name
as far as it is asked for; or the end, if `k` is the end. -/
def FindsPlace (s : Machine × Progress) (e : SystemEvent) : Prop :=
  ∀ p fd buf count k, ReadsDir s e p fd buf count k →
    (s.1.dirPos < s.1.fs.bootBlock.dentryCount ↔ k < s.1.fs.bootBlock.dentryCount) ∧
      (k < s.1.fs.bootBlock.dentryCount → ∀ i, i < min count fsMaxLen →
        (s.1.fs.bootBlock.dentries s.1.dirPos).fileName i =
          (s.1.fs.bootBlock.dentries k).fileName i)

/-- Each count is of an open directory. -/
structure Counted (s : Machine × Progress) : Prop where
  room : s.1.fs.bootBlock.dentryCount ≤ dentrySlots
  open' : ∀ p fd k, s.2 p fd = some k → fd < fileCount ∧
    ((s.1.pcbs p).files fd).present = true ∧ ((s.1.pcbs p).files fd).ops = .dir

section

variable {s s' : Machine × Progress} {m m' : Machine} {e : SystemEvent} {p fd count k : Nat}
  {buf : Nat → UInt8}

/-- **One read of a directory** returns the entry at the shared position. -/
theorem dirRead_returns (room : m.fs.bootBlock.dentryCount ≤ dentrySlots) (buf : Nat → UInt8)
    (count : Nat) : ∃ mid value got, m.dirRead (some buf) count =
      some (mid, .returned value (some got)) ∧ 0 ≤ value ∧
      Returns m.fs.bootBlock m.dirPos count value got := by
  unfold dirRead
  dsimp only
  by_cases ended : m.fs.bootBlock.dentryCount ≤ m.dirPos
  · rw [if_pos ended]
    refine ⟨_, _, _, rfl, le_refl 0, ?_⟩
    unfold Returns
    rw [if_neg (Nat.not_lt.2 ended)]
  · rw [if_neg ended, if_pos (by omega)]
    have clipped : (if fsMaxLen + 1 < count then fsMaxLen + 1 else count) =
        min count (fsMaxLen + 1) := by
      split_ifs <;> omega
    rw [clipped, i32_of_lt (by simp only [fsMaxLen]; omega)]
    refine ⟨_, _, _, rfl, by omega, ?_⟩
    unfold Returns
    rw [if_pos (Nat.lt_of_not_le ended)]
    refine ⟨rfl, fun i low => ?_⟩
    have name : i < 32 := by
      simp only [fsMaxLen] at low
      omega
    rw [blit_inside _ _ (Nat.zero_le i) (by omega), Nat.sub_zero]
    exact if_pos name

/-- The returned name is entry `k`'s if it is the name of an entry like it. -/
theorem returns_iff {b : BootBlock} {pos : Nat} {value : Int} {got : Nat → UInt8}
    (positive : 0 < count) (returns : Returns b pos count value got) :
    Returns b k count value got ↔ ((pos < b.dentryCount ↔ k < b.dentryCount) ∧
      (k < b.dentryCount → ∀ i, i < min count fsMaxLen →
        (b.dentries pos).fileName i = (b.dentries k).fileName i)) := by
  unfold Returns at returns ⊢
  by_cases here : pos < b.dentryCount
  · rw [if_pos here] at returns
    obtain ⟨rfl, name⟩ := returns
    by_cases there : k < b.dentryCount
    · rw [if_pos there]
      constructor
      · rintro ⟨_, name'⟩
        exact ⟨iff_of_true here there, fun _ i low => (name i low).symm.trans (name' i low)⟩
      · rintro ⟨_, same⟩
        exact ⟨rfl, fun i low => (name i low).trans (same there i low)⟩
    · rw [if_neg there]
      refine iff_of_false ?_ fun both => there (both.1.1 here)
      simp only [fsMaxLen]
      omega
  · rw [if_neg here] at returns
    subst returns
    by_cases there : k < b.dentryCount
    · rw [if_pos there]
      refine iff_of_false (fun both => ?_) fun both => here (both.1.2 there)
      have length := both.1
      simp only [fsMaxLen] at length
      omega
    · rw [if_neg there]
      exact iff_of_true rfl ⟨iff_of_false here there, fun low => absurd low there⟩

/-- A counted read, with what it returns. -/
theorem ReadsDir.run (counted : Counted s) (reads : ReadsDir s e p fd buf count k) :
    ∃ m' value got, e.run s.1 = some (m', .reading (.returned value (some got))) ∧
      Returns s.1.fs.bootBlock s.1.dirPos count value got := by
  obtain ⟨ebp, rfl, frame, current⟩ := reads.event
  obtain ⟨inside, present, ops⟩ := counted.open' p fd k reads.got
  obtain ⟨mid, value, got, started, positive, returns⟩ :=
    dirRead_returns (m := s.1.entered ebp) counted.room buf count
  have usable : (s.1.entered ebp).usable p 0 fd = true :=
    usable_iff.2 ⟨by omega, by exact_mod_cast inside, present⟩
  have driver : (s.1.entered ebp).opsRead (((s.1.entered ebp).pcbs p).files (fd : Int).toNat)
      (some buf) count = some (mid, .returned value (some got)) := by
    have dir : (((s.1.entered ebp).pcbs p).files (fd : Int).toNat).ops = .dir := ops
    rw [opsRead, dir]
    exact started
  have ran : (s.1.entered ebp).read fd (some buf) count =
      some (mid.advance p (fd : Int).toNat (.returned value (some got))) := by
    rw [Machine.read, current]
    simp only [Option.bind_eq_bind, Option.bind_some, usable, if_true, driver]
  rw [advance_moves positive] at ran
  exact ⟨_, value, got, run_call.2 ⟨frame, Option.map_eq_some_iff.2 ⟨_, ran, rfl⟩⟩, returns⟩

/-- **A step enumerates exactly if it finds its place.** -/
theorem enumerates_iff_finds (counted : Counted s) : Enumerates s e ↔ FindsPlace s e := by
  refine forall_congr' fun p => forall_congr' fun fd => forall_congr' fun buf =>
    forall_congr' fun count => forall_congr' fun k => forall_congr' fun reads => ?_
  obtain ⟨m', value, got, ran, returns⟩ := reads.run counted
  rw [← returns_iff reads.positive returns]
  constructor
  · rintro ⟨m₁, value₁, got₁, ran₁, good⟩
    obtain ⟨rfl, same⟩ := Prod.mk.inj (Option.some.inj (ran.symm.trans ran₁))
    cases same
    exact good
  · exact fun good => ⟨m', value, got, ran, good⟩

/-- What is counted is an open directory; it was counted before, or opened now. -/
theorem progress_some {got : Option Nat} {outcome : Outcome}
    (some' : progress p fd m m' got e outcome = some k) :
    (((m'.pcbs p).files fd).present = true ∧ ((m'.pcbs p).files fd).ops = .dir) ∧
      (got.isSome ∨ ∃ ebp fileName, e = .call ebp (.file (.open' fileName)) ∧
        outcome = .ended (.returned fd)) := by
  have mapped : ∀ value, (afterRead value got).isSome → got.isSome := by
    intro value after
    unfold afterRead at after
    split_ifs at after
    · cases after
    · exact Option.isSome_map.symm.trans after
    · exact after
  unfold progress at some'
  split at some'
  · rename_i ebp fileName value
    split_ifs at some' with there new
    · obtain ⟨_, rfl⟩ := new
      exact ⟨there, Or.inr ⟨ebp, fileName, rfl, rfl⟩⟩
    · exact ⟨there, Or.inl (by rw [some']; rfl)⟩
  · split_ifs at some' with there here
    · exact ⟨there, Or.inl (mapped _ (by rw [some']; rfl))⟩
    · exact ⟨there, Or.inl (by rw [some']; rfl)⟩
  · split_ifs at some' with there
    exact ⟨there, Or.inl (by rw [some']; rfl)⟩

/-- The counts are of open directories after a step that leaves the directory
alone. -/
theorem counted_step (counted : Counted s) (step : dirStep s e = some s')
    (boot : s'.1.fs.bootBlock = s.1.fs.bootBlock) : Counted s' := by
  obtain ⟨⟨m', outcome⟩, ran, rfl⟩ := Option.map_eq_some_iff.1 step
  refine ⟨by rw [boot]; exact counted.room, fun p fd k got => ?_⟩
  obtain ⟨there, old | ⟨ebp, fileName, rfl, rfl⟩⟩ := progress_some got
  · obtain ⟨k', before⟩ := Option.isSome_iff_exists.1 old
    exact ⟨(counted.open' p fd k' before).1, there⟩
  · obtain ⟨⟨mid, v⟩, made, same⟩ := Option.map_eq_some_iff.1 (run_call.1 ran).2
    obtain ⟨rfl, answer⟩ := Prod.mk.inj same
    have value : v = fd := Ended.returned.inj (Outcome.ended.inj answer)
    rcases open_some made with ⟨_, _, _, _, failed⟩ | ⟨_, new, _, _, _, opens, granted, _⟩
    · omega
    · obtain rfl : new = fd := by omega
      exact ⟨(freeFd_some opens.free).2.1, there⟩

end

/-- **Directory enumeration, exactly.** In every run that leaves the directory
alone, every read of a directory descriptor returns the entry after the last one
that descriptor got since its `open`, and 0 after the last entry, if and only if
every such read finds its entry at the shared position. -/
theorem enumerates_iff (m : Machine) (room : m.fs.bootBlock.dentryCount ≤ dentrySlots)
    (run : List SystemEvent)
    (unchanged : Every dirStep (fun s _ s' => s'.1.fs.bootBlock = s.1.fs.bootBlock)
      (m, fun _ _ => none) run) :
    Meets dirStep Enumerates (m, fun _ _ => none) run ↔
      Meets dirStep FindsPlace (m, fun _ _ => none) run := by
  refine meets_congr_of Counted ?_ ?_ run _ ⟨room, fun _ _ _ got => nomatch got⟩ unchanged
  · intro s e counted
    exact enumerates_iff_finds counted
  · intro s e s' counted _ step boot
    exact counted_step counted step boot

def dirName : CString := ⟨text ".", by decide⟩

/-- The file system of `shells` with an entry for the directory before the file's. -/
def dirFs : Fs :=
  { shellFs with
    bootBlock := { shellFs.bootBlock with
      dentryCount := 2
      dentries := fun i => if i = 0 then ⟨dentryName dirName, 1, 0, fun _ => 0⟩
        else ⟨dentryName shellName, 2, 0, fun _ => 0⟩ } }

def dirShells : Machine := (mounted dirFs).mapTerminals.startShells

def openDir : SystemEvent := .call 0x7FFF00 (.file (.open' (some dirName)))

def readName : SystemEvent := .call 0x7FFF00 (.read 2 (some fun _ => 0) 32)

/-- The first shell opens the directory and reads an entry. -/
def readFirst : List SystemEvent := [.iret, openDir, readName]

/-- It closes the directory after the first entry, and opens it again. -/
def openAgain : List SystemEvent := readFirst ++ [.call 0x7FFF00 (.file (.close 2)), openDir]

/-- The first byte a read has returned. -/
def Outcome.firstByte : Outcome → Option UInt8
  | .reading (.returned _ (some got)) => some (got 0)
  | _ => none

/-- The first entry it then gets is the second of the directory. -/
theorem opened_again : ¬Meets dirStep Enumerates (dirShells, fun _ _ => none)
    (openAgain ++ [readName]) := by
  intro meets
  have state : (after dirStep (dirShells, fun _ _ => none) openAgain).map (fun s =>
      ((s.1.entered 0x7FFF00).getCurrentPcb, s.2 0 2, s.1.fs.bootBlock.dentryCount,
        (s.1.fs.bootBlock.dentries 0).fileName 0, decide (s.1.Frame 0x7FFF00),
        (readName.run s.1).map fun r => r.2.firstByte)) =
          some (some 0, some 0, 2, 46, true, some (some 115)) := by
    rfl
  obtain ⟨s, reached, facts⟩ := Option.map_eq_some_iff.1 state
  simp only [Prod.mk.injEq, decide_eq_true_eq] at facts
  obtain ⟨current, got, two, dot, frame, read⟩ := facts
  obtain ⟨m', value, name, ran, returns⟩ := meets_at _ _ s meets reached 0 2 (fun _ => 0) 32 0
    ⟨⟨_, rfl, frame, current⟩, by decide, got⟩
  unfold Returns at returns
  rw [if_pos (by omega)] at returns
  have first : name 0 = 46 := (returns.2 0 (by decide)).trans dot
  rw [ran] at read
  have other : name 0 = 115 := Option.some.inj (Option.some.inj read)
  exact absurd (first.symm.trans other) (by decide)

/-- Before, its place is the shared one. -/
theorem read_first : Meets dirStep Enumerates (dirShells, fun _ _ => none) readFirst ↔
    Meets dirStep FindsPlace (dirShells, fun _ _ => none) readFirst := by
  have kept : ∀ s e s', ¬WritesFiles s.1 e → dirStep s e = some s' →
      s'.1.fs.bootBlock = s.1.fs.bootBlock := by
    rintro s e s' quiet step
    obtain ⟨r, ran, rfl⟩ := Option.map_eq_some_iff.1 step
    exact congrArg (fun fs => fs.bootBlock) (fs_kept quiet (Option.map_eq_some_iff.2 ⟨r, ran, rfl⟩))
  refine enumerates_iff dirShells (by decide) readFirst ?_
  intro s₁ step₁
  refine ⟨kept _ _ _ (by rintro ⟨⟩) step₁, fun s₂ step₂ => ?_⟩
  refine ⟨kept _ _ _ (by unfold openDir; rintro ⟨⟩) step₂, fun s₃ step₃ => ?_⟩
  exact ⟨kept _ _ _ (by unfold readName; rintro ⟨⟩) step₃, trivial⟩

end Illinix.Kernel
