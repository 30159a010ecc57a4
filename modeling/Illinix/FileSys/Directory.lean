/-
# FileSys.Directory -- looking a name up

`read_dentry_by_name` compares the string with the 32 name bytes of each entry.
`named_iff` says what that comparison decides: the stored name, cut at its first
NUL if it has one, is the string.  `readDentryByName_some` and
`readDentryByName_none` are the search over the directory.
-/
import Illinix.FileSys.Image
import Mathlib.Data.List.GetD

namespace Illinix.FileSys

set_option autoImplicit false

/-- How far the comparison loop gets, from index `j` on with `n` rounds left. -/
def matchLen (s : CString) (d : Dentry) : Nat → Nat → Nat
  | 0, j => j
  | n + 1, j => if s.at j ≠ 0 ∧ s.at j = d.fileName j then matchLen s d n (j + 1) else j

/-- The test after the comparison loop. -/
def Dentry.named (d : Dentry) (s : CString) : Bool :=
  let j := matchLen s d fsMaxLen 0
  s.at j = 0 ∧ (d.fileName j = 0 ∨ j = fsMaxLen)

/-- The outer loop of `read_dentry_by_name`, `n` entries left. -/
def findDentry (b : BootBlock) (s : CString) : Nat → Nat → Option (Option (Nat × Dentry))
  | 0, _ => some none
  | n + 1, i =>
      if i < dentrySlots then
        if (b.dentries i).named s then some (some (i, b.dentries i)) else findDentry b s n (i + 1)
      else none

/-- The index and a copy of the entry, or nothing for -1. -/
def readDentryByName (fs : Fs) (fileName : Option CString) : Option (Option (Nat × Dentry)) :=
  match fileName with
  | none => some none
  | some s => findDentry fs.bootBlock s fs.bootBlock.dentryCount 0

/-! ## What a match means -/

/-- The stored name: the bytes before the first NUL, at most 32. -/
def Dentry.name (d : Dentry) : List UInt8 :=
  ((List.range fsMaxLen).map d.fileName).takeWhile (· ≠ 0)

theorem CString.at_ne_zero (s : CString) {i : Nat} (inside : i < s.bytes.length) : s.at i ≠ 0 := by
  intro zero
  apply s.noNul
  rw [← zero, CString.at, List.getD_eq_getElem _ _ inside]
  exact List.getElem_mem inside

theorem CString.at_eq_zero (s : CString) {i : Nat} : s.at i = 0 ↔ s.bytes.drop i = [] := by
  constructor
  · intro zero
    by_contra more
    have inside : i < s.bytes.length := by
      by_contra outside
      exact more (List.drop_eq_nil_of_le (Nat.le_of_not_lt outside))
    exact s.at_ne_zero inside zero
  · intro ended
    rw [CString.at, List.getD_eq_default _ _ (List.drop_eq_nil_iff.1 ended)]

theorem CString.drop_eq (s : CString) {i : Nat} (more : s.at i ≠ 0) :
    s.bytes.drop i = s.at i :: s.bytes.drop (i + 1) := by
  have inside : i < s.bytes.length := by
    by_contra outside
    exact more (s.at_eq_zero.2 (List.drop_eq_nil_of_le (Nat.le_of_not_lt outside)))
  rw [List.drop_eq_getElem_cons inside, CString.at, List.getD_eq_getElem _ _ inside]

/-- The comparison from index `j` on decides the rest of the name. -/
theorem matchLen_iff (s : CString) (d : Dentry) (n : Nat) : ∀ j, j + n = fsMaxLen →
    ((s.at (matchLen s d n j) = 0 ∧
      (d.fileName (matchLen s d n j) = 0 ∨ matchLen s d n j = fsMaxLen)) ↔
      ((List.range' j n).map d.fileName).takeWhile (· ≠ 0) = s.bytes.drop j) := by
  induction n with
  | zero =>
      intro j ends
      obtain rfl : j = fsMaxLen := by omega
      simp only [matchLen, or_true, and_true, s.at_eq_zero, List.range'_zero, List.map_nil,
        List.takeWhile_nil, eq_comm]
  | succ n ih =>
      intro j ends
      have short : j ≠ fsMaxLen := by omega
      rw [List.range'_succ, List.map_cons]
      by_cases same : s.at j ≠ 0 ∧ s.at j = d.fileName j
      · have more : d.fileName j ≠ 0 := same.2 ▸ same.1
        have step : matchLen s d (n + 1) j = matchLen s d n (j + 1) := if_pos same
        rw [step, ih (j + 1) (by omega), List.takeWhile_cons_of_pos (by simpa using more), s.drop_eq same.1, same.2,
          List.cons_inj_right]
      · have stop : matchLen s d (n + 1) j = j := if_neg same
        simp only [stop, short, or_false]
        by_cases ended : s.at j = 0
        · rw [s.at_eq_zero.1 ended]
          by_cases stored : d.fileName j = 0
          · simp [ended, stored]
          · simp [stored]
        · have differ : s.at j ≠ d.fileName j := fun eq => same ⟨ended, eq⟩
          rw [s.drop_eq ended]
          by_cases stored : d.fileName j = 0
          · simp [ended, stored]
          · simp [ended, stored, Ne.symm differ]

/-- **The comparison is exact**: the entry matches the string if and only if its
stored name is the string. -/
theorem named_iff (d : Dentry) (s : CString) : d.named s = true ↔ d.name = s.bytes := by
  have whole := matchLen_iff s d fsMaxLen 0 (by decide)
  rw [List.drop_zero, ← List.range_eq_range'] at whole
  rw [← Dentry.name] at whole
  simp only [Dentry.named, decide_eq_true_eq]
  exact whole

/-! ## The search -/

theorem findDentry_some {b : BootBlock} {s : CString} {index : Nat} {d : Dentry} (n : Nat) :
    ∀ i, findDentry b s n i = some (some (index, d)) →
      i ≤ index ∧ index < i + n ∧ d = b.dentries index ∧ d.name = s.bytes := by
  induction n with
  | zero => intro i found; simp [findDentry] at found
  | succ n ih =>
      intro i found
      simp only [findDentry] at found
      split_ifs at found with inside here
      · simp only [Option.some.injEq, Prod.mk.injEq] at found
        obtain ⟨rfl, rfl⟩ := found
        exact ⟨le_refl _, by omega, rfl, (named_iff _ _).1 here⟩
      · obtain ⟨low, high, rest⟩ := ih (i + 1) found
        exact ⟨by omega, by omega, rest⟩

theorem findDentry_none {b : BootBlock} {s : CString} (n : Nat) :
    ∀ i, i + n ≤ dentrySlots → (findDentry b s n i = some none ↔
      ∀ j, i ≤ j → j < i + n → (b.dentries j).name ≠ s.bytes) := by
  induction n with
  | zero => intro i _; simp only [findDentry, true_iff]; intro j low high; omega
  | succ n ih =>
      intro i room
      have inside : i < dentrySlots := by omega
      simp only [findDentry, inside, if_true]
      by_cases here : (b.dentries i).named s = true
      · simp only [here, if_true, Option.some.injEq, reduceCtorEq, false_iff, not_forall]
        exact ⟨i, le_refl _, by omega, fun differ => differ ((named_iff _ _).1 here)⟩
      · simp only [here, if_false, ih (i + 1) (by omega), Bool.false_eq_true]
        constructor
        · intro rest j low high
          rcases Nat.eq_or_lt_of_le low with rfl | later
          · exact fun eq => here ((named_iff _ _).2 eq)
          · exact rest j later (by omega)
        · intro all j low high
          exact all j (by omega) (by omega)

/-- The first entry with the name is found. -/
theorem findDentry_first {b : BootBlock} {s : CString} {index : Nat} (n : Nat) :
    ∀ i, i ≤ index → index < i + n → index < dentrySlots →
      (∀ j, i ≤ j → j < index → (b.dentries j).name ≠ s.bytes) →
      (b.dentries index).name = s.bytes →
      findDentry b s n i = some (some (index, b.dentries index)) := by
  induction n with
  | zero => intro i low high; omega
  | succ n ih =>
      intro i low high room first here
      have inside : i < dentrySlots := by omega
      simp only [findDentry, inside, if_true]
      rcases Nat.eq_or_lt_of_le low with rfl | later
      · simp [(named_iff _ _).2 here]
      · have differ : ¬(b.dentries i).named s = true := fun eq =>
          first i (le_refl _) later ((named_iff _ _).1 eq)
        simp only [differ, if_false, Bool.false_eq_true]
        exact ih (i + 1) later (by omega) room (fun j low' => first j (by omega)) here

theorem readDentryByName_some {fs : Fs} {fileName : Option CString} {index : Nat} {d : Dentry}
    (found : readDentryByName fs fileName = some (some (index, d))) :
    index < fs.bootBlock.dentryCount ∧ d = fs.bootBlock.dentries index ∧
      ∃ s, fileName = some s ∧ d.name = s.bytes := by
  cases fileName with
  | none => simp [readDentryByName] at found
  | some s =>
      obtain ⟨_, high, same, name⟩ := findDentry_some _ _ found
      exact ⟨by omega, same, s, rfl, name⟩

theorem readDentryByName_none {fs : Fs} {s : CString}
    (room : fs.bootBlock.dentryCount ≤ dentrySlots) :
    readDentryByName fs (some s) = some none ↔
      ∀ i, i < fs.bootBlock.dentryCount → (fs.bootBlock.dentries i).name ≠ s.bytes := by
  rw [readDentryByName, findDentry_none _ _ (by omega)]
  exact ⟨fun all i high => all i (Nat.zero_le i) (by omega),
    fun all i _ high => all i (by omega)⟩

/-- The search stays in the 63 entries of the boot block. -/
theorem findDentry_defined (b : BootBlock) (s : CString) (n : Nat) :
    ∀ i, i + n ≤ dentrySlots → ∃ found, findDentry b s n i = some found := by
  induction n with
  | zero => exact fun i _ => ⟨none, rfl⟩
  | succ n ih =>
      intro i room
      simp only [findDentry]
      rw [if_pos (by omega)]
      split_ifs
      · exact ⟨_, rfl⟩
      · exact ih (i + 1) (by omega)

theorem readDentryByName_defined {fs : Fs} (room : fs.bootBlock.dentryCount ≤ dentrySlots)
    (fileName : Option CString) : ∃ found, readDentryByName fs fileName = some found := by
  cases fileName with
  | none => exact ⟨none, rfl⟩
  | some s => exact findDentry_defined _ s _ 0 (by omega)

end Illinix.FileSys
