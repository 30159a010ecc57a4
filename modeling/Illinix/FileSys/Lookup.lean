/-
# FileSys.Lookup -- read_dentry_by_name and its output

The function returns the index and copies the entry into `*dentry`, or returns -1
and leaves `*dentry` alone.  `readDentryInto_exact` says which of the two, for a
string of any length: the first entry whose stored name is the string decides.
-/
import Illinix.FileSys.Listing

namespace Illinix.FileSys

set_option autoImplicit false

/-- `read_dentry_by_name`, with what `*dentry` holds before and after. -/
def readDentryInto (fs : Fs) (fileName : Option CString) (dentry : Dentry) :
    Option (Int × Dentry) :=
  (readDentryByName fs fileName).map fun found =>
    match found with
    | none => (-1, dentry)
    | some (index, pos) => ((index : Int), pos)

/-- Entry `i` is the first with this name. -/
structure FirstNamed (b : BootBlock) (name : List UInt8) (i : Nat) : Prop where
  inside : i < b.dentryCount
  named : (b.dentries i).name = name
  first : ∀ j, j < i → (b.dentries j).name ≠ name

/-- One of the two strings is a proper prefix of the other. -/
def ProperPrefix (s t : List UInt8) : Prop := (s <+: t ∨ t <+: s) ∧ s ≠ t

section

variable {fs : Fs} {s : CString} {i : Nat}

/-- Either an entry has the name, and one is the first, or none has it. -/
theorem firstNamed_or (b : BootBlock) (name : List UInt8) :
    (∃ i, FirstNamed b name i) ∨ ∀ i, i < b.dentryCount → (b.dentries i).name ≠ name := by
  by_cases some' : ∃ i, i < b.dentryCount ∧ (b.dentries i).name = name
  · obtain ⟨inside, named⟩ := Nat.find_spec some'
    refine Or.inl ⟨Nat.find some', inside, named, fun j low same => ?_⟩
    exact Nat.find_min some' low ⟨low.trans inside, same⟩
  · exact Or.inr fun i inside named => some' ⟨i, inside, named⟩

theorem readDentryByName_first (room : fs.bootBlock.dentryCount ≤ dentrySlots)
    (first : FirstNamed fs.bootBlock s.bytes i) :
    readDentryByName fs (some s) = some (some (i, fs.bootBlock.dentries i)) :=
  findDentry_first _ 0 (Nat.zero_le i) (by have := first.inside; omega)
    (first.inside.trans_le room) (fun j _ low => first.first j low) first.named

theorem readDentryInto_first (room : fs.bootBlock.dentryCount ≤ dentrySlots)
    (first : FirstNamed fs.bootBlock s.bytes i) (dentry : Dentry) :
    readDentryInto fs (some s) dentry = some ((i : Int), fs.bootBlock.dentries i) := by
  simp only [readDentryInto, readDentryByName_first room first, Option.map_some]

theorem readDentryInto_none (room : fs.bootBlock.dentryCount ≤ dentrySlots)
    (absent : ∀ i, i < fs.bootBlock.dentryCount → (fs.bootBlock.dentries i).name ≠ s.bytes)
    (dentry : Dentry) : readDentryInto fs (some s) dentry = some (-1, dentry) := by
  simp only [readDentryInto, (readDentryByName_none room).2 absent, Option.map_some]

/-- What the function returns as an index names an entry with just this name. -/
theorem readDentryInto_named {dentry pos : Dentry}
    (found : readDentryInto fs (some s) dentry = some ((i : Int), pos)) :
    (fs.bootBlock.dentries i).name = s.bytes := by
  simp only [readDentryInto, Option.map_eq_some_iff] at found
  obtain ⟨_ | ⟨index, entry⟩, looked, same⟩ := found
  · have minus : (-1 : Int) = (i : Int) := congrArg Prod.fst same
    omega
  · have index' : (index : Int) = (i : Int) := congrArg Prod.fst same
    obtain rfl : index = i := by omega
    obtain ⟨_, entry', s', same', name⟩ := readDentryByName_some looked
    obtain rfl := Option.some.inj same'
    rw [← entry', name]

end

/-- **Name lookup is exact.**  The first entry with the name is returned and copied
out whole; if there is none the result is -1 and the output is untouched.  A proper
prefix or extension of a stored name does not match it, and a string of more than
32 bytes matches no entry. -/
theorem readDentryInto_exact {fs : Fs} (room : fs.bootBlock.dentryCount ≤ dentrySlots)
    (s : CString) (dentry : Dentry) :
    ((∃ i, FirstNamed fs.bootBlock s.bytes i ∧
        readDentryInto fs (some s) dentry = some ((i : Int), fs.bootBlock.dentries i)) ∨
      ((∀ i, i < fs.bootBlock.dentryCount → (fs.bootBlock.dentries i).name ≠ s.bytes) ∧
        readDentryInto fs (some s) dentry = some (-1, dentry))) ∧
    (∀ i pos, ProperPrefix s.bytes (fs.bootBlock.dentries i).name →
      readDentryInto fs (some s) dentry ≠ some ((i : Int), pos)) ∧
    (fsMaxLen < s.bytes.length → readDentryInto fs (some s) dentry = some (-1, dentry)) := by
  refine ⟨?_, fun i pos proper found => ?_, fun long => ?_⟩
  · rcases firstNamed_or fs.bootBlock s.bytes with ⟨i, first⟩ | absent
    · exact Or.inl ⟨i, first, readDentryInto_first room first dentry⟩
    · exact Or.inr ⟨absent, readDentryInto_none room absent dentry⟩
  · exact proper.2 (readDentryInto_named found).symm
  · refine readDentryInto_none room (fun i _ same => ?_) dentry
    have short := (fs.bootBlock.dentries i).name_length_le
    rw [same] at short
    omega

/-- A regular file whose name fills the 32 bytes. -/
def fullDentry : Dentry := ⟨fun _ => 97, 2, 0, fun _ => 0⟩

/-- An image with one entry. -/
def Fs.single (d : Dentry) : Fs :=
  { Fs.empty with bootBlock := { Fs.empty.bootBlock with dentryCount := 1, dentries := fun _ => d } }

def fullName : CString := ⟨List.replicate 32 97, by decide⟩

theorem fullDentry_name : fullDentry.name = fullName.bytes := by decide

/-- The only entry, by its name of 32 bytes. -/
theorem readDentryInto_exact_full :
    readDentryInto (Fs.single fullDentry) (some fullName) ⟨fun _ => 0, 0, 0, fun _ => 0⟩ =
      some (0, fullDentry) := by
  have room : (Fs.single fullDentry).bootBlock.dentryCount ≤ dentrySlots := by decide
  rcases (readDentryInto_exact room fullName ⟨fun _ => 0, 0, 0, fun _ => 0⟩).1 with
    ⟨i, first, found⟩ | ⟨absent, _⟩
  · obtain rfl : i = 0 := Nat.lt_one_iff.1 first.inside
    exact found
  · exact absurd fullDentry_name (absent 0 Nat.one_pos)

end Illinix.FileSys
