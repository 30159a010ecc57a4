/-
# Kernel.Listings -- a listed name, looked up again

`dir_read` copies 33 bytes of an entry: the 32 of its name and, for the `\0`, one
more.  That one is the low byte of the entry's file type.  So a name that fills
its field comes out as a string only if this byte is zero.
-/
import Illinix.Kernel.Files
import Illinix.FileSys.Lookup
import Illinix.Theory.Terminated

namespace Illinix.Kernel

open Illinix.FileSys Illinix.Theory Machine

set_option autoImplicit false

/-- The string in a buffer of `size` bytes, if there is a NUL. -/
def stringIn (buf : Nat → UInt8) (size : Nat) : Option CString :=
  if (untilZero buf size).length < size then some ⟨untilZero buf size, zero_notMem_untilZero _ _⟩
  else none

/-- The low byte of the file type, which `dir_read` hands out behind the name. -/
def EndsName (d : Dentry) : Prop := d.name.length < fsMaxLen ∨ d.fileType % 256 = 0

instance (d : Dentry) : Decidable (EndsName d) := inferInstanceAs (Decidable (_ ∨ _))

/-- The next `dir_read` fills the buffer with a string that resolves to entry `i`. -/
def ListsName (m : Machine) (buf : Nat → UInt8) (count i : Nat) : Prop :=
  ∃ m' value got s, m.dirRead (some buf) count = some (m', .returned value (some got)) ∧
    stringIn got (fsMaxLen + 1) = some s ∧
      readDentryByName m'.fs (some s) = some (some (i, m'.fs.bootBlock.dentries i))

section

variable {m : Machine} {buf : Nat → UInt8} {count i : Nat}

/-- The bytes that come out of an entry: its name, and the byte behind it if the
name fills its field and this byte is not zero. -/
theorem untilZero_byte (d : Dentry) : untilZero d.byte (fsMaxLen + 1) =
    if EndsName d then d.name else d.name ++ [leByte d.fileType 0] := by
  have field : untilZero d.byte fsMaxLen = d.name :=
    untilZero_congr fun k low => if_pos low
  have behind : d.byte fsMaxLen = leByte d.fileType 0 := rfl
  have zero : leByte d.fileType 0 = 0 ↔ d.fileType % 256 = 0 := by
    rw [leByte, pow_zero, Nat.div_one, ← UInt8.toNat_inj, UInt8.toNat_ofNat']
    simp
  have short := d.name_length_le
  rw [untilZero_succ, field, behind]
  simp only [EndsName, ← zero]
  split_ifs with full ends ends
  · exact absurd ends (not_or.2 ⟨by omega, full.2⟩)
  · rfl
  · rfl
  · exact absurd ⟨by omega, fun last => ends (Or.inr last)⟩ full

/-- What one `dir_read` of entry `dirPos` fills the buffer with. -/
theorem dirRead_fills (inside : m.dirPos < m.fs.bootBlock.dentryCount)
    (room : m.fs.bootBlock.dentryCount ≤ dentrySlots) (large : fsMaxLen + 1 ≤ count) :
    m.dirRead (some buf) count = some ({ m with dirPos := u32 (m.dirPos + 1) },
      .returned (i32 (fsMaxLen + 1))
        (some (blit buf 0 (m.fs.bootBlock.dentries m.dirPos).byte (fsMaxLen + 1)))) := by
  have clipped : (if fsMaxLen + 1 < count then fsMaxLen + 1 else count) = fsMaxLen + 1 := by
    split_ifs <;> omega
  simp only [dirRead]
  rw [if_neg (by omega), if_pos (by omega), clipped]

/-- The string in the buffer is the name, if the name ends there. -/
theorem stringIn_byte (d : Dentry) : stringIn (blit buf 0 d.byte (fsMaxLen + 1)) (fsMaxLen + 1) =
    if EndsName d then some ⟨d.name, zero_notMem_untilZero _ _⟩ else none := by
  have copied : untilZero (blit buf 0 d.byte (fsMaxLen + 1)) (fsMaxLen + 1) =
      untilZero d.byte (fsMaxLen + 1) :=
    untilZero_congr fun k low => blit_inside _ _ (Nat.zero_le k) (by omega)
  have short := d.name_length_le
  simp only [stringIn, copied, untilZero_byte]
  split_ifs with ends fits fits
  · rfl
  · omega
  · have full : d.name.length = fsMaxLen := by
      have := (not_or.1 ends).1
      omega
    rw [List.length_append, full] at fits
    exact absurd fits (lt_irrefl _)
  · rfl

theorem ListsName.ends (room : m.fs.bootBlock.dentryCount ≤ dentrySlots)
    (inside : m.dirPos < m.fs.bootBlock.dentryCount) (large : fsMaxLen + 1 ≤ count)
    (lists : ListsName m buf count i) : EndsName (m.fs.bootBlock.dentries m.dirPos) := by
  obtain ⟨m', value, got, s, read, found, _⟩ := lists
  rw [dirRead_fills inside room large] at read
  obtain ⟨rfl, same⟩ := Prod.mk.inj (Option.some.inj read)
  obtain ⟨_, copied⟩ := Reading.returned.inj same
  obtain rfl := Option.some.inj copied
  rw [stringIn_byte] at found
  by_contra unended
  rw [if_neg unended] at found
  exact absurd found.symm (Option.some_ne_none s)

end

/-- **Listing and lookup agree on an entry just when its name ends in the bytes
listed**: it has fewer than 32 bytes, or the low byte of the file type is 0. -/
theorem listsName_iff {m : Machine} {count i : Nat} (buf : Nat → UInt8)
    (room : m.fs.bootBlock.dentryCount ≤ dentrySlots) (distinct : DistinctNames m.fs.bootBlock)
    (inside : i < m.fs.bootBlock.dentryCount) (here : m.dirPos = i)
    (large : fsMaxLen + 1 ≤ count) :
    ListsName m buf count i ↔ EndsName (m.fs.bootBlock.dentries i) := by
  subst here
  constructor
  · exact ListsName.ends room inside large
  · intro ends
    refine ⟨_, _, _, _, dirRead_fills inside room large,
      (stringIn_byte _).trans (if_pos ends), ?_⟩
    refine readDentryByName_first room ⟨inside, rfl, fun j low same => ?_⟩
    have one := distinctNames_iff.1 distinct j m.dirPos (low.trans inside) inside same
    omega

theorem single_distinct (d : Dentry) : DistinctNames (Fs.single d).bootBlock :=
  distinctNames_iff.2 fun i j low high _ => by
    have one : (Fs.single d).bootBlock.dentryCount = 1 := rfl
    omega

/-- A regular file with a name of 31 bytes. -/
def shortDentry : Dentry := ⟨fun k => if k < 31 then 97 else 0, 2, 0, fun _ => 0⟩

theorem shortName_listed : ListsName (mounted (Fs.single shortDentry)) (fun _ => 0) 64 0 :=
  (listsName_iff _ (by decide) (single_distinct _) (by decide) rfl (by decide)).2 (by decide)

/-- A regular file whose name fills the field is listed without an end. -/
theorem fullName_unended : (mounted (Fs.single fullDentry)).fs.bootBlock.dentryCount = 1 ∧
    ((Fs.single fullDentry).bootBlock.dentries 0).name ≠ [] ∧
    DistinctNames (Fs.single fullDentry).bootBlock ∧
    ¬ListsName (mounted (Fs.single fullDentry)) (fun _ => 0) 64 0 :=
  ⟨rfl, by decide, single_distinct _, fun lists =>
    absurd (lists.ends (by decide) (by decide) (by decide)) (by decide)⟩

end Illinix.Kernel
