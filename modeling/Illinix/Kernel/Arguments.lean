/-
# Kernel.Arguments -- argv, from execute to getargs

`execute` copies `argv_pos - argument + 1` bytes of `argument` into the PCB.  The
difference is the length of the second word if the parser came to store one, and
has nothing to do with it if `argv_pos` still points into `file_name`.

`getargs` copies the argument out and puts a NUL behind it, `vidmap` stores a
pointer; both look only at the page of the first byte.  Their stores are listed
here with their addresses.
-/
import Illinix.Kernel.Command
import Illinix.Kernel.Coherence
import Illinix.FileSys.Listing
import Illinix.Memory.Move

namespace Illinix.Kernel

open Illinix.FileSys Illinix.Theory Machine
open Illinix.Memory (memcpy memcpy_eq)

set_option autoImplicit false

/-! ## The copy into the PCB -/

/-- The addresses of the two buffers on the stack and of `pcb->argv`. -/
structure Placement where
  fileName : Nat
  argument : Nat
  argv : Nat
  fileName_fits : fileName + maxTerminal ≤ 2 ^ 32
  argument_fits : argument + maxTerminal ≤ 2 ^ 32
  argv_fits : argv + maxTerminal ≤ 2 ^ 32
  buffers_apart : fileName + maxTerminal ≤ argument ∨ argument + maxTerminal ≤ fileName
  argv_apart : argv + maxTerminal ≤ argument ∨ argument + maxTerminal ≤ argv

namespace Placement

/-- `argv_pos` as an address. -/
def argvPos (at' : Placement) (p : Parsed) : Nat :=
  match p.buffer with
  | .fileName => at'.fileName + p.argvPos
  | .argument => at'.argument + p.argvPos

/-- `argv_pos - argument + 1`, the `uint32_t` that `memcpy` takes. -/
def copyLength (at' : Placement) (p : Parsed) : Nat :=
  u32 (at'.argvPos p + 2 ^ 32 - at'.argument + 1)

/-- The memory with what the parser has left in the buffers. -/
def parsed (at' : Placement) (p : Parsed) (mem : Nat → UInt8) : Nat → UInt8 :=
  blit (blit mem at'.fileName p.fileName maxTerminal) at'.argument p.argument maxTerminal

/-- `memcpy(pcb->argv, argument, argv_pos - argument + 1)` -/
def copyArgv (at' : Placement) (p : Parsed) (mem : Nat → UInt8) : Nat → UInt8 :=
  memcpy at'.argv at'.argument (at'.copyLength p) (at'.parsed p mem)

end Placement

/-- The copy has 1 to 128 bytes, each goes into `argv`, and `argv` then holds the
second word and a NUL. -/
structure PassesOn (command : CString) (at' : Placement) (p : Parsed) (mem : Nat → UInt8) :
    Prop where
  some' : 1 ≤ at'.copyLength p
  bounded : at'.copyLength p ≤ maxTerminal
  inside : ∀ k, k < at'.copyLength p →
    at'.argv ≤ u32 (at'.argv + k) ∧ u32 (at'.argv + k) < at'.argv + maxTerminal
  word : ∀ k, k < (secondWord command).length →
    at'.copyArgv p mem (at'.argv + k) = padded (secondWord command) k
  ends : at'.copyArgv p mem (at'.argv + (secondWord command).length) = 0

section

variable {command : CString} {at' : Placement} {p : Parsed} {mem : Nat → UInt8}

theorem wordAt_length (line : List UInt8) (i : Nat) : (wordAt line i).length ≤ line.length - i :=
  List.length_drop ▸ (List.takeWhile_sublist inWord).length_le

theorem secondWord_length (command : CString) : (secondWord command).length < maxTerminal := by
  have length := lineOf_length command
  have size : maxTerminal = 128 := rfl
  have fits := wordAt_length (lineOf command) (secondStart (lineOf command))
  have later (some' : 0 < (lineOf command).length) := secondStart_pos some'
  rw [(wordsOf_eq command).2.1]
  omega

/-- What `execute` can run has a name of at most 32 bytes. -/
theorem executable_name {fs : Fs} {name : CString} {magic : Nat → UInt8}
    (executable : checkExecutable fs name magic = some true) : name.bytes.length ≤ fsMaxLen := by
  obtain ⟨index, den, found⟩ := checkExecutable_found executable
  obtain ⟨_, _, s, same, short⟩ := readDentryByName_some found
  obtain rfl := Option.some.inj same
  exact short ▸ den.name_length_le

/-- A copy from `argument`, if `argv_pos` points into it. -/
theorem passesOn_argument (at' : Placement) (mem : Nat → UInt8)
    (left : p = ⟨padded (firstWord command), padded (secondWord command), .argument,
      (secondWord command).length⟩) : PassesOn command at' p mem := by
  have size : maxTerminal = 128 := rfl
  have short := secondWord_length command
  have fits := at'.argument_fits
  have fits' := at'.argv_fits
  have apart := at'.argv_apart
  have length : at'.copyLength p = (secondWord command).length + 1 := by
    simp only [Placement.copyLength, Placement.argvPos, left, u32]
    omega
  have copied (k : Nat) (low : k ≤ (secondWord command).length) :
      at'.copyArgv p mem (at'.argv + k) = padded (secondWord command) k := by
    rw [Placement.copyArgv, length, memcpy_eq _ _ _ _ (by omega) (by omega) (by omega),
      blit_inside _ _ (by omega) (by omega), Nat.add_sub_cancel_left, Placement.parsed,
      blit_inside _ _ (by omega) (by omega), Nat.add_sub_cancel_left, left]
  refine ⟨by omega, by omega, fun k low => ?_, fun k low => copied k low.le, ?_⟩
  · simp only [u32]
    omega
  · rw [copied _ (le_refl _)]
    exact List.getD_eq_default _ _ (le_refl _)

/-- No copy of a length that fits, if `argv_pos` points into `file_name`. -/
theorem copyLength_fileName (at' : Placement) (here : p.buffer = .fileName)
    (short : p.argvPos ≤ fsMaxLen) : maxTerminal < at'.copyLength p := by
  have size : maxTerminal = 128 := rfl
  have size' : fsMaxLen = 32 := rfl
  have fits := at'.argument_fits
  have fits' := at'.fileName_fits
  have apart := at'.buffers_apart
  simp only [Placement.copyLength, Placement.argvPos, here, u32]
  omega

end

/-- **The hand-over is bounded and exact just when the parser comes to an
argument**: the first 128 characters hold a second word, or the command goes on
behind them. -/
theorem passesOn_iff {fs : Fs} {command name : CString} {magic : Nat → UInt8}
    (named : commandName command = some name)
    (executable : checkExecutable fs name magic = some true) (at' : Placement)
    (mem : Nat → UInt8) :
    ∃ p, parseCommand (readable command) = some (some p) ∧
      (PassesOn command at' p mem ↔ HasArgument command) := by
  have first := commandName_eq command
  have left := parseCommand_eq command
  rw [named, Option.map_some] at first
  split_ifs at first with blank
  · rw [if_neg blank] at left
    have short := executable_name executable
    rw [Option.some.inj first] at short
    refine ⟨_, left, ?_⟩
    by_cases reached : HasArgument command
    · exact iff_of_true (passesOn_argument at' mem (by simp only [if_pos reached])) reached
    · refine iff_of_false (fun hands => ?_) reached
      have long := copyLength_fileName at' (p := ⟨padded (firstWord command),
        padded (secondWord command), .fileName, (firstWord command).length⟩) rfl short
      have bounded := hands.bounded
      simp only [if_neg reached] at bounded
      omega

/-- `shell x`. -/
def shellWithArgument : CString := ⟨text "shell x", by decide⟩

/-- `file_name` below `argument` on the first shell's kernel stack, and the PCB of
another process. -/
def stackPlacement : Placement where
  fileName := 0x7FFE00
  argument := 0x7FFE80
  argv := 0x7F8020
  fileName_fits := by decide
  argument_fits := by decide
  argv_fits := by decide
  buffers_apart := by decide
  argv_apart := by decide

theorem shellWithArgument_handed : ∃ p, parseCommand (readable shellWithArgument) = some (some p) ∧
    (PassesOn shellWithArgument stackPlacement p (fun _ => 0) ↔ HasArgument shellWithArgument) :=
  have executable : checkExecutable shellFs shellName (fun _ => 0) = some true := rfl
  passesOn_iff rfl executable stackPlacement _

/-- `shell` alone: the length is 2 ^ 32 - 122. -/
theorem shell_copyLength : ∃ p, commandName shellName = some shellName ∧
    checkExecutable shellFs shellName (fun _ => 0) = some true ∧
    parseCommand (readable shellName) = some (some p) ∧
    stackPlacement.copyLength p = 2 ^ 32 - 122 ∧
    ¬PassesOn shellName stackPlacement p fun _ => 0 := by
  have parsed := parseCommand_eq shellName
  have alone : ¬HasArgument shellName := by decide
  rw [if_neg (by decide), if_neg alone, if_neg alone] at parsed
  refine ⟨_, rfl, rfl, parsed, by decide, fun hands => ?_⟩
  exact absurd hands.bounded (by decide)

/-! ## getargs and vidmap -/

/-- What a call returns, and the bytes it stores with their addresses, in order. -/
abbrev Stores : Type := List (Nat × UInt8)

/-- The loop of `getargs` with the NUL behind it; `n` bytes of `argv` are left. -/
def copyArgs (argv : Nat → UInt8) (count : Int) : Nat → Nat → Nat → Option Stores
  | 0, _, _ => none
  | n + 1, i, destPos =>
      if argv i ≠ 0 ∧ (i : Int) < count then do
        let stores ← copyArgs argv count n (i + 1) (u32 (destPos + 1))
        some ((destPos, argv i) :: stores)
      else some [(destPos, 0)]

/-- `getargs(buf, count)`, with 0 for NULL. -/
def getargs (argv : Nat → UInt8) (buf : Nat) (count : Int) : Option (Int × Stores) :=
  if buf = 0 ∨ buf / 2 ^ 22 ≠ userEntry then some (-1, [])
  else (copyArgs argv count maxTerminal 0 buf).map fun stores => (0, stores)

/-- The user's address of the video memory. -/
def userVideo : Nat := vidmemIndex * 2 ^ 22 + vidmemIndex * 2 ^ 12

/-- `vidmap(start)` with its store `*start = ...`, before it returns 0. -/
def vidmapStores (m : Machine) (start : Nat) : Option (Int × Stores) :=
  (m.vidmap start).map fun (_, value) =>
    (value, if value = 0 then (List.range 4).map fun k => (u32 (start + k), leByte userVideo k)
      else [])

/-- `argv` holds this string and its NUL. -/
structure HoldsString (argv : Nat → UInt8) (arg : CString) : Prop where
  fits : arg.bytes.length < maxTerminal
  bytes : ∀ k, k ≤ arg.bytes.length → argv k = arg.at k

/-- The call fails without a store, or stores only at addresses from `low` to
before `high` on the user page. -/
def StaysInside (low high : Int) (result : Int × Stores) : Prop :=
  result = (-1, []) ∨ ∀ store ∈ result.2,
    low ≤ (store.1 : Int) ∧ (store.1 : Int) < high ∧ store.1 / 2 ^ 22 = userEntry

instance (low high : Int) (result : Int × Stores) : Decidable (StaysInside low high result) :=
  inferInstanceAs (Decidable (_ ∨ _))

section

variable {argv : Nat → UInt8} {arg : CString}

/-- The stores of the loop: the argument up to the count, and the NUL. -/
theorem copyArgs_eq (holds : HoldsString argv arg) (buf : Nat) (low : buf + maxTerminal ≤ 2 ^ 32)
    (count : Int) (n : Nat) : ∀ i, i + n = maxTerminal → i ≤ arg.bytes.length → (i : Int) ≤ max count 0 →
      copyArgs argv count n i (buf + i) =
        let last := min arg.bytes.length count.toNat
        some ((List.range' i (last - i)).map (fun k => (buf + k, arg.at k)) ++ [(buf + last, 0)]) := by
  have fits := holds.fits
  induction n with
  | zero =>
      intro i ends inside
      omega
  | succ n ih =>
      intro i ends inside reached
      have here : argv i ≠ 0 ↔ i < arg.bytes.length := by
        rw [holds.bytes i inside, Ne, arg.at_eq_zero, List.drop_eq_nil_iff, Nat.not_le]
      simp only [copyArgs, here]
      by_cases more : i < arg.bytes.length ∧ (i : Int) < count
      · have next : u32 (buf + i + 1) = buf + (i + 1) := Nat.mod_eq_of_lt (by omega)
        obtain ⟨rounds, left⟩ : ∃ rounds, min arg.bytes.length count.toNat - i = rounds + 1 :=
          ⟨min arg.bytes.length count.toNat - i - 1, by omega⟩
        have left' : min arg.bytes.length count.toNat - (i + 1) = rounds := by omega
        rw [if_pos more, next, ih (i + 1) (by omega) more.1 (by omega)]
        simp only [left, left', Option.bind_eq_bind, Option.bind_some, List.range'_succ,
          List.map_cons, List.cons_append, holds.bytes i inside]
      · have last : min arg.bytes.length count.toNat = i := by omega
        simp [if_neg more, last]

/-- A call that passes the check stores from `buf` on, to `last` behind it. -/
theorem getargs_stores (holds : HoldsString argv arg) {buf : Nat}
    (onPage : buf / 2 ^ 22 = userEntry) (count : Int) : ∃ stores,
    getargs argv buf count = some (0, stores) ∧
      ∀ x, (∃ c, (x, c) ∈ stores) ↔ buf ≤ x ∧ x ≤ buf + min arg.bytes.length count.toNat := by
  have page : userEntry = 32 := rfl
  have size : maxTerminal = 128 := rfl
  have stored := copyArgs_eq holds buf (by omega) count maxTerminal 0 (by omega) (Nat.zero_le _)
    (by omega)
  rw [Nat.add_zero] at stored
  have passed : ¬(buf = 0 ∨ buf / 2 ^ 22 ≠ userEntry) := by omega
  refine ⟨_, by rw [getargs, if_neg passed, stored, Option.map_some], fun x => ?_⟩
  simp only [List.mem_append, List.mem_map, List.mem_range'_1, Prod.mk.injEq, List.mem_singleton]
  constructor
  · rintro ⟨c, ⟨k, _, rfl, _⟩ | ⟨rfl, _⟩⟩ <;> omega
  · rintro ⟨low, high⟩
    rcases Nat.lt_or_ge x (buf + min arg.bytes.length count.toNat) with before | behind
    · exact ⟨_, Or.inl ⟨x - buf, by omega, by omega, rfl⟩⟩
    · exact ⟨0, Or.inr ⟨by omega, rfl⟩⟩

/-- `getargs` stays inside the buffer and the page just when it refuses the
buffer, or the argument and its NUL fit into both. -/
theorem getargs_iff (holds : HoldsString argv arg) (buf : Nat) (count : Int) : ∃ result,
    getargs argv buf count = some result ∧
      (StaysInside buf (buf + count) result ↔
        (buf = 0 ∨ buf / 2 ^ 22 ≠ userEntry) ∨
          ((arg.bytes.length : Int) < count ∧ buf % 2 ^ 22 + arg.bytes.length < 2 ^ 22)) := by
  by_cases refused : buf = 0 ∨ buf / 2 ^ 22 ≠ userEntry
  · exact ⟨_, if_pos refused, iff_of_true (Or.inl rfl) (Or.inl refused)⟩
  · have page : userEntry = 32 := rfl
    have onPage : buf / 2 ^ 22 = userEntry := by omega
    obtain ⟨stores, done, addresses⟩ := getargs_stores holds onPage count
    refine ⟨_, done, ?_⟩
    simp only [StaysInside, refused, false_or]
    constructor
    · rintro (failed | inside)
      · have zero : (0 : Int) = -1 := congrArg Prod.fst failed
        omega
      · obtain ⟨c, stored⟩ := (addresses (buf + min arg.bytes.length count.toNat)).2 ⟨by omega, by omega⟩
        have last := inside _ stored
        simp only at last
        omega
    · rintro ⟨room, fits⟩
      refine Or.inr fun store stored => ?_
      have range := (addresses store.1).1 ⟨store.2, stored⟩
      omega

end

/-- `vidmap` stays on the page just when it refuses the pointer, or all four bytes
are on it. -/
theorem vidmap_iff {m : Machine} {curr : Nat} (current : m.getCurrentPcb = some curr)
    (start : Nat) : ∃ result, vidmapStores m start = some result ∧
      (StaysInside start (start + 4) result ↔
        (start = 0 ∨ start / 2 ^ 22 ≠ userEntry) ∨ start % 2 ^ 22 + 3 < 2 ^ 22) := by
  simp only [vidmapStores, vidmap]
  by_cases refused : start = 0 ∨ start / 2 ^ 22 ≠ userEntry
  · rw [if_pos refused]
    exact ⟨_, rfl, iff_of_true (Or.inl rfl) (Or.inl refused)⟩
  · have page : userEntry = 32 := rfl
    rw [if_neg refused, current]
    refine ⟨_, rfl, ?_⟩
    have addresses (k : Nat) (low : k < 4) : u32 (start + k) = start + k :=
      Nat.mod_eq_of_lt (by omega)
    simp only [StaysInside, refused, false_or, if_true]
    constructor
    · rintro (failed | inside)
      · have zero : (0 : Int) = -1 := congrArg Prod.fst failed
        omega
      · have last := (inside _ (List.mem_map_of_mem (List.mem_range.2 (by decide : 3 < 4)))).2.2
        rw [addresses 3 (by decide)] at last
        omega
    · intro fits
      refine Or.inr fun store stored => ?_
      obtain ⟨k, low, rfl⟩ := List.mem_map.1 stored
      rw [List.mem_range] at low
      rw [addresses k low]
      omega

/-- The second word as a string. -/
def argumentOf (command : CString) : CString where
  bytes := secondWord command
  noNul := by
    rw [(wordsOf_eq command).2.1]
    intro mem
    exact command.noNul (List.mem_of_mem_take
      (List.mem_of_mem_drop ((List.takeWhile_sublist inWord).mem mem)))

/-- What is handed over is what `getargs` then copies. -/
theorem PassesOn.holdsString {command : CString} {at' : Placement} {p : Parsed}
    {mem : Nat → UInt8} (hands : PassesOn command at' p mem) :
    HoldsString (fun k => at'.copyArgv p mem (at'.argv + k)) (argumentOf command) where
  fits := secondWord_length command
  bytes k inside := by
    rcases Nat.lt_or_eq_of_le inside with low | rfl
    · exact hands.word k low
    · rw [(argumentOf command).at_eq_zero.2 List.drop_length]
      exact hands.ends

/-- **When the two calls stay inside the caller's memory.** -/
theorem pointerCalls_iff {argv : Nat → UInt8} {arg : CString} (holds : HoldsString argv arg)
    {m : Machine} {curr : Nat} (current : m.getCurrentPcb = some curr) (buf : Nat) (count : Int)
    (start : Nat) :
    (∃ result, getargs argv buf count = some result ∧
      (StaysInside buf (buf + count) result ↔
        (buf = 0 ∨ buf / 2 ^ 22 ≠ userEntry) ∨
          ((arg.bytes.length : Int) < count ∧ buf % 2 ^ 22 + arg.bytes.length < 2 ^ 22))) ∧
    ∃ result, vidmapStores m start = some result ∧
      (StaysInside start (start + 4) result ↔
        (start = 0 ∨ start / 2 ^ 22 ≠ userEntry) ∨ start % 2 ^ 22 + 3 < 2 ^ 22) :=
  ⟨getargs_iff holds buf count, vidmap_iff current start⟩

/-- The argument `x`, in a buffer of two bytes and in one of none. -/
def argX : CString := ⟨text "x", by decide⟩

theorem argX_held : HoldsString (padded argX.bytes) argX := ⟨by decide, fun _ _ => rfl⟩

theorem argX_fits : ∃ result, getargs (padded argX.bytes) 0x8000000 2 = some result ∧
    StaysInside 0x8000000 (0x8000000 + 2) result := by
  have current : shells.getCurrentPcb = some 0 := rfl
  obtain ⟨⟨result, done, stays⟩, _⟩ := pointerCalls_iff argX_held current 0x8000000 2 0
  exact ⟨result, done, stays.2 (by decide)⟩

/-- With count 0 the NUL goes to `buf` all the same, and a pointer two bytes before
the end of the page takes two bytes behind it. -/
theorem argX_overflows :
    (∃ result, getargs (padded argX.bytes) 0x8000000 0 = some result ∧
      ¬StaysInside 0x8000000 (0x8000000 + 0) result) ∧
    ∃ result, vidmapStores shells 0x83FFFFE = some result ∧
      ¬StaysInside 0x83FFFFE (0x83FFFFE + 4) result :=
  ⟨⟨_, rfl, by decide⟩, ⟨_, rfl, by decide⟩⟩

end Illinix.Kernel
