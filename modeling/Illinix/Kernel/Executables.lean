/-
# Kernel.Executables -- what execute takes for an executable

`magic` and `entry` are locals that `read_data` fills, as far as the file goes.
A file of fewer than four bytes leaves the rest of `magic` as it was, and one of
fewer than 28 bytes leaves some of `entry`; neither result is looked at.

`runsExecutables_iff` is for every file system, every command and everything the
two locals may hold before: what passes is an executable, and is entered where it
says, unless a file with less than its entry address passes on such a residue.
-/
import Illinix.Kernel.Command
import Illinix.Kernel.Inodes
import Illinix.FileSys.ByteRange

namespace Illinix.Kernel

open Illinix.FileSys Illinix.Theory Machine

set_option autoImplicit false

/-- Where `execute` enters the program, if it gets past its check; `magic` and
`entry` are what the locals of these names hold before. -/
def programEntry (fs : Fs) (command : Option CString) (magic entry : Nat → UInt8) :
    Option (Option Nat) :=
  match command.bind commandName with
  | none => some none
  | some name => do
      let executable ← checkExecutable fs name magic
      let found ← readDentryByName fs (some name)
      match executable, found with
      | true, some (_, den) => do
          let (_, bytes) ← readData fs den.inodeNum 24 (some entry) 4
          some (some (leWord (bytes.getD entry) 0))
      | _, _ => some none

/-- The word at a position of a file, if the file has its four bytes. -/
def wordIn (bytes : List UInt8) (pos : Nat) : Option Nat :=
  if pos + 4 ≤ bytes.length then some (leWord (bytes.getD · 0) pos) else none

def magicBytes : List UInt8 := [0x7F, 0x45, 0x4C, 0x46]

/-- The command's first word resolves to this entry. -/
def Names (fs : Fs) (command : Option CString) (den : Dentry) : Prop :=
  ∃ name index, command.bind commandName = some name ∧
    readDentryByName fs (some name) = some (some (index, den))

/-- What gets past the check is a file that starts with the magic number, and the
address is the word at byte 24. -/
def RunsExecutables (fs : Fs) (command : Option CString) (magic entry : Nat → UInt8) : Prop :=
  ∀ address, programEntry fs command magic entry = some (some address) →
    ∃ den, Names fs command den ∧ (fs.bytes den.inodeNum).take 4 = magicBytes ∧
      wordIn (fs.bytes den.inodeNum) 24 = some address

/-- The first bytes of a file, with those it does not have from `magic`. -/
def headOf (bytes : List UInt8) (magic : Nat → UInt8) (i : Nat) : UInt8 := bytes.getD i (magic i)

/-- The file can be read from the start: it has a valid inode number, and a block
if it has a byte. -/
structure ReadsHead (fs : Fs) (inode : Nat) : Prop where
  valid : inode < fs.bootBlock.inodeCount
  block : 0 < (fs.inodeBlocks inode).fileSize →
    (fs.inodeBlocks inode).dataBlocks 0 < fs.bootBlock.dataBlockCount

/-- A file that passes without an entry address. -/
structure PassesShort (fs : Fs) (den : Dentry) (magic : Nat → UInt8) : Prop where
  head : ReadsHead fs den.inodeNum
  short : (fs.bytes den.inodeNum).length < 28
  word : leWord (headOf (fs.bytes den.inodeNum) magic) 0 = executableMagic

section

variable {fs : Fs} {inode : Nat}

/-- A byte of the first block. -/
theorem bytes_getElem? {k : Nat} (low : k < fsBlockSize) : (fs.bytes inode)[k]? =
    if k < (fs.inodeBlocks inode).fileSize then some (fs.content inode k) else none := by
  have inside : k < blockSlots * fsBlockSize := by
    simp only [blockSlots, fsBlockSize] at low ⊢
    omega
  rw [Fs.bytes, fileData_eq, List.getElem?_take, firsts_getElem?]
  simp only [if_pos inside]

/-- A read of four bytes in the first block, if there are some to read. -/
theorem readData_front {pos n : Nat} (low : pos + 4 ≤ fsBlockSize)
    (valid : inode < fs.bootBlock.inodeCount) (more : pos < (fs.inodeBlocks inode).fileSize)
    (length : n = min 4 ((fs.inodeBlocks inode).fileSize - pos)) (buf : Nat → UInt8) :
    readData fs inode pos (some buf) 4 =
      if (fs.inodeBlocks inode).dataBlocks 0 < fs.bootBlock.dataBlockCount
      then some ((n : Int), some (blit buf 0 (fun i => fs.content inode (pos + i)) n)) else none := by
  have accepted : ¬(4 = 0 ∨ fs.bootBlock.inodeCount ≤ inode) := by omega
  have clipped : (if (fs.inodeBlocks inode).fileSize - pos < 4 then
      (fs.inodeBlocks inode).fileSize - pos else 4) = n := by
    split_ifs <;> omega
  have front (p : Nat) (high : p < pos + n) : p / fsBlockSize = 0 := Nat.div_eq_of_lt (by omega)
  simp only [readData, accepted, if_false, if_neg (Nat.not_le.2 more), clipped]
  split_ifs with block
  · have readable : Readable fs inode pos n := fun p _ high => by
      rw [front p high]
      exact ⟨by decide, block⟩
    rw [readSpan_eq_some.2 ⟨readable, rfl⟩, Option.map_some, i32_of_lt (by omega)]
  · rw [Option.map_eq_none_iff, Option.eq_none_iff_forall_ne_some]
    intro bytes read
    have readable := (readSpan_eq_some.1 read).1 pos (le_refl _) (by omega)
    rw [front pos (by omega)] at readable
    exact block readable.2

/-- Such a read gives the word at this position, with the bytes behind the end of
the file from the buffer. -/
theorem readData_word (pos : Nat) (low : pos + 4 ≤ fsBlockSize) (head : ReadsHead fs inode)
    (buf : Nat → UInt8) : ∃ n bytes, readData fs inode pos (some buf) 4 = some (n, some bytes) ∧
      n ≠ -1 ∧ ∀ k, k < 4 → bytes k = (fs.bytes inode).getD (pos + k) (buf k) := by
  rcases Nat.lt_or_ge pos (fs.inodeBlocks inode).fileSize with more | ended
  · refine ⟨_, _, (readData_front low head.valid more rfl buf).trans (if_pos (head.block (by omega))),
      by omega, fun k small => ?_⟩
    rw [List.getD_eq_getElem?_getD, bytes_getElem? (by omega)]
    simp only [blit, Nat.sub_zero]
    split_ifs <;> first | rfl | omega
  · have accepted : ¬(4 = 0 ∨ fs.bootBlock.inodeCount ≤ inode) := by
      have := head.valid
      omega
    refine ⟨0, buf, ?_, by decide, fun k small => ?_⟩
    · simp only [readData, accepted, if_false, if_pos ended]
    · rw [List.getD_eq_getElem?_getD, bytes_getElem? (by omega), if_neg (by omega)]
      rfl

/-- The check of `execute`, for a command whose first word resolves. -/
theorem checkExecutable_iff {name : CString} {index : Nat} {den : Dentry} {magic : Nat → UInt8}
    (found : readDentryByName fs (some name) = some (some (index, den))) :
    checkExecutable fs name magic = some true ↔ ReadsHead fs den.inodeNum ∧
      leWord (headOf (fs.bytes den.inodeNum) magic) 0 = executableMagic := by
  simp only [checkExecutable, found, Option.bind_eq_bind, Option.bind_some]
  by_cases head : ReadsHead fs den.inodeNum
  · obtain ⟨n, bytes, read, good, same⟩ := readData_word 0 (by decide) head magic
    have word : leWord bytes 0 = leWord (headOf (fs.bytes den.inodeNum) magic) 0 :=
      leWord_congr fun k small => by
        rw [Nat.zero_add, same k small, Nat.zero_add]
        rfl
    simp [read, good, head, word]
  · simp only [head, false_and, iff_false]
    by_cases valid : den.inodeNum < fs.bootBlock.inodeCount
    · have block : ¬(0 < (fs.inodeBlocks den.inodeNum).fileSize →
          (fs.inodeBlocks den.inodeNum).dataBlocks 0 < fs.bootBlock.dataBlockCount) :=
        fun block => head ⟨valid, block⟩
      rw [Classical.not_imp] at block
      rw [readData_front (by decide) valid block.1 rfl, if_neg block.2]
      simp
    · have refused : fs.bootBlock.inodeCount ≤ den.inodeNum := by omega
      simp [readData, refused]

/-- A file that has these four bytes and more. -/
theorem take_four {bytes : List UInt8} (long : 4 ≤ bytes.length) (old : Nat → UInt8) :
    leWord (headOf bytes old) 0 = executableMagic ↔ bytes.take 4 = magicBytes := by
  have get (k : Nat) (small : k < 4) : bytes[k]? = some (headOf bytes old k) := by
    rw [headOf, List.getD_eq_getElem _ _ (by omega), List.getElem?_eq_getElem (by omega)]
  have small : ∀ k, k < 4 → magicBytes[k]? = some (leByte executableMagic k) := by decide
  constructor
  · intro word
    apply List.ext_getElem?
    intro k
    rw [List.getElem?_take]
    rcases Nat.lt_or_ge k 4 with low | high
    · rw [if_pos low, get k low, small k low, ← word, leByte_leWord _ _ low, Nat.zero_add]
    · rw [if_neg (by omega), List.getElem?_eq_none (show magicBytes.length ≤ k from high)]
  · intro same
    refine leWord_leByte (by decide) _ _ fun k low => ?_
    have here := congrArg (fun bytes : List UInt8 => bytes[k]?) same
    simp only [List.getElem?_take, if_pos low, small k low, get k low] at here
    rw [Nat.zero_add]
    exact Option.some.inj here

/-- Nothing is entered without the check. -/
theorem programEntry_checked {command : Option CString} {magic entry : Nat → UInt8} {address : Nat}
    (entered : programEntry fs command magic entry = some (some address)) :
    ∃ name, command.bind commandName = some name ∧ checkExecutable fs name magic = some true := by
  simp only [programEntry] at entered
  cases named : command.bind commandName with
  | none => simp [named] at entered
  | some name =>
      cases check : checkExecutable fs name magic with
      | none => simp [named, check] at entered
      | some passed =>
          cases passed with
          | true => exact ⟨name, rfl, check⟩
          | false => cases found : readDentryByName fs (some name) <;> simp [named, check, found] at entered

/-- Past the check, `execute` enters the file at the word of bytes 24 to 27, with
what the file does not have from `entry`. -/
theorem programEntry_iff {command : Option CString} {name : CString} {index : Nat} {den : Dentry}
    {magic entry : Nat → UInt8} {address : Nat} (named : command.bind commandName = some name)
    (found : readDentryByName fs (some name) = some (some (index, den))) :
    programEntry fs command magic entry = some (some address) ↔ ReadsHead fs den.inodeNum ∧
      leWord (headOf (fs.bytes den.inodeNum) magic) 0 = executableMagic ∧
      address = leWord (fun k => (fs.bytes den.inodeNum).getD (24 + k) (entry k)) 0 := by
  by_cases passed : checkExecutable fs name magic = some true
  · simp only [programEntry, named]
    obtain ⟨head, word⟩ := (checkExecutable_iff found).1 passed
    obtain ⟨n, bytes, read, _, same⟩ := readData_word 24 (by decide) head entry
    have jump : leWord bytes 0 =
        leWord (fun k => (fs.bytes den.inodeNum).getD (24 + k) (entry k)) 0 :=
      leWord_congr fun k small => by rw [Nat.zero_add, same k small]
    simp [passed, found, read, head, word, jump, eq_comm]
  · rw [checkExecutable_iff found, not_and] at passed
    refine iff_of_false (fun entered => ?_) fun all => passed all.1 all.2.1
    obtain ⟨name', named', check⟩ := programEntry_checked entered
    obtain rfl := Option.some.inj (named.symm.trans named')
    obtain ⟨head, word⟩ := (checkExecutable_iff found).1 check
    exact passed head word

/-- A file that passes without an entry address is no executable. -/
theorem PassesShort.not_runs {command : Option CString} {den : Dentry} {magic : Nat → UInt8}
    (passes : PassesShort fs den magic) (names : Names fs command den) (entry : Nat → UInt8) :
    ¬RunsExecutables fs command magic entry := by
  intro runs
  obtain ⟨name, index, named, found⟩ := names
  obtain ⟨den', ⟨name', index', named', found'⟩, _, word⟩ := runs _
    ((programEntry_iff named found).2 ⟨passes.head, passes.word, rfl⟩)
  obtain rfl := Option.some.inj (named.symm.trans named')
  obtain ⟨_, rfl⟩ := Prod.mk.inj (Option.some.inj (Option.some.inj (found.symm.trans found')))
  rw [wordIn, if_neg (by have := passes.short; omega)] at word
  cases word

end

/-- **Only real executables run, except through a residue**: what passes is an
executable that has its entry address, if and only if no file shorter than that
passes with the help of what `magic` held before. -/
theorem runsExecutables_iff (fs : Fs) (command : Option CString) (magic entry : Nat → UInt8) :
    RunsExecutables fs command magic entry ↔
      ∀ den, Names fs command den → ¬PassesShort fs den magic := by
  constructor
  · exact fun runs den names passes => passes.not_runs names entry runs
  · intro long address entered
    obtain ⟨name, named, check⟩ := programEntry_checked entered
    obtain ⟨index, den, found⟩ := checkExecutable_found check
    obtain ⟨head, word, jump⟩ := (programEntry_iff named found).1 entered
    have size : ¬(fs.bytes den.inodeNum).length < 28 := fun short =>
      long den ⟨name, index, named, found⟩ ⟨head, short, word⟩
    refine ⟨den, ⟨name, index, named, found⟩, (take_four (by omega) magic).1 word, ?_⟩
    rw [wordIn, if_pos (by omega), jump]
    refine congrArg some (leWord_congr fun k small => ?_)
    rw [Nat.zero_add, List.getD_eq_getElem _ _ (by omega), List.getD_eq_getElem _ _ (by omega)]

/-- What a run of another program leaves where `magic` and `entry` will be. -/
def residue : (Nat → UInt8) × (Nat → UInt8) := (leByte executableMagic, leByte 0x8048094)

/-- The command `a` right after a `create("a")`: the empty file runs, at the address
of the program before. -/
theorem emptyFile_runs : fileStep (mounted Fs.empty) (createBy3 nameA) = some oneFile ∧
    oneFile.fs.bytes 1 = [] ∧
    programEntry oneFile.fs (some nameA) residue.1 residue.2 = some (some 0x8048094) ∧
    ¬RunsExecutables oneFile.fs (some nameA) residue.1 residue.2 := by
  have step : fileStep (mounted Fs.empty) (createBy3 nameA) = some oneFile :=
    createBy3_step _ 2 1 nameA (by decide) rfl (by decide) (by decide) (by decide)
  have empty : oneFile.fs.bytes 1 = [] := List.take_zero
  have names : Names oneFile.fs (some nameA) (oneFile.fs.bootBlock.dentries 0) :=
    ⟨nameA, 0, rfl, rfl⟩
  have head : ReadsHead oneFile.fs 1 := ⟨by decide, by decide⟩
  have short : PassesShort oneFile.fs (oneFile.fs.bootBlock.dentries 0) residue.1 := by
    refine ⟨head, ?_, ?_⟩
    · show (oneFile.fs.bytes 1).length < 28
      rw [empty]
      decide
    · show leWord (headOf (oneFile.fs.bytes 1) residue.1) 0 = executableMagic
      rw [empty]
      decide
  exact ⟨step, empty, rfl, short.not_runs names _⟩

end Illinix.Kernel
