/-
# Kernel.Command -- the command line of execute

The parser of `execute` is four loops over one position.  The loops stop at the
128th character; the second and the fourth store through `argv_pos`, which points
into `file_name` first and then, if there is a second word, into `argument`.

`load` is the memory the parser may read and stores are checked against the two
buffers, so a parser that gets through has stayed inside both.  `parseCommand_exact`
says that it always does, and what it leaves: the first two words.
-/
import Illinix.Kernel.Process
import Illinix.Theory.Words
import Mathlib.Data.List.DropRight

namespace Illinix.Kernel

open Illinix.FileSys Illinix.Theory Machine

set_option autoImplicit false

/-! ## The parser -/

/-- The buffer `argv_pos` points into. -/
inductive Buffer where
  | fileName
  | argument
  deriving DecidableEq

/-- What the parser leaves: the two buffers, and `argv_pos` as a buffer and the
distance from its start. -/
structure Parsed where
  fileName : Nat → UInt8
  argument : Nat → UInt8
  buffer : Buffer
  argvPos : Nat

/-- The loops over spaces: `pos` is `command + i`, and `n` rounds are left of the
128. -/
def skipSpaces (load : Nat → Option UInt8) : Nat → Nat → Option Nat
  | 0, i => do
      let _ ← load i
      some i
  | n + 1, i => do
      let c ← load i
      if c = ' '.toUInt8 then skipSpaces load n (i + 1) else some i

/-- The loops over a word, with `argv_pos` at `at'` in the buffer. -/
def copyWord (load : Nat → Option UInt8) :
    Nat → Nat → Nat → (Nat → UInt8) → Option (Nat × Nat × (Nat → UInt8))
  | 0, i, at', buffer => do
      let _ ← load i
      some (i, at', buffer)
  | n + 1, i, at', buffer => do
      let c ← load i
      if c ≠ 0 ∧ c ≠ ' '.toUInt8 then
        if at' < maxTerminal then copyWord load n (i + 1) (at' + 1) (Function.update buffer at' c)
        else none
      else some (i, at', buffer)

/-- The end of the parser, from `if (*pos)` on. -/
def parseArgument (load : Nat → Option UInt8) (i at' : Nat) (fileName : Nat → UInt8) :
    Option Parsed := do
  let c ← load i
  if c = 0 then some ⟨fileName, fun _ => 0, .fileName, at'⟩
  else do
    let (_, at', argument) ← copyWord load (maxTerminal - i) i 0 fun _ => 0
    if at' < maxTerminal then some ⟨fileName, Function.update argument at' 0, .argument, at'⟩
    else none

/-- The parser of `execute`; nothing stands for its -1. -/
def parseCommand (load : Nat → Option UInt8) : Option (Option Parsed) := do
  let i ← skipSpaces load maxTerminal 0
  let c ← load i
  if c = 0 then some none
  else do
    let (i, at', fileName) ← copyWord load (maxTerminal - i) i 0 fun _ => 0
    let i ← skipSpaces load (maxTerminal - i) i
    let parsed ← parseArgument load i at' fileName
    some (some parsed)

/-! ## What it reads -/

/-- The bytes of the command that may be read: no more than 129, and none after
the NUL. -/
def readable (command : CString) (i : Nat) : Option UInt8 :=
  if i ≤ min command.bytes.length maxTerminal then some (command.at i) else none

/-- The characters the parser looks at. -/
def lineOf (command : CString) : List UInt8 := command.bytes.take maxTerminal

def isSpace (c : UInt8) : Bool := c = ' '.toUInt8

/-- The words of the line. -/
def wordsOf (command : CString) : List (List UInt8) := words isSpace (lineOf command)

/-- A word in a zeroed buffer. -/
def padded (word : List UInt8) (k : Nat) : UInt8 := word.getD k 0

def firstWord (command : CString) : List UInt8 := (wordsOf command).getD 0 []

def secondWord (command : CString) : List UInt8 := (wordsOf command).getD 1 []

/-- There is something at `if (*pos)`: a second word, or a character behind the
line. -/
def HasArgument (command : CString) : Prop :=
  2 ≤ (wordsOf command).length ∨ maxTerminal < command.bytes.length

instance (command : CString) : Decidable (HasArgument command) :=
  inferInstanceAs (Decidable (_ ∨ _))

section

variable {command : CString} {i at' : Nat} {buffer : Nat → UInt8}

theorem lineOf_length (command : CString) :
    (lineOf command).length = min command.bytes.length maxTerminal := by
  rw [lineOf, List.length_take, min_comm]

theorem readable_inside (inside : i ≤ (lineOf command).length) :
    readable command i = some (command.at i) :=
  if_pos (lineOf_length command ▸ inside)

/-- A character of the line. -/
theorem getElem_lineOf (inside : i < (lineOf command).length) :
    (lineOf command)[i] = command.at i := by
  have length := lineOf_length command
  rw [CString.at, List.getD_eq_getElem _ _ (by omega)]
  exact List.getElem_take

/-- The parser sees the NUL where the command ends within the line. -/
theorem at_lineOf_end (short : command.bytes.length ≤ maxTerminal) :
    command.at (lineOf command).length = 0 := by
  rw [lineOf_length, min_eq_left short, CString.at, List.getD_eq_default _ _ (le_refl _)]

/-- A word, stored one character at a time. -/
theorem blit_padded_cons (buffer : Nat → UInt8) (at' : Nat) (c : UInt8) (word : List UInt8) :
    blit (Function.update buffer at' c) (at' + 1) (padded word) word.length =
      blit buffer at' (padded (c :: word)) (word.length + 1) := by
  funext k
  simp only [blit]
  split_ifs with later whole whole
  · obtain ⟨j, rfl⟩ : ∃ j, k = at' + 1 + j := ⟨k - (at' + 1), by omega⟩
    rw [Nat.add_sub_cancel_left, Nat.add_assoc, Nat.add_sub_cancel_left, Nat.add_comm 1 j]
    rfl
  · omega
  · obtain rfl : k = at' := by omega
    rw [Function.update_self, Nat.sub_self]
    rfl
  · exact Function.update_of_ne (by omega) _ _

/-! ## The loops -/

/-- What the loops over a word go on for. -/
def inWord (c : UInt8) : Bool := !isSpace c

/-- The word that starts at a position, if one does. -/
def wordAt (line : List UInt8) (i : Nat) : List UInt8 := (line.drop i).takeWhile inWord

theorem scan_inWord (line : List UInt8) (i : Nat) :
    scan inWord line i = i + (wordAt line i).length := rfl

theorem wordAt_nil {line : List UInt8} (i : Nat) (ended : line.drop i = []) :
    wordAt line i = [] := by
  rw [wordAt, ended, List.takeWhile_nil]

theorem wordAt_space {cs : List UInt8} (more : i < cs.length) (space : cs[i] = ' '.toUInt8) :
    wordAt cs i = [] := by
  rw [wordAt, List.drop_eq_getElem_cons more,
    List.takeWhile_cons_of_neg (by simp [inWord, isSpace, space])]

theorem wordAt_cons {cs : List UInt8} (more : i < cs.length) (other : cs[i] ≠ ' '.toUInt8) :
    wordAt cs i = cs[i] :: wordAt cs (i + 1) := by
  rw [wordAt, List.drop_eq_getElem_cons more,
    List.takeWhile_cons_of_pos (by simp [inWord, isSpace, other]), ← wordAt]

/-- Skipping spaces stays in the line. -/
theorem skipSpaces_eq (n : Nat) : ∀ i, i + n = maxTerminal → i ≤ (lineOf command).length →
    skipSpaces (readable command) n i = some (scan isSpace (lineOf command) i) := by
  have length := lineOf_length command
  induction n with
  | zero =>
      intro i ends inside
      obtain rfl : i = (lineOf command).length := by omega
      simp only [skipSpaces, readable_inside inside, scan_end]
      rfl
  | succ n ih =>
      intro i ends inside
      simp only [skipSpaces, readable_inside inside, Option.bind_eq_bind, Option.bind_some]
      rcases Nat.eq_or_lt_of_le inside with rfl | more
      · rw [at_lineOf_end (by omega), scan_end]
        rfl
      · by_cases space : command.at i = ' '.toUInt8
        · rw [if_pos space, ih (i + 1) (by omega) more,
            scan_pos more (by simp [isSpace, getElem_lineOf more, space])]
        · rw [if_neg space, scan_neg more (by simp [isSpace, getElem_lineOf more, space])]

/-- Copying a word stays in the line and in the buffer, if the word starts in the
line no earlier than in the buffer. -/
theorem copyWord_eq (n : Nat) : ∀ i at' buffer, i + n = maxTerminal →
    i ≤ (lineOf command).length → at' ≤ i →
    copyWord (readable command) n i at' buffer =
      let word := wordAt (lineOf command) i
      some (i + word.length, at' + word.length, blit buffer at' (padded word) word.length) := by
  have length := lineOf_length command
  induction n with
  | zero =>
      intro i at' buffer ends inside _
      rw [wordAt_nil i (List.drop_eq_nil_of_le (by omega))]
      simp only [copyWord, readable_inside inside, List.length_nil, blit_zero]
      rfl
  | succ n ih =>
      intro i at' buffer ends inside low
      simp only [copyWord, readable_inside inside, Option.bind_eq_bind, Option.bind_some]
      rcases Nat.eq_or_lt_of_le inside with rfl | more
      · rw [at_lineOf_end (by omega), if_neg (fun both => both.1 rfl),
          wordAt_nil _ List.drop_length]
        simp
      · have nonzero : command.at i ≠ 0 := command.at_ne_zero (by omega)
        by_cases space : command.at i = ' '.toUInt8
        · rw [if_neg (fun both => both.2 space),
            wordAt_space more ((getElem_lineOf more).trans space)]
          simp
        · rw [if_pos ⟨nonzero, space⟩, if_pos (by omega), ih (i + 1) _ _ (by omega) more (by omega),
            wordAt_cons more (getElem_lineOf more ▸ space), getElem_lineOf more]
          simp only [List.length_cons, blit_padded_cons, Nat.add_assoc, Nat.add_comm 1]

/-! ## The whole parser -/

theorem padded_update (word : List UInt8) :
    Function.update (padded word) word.length 0 = padded word := by
  refine Function.update_eq_self_iff.2 ?_
  exact (List.getD_eq_default _ _ (le_refl _)).symm

theorem blit_padded (word : List UInt8) :
    blit (fun _ => 0) 0 (padded word) word.length = padded word := by
  funext k
  simp only [blit]
  split_ifs with inside
  · rfl
  · exact (List.getD_eq_default _ _ (by omega)).symm

/-- The character where the parser stands is the NUL if and only if the command
ends there. -/
theorem at_eq_zero_iff (inside : i ≤ (lineOf command).length) :
    command.at i = 0 ↔ i = (lineOf command).length ∧ command.bytes.length ≤ maxTerminal := by
  have length := lineOf_length command
  rw [command.at_eq_zero, List.drop_eq_nil_iff]
  omega

/-- From `if (*pos)` on. -/
theorem parseArgument_eq (positive : 0 < i) (inside : i ≤ (lineOf command).length) (at' : Nat)
    (fileName : Nat → UInt8) :
    parseArgument (readable command) i at' fileName =
      let word := wordAt (lineOf command) i
      some (if i = (lineOf command).length ∧ command.bytes.length ≤ maxTerminal
        then ⟨fileName, padded word, .fileName, at'⟩
        else ⟨fileName, padded word, .argument, word.length⟩) := by
  have length := lineOf_length command
  have bound : scan inWord (lineOf command) i ≤ (lineOf command).length := scan_le inside
  rw [scan_inWord] at bound
  simp only [parseArgument, readable_inside inside, Option.bind_eq_bind, Option.bind_some]
  rw [copyWord_eq _ _ _ _ (by omega) inside (Nat.zero_le i)]
  simp only [Option.bind_some, Nat.zero_add, blit_padded, padded_update, at_eq_zero_iff inside]
  rw [if_pos (show (wordAt (lineOf command) i).length < maxTerminal by omega)]
  split_ifs with ended
  · rw [ended.1, wordAt_nil _ List.drop_length]
    rfl
  · rfl

/-- Where the first word starts and the second. -/
def firstStart (line : List UInt8) : Nat := scan isSpace line 0

def secondStart (line : List UInt8) : Nat := scan isSpace line (scan inWord line (firstStart line))

/-- The words of the line, as the parser comes upon them. -/
theorem wordsOf_eq (command : CString) :
    firstWord command = wordAt (lineOf command) (firstStart (lineOf command)) ∧
      secondWord command = wordAt (lineOf command) (secondStart (lineOf command)) ∧
      (2 ≤ (wordsOf command).length ↔
        secondStart (lineOf command) < (lineOf command).length) := by
  have start : (lineOf command).drop (firstStart (lineOf command)) =
      (lineOf command).dropWhile isSpace := drop_scan isSpace (lineOf command) 0
  have rest : (lineOf command).drop (secondStart (lineOf command)) =
      (((lineOf command).dropWhile isSpace).dropWhile inWord).dropWhile isSpace := by
    rw [secondStart, drop_scan, drop_scan, start]
  have ended : secondStart (lineOf command) < (lineOf command).length ↔
      (lineOf command).drop (secondStart (lineOf command)) ≠ [] := by
    rw [Ne, List.drop_eq_nil_iff, Nat.not_le]
  have next (l : List UInt8) : words isSpace l = if l.dropWhile isSpace = [] then []
      else (l.dropWhile isSpace).takeWhile inWord ::
        words isSpace ((l.dropWhile isSpace).dropWhile inWord) := words_eq isSpace l
  simp only [ended, firstWord, secondWord, wordsOf, wordAt, start, rest]
  rw [next]
  by_cases blank : (lineOf command).dropWhile isSpace = []
  · simp [blank]
  · rw [if_neg blank, next (((lineOf command).dropWhile isSpace).dropWhile inWord)]
    by_cases single : (((lineOf command).dropWhile isSpace).dropWhile inWord).dropWhile isSpace = []
    · simp [single]
    · simp [single]

theorem secondStart_eq (command : CString) : secondStart (lineOf command) =
    scan isSpace (lineOf command)
      (firstStart (lineOf command) + (firstWord command).length) := by
  rw [secondStart, scan_inWord, (wordsOf_eq command).1]

/-- Something precedes the second word. -/
theorem secondStart_pos (some' : 0 < (lineOf command).length) :
    0 < secondStart (lineOf command) := by
  have later : firstStart (lineOf command) + (firstWord command).length ≤
    secondStart (lineOf command) := secondStart_eq command ▸ le_scan _ _ _
  by_contra zero
  have started : firstStart (lineOf command) < (lineOf command).length := by omega
  have other : isSpace (lineOf command)[firstStart (lineOf command)] = false := scan_stops started
  rw [(wordsOf_eq command).1, wordAt_cons started (by simpa [isSpace] using other),
    List.length_cons] at later
  omega

/-- **What the parser leaves**, for every command. -/
theorem parseCommand_eq (command : CString) : parseCommand (readable command) =
    some (if firstStart (lineOf command) = (lineOf command).length ∧
        command.bytes.length ≤ maxTerminal then none
      else some ⟨padded (firstWord command), padded (secondWord command),
        if HasArgument command then .argument else .fileName,
        if HasArgument command then (secondWord command).length else (firstWord command).length⟩) := by
  have length := lineOf_length command
  have size : maxTerminal = 128 := rfl
  obtain ⟨first, second, two⟩ := wordsOf_eq command
  have inside : firstStart (lineOf command) ≤ (lineOf command).length := scan_le (Nat.zero_le _)
  have bound : scan inWord (lineOf command) (firstStart (lineOf command)) ≤
    (lineOf command).length := scan_le inside
  rw [scan_inWord, ← first] at bound
  have last : secondStart (lineOf command) ≤ (lineOf command).length :=
    secondStart_eq command ▸ scan_le bound
  simp only [parseCommand]
  rw [skipSpaces_eq _ 0 (by omega) (Nat.zero_le _), ← firstStart]
  simp only [Option.bind_eq_bind, Option.bind_some, readable_inside inside]
  by_cases ended : command.at (firstStart (lineOf command)) = 0
  · rw [if_pos ended, if_pos ((at_eq_zero_iff inside).1 ended)]
  · have more := mt (at_eq_zero_iff inside).2 ended
    rw [if_neg ended, if_neg more, copyWord_eq _ _ _ _ (by omega) inside (Nat.zero_le _)]
    simp only [← first, Option.bind_some, Nat.zero_add, blit_padded]
    rw [skipSpaces_eq _ _ (by omega) bound, ← secondStart_eq, Option.bind_some,
      parseArgument_eq (secondStart_pos (by omega)) last, ← second]
    have reaches : ¬(secondStart (lineOf command) = (lineOf command).length ∧
        command.bytes.length ≤ maxTerminal) ↔ HasArgument command := by
      rw [HasArgument, two]
      omega
    simp only [Option.bind_some, ← reaches]
    split_ifs <;> rfl

/-- Only spaces, and no more than the line holds. -/
theorem blank_iff (command : CString) :
    (firstStart (lineOf command) = (lineOf command).length ∧
      command.bytes.length ≤ maxTerminal) ↔
    ∃ n, n ≤ maxTerminal ∧ command.bytes = List.replicate n ' '.toUInt8 := by
  have start : (lineOf command).drop (firstStart (lineOf command)) =
      (lineOf command).dropWhile isSpace := drop_scan isSpace (lineOf command) 0
  have inside : firstStart (lineOf command) ≤ (lineOf command).length := scan_le (Nat.zero_le _)
  have ended : firstStart (lineOf command) = (lineOf command).length ↔
      (lineOf command).dropWhile isSpace = [] := by
    rw [← start, List.drop_eq_nil_iff]
    omega
  have blank (short : command.bytes.length ≤ maxTerminal) :
      (lineOf command).dropWhile isSpace = [] ↔ ∀ c ∈ command.bytes, c = ' '.toUInt8 := by
    rw [List.dropWhile_eq_nil_iff, lineOf, List.take_of_length_le short]
    simp [isSpace]
  rw [ended]
  constructor
  · rintro ⟨all, short⟩
    exact ⟨_, short, List.eq_replicate_iff.2 ⟨rfl, (blank short).1 all⟩⟩
  · rintro ⟨n, short, same⟩
    have length : command.bytes.length = n := by rw [same, List.length_replicate]
    refine ⟨(blank (by omega)).2 fun c mem => ?_, by omega⟩
    rw [same] at mem
    exact List.eq_of_mem_replicate mem

end

/-- **The parser is a tokenizer of the first 128 characters.**  It gets through
with the first 129 bytes of any command, and without a store outside the buffers;
it returns -1 if the command is at most 128 spaces and nothing else; otherwise
the buffers hold the first two words, padded with zeros. -/
theorem parseCommand_exact (command : CString) :
    ∃ parsed, parseCommand (readable command) = some parsed ∧
      (parsed = none ↔ ∃ n, n ≤ maxTerminal ∧ command.bytes = List.replicate n ' '.toUInt8) ∧
      ∀ p, parsed = some p →
        p.fileName = padded (firstWord command) ∧ p.argument = padded (secondWord command) := by
  refine ⟨_, parseCommand_eq command, ?_, ?_⟩
  · rw [← blank_iff]
    by_cases blank : firstStart (lineOf command) = (lineOf command).length ∧
      command.bytes.length ≤ maxTerminal
    · rw [if_pos blank]
      exact iff_of_true rfl blank
    · rw [if_neg blank]
      exact iff_of_false (Option.some_ne_none _) blank
  · intro p left
    rw [ite_eq_iff] at left
    obtain ⟨_, left⟩ | ⟨_, left⟩ := left
    · exact absurd left.symm (Option.some_ne_none p)
    · obtain rfl := Option.some.inj left
      exact ⟨rfl, rfl⟩

/-- The name `execute` looks up is the first word. -/
theorem commandName_eq (command : CString) :
    (commandName command).map CString.bytes =
      if firstStart (lineOf command) = (lineOf command).length ∧
        command.bytes.length ≤ maxTerminal then none
      else some (firstWord command) := by
  have length := lineOf_length command
  have inside : firstStart (lineOf command) ≤ (lineOf command).length := scan_le (Nat.zero_le _)
  have spaces : ((command.bytes.take maxTerminal).takeWhile (· = ' '.toUInt8)).length =
      firstStart (lineOf command) := (Nat.zero_add _).symm
  have ended : command.bytes.drop (firstStart (lineOf command)) = [] ↔
      (firstStart (lineOf command) = (lineOf command).length ∧
        command.bytes.length ≤ maxTerminal) := by
    rw [List.drop_eq_nil_iff]
    omega
  simp only [commandName, spaces, ← ended]
  split_ifs with blank
  · rfl
  · have rest : (lineOf command).drop (firstStart (lineOf command)) =
        (command.bytes.drop (firstStart (lineOf command))).take
          (maxTerminal - firstStart (lineOf command)) := List.drop_take
    have others : (fun c => decide (c ≠ ' '.toUInt8)) = inWord := by
      funext c
      simp [inWord, isSpace]
    rw [Option.map_some, (wordsOf_eq command).1, wordAt, rest, ← others]

/-- What passes the check of `execute` resolves. -/
theorem checkExecutable_found {fs : Fs} {name : CString} {magic : Nat → UInt8}
    (executable : checkExecutable fs name magic = some true) :
    ∃ index den, readDentryByName fs (some name) = some (some (index, den)) := by
  simp only [checkExecutable, Option.bind_eq_bind, Option.bind_eq_some_iff] at executable
  obtain ⟨found, looked, checked⟩ := executable
  cases found with
  | none => exact absurd checked (by simp)
  | some entry => exact ⟨entry.1, entry.2, looked⟩

end Illinix.Kernel
