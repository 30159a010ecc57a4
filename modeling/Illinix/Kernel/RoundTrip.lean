/-
# Kernel.RoundTrip -- create, write, close, open, read

A program creates a file, writes strings to it, closes it, opens it again and
reads it in chunks until a read returns 0.  `roundTrip_iff_written` takes the
calls away: what counts is what the strings leave in the file system.
`round_trip_iff` says which lengths come back whatever the strings and chunks.
On an inode without blocks these are the files of one block: a second piece goes
to the block of the first, block 0 or the one `find_free_datablock` gives.
-/
import Illinix.FileSys.Append
import Illinix.Kernel.Isolation

namespace Illinix.Kernel

open Illinix.FileSys Illinix.Theory

set_option autoImplicit false

/-! ## The run -/

/-- Every write of the list returns the length of its string. -/
def WritesAll (fd : Int) : List (List UInt8) → Machine → Machine → Prop
  | [], m, m' => m' = m
  | s :: rest, m, m' => ∃ m₁,
      m.write fd (some (stringBytes s)) s.length = some (m₁, (s.length : Int)) ∧
        WritesAll fd rest m₁ m'

/-- Reads of the given chunk sizes, up to the first that returns 0, deliver these
bytes. -/
inductive Drained (fd : Int) (buf : Nat → UInt8) : Machine → (Nat → Nat) → List UInt8 → Prop where
  | ended {m m' : Machine} {chunk : Nat → Nat} {b : Option (Nat → UInt8)}
      (last : m.read fd (some buf) (chunk 0) = some (m', .returned 0 b)) : Drained fd buf m chunk []
  | more {m m' : Machine} {chunk : Nat → Nat} {b : Nat → UInt8} {n : Nat} {out : List UInt8}
      (got : m.read fd (some buf) (chunk 0) = some (m', .returned n (some b))) (some' : 0 < n)
      (rest : Drained fd buf m' (fun i => chunk (i + 1)) out) :
      Drained fd buf m chunk ((List.range n).map b ++ out)

/-- The whole run succeeds and returns what was written. -/
def RoundTrip (m : Machine) (name : CString) (reserved buf : Nat → UInt8)
    (strings : List (List UInt8)) (chunk : Nat → Nat) : Prop :=
  ∃ m₁ m₂ m₃ m₄ fd fd', m.create (some name) reserved = some (m₁, fd) ∧ fd ≠ -1 ∧
    WritesAll fd strings m₁ m₂ ∧ m₂.close fd = some (m₃, 0) ∧
    m₃.open' (some name) = some (m₄, fd') ∧ fd' ≠ -1 ∧ Drained fd' buf m₄ chunk strings.flatten

/-! ## A descriptor of the current process -/

/-- The current process has the regular file with this inode open, at this
position. -/
structure Opened (m : Machine) (curr fd inode pos : Nat) : Prop where
  current : m.getCurrentPcb = some curr
  low : 2 ≤ fd
  high : fd < fileCount
  file : (m.pcbs curr).files fd = ⟨.file, inode, pos, true⟩

@[simp] theorem setFile_esp (m : Machine) (p fd : Nat) (file : File) :
    (m.setFile p fd file).esp = m.esp := rfl

@[simp] theorem setFile_file (m : Machine) (p fd : Nat) (file : File) :
    ((m.setFile p fd file).pcbs p).files fd = file := by
  simp [Machine.setFile, Machine.setPcb]

section

variable {m : Machine} {curr fd inode pos : Nat}

theorem Opened.usable (opened : Opened m curr fd inode pos) {low : Nat} (le : low ≤ 2) :
    m.usable curr low fd = true := by
  have bound := opened.low
  have high := opened.high
  simp only [Machine.usable, Int.toNat_natCast, opened.file, decide_eq_true_eq, and_true]
  omega

theorem Opened.advanced (opened : Opened m curr fd inode pos) (m' : Machine) (esp : m'.esp = m.esp)
    (pos' : Nat) : Opened (m'.setFile curr fd ⟨.file, inode, pos', true⟩) curr fd inode pos' :=
  ⟨(getCurrentPcb_congr esp).trans opened.current, opened.low, opened.high, setFile_file ..⟩

theorem write_opened (opened : Opened m curr fd inode pos) {buf : Option (Nat → UInt8)} {count : Nat}
    {fs : Fs} {v : Int} (ran : writeData m.fs inode pos buf count = some (fs, v)) :
    m.write fd buf count = some
      ({ m with fs := fs }.setFile curr fd ⟨.file, inode, u32 (pos + (v % 2 ^ 32).toNat), true⟩, v) := by
  have file := opened.file
  simp [Machine.write, opened.current, opened.usable (Nat.zero_le 2), Machine.opsWrite,
    Machine.fileWrite, file, ran]

theorem read_opened (opened : Opened m curr fd inode pos) {buf : Nat → UInt8} {count : Nat} :
    m.read fd (some buf) count = (readData m.fs inode pos (some buf) count).map fun r =>
      m.advance curr fd (.returned r.1 r.2) := by
  have file := opened.file
  simp only [Machine.read, opened.current, opened.usable (Nat.zero_le 2), Machine.opsRead,
    Machine.fileRead, file, Int.toNat_natCast, Option.bind_eq_bind, Option.bind_some, if_true]
  cases readData m.fs inode pos (some buf) count <;> rfl

theorem close_opened (opened : Opened m curr fd inode pos) :
    m.close fd = some (m.setFile curr fd ⟨.file, inode, pos, false⟩, 0) := by
  have file := opened.file
  simp [Machine.close, opened.current, opened.usable (le_refl 2), Machine.opsClose, file]

end

theorem opened_created {m : Machine} {fileName : Option CString} {curr fd inode : Nat} {s : CString}
    (picks : Picks m fileName curr fd inode s) (reserved : Nat → UInt8) :
    Opened (m.created curr fd inode s reserved) curr fd inode 0 := by
  obtain ⟨low, high, _⟩ := freeFd_some picks.free
  exact ⟨picks.current, low, high, created_file ..⟩

/-! ## Writes -/

theorem writesAll_of_appends {curr fd inode : Nat} (strings : List (List UInt8)) :
    ∀ {pos : Nat} {m : Machine} {fs : Fs}, Opened m curr fd inode pos →
    pos + (strings.map List.length).sum < 2 ^ 32 → Appends inode pos strings m.fs fs →
    ∃ m', WritesAll fd strings m m' ∧ m'.fs = fs ∧
      Opened m' curr fd inode (pos + (strings.map List.length).sum) := by
  induction strings with
  | nil =>
      rintro pos m fs opened _ rfl
      exact ⟨m, rfl, rfl, opened⟩
  | cons s rest ih =>
      rintro pos m fs opened short ⟨fs₁, ran, later⟩
      rw [List.map_cons, List.sum_cons, ← Nat.add_assoc] at short ⊢
      have end' : u32 (pos + ((s.length : Int) % 2 ^ 32).toNat) = pos + s.length := by
        rw [Int.emod_eq_of_lt (by omega) (by omega), Int.toNat_natCast, u32_of_lt (by omega)]
      have wrote := write_opened opened ran
      rw [end'] at wrote
      obtain ⟨m', all, same, opened'⟩ :=
        ih (opened.advanced { m with fs := fs₁ } rfl (pos + s.length)) short later
      exact ⟨m', ⟨_, wrote, all⟩, same, opened'⟩

theorem appends_of_writesAll {curr fd inode : Nat} (strings : List (List UInt8)) :
    ∀ {pos : Nat} {m m' : Machine}, Opened m curr fd inode pos →
    pos + (strings.map List.length).sum < 2 ^ 32 → WritesAll fd strings m m' →
    Appends inode pos strings m.fs m'.fs ∧
      Opened m' curr fd inode (pos + (strings.map List.length).sum) := by
  induction strings with
  | nil =>
      rintro pos m m' opened _ rfl
      exact ⟨rfl, opened⟩
  | cons s rest ih =>
      rintro pos m m' opened short ⟨m₁, ran, later⟩
      rw [List.map_cons, List.sum_cons, ← Nat.add_assoc] at short ⊢
      have writes : Writes m fd curr :=
        ⟨opened.current, opened.usable (Nat.zero_le 2), by simp [opened.file]⟩
      have data := write_of_writes writes ran
      simp only [Int.toNat_natCast, opened.file] at data
      have end' : u32 (pos + ((s.length : Int) % 2 ^ 32).toNat) = pos + s.length := by
        rw [Int.emod_eq_of_lt (by omega) (by omega), Int.toNat_natCast, u32_of_lt (by omega)]
      have wrote := write_opened opened data
      rw [end', ran] at wrote
      have same := (Prod.mk.inj (Option.some.inj wrote)).1
      have opened₁ : Opened m₁ curr fd inode (pos + s.length) := by
        rw [same]
        exact opened.advanced { m with fs := m₁.fs } rfl _
      obtain ⟨rest', opened'⟩ := ih opened₁ short later
      exact ⟨⟨m₁.fs, data, rest'⟩, opened'⟩

/-! ## Reads -/

theorem advance_returned (m : Machine) (curr fd n : Nat) (b : Option (Nat → UInt8)) :
    m.advance curr fd (.returned n b) =
      (m.setFile curr fd { (m.pcbs curr).files fd with
        filePos := u32 (((m.pcbs curr).files fd).filePos + n) }, .returned n b) :=
  advance_moves (Int.natCast_nonneg n) m curr fd b

section

variable {m : Machine} {curr fd inode pos count : Nat} (buf : Nat → UInt8)

/-- A read at or past the end returns 0. -/
theorem read_ended (opened : Opened m curr fd inode pos) (valid : inode < m.fs.bootBlock.inodeCount)
    (some' : 0 < count) (ended : (m.fs.inodeBlocks inode).fileSize ≤ pos) :
    ∃ m', m.read fd (some buf) count = some (m', .returned 0 (some buf)) := by
  have accepted : ¬(count = 0 ∨ m.fs.bootBlock.inodeCount ≤ inode) := by omega
  rw [read_opened opened]
  simp only [readData, accepted, if_false, ended, if_true, Option.map_some]
  exact ⟨_, congrArg some (advance_returned m curr fd 0 (some buf))⟩

/-- A read before the end delivers the next bytes of the content and moves the
position, and it is defined if these bytes have blocks. -/
theorem read_more (opened : Opened m curr fd inode pos) (valid : inode < m.fs.bootBlock.inodeCount)
    (some' : 0 < count) (more : pos < (m.fs.inodeBlocks inode).fileSize)
    (short : (m.fs.inodeBlocks inode).fileSize < 2 ^ 31) (r : Machine × Reading) :
    m.read fd (some buf) count = some r ↔
      Readable m.fs inode pos (min ((m.fs.inodeBlocks inode).fileSize - pos) count) ∧
      r = (m.setFile curr fd ⟨.file, inode,
          pos + min ((m.fs.inodeBlocks inode).fileSize - pos) count, true⟩,
        .returned ((min ((m.fs.inodeBlocks inode).fileSize - pos) count : Nat) : Int)
          (some (blit buf 0 (fun i => m.fs.content inode (pos + i))
            (min ((m.fs.inodeBlocks inode).fileSize - pos) count)))) := by
  have accepted : ¬(count = 0 ∨ m.fs.bootBlock.inodeCount ≤ inode) := by omega
  have before : ¬(m.fs.inodeBlocks inode).fileSize ≤ pos := by omega
  generalize len : min ((m.fs.inodeBlocks inode).fileSize - pos) count = n
  have clipped : (if (m.fs.inodeBlocks inode).fileSize - pos < count then
      (m.fs.inodeBlocks inode).fileSize - pos else count) = n := by
    split_ifs <;> omega
  have positive : i32 n = (n : Int) := i32_of_lt (by omega)
  have next : u32 (pos + n) = pos + n := u32_of_lt (by omega)
  rw [read_opened opened]
  simp only [readData, accepted, if_false, before, clipped, positive, Option.map_eq_some_iff,
    readSpan_eq_some]
  constructor
  · rintro ⟨_, ⟨_, ⟨readable, rfl⟩, rfl⟩, rfl⟩
    refine ⟨readable, ?_⟩
    rw [advance_returned, opened.file]
    dsimp only
    rw [next]
  · rintro ⟨readable, rfl⟩
    refine ⟨_, ⟨_, ⟨readable, rfl⟩, rfl⟩, ?_⟩
    rw [advance_returned, opened.file]
    dsimp only
    rw [next]

end

/-- **Reading to the end** delivers the rest of the content, for any positive
chunks, exactly when the rest has blocks. -/
theorem drained_iff {curr fd inode : Nat} {buf : Nat → UInt8} (rest : Nat) : ∀ {pos : Nat}
    {m : Machine} {chunk : Nat → Nat} (out : List UInt8), Opened m curr fd inode pos →
    inode < m.fs.bootBlock.inodeCount → (m.fs.inodeBlocks inode).fileSize < 2 ^ 31 →
    (m.fs.inodeBlocks inode).fileSize = pos + rest → (∀ i, 0 < chunk i) →
    (Drained fd buf m chunk out ↔ Readable m.fs inode pos rest ∧
      out = (List.range rest).map fun i => m.fs.content inode (pos + i)) := by
  induction rest using Nat.strong_induction_on with
  | _ rest ih =>
      intro pos m chunk out opened valid short size positive
      rcases Nat.eq_zero_or_pos rest with ended | more
      · subst ended
        obtain ⟨m', last⟩ := read_ended buf opened valid (positive 0) (by omega)
        simp only [readable_zero, true_and, List.range_zero, List.map_nil]
        constructor
        · intro drained
          cases drained with
          | ended _ => rfl
          | more got some' _ =>
              rw [last] at got
              have zero := (Reading.returned.inj (Prod.mk.inj (Option.some.inj got)).2).1
              omega
        · rintro rfl
          exact .ended last
      · generalize len : min rest (chunk 0) = n
        have some' : 0 < n := by
          have first := positive 0
          omega
        obtain ⟨k, rfl⟩ : ∃ k, rest = n + k := ⟨rest - n, by omega⟩
        have clipped : min ((m.fs.inodeBlocks inode).fileSize - pos) (chunk 0) = n := by
          rw [size, Nat.add_sub_cancel_left, len]
        have step := fun r => read_more buf opened valid (positive 0) (by omega) short r
        simp only [clipped] at step
        have later := fun out' => ih k (by omega) out'
          (opened.advanced m rfl (pos + n)) valid short (by rw [← Nat.add_assoc] at size; exact size)
          (fun i => positive (i + 1))
        have split : ((List.range (n + k)).map fun i => m.fs.content inode (pos + i)) =
            ((List.range n).map (blit buf 0 (fun i => m.fs.content inode (pos + i)) n)) ++
              ((List.range k).map fun i => m.fs.content inode (pos + n + i)) := by
          have parts := firsts_add (fun i => m.fs.content inode (pos + i)) n k
          rw [← firsts_blit buf _ n] at parts
          simpa only [firsts, Nat.add_assoc] using parts
        rw [readable_add, split]
        constructor
        · intro drained
          cases drained with
          | ended last =>
              have same := (Reading.returned.inj (Prod.mk.inj ((step _).1 last).2).2).1
              omega
          | more got _ rest' =>
              obtain ⟨readable, same⟩ := (step _).1 got
              obtain ⟨rfl, returned⟩ := Prod.mk.inj same
              obtain ⟨length, data⟩ := Reading.returned.inj returned
              obtain rfl := Int.ofNat.inj length
              obtain rfl := Option.some.inj data
              obtain ⟨readable', rfl⟩ := (later _).1 rest'
              exact ⟨⟨readable, readable'⟩, rfl⟩
        · rintro ⟨⟨readable, readable'⟩, rfl⟩
          exact .more ((step _).2 ⟨readable, rfl⟩) some' ((later _).2 ⟨readable', rfl⟩)

/-! ## The file comes back by name -/

/-- A stored name of at most 32 bytes is the string it was made of. -/
theorem dentryName_name (s : CString) (short : s.bytes.length ≤ fsMaxLen) (type inode : Nat)
    (reserved : Nat → UInt8) :
    (⟨Machine.dentryName s, type, inode, reserved⟩ : Dentry).name = s.bytes := by
  have padded : (List.range fsMaxLen).map (Machine.dentryName s) =
      s.bytes ++ List.replicate (fsMaxLen - s.bytes.length) 0 := by
    refine List.ext_getElem (by simp; omega) fun i below _ => ?_
    have inside : i < fsMaxLen := by simpa using below
    rw [List.getElem_map, List.getElem_range, Machine.dentryName, if_pos inside, CString.at]
    rcases Nat.lt_or_ge i s.bytes.length with front | back
    · rw [List.getElem_append_left front, List.getD_eq_getElem _ _ front]
    · rw [List.getElem_append_right back, List.getElem_replicate, List.getD_eq_default _ _ back]
  have visible : ∀ c ∈ s.bytes, decide (c ≠ 0) = true := fun c mem =>
    decide_eq_true fun zero => s.noNul (zero ▸ mem)
  rw [Dentry.name, padded, List.takeWhile_append_of_pos visible]
  simp

/-- Opening a created file gives a descriptor on its inode. -/
theorem open_created {m : Machine} {name : CString} {curr fd inode index : Nat}
    {reserved : Nat → UInt8} (current : m.getCurrentPcb = some curr)
    (free : Machine.freeFd (m.pcbs curr) = some fd)
    (found : readDentryByName m.fs (some name) =
      some (some (index, ⟨Machine.dentryName name, 2, inode, reserved⟩)))
    (small : inode < 2 ^ 32 - 1) :
    m.open' (some name) = some (m.setFile curr fd ⟨.file, inode, 0, true⟩, (fd : Int)) := by
  have granted : i32 inode ≠ -1 := by
    simp only [i32]
    split_ifs <;> omega
  simp [Machine.open', current, free, found, Machine.fileOpsMap, Machine.opsOpen, granted]

/-- The new entry is the one a search for the name finds. -/
theorem found_created {m : Machine} {name : CString} {curr fd inode : Nat} {reserved : Nat → UInt8}
    {fs : Fs} (picks : Picks m (some name) curr fd inode name)
    (short : name.bytes.length ≤ fsMaxLen)
    (boot : fs.bootBlock = (m.created curr fd inode name reserved).fs.bootBlock) :
    readDentryByName fs (some name) = some (some (m.fs.bootBlock.dentryCount,
      ⟨Machine.dentryName name, 2, inode, reserved⟩)) := by
  have room := picks.room
  have absent := (readDentryByName_none (Nat.le_of_lt room)).1 picks.absent
  have here : fs.bootBlock.dentries m.fs.bootBlock.dentryCount =
      ⟨Machine.dentryName name, 2, inode, reserved⟩ := by
    rw [boot, created_dentries, Function.update_self]
  rw [readDentryByName, ← here]
  refine findDentry_first _ _ (Nat.zero_le _) (by rw [boot, created_dentryCount]; omega) room
    (fun j _ before => ?_) ?_
  · rw [boot, created_dentries, Function.update_of_ne (Nat.ne_of_lt before)]
    exact absent j before
  · rw [here]
    exact dentryName_name name short _ _ _

/-- Closing the file and opening it by its name starts again at position 0. -/
theorem reopened {m : Machine} {name : CString} {curr fd inode pos index : Nat}
    {reserved : Nat → UInt8} (opened : Opened m curr fd inode pos)
    (found : readDentryByName m.fs (some name) =
      some (some (index, ⟨Machine.dentryName name, 2, inode, reserved⟩)))
    (small : inode < 2 ^ 32 - 1) :
    ∃ m₁ m₂, ∃ fd' : Nat, m.close fd = some (m₁, 0) ∧ m₁.open' (some name) = some (m₂, (fd' : Int)) ∧
      m₂.fs = m.fs ∧ Opened m₂ curr fd' inode 0 := by
  have current : (m.setFile curr fd ⟨.file, inode, pos, false⟩).getCurrentPcb = some curr :=
    (getCurrentPcb_congr (setFile_esp ..)).trans opened.current
  obtain ⟨fd', free⟩ := freeFd_of_absent opened.low opened.high
    (congrArg File.present (setFile_file m curr fd ⟨.file, inode, pos, false⟩))
  obtain ⟨low, high, _⟩ := freeFd_some free
  refine ⟨_, _, fd', close_opened opened, open_created current free found small, rfl, ?_⟩
  exact ⟨current, low, high, setFile_file ..⟩

/-! ## The run, on the file system -/

section

variable {m : Machine} {name : CString} {reserved buf : Nat → UInt8}

/-- The round trip, without the calls: `create` is granted, the strings are
appended to its inode, and what they leave is readable and is their
concatenation. -/
structure Written (m : Machine) (name : CString) (reserved : Nat → UInt8)
    (strings : List (List UInt8)) (curr fd inode : Nat) (fs : Fs) : Prop where
  picks : Picks m (some name) curr fd inode name
  appends : Appends inode 0 strings (m.created curr fd inode name reserved).fs fs
  readable : Readable fs inode 0 (strings.map List.length).sum
  content : strings.flatten =
    (List.range (strings.map List.length).sum).map fun p => fs.content inode p

theorem created_size (m : Machine) (curr fd inode : Nat) (s : CString) (reserved : Nat → UInt8) :
    ((m.created curr fd inode s reserved).fs.inodeBlocks inode).fileSize = 0 := by
  simp

/-- The calls of a granted create, up to the second open. -/
theorem calls_of_appends {strings : List (List UInt8)} {curr fd inode : Nat} {fs : Fs} {m₂ : Machine}
    (short : name.bytes.length ≤ fsMaxLen) (nonempty : ∀ s ∈ strings, 0 < s.length)
    (picks : Picks m (some name) curr fd inode name)
    (appends : Appends inode 0 strings (m.created curr fd inode name reserved).fs fs)
    (same : m₂.fs = fs) (opened : Opened m₂ curr fd inode (0 + (strings.map List.length).sum)) :
    ∃ m₃ m₄, ∃ fd' : Nat, m₂.close fd = some (m₃, 0) ∧ m₃.open' (some name) = some (m₄, (fd' : Int)) ∧
      m₄.fs = fs ∧ Opened m₄ curr fd' inode 0 ∧ inode < m₄.fs.bootBlock.inodeCount ∧
      (m₄.fs.inodeBlocks inode).fileSize = 0 + (strings.map List.length).sum := by
  obtain ⟨seq, _⟩ := appends_slots strings (created_size ..) nonempty appends
  have below := findFreeInode_lt picks.found picks.granted
  have small : inode < 2 ^ 32 - 1 := by
    have bound := m.fs.bootBlock.inodeCount_lt
    have granted := picks.granted
    omega
  subst same
  obtain ⟨m₃, m₄, fd', closed, reopen, same, again⟩ :=
    reopened opened (found_created picks short seq.bootBlock) small
  refine ⟨m₃, m₄, fd', closed, reopen, same, again, ?_, ?_⟩
  · rw [same, seq.bootBlock]
    exact below
  · rw [same, seq.size]

theorem roundTrip_iff_written {strings : List (List UInt8)} {chunk : Nat → Nat}
    (short : name.bytes.length ≤ fsMaxLen) (nonempty : ∀ s ∈ strings, 0 < s.length)
    (total : (strings.map List.length).sum ≤ fsBlockSize * blockSlots)
    (positive : ∀ i, 0 < chunk i) :
    RoundTrip m name reserved buf strings chunk ↔
      ∃ curr fd inode fs, Written m name reserved strings curr fd inode fs := by
  have word : 0 + (strings.map List.length).sum < 2 ^ 31 := by
    simp only [fsBlockSize, blockSlots] at total
    omega
  have unsigned : 0 + (strings.map List.length).sum < 2 ^ 32 := Nat.lt_trans word (by decide)
  have drains : ∀ {m₄ : Machine} {curr fd' inode : Nat}, Opened m₄ curr fd' inode 0 →
      inode < m₄.fs.bootBlock.inodeCount →
      (m₄.fs.inodeBlocks inode).fileSize = 0 + (strings.map List.length).sum →
      (Drained fd' buf m₄ chunk strings.flatten ↔
        Readable m₄.fs inode 0 (strings.map List.length).sum ∧ strings.flatten =
          (List.range (strings.map List.length).sum).map fun p => m₄.fs.content inode p) := by
    intro m₄ curr fd' inode again below size
    have iff := @drained_iff curr fd' inode buf _ 0 m₄ chunk strings.flatten again below
      (size ▸ word) size positive
    simpa only [Nat.zero_add] using iff
  constructor
  · rintro ⟨m₁, m₂, m₃, m₄, fd, fd', made, granted, wrote, closed, reopen, _, drained⟩
    rcases create_some made with ⟨_, refused⟩ | ⟨curr, fd, inode, s, picks, rfl, rfl⟩
    · exact absurd refused granted
    obtain rfl : name = s := Option.some.inj picks.named
    obtain ⟨appends, opened⟩ :=
      appends_of_writesAll strings (opened_created picks reserved) unsigned wrote
    obtain ⟨_, _, fd'', closed', reopen', same, again, below, size⟩ :=
      calls_of_appends short nonempty picks appends rfl opened
    obtain ⟨rfl, _⟩ := Prod.mk.inj (Option.some.inj (closed.symm.trans closed'))
    obtain ⟨rfl, rfl⟩ := Prod.mk.inj (Option.some.inj (reopen.symm.trans reopen'))
    obtain ⟨readable, content⟩ := (drains again below size).1 drained
    rw [same] at readable content
    exact ⟨curr, fd, inode, _, picks, appends, readable, content⟩
  · rintro ⟨curr, fd, inode, fs, picks, appends, readable, content⟩
    obtain ⟨m₂, wrote, same, opened⟩ :=
      writesAll_of_appends strings (opened_created picks reserved) unsigned appends
    obtain ⟨m₃, m₄, fd', closed, reopen, same', again, below, size⟩ :=
      calls_of_appends short nonempty picks appends same opened
    rw [← same'] at readable content
    exact ⟨_, m₂, m₃, m₄, fd, fd', create_of_picks reserved picks, by omega, wrote, closed, reopen,
      by omega, (drains again below size).2 ⟨readable, content⟩⟩

end

/-! ## Which lengths come back -/

/-- The strings of these lengths that make up a byte sequence. -/
def carve : List Nat → (Nat → UInt8) → List (List UInt8)
  | [], _ => []
  | len :: lens, data => (List.range len).map data :: carve lens fun i => data (len + i)

theorem carve_lengths (lens : List Nat) : ∀ data, (carve lens data).map List.length = lens := by
  induction lens with
  | nil => intro _; rfl
  | cons len lens ih => intro data; simp [carve, ih]

theorem carve_flatten (lens : List Nat) :
    ∀ data, (carve lens data).flatten = (List.range lens.sum).map data := by
  induction lens with
  | nil => intro _; rfl
  | cons len lens ih =>
      intro data
      rw [carve, List.flatten_cons, ih, List.sum_cons]
      exact (firsts_add data len lens.sum).symm

section

variable {m : Machine} {name : CString} {reserved buf : Nat → UInt8} {lens : List Nat}

theorem nonempty_of_lengths {strings : List (List UInt8)} (positive : ∀ len ∈ lens, 0 < len)
    (lengths : strings.map List.length = lens) : ∀ s ∈ strings, 0 < s.length :=
  fun s mem => positive s.length (lengths ▸ List.mem_map_of_mem mem)

/-- What is written is a function of the lengths, but for the bytes. -/
theorem Picks.unique {fileName : Option CString} {curr fd inode curr' fd' inode' : Nat}
    {s s' : CString} (picks : Picks m fileName curr fd inode s)
    (picks' : Picks m fileName curr' fd' inode' s') : curr' = curr ∧ fd' = fd ∧ inode' = inode := by
  obtain rfl := Option.some.inj (picks'.current.symm.trans picks.current)
  exact ⟨rfl, Option.some.inj (picks'.free.symm.trans picks.free),
    Option.some.inj (picks'.found.symm.trans picks.found)⟩

theorem created_placed (name : CString) (reserved : Nat → UInt8) (curr fd : Nat) {inode : Nat} :
    Placed (m.created curr fd inode name reserved).fs inode 0 lens ↔ Placed m.fs inode 0 lens := by
  have slots : ((m.created curr fd inode name reserved).fs.inodeBlocks inode).dataBlocks =
      (m.fs.inodeBlocks inode).dataBlocks := by
    simp
  constructor <;> rintro ⟨crossings, own⟩
  · exact ⟨crossings, slots ▸ own⟩
  · exact ⟨crossings, slots.symm ▸ own⟩

/-- The slot of each piece of what is written. -/
theorem Written.slots {strings : List (List UInt8)} {curr fd inode : Nat} {fs : Fs}
    (written : Written m name reserved strings curr fd inode fs)
    (nonempty : ∀ s ∈ strings, 0 < s.length) :
    (fs.inodeBlocks inode).dataBlocks = laidOut ((findFreeDatablock m.fs).getD 0)
      (m.fs.inodeBlocks inode).dataBlocks 0 (strings.map List.length) := by
  obtain ⟨seq, _⟩ := appends_slots strings (created_size ..) nonempty written.appends
  rw [seq.slots]
  simp [findFreeDatablock]

theorem Written.layout {data : Nat → UInt8} {curr fd inode : Nat} {fs : Fs}
    (written : Written m name reserved (carve lens data) curr fd inode fs)
    (positive : ∀ len ∈ lens, 0 < len) :
    (fs.inodeBlocks inode).dataBlocks = laidOut ((findFreeDatablock m.fs).getD 0)
      (m.fs.inodeBlocks inode).dataBlocks 0 lens := by
  rw [written.slots (nonempty_of_lengths positive (carve_lengths lens data)), carve_lengths]

theorem Written.back {data : Nat → UInt8} {curr fd inode : Nat} {fs : Fs}
    (written : Written m name reserved (carve lens data) curr fd inode fs) {p : Nat}
    (below : p < lens.sum) : fs.content inode p = data p := by
  have content := written.content
  rw [carve_flatten, carve_lengths] at content
  exact (List.map_inj_left.1 content p (List.mem_range.2 below)).symm

/-- Two pieces in one block come back with one first byte. -/
theorem Written.shared {data : Nat → UInt8} {curr fd inode k k' : Nat} {fs : Fs}
    (written : Written m name reserved (carve lens data) curr fd inode fs)
    (positive : ∀ len ∈ lens, 0 < len) (below : fsBlockSize * k < lens.sum)
    (below' : fsBlockSize * k' < lens.sum)
    (shared : laidOut ((findFreeDatablock m.fs).getD 0) (m.fs.inodeBlocks inode).dataBlocks 0 lens k =
      laidOut ((findFreeDatablock m.fs).getD 0) (m.fs.inodeBlocks inode).dataBlocks 0 lens k') :
    data (fsBlockSize * k) = data (fsBlockSize * k') := by
  rw [← written.back below, ← written.back below']
  simp only [Fs.content, Nat.mul_div_cancel_left _ (show 0 < fsBlockSize by decide),
    Nat.mul_mod_right, written.layout positive, shared]

/-- If every byte sequence comes back, no two pieces have the same block: one of
them could be told from the other by its first byte. -/
theorem placed_of_written {curr fd inode : Nat} (positive : ∀ len ∈ lens, 0 < len)
    (all : ∀ data, ∃ fs, Written m name reserved (carve lens data) curr fd inode fs) :
    Placed m.fs inode 0 lens := by
  obtain ⟨fs, here⟩ := all fun _ => 0
  obtain ⟨seq, crossings⟩ := appends_slots _ (created_size ..)
    (nonempty_of_lengths positive (carve_lengths lens _)) here.appends
  rw [carve_lengths] at crossings
  refine ⟨crossings, ⟨fun k below => ?_, fun k k' below below' shared => ?_⟩⟩
  · rw [Nat.zero_add] at below
    have readable := here.readable
    rw [carve_lengths] at readable
    have inRange := (readable (fsBlockSize * k) (Nat.zero_le _) (by omega)).2
    rwa [Nat.mul_div_cancel_left _ (by decide), seq.bootBlock, here.layout positive] at inRange
  · by_contra differ
    rw [Nat.zero_add] at below below'
    obtain ⟨fs', marked⟩ := all fun p => if p = fsBlockSize * k then 1 else 0
    have other : fsBlockSize * k' ≠ fsBlockSize * k := by
      simp only [fsBlockSize]
      omega
    have same := marked.shared positive below below' shared
    simp only [if_true, other, if_false] at same
    exact absurd same (by decide)

/-- Placed writes leave a readable file, whatever the strings. -/
theorem written_of_placed {strings : List (List UInt8)} {curr fd inode : Nat}
    (picks : Picks m (some name) curr fd inode name) (nonempty : ∀ s ∈ strings, 0 < s.length)
    (total : (strings.map List.length).sum ≤ fsBlockSize * blockSlots)
    (placed : Placed m.fs inode 0 (strings.map List.length)) :
    ∃ fs, Written m name reserved strings curr fd inode fs := by
  have placed' := (created_placed name reserved curr fd).2 placed
  obtain ⟨fs, appends, _, content⟩ := appends_of_placed strings
    (show inode < (m.created curr fd inode name reserved).fs.bootBlock.inodeCount from
      findFreeInode_lt picks.found picks.granted)
    (created_size ..) nonempty (by omega) placed'
  obtain ⟨seq, _⟩ := appends_slots strings (created_size ..) nonempty appends
  refine ⟨fs, picks, appends, fun p _ high => ?_, ?_⟩
  · have piece : fsBlockSize * (p / fsBlockSize) < 0 + (strings.map List.length).sum :=
      Nat.lt_of_le_of_lt (Nat.mul_div_le _ _) high
    refine ⟨?_, ?_⟩
    · simp only [fsBlockSize, blockSlots] at total high ⊢
      omega
    · rw [seq.slots, seq.bootBlock]
      exact placed'.own.inRange _ piece
  · have length : strings.flatten.length = (strings.map List.length).sum := List.length_flatten
    refine List.ext_getElem (by simp [length]) fun p inside _ => ?_
    rw [List.getElem_map, List.getElem_range, ← List.getD_eq_getElem _ 0 inside]
    have byte := content p (length ▸ inside)
    rw [Nat.zero_add] at byte
    exact byte.symm

/-- The round trip holds for all strings of the given lengths and all chunks
exactly when `create` is granted and the writes give each 4096-byte piece of the
file a block of its own. -/
theorem roundTrip_iff_placed (short : name.bytes.length ≤ fsMaxLen)
    (positive : ∀ len ∈ lens, 0 < len) (total : lens.sum ≤ fsBlockSize * blockSlots) :
    (∀ strings chunk, strings.map List.length = lens → (∀ i, 0 < chunk i ∧ chunk i < 2 ^ 31) →
      RoundTrip m name reserved buf strings chunk) ↔
      ∃ curr fd inode, Picks m (some name) curr fd inode name ∧ Placed m.fs inode 0 lens := by
  constructor
  · intro all
    have written : ∀ data, ∃ curr fd inode fs,
        Written m name reserved (carve lens data) curr fd inode fs := fun data =>
      (roundTrip_iff_written short (nonempty_of_lengths positive (carve_lengths lens data))
        (by rw [carve_lengths]; exact total) (fun _ => Nat.one_pos)).1
        (all (carve lens data) (fun _ => 1) (carve_lengths lens data)
          fun _ => ⟨Nat.one_pos, by decide⟩)
    obtain ⟨curr, fd, inode, fs, here⟩ := written fun _ => 0
    have same : ∀ data, ∃ fs, Written m name reserved (carve lens data) curr fd inode fs := by
      intro data
      obtain ⟨curr', fd', inode', fs', there⟩ := written data
      obtain ⟨rfl, rfl, rfl⟩ := here.picks.unique there.picks
      exact ⟨fs', there⟩
    exact ⟨curr, fd, inode, here.picks, placed_of_written positive same⟩
  · rintro ⟨curr, fd, inode, picks, placed⟩ strings chunk lengths chunks
    have nonempty := nonempty_of_lengths positive lengths
    subst lengths
    exact (roundTrip_iff_written short nonempty total fun i => (chunks i).1).2
      ⟨curr, fd, inode, written_of_placed picks nonempty total placed⟩

end

/-- The block list of an inode is all zeros. -/
def Unallocated (fs : Fs) (inode : Nat) : Prop := ∀ k, k < blockSlots → slotBlock fs inode k = 0

/-- **Which files come back.** For all strings of the given lengths and all
chunks, the round trip holds exactly when `create` is granted an inode and: the
inode has no block and the file fits in one; or the inode has some, and the
writes give each 4096-byte piece a block of its own. -/
theorem round_trip_iff (m : Machine) (name : CString) (reserved buf : Nat → UInt8) (lens : List Nat)
    (short : name.bytes.length ≤ fsMaxLen) (positive : ∀ len ∈ lens, 0 < len)
    (total : lens.sum ≤ fsBlockSize * blockSlots) (block : 0 < m.fs.bootBlock.dataBlockCount) :
    (∀ strings chunk, strings.map List.length = lens → (∀ i, 0 < chunk i ∧ chunk i < 2 ^ 31) →
      RoundTrip m name reserved buf strings chunk) ↔
      ∃ curr fd inode, Picks m (some name) curr fd inode name ∧
        (Unallocated m.fs inode ∧ lens.sum ≤ fsBlockSize ∨
          ¬Unallocated m.fs inode ∧ Placed m.fs inode 0 lens) := by
  rw [roundTrip_iff_placed short positive total]
  refine exists_congr fun curr => exists_congr fun fd => exists_congr fun inode =>
    and_congr_right fun _ => ?_
  by_cases fresh : Unallocated m.fs inode
  · simp [fresh, placed_fresh fresh positive total block]
  · simp [fresh]

/-! ## A file of one block, and one byte more -/

/-- Process 3 on an empty file system. -/
def emptyBy3 : Machine := (createBy3 nameA).enter (Machine.mounted Fs.empty)

theorem emptyBy3_picks : Picks emptyBy3 (some nameA) 3 2 1 nameA :=
  ⟨⟨getCurrentPcb_of_onStack (show OnStack 3 0x7F9F00 by decide), by decide, rfl, by decide,
    by decide, rfl⟩, by decide⟩

theorem round_trip_one_block : RoundTrip emptyBy3 nameA (fun _ => 0) (fun _ => 0)
    [List.replicate 4000 1, List.replicate 96 2] fun _ => 1000 :=
  (round_trip_iff emptyBy3 nameA (fun _ => 0) (fun _ => 0) [4000, 96] (by decide) (by decide)
    (by decide) (by decide)).2 ⟨3, 2, 1, emptyBy3_picks, Or.inl ⟨fun _ _ => rfl, by decide⟩⟩
    [List.replicate 4000 1, List.replicate 96 2] (fun _ => 1000)
    (by simp only [List.map_cons, List.map_nil, List.length_replicate])
    fun _ => ⟨by decide, by decide⟩

/-- Block lists in range, no block in two used slots, unused slots zero. -/
structure WellFormed (fs : Fs) : Prop where
  inRange : ∀ n k, n < fs.bootBlock.inodeCount → k < blockSlots →
    slotBlock fs n k < fs.bootBlock.dataBlockCount
  isolated : Isolated fs
  unused : ∀ n k, n < fs.bootBlock.inodeCount → k < blockSlots →
    (∀ i, Live fs.bootBlock i n → ¬UsedSlot fs n k) → slotBlock fs n k = 0

theorem carve_marked (n : Nat) : (carve [n + 1] fun p => if p = 0 then 1 else 0) =
    [1 :: List.replicate n 0] := by
  have zeros : (List.range n).map ((fun p => if p = 0 then (1 : UInt8) else 0) ∘ Nat.succ) =
      List.replicate n 0 := by
    simp [Function.comp_def, List.map_const']
  rw [carve, carve, List.range_succ_eq_map, List.map_cons, List.map_map, zeros]
  rfl

/-- One write of 4097 bytes, of which the first is 1: it takes block 1 for both
pieces, so the last byte is where the first one was. -/
theorem one_byte_more_lost : WellFormed emptyBy3.fs ∧
    ¬RoundTrip emptyBy3 nameA (fun _ => 0) (fun _ => 0) [1 :: List.replicate 4096 0]
      fun _ => 4096 := by
  refine ⟨⟨fun _ _ _ _ => (by decide : 0 < 63), empty_isolated, fun _ _ _ _ _ => rfl⟩,
    fun trip => ?_⟩
  rw [← carve_marked] at trip
  have positive : ∀ len ∈ [4097], 0 < len := by decide
  obtain ⟨curr, fd, inode, fs, written⟩ := (roundTrip_iff_written (by decide)
    (nonempty_of_lengths positive (carve_lengths _ _))
    (by rw [carve_lengths]; decide) fun _ => by decide).1 trip
  obtain ⟨rfl, rfl, rfl⟩ := emptyBy3_picks.unique written.picks
  have same := written.shared positive (show fsBlockSize * 0 < 4097 by decide)
    (show fsBlockSize * 1 < 4097 by decide) (by decide)
  exact absurd same (by decide)

end Illinix.Kernel
