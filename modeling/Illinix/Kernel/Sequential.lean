/-
# Kernel.Sequential -- reading a regular file through one descriptor

What a descriptor of a regular file delivers from its `open` on is the file from
its beginning, piece by piece: the bytes of all reads so far, one after the other,
are the first `file_pos` bytes of the content.  The run is any run in which
nobody writes to the file system and the descriptor stays open; other processes
and other descriptors, of the same file too, may read in between.

`readerStep` is a step of the system that also collects what the descriptor has
delivered.  `sequential_reads` is the result, with the return value of each read.
-/
import Illinix.Kernel.RoundTrip
import Illinix.Kernel.Descriptors

namespace Illinix.Kernel

open Illinix.FileSys Illinix.Theory Machine

set_option autoImplicit false

/-! ## Collecting what is read -/

/-- The bytes a read of descriptor `fd` by process `p` returns; nothing for any
other event. -/
def delivered (p fd : Nat) (m : Machine) : SystemEvent → List UInt8
  | .call ebp (.read fd' buf count) =>
      if (m.entered ebp).getCurrentPcb = some p ∧ fd' = fd then
        match (m.entered ebp).read fd' buf count with
        | some (_, .returned value (some got)) => (List.range value.toNat).map got
        | _ => []
      else []
  | _ => []

/-- A step of the system, with the bytes descriptor `fd` of process `p` has
delivered so far. -/
def readerStep (p fd : Nat) (s : Machine × List UInt8) (e : SystemEvent) :
    Option (Machine × List UInt8) :=
  (systemStep s.1 e).map fun m' => (m', s.2 ++ delivered p fd s.1 e)

/-- The event is a call that writes to the file system. -/
inductive WritesFiles (m : Machine) : SystemEvent → Prop where
  | create (ebp : Nat) (fileName : Option CString) (reserved : Nat → UInt8) :
      WritesFiles m (.call ebp (.file (.create fileName reserved)))
  | delete (ebp : Nat) (fileName : Option CString) :
      WritesFiles m (.call ebp (.file (.delete fileName)))
  | write {ebp q : Nat} {fd : Int} (buf : Option (Nat → UInt8)) (count : Nat)
      (current : (m.entered ebp).getCurrentPcb = some q)
      (file : ((m.pcbs q).files fd.toNat).ops = .file) :
      WritesFiles m (.call ebp (.file (.write fd buf count)))

/-- The step writes no file and leaves descriptor `fd` of process `p` open. -/
def Quiet (p fd : Nat) (s : Machine × List UInt8) (e : SystemEvent) (s' : Machine × List UInt8) :
    Prop :=
  ¬WritesFiles s.1 e ∧ ((s'.1.pcbs p).files fd).present = true

/-- The regular files of the directory have all their blocks. -/
def Stored (fs : Fs) : Prop :=
  ∀ i n, Live fs.bootBlock i n → n < fs.bootBlock.inodeCount ∧
    (fs.inodeBlocks n).fileSize ≤ fsBlockSize * blockSlots ∧
    ∀ k, UsedSlot fs n k → slotBlock fs n k < fs.bootBlock.dataBlockCount

/-- The first `pos` bytes of a file. -/
def Fs.firstBytes (fs : Fs) (inode pos : Nat) : List UInt8 :=
  (List.range pos).map (fs.content inode)

/-- What descriptor `fd` of process `p` has delivered is the file up to its
position. -/
structure DeliversPrefix (p fd : Nat) (fs : Fs) (inode : Nat) (s : Machine × List UInt8) : Prop where
  inside : ((s.1.pcbs p).files fd).filePos ≤ (fs.inodeBlocks inode).fileSize
  bytes : s.2 = Fs.firstBytes fs inode ((s.1.pcbs p).files fd).filePos

/-- The file is delivered up to the position before and after the step; a read of
the descriptor returns, and it returns 0 exactly when the whole file has been
delivered, which then stays so. -/
structure Sequential (p fd : Nat) (fs : Fs) (inode : Nat) (s : Machine × List UInt8)
    (e : SystemEvent) : Prop where
  before : DeliversPrefix p fd fs inode s
  after : ∀ s', readerStep p fd s e = some s' → DeliversPrefix p fd fs inode s'
  reads : ∀ ebp buf count, e = .call ebp (.read fd (some buf) count) → s.1.Frame ebp →
    (s.1.entered ebp).getCurrentPcb = some p → 0 < count →
    ∃ m' k got, e.run s.1 = some (m', .reading (.returned (k : Nat) (some got))) ∧ k ≤ count ∧
      (k = 0 ↔ s.2.length = (fs.inodeBlocks inode).fileSize)
  whole : s.2.length = (fs.inodeBlocks inode).fileSize → ∀ s', readerStep p fd s e = some s' →
    s'.2.length = (fs.inodeBlocks inode).fileSize

section

variable {m m' : Machine} {p fd inode pos : Nat} {e : SystemEvent}

/-! ## The steps that are not reads of the descriptor -/

theorem fs_kept (quiet : ¬WritesFiles m e) (step : systemStep m e = some m') : m'.fs = m.fs := by
  rcases fs_or_fileCall step with same | ⟨ebp, call, v, rfl, made⟩
  · exact same
  · cases call with
    | create fileName reserved => exact absurd (.create ..) quiet
    | delete fileName => exact absurd (.delete ..) quiet
    | open' fileName => exact open_fs (m := m.entered ebp) made
    | close fd => exact close_fs (m := m.entered ebp) made
    | write fd buf count =>
        rcases write_some made with same | ⟨q, writes, _⟩
        · exact same
        · exact absurd (.write buf count writes.current writes.regular) quiet

/-- The event reads descriptor `fd` of process `p`. -/
def ReadsFd (p fd : Nat) (m : Machine) (e : SystemEvent) : Prop :=
  ∃ ebp buf count, e = .call ebp (.read fd buf count) ∧ (m.entered ebp).getCurrentPcb = some p

/-- A kernel call closes a descriptor or leaves it as it is. -/
theorem kernel_keepsFile {call : KernelCall} {ended : Ended} (low : 2 ≤ fd)
    (ran : call.run m = some (m', ended)) (still : ((m'.pcbs p).files fd).present = true) :
    (m'.pcbs p).files fd = (m.pcbs p).files fd := by
  refine kernel_invariant (fun n => ((n.pcbs p).files fd).present = true →
    (n.pcbs p).files fd = (m.pcbs p).files fd) ?_ ?_ ?_ ran (fun _ => rfl) still
  · intro n n' same _ kept
    rw [same.files]
    exact kept
  · intro n pid parent _ kept present
    rw [launched_files] at present ⊢
    split_ifs at present ⊢
    · simp only [startFiles] at present
      rw [if_neg (by omega), if_neg (by omega)] at present
      cases present
    · exact kept present
  · intro n q _ kept present
    rw [givenUp_files] at present ⊢
    split_ifs at present ⊢
    · simp only [closeEach] at present ⊢
      split_ifs at present ⊢
      exact kept present
    · exact kept present

/-- **A regular file's descriptor stays as it is** while it is open, but for reads
of it. -/
theorem keepsFile (low : 2 ≤ fd)
    (file : ((m.pcbs p).files fd).ops = .file) (quiet : ¬WritesFiles m e)
    (present : ((m.pcbs p).files fd).present = true)
    (still : ((m'.pcbs p).files fd).present = true) (other : ¬ReadsFd p fd m e)
    (step : systemStep m e = some m') : (m'.pcbs p).files fd = (m.pcbs p).files fd := by
  obtain ⟨outcome, ran⟩ := ran_of_step step
  cases ran with
  | iret => rfl
  | @kernel ebp _ _ _ _ made => exact kernel_keepsFile (m := m.entered ebp) low made still
  | @rtcHandler ebp _ =>
      rw [(rtcHandler_devices (m.entered ebp)).files]
      rfl
  | @read ebp fd' buf count _ _ _ made =>
      obtain ⟨q, current, _⟩ := read_some made
      refine read_othersKept current made p fd fun here => other ?_
      obtain ⟨rfl, rfl⟩ := here
      exact ⟨ebp, buf, count, rfl, current⟩
  | @resume ebp fd' _ _ _ _ _ made =>
      obtain ⟨q, after, reading, current, polled, _⟩ := resume_some made
      refine resume_othersKept current made p fd fun here => ?_
      -- a read of a regular file does not block
      obtain ⟨rfl, same⟩ := here
      have same : fd = fd'.toNat := by omega
      have file' : (((m.entered ebp).pcbs p).files fd'.toNat).ops = .file := same ▸ file
      simp [opsPoll, file'] at polled
  | @file ebp call _ v _ made =>
      cases call with
      | create fileName reserved => exact absurd (.create ..) quiet
      | delete fileName => exact absurd (.delete ..) quiet
      | open' fileName =>
          rcases open_some made with ⟨_, _, _, rfl, _⟩ | ⟨q, new, index, den, ops, opens, _, rfl⟩
          · rfl
          · rw [setFile_files, openedDevice_files]
            rw [if_neg]
            · rfl
            · rintro ⟨rfl, rfl⟩
              have absent := (freeFd_some opens.free).2.2
              exact Bool.false_ne_true (absent.symm.trans present)
      | close fd' =>
          rcases close_cases made with ⟨_, rfl, _⟩ | ⟨q, closes, rfl, _⟩
          · rfl
          · simp only [Machine.closed] at still ⊢
            rw [setFile_files, closedDevice_files] at still ⊢
            split_ifs at still ⊢
            rfl
      | write fd' buf count =>
          obtain ⟨q, current, _⟩ := write_inv made
          refine write_othersKept current made p fd fun here => quiet ?_
          obtain ⟨rfl, rfl⟩ := here
          exact .write buf count current file

theorem delivered_of_other (other : ¬ReadsFd p fd m e) : delivered p fd m e = [] := by
  cases e with
  | iret => rfl
  | call ebp body =>
      cases body with
      | read fd' buf count =>
          refine if_neg fun here => other ?_
          obtain ⟨current, rfl⟩ := here
          exact ⟨ebp, buf, count, rfl, current⟩
      | kernel call => rfl
      | file call => rfl
      | resume fd buf count => rfl
      | rtcHandler => rfl

/-! ## The reads of the descriptor -/

section

variable {ebp count : Nat} {buf : Option (Nat → UInt8)}

theorem delivered_of_read {value : Int} {got : Nat → UInt8}
    (current : (m.entered ebp).getCurrentPcb = some p)
    (ran : (m.entered ebp).read fd buf count = some (m', .returned value (some got))) :
    delivered p fd m (.call ebp (.read fd buf count)) = (List.range value.toNat).map got := by
  refine (if_pos ⟨current, rfl⟩).trans ?_
  rw [ran]

theorem delivered_of_refused {buf' : Option (Nat → UInt8)}
    (current : (m.entered ebp).getCurrentPcb = some p)
    (ran : (m.entered ebp).read fd buf count = some (m', .returned (-1) buf')) :
    delivered p fd m (.call ebp (.read fd buf count)) = [] := by
  refine (if_pos ⟨current, rfl⟩).trans ?_
  rw [ran]
  cases buf' <;> rfl

end

/-- A read without a buffer, or of no bytes, does nothing. -/
theorem read_refused (opened : Opened m p fd inode pos) {buf : Option (Nat → UInt8)} {count : Nat}
    (nothing : buf = none ∨ count = 0) : m.read fd buf count = some (m, .returned (-1) buf) := by
  have file := opened.file
  have usable := opened.usable (Nat.zero_le 2)
  have data : readData m.fs inode pos buf count = some (-1, buf) := by
    rcases nothing with rfl | rfl
    · rfl
    · cases buf with
      | none => rfl
      | some buf => simp [readData]
  simp [Machine.read, opened.current, usable, opsRead, fileRead, file, data, advance]

/-- **One read** delivers the next bytes, as many as asked for or there are. -/
theorem read_next (opened : Opened m p fd inode pos) (buf : Nat → UInt8) {count : Nat}
    (valid : inode < m.fs.bootBlock.inodeCount) (some' : 0 < count)
    (inside : pos ≤ (m.fs.inodeBlocks inode).fileSize)
    (short : (m.fs.inodeBlocks inode).fileSize < 2 ^ 31)
    (readable : Readable m.fs inode 0 (m.fs.inodeBlocks inode).fileSize) :
    m.read fd (some buf) count =
      some (m.setFile p fd ⟨.file, inode,
          pos + min ((m.fs.inodeBlocks inode).fileSize - pos) count, true⟩,
        .returned ((min ((m.fs.inodeBlocks inode).fileSize - pos) count : Nat) : Int)
          (some (blit buf 0 (fun i => m.fs.content inode (pos + i))
            (min ((m.fs.inodeBlocks inode).fileSize - pos) count)))) := by
  rcases Nat.eq_or_lt_of_le inside with ended | more
  · have accepted : ¬(count = 0 ∨ m.fs.bootBlock.inodeCount ≤ inode) := by omega
    have nothing : min ((m.fs.inodeBlocks inode).fileSize - pos) count = 0 := by omega
    have still : u32 pos = pos := u32_of_lt (by omega)
    rw [read_opened opened, nothing]
    simp only [readData, accepted, if_false, ended, le_refl, if_true, Option.map_some, blit_zero]
    rw [← ended]
    have moved := advance_returned m p fd 0 (some buf)
    rw [opened.file, Nat.add_zero] at moved
    dsimp only at moved
    rw [still] at moved
    exact congrArg some moved
  · refine (read_more buf opened valid some' more short _).2 ⟨fun q low high => ?_, rfl⟩
    exact readable q (Nat.zero_le q) (by omega)

theorem firstBytes_add (fs : Fs) (inode pos k : Nat) : Fs.firstBytes fs inode (pos + k) =
    Fs.firstBytes fs inode pos ++ (List.range k).map fun i => fs.content inode (pos + i) :=
  firsts_add (fs.content inode) pos k

theorem firstBytes_length (fs : Fs) (inode pos : Nat) :
    (Fs.firstBytes fs inode pos).length = pos := firsts_length (fs.content inode) pos

/-! ## Steps -/

/-- Where a reader is. -/
structure ReaderAt (p fd : Nat) (fs : Fs) (inode : Nat) (s : Machine × List UInt8) (pos : Nat) :
    Prop where
  low : 2 ≤ fd
  high : fd < fileCount
  same : s.1.fs = fs
  file : (s.1.pcbs p).files fd = ⟨.file, inode, pos, true⟩
  inside : pos ≤ (fs.inodeBlocks inode).fileSize
  bytes : s.2 = Fs.firstBytes fs inode pos

end

section

variable {p fd inode pos : Nat} {fs : Fs} {s s' : Machine × List UInt8} {e : SystemEvent}

theorem ReaderAt.delivers (at' : ReaderAt p fd fs inode s pos) : DeliversPrefix p fd fs inode s := by
  have file := at'.file
  constructor
  · rw [file]
    exact at'.inside
  · rw [file]
    exact at'.bytes

theorem ReaderAt.opened (at' : ReaderAt p fd fs inode s pos) {ebp : Nat}
    (current : (s.1.entered ebp).getCurrentPcb = some p) :
    Opened (s.1.entered ebp) p fd inode pos :=
  ⟨current, at'.low, at'.high, at'.file⟩

variable (valid : inode < fs.bootBlock.inodeCount) (short : (fs.inodeBlocks inode).fileSize < 2 ^ 31)
  (readable : Readable fs inode 0 (fs.inodeBlocks inode).fileSize)

include valid short readable

/-- The read of the reader, with all it returns. -/
theorem ReaderAt.read (at' : ReaderAt p fd fs inode s pos) {ebp count : Nat} (buf : Nat → UInt8)
    (current : (s.1.entered ebp).getCurrentPcb = some p) (some' : 0 < count) :
    (s.1.entered ebp).read fd (some buf) count =
      some ((s.1.entered ebp).setFile p fd ⟨.file, inode,
          pos + min ((fs.inodeBlocks inode).fileSize - pos) count, true⟩,
        .returned ((min ((fs.inodeBlocks inode).fileSize - pos) count : Nat) : Int)
          (some (blit buf 0 (fun i => fs.content inode (pos + i))
            (min ((fs.inodeBlocks inode).fileSize - pos) count)))) := by
  have same : (s.1.entered ebp).fs = fs := at'.same
  have next := read_next (at'.opened current) buf (by rwa [same]) some' (by rw [same]; exact at'.inside)
    (by rwa [same]) (by rwa [same])
  rwa [same] at next

/-- **A step takes the reader on**, or leaves it where it is. -/
theorem ReaderAt.step (at' : ReaderAt p fd fs inode s pos) (quiet : Quiet p fd s e s')
    (step : readerStep p fd s e = some s') :
    ∃ k, ReaderAt p fd fs inode s' (pos + k) := by
  obtain ⟨m', stepped, rfl⟩ := Option.map_eq_some_iff.1 step
  obtain ⟨silent, present⟩ := quiet
  have file := at'.file
  have kept := (fs_kept silent stepped).trans at'.same
  by_cases reads : ReadsFd p fd s.1 e
  · obtain ⟨ebp, buf, count, rfl, current⟩ := reads
    obtain ⟨_, outcome, ran⟩ := systemStep_call.1 stepped
    obtain ⟨⟨mid, r⟩, made, same⟩ := Option.map_eq_some_iff.1 ran
    cases same
    have answered : (buf = none ∨ count = 0) ∨ ∃ b, buf = some b ∧ 0 < count := by
      cases buf with
      | none => exact Or.inl (Or.inl rfl)
      | some b => exact (Nat.eq_zero_or_pos count).imp Or.inr fun some' => ⟨b, rfl, some'⟩
    rcases answered with refused | ⟨b, rfl, some'⟩
    · have none' := read_refused (at'.opened current) refused
      cases made.symm.trans none'
      refine ⟨0, at'.low, at'.high, kept, file, at'.inside, ?_⟩
      rw [delivered_of_refused current made, List.append_nil]
      exact at'.bytes
    · have next := at'.read valid short readable b current some'
      cases made.symm.trans next
      have inside := at'.inside
      refine ⟨_, at'.low, at'.high, kept, setFile_file .., ?_, ?_⟩
      · omega
      · rw [delivered_of_read current made, firstBytes_add, at'.bytes]
        rw [Int.toNat_natCast]
        refine congrArg (_ ++ ·) (List.map_congr_left fun i mem => ?_)
        rw [blit_inside _ _ (Nat.zero_le i) (by simpa using mem), Nat.sub_zero]
  · have nothing := delivered_of_other reads
    refine ⟨0, at'.low, at'.high, kept, ?_, at'.inside, ?_⟩
    · rw [Nat.add_zero, ← file]
      exact keepsFile at'.low (by rw [file]) silent (by rw [file]) present reads stepped
    · rw [nothing, List.append_nil, Nat.add_zero]
      exact at'.bytes

/-- What holds of a reader before, in and after each step. -/
theorem ReaderAt.sequential (at' : ReaderAt p fd fs inode s pos)
    (quiet : ∀ s', readerStep p fd s e = some s' → Quiet p fd s e s') :
    Sequential p fd fs inode s e := by
  have length : s.2.length = pos := by rw [at'.bytes, firstBytes_length]
  constructor
  · exact at'.delivers
  · intro s' step
    obtain ⟨k, next⟩ := at'.step valid short readable (quiet s' step) step
    exact next.delivers
  · rintro ebp buf count rfl frame current some'
    have inside := at'.inside
    have next := at'.read valid short readable buf current some'
    refine ⟨_, _, _, run_call.2 ⟨frame, Option.map_eq_some_iff.2 ⟨_, next, rfl⟩⟩, by omega, ?_⟩
    rw [length]
    omega
  · intro whole s' step
    obtain ⟨k, next⟩ := at'.step valid short readable (quiet s' step) step
    have inside := next.inside
    rw [next.bytes, firstBytes_length]
    omega

end

/-! ## From open on -/

/-- The blocks of a stored file are where a read looks for them. -/
theorem stored_readable {fs : Fs} {i n : Nat} (stored : Stored fs) (live : Live fs.bootBlock i n) :
    Readable fs n 0 (fs.inodeBlocks n).fileSize := by
  intro q _ high
  obtain ⟨_, bounded, blocks⟩ := stored i n live
  have used : UsedSlot fs n (q / fsBlockSize) := by
    have start := Nat.mul_div_le q fsBlockSize
    simp only [UsedSlot]
    omega
  refine ⟨?_, blocks _ used⟩
  simp only [fsBlockSize, blockSlots] at bounded high ⊢
  omega

/-- **Sequential reading.** From the `open` of a regular file on, in every run
that writes no file and leaves the descriptor open, the bytes the descriptor has
delivered are the first `file_pos` bytes of the file, each of its reads returns,
and it returns 0 exactly when the whole file has been delivered. -/
theorem sequential_reads {m₀ m : Machine} {p fd : Nat} {fileName : Option CString}
    (current : m₀.getCurrentPcb = some p) (opened : m₀.open' fileName = some (m, (fd : Int)))
    (regular : ((m.pcbs p).files fd).ops = .file) (stored : Stored m₀.fs) (run : List SystemEvent)
    (quiet : Every (readerStep p fd) (Quiet p fd) (m, []) run) :
    Meets (readerStep p fd) (Sequential p fd m₀.fs ((m.pcbs p).files fd).inode) (m, []) run := by
  have same := open_fs opened
  rcases open_some opened with ⟨_, _, _, _, failed⟩ | ⟨q, new, index, den, ops, opens, granted, rfl⟩
  · omega
  obtain rfl : fd = new := by omega
  obtain rfl : p = q := Option.some.inj (current.symm.trans opens.current)
  rw [setFile_file] at regular ⊢
  dsimp only at regular ⊢
  subst regular
  obtain ⟨low, entry, _⟩ := readDentryByName_some opens.found
  have live : Live m₀.fs.bootBlock index den.inodeNum := by
    have type := fileOpsMap_file opens.type
    rw [entry] at type ⊢
    exact ⟨low, type, rfl⟩
  obtain ⟨valid, bounded, _⟩ := stored index _ live
  have short : (m₀.fs.inodeBlocks den.inodeNum).fileSize < 2 ^ 31 := by
    simp only [fsBlockSize, blockSlots] at bounded
    omega
  have readable := stored_readable stored live
  refine meets_of_every (fun s => ∃ pos, ReaderAt p fd m₀.fs den.inodeNum s pos) ?_ ?_ run _
    ⟨0, ?_⟩ quiet
  · rintro s e ⟨pos, at'⟩ quiet
    exact at'.sequential valid short readable quiet
  · rintro s e s' ⟨pos, at'⟩ step quiet
    obtain ⟨k, next⟩ := at'.step valid short readable quiet step
    exact ⟨pos + k, next⟩
  · obtain ⟨low, high, _⟩ := freeFd_some opens.free
    exact ⟨low, high, same, setFile_file .., Nat.zero_le _, rfl⟩

theorem shellFs_stored : Stored shellFs := by
  rintro i n ⟨_, _, inode⟩
  obtain rfl : 0 = n := inode
  exact ⟨by decide, by decide, fun _ _ => show 0 < shellFs.bootBlock.dataBlockCount by decide⟩

/-- The first shell has just opened "shell". -/
def shellOpened : Machine := (shells.entered 0x7FFF00).setFile 0 2 ⟨.file, 0, 0, true⟩

def readThree : SystemEvent := .call 0x7FFF00 (.read 2 (some fun _ => 0) 3)

theorem three_bytes_read :
    Meets (readerStep 0 2) (Sequential 0 2 shellFs 0) (shellOpened, []) [readThree] := by
  have opened : (shells.entered 0x7FFF00).open' (some shellName) =
      some (shellOpened, ((2 : Nat) : Int)) := by
    rfl
  have current : (shells.entered 0x7FFF00).getCurrentPcb = some 0 :=
    getCurrentPcb_of_onStack (show OnStack 0 0x7FFF00 by decide)
  refine sequential_reads current opened rfl shellFs_stored [readThree] ?_
  intro s' step
  refine ⟨⟨?_, ?_⟩, trivial⟩
  · simp only [readThree]
    rintro ⟨⟩
  · have still : (readerStep 0 2 (shellOpened, []) readThree).map
        (fun s => ((s.1.pcbs 0).files 2).present) = some true := by
      rfl
    rw [step] at still
    exact Option.some.inj still

end Illinix.Kernel
