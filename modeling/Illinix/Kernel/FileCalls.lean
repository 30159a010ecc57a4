/-
# Kernel.FileCalls -- what each file call can do, and runs of them

One inversion lemma for each call: `create_some`, `write_some`, `open_some`,
`close_some`, `delete_some` and `read_some` list the ways the call can end and
what the machine is then.  Every invariant of the file system and of the
descriptor tables is derived from these.

A run is a list of `FileEvent`s: the call, and the stack pointer it runs on,
which is to say the process that makes it.
-/
import Illinix.Kernel.Rtc

namespace Illinix.Kernel

open Illinix.FileSys Illinix.Theory

set_option autoImplicit false

/-! ## Free and usable descriptors -/

theorem freeFd_some {pcb : Pcb} {fd : Nat} (free : Machine.freeFd pcb = some fd) :
    2 ≤ fd ∧ fd < fileCount ∧ (pcb.files fd).present = false := by
  have mem := List.mem_of_find?_eq_some free
  have absent := List.find?_some free
  simp only [List.mem_cons, List.not_mem_nil, or_false] at mem
  simp only [fileCount]
  exact ⟨by omega, by omega, by simpa using absent⟩

theorem freeFd_of_absent {pcb : Pcb} {fd : Nat} (low : 2 ≤ fd) (high : fd < fileCount)
    (absent : (pcb.files fd).present = false) : ∃ fd', Machine.freeFd pcb = some fd' := by
  refine Option.isSome_iff_exists.1 (List.find?_isSome.2 ⟨fd, ?_, by simpa using absent⟩)
  simp only [fileCount] at high
  simp only [List.mem_cons, List.not_mem_nil, or_false]
  omega

theorem usable_iff {m : Machine} {p low : Nat} {fd : Int} : m.usable p low fd = true ↔
    (low : Int) ≤ fd ∧ fd < fileCount ∧ ((m.pcbs p).files fd.toNat).present = true := by
  simp only [Machine.usable, decide_eq_true_eq]

/-! ## create -/

/-- `create` gets past its checks, of the descriptor, the name and the inode. -/
structure Passes (m : Machine) (fileName : Option CString) (curr fd inode : Nat) (s : CString) :
    Prop where
  current : m.getCurrentPcb = some curr
  free : Machine.freeFd (m.pcbs curr) = some fd
  absent : readDentryByName m.fs fileName = some none
  found : findFreeInode m.fs = some inode
  granted : inode ≠ 2 ^ 32 - 1
  named : fileName = some s

/-- `create` gets past its checks, and there is a slot for the new entry.  Of the
slot it makes no check. -/
structure Picks (m : Machine) (fileName : Option CString) (curr fd inode : Nat) (s : CString) : Prop
    extends Passes m fileName curr fd inode s where
  room : m.fs.bootBlock.dentryCount < dentrySlots

/-- Past its checks, `create` stores the new entry, inside the directory or not. -/
theorem create_of_passes {m : Machine} {fileName : Option CString} {curr fd inode : Nat}
    {s : CString} (reserved : Nat → UInt8) (passes : Passes m fileName curr fd inode s) :
    m.create fileName reserved = if m.fs.bootBlock.dentryCount < dentrySlots then
      some (m.created curr fd inode s reserved, (fd : Int)) else none := by
  obtain ⟨current, free, absent, found, granted, rfl⟩ := passes
  have granted' : ¬inode = 4294967295 := granted
  simp [Machine.create, current, free, absent, found, granted']

theorem create_of_picks {m : Machine} {fileName : Option CString} {curr fd inode : Nat}
    {s : CString} (reserved : Nat → UInt8) (picks : Picks m fileName curr fd inode s) :
    m.create fileName reserved = some (m.created curr fd inode s reserved, (fd : Int)) := by
  rw [create_of_passes reserved picks.toPasses, if_pos picks.room]

theorem create_some {m m' : Machine} {fileName : Option CString} {reserved : Nat → UInt8} {v : Int}
    (ran : m.create fileName reserved = some (m', v)) :
    (m' = m ∧ v = -1) ∨ ∃ curr fd inode s, Picks m fileName curr fd inode s ∧
      m' = m.created curr fd inode s reserved ∧ v = fd := by
  simp only [Machine.create, Option.bind_eq_bind, Option.bind_eq_some_iff] at ran
  obtain ⟨curr, current, ran⟩ := ran
  cases free : Machine.freeFd (m.pcbs curr) with
  | none =>
      simp only [free, Option.some.injEq, Prod.mk.injEq] at ran
      exact Or.inl ⟨ran.1.symm, ran.2.symm⟩
  | some fd =>
      simp only [free, Option.bind_eq_some_iff] at ran
      obtain ⟨found, absent, ran⟩ := ran
      cases found with
      | some entry =>
          simp only [Option.isSome_some, if_true, Option.some.injEq, Prod.mk.injEq] at ran
          exact Or.inl ⟨ran.1.symm, ran.2.symm⟩
      | none =>
          simp only [Option.isSome_none, Bool.false_eq_true, if_false,
            Option.bind_eq_some_iff] at ran
          obtain ⟨inode, found, ran⟩ := ran
          by_cases full : inode = 2 ^ 32 - 1
          · rw [if_pos full] at ran
            simp only [Option.some.injEq, Prod.mk.injEq] at ran
            exact Or.inl ⟨ran.1.symm, ran.2.symm⟩
          · rw [if_neg full] at ran
            obtain ⟨s, named, ran⟩ := Option.bind_eq_some_iff.1 ran
            split_ifs at ran with room
            simp only [Option.some.injEq, Prod.mk.injEq] at ran
            exact Or.inr ⟨curr, fd, inode, s, ⟨⟨current, free, absent, found, full, named⟩, room⟩,
              ran.1.symm, ran.2.symm⟩

section

variable (m : Machine) (curr fd inode : Nat) (s : CString) (reserved : Nat → UInt8)

@[simp] theorem created_dentryCount : (m.created curr fd inode s reserved).fs.bootBlock.dentryCount =
    m.fs.bootBlock.dentryCount + 1 := rfl

@[simp] theorem created_dentries : (m.created curr fd inode s reserved).fs.bootBlock.dentries =
    Function.update m.fs.bootBlock.dentries m.fs.bootBlock.dentryCount
      ⟨Machine.dentryName s, 2, inode, reserved⟩ := rfl

@[simp] theorem created_dataBlockCount :
    (m.created curr fd inode s reserved).fs.bootBlock.dataBlockCount =
      m.fs.bootBlock.dataBlockCount := rfl

@[simp] theorem created_dataBlocks :
    (m.created curr fd inode s reserved).fs.dataBlocks = m.fs.dataBlocks := rfl

@[simp] theorem created_dataBlockBitmap :
    (m.created curr fd inode s reserved).fs.dataBlockBitmap = m.fs.dataBlockBitmap := rfl

@[simp] theorem created_inodeBlocks :
    (m.created curr fd inode s reserved).fs.inodeBlocks =
      Function.update m.fs.inodeBlocks inode { m.fs.inodeBlocks inode with fileSize := 0 } := rfl

theorem created_file : ((m.created curr fd inode s reserved).pcbs curr).files fd =
    ⟨.file, inode, 0, true⟩ := by
  simp [Machine.created, Machine.setFile, Machine.setPcb]

end

/-! ## write -/

@[simp] theorem setFile_fs (m : Machine) (p fd : Nat) (file : File) :
    (m.setFile p fd file).fs = m.fs := rfl

/-- `write` through an unusable descriptor fails; else the driver's result goes
through, and the position moves. -/
theorem write_inv {m m' : Machine} {fd v : Int} {buf : Option (Nat → UInt8)} {count : Nat}
    (ran : m.write fd buf count = some (m', v)) : ∃ p, m.getCurrentPcb = some p ∧
      ((m.usable p 0 fd = false ∧ m' = m ∧ v = -1) ∨
        ∃ mid, m.usable p 0 fd = true ∧
          m.opsWrite ((m.pcbs p).files fd.toNat) buf count = some (mid, v) ∧
          m' = mid.setFile p fd.toNat { (mid.pcbs p).files fd.toNat with
            filePos := u32 (((mid.pcbs p).files fd.toNat).filePos + (v % 2 ^ 32).toNat) }) := by
  simp only [Machine.write, Option.bind_eq_bind, Option.bind_eq_some_iff] at ran
  obtain ⟨p, current, ran⟩ := ran
  refine ⟨p, current, ?_⟩
  split_ifs at ran with usable
  · obtain ⟨⟨mid, value⟩, wrote, ran⟩ := Option.bind_eq_some_iff.1 ran
    cases ran
    exact Or.inr ⟨mid, usable, wrote, rfl⟩
  · cases ran
    exact Or.inl ⟨by simpa using usable, rfl, rfl⟩

/-- A write is to a regular file, through a usable descriptor. -/
structure Writes (m : Machine) (fd : Int) (curr : Nat) : Prop where
  current : m.getCurrentPcb = some curr
  usable : m.usable curr 0 fd = true
  regular : ((m.pcbs curr).files fd.toNat).ops = .file

theorem write_of_writes {m m' : Machine} {fd v : Int} {buf : Option (Nat → UInt8)} {count curr : Nat}
    (writes : Writes m fd curr) (ran : m.write fd buf count = some (m', v)) :
    writeData m.fs ((m.pcbs curr).files fd.toNat).inode ((m.pcbs curr).files fd.toNat).filePos
      buf count = some (m'.fs, v) := by
  obtain ⟨current, usable, regular⟩ := writes
  obtain ⟨p, current', ⟨unusable, _⟩ | ⟨mid, _, wrote, rfl⟩⟩ := write_inv ran
  · obtain rfl : curr = p := Option.some.inj (current.symm.trans current')
    rw [usable] at unusable
    cases unusable
  · obtain rfl : curr = p := Option.some.inj (current.symm.trans current')
    simp only [Machine.opsWrite, regular, Machine.fileWrite, Option.bind_eq_bind] at wrote
    obtain ⟨⟨fs, value'⟩, data, wrote⟩ := Option.bind_eq_some_iff.1 wrote
    cases wrote
    exact data

theorem write_some {m m' : Machine} {fd v : Int} {buf : Option (Nat → UInt8)} {count : Nat}
    (ran : m.write fd buf count = some (m', v)) :
    m'.fs = m.fs ∨ ∃ curr, Writes m fd curr ∧
      writeData m.fs ((m.pcbs curr).files fd.toNat).inode ((m.pcbs curr).files fd.toNat).filePos
        buf count = some (m'.fs, v) := by
  obtain ⟨p, current, ⟨_, rfl, _⟩ | ⟨mid, usable, wrote, same⟩⟩ := write_inv ran
  · exact Or.inl rfl
  · cases ops : ((m.pcbs p).files fd.toNat).ops with
    | file =>
        have writes : Writes m fd p := ⟨current, usable, ops⟩
        exact Or.inr ⟨p, writes, write_of_writes writes ran⟩
    | stdout =>
        simp only [Machine.opsWrite, ops] at wrote
        rw [same, setFile_fs]
        exact Or.inl (Machine.terminalWrite_drawn wrote).fs
    | rtc =>
        simp only [Machine.opsWrite, ops] at wrote
        rw [same, setFile_fs]
        rcases Machine.rtcWrite_some wrote with ⟨rfl, _⟩ | ⟨q, freq, _, _, _, _, rfl⟩
        · exact Or.inl rfl
        · exact Or.inl rfl
    | stdin | dir | null =>
        simp only [Machine.opsWrite, ops, Option.some.injEq, Prod.mk.injEq] at wrote
        rw [same, setFile_fs, wrote.1]
        exact Or.inl rfl

/-! ## open and close -/

/-- The machine once the driver's `open` has run for process `p`. -/
def Machine.openedDevice (m : Machine) (p : Nat) (ops : FileOps) : Machine :=
  if ops = .rtc then m.setPcb p { m.pcbs p with
    rtc := true
    rtcFired := 0
    rtcCurr := 512
    rtcRate := 512 }
  else m

/-- The machine once the driver's `close` has run for process `p`. -/
def Machine.closedDevice (m : Machine) (p : Nat) (ops : FileOps) : Machine :=
  if ops = .rtc then m.setPcb p { m.pcbs p with rtc := false } else m

/-- `open` gets past its checks: a free descriptor, the entry of the name, and a
driver that does not refuse. -/
structure Opens (m : Machine) (fileName : Option CString) (p fd index : Nat) (den : Dentry)
    (ops : FileOps) : Prop where
  current : m.getCurrentPcb = some p
  free : Machine.freeFd (m.pcbs p) = some fd
  found : readDentryByName m.fs fileName = some (some (index, den))
  type : Machine.fileOpsMap den.fileType = some ops
  accepted : ops = .file → i32 den.inodeNum ≠ -1

/-- Why `open` fails: no free descriptor, no such name, or an inode number that
reads as -1. -/
def Refused (m : Machine) (fileName : Option CString) (p : Nat) : Prop :=
  Machine.freeFd (m.pcbs p) = none ∨ readDentryByName m.fs fileName = some none ∨
    ∃ index den, readDentryByName m.fs fileName = some (some (index, den)) ∧ den.fileType = 2 ∧
      i32 den.inodeNum = -1

theorem fileOpsMap_file {fileType : Nat} (type : Machine.fileOpsMap fileType = some .file) : fileType = 2 := by
  simp only [Machine.fileOpsMap] at type
  split at type <;> simp_all

theorem open_some {m m' : Machine} {fileName : Option CString} {v : Int}
    (ran : m.open' fileName = some (m', v)) :
    (∃ p, m.getCurrentPcb = some p ∧ Refused m fileName p ∧ m' = m ∧ v = -1) ∨
      ∃ p fd index den ops, Opens m fileName p fd index den ops ∧ v = fd ∧
        m' = (m.openedDevice p ops).setFile p fd ⟨ops, den.inodeNum, 0, true⟩ := by
  simp only [Machine.open', Option.bind_eq_bind, Option.bind_eq_some_iff] at ran
  obtain ⟨p, current, ran⟩ := ran
  split at ran
  · rename_i full
    cases ran
    exact Or.inl ⟨p, current, Or.inl full, rfl, rfl⟩
  · rename_i fd free
    obtain ⟨found, lookup, ran⟩ := Option.bind_eq_some_iff.1 ran
    cases found with
    | none =>
        cases ran
        exact Or.inl ⟨p, current, Or.inr (Or.inl lookup), rfl, rfl⟩
    | some entry =>
        obtain ⟨index, den⟩ := entry
        obtain ⟨ops, type, ran⟩ := Option.bind_eq_some_iff.1 ran
        obtain ⟨⟨mid, value⟩, opened, ran⟩ := Option.bind_eq_some_iff.1 ran
        dsimp only at ran
        -- what the three drivers answer
        have device : (mid = m.openedDevice p ops ∧ value ≠ -1 ∧
            (ops = .file → i32 den.inodeNum ≠ -1)) ∨
            (ops = .file ∧ i32 den.inodeNum = -1 ∧ mid = m ∧ value = -1) := by
          cases ops with
          | rtc =>
              obtain ⟨q, current', rfl, rfl⟩ := Machine.rtcOpen_some opened
              obtain rfl : p = q := Option.some.inj (current.symm.trans current')
              exact Or.inl ⟨rfl, by decide, fun wrong => nomatch wrong⟩
          | file =>
              simp only [Machine.opsOpen, lookup, Option.bind_eq_bind, Option.bind_some,
                Option.some.injEq, Prod.mk.injEq] at opened
              obtain ⟨rfl, rfl⟩ := opened
              by_cases minus : i32 den.inodeNum = -1
              · exact Or.inr ⟨rfl, minus, rfl, minus⟩
              · exact Or.inl ⟨rfl, minus, fun _ => minus⟩
          | dir =>
              simp only [Machine.opsOpen, lookup, Option.bind_eq_bind, Option.bind_some,
                Option.isNone_some, Bool.false_eq_true, if_false, Option.some.injEq,
                Prod.mk.injEq] at opened
              obtain ⟨rfl, rfl⟩ := opened
              exact Or.inl ⟨rfl, by decide, fun wrong => nomatch wrong⟩
          | null | stdin | stdout =>
              simp only [Machine.fileOpsMap] at type
              split at type <;> cases type
        rcases device with ⟨rfl, granted, accepted⟩ | ⟨rfl, minus, rfl, rfl⟩
        · rw [if_neg granted] at ran
          cases ran
          exact Or.inr ⟨p, fd, index, den, ops, ⟨current, free, lookup, type, accepted⟩, rfl, rfl⟩
        · rw [if_pos rfl] at ran
          cases ran
          exact Or.inl ⟨p, current, Or.inr (Or.inr ⟨index, den, lookup, fileOpsMap_file type, minus⟩),
            rfl, rfl⟩

@[simp] theorem openedDevice_fs (m : Machine) (p : Nat) (ops : FileOps) :
    (m.openedDevice p ops).fs = m.fs := by
  simp only [Machine.openedDevice]
  split_ifs <;> rfl

@[simp] theorem closedDevice_fs (m : Machine) (p : Nat) (ops : FileOps) :
    (m.closedDevice p ops).fs = m.fs := by
  simp only [Machine.closedDevice]
  split_ifs <;> rfl

theorem open_fs {m m' : Machine} {fileName : Option CString} {v : Int}
    (ran : m.open' fileName = some (m', v)) : m'.fs = m.fs := by
  rcases open_some ran with ⟨p, _, _, rfl, _⟩ | ⟨p, fd, index, den, ops, _, _, rfl⟩
  · rfl
  · rw [setFile_fs, openedDevice_fs]

theorem opsClose_some {m m' : Machine} {p : Nat} {ops : FileOps} {v : Int}
    (current : m.getCurrentPcb = some p) (closed : m.opsClose ops = some (m', v)) :
    m' = m.closedDevice p ops ∧ v = if ops = .null then -1 else 0 := by
  cases ops with
  | rtc =>
      obtain ⟨q, current', rfl, rfl⟩ := Machine.rtcClose_some closed
      obtain rfl : p = q := Option.some.inj (current.symm.trans current')
      exact ⟨rfl, rfl⟩
  | null | stdin | stdout | file | dir =>
      cases closed
      exact ⟨rfl, rfl⟩

theorem close_some {m m' : Machine} {fd v : Int} (ran : m.close fd = some (m', v)) :
    ∃ p, m.getCurrentPcb = some p ∧
      (((m.usable p 2 fd = false ∨ ((m.pcbs p).files fd.toNat).ops = .null) ∧ m' = m ∧ v = -1) ∨
        m.usable p 2 fd = true ∧ ((m.pcbs p).files fd.toNat).ops ≠ .null ∧ v = 0 ∧
          m' = (m.closedDevice p ((m.pcbs p).files fd.toNat).ops).setFile p fd.toNat
            { (m.pcbs p).files fd.toNat with present := false }) := by
  simp only [Machine.close, Option.bind_eq_bind, Option.bind_eq_some_iff] at ran
  obtain ⟨p, current, ran⟩ := ran
  refine ⟨p, current, ?_⟩
  split_ifs at ran with usable
  · obtain ⟨⟨mid, value⟩, closed, ran⟩ := Option.bind_eq_some_iff.1 ran
    obtain ⟨rfl, rfl⟩ := opsClose_some current closed
    dsimp only at ran
    by_cases null : ((m.pcbs p).files fd.toNat).ops = .null
    · rw [if_pos null, if_neg (by decide)] at ran
      cases ran
      refine Or.inl ⟨Or.inr null, ?_, rfl⟩
      rw [null]
      rfl
    · rw [if_neg null, if_pos rfl] at ran
      cases ran
      refine Or.inr ⟨usable, null, rfl, ?_⟩
      have files : ((m.closedDevice p ((m.pcbs p).files fd.toNat).ops).pcbs p).files =
          (m.pcbs p).files := by
        simp only [Machine.closedDevice]
        split_ifs
        · rw [setPcb_same]
        · rfl
      rw [files]
  · cases ran
    exact Or.inl ⟨Or.inl (by simpa using usable), rfl, rfl⟩

/-- `close` gets past its checks: a usable descriptor from 2 on, with a driver. -/
structure Closes (m : Machine) (p : Nat) (fd : Int) : Prop where
  current : m.getCurrentPcb = some p
  usable : m.usable p 2 fd = true
  ops : ((m.pcbs p).files fd.toNat).ops ≠ .null

theorem Closes.place {m : Machine} {p : Nat} {fd : Int} (closes : Closes m p fd) :
    2 ≤ fd.toNat ∧ fd.toNat < fileCount ∧ ((m.pcbs p).files fd.toNat).present = true := by
  obtain ⟨low, high, present⟩ := usable_iff.1 closes.usable
  exact ⟨by omega, by omega, present⟩

/-- The machine once `close` has ended. -/
def Machine.closed (m : Machine) (p : Nat) (fd : Int) : Machine :=
  (m.closedDevice p ((m.pcbs p).files fd.toNat).ops).setFile p fd.toNat
    { (m.pcbs p).files fd.toNat with present := false }

theorem close_cases {m m' : Machine} {fd v : Int} (ran : m.close fd = some (m', v)) :
    ((∀ p, ¬Closes m p fd) ∧ m' = m ∧ v = -1) ∨ ∃ p, Closes m p fd ∧ m' = m.closed p fd ∧ v = 0 := by
  obtain ⟨p, current, ⟨refused, rfl, rfl⟩ | ⟨usable, ops, rfl, rfl⟩⟩ := close_some ran
  · refine Or.inl ⟨fun q closes => ?_, rfl, rfl⟩
    obtain rfl : p = q := Option.some.inj (current.symm.trans closes.current)
    rcases refused with unusable | null
    · exact Bool.false_ne_true (unusable.symm.trans closes.usable)
    · exact closes.ops null
  · exact Or.inr ⟨p, ⟨current, usable, ops⟩, rfl, rfl⟩

theorem close_fs {m m' : Machine} {fd v : Int} (ran : m.close fd = some (m', v)) :
    m'.fs = m.fs := by
  obtain ⟨p, _, ⟨_, rfl, _⟩ | ⟨_, _, _, rfl⟩⟩ := close_some ran
  · rfl
  · rw [setFile_fs, closedDevice_fs]

/-! ## delete -/

/-- `delete` gets past its checks: the entry exists, and no process from
`TERMINAL_COUNT` on holds its inode. -/
structure Deletes (m : Machine) (fileName : Option CString) (index : Nat) (den : Dentry) :
    Prop where
  found : readDentryByName m.fs fileName = some (some (index, den))
  unused : m.inUse den.inodeNum = false
  inside : den.inodeNum < m.fs.bootBlock.inodeCount

theorem Deletes.unique {m : Machine} {fileName : Option CString} {index index' : Nat}
    {den den' : Dentry} (deletes : Deletes m fileName index den)
    (found : readDentryByName m.fs fileName = some (some (index', den'))) :
    index = index' ∧ den = den' := by
  have same := deletes.found.symm.trans found
  simpa using same

theorem delete_some {m m' : Machine} {fileName : Option CString} {v : Int}
    (ran : m.delete fileName = some (m', v)) :
    (Machine.Drawn m m' ∧ v = -1 ∧ ∀ index den, ¬Deletes m fileName index den) ∨
      ∃ index den fs, Deletes m fileName index den ∧
      Machine.wipeBlocks den.inodeNum m.fs.bootBlock.inodeCount 0 m.fs = some fs ∧
      m' = { m with fs :=
        ({ fs with bootBlock := Machine.removeDentry fs.bootBlock index } : Fs).flush } ∧ v = 0 := by
  simp only [Machine.delete, Option.bind_eq_bind, Option.bind_eq_some_iff] at ran
  obtain ⟨found, lookup, ran⟩ := ran
  cases found with
  | none =>
      obtain ⟨mid, drew, ran⟩ := Option.bind_eq_some_iff.1 ran
      cases ran
      refine Or.inl ⟨Machine.puts_drawn _ drew, rfl, fun index den deletes => ?_⟩
      cases lookup.symm.trans deletes.found
  | some entry =>
      obtain ⟨index, den⟩ := entry
      dsimp only at ran
      split_ifs at ran with used inside
      · obtain ⟨mid, drew, ran⟩ := Option.bind_eq_some_iff.1 ran
        cases ran
        refine Or.inl ⟨Machine.puts_drawn _ drew, rfl, fun index' den' deletes => ?_⟩
        obtain ⟨rfl, rfl⟩ := deletes.unique lookup
        exact Bool.false_ne_true (deletes.unused.symm.trans used)
      · obtain ⟨fs, wiped, ran⟩ := Option.bind_eq_some_iff.1 ran
        split_ifs at ran
        cases ran
        exact Or.inr ⟨index, den, fs, ⟨lookup, by simpa using used, inside⟩, wiped, rfl, rfl⟩

/-- The walk over `r` slots from `i` on has stored to their blocks and cleared the
marks `i` to `i + r`, and nothing else. -/
structure Wiped (fs fs' : Fs) (inode i r : Nat) : Prop where
  boot : fs'.bootBlock = fs.bootBlock
  inodes : fs'.inodeBlocks = fs.inodeBlocks
  passed : ∀ j, i ≤ j → j < i + r → j < bitmapSlots ∧ (fs.inodeBlocks inode).dataBlocks j ≠ 0
  blocks : ∀ b, (∀ j, i ≤ j → j < i + r → b ≠ (fs.inodeBlocks inode).dataBlocks j) →
    fs'.dataBlocks b = fs.dataBlocks b
  marks : ∀ b, fs'.dataBlockBitmap b =
    if i ≤ b ∧ b < i + r then false else fs.dataBlockBitmap b

theorem Wiped.none (fs : Fs) (inode i : Nat) : Wiped fs fs inode i 0 := by
  refine ⟨rfl, rfl, fun j low high => ?_, fun _ _ => rfl, fun b => ?_⟩
  · omega
  · rw [if_neg (by omega)]

/-- The walk ends at a slot that is 0 or after `n` rounds. -/
theorem wipeBlocks_some (inode : Nat) (n : Nat) : ∀ {i : Nat} {fs fs' : Fs},
    Machine.wipeBlocks inode n i fs = some fs' → ∃ r, r ≤ n ∧
      (r = n ∨ (fs.inodeBlocks inode).dataBlocks (i + r) = 0) ∧ Wiped fs fs' inode i r := by
  induction n with
  | zero =>
      intro i fs fs' ran
      obtain ⟨_, _, ran⟩ := Option.bind_eq_some_iff.1 ran
      obtain rfl := Option.some.inj ran
      exact ⟨0, le_refl 0, Or.inl rfl, Wiped.none fs inode i⟩
  | succ n ih =>
      intro i fs fs' ran
      obtain ⟨block, slot, ran⟩ := Option.bind_eq_some_iff.1 ran
      obtain ⟨_, rfl⟩ := slot_eq_some.1 slot
      split_ifs at ran with ended
      · obtain rfl := Option.some.inj ran
        exact ⟨0, Nat.zero_le _, Or.inr ended, Wiped.none fs inode i⟩
      · obtain ⟨fs₁, stored, ran⟩ := Option.bind_eq_some_iff.1 ran
        obtain ⟨_, rfl⟩ := storeBlock_eq_some.1 stored
        obtain ⟨bits, cleared, ran⟩ := Option.bind_eq_some_iff.1 ran
        simp only [bitmapSet] at cleared
        split_ifs at cleared with inside
        obtain rfl := Option.some.inj cleared
        obtain ⟨r, short, stopped, later⟩ := ih ran
        refine ⟨r + 1, by omega, ?_, later.boot, later.inodes, fun j low high => ?_,
          fun b outside => ?_, fun b => ?_⟩
        · rw [show i + (r + 1) = i + 1 + r by omega]
          exact stopped.imp (fun all => by omega) id
        · rcases Nat.eq_or_lt_of_le low with rfl | beyond
          · exact ⟨inside, ended⟩
          · exact later.passed j beyond (by omega)
        · have apart := outside i (le_refl i) (by omega)
          rw [later.blocks b fun j low high => outside j (by omega) (by omega)]
          simp [Function.update_of_ne apart]
        · rw [later.marks b]
          by_cases here : b = i
          · subst here
            rw [if_neg (by omega), if_pos (by omega)]
            exact Function.update_self ..
          · exact if_congr (by omega) rfl (Function.update_of_ne here ..)

theorem wipeBlocks_bootBlock {inode n i : Nat} {fs fs' : Fs}
    (ran : Machine.wipeBlocks inode n i fs = some fs') : fs'.bootBlock = fs.bootBlock := by
  obtain ⟨_, _, _, wiped⟩ := wipeBlocks_some _ _ ran
  exact wiped.boot

/-! ## read -/

/-- A read that has returned bytes moves the position. -/
theorem advance_moves {value : Int} (positive : 0 ≤ value) (m : Machine) (p fd : Nat)
    (buf : Option (Nat → UInt8)) : m.advance p fd (.returned value buf) =
      (m.setFile p fd { (m.pcbs p).files fd with
        filePos := u32 (((m.pcbs p).files fd).filePos + value.toNat) }, .returned value buf) :=
  if_pos positive

/-- `read` through an unusable descriptor fails; else the driver reads, and the
position moves by what it returns. -/
theorem read_some {m m' : Machine} {fd : Int} {buf : Option (Nat → UInt8)} {count : Nat} {r : Reading}
    (ran : m.read fd buf count = some (m', r)) : ∃ p, m.getCurrentPcb = some p ∧
      ((m.usable p 0 fd = false ∧ m' = m ∧ r = .returned (-1) buf) ∨
        ∃ mid reading, m.usable p 0 fd = true ∧
          m.opsRead ((m.pcbs p).files fd.toNat) buf count = some (mid, reading) ∧
          (m', r) = mid.advance p fd.toNat reading) := by
  simp only [Machine.read, Option.bind_eq_bind, Option.bind_eq_some_iff] at ran
  obtain ⟨p, current, ran⟩ := ran
  refine ⟨p, current, ?_⟩
  split_ifs at ran with usable
  · obtain ⟨⟨mid, reading⟩, started, ran⟩ := Option.bind_eq_some_iff.1 ran
    exact Or.inr ⟨mid, reading, usable, started, (Option.some.inj ran).symm⟩
  · cases ran
    exact Or.inl ⟨by simpa using usable, rfl, rfl⟩

theorem resume_some {m m' : Machine} {fd : Int} {buf : Option (Nat → UInt8)} {count : Nat}
    {r : Reading} (ran : m.resume fd buf count = some (m', r)) : ∃ p mid reading,
      m.getCurrentPcb = some p ∧
      m.opsPoll ((m.pcbs p).files fd.toNat) buf count = some (mid, reading) ∧
      (m', r) = mid.advance p fd.toNat reading := by
  simp only [Machine.resume, Option.bind_eq_bind, Option.bind_eq_some_iff] at ran
  obtain ⟨p, current, ⟨mid, reading⟩, polled, ran⟩ := ran
  exact ⟨p, mid, reading, current, polled, (Option.some.inj ran).symm⟩

/-! ## Runs -/

inductive FileCall where
  | create (fileName : Option CString) (reserved : Nat → UInt8)
  | write (fd : Int) (buf : Option (Nat → UInt8)) (count : Nat)
  | open' (fileName : Option CString)
  | close (fd : Int)
  | delete (fileName : Option CString)

def FileCall.run (m : Machine) : FileCall → Call
  | .create fileName reserved => m.create fileName reserved
  | .write fd buf count => m.write fd buf count
  | .open' fileName => m.open' fileName
  | .close fd => m.close fd
  | .delete fileName => m.delete fileName

/-- A call, made on the kernel stack that holds `esp`. -/
structure FileEvent where
  esp : Nat
  call : FileCall

/-- The machine as the call of the event finds it. -/
def FileEvent.enter (e : FileEvent) (m : Machine) : Machine := { m with esp := e.esp }

@[simp] theorem FileEvent.enter_fs (e : FileEvent) (m : Machine) : (e.enter m).fs = m.fs := rfl

@[simp] theorem FileEvent.enter_pcbs (e : FileEvent) (m : Machine) :
    (e.enter m).pcbs = m.pcbs := rfl

def fileStep (m : Machine) (e : FileEvent) : Option Machine :=
  (e.call.run (e.enter m)).map Prod.fst

theorem fileStep_some {m m' : Machine} {e : FileEvent} :
    fileStep m e = some m' ↔ ∃ v, e.call.run (e.enter m) = some (m', v) := by
  simp [fileStep]

/-! ## What a call does to the directory -/

theorem delete_boot {m m' : Machine} {fileName : Option CString} {v : Int}
    (ran : m.delete fileName = some (m', v)) :
    (m'.fs = m.fs ∧ v = -1) ∨ ∃ s index den, fileName = some s ∧
      readDentryByName m.fs (some s) = some (some (index, den)) ∧
      m'.fs.bootBlock = Machine.removeDentry m.fs.bootBlock index ∧ v = 0 := by
  rcases delete_some ran with ⟨drawn, failed, _⟩ | ⟨index, den, fs, deletes, wiped, rfl, success⟩
  · exact Or.inl ⟨drawn.fs, failed⟩
  · obtain ⟨_, _, s, rfl, _⟩ := readDentryByName_some deletes.found
    have boot : fs.bootBlock = m.fs.bootBlock := wipeBlocks_bootBlock wiped
    refine Or.inr ⟨s, index, den, rfl, deletes.found, ?_, success⟩
    simp only [flush_bootBlock, boot]

/-- A call leaves the boot block, puts one entry at the end of the directory, or
takes one out. -/
inductive Edits (m : Machine) (e : FileEvent) (m' : Machine) (v : Int) : Prop where
  | kept (boot : m'.fs.bootBlock = m.fs.bootBlock)
      (create : ∀ fileName reserved, e.call = .create fileName reserved → m' = e.enter m ∧ v = -1 ∧
        ∀ curr fd inode s, ¬Picks (e.enter m) fileName curr fd inode s)
      (delete : ∀ fileName, e.call = .delete fileName → v = -1)
  | added {s : CString} {reserved : Nat → UInt8} {curr fd inode : Nat}
      (call : e.call = .create (some s) reserved) (picks : Picks (e.enter m) (some s) curr fd inode s)
      (same : m' = (e.enter m).created curr fd inode s reserved) (value : v = fd)
  | removed {s : CString} {index : Nat} {den : Dentry} (call : e.call = .delete (some s))
      (found : readDentryByName m.fs (some s) = some (some (index, den)))
      (boot : m'.fs.bootBlock = Machine.removeDentry m.fs.bootBlock index) (value : v = 0)

theorem edits_of_ran {m m' : Machine} {e : FileEvent} {v : Int}
    (ran : e.call.run (e.enter m) = some (m', v)) : Edits m e m' v := by
  -- the other three calls cannot touch the boot block
  have other : m'.fs.bootBlock = m.fs.bootBlock →
      (∀ fileName reserved, e.call ≠ .create fileName reserved) →
      (∀ fileName, e.call ≠ .delete fileName) → Edits m e m' v := fun boot create delete =>
    .kept boot (fun _ _ call => absurd call (create _ _)) fun _ call => absurd call (delete _)
  cases call : e.call with
  | create fileName reserved =>
      rw [call] at ran
      have ran' : (e.enter m).create fileName reserved = some (m', v) := ran
      rcases create_some ran' with ⟨same, failed⟩ | ⟨curr, fd, inode, s, picks, same, opened⟩
      · refine .kept (by rw [same]; rfl) (fun _ _ call' => ⟨same, failed, ?_⟩) fun _ call' => ?_
        · obtain ⟨rfl, rfl⟩ := FileCall.create.inj (call.symm.trans call')
          intro curr fd inode s picks
          rw [create_of_picks reserved picks] at ran'
          have granted := (Prod.mk.inj (Option.some.inj ran')).2
          omega
        · exact nomatch call.symm.trans call'
      · obtain rfl := picks.named
        exact .added call picks same opened
  | write fd buf count =>
      rw [call] at ran
      refine other ?_ (fun _ _ same => nomatch call.symm.trans same)
        fun _ same => nomatch call.symm.trans same
      rcases write_some ran with same | ⟨curr, _, wrote⟩
      · rw [same]
        rfl
      · exact writeData_bootBlock wrote
  | open' fileName =>
      rw [call] at ran
      refine other ?_ (fun _ _ same => nomatch call.symm.trans same)
        fun _ same => nomatch call.symm.trans same
      rw [open_fs ran]
      rfl
  | close fd =>
      rw [call] at ran
      refine other ?_ (fun _ _ same => nomatch call.symm.trans same)
        fun _ same => nomatch call.symm.trans same
      rw [close_fs ran]
      rfl
  | delete fileName =>
      rw [call] at ran
      rcases delete_boot ran with ⟨same, failed⟩ | ⟨s, index, den, rfl, found, boot, success⟩
      · refine .kept (by rw [same]; rfl) (fun _ _ call' => ?_) fun _ _ => failed
        exact nomatch call.symm.trans call'
      · exact .removed call found boot success

/-- A `create` that has a slot is not stuck. -/
theorem fileStep_of_picks {m : Machine} {e : FileEvent} {fileName : Option CString}
    {reserved : Nat → UInt8} {curr fd inode : Nat} {s : CString}
    (call : e.call = .create fileName reserved) (picks : Picks (e.enter m) fileName curr fd inode s) :
    fileStep m e = some ((e.enter m).created curr fd inode s reserved) := by
  rw [fileStep, call, FileCall.run, create_of_picks reserved picks, Option.map_some]

/-- If the event is a `create` that passes its checks, it stores the new entry
inside the directory: the step is not stuck. -/
def StoresInside (m : Machine) (e : FileEvent) : Prop :=
  ∀ fileName reserved curr fd inode s, e.call = .create fileName reserved →
    Passes (e.enter m) fileName curr fd inode s → ∃ m', fileStep m e = some m'

theorem storesInside_of_step {m m' : Machine} {e : FileEvent} (step : fileStep m e = some m') :
    StoresInside m e := fun _ _ _ _ _ _ _ _ => ⟨m', step⟩

theorem fileStep_of_passes {m : Machine} {e : FileEvent} {fileName : Option CString}
    {reserved : Nat → UInt8} {curr fd inode : Nat} {s : CString}
    (call : e.call = .create fileName reserved) (passes : Passes (e.enter m) fileName curr fd inode s) :
    (∃ m', fileStep m e = some m') ↔ m.fs.bootBlock.dentryCount < dentrySlots := by
  rw [fileStep, call, FileCall.run, create_of_passes reserved passes]
  split_ifs with room
  · exact iff_of_true ⟨_, rfl⟩ room
  · exact iff_of_false (fun ⟨_, ran⟩ => nomatch ran) room

/-- A create whose step was taken had a slot. -/
theorem room_of_step {m m' : Machine} {e : FileEvent} {fileName : Option CString}
    {reserved : Nat → UInt8} {curr fd inode : Nat} {s : CString} (step : fileStep m e = some m')
    (call : e.call = .create fileName reserved) (passes : Passes (e.enter m) fileName curr fd inode s) :
    Picks (e.enter m) fileName curr fd inode s :=
  ⟨passes, (fileStep_of_passes call passes).1 ⟨m', step⟩⟩

end Illinix.Kernel
