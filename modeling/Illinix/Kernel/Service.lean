/-
# Kernel.Service -- what the calls on files leave alone

`read`, `write`, `open`, `close`, `create` and `delete` work for one process.
They change its descriptors, its RTC fields, the file system and the console;
the other processes' PCBs and whatever the scheduler looks at stay
(`fileCall_serves`, `read_serves`, `resume_serves`).

Inside such a call the driver's part leaves the descriptors and the RTC flags as
they are (`SameDevices`): the tables change at the end of the call only.
-/
import Illinix.Kernel.FileCalls

namespace Illinix.Kernel

open Illinix.FileSys Illinix.Theory Machine

set_option autoImplicit false

/-! ## The two relations -/

/-- What of a PCB the file calls leave alone. -/
structure Pcb.Identity where
  present : Bool
  vidmap : Bool
  pid : Nat
  parent : Option Nat
  ebp : Nat
  parentEbp : Nat
  esp0 : Nat

def Pcb.identity (pcb : Pcb) : Pcb.Identity where
  present := pcb.present
  vidmap := pcb.vidmap
  pid := pcb.pid
  parent := pcb.parent
  ebp := pcb.ebp
  parentEbp := pcb.parentEbp
  esp0 := pcb.esp0

/-- Nothing the scheduler looks at has changed. -/
structure Undisturbed (m m' : Machine) : Prop where
  identity : ∀ q, (m'.pcbs q).identity = (m.pcbs q).identity
  rest : m'.context = { m.context with fs := m'.fs, pcbs := m'.pcbs }

/-- Process `p` was served, and no other one. -/
structure Serves (p : Nat) (m m' : Machine) : Prop extends Undisturbed m m' where
  others : ∀ q, q ≠ p → m'.pcbs q = m.pcbs q

/-- Each process is there or not, and its descriptors and its RTC flag are, as
before. -/
structure SameDevices (m m' : Machine) : Prop where
  present : ∀ q, (m'.pcbs q).present = (m.pcbs q).present
  files : ∀ q, (m'.pcbs q).files = (m.pcbs q).files
  rtc : ∀ q, (m'.pcbs q).rtc = (m.pcbs q).rtc

section

variable {m m' m'' : Machine} {p : Nat}

theorem Serves.refl (p : Nat) (m : Machine) : Serves p m m :=
  ⟨⟨fun _ => rfl, rfl⟩, fun _ _ => rfl⟩

theorem Undisturbed.trans (first : Undisturbed m m') (second : Undisturbed m' m'') :
    Undisturbed m m'' := by
  refine ⟨fun q => (second.identity q).trans (first.identity q), ?_⟩
  rw [second.rest, first.rest]

theorem Serves.trans (first : Serves p m m') (second : Serves p m' m'') : Serves p m m'' :=
  ⟨first.toUndisturbed.trans second.toUndisturbed,
    fun q other => (second.others q other).trans (first.others q other)⟩

theorem SameDevices.refl (m : Machine) : SameDevices m m :=
  ⟨fun _ => rfl, fun _ => rfl, fun _ => rfl⟩

theorem SameDevices.trans (first : SameDevices m m') (second : SameDevices m' m'') :
    SameDevices m m'' :=
  ⟨fun q => (second.present q).trans (first.present q),
    fun q => (second.files q).trans (first.files q), fun q => (second.rtc q).trans (first.rtc q)⟩

theorem serves_of_drawn (drawn : Drawn m m') : Serves p m m' := by
  have pcbs := drawn.pcbs
  refine ⟨⟨fun q => by rw [pcbs], ?_⟩, fun q _ => by rw [pcbs]⟩
  rw [drawn, drawn.fs, pcbs]
  rfl

theorem sameDevices_of_pcbs (same : m'.pcbs = m.pcbs) : SameDevices m m' :=
  ⟨fun q => by rw [same], fun q => by rw [same], fun q => by rw [same]⟩

theorem sameDevices_of_drawn (drawn : Drawn m m') : SameDevices m m' :=
  sameDevices_of_pcbs drawn.pcbs

/-- A new file system. -/
theorem serves_setFs (fs : Fs) : Serves p m { m with fs := fs } :=
  ⟨⟨fun _ => rfl, rfl⟩, fun _ _ => rfl⟩

/-- One field of the PCBs, after a PCB with the same value of it was stored. -/
theorem setPcb_field {β : Type} (f : Pcb → β) {pcb : Pcb} (same : f pcb = f (m.pcbs p)) (q : Nat) :
    f ((m.setPcb p pcb).pcbs q) = f (m.pcbs q) := by
  by_cases here : q = p
  · subst here
    rw [setPcb_same, same]
  · rw [setPcb_other m pcb here]

/-- A PCB with the same identity. -/
theorem serves_setPcb {pcb : Pcb} (same : pcb.identity = (m.pcbs p).identity) :
    Serves p m (m.setPcb p pcb) := by
  refine ⟨⟨fun q => setPcb_field Pcb.identity same q, rfl⟩, fun q other => ?_⟩
  exact setPcb_other m pcb other

theorem serves_setFile (fd : Nat) (file : File) : Serves p m (m.setFile p fd file) :=
  serves_setPcb rfl

/-- A PCB with the same files and the same flags. -/
theorem sameDevices_setPcb {pcb : Pcb} (present : pcb.present = (m.pcbs p).present)
    (files : pcb.files = (m.pcbs p).files) (rtc : pcb.rtc = (m.pcbs p).rtc) :
    SameDevices m (m.setPcb p pcb) :=
  ⟨setPcb_field Pcb.present present, setPcb_field Pcb.files files, setPcb_field Pcb.rtc rtc⟩

/-! ## The drivers -/

theorem terminalPoll_drawn {buf : Nat → UInt8} {count : Nat} {r : Reading}
    (polled : m.terminalPoll buf count = some (m', r)) : Drawn m m' := by
  unfold terminalPoll at polled
  dsimp only at polled
  split_ifs at polled
  · cases polled
    exact Drawn.refl m
  all_goals
    cases polled
    exact setTerm_drawn m rfl

theorem terminalRead_drawn {buf : Option (Nat → UInt8)} {count : Nat} {r : Reading}
    (started : m.terminalRead buf count = some (m', r)) : Drawn m m' := by
  cases buf with
  | none =>
      cases started
      exact Drawn.refl m
  | some buf =>
      unfold terminalRead at started
      dsimp only at started
      split_ifs at started
      · cases started
        exact Drawn.refl m
      · apply Drawn.trans _ (terminalPoll_drawn started)
        exact setTerm_drawn m rfl

theorem dirRead_drawn {buf : Option (Nat → UInt8)} {count : Nat} {r : Reading}
    (started : m.dirRead buf count = some (m', r)) : Drawn m m' := by
  cases buf with
  | none =>
      cases started
      rfl
  | some buf =>
      unfold dirRead at started
      dsimp only at started
      split_ifs at started
      all_goals
        cases started
        rfl

theorem fileRead_same {file : File} {buf : Option (Nat → UInt8)} {count : Nat} {r : Reading}
    (started : m.fileRead file buf count = some (m', r)) : m' = m := by
  obtain ⟨⟨value, got⟩, _, started⟩ := Option.bind_eq_some_iff.1 started
  exact (Prod.mk.inj (Option.some.inj started)).1.symm

/-- A driver's read serves its process, and leaves the file system, the
descriptors and the RTC flags alone. -/
theorem opsRead_serves {file : File} {buf : Option (Nat → UInt8)} {count : Nat} {r : Reading}
    (current : m.getCurrentPcb = some p) (started : m.opsRead file buf count = some (m', r)) :
    Serves p m m' ∧ SameDevices m m' ∧ m'.fs = m.fs := by
  simp only [opsRead] at started
  cases ops : file.ops with
  | stdin =>
      rw [ops] at started
      have drawn := terminalRead_drawn started
      exact ⟨serves_of_drawn drawn, sameDevices_of_drawn drawn, drawn.fs⟩
  | file =>
      rw [ops] at started
      obtain rfl := fileRead_same started
      exact ⟨Serves.refl p m', SameDevices.refl m', rfl⟩
  | dir =>
      rw [ops] at started
      have drawn := dirRead_drawn started
      exact ⟨serves_of_drawn drawn, sameDevices_of_drawn drawn, drawn.fs⟩
  | rtc =>
      rw [ops] at started
      obtain ⟨q, current', rfl, _⟩ := rtcRead_some started
      obtain rfl : p = q := Option.some.inj (current.symm.trans current')
      exact ⟨serves_setPcb rfl, sameDevices_setPcb rfl rfl rfl, rfl⟩
  | stdout | null =>
      rw [ops] at started
      cases started
      exact ⟨Serves.refl p m, SameDevices.refl m, rfl⟩

theorem opsPoll_serves {file : File} {buf : Option (Nat → UInt8)} {count : Nat} {r : Reading}
    (current : m.getCurrentPcb = some p) (polled : m.opsPoll file buf count = some (m', r)) :
    Serves p m m' ∧ SameDevices m m' ∧ m'.fs = m.fs := by
  simp only [opsPoll] at polled
  split at polled
  · have drawn := terminalPoll_drawn polled
    exact ⟨serves_of_drawn drawn, sameDevices_of_drawn drawn, drawn.fs⟩
  · obtain ⟨q, current', ⟨_, rfl, _⟩ | ⟨_, _, _, rfl⟩ | ⟨_, _, rfl, _⟩⟩ := rtcPoll_some polled
    · exact ⟨Serves.refl p _, SameDevices.refl _, rfl⟩
    · obtain rfl : p = q := Option.some.inj (current.symm.trans current')
      exact ⟨serves_setPcb rfl, sameDevices_setPcb rfl rfl rfl, rfl⟩
    · exact ⟨Serves.refl p _, SameDevices.refl _, rfl⟩
  · cases polled

theorem opsWrite_serves {file : File} {buf : Option (Nat → UInt8)} {count : Nat} {v : Int}
    (current : m.getCurrentPcb = some p) (wrote : m.opsWrite file buf count = some (m', v)) :
    Serves p m m' ∧ SameDevices m m' := by
  simp only [opsWrite] at wrote
  cases ops : file.ops with
  | stdout =>
      rw [ops] at wrote
      have drawn := terminalWrite_drawn wrote
      exact ⟨serves_of_drawn drawn, sameDevices_of_drawn drawn⟩
  | file =>
      rw [ops] at wrote
      obtain ⟨⟨fs, value⟩, _, wrote⟩ := Option.bind_eq_some_iff.1 wrote
      cases wrote
      exact ⟨serves_setFs fs, ⟨fun _ => rfl, fun _ => rfl, fun _ => rfl⟩⟩
  | rtc =>
      rw [ops] at wrote
      rcases rtcWrite_some wrote with ⟨rfl, _⟩ | ⟨q, freq, current', _, _, _, rfl⟩
      · exact ⟨Serves.refl p _, SameDevices.refl _⟩
      · obtain rfl : p = q := Option.some.inj (current.symm.trans current')
        exact ⟨serves_setPcb rfl, sameDevices_setPcb rfl rfl rfl⟩
  | stdin | dir | null =>
      rw [ops] at wrote
      cases wrote
      exact ⟨Serves.refl p m, SameDevices.refl m⟩

theorem openedDevice_serves (m : Machine) (p : Nat) (ops : FileOps) :
    Serves p m (m.openedDevice p ops) := by
  simp only [openedDevice]
  split_ifs
  · exact serves_setPcb rfl
  · exact Serves.refl p m

theorem closedDevice_serves (m : Machine) (p : Nat) (ops : FileOps) :
    Serves p m (m.closedDevice p ops) := by
  simp only [closedDevice]
  split_ifs
  · exact serves_setPcb rfl
  · exact Serves.refl p m

/-! ## The system calls -/

theorem advance_serves (m : Machine) (p fd : Nat) (r : Reading) :
    Serves p m (m.advance p fd r).1 := by
  simp only [advance]
  cases r with
  | waiting => exact Serves.refl p m
  | returned value buf =>
      dsimp only
      split_ifs
      · exact serves_setFile fd _
      · exact Serves.refl p m

theorem read_serves {fd : Int} {buf : Option (Nat → UInt8)} {count : Nat} {r : Reading}
    (current : m.getCurrentPcb = some p) (ran : m.read fd buf count = some (m', r)) :
    Serves p m m' := by
  obtain ⟨q, current', ended⟩ := read_some ran
  obtain rfl : p = q := Option.some.inj (current.symm.trans current')
  rcases ended with ⟨_, rfl, _⟩ | ⟨mid, reading, _, started, moved⟩
  · exact Serves.refl p m'
  · have driver := (opsRead_serves current started).1
    have last := advance_serves mid p fd.toNat reading
    rw [← moved] at last
    exact driver.trans last

theorem resume_serves {fd : Int} {buf : Option (Nat → UInt8)} {count : Nat} {r : Reading}
    (current : m.getCurrentPcb = some p) (ran : m.resume fd buf count = some (m', r)) :
    Serves p m m' := by
  obtain ⟨q, mid, reading, current', polled, moved⟩ := resume_some ran
  obtain rfl : p = q := Option.some.inj (current.symm.trans current')
  have driver := (opsPoll_serves current polled).1
  have last := advance_serves mid p fd.toNat reading
  rw [← moved] at last
  exact driver.trans last

theorem created_serves (m : Machine) (p fd inode : Nat) (s : CString) (reserved : Nat → UInt8) :
    Serves p m (m.created p fd inode s reserved) := by
  simp only [created]
  exact (serves_setFs _).trans (serves_setFile fd _)

/-- **A file call serves the process that makes it**, and no other. -/
theorem fileCall_serves {call : FileCall} {v : Int} (current : m.getCurrentPcb = some p)
    (ran : call.run m = some (m', v)) : Serves p m m' := by
  cases call with
  | create fileName reserved =>
      rcases create_some ran with ⟨rfl, _⟩ | ⟨q, fd, inode, s, picks, rfl, _⟩
      · exact Serves.refl p m'
      · obtain rfl : p = q := Option.some.inj (current.symm.trans picks.current)
        exact created_serves m p fd inode s reserved
  | write fd buf count =>
      obtain ⟨q, current', ended⟩ := write_inv ran
      obtain rfl : p = q := Option.some.inj (current.symm.trans current')
      rcases ended with ⟨_, rfl, _⟩ | ⟨mid, _, wrote, rfl⟩
      · exact Serves.refl p m'
      · exact (opsWrite_serves current wrote).1.trans (serves_setFile fd.toNat _)
  | open' fileName =>
      rcases open_some ran with ⟨q, _, _, rfl, _⟩ | ⟨q, fd, index, den, ops, opens, _, rfl⟩
      · exact Serves.refl p m'
      · obtain rfl : p = q := Option.some.inj (current.symm.trans opens.current)
        exact (openedDevice_serves m p ops).trans (serves_setFile fd _)
  | close fd =>
      obtain ⟨q, current', ended⟩ := close_some ran
      obtain rfl : p = q := Option.some.inj (current.symm.trans current')
      rcases ended with ⟨_, rfl, _⟩ | ⟨_, _, _, rfl⟩
      · exact Serves.refl p m'
      · exact (closedDevice_serves m p _).trans (serves_setFile fd.toNat _)
  | delete fileName =>
      rcases delete_some ran with ⟨drawn, _⟩ | ⟨index, den, fs, _, _, rfl, _⟩
      · exact serves_of_drawn drawn
      · exact serves_setFs _

/-! ## Tables after a call -/

theorem setFile_files (m : Machine) (p fd : Nat) (file : File) (q fd' : Nat) :
    ((m.setFile p fd file).pcbs q).files fd' =
      if q = p ∧ fd' = fd then file else (m.pcbs q).files fd' := by
  simp only [Machine.setFile]
  by_cases here : q = p
  · subst here
    rw [setPcb_same]
    simp [Function.update_apply]
  · rw [setPcb_other _ _ here, if_neg fun both => here both.1]

theorem setFile_present (m : Machine) (p fd : Nat) (file : File) (q : Nat) :
    ((m.setFile p fd file).pcbs q).present = (m.pcbs q).present := by
  simp only [Machine.setFile]
  apply setPcb_field Pcb.present
  rfl

theorem setFile_rtc (m : Machine) (p fd : Nat) (file : File) (q : Nat) :
    ((m.setFile p fd file).pcbs q).rtc = (m.pcbs q).rtc := by
  simp only [Machine.setFile]
  apply setPcb_field Pcb.rtc
  rfl

theorem openedDevice_files (m : Machine) (p : Nat) (ops : FileOps) (q : Nat) :
    ((m.openedDevice p ops).pcbs q).files = (m.pcbs q).files := by
  simp only [openedDevice]
  split_ifs
  · apply setPcb_field Pcb.files
    rfl
  · rfl

theorem closedDevice_files (m : Machine) (p : Nat) (ops : FileOps) (q : Nat) :
    ((m.closedDevice p ops).pcbs q).files = (m.pcbs q).files := by
  simp only [closedDevice]
  split_ifs
  · apply setPcb_field Pcb.files
    rfl
  · rfl

/-- `read` moves the position of its own descriptor, and nothing else of the
tables. -/
theorem advance_files (m : Machine) (p fd : Nat) (r : Reading) : ∃ pos, ∀ q fd',
    (((m.advance p fd r).1).pcbs q).files fd' = if q = p ∧ fd' = fd then
      { (m.pcbs p).files fd with filePos := pos } else (m.pcbs q).files fd' := by
  have still : ∃ pos, ∀ q fd', (m.pcbs q).files fd' = if q = p ∧ fd' = fd then
      { (m.pcbs p).files fd with filePos := pos } else (m.pcbs q).files fd' := by
    refine ⟨((m.pcbs p).files fd).filePos, fun q fd' => ?_⟩
    split_ifs with here
    · rw [here.1, here.2]
    · rfl
  simp only [advance]
  cases r with
  | waiting => exact still
  | returned value buf =>
      dsimp only
      split_ifs
      · exact ⟨_, setFile_files m p fd _⟩
      · exact still

theorem advance_devices (m : Machine) (p fd : Nat) (r : Reading) :
    (m.advance p fd r).1.fs = m.fs ∧
      (∀ q, (((m.advance p fd r).1).pcbs q).present = (m.pcbs q).present) ∧
      ∀ q, (((m.advance p fd r).1).pcbs q).rtc = (m.pcbs q).rtc := by
  simp only [advance]
  cases r with
  | waiting => exact ⟨rfl, fun _ => rfl, fun _ => rfl⟩
  | returned value buf =>
      dsimp only
      split_ifs
      · exact ⟨rfl, fun q => setFile_present m p fd _ q, fun q => setFile_rtc m p fd _ q⟩
      · exact ⟨rfl, fun _ => rfl, fun _ => rfl⟩

/-- Only positions have changed in the tables. -/
structure SameButPos (m m' : Machine) : Prop where
  present : ∀ q, (m'.pcbs q).present = (m.pcbs q).present
  files : ∀ q fd, ∃ pos, (m'.pcbs q).files fd = { (m.pcbs q).files fd with filePos := pos }
  rtc : ∀ q, (m'.pcbs q).rtc = (m.pcbs q).rtc

theorem SameDevices.butPos (same : SameDevices m m') : SameButPos m m' :=
  ⟨same.present, fun q fd => ⟨((m.pcbs q).files fd).filePos, by rw [same.files]⟩, same.rtc⟩

theorem advance_butPos (same : SameDevices m m') (p fd : Nat) (r : Reading) :
    SameButPos m (m'.advance p fd r).1 := by
  obtain ⟨pos, files⟩ := advance_files m' p fd r
  obtain ⟨_, present, rtc⟩ := advance_devices m' p fd r
  constructor
  · intro q
    rw [present q, same.present]
  · intro q fd'
    rw [files q fd']
    split_ifs with here
    · exact ⟨pos, by rw [here.1, here.2, same.files]⟩
    · exact ⟨((m.pcbs q).files fd').filePos, by rw [same.files]⟩
  · intro q
    rw [rtc q, same.rtc]

/-- `read` leaves the file system alone, and of the tables all but positions. -/
theorem read_butPos {fd : Int} {buf : Option (Nat → UInt8)} {count : Nat} {r : Reading}
    (ran : m.read fd buf count = some (m', r)) : SameButPos m m' ∧ m'.fs = m.fs := by
  obtain ⟨p, current, ⟨_, rfl, _⟩ | ⟨mid, reading, _, started, moved⟩⟩ := read_some ran
  · exact ⟨(SameDevices.refl _).butPos, rfl⟩
  · obtain ⟨_, same, fs⟩ := opsRead_serves current started
    obtain rfl : m' = (mid.advance p fd.toNat reading).1 := congrArg Prod.fst moved
    exact ⟨advance_butPos same p fd.toNat reading,
      (advance_devices mid p fd.toNat reading).1.trans fs⟩

theorem resume_butPos {fd : Int} {buf : Option (Nat → UInt8)} {count : Nat} {r : Reading}
    (ran : m.resume fd buf count = some (m', r)) : SameButPos m m' ∧ m'.fs = m.fs := by
  obtain ⟨p, mid, reading, current, polled, moved⟩ := resume_some ran
  obtain ⟨_, same, fs⟩ := opsPoll_serves current polled
  obtain rfl : m' = (mid.advance p fd.toNat reading).1 := congrArg Prod.fst moved
  exact ⟨advance_butPos same p fd.toNat reading,
    (advance_devices mid p fd.toNat reading).1.trans fs⟩

end

end Illinix.Kernel
