/-
# Kernel.Failures -- calls that return -1

A call that returns -1 should leave its process as it was.  `read`, `open`,
`close` and `create` do.  `write` keeps what the driver returned in an unsigned
variable, so that its test for an error never fails, and a refused write moves
the position of the descriptor back by one.

`failures_iff`: a run leaves every table as it was on -1 exactly if no driver
refuses a write.  `Refuses` says when a driver does.
-/
import Illinix.Kernel.System

namespace Illinix.Kernel

open Illinix.FileSys Illinix.Theory Machine

set_option autoImplicit false

/-- The calls on descriptors, a blocked `read` among them. -/
inductive OnDescriptors : SystemCall → Prop where
  | read (fd : Int) (buf : Option (Nat → UInt8)) (count : Nat) : OnDescriptors (.read fd buf count)
  | resume (fd : Int) (buf : Option (Nat → UInt8)) (count : Nat) :
      OnDescriptors (.resume fd buf count)
  | write (fd : Int) (buf : Option (Nat → UInt8)) (count : Nat) :
      OnDescriptors (.file (.write fd buf count))
  | close (fd : Int) : OnDescriptors (.file (.close fd))
  | open' (fileName : Option CString) : OnDescriptors (.file (.open' fileName))
  | create (fileName : Option CString) (reserved : Nat → UInt8) :
      OnDescriptors (.file (.create fileName reserved))

/-- The call has returned -1. -/
inductive Failed : Outcome → Prop where
  | ended : Failed (.ended (.returned (-1)))
  | reading (buf : Option (Nat → UInt8)) : Failed (.reading (.returned (-1) buf))

/-- If the event is a call on descriptors that fails, its process has the
descriptors it had. -/
def FailsUnchanged (m : Machine) (e : SystemEvent) : Prop :=
  ∀ ebp body p m' outcome, e = .call ebp body → OnDescriptors body →
    (m.entered ebp).getCurrentPcb = some p → e.run m = some (m', outcome) → Failed outcome →
    (m'.pcbs p).files = (m.pcbs p).files

/-- The driver of `file` refuses to write `count` bytes of `buf` for process `p`.
A write to the terminal of 2^32 - 1 bytes counts as refused: `int32_t` has no
other value for it than -1. -/
def Refuses (m : Machine) (p : Nat) (file : File) (buf : Option (Nat → UInt8)) (count : Nat) : Prop :=
  match file.ops with
  | .stdin | .dir | .null => True
  | .stdout => buf.isSome ∧ count = 2 ^ 32 - 1
  | .file => buf.isNone ∨ count = 0 ∨ m.fs.bootBlock.inodeCount ≤ file.inode
  | .rtc => validFreq buf count = none ∨ (m.pcbs p).rtc = false

/-- If the event writes through a usable descriptor, the driver does not refuse. -/
def WritesAccepted (m : Machine) (e : SystemEvent) : Prop :=
  ∀ ebp p fd buf count, e = .call ebp (.file (.write fd buf count)) →
    (m.entered ebp).getCurrentPcb = some p → (m.entered ebp).usable p 0 fd = true →
    ¬Refuses (m.entered ebp) p ((m.pcbs p).files fd.toNat) buf count

section

variable {m m' : Machine} {p : Nat} {e : SystemEvent}

/-! ## write -/

/-- **When a driver's write returns -1.** -/
theorem opsWrite_refuses {file : File} {buf : Option (Nat → UInt8)} {count : Nat} {v : Int}
    (current : m.getCurrentPcb = some p) (wrote : m.opsWrite file buf count = some (m', v)) :
    v = -1 ↔ Refuses m p file buf count := by
  unfold opsWrite at wrote
  unfold Refuses
  cases ops : file.ops with
  | stdin | dir | null =>
      rw [ops] at wrote
      exact iff_of_true (Prod.mk.inj (Option.some.inj wrote)).2.symm trivial
  | stdout =>
      rw [ops] at wrote
      cases buf with
      | none =>
          obtain ⟨_, rfl⟩ := Prod.mk.inj (Option.some.inj wrote)
          exact iff_of_false (by decide) fun refused => nomatch refused.1
      | some buf =>
          simp only [terminalWrite] at wrote
          split_ifs at wrote with empty
          · obtain ⟨_, rfl⟩ := Prod.mk.inj (Option.some.inj wrote)
            refine iff_of_false (by decide) fun refused => ?_
            omega
          · obtain ⟨mid, _, wrote⟩ := Option.bind_eq_some_iff.1 wrote
            obtain ⟨_, rfl⟩ := Prod.mk.inj (Option.some.inj wrote)
            have value : i32 count = -1 ↔ count = 2 ^ 32 - 1 := by
              simp only [i32]
              constructor
              · intro same
                split_ifs at same
                omega
              · rintro rfl
                rfl
            exact value.trans ⟨fun all => ⟨rfl, all⟩, fun refused => refused.2⟩
  | file =>
      rw [ops] at wrote
      obtain ⟨⟨fs, value⟩, data, wrote⟩ := Option.bind_eq_some_iff.1 wrote
      obtain ⟨_, rfl⟩ := Prod.mk.inj (Option.some.inj wrote)
      exact writeData_refuses data
  | rtc =>
      rw [ops] at wrote
      rcases rtcWrite_some wrote with ⟨_, rfl, invalid | ⟨q, current', off⟩⟩ |
        ⟨q, freq, current', valid, on, rfl, _⟩
      · exact iff_of_true rfl (Or.inl invalid)
      · obtain rfl : p = q := Option.some.inj (current.symm.trans current')
        exact iff_of_true rfl (Or.inr off)
      · obtain rfl : p = q := Option.some.inj (current.symm.trans current')
        refine iff_of_false (by decide) ?_
        rintro (invalid | off)
        · cases valid.symm.trans invalid
        · exact Bool.false_ne_true (off.symm.trans on)

/-- A write that returns -1 leaves the table alone only through an unusable
descriptor. -/
theorem write_unchanged_iff {fd v : Int} {buf : Option (Nat → UInt8)} {count : Nat}
    (current : m.getCurrentPcb = some p) (ran : m.write fd buf count = some (m', v)) :
    (v = -1 → (m'.pcbs p).files = (m.pcbs p).files) ↔
      (m.usable p 0 fd = true → ¬Refuses m p ((m.pcbs p).files fd.toNat) buf count) := by
  obtain ⟨q, current', ⟨unusable, rfl, _⟩ | ⟨mid, usable, wrote, rfl⟩⟩ := write_inv ran
  · obtain rfl : p = q := Option.some.inj (current.symm.trans current')
    refine iff_of_true (fun _ => rfl) fun usable => ?_
    exact absurd (unusable.symm.trans usable) Bool.false_ne_true
  · obtain rfl : p = q := Option.some.inj (current.symm.trans current')
    rw [← opsWrite_refuses current wrote]
    constructor
    · intro unchanged _ failed
      have moved := congrFun (unchanged failed) fd.toNat
      rw [setFile_files, if_pos ⟨rfl, rfl⟩, (opsWrite_serves current wrote).2.files p] at moved
      have position := congrArg File.filePos moved
      subst failed
      simp only [u32] at position
      omega
    · intro accepted failed
      exact absurd failed (accepted usable)

/-! ## The other calls -/

theorem advance_unchanged {mid : Machine} {fd : Nat} {reading : Reading} {buf : Option (Nat → UInt8)}
    (moved : (m', Reading.returned (-1) buf) = mid.advance p fd reading) : m' = mid := by
  simp only [advance] at moved
  cases reading with
  | waiting => cases moved
  | returned value got =>
      dsimp only at moved
      split_ifs at moved with positive
      · obtain ⟨_, same⟩ := Prod.mk.inj moved
        obtain ⟨rfl, _⟩ := Reading.returned.inj same
        exact absurd positive (by decide)
      · exact (Prod.mk.inj moved).1

theorem read_unchanged {fd : Int} {buf buf' : Option (Nat → UInt8)} {count : Nat}
    (ran : m.read fd buf count = some (m', .returned (-1) buf')) (p : Nat) :
    (m'.pcbs p).files = (m.pcbs p).files := by
  obtain ⟨q, current, ⟨_, rfl, _⟩ | ⟨mid, reading, _, started, moved⟩⟩ := read_some ran
  · rfl
  · obtain rfl := advance_unchanged moved
    exact (opsRead_serves current started).2.1.files p

theorem resume_unchanged {fd : Int} {buf buf' : Option (Nat → UInt8)} {count : Nat}
    (ran : m.resume fd buf count = some (m', .returned (-1) buf')) (p : Nat) :
    (m'.pcbs p).files = (m.pcbs p).files := by
  obtain ⟨q, mid, reading, current, polled, moved⟩ := resume_some ran
  obtain rfl := advance_unchanged moved
  exact (opsPoll_serves current polled).2.1.files p

theorem open_unchanged {fileName : Option CString} (ran : m.open' fileName = some (m', -1)) :
    m' = m := by
  rcases open_some ran with ⟨_, _, _, same, _⟩ | ⟨_, fd, _, _, _, _, granted, _⟩
  · exact same
  · omega

theorem create_unchanged {fileName : Option CString} {reserved : Nat → UInt8}
    (ran : m.create fileName reserved = some (m', -1)) : m' = m := by
  rcases create_some ran with ⟨same, _⟩ | ⟨_, fd, _, _, _, _, granted⟩
  · exact same
  · omega

theorem close_unchanged {fd : Int} (ran : m.close fd = some (m', -1)) : m' = m := by
  rcases close_cases ran with ⟨_, same, _⟩ | ⟨_, _, _, closed⟩
  · exact same
  · cases closed

/-- What a failed call on descriptors does to the table of its process: nothing,
or it is a write. -/
theorem failed_unchanged {body : SystemCall} {outcome : Outcome} (on : OnDescriptors body)
    (ran : body.run m = some (m', outcome)) (failed : Failed outcome) (p : Nat) :
    (m'.pcbs p).files = (m.pcbs p).files ∨ ∃ fd buf count, body = .file (.write fd buf count) ∧
      m.write fd buf count = some (m', -1) := by
  cases on with
  | read fd buf count =>
      obtain ⟨⟨mid, r⟩, made, same⟩ := Option.map_eq_some_iff.1 ran
      cases failed with
      | ended => cases same
      | reading buf' =>
          cases same
          exact Or.inl (read_unchanged made p)
  | resume fd buf count =>
      obtain ⟨⟨mid, r⟩, made, same⟩ := Option.map_eq_some_iff.1 ran
      cases failed with
      | ended => cases same
      | reading buf' =>
          cases same
          exact Or.inl (resume_unchanged made p)
  | write fd buf count =>
      obtain ⟨⟨mid, v⟩, made, same⟩ := Option.map_eq_some_iff.1 ran
      cases failed with
      | reading buf' => cases same
      | ended =>
          cases same
          exact Or.inr ⟨fd, buf, count, rfl, made⟩
  | close fd =>
      obtain ⟨⟨mid, v⟩, made, same⟩ := Option.map_eq_some_iff.1 ran
      cases failed with
      | reading buf' => cases same
      | ended =>
          cases same
          rw [close_unchanged made]
          exact Or.inl rfl
  | open' fileName =>
      obtain ⟨⟨mid, v⟩, made, same⟩ := Option.map_eq_some_iff.1 ran
      cases failed with
      | reading buf' => cases same
      | ended =>
          cases same
          rw [open_unchanged made]
          exact Or.inl rfl
  | create fileName reserved =>
      obtain ⟨⟨mid, v⟩, made, same⟩ := Option.map_eq_some_iff.1 ran
      cases failed with
      | reading buf' => cases same
      | ended =>
          cases same
          rw [create_unchanged made]
          exact Or.inl rfl

/-- **Only write moves a position on -1**, and always. -/
theorem failsUnchanged_iff (step : systemStep m e = some m') :
    FailsUnchanged m e ↔ WritesAccepted m e := by
  constructor
  · rintro unchanged ebp p fd buf count rfl current
    obtain ⟨frame, outcome, ran⟩ := systemStep_call.1 step
    obtain ⟨⟨mid, v⟩, made, same⟩ := Option.map_eq_some_iff.1 ran
    cases same
    refine (write_unchanged_iff current made).1 fun failed => ?_
    subst failed
    exact unchanged ebp _ p _ _ rfl (.write fd buf count) current (run_call.2 ⟨frame, ran⟩) .ended
  · rintro accepted ebp body p n outcome rfl on current ran failed
    rcases failed_unchanged on (run_call.1 ran).2 failed p with same | ⟨fd, buf, count, rfl, made⟩
    · exact same
    · exact (write_unchanged_iff current made).2 (accepted ebp p fd buf count rfl current) rfl

end

/-- **Failed calls change no table, exactly when no write is refused.** Along
every run, every call on descriptors that returns -1 leaves the descriptors of
its process as they were, if and only if every write of the run through a usable
descriptor is one its driver does not refuse. -/
theorem failures_iff (m : Machine) (run : List SystemEvent) :
    Every systemStep (fun m e _ => FailsUnchanged m e) m run ↔
      Every systemStep (fun m e _ => WritesAccepted m e) m run := by
  refine every_congr (fun _ => True) ?_ (fun _ _ _ _ _ _ => trivial) run m trivial
  exact fun m e m' _ step => failsUnchanged_iff step

/-- A program opens "shell" and writes to it from NULL. -/
def openShell : List SystemEvent :=
  [.iret, .call 0x7FFF00 (.kernel (.execute (some shellName) fun _ => 0)),
    .call 0x7F9F00 (.file (.open' (some shellName)))]

/-- The write returns -1 and moves the position from 0 to 2^32 - 1. -/
theorem write_null_moves : ¬Every systemStep (fun m e _ => FailsUnchanged m e) shells
    (openShell ++ [.call 0x7F9F00 (.file (.write 2 none 1))]) := by
  intro every
  have state : (after systemStep shells openShell).map (fun m => (decide (m.Frame 0x7F9F00),
      ((m.pcbs 3).files 2).filePos, ((m.entered 0x7F9F00).write 2 none 1).map fun r =>
        (((r.1.pcbs 3).files 2).filePos, r.2))) = some (true, 0, some (2 ^ 32 - 1, -1)) := by
    rfl
  obtain ⟨m, reached, facts⟩ := Option.map_eq_some_iff.1 state
  obtain ⟨frame, facts⟩ := Prod.mk.inj facts
  obtain ⟨before, wrote⟩ := Prod.mk.inj facts
  obtain ⟨⟨m', v⟩, made, moved⟩ := Option.map_eq_some_iff.1 wrote
  obtain ⟨moved, rfl⟩ := Prod.mk.inj moved
  have ran : SystemEvent.run m (.call 0x7F9F00 (.file (.write 2 none 1))) =
      some (m', .ended (.returned (-1))) := by
    refine run_call.2 ⟨of_decide_eq_true frame, ?_⟩
    exact Option.map_eq_some_iff.2 ⟨_, made, rfl⟩
  have step : systemStep m (.call 0x7F9F00 (.file (.write 2 none 1))) = some m' :=
    Option.map_eq_some_iff.2 ⟨_, ran, rfl⟩
  have current : (m.entered 0x7F9F00).getCurrentPcb = some 3 :=
    getCurrentPcb_of_onStack (show OnStack 3 0x7F9F00 by decide)
  have unchanged := every_at openShell shells m m' every reached step
  have same := congrFun (unchanged _ _ 3 _ _ rfl (.write ..) current ran .ended) 2
  rw [same, before] at moved
  cases moved

end Illinix.Kernel
