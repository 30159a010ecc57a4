/-
# Kernel.Modifiers -- the modifier keys over whole runs

`keyboard_bitmap` is written by `keyboard_handler` only, and there only by the
keys of `modifierKey` (`sameKeys_system`).  So the codes typed so far determine
its bits: a log of them, the latest first, says of each shift key whether it is
held down, and the two bits of shift together are the switch that any press
turns on and any release turns off (`shifted_step`).

The two agree except while one shift key is held and the other was let go after
the last press: `recorded_iff` says that the recorded characters are right along
a run exactly if no key is recorded then whose two characters differ.
-/
import Illinix.Kernel.Lines
import Illinix.Theory.Switch

namespace Illinix.Kernel

open Illinix.FileSys Illinix.Theory Machine

set_option autoImplicit false

/-! ## What leaves the bitmap alone -/

def SameKeys (m m' : Machine) : Prop := m'.keyboardBitmap = m.keyboardBitmap

section

variable {m m' m'' : Machine}

theorem SameKeys.refl (m : Machine) : SameKeys m m := rfl

theorem SameKeys.trans (first : SameKeys m m') (second : SameKeys m' m'') : SameKeys m m'' :=
  Eq.trans second first

theorem keys_unseen : Unseen keyboardBitmap where
  mapped _ _ _ := rfl
  cursorPos _ _ := rfl
  cursor _ _ _ _ := rfl

theorem echo_keys {c : UInt8} (drew : m.echo c = some m') : SameKeys m m' :=
  keys_unseen.echo drew

theorem halt_keys {status : UInt8} {magic : Nat → UInt8} {ended : Ended}
    (ran : m.halt status magic = some (m', ended)) : SameKeys m m' := by
  obtain ⟨p, _, ⟨_, pid, parent, _, rfl, _⟩ | back⟩ := halt_inv ran
  · rfl
  · obtain ⟨q, _, _, rfl⟩ := returnToParent_some back
    rfl

theorem switchTerminal_keys {t : Nat} {ended : Ended}
    (ran : m.switchTerminal t = some (m', ended)) : SameKeys m m' := by
  rcases switchTerminal_some ran with ⟨_, rfl⟩ | ⟨curr, mid, m₁, _, swapped, _, rfl, rfl, _⟩
  · rfl
  · have same := keys_unseen.swapScreens swapped
    exact same

/-! ## The keyboard handler -/

theorem pushInput_keys {c : UInt8} (pushed : m.pushInput c = some m') : SameKeys m m' := by
  simp only [pushInput] at pushed
  split_ifs at pushed
  obtain rfl := Option.some.inj pushed
  rfl

theorem popInput_keys (popped : m.popInput = some m') : SameKeys m m' := by
  simp only [popInput] at popped
  split_ifs at popped
  obtain rfl := Option.some.inj popped
  rfl

theorem visibleKey_keys {scancode : Nat} {ch : UInt8}
    (typed : m.visibleKey scancode ch = some m') : SameKeys m m' := by
  simp only [visibleKey] at typed
  split_ifs at typed
  · exact keys_unseen.clear typed
  · obtain rfl := Option.some.inj typed
    rfl
  · obtain rfl := Option.some.inj typed
    rfl
  · obtain ⟨mid, drew, typed⟩ := Option.bind_eq_some_iff.1 typed
    split_ifs at typed
    · exact (echo_keys drew).trans (pushInput_keys typed)
    · obtain rfl := Option.some.inj typed
      exact echo_keys drew

theorem lineKey_keys {scancode : Nat} (typed : m.lineKey scancode = some m') : SameKeys m m' := by
  simp only [lineKey] at typed
  split_ifs at typed
  · obtain ⟨mid, drew, pushed⟩ := Option.bind_eq_some_iff.1 typed
    exact (echo_keys drew).trans (pushInput_keys pushed)
  · obtain ⟨mid, drew, popped⟩ := Option.bind_eq_some_iff.1 typed
    exact (echo_keys drew).trans (popInput_keys popped)
  · obtain rfl := Option.some.inj typed
    rfl
  · obtain ⟨mid, drew, ended⟩ := Option.bind_eq_some_iff.1 typed
    obtain rfl := Option.some.inj ended
    have same := echo_keys drew
    exact same
  · obtain rfl := Option.some.inj typed
    rfl
  · exact visibleKey_keys typed

/-- The bitmap after a scan code. -/
def keysAfter (m : Machine) (scancode : Nat) : Machine := (m.modifierKey scancode).getD m

theorem keyboardHandler_keys {scancode : Nat} {ended : Ended}
    (ran : m.keyboardHandler scancode = some (m', ended)) :
    m'.keyboardBitmap = (keysAfter m scancode).keyboardBitmap := by
  simp only [keyboardHandler] at ran
  split_ifs at ran with switches
  · rw [keysAfter, modifierKey_switch switches]
    exact switchTerminal_keys ran
  · obtain ⟨mid, typed, same⟩ := Option.map_eq_some_iff.1 ran
    cases same
    simp only [typeKey] at typed
    rw [keysAfter]
    split at typed
    · rename_i next modifier
      obtain rfl := Option.some.inj typed
      rw [modifier]
      rfl
    · rename_i plain
      rw [plain]
      exact lineKey_keys typed

/-! ## The other calls -/

theorem kernel_keys {call : KernelCall} {ended : Ended} (other : ∀ scancode,
    call ≠ .keyboardHandler scancode) (ran : call.run m = some (m', ended)) : SameKeys m m' := by
  cases call with
  | execute command magic =>
      rcases execute_some ran with ⟨rfl, _⟩ | ⟨pid, parent, _, rfl, _⟩
      · rfl
      · rfl
  | halt status magic => exact halt_keys ran
  | raise vector address =>
      obtain ⟨mid, raised, same⟩ := Option.map_eq_some_iff.1 ran
      cases same
      simp only [raise, Option.bind_eq_bind, Option.bind_eq_some_iff] at raised
      obtain ⟨message, _, mid, drew, raised⟩ := raised
      obtain rfl := Option.some.inj raised
      have same := keys_unseen.puts message drew
      exact same
  | pitHandler magic =>
      obtain ⟨curr, mid, m₁, rfl, _, rfl, rest⟩ := pitHandler_some ran
      have screen : SameKeys m _ := keys_unseen.turnScreen m m.nextTermId
      rcases rest with ⟨_, halted⟩ | ⟨rfl, _⟩
      · have same := halt_keys halted
        exact screen.trans same
      · exact screen
  | keyboardHandler scancode => exact absurd rfl (other scancode)
  | vidmap start =>
      obtain ⟨⟨mid, v⟩, mapped, same⟩ := Option.map_eq_some_iff.1 ran
      cases same
      rcases vidmap_some mapped with ⟨rfl, _⟩ | ⟨curr, _, _, rfl⟩
      · rfl
      · rfl
  | putc c =>
      obtain ⟨mid, drew, same⟩ := Option.map_eq_some_iff.1 ran
      cases same
      exact keys_unseen.putc drew

theorem opsWrite_keys {file : File} {buf : Option (Nat → UInt8)} {count : Nat} {v : Int}
    (wrote : m.opsWrite file buf count = some (m', v)) : SameKeys m m' := by
  simp only [opsWrite] at wrote
  cases ops : file.ops with
  | stdout =>
      rw [ops] at wrote
      cases buf with
      | none =>
          cases wrote
          rfl
      | some buf =>
          simp only [terminalWrite] at wrote
          split_ifs at wrote
          · cases wrote
            rfl
          · obtain ⟨mid, drew, wrote⟩ := Option.bind_eq_some_iff.1 wrote
            cases wrote
            have same := keys_unseen.puts _ drew
            exact same
  | file =>
      rw [ops] at wrote
      obtain ⟨⟨fs, value⟩, _, wrote⟩ := Option.bind_eq_some_iff.1 wrote
      cases wrote
      rfl
  | rtc =>
      rw [ops] at wrote
      rcases rtcWrite_some wrote with ⟨rfl, _⟩ | ⟨q, freq, _, _, _, _, rfl⟩
      · rfl
      · rfl
  | stdin | dir | null =>
      rw [ops] at wrote
      cases wrote
      rfl

theorem terminalPoll_keys {buf : Nat → UInt8} {count : Nat} {r : Reading}
    (polled : m.terminalPoll buf count = some (m', r)) : SameKeys m m' := by
  simp only [terminalPoll] at polled
  split_ifs at polled
  all_goals
    cases polled
    rfl

theorem opsRead_keys {file : File} {buf : Option (Nat → UInt8)} {count : Nat} {r : Reading}
    (started : m.opsRead file buf count = some (m', r)) : SameKeys m m' := by
  simp only [opsRead] at started
  cases ops : file.ops with
  | stdin =>
      rw [ops] at started
      cases buf with
      | none =>
          cases started
          rfl
      | some buf =>
          simp only [terminalRead] at started
          split_ifs at started
          · cases started
            rfl
          · have same := terminalPoll_keys started
            exact same
  | file =>
      rw [ops] at started
      obtain rfl := fileRead_same started
      rfl
  | dir =>
      rw [ops] at started
      cases buf with
      | none =>
          cases started
          rfl
      | some buf =>
          simp only [dirRead] at started
          split_ifs at started
          all_goals
            cases started
            rfl
  | rtc =>
      rw [ops] at started
      obtain ⟨q, _, rfl, _⟩ := rtcRead_some started
      rfl
  | stdout | null =>
      rw [ops] at started
      cases started
      rfl

theorem opsPoll_keys {file : File} {buf : Option (Nat → UInt8)} {count : Nat} {r : Reading}
    (polled : m.opsPoll file buf count = some (m', r)) : SameKeys m m' := by
  simp only [opsPoll] at polled
  split at polled
  · exact terminalPoll_keys polled
  · obtain ⟨q, _, ⟨_, rfl, _⟩ | ⟨_, _, _, rfl⟩ | ⟨_, _, rfl, _⟩⟩ := rtcPoll_some polled
    all_goals rfl
  · cases polled

theorem advance_keys (m : Machine) (p fd : Nat) (r : Reading) :
    SameKeys m (m.advance p fd r).1 := by
  cases r with
  | waiting => rfl
  | returned value buf =>
      simp only [advance]
      split_ifs
      · rfl
      · rfl

theorem delete_keys {fileName : Option CString} {v : Int}
    (ran : m.delete fileName = some (m', v)) : SameKeys m m' := by
  simp only [Machine.delete, Option.bind_eq_bind, Option.bind_eq_some_iff] at ran
  obtain ⟨found, lookup, ran⟩ := ran
  cases found with
  | none =>
      obtain ⟨mid, drew, ran⟩ := Option.bind_eq_some_iff.1 ran
      cases ran
      exact keys_unseen.puts _ drew
  | some entry =>
      obtain ⟨index, den⟩ := entry
      dsimp only at ran
      split_ifs at ran
      · obtain ⟨mid, drew, ran⟩ := Option.bind_eq_some_iff.1 ran
        cases ran
        exact keys_unseen.puts _ drew
      · obtain ⟨fs, _, ran⟩ := Option.bind_eq_some_iff.1 ran
        split_ifs at ran
        cases ran
        rfl

theorem fileCall_keys {call : FileCall} {v : Int} (made : call.run m = some (m', v)) :
    SameKeys m m' := by
  cases call with
  | write fd buf count =>
      obtain ⟨p, _, ⟨_, rfl, _⟩ | ⟨mid, _, wrote, rfl⟩⟩ := write_inv made
      · rfl
      · have same := opsWrite_keys wrote
        exact same
  | create fileName reserved =>
      rcases create_some made with ⟨rfl, _⟩ | ⟨q, fd, inode, s, picks, rfl, _⟩
      · rfl
      · rfl
  | open' fileName =>
      rcases open_some made with ⟨q, _, _, rfl, _⟩ | ⟨q, fd, index, den, ops, opens, _, rfl⟩
      · rfl
      · show SameKeys m (m.openedDevice q ops)
        simp only [openedDevice]
        split_ifs <;> rfl
  | close fd =>
      obtain ⟨q, _, ⟨_, rfl, _⟩ | ⟨_, _, _, rfl⟩⟩ := close_some made
      · rfl
      · show SameKeys m (m.closedDevice q _)
        simp only [closedDevice]
        split_ifs <;> rfl
  | delete fileName => exact delete_keys made

theorem sameKeys_entered {ebp : Nat} (same : SameKeys (m.entered ebp) m') : SameKeys m m' := same

/-- The code that an event types. -/
def typedCode : SystemEvent → Option Nat
  | .call _ (.kernel (.keyboardHandler scancode)) => some scancode
  | _ => none

/-- **Only the keyboard handler writes `keyboard_bitmap`.** -/
theorem sameKeys_system {e : SystemEvent} (silent : typedCode e = none)
    (step : systemStep m e = some m') : SameKeys m m' := by
  obtain ⟨outcome, ran⟩ := ran_of_step step
  cases ran with
  | iret => rfl
  | @kernel ebp call _ _ _ made =>
      refine sameKeys_entered (kernel_keys (fun scancode same => ?_) made)
      subst same
      exact nomatch silent
  | file _ made => exact sameKeys_entered (fileCall_keys made)
  | read _ made =>
      obtain ⟨p, _, ⟨_, rfl, _⟩ | ⟨mid, reading, _, started, moved⟩⟩ := read_some made
      · rfl
      · obtain rfl : m' = (mid.advance p _ reading).1 := congrArg Prod.fst moved
        exact sameKeys_entered ((opsRead_keys started).trans (advance_keys mid p _ reading))
  | resume _ made =>
      obtain ⟨p, mid, reading, _, polled, moved⟩ := resume_some made
      obtain rfl : m' = (mid.advance p _ reading).1 := congrArg Prod.fst moved
      exact sameKeys_entered ((opsPoll_keys polled).trans (advance_keys mid p _ reading))
  | rtcHandler => rfl

/-! ## The bits of shift -/

theorem pressed_iff {key : Nat} : m.pressed key = true ↔ m.keyboardBitmap &&& key ≠ 0 := by
  simp [pressed]

theorem pressed_setKeys {keys key : Nat} :
    (m.setKeys keys).pressed key = true ↔ m.pressed key = true ∨ keys &&& key ≠ 0 := by
  simp only [pressed_iff, setKeys]
  rw [Nat.and_or_distrib_right, Ne, Nat.or_eq_zero_iff, not_and_or]

theorem pressed_clearKeys {keys key : Nat} : (m.clearKeys keys).pressed key = true ↔
    m.keyboardBitmap &&& ((0xFFFFFFFF ^^^ keys) &&& key) ≠ 0 := by
  rw [pressed_iff, ← Nat.and_assoc]
  rfl

/-- The keyboard handler takes characters from the shifted map. -/
def shiftDown (m : Machine) : Prop := m.pressed kbfLeftShift ∨ m.pressed kbfRightShift

def isShift (scancode : Nat) : Bool := scancode == scLeftShift || scancode == scRightShift

def isShiftRel (scancode : Nat) : Bool := scancode == scLeftShiftRel || scancode == scRightShiftRel

theorem shiftDown_of_set {keys : Nat}
    (other : keys &&& kbfLeftShift = 0 ∧ keys &&& kbfRightShift = 0) :
    shiftDown (m.setKeys keys) ↔ shiftDown m := by
  simp only [shiftDown, pressed_setKeys, other, ne_eq, not_true_eq_false, or_false]

theorem shiftDown_of_clear {keys : Nat}
    (left : (0xFFFFFFFF ^^^ keys) &&& kbfLeftShift = kbfLeftShift)
    (right : (0xFFFFFFFF ^^^ keys) &&& kbfRightShift = kbfRightShift) :
    shiftDown (m.clearKeys keys) ↔ shiftDown m := by
  simp only [shiftDown, pressed_clearKeys, left, right, ← pressed_iff]

/-- A press of either key sets the bits of shift, a release of either clears
them. -/
theorem shifted_step (m : Machine) (scancode : Nat) : shiftDown (keysAfter m scancode) ↔
    isShift scancode = true ∨ isShiftRel scancode = false ∧ shiftDown m := by
  have apart : isShift scancode = true → isShiftRel scancode = false := by
    simp only [isShift, isShiftRel, Bool.or_eq_true, beq_iff_eq, Bool.or_eq_false_iff,
      beq_eq_false_iff_ne, scLeftShift, scRightShift, scLeftShiftRel, scRightShiftRel]
    omega
  simp only [keysAfter, modifierKey]
  split_ifs with left right released caps alt control control'
  · simp [shiftDown, pressed_setKeys, isShift, left, kbfLeftShift]
  · simp [shiftDown, pressed_setKeys, isShift, right, kbfRightShift]
  · have rel : isShiftRel scancode = true := by simpa [isShiftRel] using released
    have press : isShift scancode = false := by simp [isShift, left, right]
    simp [shiftDown, pressed_clearKeys, rel, press, kbfLeftShift, kbfRightShift]
  all_goals
    have rel : isShiftRel scancode = false := by simpa [isShiftRel] using released
    have press : isShift scancode = false := by simp [isShift, left, right]
    simp only [rel, press, Bool.false_eq_true, false_or, true_and, Option.getD]
  · exact shiftDown_of_clear rfl rfl
  · exact shiftDown_of_set ⟨rfl, rfl⟩
  · exact shiftDown_of_set ⟨rfl, rfl⟩
  · exact shiftDown_of_clear rfl rfl

/-! ## Recorded characters -/

def keyChar (shift : Bool) (scancode : Nat) : UInt8 :=
  (if shift then visibleScancodeMapShifted else visibleScancodeMap).getD scancode 0

/-- The input line of the shown terminal has got a character. -/
def Recorded (m m' : Machine) (c : UInt8) : Prop :=
  (m'.terms m.shownTermId).length = (m.terms m.shownTermId).length + 1 ∧
    (m'.terms m.shownTermId).content (m.terms m.shownTermId).length = c

/-- The maps have their characters at the same keys. -/
theorem hidden_shifted {scancode : Nat} (hidden : keyChar false scancode = 0) :
    keyChar true scancode = 0 := by
  have listed : ∀ code, code < visibleScancodeMapShifted.length →
      visibleScancodeMap.getD code 0 = 0 → visibleScancodeMapShifted.getD code 0 = 0 := by decide
  by_cases inside : scancode < visibleScancodeMapShifted.length
  · exact listed scancode inside hidden
  · simp only [keyChar]
    exact List.getD_eq_default _ _ (Nat.le_of_not_lt inside)

/-- A visible key is none of the other keys. -/
theorem visible_keyOf {scancode : Nat} (visible : keyChar false scancode ≠ 0) :
    m.keyOf scancode = if m.pressed kbfControl then none else some (.char (m.charOf scancode)) := by
  have plain : ∀ code, keyChar false code = 0 → scancode ≠ code := by
    rintro _ hidden rfl
    exact visible hidden
  have low : scancode < 0x3B := by
    by_contra high
    exact visible (List.getD_eq_default _ _ (le_trans (by decide) (Nat.le_of_not_lt high)))
  have modifier : m.modifierKey scancode = none := by
    simp only [modifierKey]
    rw [if_neg (plain _ rfl), if_neg (plain _ rfl), if_neg (not_or.2 ⟨plain _ rfl, plain _ rfl⟩),
      if_neg (plain _ rfl), if_neg (plain _ rfl), if_neg (plain _ rfl), if_neg (plain _ rfl)]
  have keys : ¬(scF1 ≤ scancode ∧ scancode ≤ scF3 ∨ (m.modifierKey scancode).isSome = true) := by
    rw [modifier]
    simp only [scF1, scF3, Option.isSome_none, Bool.false_eq_true, or_false]
    omega
  simp only [keyOf]
  rw [if_neg keys, if_neg (plain _ rfl), if_neg (plain _ rfl), if_neg (plain _ rfl)]
  by_cases control : m.pressed kbfControl = true
  · rw [if_pos (Or.inr control), if_pos control]
  · rw [if_neg control]
    exact if_neg (not_or.2 ⟨visible, control⟩)

theorem charOf_eq {shift : Bool} (same : shiftDown m ↔ shift = true) (scancode : Nat) :
    m.charOf scancode = keyChar shift scancode := by
  cases shift with
  | true => exact congrArg (List.getD · scancode 0) (if_pos (same.2 rfl))
  | false => exact congrArg (List.getD · scancode 0) (if_neg fun down => nomatch same.1 down)

/-- What a visible key records. -/
theorem recorded_visible {scancode : Nat} {ended : Ended} {c : UInt8}
    (visible : keyChar false scancode ≠ 0)
    (ran : m.keyboardHandler scancode = some (m', ended)) :
    Recorded m m' c ↔ m.pressed kbfControl = false ∧
      (m.terms m.shownTermId).length < maxTerminal ∧ c = m.charOf scancode := by
  have line := keyboardHandler_line ran m.shownTermId
  rw [if_pos rfl, visible_keyOf visible] at line
  have recorded : Recorded m m' c ↔
      (m'.terms m.shownTermId).line.length = (m.terms m.shownTermId).line.length + 1 ∧
        (m'.terms m.shownTermId).line.content (m.terms m.shownTermId).line.length = c := Iff.rfl
  have full : (m.terms m.shownTermId).length = (m.terms m.shownTermId).line.length := rfl
  rw [recorded, full, line]
  generalize (m.terms m.shownTermId).line = before
  cases m.pressed kbfControl with
  | true => simp [Line.after]
  | false =>
      by_cases room : before.length < maxTerminal
      · simp [Line.after, LineOp.apply, Key.apply, room, eq_comm]
      · simp [Line.after, LineOp.apply, Key.apply, room]

end

/-! ## Runs -/

/-- The machine and the codes typed so far, the latest first. -/
abbrev Logged := Machine × List Nat

def loggedStep (s : Logged) (e : SystemEvent) : Option Logged :=
  (systemStep s.1 e).map fun m => (m, (typedCode e).toList ++ s.2)

def leftHeld (log : List Nat) : Bool := switched (· == scLeftShift) (· == scLeftShiftRel) log

def rightHeld (log : List Nat) : Bool := switched (· == scRightShift) (· == scRightShiftRel) log

def shiftHeld (log : List Nat) : Bool := leftHeld log || rightHeld log

/-- The last code of a shift key, of either of them, is a press. -/
def lastPressed (log : List Nat) : Bool := switched isShift isShiftRel log

/-- Each shift key is pressed while it is up and released while it is down. -/
def Paired : List Nat → Prop
  | [] => True
  | scancode :: log => Paired log ∧
      (scancode = scLeftShift → leftHeld log = false) ∧
      (scancode = scLeftShiftRel → leftHeld log = true) ∧
      (scancode = scRightShift → rightHeld log = false) ∧
      (scancode = scRightShiftRel → rightHeld log = true)

/-- What a visible key records is of the shifted map exactly if a shift key is
held down. -/
def RecordsShift (s : Logged) (e : SystemEvent) (t : Logged) : Prop :=
  ∀ scancode c, typedCode e = some scancode → keyChar false scancode ≠ 0 →
    Recorded s.1 t.1 c → c = keyChar (shiftHeld s.2) scancode

/-- A key with two characters is recorded while a shift key is held down and the
last code of a shift key was a release. -/
def TypesLetGo (s : Logged) (e : SystemEvent) : Prop :=
  ∃ scancode, typedCode e = some scancode ∧ keyChar true scancode ≠ keyChar false scancode ∧
    shiftHeld s.2 = true ∧ lastPressed s.2 = false ∧
    s.1.pressed kbfControl = false ∧ (s.1.terms s.1.shownTermId).length < maxTerminal

section

variable {m m' : Machine} {log : List Nat}

/-- A shift key is down if the last code was a press. -/
theorem shiftHeld_of_lastPressed (pressed : lastPressed log = true) : shiftHeld log = true := by
  rw [shiftHeld, Bool.or_eq_true]
  exact switched_or (fun _ => rfl) (fun _ => rfl) log pressed

theorem lastPressed_cons (scancode : Nat) (log : List Nat) : lastPressed (scancode :: log) = true ↔
    isShift scancode = true ∨ isShiftRel scancode = false ∧ lastPressed log = true := by
  cases press : isShift scancode with
  | true => simp [lastPressed, switched_on press]
  | false =>
      cases release : isShiftRel scancode with
      | true => simp [lastPressed, switched_off press release]
      | false => simp [lastPressed, switched_still press release]

/-- An event that types a code is a call of the handler. -/
theorem typedCode_some {e : SystemEvent} {scancode : Nat} (typed : typedCode e = some scancode)
    (step : systemStep m e = some m') : ∃ ebp ended,
      e = .call ebp (.kernel (.keyboardHandler scancode)) ∧
      (m.entered ebp).keyboardHandler scancode = some (m', ended) := by
  unfold typedCode at typed
  split at typed
  · obtain rfl := Option.some.inj typed
    obtain ⟨_, outcome, ran⟩ := systemStep_call.1 step
    obtain ⟨⟨next, ended⟩, handled, same⟩ := Option.map_eq_some_iff.1 ran
    cases same
    exact ⟨_, ended, rfl, handled⟩
  · exact nomatch typed

/-- **The bits of shift over a run**: they are set while the last code of a shift
key is a press. -/
theorem shifted_run {e : SystemEvent} (bits : shiftDown m ↔ lastPressed log = true)
    (step : systemStep m e = some m') :
    shiftDown m' ↔ lastPressed ((typedCode e).toList ++ log) = true := by
  cases typed : typedCode e with
  | none =>
      have same : shiftDown m' ↔ shiftDown m := by
        have keys : m'.keyboardBitmap = m.keyboardBitmap := sameKeys_system typed step
        simp only [shiftDown, pressed, keys]
      exact same.trans bits
  | some scancode =>
      obtain ⟨ebp, ended, rfl, ran⟩ := typedCode_some typed step
      have keys := keyboardHandler_keys ran
      have shift : shiftDown m' ↔ shiftDown (keysAfter (m.entered ebp) scancode) := by
        simp only [shiftDown, pressed, keys]
      rw [shift, shifted_step]
      refine Iff.trans ?_ (lastPressed_cons scancode log).symm
      rw [← bits]
      rfl

/-- What one step records, from a state whose bits of shift fit the log. -/
theorem recordsShift_iff {s t : Logged} {e : SystemEvent}
    (bits : shiftDown s.1 ↔ lastPressed s.2 = true) (step : systemStep s.1 e = some t.1) :
    RecordsShift s e t ↔ ¬TypesLetGo s e := by
  cases typed : typedCode e with
  | none => simp [RecordsShift, TypesLetGo, typed]
  | some scancode =>
      by_cases visible : keyChar false scancode = 0
      · have alike : keyChar true scancode = keyChar false scancode := by
          rw [visible, hidden_shifted visible]
        have records : RecordsShift s e t := by
          intro code c typed' visible' _
          obtain rfl : scancode = code := Option.some.inj (typed.symm.trans typed')
          exact absurd visible visible'
        have idle : ¬TypesLetGo s e := by
          rintro ⟨code, typed', differ, _⟩
          obtain rfl : scancode = code := Option.some.inj (typed.symm.trans typed')
          exact differ alike
        exact iff_of_true records idle
      · obtain ⟨ebp, ended, rfl, ran⟩ := typedCode_some typed step
        have recorded : ∀ c, Recorded s.1 t.1 c ↔ _ := fun c =>
          recorded_visible (m := s.1.entered ebp) visible ran
        have char : (s.1.entered ebp).charOf scancode = keyChar (lastPressed s.2) scancode :=
          charOf_eq bits scancode
        have records : RecordsShift s (.call ebp (.kernel (.keyboardHandler scancode))) t ↔
            (s.1.pressed kbfControl = false →
              (s.1.terms s.1.shownTermId).length < maxTerminal →
              keyChar (lastPressed s.2) scancode = keyChar (shiftHeld s.2) scancode) := by
          constructor
          · intro records control room
            exact records scancode _ typed visible ((recorded _).2 ⟨control, room, char.symm⟩)
          · intro right code c typed' _ got
            obtain rfl : scancode = code := Option.some.inj (typed.symm.trans typed')
            obtain ⟨control, room, rfl⟩ := (recorded c).1 got
            rw [char]
            exact right control room
        rw [records]
        constructor
        · rintro right ⟨code, typed', differ, held, letGo, control, room⟩
          obtain rfl : scancode = code := Option.some.inj (typed.symm.trans typed')
          have same := right control room
          rw [held, letGo] at same
          exact differ same.symm
        · intro idle control room
          cases pressed : lastPressed s.2 with
          | true => rw [shiftHeld_of_lastPressed pressed]
          | false =>
              cases held : shiftHeld s.2 with
              | false => rfl
              | true =>
                  by_contra differ
                  exact idle ⟨scancode, typed, fun same => differ same.symm, held, pressed, control,
                    room⟩

end

/-- **Shift and the recorded characters, exactly.** From a state with no shift
key down, every visible character of a run is recorded from the shifted map
exactly if a shift key is held down then, if and only if no key with two
characters is recorded while one shift key is held and the last code of a shift
key was a release. -/
theorem recorded_iff (m : Machine) (up : ¬shiftDown m) (run : List SystemEvent) :
    Every loggedStep RecordsShift (m, []) run ↔
      Every loggedStep (fun s e _ => ¬TypesLetGo s e) (m, []) run := by
  refine every_congr (fun s => shiftDown s.1 ↔ lastPressed s.2 = true) ?_ ?_ run (m, []) ?_
  · intro s e t bits step
    obtain ⟨next, stepped, rfl⟩ := Option.map_eq_some_iff.1 step
    exact recordsShift_iff bits stepped
  · intro s e t bits step _
    obtain ⟨next, stepped, rfl⟩ := Option.map_eq_some_iff.1 step
    exact shifted_run bits stepped
  · exact iff_of_false up Bool.false_ne_true

/-- A scan code, with the first shell in user mode. -/
def typeCode (scancode : Nat) : SystemEvent := .call 0x7FFF00 (.kernel (.keyboardHandler scancode))

/-- Left shift, right shift, and left shift let go. -/
def letGo : List SystemEvent :=
  [.iret, typeCode scLeftShift, typeCode scRightShift, typeCode scLeftShiftRel]

/-- After these codes the key "a" is recorded as "a", with right shift down. -/
theorem letGo_plain : Paired ((letGo ++ [typeCode 0x1E]).filterMap typedCode).reverse ∧
    ¬Every loggedStep RecordsShift (shells, []) (letGo ++ [typeCode 0x1E]) := by
  have codes : ((letGo ++ [typeCode 0x1E]).filterMap typedCode).reverse =
      [0x1E, scLeftShiftRel, scRightShift, scLeftShift] := rfl
  refine ⟨?_, fun every => ?_⟩
  · rw [codes]
    simp [Paired, leftHeld, rightHeld, switched, scLeftShift, scLeftShiftRel, scRightShift,
      scRightShiftRel]
  · have state : ((after loggedStep (shells, []) letGo).bind fun s =>
        (loggedStep s (typeCode 0x1E)).map fun t =>
          (s.2, (s.1.terms s.1.shownTermId).length, (t.1.terms s.1.shownTermId).length,
            (t.1.terms s.1.shownTermId).content 0)) =
        some ([scLeftShiftRel, scRightShift, scLeftShift], 0, 1, 0x61) := by
      decide +kernel
    obtain ⟨s, reached, state⟩ := Option.bind_eq_some_iff.1 state
    obtain ⟨t, step, state⟩ := Option.map_eq_some_iff.1 state
    obtain ⟨log, empty, one, char⟩ : s.2 = _ ∧ _ = 0 ∧ _ = 1 ∧ _ = (0x61 : UInt8) := by
      simpa only [Prod.mk.injEq] using state
    have records := every_at _ _ s t every reached step
    have right := records 0x1E 0x61 rfl (by decide) ⟨by rw [one, empty], by rw [empty, char]⟩
    rw [log] at right
    exact absurd right (by decide)

/-- The same codes, then "[", which has one character. -/
theorem letGo_bracket : Every loggedStep RecordsShift (shells, []) (letGo ++ [typeCode 0x1A]) ↔
    Every loggedStep (fun s e _ => ¬TypesLetGo s e) (shells, []) (letGo ++ [typeCode 0x1A]) :=
  have up : ¬(shells.pressed kbfLeftShift = true ∨ shells.pressed kbfRightShift = true) := by decide
  recorded_iff shells up _

end Illinix.Kernel
