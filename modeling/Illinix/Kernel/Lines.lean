/-
# Kernel.Lines -- the input lines of the terminals

Keyboard handler and terminal driver share three fields of each terminal: the
content, its length and `in_progress`.  A `LineOp` is what one of them does to
these fields, `lineOp` which one an event does to the line of terminal `t`.

`lines_step` says that nothing else happens to a line: the keys reach the line of
the shown terminal, `terminal_read` and `terminal_write` the line of the active
one, and the rest of the kernel none.
-/
import Illinix.Kernel.System

namespace Illinix.Kernel

open Illinix.Console Illinix.FileSys Illinix.Theory Machine

set_option autoImplicit false

/-! ## Lines and what is done to them -/

structure Line where
  content : Nat → UInt8
  length : Nat
  inProgress : Bool

def Terminal.line (t : Terminal) : Line := ⟨t.content, t.length, t.inProgress⟩

/-- A key of the line. -/
inductive Key where
  | char (c : UInt8)
  | backspace
  | enter
  deriving DecidableEq

def Key.apply (line : Line) : Key → Line
  | .char c =>
      if line.length < maxTerminal then
        { line with
          content := Function.update line.content line.length c
          length := line.length + 1 }
      else line
  | .backspace =>
      if 0 < line.length then
        { line with
          content := Function.update line.content (line.length - 1) 0
          length := line.length - 1 }
      else line
  | .enter => { line with inProgress := false }

/-- The terminal driver on a line: the start of `terminal_read`, its end, and the
end of `terminal_write`. -/
inductive LineOp where
  | key (key : Key)
  | start
  | take
  | flush
  deriving DecidableEq

def LineOp.apply (line : Line) : LineOp → Line
  | .key k => k.apply line
  | .start => { line with inProgress := true }
  | .take => { line with length := 0, inProgress := true }
  | .flush => { line with length := 0 }

namespace Machine

/-- The key of the line that a scan code is, for `keyboard_handler`. -/
def keyOf (m : Machine) (scancode : Nat) : Option Key :=
  if scF1 ≤ scancode ∧ scancode ≤ scF3 ∨ (m.modifierKey scancode).isSome then none
  else if scancode = scTab then some (.char '\t'.toUInt8)
  else if scancode = scBackspace then some .backspace
  else if scancode = scEnter then some .enter
  else if visibleScancodeMap.getD scancode 0 = 0 ∨ m.pressed kbfControl then none
  else some (.char (m.charOf scancode))

/-- `files[fd].ops` of the current process, if `fd` is present. -/
def opsOf (m : Machine) (fd : Int) : Option FileOps :=
  m.getCurrentPcb.bind fun p =>
    if m.usable p 0 fd then some ((m.pcbs p).files fd.toNat).ops else none

/-- The driver the current process is blocked in with `fd`. -/
def blockedIn (m : Machine) (fd : Int) : Option FileOps :=
  m.getCurrentPcb.map fun p => ((m.pcbs p).files fd.toNat).ops

/-- What a call does to the line of the active terminal. -/
def driverOp (m : Machine) : SystemCall → Option LineOp
  | .file (.write fd (some _) count) =>
      if m.opsOf fd = some .stdout ∧ count ≠ 0 then some .flush else none
  | .read fd (some _) count =>
      if m.opsOf fd = some .stdin ∧ count ≠ 0 then some .start else none
  | .resume fd (some _) _ =>
      if m.blockedIn fd = some .stdin ∧ (m.terms m.activeTermId).inProgress = false then some .take
      else none
  | _ => none

/-- The key a kernel call has read. -/
def callKey (m : Machine) : KernelCall → Option Key
  | .keyboardHandler scancode => m.keyOf scancode
  | _ => none

/-- The key an event types on terminal `t`. -/
def typed (m : Machine) (t : Nat) : SystemEvent → Option Key
  | .call _ (.kernel call) => if t = m.shownTermId then m.callKey call else none
  | _ => none

/-- What an event does to the line of terminal `t`. -/
def lineOp (m : Machine) (t : Nat) : SystemEvent → Option LineOp
  | .call ebp (.kernel call) => (m.typed t (.call ebp (.kernel call))).map .key
  | .call ebp body => if t = m.activeTermId then (m.entered ebp).driverOp body else none
  | .iret => none

end Machine

/-- The line after what is done to it, if anything is. -/
def Line.after (line : Line) (op : Option LineOp) : Line := op.elim line (LineOp.apply line)

/-! ## What the screen's functions leave alone -/

/-- `f` depends on nothing that the functions of the screen write: the screen and
its pages, the stored cursors and the published one. -/
structure Unseen {β : Type} (f : Machine → β) : Prop where
  mapped (m : Machine) (screen : Screen Bus) (page : Pte) :
    f { m with screen := screen, userVidmem := page } = f m
  cursorPos (m : Machine) (pos : Int) : f { m with cursorPos := pos } = f m
  cursor (m : Machine) (t : Nat) (x y : Int) : f (m.setCursor t x y) = f m

namespace Unseen

variable {β : Type} {f : Machine → β} {m m' : Machine}

theorem screen (unseen : Unseen f) (m : Machine) (screen : Screen Bus) :
    f { m with screen := screen } = f m :=
  unseen.mapped m screen m.userVidmem

theorem pos (unseen : Unseen f) (m : Machine) (x y : Int) : f (m.setCursorPos x y) = f m :=
  unseen.cursorPos m _

theorem coordinate (unseen : Unseen f) (m : Machine) (x y : Int) :
    f (m.setScreenCoordinate x y) = f m :=
  unseen.screen m _

theorem mapVidmem (unseen : Unseen f) (m : Machine) (frame : Nat) :
    f (m.mapVidmem frame) = f m :=
  unseen.mapped m _ _

theorem showCursor (unseen : Unseen f) (shown : m.showCursor = some m') : f m' = f m := by
  obtain ⟨curr, _, shown⟩ := Option.bind_eq_some_iff.1 shown
  split_ifs at shown
  · obtain rfl := Option.some.inj shown
    rw [unseen.pos, unseen.cursor]
  · obtain rfl := Option.some.inj shown
    rfl

theorem putc (unseen : Unseen f) {c : UInt8} (drew : m.putc c = some m') : f m' = f m := by
  obtain ⟨⟨screen, updates⟩, _, drew⟩ := Option.bind_eq_some_iff.1 drew
  cases updates with
  | false =>
      obtain rfl := Option.some.inj drew
      exact unseen.screen m screen
  | true => exact (unseen.showCursor drew).trans (unseen.screen m screen)

theorem puts (unseen : Unseen f) (bytes : List UInt8) :
    ∀ {m m' : Machine}, Machine.puts bytes m = some m' → f m' = f m := by
  induction bytes with
  | nil =>
      intro m m' drew
      obtain rfl := Option.some.inj drew
      rfl
  | cons c rest ih =>
      intro m m' drew
      obtain ⟨mid, first, later⟩ := Option.bind_eq_some_iff.1 drew
      exact (ih later).trans (unseen.putc first)

theorem echo (unseen : Unseen f) {c : UInt8} (drew : m.echo c = some m') : f m' = f m := by
  simp only [Machine.echo] at drew
  split_ifs at drew
  · exact unseen.putc drew
  · obtain ⟨mid, put, drew⟩ := Option.bind_eq_some_iff.1 drew
    obtain rfl := Option.some.inj drew
    rw [unseen.coordinate, unseen.pos, unseen.cursor]
    calc f (mid.setVideoMem vidmemIndex) = f mid := unseen.screen mid _
      _ = f ((m.setScreenCoordinate _ _).setVideoMem (vidmemIndex + 1)) := unseen.putc put
      _ = f (m.setScreenCoordinate _ _) := unseen.screen _ _
      _ = f m := unseen.coordinate m _ _

theorem clear (unseen : Unseen f) (cleared : m.clear = some m') : f m' = f m := by
  simp only [Machine.clear, Option.bind_eq_bind, Option.bind_eq_some_iff] at cleared
  obtain ⟨vid, _, cleared⟩ := cleared
  obtain rfl := Option.some.inj cleared
  split_ifs
  · rw [unseen.coordinate, unseen.cursor, unseen.screen]
  · rw [unseen.cursor, unseen.screen]

theorem copyPage (unseen : Unseen f) {dst src : Nat} (copied : m.copyPage dst src = some m') :
    f m' = f m := by
  simp only [Machine.copyPage] at copied
  split_ifs at copied
  obtain rfl := Option.some.inj copied
  exact unseen.screen m _

theorem turnScreen (unseen : Unseen f) (m : Machine) (t : Nat) : f (m.turnScreen t) = f m := by
  simp only [Machine.turnScreen]
  split_ifs
  · rw [unseen.coordinate, unseen.pos, unseen.mapVidmem, unseen.cursor]
  · rw [unseen.coordinate, unseen.mapVidmem, unseen.cursor]

theorem swapScreens (unseen : Unseen f) {t : Nat} (swapped : m.swapScreens t = some m') :
    f m' = f m := by
  simp only [Machine.swapScreens, Option.bind_eq_bind, Option.bind_eq_some_iff] at swapped
  obtain ⟨first, one, second, two, done⟩ := swapped
  obtain rfl := Option.some.inj done
  rw [unseen.pos, unseen.coordinate, unseen.mapVidmem, unseen.cursor, unseen.copyPage two,
    unseen.copyPage one]

end Unseen

def SameLines (m m' : Machine) : Prop := ∀ t, (m'.terms t).line = (m.terms t).line

section

variable {m m' m'' : Machine}

/-! ## What leaves the lines alone -/

theorem SameLines.refl (m : Machine) : SameLines m m := fun _ => rfl

theorem SameLines.trans (first : SameLines m m') (second : SameLines m' m'') : SameLines m m'' :=
  fun t => (second t).trans (first t)

theorem setTerm_line (m : Machine) (t : Nat) (term : Terminal) (u : Nat) :
    ((m.setTerm t term).terms u).line = if u = t then term.line else (m.terms u).line := by
  by_cases here : u = t
  · subst here
    simp [setTerm]
  · simp [setTerm, here]

theorem setTerm_lines {t : Nat} {term : Terminal} (same : term.line = (m.terms t).line) :
    SameLines m (m.setTerm t term) := by
  intro u
  rw [setTerm_line]
  split_ifs with here
  · rw [here, same]
  · rfl

theorem setCursor_lines (m : Machine) (t : Nat) (x y : Int) : SameLines m (m.setCursor t x y) := by
  apply setTerm_lines
  rfl

theorem lines_unseen : Unseen fun (m : Machine) t => (m.terms t).line where
  mapped _ _ _ := rfl
  cursorPos _ _ := rfl
  cursor m t x y := funext (setCursor_lines m t x y)

theorem putc_lines {c : UInt8} (drew : m.putc c = some m') : SameLines m m' :=
  congrFun (lines_unseen.putc drew)

theorem puts_lines (bytes : List UInt8) (drew : puts bytes m = some m') : SameLines m m' :=
  congrFun (lines_unseen.puts bytes drew)

theorem echo_lines {c : UInt8} (drew : m.echo c = some m') : SameLines m m' :=
  congrFun (lines_unseen.echo drew)

theorem clear_lines (cleared : m.clear = some m') : SameLines m m' :=
  congrFun (lines_unseen.clear cleared)

theorem launched_lines (m : Machine) (pid : Nat) (parent : Option Nat) :
    SameLines m (m.launched pid parent) := by
  simp only [launched, launching]
  exact setTerm_lines (m := m.setPcb pid _) rfl

theorem givenUp_lines (m : Machine) (p : Nat) : SameLines m (m.givenUp p) := by
  simp only [givenUp, released]
  exact setTerm_lines (m := Machine.refiled _ _ _) rfl

theorem halt_lines {status : UInt8} {magic : Nat → UInt8} {ended : Ended}
    (ran : m.halt status magic = some (m', ended)) : SameLines m m' := by
  obtain ⟨p, _, ⟨_, pid, parent, _, rfl, _⟩ | back⟩ := halt_inv ran
  · exact (givenUp_lines m p).trans (launched_lines _ _ _)
  · obtain ⟨q, _, _, rfl⟩ := returnToParent_some back
    exact (givenUp_lines m p).trans (setTerm_lines rfl)

theorem turnScreen_lines (m : Machine) (t : Nat) : SameLines m (m.turnScreen t) :=
  congrFun (lines_unseen.turnScreen m t)

theorem swapScreens_lines {t : Nat} (swapped : m.swapScreens t = some m') : SameLines m m' :=
  congrFun (lines_unseen.swapScreens swapped)

/-! ## Keys -/

/-- A key of the line, once it has been drawn. -/
theorem drawn_line {k : Key} {t : Nat} {mid : Machine} (drawn : SameLines m mid)
    (shown : mid.shownTermId = m.shownTermId)
    (typed : ∀ u, (m'.terms u).line =
      if u = mid.shownTermId then k.apply (mid.terms u).line else (mid.terms u).line) :
    (m'.terms t).line = (m.terms t).line.after
      ((if t = m.shownTermId then some k else none).map .key) := by
  rw [typed, shown, drawn t]
  split_ifs <;> rfl

theorem pushInput_line {c : UInt8} (pushed : m.pushInput c = some m') (u : Nat) :
    (m'.terms u).line =
      if u = m.shownTermId then (Key.char c).apply (m.terms u).line else (m.terms u).line := by
  unfold pushInput at pushed
  dsimp only at pushed
  split_ifs at pushed with room
  obtain rfl := Option.some.inj pushed
  rw [setTerm_line]
  split_ifs with here
  · subst here
    exact (if_pos room).symm
  · rfl

theorem popInput_line (some' : 0 < (m.terms m.shownTermId).length) (popped : m.popInput = some m')
    (u : Nat) : (m'.terms u).line =
      if u = m.shownTermId then Key.backspace.apply (m.terms u).line else (m.terms u).line := by
  unfold popInput at popped
  dsimp only at popped
  split_ifs at popped
  obtain rfl := Option.some.inj popped
  rw [setTerm_line]
  split_ifs with here
  · subst here
    exact (if_pos some').symm
  · rfl

/-- A key that changes no line. -/
theorem idle_line {k : Key} (same : SameLines m m')
    (idle : k.apply (m.terms m.shownTermId).line = (m.terms m.shownTermId).line) (t : Nat) :
    (m'.terms t).line = (m.terms t).line.after
      ((if t = m.shownTermId then some k else none).map .key) := by
  rw [same t]
  split_ifs with here
  · rw [here]
    exact idle.symm
  · rfl

theorem still_line {k : Option Key} (silent : k = none) (same : SameLines m m') (t : Nat) :
    (m'.terms t).line = (m.terms t).line.after
      ((if t = m.shownTermId then k else none).map .key) := by
  subst silent
  rw [ite_self]
  exact same t

/-- A visible key, with control up or down. -/
theorem visibleKey_line {scancode : Nat} {c : UInt8} (typed : m.visibleKey scancode c = some m')
    (t : Nat) : (m'.terms t).line = (m.terms t).line.after
      ((if t = m.shownTermId then if m.pressed kbfControl then none else some (.char c)
        else none).map .key) := by
  unfold visibleKey at typed
  dsimp only at typed
  by_cases control : m.pressed kbfControl = true
  · rw [if_pos control] at typed
    apply still_line (if_pos control)
    split_ifs at typed
    · exact clear_lines typed
    · obtain rfl := Option.some.inj typed
      exact setTerm_lines rfl
    · obtain rfl := Option.some.inj typed
      exact SameLines.refl m
  · rw [if_neg control] at typed ⊢
    obtain ⟨mid, drew, typed⟩ := Option.bind_eq_some_iff.1 typed
    have shown : mid.shownTermId = m.shownTermId := congrArg Context.shownTermId (echo_drawn drew)
    have lines := echo_lines drew
    split_ifs at typed with room
    · exact drawn_line lines shown (pushInput_line typed)
    · obtain rfl := Option.some.inj typed
      apply idle_line lines
      rw [← lines m.shownTermId, ← shown]
      exact if_neg room

/-- The keys of the line reach the line of the shown terminal. -/
theorem lineKey_line {scancode : Nat} (other : ¬(scF1 ≤ scancode ∧ scancode ≤ scF3))
    (plain : m.modifierKey scancode = none) (typed : m.lineKey scancode = some m') (t : Nat) :
    (m'.terms t).line = (m.terms t).line.after
      ((if t = m.shownTermId then m.keyOf scancode else none).map .key) := by
  have line : ¬(scF1 ≤ scancode ∧ scancode ≤ scF3 ∨ (m.modifierKey scancode).isSome) := by
    rw [plain]
    simpa using other
  simp only [keyOf]
  simp only [lineKey] at typed
  rw [if_neg line]
  split_ifs at typed with filler back some' ends hidden
  · obtain ⟨mid, drew, pushed⟩ := Option.bind_eq_some_iff.1 typed
    rw [if_pos filler]
    exact drawn_line (echo_lines drew) (congrArg Context.shownTermId (echo_drawn drew))
      (pushInput_line pushed)
  · obtain ⟨mid, drew, popped⟩ := Option.bind_eq_some_iff.1 typed
    have shown : mid.shownTermId = m.shownTermId := congrArg Context.shownTermId (echo_drawn drew)
    have lines := echo_lines drew
    have some'' : 0 < (mid.terms mid.shownTermId).length := by
      rw [shown]
      exact lt_of_lt_of_eq some' (congrArg Line.length (lines m.shownTermId)).symm
    rw [if_neg filler, if_pos back]
    exact drawn_line lines shown (popInput_line some'' popped)
  · obtain rfl := Option.some.inj typed
    rw [if_neg filler, if_pos back]
    exact idle_line (k := .backspace) (SameLines.refl m) (if_neg some') t
  · obtain ⟨mid, drew, ended⟩ := Option.bind_eq_some_iff.1 typed
    obtain rfl := Option.some.inj ended
    rw [if_neg filler, if_neg back, if_pos ends]
    refine drawn_line (echo_lines drew) (congrArg Context.shownTermId (echo_drawn drew)) fun u => ?_
    rw [setTerm_line]
    split_ifs with here
    · rw [here]
      rfl
    · rfl
  · obtain rfl := Option.some.inj typed
    rw [if_neg filler, if_neg back, if_neg ends, if_pos (Or.inl hidden)]
    exact still_line rfl (SameLines.refl m) t
  · rw [if_neg filler, if_neg back, if_neg ends]
    simp only [hidden, false_or]
    exact visibleKey_line typed t

/-- `keyboard_handler` on the lines. -/
theorem keyboardHandler_line {scancode : Nat} {ended : Ended}
    (ran : m.keyboardHandler scancode = some (m', ended)) (t : Nat) :
    (m'.terms t).line = (m.terms t).line.after
      ((if t = m.shownTermId then m.keyOf scancode else none).map .key) := by
  have still : m.keyOf scancode = none → SameLines m m' →
      (m'.terms t).line = (m.terms t).line.after
        ((if t = m.shownTermId then m.keyOf scancode else none).map .key) := by
    intro none' same
    rw [none', ite_self]
    exact same t
  simp only [keyboardHandler] at ran
  split_ifs at ran with switches
  · apply still (if_pos (Or.inl switches))
    rcases switchTerminal_some ran with ⟨_, rfl⟩ | ⟨curr, mid, m₁, _, swapped, _, rfl, rfl, _⟩
    · exact fun _ => rfl
    · exact fun u => swapScreens_lines swapped u
  · obtain ⟨mid, typed, same⟩ := Option.map_eq_some_iff.1 ran
    cases same
    simp only [typeKey] at typed
    cases plain : m.modifierKey scancode with
    | some next =>
        rw [plain] at typed
        obtain rfl := Option.some.inj typed
        apply still (if_pos (Or.inr (by rw [plain]; rfl)))
        simp only [modifierKey] at plain
        split_ifs at plain
        all_goals
          obtain rfl := Option.some.inj plain
          exact SameLines.refl m
    | none =>
        rw [plain] at typed
        exact lineKey_line switches plain typed t

/-! ## The other kernel calls -/

theorem kernel_lines {call : KernelCall} {ended : Ended} (other : ∀ scancode,
    call ≠ .keyboardHandler scancode) (ran : call.run m = some (m', ended)) : SameLines m m' := by
  cases call with
  | execute command magic =>
      rcases execute_some ran with ⟨rfl, _⟩ | ⟨pid, parent, _, rfl, _⟩
      · exact SameLines.refl m'
      · exact launched_lines m pid parent
  | halt status magic => exact halt_lines ran
  | raise vector address =>
      obtain ⟨mid, raised, same⟩ := Option.map_eq_some_iff.1 ran
      cases same
      simp only [raise, Option.bind_eq_bind, Option.bind_eq_some_iff] at raised
      obtain ⟨message, _, mid, drew, raised⟩ := raised
      obtain rfl := Option.some.inj raised
      exact fun u => puts_lines message drew u
  | pitHandler magic =>
      obtain ⟨curr, mid, m₁, rfl, _, rfl, rest⟩ := pitHandler_some ran
      have screen := turnScreen_lines m m.nextTermId
      rcases rest with ⟨_, halted⟩ | ⟨rfl, _⟩
      · exact fun u => (halt_lines halted u).trans (screen u)
      · exact fun u => screen u
  | keyboardHandler scancode => exact absurd rfl (other scancode)
  | vidmap start =>
      obtain ⟨⟨mid, v⟩, mapped, same⟩ := Option.map_eq_some_iff.1 ran
      cases same
      rcases vidmap_some mapped with ⟨rfl, _⟩ | ⟨curr, _, _, rfl⟩
      · exact fun _ => rfl
      · exact fun _ => rfl
  | putc c =>
      obtain ⟨mid, drew, same⟩ := Option.map_eq_some_iff.1 ran
      cases same
      exact putc_lines drew

theorem kernelCall_line {call : KernelCall} {ended : Ended} (ran : call.run m = some (m', ended))
    (t : Nat) : (m'.terms t).line = (m.terms t).line.after
      ((if t = m.shownTermId then m.callKey call else none).map .key) := by
  cases call with
  | keyboardHandler scancode => exact keyboardHandler_line ran t
  | execute _ _ | halt _ _ | raise _ _ | pitHandler _ | vidmap _ | putc _ =>
      have same := kernel_lines (fun _ => KernelCall.noConfusion) ran t
      simp only [callKey]
      rw [ite_self]
      exact same

/-! ## The terminal driver -/

/-- A call that does `op` to the line of the active terminal, if it does anything. -/
def DoesOp (m m' : Machine) (op : Option LineOp) : Prop :=
  ∀ t, (m'.terms t).line = (m.terms t).line.after (if t = m.activeTermId then op else none)

theorem doesNothing (same : SameLines m m') : DoesOp m m' none := by
  intro t
  rw [ite_self]
  exact same t

theorem setActive_does {term : Terminal} (op : LineOp)
    (applied : op.apply (m.terms m.activeTermId).line = term.line) :
    DoesOp m (m.setTerm m.activeTermId term) (some op) := by
  intro t
  rw [setTerm_line]
  split_ifs with here
  · rw [here]
    exact applied.symm
  · rfl

theorem terminalWrite_does {buf : Option (Nat → UInt8)} {count : Nat} {v : Int}
    (wrote : m.terminalWrite buf count = some (m', v)) :
    DoesOp m m' (if buf.isSome ∧ count ≠ 0 then some .flush else none) := by
  cases buf with
  | none =>
      cases wrote
      exact doesNothing (SameLines.refl m)
  | some buf =>
      unfold terminalWrite at wrote
      dsimp only at wrote
      split_ifs at wrote with empty
      · cases wrote
        rw [if_neg (fun both => both.2 empty)]
        exact doesNothing (SameLines.refl m)
      · obtain ⟨mid, drew, wrote⟩ := Option.bind_eq_some_iff.1 wrote
        cases wrote
        have active : mid.activeTermId = m.activeTermId :=
          congrArg Context.activeTermId (puts_drawn _ drew)
        rw [if_pos ⟨rfl, empty⟩, active]
        intro t
        rw [setTerm_line, ← puts_lines _ drew t]
        split_ifs with here
        · rw [here]
          rfl
        · rfl

theorem terminalPoll_does {buf : Nat → UInt8} {count : Nat} {r : Reading}
    (polled : m.terminalPoll buf count = some (m', r)) : DoesOp m m'
      (if (m.terms m.activeTermId).inProgress = false then some .take else none) := by
  unfold terminalPoll at polled
  dsimp only at polled
  by_cases waits : (m.terms m.activeTermId).inProgress = true
  · rw [if_pos waits] at polled
    cases polled
    rw [waits]
    exact doesNothing (SameLines.refl m)
  · rw [if_neg waits] at polled
    rw [if_pos (by simpa using waits)]
    split_ifs at polled
    all_goals
      cases polled
      exact setActive_does .take rfl

theorem terminalRead_does {buf : Option (Nat → UInt8)} {count : Nat} {r : Reading}
    (started : m.terminalRead buf count = some (m', r)) :
    DoesOp m m' (if buf.isSome ∧ count ≠ 0 then some .start else none) := by
  cases buf with
  | none =>
      cases started
      exact doesNothing (SameLines.refl m)
  | some buf =>
      unfold terminalRead at started
      dsimp only at started
      split_ifs at started with empty
      · cases started
        rw [if_neg (fun both => both.2 empty)]
        exact doesNothing (SameLines.refl m)
      · rw [if_pos ⟨rfl, empty⟩]
        have waits : ((m.setTerm m.activeTermId { m.terms m.activeTermId with
            inProgress := true }).terms m.activeTermId).inProgress = true := by
          simp [setTerm]
        unfold terminalPoll at started
        rw [show (m.setTerm m.activeTermId { m.terms m.activeTermId with
          inProgress := true }).activeTermId = m.activeTermId from rfl] at started
        dsimp only at started
        rw [if_pos waits] at started
        cases started
        exact setActive_does .start rfl

theorem terms_lines (same : m'.terms = m.terms) : SameLines m m' := by
  intro t
  rw [same]

/-- `files[fd].ops->write`: only the terminal's reaches a line. -/
theorem opsWrite_does {file : File} {buf : Option (Nat → UInt8)} {count : Nat} {v : Int}
    (wrote : m.opsWrite file buf count = some (m', v)) :
    DoesOp m m' (if buf.isSome ∧ file.ops = .stdout ∧ count ≠ 0 then some .flush else none) := by
  simp only [opsWrite] at wrote
  cases ops : file.ops with
  | stdout =>
      rw [ops] at wrote
      simpa only [true_and] using terminalWrite_does wrote
  | file =>
      rw [ops] at wrote
      obtain ⟨⟨fs, value⟩, _, wrote⟩ := Option.bind_eq_some_iff.1 wrote
      cases wrote
      rw [if_neg (by simp)]
      exact doesNothing (terms_lines rfl)
  | rtc =>
      rw [ops] at wrote
      rw [if_neg (by simp)]
      apply doesNothing
      rcases rtcWrite_some wrote with ⟨rfl, _⟩ | ⟨q, freq, _, _, _, _, rfl⟩
      · exact SameLines.refl m'
      · exact terms_lines rfl
  | stdin | dir | null =>
      rw [ops] at wrote
      cases wrote
      rw [if_neg (by simp)]
      exact doesNothing (SameLines.refl m)

/-- `files[fd].ops->read`. -/
theorem opsRead_does {file : File} {buf : Option (Nat → UInt8)} {count : Nat} {r : Reading}
    (started : m.opsRead file buf count = some (m', r)) :
    DoesOp m m' (if buf.isSome ∧ file.ops = .stdin ∧ count ≠ 0 then some .start else none) := by
  simp only [opsRead] at started
  cases ops : file.ops with
  | stdin =>
      rw [ops] at started
      simpa only [true_and] using terminalRead_does started
  | file =>
      rw [ops] at started
      obtain rfl := fileRead_same started
      rw [if_neg (by simp)]
      exact doesNothing (SameLines.refl m')
  | dir =>
      rw [ops] at started
      rw [if_neg (by simp)]
      apply doesNothing
      cases buf with
      | none =>
          cases started
          exact terms_lines rfl
      | some buf =>
          unfold dirRead at started
          dsimp only at started
          split_ifs at started
          all_goals
            cases started
            exact terms_lines rfl
  | rtc =>
      rw [ops] at started
      obtain ⟨q, _, rfl, _⟩ := rtcRead_some started
      rw [if_neg (by simp)]
      exact doesNothing (terms_lines rfl)
  | stdout | null =>
      rw [ops] at started
      cases started
      rw [if_neg (by simp)]
      exact doesNothing (SameLines.refl m)

/-- The loop of a blocked `files[fd].ops->read`. -/
theorem opsPoll_does {file : File} {buf : Option (Nat → UInt8)} {count : Nat} {r : Reading}
    (polled : m.opsPoll file buf count = some (m', r)) :
    DoesOp m m' (if buf.isSome ∧ file.ops = .stdin ∧ (m.terms m.activeTermId).inProgress = false
      then some .take else none) := by
  simp only [opsPoll] at polled
  split at polled
  · rename_i ops
    simpa only [ops, true_and, Option.isSome_some] using terminalPoll_does polled
  · rename_i ops
    rw [if_neg (by simp [ops])]
    apply doesNothing
    obtain ⟨q, _, ⟨_, rfl, _⟩ | ⟨_, _, _, rfl⟩ | ⟨_, _, rfl, _⟩⟩ := rtcPoll_some polled
    · exact SameLines.refl m'
    · exact terms_lines rfl
    · exact SameLines.refl m'
  · cases polled

theorem advance_lines (m : Machine) (p fd : Nat) (r : Reading) :
    SameLines m (m.advance p fd r).1 := by
  simp only [advance]
  cases r with
  | waiting => exact SameLines.refl m
  | returned value buf =>
      dsimp only
      split_ifs
      · exact terms_lines rfl
      · exact SameLines.refl m

theorem DoesOp.then {mid : Machine} {op : Option LineOp} (does : DoesOp m mid op)
    (same : SameLines mid m') : DoesOp m m' op := by
  intro t
  rw [same t]
  exact does t

theorem opsOf_iff {p : Nat} {fd : Int} {ops : FileOps} (current : m.getCurrentPcb = some p) :
    m.opsOf fd = some ops ↔
      m.usable p 0 fd = true ∧ ((m.pcbs p).files fd.toNat).ops = ops := by
  simp only [opsOf]
  rw [current, Option.bind_some]
  split_ifs with usable
  · simp [usable]
  · simp [usable]

theorem delete_lines {fileName : Option CString} {v : Int}
    (ran : m.delete fileName = some (m', v)) : SameLines m m' := by
  simp only [Machine.delete, Option.bind_eq_bind, Option.bind_eq_some_iff] at ran
  obtain ⟨found, lookup, ran⟩ := ran
  cases found with
  | none =>
      obtain ⟨mid, drew, ran⟩ := Option.bind_eq_some_iff.1 ran
      cases ran
      exact puts_lines _ drew
  | some entry =>
      obtain ⟨index, den⟩ := entry
      dsimp only at ran
      split_ifs at ran
      · obtain ⟨mid, drew, ran⟩ := Option.bind_eq_some_iff.1 ran
        cases ran
        exact puts_lines _ drew
      · obtain ⟨fs, _, ran⟩ := Option.bind_eq_some_iff.1 ran
        split_ifs at ran
        cases ran
        exact terms_lines rfl

theorem write_does {fd v : Int} {buf : Option (Nat → UInt8)} {count : Nat}
    (ran : m.write fd buf count = some (m', v)) :
    DoesOp m m' (m.driverOp (.file (.write fd buf count))) := by
  obtain ⟨p, current, ended⟩ := write_inv ran
  have ops : m.opsOf fd = some .stdout ↔ _ := opsOf_iff current
  rcases ended with ⟨unusable, rfl, _⟩ | ⟨mid, usable, wrote, rfl⟩
  · have idle : m'.driverOp (.file (.write fd buf count)) = none := by
      cases buf with
      | none => rfl
      | some buf =>
          rw [unusable] at ops
          exact if_neg fun both => nomatch (ops.1 both.1).1
    rw [idle]
    exact doesNothing (SameLines.refl m')
  · refine (show DoesOp m mid _ from ?_).then (terms_lines rfl)
    have driver := opsWrite_does wrote
    cases buf with
    | none => exact driver
    | some buf => simpa only [driverOp, ops, usable, Option.isSome_some, true_and] using driver

theorem read_does {fd : Int} {buf : Option (Nat → UInt8)} {count : Nat} {r : Reading}
    (ran : m.read fd buf count = some (m', r)) : DoesOp m m' (m.driverOp (.read fd buf count)) := by
  obtain ⟨p, current, ended⟩ := read_some ran
  have ops : m.opsOf fd = some .stdin ↔ _ := opsOf_iff current
  rcases ended with ⟨unusable, rfl, _⟩ | ⟨mid, reading, usable, started, moved⟩
  · have idle : m'.driverOp (.read fd buf count) = none := by
      cases buf with
      | none => rfl
      | some buf =>
          rw [unusable] at ops
          exact if_neg fun both => nomatch (ops.1 both.1).1
    rw [idle]
    exact doesNothing (SameLines.refl m')
  · obtain rfl : m' = (mid.advance p fd.toNat reading).1 := congrArg Prod.fst moved
    refine (show DoesOp m mid _ from ?_).then (advance_lines mid p fd.toNat reading)
    have driver := opsRead_does started
    cases buf with
    | none => exact driver
    | some buf => simpa only [driverOp, ops, usable, Option.isSome_some, true_and] using driver

theorem resume_does {fd : Int} {buf : Option (Nat → UInt8)} {count : Nat} {r : Reading}
    (ran : m.resume fd buf count = some (m', r)) :
    DoesOp m m' (m.driverOp (.resume fd buf count)) := by
  obtain ⟨p, mid, reading, current, polled, moved⟩ := resume_some ran
  obtain rfl : m' = (mid.advance p fd.toNat reading).1 := congrArg Prod.fst moved
  refine (show DoesOp m mid _ from ?_).then (advance_lines mid p fd.toNat reading)
  have driver := opsPoll_does polled
  cases buf with
  | none => exact driver
  | some buf =>
      simpa only [driverOp, blockedIn, current, Option.map_some, Option.some.injEq,
        Option.isSome_some, true_and] using driver

/-- A call on files reaches the line of the active terminal only. -/
theorem fileCall_does {call : FileCall} {v : Int} (made : call.run m = some (m', v)) :
    DoesOp m m' (m.driverOp (.file call)) := by
  cases call with
  | write fd buf count => exact write_does made
  | create fileName reserved =>
      apply doesNothing
      rcases create_some made with ⟨rfl, _⟩ | ⟨q, fd, inode, s, picks, rfl, _⟩
      · exact SameLines.refl m'
      · exact terms_lines rfl
  | open' fileName =>
      apply doesNothing
      rcases open_some made with ⟨q, _, _, rfl, _⟩ | ⟨q, fd, index, den, ops, opens, _, rfl⟩
      · exact SameLines.refl m'
      · apply terms_lines
        simp only [openedDevice]
        split_ifs <;> rfl
  | close fd =>
      apply doesNothing
      obtain ⟨q, _, ended⟩ := close_some made
      rcases ended with ⟨_, rfl, _⟩ | ⟨_, _, _, rfl⟩
      · exact SameLines.refl m'
      · apply terms_lines
        simp only [closedDevice]
        split_ifs <;> rfl
  | delete fileName => exact doesNothing (delete_lines made)

theorem entered_callKey (m : Machine) (ebp : Nat) (call : KernelCall) :
    (m.entered ebp).callKey call = m.callKey call := by
  cases call with
  | keyboardHandler scancode =>
      have modifier : ((m.entered ebp).modifierKey scancode).isSome =
          (m.modifierKey scancode).isSome := by
        simp only [modifierKey]
        split_ifs <;> rfl
      unfold callKey keyOf
      dsimp only
      rw [modifier]
      rfl
  | execute _ _ | halt _ _ | raise _ _ | pitHandler _ | vidmap _ | putc _ => rfl

/-- **The lines after a step**: each event does to each line what `lineOp` says. -/
theorem lines_step {e : SystemEvent} (step : systemStep m e = some m') (t : Nat) :
    (m'.terms t).line = (m.terms t).line.after (m.lineOp t e) := by
  obtain ⟨outcome, ran⟩ := ran_of_step step
  cases ran with
  | iret => rfl
  | kernel _ made =>
      have line := kernelCall_line made t
      rwa [entered_callKey] at line
  | file _ made => exact fileCall_does made t
  | read _ made => exact read_does made t
  | resume _ made => exact resume_does made t
  | @rtcHandler ebp _ =>
      have idle : SameLines (m.entered ebp) (m.entered ebp).rtcHandler := terms_lines rfl
      exact doesNothing idle t

end

end Illinix.Kernel
