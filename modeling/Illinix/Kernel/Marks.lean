/-
# Kernel.Marks -- Ctrl+C

`keyboard_handler` marks the shown terminal for Ctrl+C, `halt` takes the mark of
the active terminal away, and the tick that gives a terminal its turn calls
`halt(6)` if the terminal is marked.  `marks_step` says that nothing else touches
a mark.

So a mark waits for its terminal's turn, and without a terminal switch in between
that is the third tick at the latest (`ctrlC_served`).  The steps are whole calls;
an interrupt between the `sti` and the `iret` of `execute` is none of them.
-/
import Illinix.Kernel.Lines
import Illinix.Kernel.Restart
import Illinix.Kernel.Rtc

namespace Illinix.Kernel

open Illinix.Console Illinix.FileSys Illinix.Theory Machine

set_option autoImplicit false

def Machine.marked (m : Machine) (t : Nat) : Bool := (m.terms t).toBeHalt

def SameMarks (m m' : Machine) : Prop := ∀ t, m'.marked t = m.marked t

section

variable {m m' : Machine}

/-! ## What leaves the marks alone -/

theorem SameMarks.refl (m : Machine) : SameMarks m m := fun _ => rfl

theorem SameMarks.trans {mid : Machine} (first : SameMarks m mid) (second : SameMarks mid m') :
    SameMarks m m' := fun t => (second t).trans (first t)

theorem terms_marks (same : m'.terms = m.terms) : SameMarks m m' := by
  intro t
  simp only [marked, same]

theorem setTerm_marked (m : Machine) (t : Nat) (term : Terminal) (u : Nat) :
    (m.setTerm t term).marked u = if u = t then term.toBeHalt else m.marked u := by
  by_cases here : u = t
  · subst here
    simp [marked, setTerm]
  · simp [marked, setTerm, here]

theorem setTerm_marks {t : Nat} {term : Terminal} (same : term.toBeHalt = m.marked t) :
    SameMarks m (m.setTerm t term) := by
  intro u
  rw [setTerm_marked]
  split_ifs with here
  · rw [here, same]
  · rfl

theorem marks_unseen : Unseen fun (m : Machine) t => m.marked t where
  mapped _ _ _ := rfl
  cursorPos _ _ := rfl
  cursor m t _ _ := funext (setTerm_marks (m := m) (t := t) rfl)

theorem puts_marks (bytes : List UInt8) (drew : puts bytes m = some m') : SameMarks m m' :=
  congrFun (marks_unseen.puts bytes drew)

/-! ## The drivers -/

theorem terminalWrite_marks {buf : Option (Nat → UInt8)} {count : Nat} {v : Int}
    (wrote : m.terminalWrite buf count = some (m', v)) : SameMarks m m' := by
  cases buf with
  | none =>
      cases wrote
      exact SameMarks.refl m
  | some buf =>
      unfold terminalWrite at wrote
      dsimp only at wrote
      split_ifs at wrote
      · cases wrote
        exact SameMarks.refl m
      · obtain ⟨mid, drew, wrote⟩ := Option.bind_eq_some_iff.1 wrote
        cases wrote
        exact (puts_marks _ drew).trans (setTerm_marks rfl)

theorem terminalPoll_marks {buf : Nat → UInt8} {count : Nat} {r : Reading}
    (polled : m.terminalPoll buf count = some (m', r)) : SameMarks m m' := by
  unfold terminalPoll at polled
  dsimp only at polled
  split_ifs at polled
  · cases polled
    exact SameMarks.refl m
  all_goals
    cases polled
    exact setTerm_marks rfl

theorem terminalRead_marks {buf : Option (Nat → UInt8)} {count : Nat} {r : Reading}
    (started : m.terminalRead buf count = some (m', r)) : SameMarks m m' := by
  cases buf with
  | none =>
      cases started
      exact SameMarks.refl m
  | some buf =>
      unfold terminalRead at started
      dsimp only at started
      split_ifs at started
      · cases started
        exact SameMarks.refl m
      · refine SameMarks.trans ?_ (terminalPoll_marks started)
        exact setTerm_marks rfl

theorem opsWrite_marks {file : File} {buf : Option (Nat → UInt8)} {count : Nat} {v : Int}
    (wrote : m.opsWrite file buf count = some (m', v)) : SameMarks m m' := by
  simp only [opsWrite] at wrote
  cases ops : file.ops with
  | stdout =>
      rw [ops] at wrote
      exact terminalWrite_marks wrote
  | file =>
      rw [ops] at wrote
      obtain ⟨⟨fs, value⟩, _, wrote⟩ := Option.bind_eq_some_iff.1 wrote
      cases wrote
      exact terms_marks rfl
  | rtc =>
      rw [ops] at wrote
      rcases rtcWrite_some wrote with ⟨rfl, _⟩ | ⟨q, freq, _, _, _, _, rfl⟩
      · exact SameMarks.refl m'
      · exact terms_marks rfl
  | stdin | dir | null =>
      rw [ops] at wrote
      cases wrote
      exact SameMarks.refl m

theorem opsRead_marks {file : File} {buf : Option (Nat → UInt8)} {count : Nat} {r : Reading}
    (started : m.opsRead file buf count = some (m', r)) : SameMarks m m' := by
  simp only [opsRead] at started
  cases ops : file.ops with
  | stdin =>
      rw [ops] at started
      exact terminalRead_marks started
  | file =>
      rw [ops] at started
      obtain rfl := fileRead_same started
      exact SameMarks.refl m'
  | dir =>
      rw [ops] at started
      cases buf with
      | none =>
          cases started
          exact terms_marks rfl
      | some buf =>
          unfold dirRead at started
          dsimp only at started
          split_ifs at started
          all_goals
            cases started
            exact terms_marks rfl
  | rtc =>
      rw [ops] at started
      obtain ⟨q, _, rfl, _⟩ := rtcRead_some started
      exact terms_marks rfl
  | stdout | null =>
      rw [ops] at started
      cases started
      exact SameMarks.refl m

theorem opsPoll_marks {file : File} {buf : Option (Nat → UInt8)} {count : Nat} {r : Reading}
    (polled : m.opsPoll file buf count = some (m', r)) : SameMarks m m' := by
  simp only [opsPoll] at polled
  split at polled
  · exact terminalPoll_marks polled
  · obtain ⟨q, _, ⟨_, rfl, _⟩ | ⟨_, _, _, rfl⟩ | ⟨_, _, rfl, _⟩⟩ := rtcPoll_some polled
    · exact SameMarks.refl m'
    · exact terms_marks rfl
    · exact SameMarks.refl m'
  · cases polled

theorem advance_marks (m : Machine) (p fd : Nat) (r : Reading) :
    SameMarks m (m.advance p fd r).1 := by
  simp only [advance]
  cases r with
  | waiting => exact SameMarks.refl m
  | returned value buf =>
      dsimp only
      split_ifs
      · exact terms_marks rfl
      · exact SameMarks.refl m

/-! ## The calls on files -/

theorem delete_marks {fileName : Option CString} {v : Int}
    (ran : m.delete fileName = some (m', v)) : SameMarks m m' := by
  simp only [Machine.delete, Option.bind_eq_bind, Option.bind_eq_some_iff] at ran
  obtain ⟨found, lookup, ran⟩ := ran
  cases found with
  | none =>
      obtain ⟨mid, drew, ran⟩ := Option.bind_eq_some_iff.1 ran
      cases ran
      exact puts_marks _ drew
  | some entry =>
      obtain ⟨index, den⟩ := entry
      dsimp only at ran
      split_ifs at ran
      · obtain ⟨mid, drew, ran⟩ := Option.bind_eq_some_iff.1 ran
        cases ran
        exact puts_marks _ drew
      · obtain ⟨fs, _, ran⟩ := Option.bind_eq_some_iff.1 ran
        split_ifs at ran
        cases ran
        exact terms_marks rfl

theorem fileCall_marks {call : FileCall} {v : Int} (made : call.run m = some (m', v)) :
    SameMarks m m' := by
  cases call with
  | write fd buf count =>
      obtain ⟨p, _, ⟨_, rfl, _⟩ | ⟨mid, _, wrote, rfl⟩⟩ := write_inv made
      · exact SameMarks.refl m'
      · exact (opsWrite_marks wrote).trans (terms_marks rfl)
  | create fileName reserved =>
      rcases create_some made with ⟨rfl, _⟩ | ⟨q, fd, inode, s, picks, rfl, _⟩
      · exact SameMarks.refl m'
      · exact terms_marks rfl
  | open' fileName =>
      rcases open_some made with ⟨q, _, _, rfl, _⟩ | ⟨q, fd, index, den, ops, opens, _, rfl⟩
      · exact SameMarks.refl m'
      · apply terms_marks
        simp only [openedDevice]
        split_ifs <;> rfl
  | close fd =>
      obtain ⟨q, _, ⟨_, rfl, _⟩ | ⟨_, _, _, rfl⟩⟩ := close_some made
      · exact SameMarks.refl m'
      · apply terms_marks
        simp only [closedDevice]
        split_ifs <;> rfl
  | delete fileName => exact delete_marks made

theorem read_marks {fd : Int} {buf : Option (Nat → UInt8)} {count : Nat} {r : Reading}
    (ran : m.read fd buf count = some (m', r)) : SameMarks m m' := by
  obtain ⟨p, _, ⟨_, rfl, _⟩ | ⟨mid, reading, _, started, moved⟩⟩ := read_some ran
  · exact SameMarks.refl m'
  · obtain rfl : m' = (mid.advance p fd.toNat reading).1 := congrArg Prod.fst moved
    exact (opsRead_marks started).trans (advance_marks mid p fd.toNat reading)

theorem resume_marks {fd : Int} {buf : Option (Nat → UInt8)} {count : Nat} {r : Reading}
    (ran : m.resume fd buf count = some (m', r)) : SameMarks m m' := by
  obtain ⟨p, mid, reading, _, polled, moved⟩ := resume_some ran
  obtain rfl : m' = (mid.advance p fd.toNat reading).1 := congrArg Prod.fst moved
  exact (opsPoll_marks polled).trans (advance_marks mid p fd.toNat reading)

end

/-! ## Ctrl+C and halt -/

/-- The event is Ctrl+C, with terminal `t` shown. -/
def Machine.pressesCtrlC (m : Machine) (t : Nat) : SystemEvent → Bool
  | .call _ (.kernel (.keyboardHandler scancode)) =>
      t = m.shownTermId && scancode = scC && m.pressed kbfControl
  | _ => false

/-- The event calls `halt` with terminal `t` active. -/
def Machine.haltsOn (m : Machine) (t : Nat) : SystemEvent → Bool
  | .call _ (.kernel (.halt _ _)) => t = m.activeTermId
  | .call _ (.kernel (.pitHandler _)) => t = m.nextTermId && m.marked t
  | _ => false

section

variable {m m' : Machine} {magic : Nat → UInt8} {ended : Ended}

theorem launched_marks (m : Machine) (pid : Nat) (parent : Option Nat) :
    SameMarks m (m.launched pid parent) := by
  simp only [launched, launching]
  exact setTerm_marks (m := m.setPcb pid _) rfl

theorem givenUp_marked (m : Machine) (p t : Nat) :
    (m.givenUp p).marked t = if t = m.activeTermId then false else m.marked t := by
  simp only [givenUp, released]
  exact setTerm_marked (Machine.refiled _ _ _) _ _ t

theorem halt_marked {status : UInt8} (ran : m.halt status magic = some (m', ended)) (t : Nat) :
    m'.marked t = if t = m.activeTermId then false else m.marked t := by
  obtain ⟨p, _, ⟨_, pid, parent, _, rfl, _⟩ | back⟩ := halt_inv ran
  · exact (launched_marks _ _ _ t).trans (givenUp_marked m p t)
  · obtain ⟨q, _, _, rfl⟩ := returnToParent_some back
    have moved : SameMarks (m.givenUp p) ((m.givenUp p).setTerm (m.givenUp p).activeTermId
        { (m.givenUp p).terms (m.givenUp p).activeTermId with pid := ((m.givenUp p).pcbs q).pid }) :=
      setTerm_marks rfl
    exact (moved t).trans (givenUp_marked m p t)

theorem pushInput_marks {c : UInt8} (pushed : m.pushInput c = some m') : SameMarks m m' := by
  unfold pushInput at pushed
  dsimp only at pushed
  split_ifs at pushed
  obtain rfl := Option.some.inj pushed
  exact setTerm_marks rfl

theorem modifierKey_marks {scancode : Nat} (typed : m.modifierKey scancode = some m') :
    SameMarks m m' := by
  simp only [modifierKey] at typed
  split_ifs at typed
  all_goals
    obtain rfl := Option.some.inj typed
    exact terms_marks rfl

theorem visibleKey_marked {scancode : Nat} {c : UInt8} (typed : m.visibleKey scancode c = some m')
    (t : Nat) : m'.marked t =
      if t = m.shownTermId ∧ scancode = scC ∧ m.pressed kbfControl = true then true else m.marked t := by
  unfold visibleKey at typed
  dsimp only at typed
  by_cases control : m.pressed kbfControl = true
  · rw [if_pos control] at typed
    split_ifs at typed with clears stops
    · have other : scancode ≠ scC := by rw [clears]; decide
      rw [if_neg fun all => other all.2.1]
      exact congrFun (marks_unseen.clear typed) t
    · obtain rfl := Option.some.inj typed
      rw [setTerm_marked]
      simp only [stops, control, and_true]
    · obtain rfl := Option.some.inj typed
      rw [if_neg fun all => stops all.2.1]
  · rw [if_neg control] at typed
    rw [if_neg fun all => control all.2.2]
    obtain ⟨mid, drew, typed⟩ := Option.bind_eq_some_iff.1 typed
    have echoed : SameMarks m mid := congrFun (marks_unseen.echo drew)
    split_ifs at typed
    · exact (echoed.trans (pushInput_marks typed)) t
    · obtain rfl := Option.some.inj typed
      exact echoed t

theorem lineKey_marked {scancode : Nat} (typed : m.lineKey scancode = some m') (t : Nat) :
    m'.marked t =
      if t = m.shownTermId ∧ scancode = scC ∧ m.pressed kbfControl = true then true else m.marked t := by
  simp only [lineKey] at typed
  split_ifs at typed with filler back some' ends hidden
  · obtain ⟨mid, drew, pushed⟩ := Option.bind_eq_some_iff.1 typed
    rw [if_neg fun all => absurd (filler.symm.trans all.2.1) (by decide)]
    exact (SameMarks.trans (congrFun (marks_unseen.echo drew)) (pushInput_marks pushed)) t
  · obtain ⟨mid, drew, popped⟩ := Option.bind_eq_some_iff.1 typed
    rw [if_neg fun all => absurd (back.symm.trans all.2.1) (by decide)]
    unfold popInput at popped
    dsimp only at popped
    split_ifs at popped
    obtain rfl := Option.some.inj popped
    refine SameMarks.trans (congrFun (marks_unseen.echo drew)) ?_ t
    exact setTerm_marks rfl
  · obtain rfl := Option.some.inj typed
    rw [if_neg fun all => absurd (back.symm.trans all.2.1) (by decide)]
  · obtain ⟨mid, drew, ended⟩ := Option.bind_eq_some_iff.1 typed
    obtain rfl := Option.some.inj ended
    rw [if_neg fun all => absurd (ends.symm.trans all.2.1) (by decide)]
    refine SameMarks.trans (congrFun (marks_unseen.echo drew)) ?_ t
    exact setTerm_marks rfl
  · obtain rfl := Option.some.inj typed
    rw [if_neg fun all => absurd (all.2.1 ▸ hidden) (by decide)]
  · exact visibleKey_marked typed t

theorem keyboardHandler_marked {scancode : Nat}
    (ran : m.keyboardHandler scancode = some (m', ended)) (t : Nat) : m'.marked t =
      if t = m.shownTermId ∧ scancode = scC ∧ m.pressed kbfControl = true then true else m.marked t := by
  simp only [keyboardHandler] at ran
  split_ifs at ran with switches
  · have other : scancode ≠ scC := by
      simp only [scF1, scF3, scC] at switches ⊢
      omega
    rw [if_neg fun all => other all.2.1]
    rcases switchTerminal_some ran with ⟨_, rfl⟩ | ⟨curr, mid, m₁, _, swapped, _, rfl, rfl, _⟩
    · rfl
    · exact congrFun (marks_unseen.swapScreens swapped) t
  · obtain ⟨mid, typed, same⟩ := Option.map_eq_some_iff.1 ran
    cases same
    simp only [typeKey] at typed
    cases plain : m.modifierKey scancode with
    | some next =>
        rw [plain] at typed
        obtain rfl := Option.some.inj typed
        have other : scancode ≠ scC := by
          rintro rfl
          have letter : m.modifierKey scC = none := rfl
          cases letter.symm.trans plain
        rw [if_neg fun all => other all.2.1]
        exact modifierKey_marks plain t
    | none =>
        rw [plain] at typed
        exact lineKey_marked typed t

theorem pitHandler_marked (ran : m.pitHandler magic = some (m', ended)) (t : Nat) :
    m'.marked t = if t = m.nextTermId ∧ m.marked t = true then false else m.marked t := by
  have screen : SameMarks m (m.turnScreen m.nextTermId) :=
    congrFun (marks_unseen.turnScreen m m.nextTermId)
  simp only [pitHandler, Option.bind_eq_bind, Option.bind_eq_some_iff] at ran
  obtain ⟨curr, _, ran⟩ := ran
  split at ran
  · split at ran
    · -- the next terminal is marked
      rw [halt_marked ran]
      change (if t = m.nextTermId then false else (m.turnScreen m.nextTermId).marked t) = _
      rw [screen t]
      by_cases here : t = m.nextTermId
      · simp [here]
      · simp [here]
    · rename_i unmarked
      change ¬(m.turnScreen m.nextTermId).marked m.nextTermId = true at unmarked
      rw [screen m.nextTermId] at unmarked
      cases ran
      have other : ¬(t = m.nextTermId ∧ m.marked t = true) := by
        rintro ⟨rfl, marked⟩
        exact unmarked marked
      rw [if_neg other]
      exact screen t
  · cases ran

theorem halt_not_resumed {status : UInt8} : m.halt status magic ≠ some (m', .resumed) := by
  intro halted
  obtain ⟨p, _, ⟨_, pid, parent, _, _, how⟩ | back⟩ := halt_inv halted
  · cases how
  · obtain ⟨q, _, how, _⟩ := returnToParent_some back
    cases how

/-- The tick resumes the next process exactly if its terminal is not marked. -/
theorem pitHandler_resumes (ran : m.pitHandler magic = some (m', ended)) :
    ended = .resumed ↔ m.marked m.nextTermId = false := by
  have screen : SameMarks m (m.turnScreen m.nextTermId) :=
    congrFun (marks_unseen.turnScreen m m.nextTermId)
  simp only [pitHandler, Option.bind_eq_bind, Option.bind_eq_some_iff] at ran
  obtain ⟨curr, _, ran⟩ := ran
  split at ran
  · split at ran
    · rename_i marked
      change (m.turnScreen m.nextTermId).marked m.nextTermId = true at marked
      rw [screen m.nextTermId] at marked
      constructor
      · rintro rfl
        exact absurd ran halt_not_resumed
      · intro unmarked
        exact absurd (unmarked.symm.trans marked) Bool.false_ne_true
    · rename_i unmarked
      change ¬(m.turnScreen m.nextTermId).marked m.nextTermId = true at unmarked
      rw [screen m.nextTermId, Bool.not_eq_true] at unmarked
      cases ran
      exact ⟨fun _ => unmarked, fun _ => rfl⟩
  · cases ran

/-- **What a step does to the marks.** -/
theorem marks_step {e : SystemEvent} (step : systemStep m e = some m') (t : Nat) :
    m'.marked t =
      if m.pressesCtrlC t e then true else if m.haltsOn t e then false else m.marked t := by
  obtain ⟨outcome, ran⟩ := ran_of_step step
  cases ran with
  | iret => rfl
  | file _ made => exact fileCall_marks made t
  | read _ made => exact read_marks made t
  | resume _ made => exact resume_marks made t
  | @rtcHandler ebp _ =>
      have idle : SameMarks (m.entered ebp) (m.entered ebp).rtcHandler := terms_marks rfl
      exact idle t
  | @kernel ebp call _ how _ made =>
      cases call with
      | execute command magic =>
          rcases execute_some made with ⟨rfl, _⟩ | ⟨pid, parent, _, rfl, _⟩
          · rfl
          · exact launched_marks _ pid parent t
      | halt status magic =>
          simp only [pressesCtrlC, haltsOn, decide_eq_true_eq, Bool.false_eq_true, if_false]
          exact halt_marked made t
      | raise vector address =>
          obtain ⟨mid, raised, same⟩ := Option.map_eq_some_iff.1 made
          cases same
          simp only [raise, Option.bind_eq_bind, Option.bind_eq_some_iff] at raised
          obtain ⟨message, _, mid, drew, raised⟩ := raised
          obtain rfl := Option.some.inj raised
          exact puts_marks message drew t
      | pitHandler magic =>
          simp only [pressesCtrlC, haltsOn, Bool.and_eq_true, decide_eq_true_eq, Bool.false_eq_true,
            if_false]
          exact pitHandler_marked made t
      | keyboardHandler scancode =>
          simp only [pressesCtrlC, haltsOn, Bool.and_eq_true, decide_eq_true_eq, Bool.false_eq_true,
            if_false, and_assoc]
          exact keyboardHandler_marked made t
      | vidmap start =>
          obtain ⟨⟨mid, v⟩, mapped, same⟩ := Option.map_eq_some_iff.1 made
          cases same
          rcases vidmap_some mapped with ⟨rfl, _⟩ | ⟨curr, _, _, rfl⟩
          · rfl
          · rfl
      | putc c =>
          obtain ⟨mid, drew, same⟩ := Option.map_eq_some_iff.1 made
          cases same
          exact congrFun (marks_unseen.putc drew) t

end

/-! ## Whose turn it is -/

/-- The scan code is F1 to F3, for a terminal that is not shown. -/
def Switches (m : Machine) (scancode : Nat) : Prop :=
  scF1 ≤ scancode ∧ scancode ≤ scF3 ∧ scancode - scF1 ≠ m.shownTermId

instance (m : Machine) (scancode : Nat) : Decidable (Switches m scancode) :=
  inferInstanceAs (Decidable (_ ∧ _))

/-- The active terminal after an event. -/
def Machine.nextActive (m : Machine) : SystemEvent → Nat
  | .call _ (.kernel (.pitHandler _)) => m.nextTermId
  | .call _ (.kernel (.keyboardHandler scancode)) =>
      if Switches m scancode then scancode - scF1 else m.activeTermId
  | _ => m.activeTermId

/-- The shown terminal after an event. -/
def Machine.nextShown (m : Machine) : SystemEvent → Nat
  | .call _ (.kernel (.keyboardHandler scancode)) =>
      if Switches m scancode then scancode - scF1 else m.shownTermId
  | _ => m.shownTermId

/-- The active terminal of `m'` is `t` and the shown one `s`, and every terminal but
`t` has the process it had in `m`. -/
structure TurnsTo (m m' : Machine) (t s : Nat) : Prop where
  active : m'.activeTermId = t
  shown : m'.shownTermId = s
  others : ∀ u, u ≠ t → (m'.terms u).pid = (m.terms u).pid

section

variable {m m' : Machine} {magic : Nat → UInt8} {ended : Ended}

theorem turnsTo_context (same : m'.context = m.context) : TurnsTo m m' m.activeTermId m.shownTermId :=
  ⟨congrArg Context.activeTermId same, congrArg Context.shownTermId same,
    fun u _ => congrFun (congrArg Context.pids same) u⟩

theorem turnsTo_undisturbed (same : Undisturbed m m') : TurnsTo m m' m.activeTermId m.shownTermId :=
  ⟨congrArg Sessions.activeTermId (sessions_of_undisturbed same),
    congrArg Context.shownTermId same.rest,
    fun u _ => congrFun (congrArg Sessions.head (sessions_of_undisturbed same)) u⟩

theorem setTerm_turnsTo (m : Machine) (term : Terminal) :
    TurnsTo m (m.setTerm m.activeTermId term) m.activeTermId m.shownTermId := by
  refine ⟨rfl, rfl, fun u other => ?_⟩
  simp only [setTerm, Function.update_of_ne other]

theorem TurnsTo.trans {mid : Machine} {t s s' : Nat} (first : TurnsTo m mid t s)
    (second : TurnsTo mid m' t s') : TurnsTo m m' t s' :=
  ⟨second.active, second.shown, fun u other => (second.others u other).trans (first.others u other)⟩

theorem launched_turnsTo (m : Machine) (pid : Nat) (parent : Option Nat) :
    TurnsTo m (m.launched pid parent) m.activeTermId m.shownTermId := by
  refine ⟨rfl, rfl, fun u other => ?_⟩
  have head := congrFun (congrArg Sessions.head (launched_sessions m pid parent)) u
  exact head.trans (Function.update_of_ne other ..)

theorem givenUp_turnsTo (m : Machine) (p : Nat) :
    TurnsTo m (m.givenUp p) m.activeTermId m.shownTermId := by
  have same := givenUp_sessions m p
  exact ⟨rfl, rfl, fun u _ => congrFun (congrArg Sessions.head same) u⟩

theorem halt_turnsTo {status : UInt8} (ran : m.halt status magic = some (m', ended)) :
    TurnsTo m m' m.activeTermId m.shownTermId := by
  obtain ⟨p, _, ⟨_, pid, parent, _, rfl, _⟩ | back⟩ := halt_inv ran
  · exact (givenUp_turnsTo m p).trans (launched_turnsTo ..)
  · obtain ⟨q, _, _, rfl⟩ := returnToParent_some back
    have moved := setTerm_turnsTo (m.givenUp p) { (m.givenUp p).terms (m.givenUp p).activeTermId with
      pid := ((m.givenUp p).pcbs q).pid }
    have later := (givenUp_turnsTo m p).trans moved
    exact ⟨later.active, later.shown, later.others⟩

theorem pitHandler_turnsTo (ran : m.pitHandler magic = some (m', ended)) :
    TurnsTo m m' m.nextTermId m.shownTermId := by
  obtain ⟨curr, mid, m₁, rfl, _, rfl, rest⟩ := pitHandler_some ran
  have context := turnScreen_context m m.nextTermId
  have pids : ∀ u, ((m.turnScreen m.nextTermId).terms u).pid = (m.terms u).pid :=
    congrFun (congrArg Context.pids context)
  rcases rest with ⟨_, halted⟩ | ⟨rfl, _⟩
  · have turned := halt_turnsTo halted
    exact ⟨turned.active, turned.shown.trans (congrArg Context.shownTermId context),
      fun u other => (turned.others u other).trans (pids u)⟩
  · exact ⟨rfl, congrArg Context.shownTermId context, fun u _ => pids u⟩

theorem switchTerminal_turnsTo {t : Nat} (ran : m.switchTerminal t = some (m', ended)) :
    TurnsTo m m' (if t ≠ m.shownTermId then t else m.activeTermId)
      (if t ≠ m.shownTermId then t else m.shownTermId) := by
  rcases switchTerminal_some ran with ⟨rfl, rfl⟩ | ⟨curr, mid, m₁, other, swapped, _, rfl, rfl, _⟩
  · rw [if_neg (not_not.2 rfl), if_neg (not_not.2 rfl)]
    exact turnsTo_context rfl
  · rw [if_pos other, if_pos other]
    exact ⟨rfl, rfl, fun u _ => congrFun (congrArg Context.pids (swapScreens_context swapped)) u⟩

theorem keyboardHandler_turnsTo {scancode : Nat}
    (ran : m.keyboardHandler scancode = some (m', ended)) :
    TurnsTo m m' (if Switches m scancode then scancode - scF1 else m.activeTermId)
      (if Switches m scancode then scancode - scF1 else m.shownTermId) := by
  simp only [keyboardHandler] at ran
  split_ifs at ran with switches
  · have turned := switchTerminal_turnsTo ran
    simp only [Switches, switches, true_and]
    exact turned
  · obtain ⟨mid, typed, same⟩ := Option.map_eq_some_iff.1 ran
    cases same
    have plain : ¬Switches m scancode := fun all => switches ⟨all.1, all.2.1⟩
    rw [if_neg plain, if_neg plain]
    exact turnsTo_context (typeKey_drawn typed)

/-- **Whose turn it is after a step.** -/
theorem turn_step {e : SystemEvent} (sched : Scheduled m.sessions) (step : systemStep m e = some m') :
    TurnsTo m m' (m.nextActive e) (m.nextShown e) := by
  have serves : ∀ {ebp : Nat}, Undisturbed (m.entered ebp) m' →
      TurnsTo m m' m.activeTermId m.shownTermId :=
    fun same => ⟨(turnsTo_undisturbed same).active, (turnsTo_undisturbed same).shown,
      (turnsTo_undisturbed same).others⟩
  obtain ⟨outcome, ran⟩ := ran_of_step step
  cases ran with
  | iret => exact ⟨rfl, rfl, fun _ _ => rfl⟩
  | file frame made =>
      exact serves (fileCall_serves (inKernel_enter sched frame).current made).toUndisturbed
  | read frame made =>
      exact serves (read_serves (inKernel_enter sched frame).current made).toUndisturbed
  | resume frame made =>
      exact serves (resume_serves (inKernel_enter sched frame).current made).toUndisturbed
  | rtcHandler frame => exact serves (rtcHandler_undisturbed _)
  | @kernel ebp call _ how frame made =>
      have back : ∀ {t s : Nat}, TurnsTo (m.entered ebp) m' t s → TurnsTo m m' t s :=
        fun turned => ⟨turned.active, turned.shown, turned.others⟩
      cases call with
      | execute command magic =>
          rcases execute_some made with ⟨rfl, _⟩ | ⟨pid, parent, _, rfl, _⟩
          · exact ⟨rfl, rfl, fun _ _ => rfl⟩
          · exact back (launched_turnsTo ..)
      | halt status magic => exact back (halt_turnsTo made)
      | raise vector address =>
          obtain ⟨mid, raised, same⟩ := Option.map_eq_some_iff.1 made
          cases same
          obtain ⟨mid, drew, rfl⟩ := raise_some raised
          have drawn := turnsTo_context drew
          exact back ⟨drawn.active, drawn.shown, drawn.others⟩
      | pitHandler magic => exact back (pitHandler_turnsTo made)
      | keyboardHandler scancode => exact back (keyboardHandler_turnsTo made)
      | vidmap start =>
          obtain ⟨⟨mid, v⟩, mapped, same⟩ := Option.map_eq_some_iff.1 made
          cases same
          rcases vidmap_some mapped with ⟨rfl, _⟩ | ⟨curr, _, _, rfl⟩
          · exact ⟨rfl, rfl, fun _ _ => rfl⟩
          · exact ⟨rfl, rfl, fun _ _ => rfl⟩
      | putc c =>
          obtain ⟨mid, drew, same⟩ := Option.map_eq_some_iff.1 made
          cases same
          exact back (turnsTo_context (putc_drawn drew))

end

/-- The running process is marked only by a Ctrl+C of its own terminal. -/
def Shows (m : Machine) : Prop := m.marked m.activeTermId = true → m.activeTermId = m.shownTermId

section

variable {m m' : Machine}

/-- F1 to F3 mark no terminal. -/
theorem Switches.marks {scancode ebp : Nat} (switches : Switches m scancode)
    (step : systemStep m (.call ebp (.kernel (.keyboardHandler scancode))) = some m') :
    SameMarks m m' := by
  have other : scancode ≠ scC := by
    have low := switches.1
    simp only [scF1, scC] at low ⊢
    omega
  intro t
  rw [marks_step step]
  simp [pressesCtrlC, haltsOn, other]

theorem shows_step {e : SystemEvent} (sched : Scheduled m.sessions) (shows : Shows m)
    (step : systemStep m e = some m') : Shows m' := by
  have turned := turn_step sched step
  intro marked
  rw [turned.active, marks_step step] at marked
  rw [turned.active, turned.shown]
  -- away from the handlers the mark was there before, with the same terminals
  have before : m.nextActive e = m.activeTermId → m.nextShown e = m.shownTermId →
      m.pressesCtrlC (m.nextActive e) e = false → m.nextActive e = m.nextShown e := by
    intro active shown plain
    rw [active] at plain marked
    rw [plain, if_neg Bool.false_ne_true] at marked
    split_ifs at marked
    rw [active, shown]
    exact shows marked
  cases e with
  | iret => exact before rfl rfl rfl
  | call ebp body =>
      cases body with
      | file _ | read _ _ _ | resume _ _ _ | rtcHandler => exact before rfl rfl rfl
      | kernel call =>
          cases call with
          | execute _ _ | halt _ _ | raise _ _ | vidmap _ | putc _ => exact before rfl rfl rfl
          | pitHandler magic =>
              -- the tick that reaches a marked terminal takes the mark away
              simp [pressesCtrlC, haltsOn, nextActive] at marked
          | keyboardHandler scancode =>
              by_cases switches : Switches m scancode
              · simp only [nextActive, nextShown, if_pos switches]
              · simp only [nextActive, nextShown, if_neg switches] at marked before ⊢
                by_cases presses : m.pressesCtrlC m.activeTermId
                    (.call ebp (.kernel (.keyboardHandler scancode))) = true
                · simp only [pressesCtrlC, Bool.and_eq_true, decide_eq_true_eq] at presses
                  exact presses.1.1
                · exact before trivial trivial (by simpa using presses)

end

/-! ## Runs -/

def isTick : SystemEvent → Bool
  | .call _ (.kernel (.pitHandler _)) => true
  | _ => false

/-- The event does not switch terminals by key. -/
def StaysOn (m : Machine) (e : SystemEvent) : Prop := isTick e = true ∨ m.nextActive e = m.activeTermId

instance (m : Machine) (e : SystemEvent) : Decidable (StaysOn m e) :=
  inferInstanceAs (Decidable (_ ∨ _))

/-- The ticks until terminal `t` has its next turn. -/
def Machine.wait (m : Machine) (t : Nat) : Nat := (t + 2 - m.activeTermId) % terminalCount + 1

/-- The event calls `halt` for the process that terminal `t` has: a tick calls
`halt(6)`. -/
def EndsOn (m : Machine) (t : Nat) (e : SystemEvent) : Prop :=
  ∃ n status magic, Halting m e n status magic ∧ n.getCurrentPcb = some (m.terms t).pid ∧
    (isTick e = true → status = 6)

section

variable {m m' : Machine} {t : Nat}

theorem endsOn_of_haltsOn {e : SystemEvent} (sched : Scheduled m.sessions)
    (step : systemStep m e = some m') (halts : m.haltsOn t e = true) : EndsOn m t e := by
  obtain ⟨outcome, ran⟩ := ran_of_step step
  cases ran with
  | @kernel ebp call _ how frame made =>
      have inside : InKernel (m.entered ebp) := inKernel_enter sched frame
      cases call with
      | halt status magic =>
          simp only [haltsOn, decide_eq_true_eq] at halts
          exact ⟨_, status, magic, .halt frame, halts ▸ inside.current, nofun⟩
      | pitHandler magic =>
          simp only [haltsOn, Bool.and_eq_true, decide_eq_true_eq] at halts
          obtain ⟨rfl, marked⟩ := halts
          refine ⟨_, 6, magic, .ctrlC frame marked, (handedOver_inKernel inside).current.trans ?_,
            fun _ => rfl⟩
          have pids := congrArg Context.pids
            (turnScreen_context (m.entered ebp) (m.entered ebp).nextTermId)
          exact congrArg some (congrFun pids (m.entered ebp).nextTermId)
      | execute _ _ | raise _ _ | keyboardHandler _ | vidmap _ | putc _ => exact nomatch halts
  | iret | file _ _ | read _ _ | resume _ _ | rtcHandler _ => exact nomatch halts

/-- A mark that no `halt` has taken is still there. -/
theorem marked_kept {e : SystemEvent} (step : systemStep m e = some m') (marked : m.marked t = true)
    (runsOn : m.haltsOn t e = false) : m'.marked t = true := by
  rw [marks_step step, runsOn, marked, if_neg Bool.false_ne_true, ite_self]

/-- Each tick brings the turn of `t` nearer, and nothing takes it away. -/
theorem wait_step {e : SystemEvent} (sched : Scheduled m.sessions)
    (step : systemStep m e = some m') (inside : t < terminalCount) (marked : m.marked t = true)
    (stays : StaysOn m e) (runsOn : m.haltsOn t e = false) :
    m'.wait t + (if isTick e = true then 1 else 0) = m.wait t := by
  have active : m.activeTermId < terminalCount := sched.active
  have turned := (turn_step sched step).active
  by_cases ticks : isTick e = true
  · rw [if_pos ticks]
    match e, ticks with
    | .call _ (.kernel (.pitHandler _)), _ =>
        simp only [haltsOn, marked, Bool.and_true, decide_eq_false_iff_not] at runsOn
        simp only [nextActive] at turned
        simp only [wait, turned]
        simp only [nextTermId, terminalCount] at runsOn inside active ⊢
        omega
  · rw [if_neg ticks, Nat.add_zero]
    have same : m'.activeTermId = m.activeTermId := turned.trans (stays.resolve_left ticks)
    simp only [wait, same]

theorem served_from (inside : t < terminalCount) : ∀ (run : List SystemEvent) (m m' : Machine),
    Scheduled m.sessions → m.marked t = true → Meets systemStep StaysOn m run →
      after systemStep m run = some m' → m.wait t ≤ run.countP isTick →
        ∃ pre e post n, run = pre ++ e :: post ∧ after systemStep m pre = some n ∧ EndsOn n t e := by
  intro run
  induction run with
  | nil =>
      intro m m' _ _ _ _ few
      simp [Machine.wait] at few
  | cons e rest ih =>
      intro m m' sched marked stays reached few
      obtain ⟨mid, step, later⟩ := Option.bind_eq_some_iff.1 reached
      cases halts : m.haltsOn t e with
      | true => exact ⟨[], e, rest, m, rfl, rfl, endsOn_of_haltsOn sched step halts⟩
      | false =>
          have nearer := wait_step sched step inside marked stays.1 halts
          rw [List.countP_cons] at few
          obtain ⟨pre, e', post, n, rfl, there, ends⟩ := ih mid m' (scheduled_system sched step)
            (marked_kept step marked halts) (stays.2 mid step) later (by omega)
          refine ⟨e :: pre, e', post, n, rfl, ?_, ends⟩
          rw [after_cons, step]
          exact there

end

/-- **Ctrl+C is served by the third tick.** From any reachable state with terminal
`t` marked, a run without a terminal switch by key and with three ticks ends the
process of `t`. -/
theorem ctrlC_served (m₀ m : Machine) (magic : Nat → UInt8) (booted : m₀.Booted)
    (started : m₀.initiateShells magic = some (m, true)) (before run : List SystemEvent)
    (n m' : Machine) (reached : after systemStep m before = some n) (t : Nat)
    (inside : t < terminalCount) (marked : n.marked t = true) (stays : Meets systemStep StaysOn n run)
    (ran : after systemStep n run = some m') (three : 3 ≤ run.countP isTick) :
    ∃ pre e post k, run = pre ++ e :: post ∧ after systemStep n pre = some k ∧ EndsOn k t e := by
  obtain rfl := initiateShells_some started
  have sched : Scheduled n.sessions := by
    refine after_of_every (P := fun m => Scheduled m.sessions) before _ n (scheduled_start booted) ?_
      reached
    exact every_of_invariant (fun m => Scheduled m.sessions)
      (fun _ _ _ sched step => ⟨scheduled_system sched step, scheduled_system sched step⟩) before _
      (scheduled_start booted)
  refine served_from inside run n m' sched marked stays ran (Nat.le_trans ?_ three)
  have small := Nat.mod_lt (t + 2 - n.activeTermId) (show 0 < terminalCount by decide)
  simp only [Machine.wait, terminalCount] at small ⊢
  omega

/-- Control and C. -/
def ctrlC : List SystemEvent :=
  [.call 0x7FFF00 (.kernel (.keyboardHandler scLeftControl)),
    .call 0x7FFF00 (.kernel (.keyboardHandler scC))]

/-- Ticks on the stacks of the three shells in turn. -/
def threeTicks : List SystemEvent :=
  [.call 0x7FFF00 (.kernel (.pitHandler fun _ => 0)),
    .call 0x7FDF00 (.kernel (.pitHandler fun _ => 0)),
    .call 0x7FBF00 (.kernel (.pitHandler fun _ => 0))]

theorem shell_ctrlC : ∃ n, after systemStep shells ctrlC = some n ∧
    ∃ pre e post k, threeTicks = pre ++ e :: post ∧ after systemStep n pre = some k ∧
      EndsOn k 0 e := by
  have state : (after systemStep shells ctrlC).map (fun n => (n.marked 0,
      decide (Meets systemStep StaysOn n threeTicks), (after systemStep n threeTicks).isSome)) =
        some (true, true, true) := by
    rfl
  obtain ⟨n, reached, facts⟩ := Option.map_eq_some_iff.1 state
  simp only [Prod.mk.injEq, decide_eq_true_eq] at facts
  obtain ⟨m', ran⟩ := Option.isSome_iff_exists.1 facts.2.2
  exact ⟨n, reached, ctrlC_served (mounted shellFs) shells (fun _ => 0) (mounted_booted shellFs)
    shells_started ctrlC threeTicks n m' reached 0 (by decide) facts.1 facts.2.1 ran (by decide)⟩

end Illinix.Kernel
