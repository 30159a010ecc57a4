/-
# Interrupt.Lost -- the end of interrupt that never comes

A process that F1 to F3 took the processor from owes the keyboard's end of
interrupt.  It sends it when its terminal has its turn again, unless the terminal
was marked for Ctrl+C: then the tick does not resume the process but calls
`halt`, and the end of interrupt is never sent.  From then on the controllers
deliver the timer only, to the end of every run.

A state is `Answered` or `Lost`, and a step goes from the one to the other exactly
if it leaves a marked terminal inside `keyboard_handler`.  `keyboard_dead` is that
this is for good, and `keyboard_back` that the process runs again by the second
tick otherwise.  As in `Interrupt.Delivery`, `execute` is one step, and no F-key comes
between its `sti` and its `iret`.
-/
import Illinix.Interrupt.Delivery

namespace Illinix.Interrupt

open Illinix.Kernel Illinix.Theory

set_option autoImplicit false

/-- While the keyboard's interrupt is in service, a process is to end it, and its
terminal is not marked. -/
def Answered (b : Board) : Prop :=
  b.lines.serving keyboardIrq = true → ∃ t, t < terminalCount ∧
    b.inKeyboard (b.machine.terms t).pid = true ∧ b.machine.marked t = false

/-- The keyboard's interrupt is in service, and the process that is to end it, if
there is still one, waits for the turn of a marked terminal. -/
structure Lost (b : Board) : Prop where
  busy : b.lines.serving keyboardIrq = true
  left : ∀ t, t < terminalCount → b.inKeyboard (b.machine.terms t).pid = true →
    b.machine.marked t = true ∧ t ≠ b.machine.activeTermId

/-- The event leaves the running process inside `keyboard_handler`. -/
def Leaves (b : Board) : BoardEvent → Prop
  | .interrupt v _ scancode _ => v = 0x21 ∧ Switches b.machine scancode
  | _ => False

/-- A marked terminal is not left inside `keyboard_handler`. -/
def Careful (b : Board) (e : BoardEvent) : Prop :=
  b.machine.marked b.machine.activeTermId = true → ¬Leaves b e

instance (b : Board) : ∀ e, Decidable (Leaves b e)
  | .interrupt _ _ _ _ => inferInstanceAs (Decidable (_ ∧ _))
  | .raise _ | .finish | .software _ => inferInstanceAs (Decidable False)

instance (b : Board) (e : BoardEvent) : Decidable (Careful b e) :=
  inferInstanceAs (Decidable (_ → _))

section

variable {b b' : Board} {m m' : Machine}

/-! ## The keyboard handler and the tick -/

theorem keyboard_resumes {ebp scancode : Nat} {outcome : Outcome}
    (ran : SystemEvent.run m (.call ebp (.kernel (.keyboardHandler scancode))) = some (m', outcome)) :
    outcome = .ended .resumed ↔ Switches m scancode := by
  obtain ⟨frame, ran⟩ := run_call.1 ran
  obtain ⟨⟨next, how⟩, made, same⟩ := Option.map_eq_some_iff.1 ran
  obtain ⟨rfl, rfl⟩ := Prod.mk.inj same
  change (m.entered ebp).keyboardHandler scancode = _ at made
  simp only [Machine.keyboardHandler] at made
  split_ifs at made with switches
  · rcases Machine.switchTerminal_some made with ⟨shown, rfl⟩ | ⟨_, _, _, other, _, _, _, _, rfl⟩
    · have stays : how = .returned 0 := by
        rw [Machine.switchTerminal, if_pos shown] at made
        cases made
        rfl
      subst stays
      constructor
      · intro same
        cases same
      · intro all
        exact absurd shown all.2.2
    · exact ⟨fun _ => ⟨switches.1, switches.2, other⟩, fun _ => rfl⟩
  · obtain ⟨mid, _, same⟩ := Option.map_eq_some_iff.1 made
    obtain ⟨_, rfl⟩ := Prod.mk.inj same
    constructor
    · intro same
      cases same
    · intro all
      exact absurd ⟨all.1, all.2.1⟩ switches

theorem Switches.active {scancode : Nat} {ebp : Nat} (switches : Switches m scancode) :
    m.nextActive (.call ebp (.kernel (.keyboardHandler scancode))) = scancode - scF1 := if_pos switches

theorem tick_marks {ebp : Nat} {magic : Nat → UInt8}
    (step : systemStep m (.call ebp (.kernel (.pitHandler magic))) = some m') {t : Nat}
    (elsewhere : t ≠ m.nextTermId) : m'.marked t = m.marked t := by
  rw [marks_step step]
  simp [Machine.pressesCtrlC, Machine.haltsOn, elsewhere]

/-- The tick resumes the next process exactly if its terminal is not marked. -/
theorem tick_resumes {ebp : Nat} {magic : Nat → UInt8} {outcome : Outcome}
    (ran : SystemEvent.run m (.call ebp (.kernel (.pitHandler magic))) = some (m', outcome)) :
    outcome = .ended .resumed ↔ m.marked m.nextTermId = false := by
  obtain ⟨frame, ran⟩ := run_call.1 ran
  obtain ⟨⟨next, how⟩, made, same⟩ := Option.map_eq_some_iff.1 ran
  obtain ⟨rfl, rfl⟩ := Prod.mk.inj same
  have resumes := pitHandler_resumes (m := m.entered ebp) made
  rw [Outcome.ended.injEq]
  exact resumes

/-- The running process takes at most its own terminal's mark away, and only the
keyboard handler sets one. -/
theorem software_marks {e : SystemEvent} {t : Nat} (plain : isHandler e = false)
    (step : systemStep m e = some m') (elsewhere : t ≠ m.activeTermId) :
    m'.marked t = m.marked t := by
  have quiet : m.pressesCtrlC t e = false ∧ m.haltsOn t e = false := by
    cases e with
    | iret => exact ⟨rfl, rfl⟩
    | call ebp body =>
        cases body with
        | kernel call =>
            cases call with
            | keyboardHandler _ | pitHandler _ => exact nomatch plain
            | halt _ _ => exact ⟨rfl, decide_eq_false elsewhere⟩
            | execute _ _ | raise _ _ | vidmap _ | putc _ => exact ⟨rfl, rfl⟩
        | file _ | read _ _ _ | resume _ _ _ | rtcHandler => exact ⟨rfl, rfl⟩
  rw [marks_step step, quiet.1, quiet.2, if_neg Bool.false_ne_true, if_neg Bool.false_ne_true]

/-- A step of the board is one of the machine, or leaves it alone. -/
theorem machine_step {e : BoardEvent} (serviced : Serviced b) (step : boardStep b e = some b') :
    b'.machine = b.machine ∨ ∃ e, systemStep b.machine e = some b'.machine := by
  cases e with
  | raise n =>
      obtain ⟨c, _, rfl⟩ := raise_some step
      exact Or.inl rfl
  | software e =>
      obtain ⟨_, _, m, ran, rfl⟩ := software_some step
      exact Or.inr ⟨e, ran⟩
  | finish =>
      obtain ⟨_, rfl⟩ := finish_some serviced step
      exact Or.inl rfl
  | interrupt v ebp scancode magic =>
      cases took_of_step serviced step with
      | tick _ ran _ | halted _ ran _ _ | typed _ _ ran _ _ | switched _ _ _ ran _ | rtc _ _ ran _ =>
          exact Or.inr ⟨_, step_of_run ran⟩

/-! ## When an end of interrupt is lost -/

/-- The process that owes the end of interrupt has its terminal. -/
theorem Serviced.owner (serviced : Serviced b) {t u : Nat} (inside : t < terminalCount)
    (inside' : u < terminalCount) (owes : b.inKeyboard (b.machine.terms t).pid = true)
    (owes' : b.inKeyboard (b.machine.terms u).pid = true) : t = u :=
  serviced.sched.head_injective inside inside' (serviced.single _ _ owes owes')

/-- While the end is due only the tick comes, and the process that owes it keeps its
terminal if that is not marked. -/
theorem owner_took {e : BoardEvent} {t : Nat} (serviced : Serviced b) (took : Took b b' e)
    (inside : t < terminalCount) (owes : b.inKeyboard (b.machine.terms t).pid = true)
    (unmarked : b.machine.marked t = false) :
    (∃ ebp scancode magic, e = .interrupt 0x20 ebp scancode magic) ∧
      b'.machine.activeTermId = b.machine.nextTermId ∧
      b'.inKeyboard (b'.machine.terms t).pid = true ∧ b'.machine.marked t = false := by
  have busy := (serviced.owed _ owes).1
  cases took with
  | tick handled ran left =>
      refine ⟨⟨_, _, _, rfl⟩, (turn_step serviced.sched (step_of_run ran)).active, ?_, ?_⟩
      · rw [left, resumed_heads ran t]
        exact owes
      · rw [marks_step (step_of_run ran)]
        simp [Machine.pressesCtrlC, Machine.haltsOn, unmarked]
  | halted handled ran halts left =>
      have turned := turn_step serviced.sched (step_of_run ran)
      have elsewhere : t ≠ b.machine.nextTermId := by
        rintro rfl
        exact halts ((tick_resumes ran).2 unmarked)
      have next : b.machine.nextTermId < terminalCount := Nat.mod_lt _ (by decide)
      have apart : (b.machine.terms t).pid ≠ (b.machine.terms b.machine.nextTermId).pid :=
        fun same => elsewhere (serviced.sched.head_injective inside next same)
      refine ⟨⟨_, _, _, rfl⟩, turned.active, ?_,
        (tick_marks (step_of_run ran) elsewhere).trans unmarked⟩
      rw [left, turned.others t elsewhere, Function.update_of_ne apart]
      exact owes
  | typed _ idle _ _ _ | rtc _ idle _ _ | switched _ idle _ _ _ =>
      exact absurd (idle.symm.trans busy) Bool.false_ne_true

theorem answered_step {e : BoardEvent} (serviced : Serviced b) (answered : Answered b)
    (careful : Careful b e) (step : boardStep b e = some b') : Answered b' := by
  cases e with
  | raise n =>
      obtain ⟨c, raised, rfl⟩ := raise_some step
      have serving : c.pics.lines.serving = b.lines.serving := by
        rw [raise_lines serviced.programmed raised]
        rfl
      exact fun busy => answered ((congrFun serving keyboardIrq).symm.trans busy)
  | software e =>
      obtain ⟨plain, free, m, ran, rfl⟩ := software_some step
      intro busy
      obtain ⟨t, inside, owes, unmarked⟩ := answered busy
      have turned := software_active serviced.sched plain ran
      have elsewhere : t ≠ b.machine.activeTermId := by
        rintro rfl
        exact nomatch free.symm.trans (serviced.owing_iff.2 owes)
      exact ⟨t, inside, turned.others t elsewhere ▸ owes,
        (software_marks plain ran elsewhere).trans unmarked⟩
  | finish =>
      obtain ⟨owes, rfl⟩ := finish_some serviced step
      have busy := (serviced.owed _ (serviced.owing_iff.1 owes)).1
      have lines := (sendEoi_some serviced.programmed (show keyboardIrq < 16 by decide) busy).2
      have idle : (b.controller.sendEoi keyboardIrq).pics.lines.serving keyboardIrq = false := by
        rw [lines]
        simp only [Lines.finish, Function.update_self]
      exact fun busy => nomatch idle.symm.trans busy
  | interrupt v ebp scancode magic =>
      have took := took_of_step serviced step
      by_cases busy : b.lines.serving keyboardIrq = true
      · obtain ⟨t, inside, owes, unmarked⟩ := answered busy
        obtain ⟨_, _, owes', unmarked'⟩ := owner_took serviced took inside owes unmarked
        exact fun _ => ⟨t, inside, owes', unmarked'⟩
      have quiet : b.lines.serving keyboardIrq = false := by simpa using busy
      -- the interrupt has found the line idle and left it so
      have idle : Handled b b' b.lines.serving → Answered b' := fun handled busy =>
        (nomatch ((congrFun handled.serving _).trans quiet).symm.trans busy)
      cases took with
      | tick handled _ _ => exact idle handled
      | halted handled _ _ _ => exact idle handled
      | typed handled _ _ _ _ => exact idle handled
      | rtc handled _ _ _ => exact idle handled
      | switched handled _ running ran left =>
          rename_i p _
          obtain rfl : p = _ := Option.some.inj (running.symm.trans serviced.running)
          have switches := (keyboard_resumes ran).1 rfl
          have unmarked : b.machine.marked b.machine.activeTermId = false := by
            by_contra marked
            exact careful (by simpa using marked) ⟨rfl, switches⟩
          refine fun _ => ⟨b.machine.activeTermId, serviced.sched.active, ?_,
            (switches.marks (step_of_run ran) _).trans unmarked⟩
          rw [left, resumed_heads ran, Function.update_self]

/-- A marked terminal that is left inside `keyboard_handler` loses the end. -/
theorem lost_of_leaves {e : BoardEvent} (serviced : Serviced b) (shows : Shows b.machine)
    (marked : b.machine.marked b.machine.activeTermId = true) (leaves : Leaves b e)
    (step : boardStep b e = some b') : Lost b' := by
  have active := serviced.sched.active
  have serviced' := serviced_step serviced step
  match e, leaves with
  | .interrupt _ ebp scancode magic, ⟨rfl, switches⟩ =>
      cases took_of_step serviced step with
      | typed handled idle ran stays left => exact absurd ((keyboard_resumes ran).2 switches) stays
      | switched handled idle running ran left =>
          obtain rfl := Option.some.inj (running.symm.trans serviced.running)
          have turned := turn_step serviced.sched (step_of_run ran)
          have owes' : b'.inKeyboard (b'.machine.terms b.machine.activeTermId).pid = true := by
            rw [left, resumed_heads ran, Function.update_self]
          refine ⟨(serviced'.owed _ owes').1, fun t inside owes => ?_⟩
          obtain rfl := serviced'.owner inside active owes owes'
          refine ⟨(switches.marks (step_of_run ran) _).trans marked, fun here => switches.2.2 ?_⟩
          have target : b'.machine.activeTermId = scancode - scF1 := turned.active.trans (if_pos switches)
          exact (target.symm.trans here.symm).trans (shows marked)

/-! ## It is lost for good -/

/-- A process that owes the end does not come to another terminal. -/
theorem owner_fixed {n t : Nat} (serviced : Serviced b) (serviced' : Serviced b')
    {shown : Nat} (turned : TurnsTo b.machine b'.machine n shown) (inside : n < terminalCount)
    (gone : b.inKeyboard (b.machine.terms n).pid = true →
      b'.inKeyboard (b.machine.terms n).pid = false)
    (fewer : ∀ p, b'.inKeyboard p = true → b.inKeyboard p = true) (inside' : t < terminalCount)
    (owes : b'.inKeyboard (b'.machine.terms t).pid = true) :
    t ≠ n ∧ b.inKeyboard (b.machine.terms t).pid = true := by
  obtain ⟨_, u, low, head⟩ := serviced.owed _ (fewer _ owes)
  have other : u ≠ n := by
    rintro rfl
    have before := fewer _ owes
    rw [← head] at before owes
    exact nomatch (gone before).symm.trans owes
  have same : u = t := serviced'.sched.head_injective low inside'
    ((turned.others u other).trans head)
  subst same
  exact ⟨other, head ▸ fewer _ owes⟩

/-- **A lost end of interrupt stays lost**, and only the timer gets through. -/
theorem lost_step {e : BoardEvent} (serviced : Serviced b) (lost : Lost b)
    (step : boardStep b e = some b') : Lost b' ∧
      ∀ v ebp scancode magic, e = .interrupt v ebp scancode magic → v = 0x20 := by
  obtain ⟨busy, left⟩ := lost
  have serviced' := serviced_step serviced step
  cases e with
  | raise n =>
      obtain ⟨c, raised, rfl⟩ := raise_some step
      have serving : c.pics.lines.serving = b.lines.serving := by
        rw [raise_lines serviced.programmed raised]
        rfl
      exact ⟨⟨(congrFun serving _).trans busy, left⟩, nofun⟩
  | software e =>
      obtain ⟨plain, free, m, ran, rfl⟩ := software_some step
      have turned := software_active serviced.sched plain ran
      have idle : b.inKeyboard (b.machine.terms b.machine.activeTermId).pid ≠ true := fun owes =>
        nomatch free.symm.trans (serviced.owing_iff.2 owes)
      refine ⟨⟨busy, fun t inside owes => ?_⟩, nofun⟩
      obtain ⟨elsewhere, owes'⟩ := owner_fixed serviced serviced' turned serviced.sched.active
        (fun owes => absurd owes idle) (fun _ owes => owes) inside owes
      have marked := (left t inside owes').1
      exact ⟨(software_marks plain ran elsewhere).trans marked,
        fun here => elsewhere (here.trans turned.active)⟩
  | finish =>
      obtain ⟨owes, rfl⟩ := finish_some serviced step
      have here := left _ serviced.sched.active (serviced.owing_iff.1 owes)
      exact absurd rfl here.2
  | interrupt v ebp scancode magic =>
      cases took_of_step serviced step with
      | tick handled ran left' =>
          have turned := turn_step serviced.sched (step_of_run ran)
          refine ⟨⟨(congrFun handled.serving _).trans busy, fun t inside owes => ?_⟩,
            fun _ _ _ _ same => by cases same; rfl⟩
          have owes' : b.inKeyboard (b.machine.terms t).pid = true := by
            rw [← resumed_heads ran t, ← left']
            exact owes
          have marked := (left t inside owes').1
          -- the process of a marked terminal would not have gone on
          have elsewhere : t ≠ b.machine.nextTermId := by
            rintro rfl
            exact nomatch marked.symm.trans ((tick_resumes ran).1 rfl)
          exact ⟨(tick_marks (step_of_run ran) elsewhere).trans marked,
            fun here => elsewhere (here.trans turned.active)⟩
      | halted handled ran halts left' =>
          have turned := turn_step serviced.sched (step_of_run ran)
          have next : b.machine.nextTermId < terminalCount := Nat.mod_lt _ (by decide)
          have gone : b'.inKeyboard (b.machine.terms b.machine.nextTermId).pid = false := by
            rw [left', Function.update_self]
          have fewer : ∀ p, b'.inKeyboard p = true → b.inKeyboard p = true := by
            intro p owes
            rw [left', Function.update_apply] at owes
            split_ifs at owes
            exact owes
          refine ⟨⟨(congrFun handled.serving _).trans busy, fun t inside owes => ?_⟩,
            fun _ _ _ _ same => by cases same; rfl⟩
          obtain ⟨elsewhere, owes'⟩ := owner_fixed serviced serviced' turned next (fun _ => gone)
            fewer inside owes
          have marked := (left t inside owes').1
          exact ⟨(tick_marks (step_of_run ran) elsewhere).trans marked,
            fun here => elsewhere (here.trans turned.active)⟩
      | typed handled idle ran stays left' => exact nomatch idle.symm.trans busy
      | rtc handled idle ran left' => exact nomatch idle.symm.trans busy
      | switched handled idle running ran left' => exact nomatch idle.symm.trans busy

/-! ## Or it comes -/

/-- The ticks until terminal `t` has its turn. -/
def Board.turns (b : Board) (t : Nat) : Nat :=
  (t + terminalCount - b.machine.activeTermId) % terminalCount

def BoardEvent.isTick : BoardEvent → Bool
  | .interrupt v _ _ _ => v = 0x20
  | _ => false

/-- Each tick brings the turn of the process that owes the end nearer, and nothing
takes it away. -/
theorem turns_step {e : BoardEvent} {t : Nat} (serviced : Serviced b)
    (step : boardStep b e = some b') (inside : t < terminalCount)
    (owes : b.inKeyboard (b.machine.terms t).pid = true)
    (unmarked : b.machine.marked t = false) (goesOn : e ≠ .finish)
    (early : e.isTick = true → t ≠ b.machine.activeTermId) :
    b'.inKeyboard (b'.machine.terms t).pid = true ∧
      b'.machine.marked t = false ∧
      b'.turns t + (if e.isTick = true then 1 else 0) = b.turns t := by
  cases e with
  | raise n =>
      obtain ⟨c, raised, rfl⟩ := raise_some step
      exact ⟨owes, unmarked, rfl⟩
  | software e =>
      obtain ⟨plain, free, m, ran, rfl⟩ := software_some step
      have turned := software_active serviced.sched plain ran
      have elsewhere : t ≠ b.machine.activeTermId := by
        rintro rfl
        exact nomatch free.symm.trans (serviced.owing_iff.2 owes)
      refine ⟨turned.others t elsewhere ▸ owes,
        (software_marks plain ran elsewhere).trans unmarked, ?_⟩
      simp only [Board.turns, turned.active]
      rfl
  | finish => exact absurd rfl goesOn
  | interrupt v ebp scancode magic =>
      obtain ⟨⟨_, _, _, same⟩, turned, owes', unmarked'⟩ :=
        owner_took serviced (took_of_step serviced step) inside owes unmarked
      cases same
      have elsewhere := early rfl
      refine ⟨owes', unmarked', ?_⟩
      have active : b.machine.activeTermId < terminalCount := serviced.sched.active
      simp only [BoardEvent.isTick, decide_true, if_true]
      simp only [Board.turns, turned, Machine.nextTermId, terminalCount] at elsewhere inside active ⊢
      omega

theorem turns_zero {t : Nat} (serviced : Serviced b) (inside : t < terminalCount) :
    b.turns t = 0 ↔ t = b.machine.activeTermId := by
  have active : b.machine.activeTermId < terminalCount := serviced.sched.active
  simp only [Board.turns, terminalCount] at inside active ⊢
  omega

theorem turns_run {t : Nat} (inside : t < terminalCount) : ∀ (run : List BoardEvent) (b b' : Board),
    Serviced b → b.inKeyboard (b.machine.terms t).pid = true →
      b.machine.marked t = false → (∀ e ∈ run, e ≠ .finish) →
        run.countP BoardEvent.isTick = b.turns t → after boardStep b run = some b' →
          Serviced b' ∧ b'.inKeyboard (b'.machine.terms t).pid = true ∧
            b'.machine.activeTermId = t := by
  intro run
  induction run with
  | nil =>
      intro b b' serviced owes _ _ count reached
      obtain rfl : b = b' := by simpa using reached
      exact ⟨serviced, owes, ((turns_zero serviced inside).1 count.symm).symm⟩
  | cons e rest ih =>
      intro b b' serviced owes unmarked goesOn count reached
      obtain ⟨mid, step, later⟩ := Option.bind_eq_some_iff.1 reached
      rw [List.countP_cons] at count
      have early : e.isTick = true → t ≠ b.machine.activeTermId := by
        intro ticks here
        rw [if_pos ticks, (turns_zero serviced inside).2 here] at count
        exact nomatch count
      obtain ⟨owes', unmarked', nearer⟩ := turns_step serviced step inside owes unmarked
        (goesOn e List.mem_cons_self) early
      exact ih mid b' (serviced_step serviced step) owes' unmarked'
        (fun e later => goesOn e (List.mem_cons_of_mem _ later)) (by omega) later

/-- The process whose turn it is sends the end that it owes. -/
theorem finish_clears (serviced : Serviced b) (owes : b.owing = true) :
    ∃ b', boardStep b .finish = some b' ∧ b'.lines.serving keyboardIrq = false := by
  have head := serviced.owing_iff.1 owes
  have lines := (sendEoi_some serviced.programmed (show keyboardIrq < 16 by decide)
    (serviced.owed _ head).1).2
  simp only [boardStep, Board.finish, serviced.running, Option.bind_eq_bind, Option.bind_some,
    if_pos head]
  refine ⟨_, rfl, ?_⟩
  change (b.controller.sendEoi keyboardIrq).pics.lines.serving keyboardIrq = false
  rw [lines]
  simp only [Lines.finish, Function.update_self]

end

/-! ## Runs -/

theorem serviced_after {m₀ : Machine} (booted : m₀.Booted) (pics : PicPair) {run : List BoardEvent}
    {b : Board} (reached : after boardStep (bootBoard pics m₀.mapTerminals.startShells) run = some b) :
    Serviced b := by
  refine after_of_every (P := Serviced) run _ b (serviced_boot booted pics) ?_ reached
  exact every_of_invariant Serviced
    (fun _ _ _ serviced step => ⟨serviced_step serviced step, serviced_step serviced step⟩) run _
    (serviced_boot booted pics)

theorem shows_after {m₀ : Machine} (booted : m₀.Booted) (pics : PicPair) {run : List BoardEvent}
    {b : Board} (reached : after boardStep (bootBoard pics m₀.mapTerminals.startShells) run = some b) :
    Shows b.machine := by
  have start : Shows m₀.mapTerminals.startShells := fun _ =>
    (Machine.start_activeTermId m₀).trans
      (booted.active.trans (booted.shown.symm.trans (Machine.start_shownTermId m₀).symm))
  refine after_of_every (P := fun b => Shows b.machine) run _ b start ?_ reached
  refine every_of_invariant (fun b => Serviced b ∧ Shows b.machine) ?_ run _
    ⟨serviced_boot booted pics, start⟩
  rintro b e b' ⟨serviced, shows⟩ step
  have shows' : Shows b'.machine := by
    rcases machine_step serviced step with same | ⟨e, ran⟩
    · rw [same]
      exact shows
    · exact shows_step serviced.sched shows ran
  exact ⟨⟨serviced_step serviced step, shows'⟩, shows'⟩

theorem answered_after {m₀ : Machine} (booted : m₀.Booted) (pics : PicPair) {run : List BoardEvent}
    {b : Board} (careful : Meets boardStep Careful (bootBoard pics m₀.mapTerminals.startShells) run)
    (reached : after boardStep (bootBoard pics m₀.mapTerminals.startShells) run = some b) :
    Answered b := by
  have start := serviced_boot booted pics
  have idle : Answered (bootBoard pics m₀.mapTerminals.startShells) := by
    intro busy
    simp only [bootBoard, Board.lines, (bootController_lines pics).2, Lines.setOpen, bootLines] at busy
    cases busy
  refine after_of_every (P := Answered) run _ b idle ?_ reached
  refine every_of_meets (fun b => Serviced b ∧ Answered b) ?_ run _ ⟨start, idle⟩ careful
  rintro b e b' ⟨serviced, answered⟩ careful step
  have answered' := answered_step serviced answered careful step
  exact ⟨⟨serviced_step serviced step, answered'⟩, answered'⟩

/-- **The keyboard is dead.** Once a marked terminal is left inside
`keyboard_handler`, every later run has the keyboard's line in service and takes
the timer's interrupts only. -/
theorem keyboard_dead (m₀ m : Machine) (magic : Nat → UInt8) (booted : m₀.Booted)
    (started : m₀.initiateShells magic = some (m, true)) (pics : PicPair) (before : List BoardEvent)
    (b b' : Board) (reached : after boardStep (bootBoard pics m) before = some b) (e : BoardEvent)
    (marked : b.machine.marked b.machine.activeTermId = true) (leaves : Leaves b e)
    (step : boardStep b e = some b') (later : List BoardEvent) :
    Every boardStep (fun _ e b => b.lines.serving keyboardIrq = true ∧
      ∀ v ebp scancode magic, e = .interrupt v ebp scancode magic → v = 0x20) b' later := by
  obtain rfl := Machine.initiateShells_some started
  have serviced := serviced_after booted pics reached
  have lost := lost_of_leaves serviced (shows_after booted pics reached) marked leaves step
  refine every_of_invariant (fun b => Serviced b ∧ Lost b) ?_ later b'
    ⟨serviced_step serviced step, lost⟩
  rintro b e b' ⟨serviced, lost⟩ step
  obtain ⟨lost', ticks⟩ := lost_step serviced lost step
  exact ⟨⟨serviced_step serviced step, lost'⟩, lost'.busy, ticks⟩

/-- **The keyboard comes back.** After a run that has left no marked terminal inside
`keyboard_handler`, the keyboard's line in service is that of a terminal's process:
from there every run with just the ticks until its turn, two at most, ends where the
process sends the end of interrupt. -/
theorem keyboard_back (m₀ m : Machine) (magic : Nat → UInt8) (booted : m₀.Booted)
    (started : m₀.initiateShells magic = some (m, true)) (pics : PicPair) (before : List BoardEvent)
    (b : Board) (careful : Meets boardStep Careful (bootBoard pics m) before)
    (reached : after boardStep (bootBoard pics m) before = some b)
    (busy : b.lines.serving keyboardIrq = true) :
    ∃ t, t < terminalCount ∧ b.inKeyboard (b.machine.terms t).pid = true ∧ b.turns t ≤ 2 ∧
      ∀ (later : List BoardEvent) (b' : Board), (∀ e ∈ later, e ≠ .finish) →
        later.countP BoardEvent.isTick = b.turns t → after boardStep b later = some b' →
          b'.machine.activeTermId = t ∧
            ∃ b'', boardStep b' .finish = some b'' ∧ b''.lines.serving keyboardIrq = false := by
  obtain rfl := Machine.initiateShells_some started
  have serviced := serviced_after booted pics reached
  obtain ⟨t, inside, owes, unmarked⟩ := answered_after booted pics careful reached busy
  have few : b.turns t ≤ 2 := by
    have small := Nat.mod_lt (t + terminalCount - b.machine.activeTermId)
      (show 0 < terminalCount by decide)
    exact Nat.le_of_lt_succ small
  refine ⟨t, inside, owes, few, fun later b' goesOn count ran => ?_⟩
  obtain ⟨serviced', owes', active⟩ := turns_run inside later b b' serviced owes unmarked goesOn
    count ran
  refine ⟨active, finish_clears serviced' (serviced'.owing_iff.2 ?_)⟩
  rw [active]
  exact owes'

/-! ### Runs of the three shells -/

def key (ebp scancode : Nat) : List BoardEvent :=
  [.raise 1, .interrupt 0x21 ebp scancode fun _ => 0]

def tick (ebp : Nat) : List BoardEvent := [.raise 0, .interrupt 0x20 ebp 0 fun _ => 0]

/-- Ctrl+C at the first shell, and another key. -/
def ctrlCKey : List BoardEvent :=
  key 0x7FFF00 scLeftControl ++ key 0x7FFF00 scC ++ [.raise 1]

def pressF2 : BoardEvent := .interrupt 0x21 0x7FFF00 (scF1 + 1) fun _ => 0

theorem shell_keyboard_dead : ∃ b b' b'', after boardStep (bootBoard ⟨stalePic, stalePic⟩ shells)
    ctrlCKey = some b ∧ boardStep b pressF2 = some b' ∧
      after boardStep b' (tick 0x7FDF00 ++ tick 0x7FBF00) = some b'' ∧
      Every boardStep (fun _ e b => b.lines.serving keyboardIrq = true ∧
        ∀ v ebp scancode magic, e = .interrupt v ebp scancode magic → v = 0x20) b'
          (tick 0x7FDF00 ++ tick 0x7FBF00) := by
  have state : (after boardStep (bootBoard ⟨stalePic, stalePic⟩ shells) ctrlCKey).map (fun b =>
      (b.machine.marked b.machine.activeTermId, decide (Leaves b pressF2),
        (after boardStep b (pressF2 :: (tick 0x7FDF00 ++ tick 0x7FBF00))).isSome)) =
          some (true, true, true) := by
    rfl
  obtain ⟨b, reached, facts⟩ := Option.map_eq_some_iff.1 state
  simp only [Prod.mk.injEq, decide_eq_true_eq] at facts
  obtain ⟨marked, leaves, runs⟩ := facts
  obtain ⟨b'', ran⟩ := Option.isSome_iff_exists.1 runs
  obtain ⟨b', step, later⟩ := Option.bind_eq_some_iff.1 ran
  exact ⟨b, b', b'', reached, step, later, keyboard_dead (Machine.mounted shellFs) shells (fun _ => 0)
    (Machine.mounted_booted shellFs) shells_started _ ctrlCKey b b' reached pressF2 marked leaves step
    _⟩

/-- A key at the first shell, then F2. -/
def keyF2 : List BoardEvent := key 0x7FFF00 0x1E ++ [.raise 1, pressF2]

theorem shell_keyboard_back : ∃ b b', after boardStep (bootBoard ⟨stalePic, stalePic⟩ shells)
    keyF2 = some b ∧ after boardStep b (tick 0x7FDF00 ++ tick 0x7FBF00) = some b' ∧
      b'.machine.activeTermId = 0 ∧
        ∃ b'', boardStep b' .finish = some b'' ∧ b''.lines.serving keyboardIrq = false := by
  have careful : Meets boardStep Careful (bootBoard ⟨stalePic, stalePic⟩ shells) keyF2 :=
    of_decide_eq_true rfl
  have state : (after boardStep (bootBoard ⟨stalePic, stalePic⟩ shells) keyF2).map (fun b =>
      (b.lines.serving keyboardIrq, decide (∀ t ∈ List.range terminalCount,
        b.inKeyboard (b.machine.terms t).pid = true → t = 0 ∧ b.turns t = 2),
        (after boardStep b (tick 0x7FDF00 ++ tick 0x7FBF00)).isSome)) = some (true, true, true) := by
    rfl
  obtain ⟨b, reached, facts⟩ := Option.map_eq_some_iff.1 state
  simp only [Prod.mk.injEq, decide_eq_true_eq] at facts
  obtain ⟨busy, only, runs⟩ := facts
  obtain ⟨b', ran⟩ := Option.isSome_iff_exists.1 runs
  obtain ⟨t, inside, owes, _, comes⟩ := keyboard_back (Machine.mounted shellFs) shells (fun _ => 0)
    (Machine.mounted_booted shellFs) shells_started _ keyF2 b careful reached busy
  obtain ⟨rfl, two⟩ := only t (List.mem_range.2 inside) owes
  have goesOn : ∀ e ∈ tick 0x7FDF00 ++ tick 0x7FBF00, e ≠ BoardEvent.finish := by
    simp [tick]
  obtain ⟨active, done⟩ := comes _ b' goesOn (two ▸ rfl) ran
  exact ⟨b, b', reached, ran, active, done⟩

end Illinix.Interrupt
