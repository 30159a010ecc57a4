/-
# Linkage.Arrivals -- no return goes astray

`arrive` is defined only where `ret` comes to an address that the kernel itself has put
on a stack.  `Served` says that the C code of an event has got through, so that the
rest of the step is pops, `leave`, `ret` and `iret`; `served_goes` says that in a state
that refines threads these get to such an address.
In the window there is only the `iret`, whose words have just been pushed.
-/
import Illinix.Linkage.Refinement

namespace Illinix.Linkage

open Illinix.Kernel Illinix.Theory Illinix.Interrupt

set_option autoImplicit false

/-- The C code of the event has got through, and the rest of the step is for the stacks. -/
def CoreEvent.Served (l : Layout) (c : Core) : CoreEvent → Prop
  | .int80 => c.cpu.user = true
  | .serve call s _ _ =>
      let argument := fun i => c.mem (c.cpu.esp + 4 * i)
      c.inCall l = true ∧ (∃ status magic, call = .kernel (.halt status magic)) ∧
        (∃ n, c.code c.head = .entered n ∧ Serves n (argument 1) (argument 2) (argument 3) call) ∧
        ∃ c' outcome, (c.prologue.body s).made call = some (c', outcome) ∧ outcome.delivers = true
  | .sysret => c.inCall l = true ∧ ∃ value, c.code c.head = .answered value
  | .fault vector address error s s' magic _ =>
      c.inKeyboard l = false ∧ ∃ c₁ raised c₂ outcome,
        (c.faultFrame l error s s').made (.kernel (.raise vector address)) = some (c₁, raised) ∧
        c₁.made (.kernel (.halt 255 magic)) = some (c₂, outcome) ∧ outcome.delivers = true
  | .tick s s' magic _ => ∃ c' outcome,
      ((c.interrupt l.pitReturn).body s).made (.kernel (.pitHandler magic)) = some (c', outcome) ∧
      (outcome = .ended .resumed ∨ outcome.delivers = true ∧
        c'.HaltFits l (c.machine.terms c.machine.nextTermId).pid s')
  | .key scancode s s' => c.inKeyboard l = false ∧ ∃ c' outcome,
      (c.keyFrame l scancode s s').made (.kernel (.keyboardHandler scancode)) = some (c', outcome)
  | .rtc s => ∃ c' outcome, ((c.interrupt l.rtcReturn).body s).made .rtcHandler = some (c', outcome)
  | .finish _ => c.inKeyboard l = true
  -- the words have just been pushed
  | .enter => True
  -- nothing is popped here
  | .user _ | .poll _ _ _ _ | .answer _ _ _ | .work _ _ => False

variable {l : Layout} {c : Core} {a : Threads}

theorem serve_goes {status : UInt8} {magic : Nat → UInt8} {s : Scratch} {cpu : Cpu} {entry : Nat}
    (ref : Refines l c a)
    (served : (CoreEvent.serve (.kernel (.halt status magic)) s cpu entry).Served l c) :
    ∃ c' e, c.serve l (.kernel (.halt status magic)) s cpu entry = some (c', e) := by
  obtain ⟨called, _, ⟨n, entered, serves⟩, c₂, outcome, made, delivers⟩ := served
  have on := made_onStack (c := c.prologue.body s) ref.sched made
  obtain ⟨_, _, grown⟩ := ref.serveFrame called entered s on
  obtain ⟨m, ran, rfl⟩ := made_some made
  obtain ⟨c₃, e, goes⟩ := halt_goes entry ref grown (Nat.sub_le ..) ran delivers
  have next : Progress.next (.kernel (.halt status magic)) outcome = none := by
    cases outcome with
    | reading how => cases delivers
    | ended how => cases how <;> first | rfl | cases delivers
  refine ⟨c₃, e, ?_⟩
  simp only [Core.serve, entered]
  rw [if_pos ⟨called, serves⟩]
  refine Option.bind_eq_some_iff.2 ⟨_, made, ?_⟩
  simp only [next]
  exact goes

theorem fault_goes {vector address entry : Nat} {error : Option Nat} {s s' : Scratch}
    {magic : Nat → UInt8} (ref : Refines l c a)
    (served : (CoreEvent.fault vector address error s s' magic entry).Served l c) :
    ∃ c' e, c.fault l vector address error s s' magic entry = some (c', e) := by
  obtain ⟨elsewhere, c₁, raised, c₂, outcome, made, halted, delivers⟩ := served
  obtain ⟨m, ref', grown, rfl⟩ := ref.raised made
  obtain ⟨m', halt, rfl⟩ := made_some halted
  obtain ⟨c₃, e, goes⟩ := halt_goes entry ref' grown (Nat.sub_le ..) halt delivers
  refine ⟨c₃, e, ?_⟩
  rw [Core.fault, if_neg (by simp [elsewhere])]
  exact Option.bind_eq_some_iff.2 ⟨_, made, Option.bind_eq_some_iff.2 ⟨_, halted, goes⟩⟩

/-- **The returns of one step** get where they should. -/
theorem served_goes (ref : Refines l c a) {event : CoreEvent} (served : event.Served l c) :
    ∃ c' e, c.step l event = some (c', e) := by
  cases event with
  | user cpu => exact served.elim
  | int80 =>
      have user : c.cpu.user = true := served
      simp only [Core.step, Core.int80, user, if_true]
      split_ifs <;> exact ⟨_, _, rfl⟩
  | serve call s cpu entry =>
      obtain ⟨status, magic, rfl⟩ := served.2.1
      exact serve_goes ref served
  | poll ebp buf cpu mem => exact served.elim
  | answer value cpu mem => exact served.elim
  | work cpu mem => exact served.elim
  | sysret =>
      obtain ⟨called, value, answered⟩ := served
      obtain ⟨c', goes, _⟩ := sysret_goes ref called answered
      exact ⟨c', .returns, goes⟩
  | enter => exact ⟨_, _, rfl⟩
  | fault vector address error s s' magic entry => exact fault_goes ref served
  | tick s s' magic entry =>
      obtain ⟨c₂, outcome, made, how⟩ := served
      rcases tick_goes ref made with ⟨c', goes, _⟩ | ⟨other, _, halts⟩
      · exact ⟨c', _, goes⟩
      · rcases how with resumed | ⟨delivers, fits⟩
        · exact absurd resumed other
        · exact halts delivers fits
  | key scancode s s' =>
      obtain ⟨elsewhere, c₂, outcome, made⟩ := served
      obtain ⟨c', e, goes, _⟩ := key_goes ref (by simp [elsewhere]) made
      exact ⟨c', e, goes⟩
  | rtc s =>
      obtain ⟨c₂, outcome, made⟩ := served
      exact ⟨_, .stays, (rtc_goes ref made).1⟩
  | finish s =>
      obtain ⟨c', goes, _⟩ := finish_goes ref served s
      exact ⟨c', .finishes, goes⟩

theorem stands_goes {s : CoreState} {event : CoreEvent} (stands : Stands l a s)
    (comes : event.comes s.entering = true) (alone : Uninterrupted s event)
    (served : event.Served l s.core) : ∃ s' e, coreStep l s event = some (s', e) := by
  have goes : ∃ c e, s.core.step l event = some (c, e) := by
    obtain ⟨c, _ | _⟩ := s
    · exact served_goes (c := c) stands served
    · obtain rfl := enter_of_comes comes (alone rfl)
      exact ⟨_, _, rfl⟩
  obtain ⟨c, e, stepped⟩ := goes
  exact ⟨_, e, coreStep_some.2 ⟨comes, c, stepped, rfl⟩⟩

end Illinix.Linkage
