/-
# Theory.Switch -- switches that the entries of a log turn on and off

A log lists what happened, the latest entry first.  `switched on off log` says
whether a switch is on after the log: the latest entry that is in `on` or in
`off` is in `on`.

One switch that listens to several pairs of entries is on only if one of the
switches that listen to a single pair is (`switched_or`).  The other direction
fails: any `off` entry turns it off.
-/
import Mathlib.Logic.Basic

namespace Illinix.Theory

set_option autoImplicit false

universe u

variable {α : Type u}

/-- The latest entry in `on` or `off` is in `on`. -/
def switched (on off : α → Bool) : List α → Bool
  | [] => false
  | a :: earlier => if on a then true else if off a then false else switched on off earlier

theorem switched_on {on off : α → Bool} {a : α} {log : List α} (turns : on a = true) :
    switched on off (a :: log) = true := if_pos turns

theorem switched_off {on off : α → Bool} {a : α} {log : List α} (kept : on a = false)
    (turns : off a = true) : switched on off (a :: log) = false := by
  simp [switched, kept, turns]

theorem switched_still {on off : α → Bool} {a : α} {log : List α} (kept : on a = false)
    (still : off a = false) : switched on off (a :: log) = switched on off log := by
  simp [switched, kept, still]

/-- A switch of two pairs is on only if a switch of one of them is. -/
theorem switched_or {on off on₁ off₁ on₂ off₂ : α → Bool}
    (turnsOn : ∀ a, on a = (on₁ a || on₂ a)) (turnsOff : ∀ a, off a = (off₁ a || off₂ a))
    (log : List α) (shared : switched on off log = true) :
    switched on₁ off₁ log = true ∨ switched on₂ off₂ log = true := by
  induction log with
  | nil => exact nomatch shared
  | cons a earlier ih =>
      cases first : on₁ a with
      | true => exact Or.inl (switched_on first)
      | false =>
          cases second : on₂ a with
          | true => exact Or.inr (switched_on second)
          | false =>
              have kept : on a = false := by rw [turnsOn, first, second]; rfl
              cases turns : off a with
              | true =>
                  rw [switched_off kept turns] at shared
                  exact nomatch shared
              | false =>
                  rw [switched_still kept turns] at shared
                  rw [turnsOff, Bool.or_eq_false_iff] at turns
                  rw [switched_still first turns.1, switched_still second turns.2]
                  exact ih shared

end Illinix.Theory
