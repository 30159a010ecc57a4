/-
# Theory.Stack -- a stack of words that grows down

The stack pointer is the address of the word pushed last, and a word takes four
addresses.  `Holds mem a ws` says that the words `ws` lie in memory from address
`a` up, so that popping from there gives them in this order.

A push changes the memory below the stack pointer only (`pushes_above`), and what
memory holds somewhere it still holds when that part has not changed
(`Holds.congr`): together they let frames on one stack be looked at one by one.
-/
import Mathlib.Logic.Function.Basic

namespace Illinix.Theory

set_option autoImplicit false

universe u

variable {W : Type u}

structure Stack (W : Type u) where
  mem : Nat → W
  top : Nat

namespace Stack

def push (s : Stack W) (w : W) : Stack W := ⟨Function.update s.mem (s.top - 4) w, s.top - 4⟩

/-- The words in the order they are pushed. -/
def pushes (s : Stack W) (ws : List W) : Stack W := ws.foldl push s

def pop (s : Stack W) : W × Stack W := (s.mem s.top, ⟨s.mem, s.top + 4⟩)

end Stack

/-- The words `ws` lie in memory from address `a` up. -/
def Holds (mem : Nat → W) : Nat → List W → Prop
  | _, [] => True
  | a, w :: ws => mem a = w ∧ Holds mem (a + 4) ws

instance decidableHolds [DecidableEq W] (mem : Nat → W) : ∀ a ws, Decidable (Holds mem a ws)
  | _, [] => isTrue trivial
  | a, _ :: ws =>
      have : Decidable (Holds mem (a + 4) ws) := decidableHolds mem (a + 4) ws
      inferInstanceAs (Decidable (_ ∧ _))

section

variable {mem mem' : Nat → W} {a : Nat}

@[simp] theorem holds_nil : Holds mem a [] := trivial

@[simp] theorem holds_cons {w : W} {ws : List W} :
    Holds mem a (w :: ws) ↔ mem a = w ∧ Holds mem (a + 4) ws := Iff.rfl

theorem holds_append (ws vs : List W) : ∀ a : Nat,
    Holds mem a (ws ++ vs) ↔ Holds mem a ws ∧ Holds mem (a + 4 * ws.length) vs := by
  induction ws with
  | nil => intro a; simp
  | cons w ws ih =>
      intro a
      rw [List.cons_append, holds_cons, ih, holds_cons, and_assoc, List.length_cons,
        show a + 4 + 4 * ws.length = a + 4 * (ws.length + 1) by omega]

/-- Memory that has not changed where the words lie still holds them. -/
theorem Holds.congr {ws : List W} : ∀ {a : Nat}, Holds mem a ws →
    (∀ x, a ≤ x → x < a + 4 * ws.length → mem' x = mem x) → Holds mem' a ws := by
  induction ws with
  | nil => intro _ _ _; trivial
  | cons w ws ih =>
      rintro a ⟨here, later⟩ same
      rw [List.length_cons] at same
      refine ⟨(same a (Nat.le_refl a) (by omega)).trans here, ih later fun x low high => ?_⟩
      exact same x (by omega) (by omega)

end

namespace Stack

theorem pushes_append (s : Stack W) (ws vs : List W) :
    s.pushes (ws ++ vs) = (s.pushes ws).pushes vs := List.foldl_append ..

theorem pushes_top (ws : List W) : ∀ s : Stack W,
    (s.pushes ws).top = s.top - 4 * ws.length := by
  induction ws with
  | nil => intro s; rfl
  | cons w ws ih =>
      intro s
      refine (ih (s.push w)).trans ?_
      change s.top - 4 - 4 * ws.length = _
      rw [List.length_cons]
      omega

/-- What lies above the stack pointer stays. -/
theorem pushes_above (ws : List W) : ∀ s : Stack W, 4 * ws.length ≤ s.top → ∀ x, s.top ≤ x →
    (s.pushes ws).mem x = s.mem x := by
  induction ws with
  | nil => intro s _ x _; rfl
  | cons w ws ih =>
      intro s room x above
      rw [List.length_cons] at room
      have rest := ih (s.push w) (show 4 * ws.length ≤ s.top - 4 by omega) x
        (show s.top - 4 ≤ x by omega)
      refine rest.trans (Function.update_of_ne ?_ ..)
      omega

/-- What lies below the new stack pointer stays, too. -/
theorem pushes_below (ws : List W) : ∀ s : Stack W, ∀ x, x < (s.pushes ws).top →
    (s.pushes ws).mem x = s.mem x := by
  induction ws with
  | nil => intro s x _; rfl
  | cons w ws ih =>
      intro s x below
      have under : x < s.top - 4 := by
        rw [pushes_top, List.length_cons] at below
        omega
      exact (ih (s.push w) x below).trans (Function.update_of_ne (Nat.ne_of_lt under) ..)

/-- The words pushed lie on top, the last one first. -/
theorem pushes_holds (ws : List W) : ∀ s : Stack W, 4 * ws.length ≤ s.top →
    Holds (s.pushes ws).mem (s.pushes ws).top ws.reverse := by
  induction ws with
  | nil => intro s _; trivial
  | cons w ws ih =>
      intro s room
      rw [List.length_cons] at room
      have room' : 4 * ws.length ≤ (s.push w).top := show 4 * ws.length ≤ s.top - 4 by omega
      have below := ih (s.push w) room'
      have top := pushes_top ws (s.push w)
      rw [List.reverse_cons, holds_append]
      refine ⟨below, ?_, trivial⟩
      have first : ((s.push w).pushes ws).top + 4 * ws.reverse.length = s.top - 4 := by
        rw [top, List.length_reverse]
        change s.top - 4 - 4 * ws.length + 4 * ws.length = s.top - 4
        omega
      change ((s.push w).pushes ws).mem (((s.push w).pushes ws).top + 4 * ws.reverse.length) = w
      rw [first, pushes_above ws (s.push w) room' _ (Nat.le_refl (s.top - 4))]
      exact Function.update_self ..

end Stack

end Illinix.Theory
