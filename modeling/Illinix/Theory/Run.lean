/-
# Theory.Run -- runs of a step function, and what holds along them

A system is a partial step function `step : σ → α → Option σ`: from a state an
action leads to one state, or to none when the machine leaves the model (a page
fault, an access outside an object).  A run is a list of actions.

* `after` folds the step over a run.
* `Every Q` says that `Q` holds of every step the run takes; a run that gets
  stuck says nothing about the actions it never reaches.
* `Safe Q` says in addition that no step gets stuck.
* `Meets G` says that `G` holds before every action, the one that gets stuck too.

`every_of_invariant` and `meets_of_invariant` are the induction, done once: a
step lemma under an invariant gives the run.  `every_iff_meets` and
`safe_iff_meets` are for a guard that is exact: when a step is good exactly if
the guard holds before it, a run is good exactly if the guard holds before each
of its steps.  `every_and_meets_iff` is the same where some of the stuck steps
count as bad ones.
-/
import Mathlib.Data.List.Infix

namespace Illinix.Theory

set_option autoImplicit false

universe u v

variable {σ : Type u} {α : Type v} (step : σ → α → Option σ)

/-- The state a run ends in, if it never gets stuck. -/
def after : σ → List α → Option σ
  | s, [] => some s
  | s, a :: rest => (step s a).bind fun t => after t rest

/-- `Q before action next` holds of every step the run takes. -/
def Every (Q : σ → α → σ → Prop) : σ → List α → Prop
  | _, [] => True
  | s, a :: rest => ∀ t, step s a = some t → Q s a t ∧ Every Q t rest

/-- The run never gets stuck and `Q` holds of every step it takes. -/
def Safe (Q : σ → α → σ → Prop) : σ → List α → Prop
  | _, [] => True
  | s, a :: rest => ∃ t, step s a = some t ∧ Q s a t ∧ Safe Q t rest

/-- The guard holds before every step of the run, up to where it gets stuck. -/
def Meets (G : σ → α → Prop) : σ → List α → Prop
  | _, [] => True
  | s, a :: rest => G s a ∧ ∀ t, step s a = some t → Meets G t rest

@[simp] theorem after_nil (s : σ) : after step s [] = some s := rfl

@[simp] theorem after_cons (s : σ) (a : α) (rest : List α) :
    after step s (a :: rest) = (step s a).bind fun t => after step t rest := rfl

variable {step}

theorem after_append (run' : List α) : ∀ (run : List α) (s : σ),
    after step s (run ++ run') = (after step s run).bind fun t => after step t run' := by
  intro run
  induction run with
  | nil => intro s; rfl
  | cons a rest ih =>
      intro s
      rw [List.cons_append, after_cons, after_cons, Option.bind_assoc]
      exact congrArg _ (funext ih)

theorem meets_cons_some {G : σ → α → Prop} {s t : σ} {a : α} {rest : List α}
    (stepped : step s a = some t) : Meets step G s (a :: rest) ↔ G s a ∧ Meets step G t rest := by
  simp only [Meets, stepped, Option.some.injEq, forall_eq']

theorem meets_cons_none {G : σ → α → Prop} {s : σ} {a : α} {rest : List α}
    (stuck : step s a = none) : Meets step G s (a :: rest) ↔ G s a :=
  and_iff_left fun _ stepped => nomatch stuck.symm.trans stepped

instance decidableMeets {G : σ → α → Prop} [∀ s a, Decidable (G s a)] :
    ∀ (s : σ) (run : List α), Decidable (Meets step G s run)
  | _, [] => isTrue trivial
  | s, a :: rest =>
      match stepped : step s a with
      | none => decidable_of_iff (G s a) (meets_cons_none stepped).symm
      | some t =>
          have : Decidable (Meets step G t rest) := decidableMeets t rest
          decidable_of_iff (G s a ∧ Meets step G t rest) (meets_cons_some stepped).symm

/-- What holds at the start and after every step holds where the run ends. -/
theorem after_of_every {P : σ → Prop} : ∀ (run : List α) (s t : σ), P s →
    Every step (fun _ _ u => P u) s run → after step s run = some t → P t := by
  intro run
  induction run with
  | nil =>
      intro s t start _ reached
      obtain rfl : s = t := by simpa using reached
      exact start
  | cons a rest ih =>
      intro s t _ every reached
      obtain ⟨mid, stepped, later⟩ := Option.bind_eq_some_iff.1 reached
      exact ih mid t (every mid stepped).1 (every mid stepped).2 later

/-- `Q` holds of the step that comes after `pre`. -/
theorem every_at {Q : σ → α → σ → Prop} {a : α} {rest : List α} : ∀ (pre : List α) (s t u : σ),
    Every step Q s (pre ++ a :: rest) → after step s pre = some t → step t a = some u → Q t a u := by
  intro pre
  induction pre with
  | nil =>
      intro s t u every reached stepped
      obtain rfl : s = t := by simpa using reached
      exact (every u stepped).1
  | cons b pre ih =>
      intro s t u every reached stepped
      obtain ⟨mid, first, later⟩ := Option.bind_eq_some_iff.1 reached
      exact ih mid t u (every mid first).2 later stepped

/-- What holds of every action of the run, from any state. -/
theorem every_of_forall {Q : σ → α → σ → Prop} : ∀ (run : List α),
    (∀ a, a ∈ run → ∀ s t, step s a = some t → Q s a t) → ∀ s, Every step Q s run := by
  intro run
  induction run with
  | nil => intro _ s; trivial
  | cons a rest ih =>
      intro all s t stepped
      exact ⟨all a List.mem_cons_self s t stepped,
        ih (fun b mem => all b (List.mem_cons_of_mem a mem)) t⟩

/-- **Simulation by a function.** When under an invariant and a guard the view of
the next state is the abstract step of the view, runs agree. -/
theorem after_view {τ : Type u} (view : σ → τ) (step' : τ → α → Option τ) (Inv : σ → Prop)
    {G : σ → α → Prop} (same : ∀ s a, Inv s → G s a → (step s a).map view = step' (view s) a)
    (keep : ∀ s a t, Inv s → G s a → step s a = some t → Inv t) :
    ∀ (run : List α) (s : σ), Inv s → Meets step G s run →
      (after step s run).map view = after step' (view s) run := by
  intro run
  induction run with
  | nil => intro s _ _; rfl
  | cons a rest ih =>
      rintro s inv ⟨guard, later⟩
      rw [after_cons, after_cons, ← same s a inv guard]
      cases stepped : step s a with
      | none => rfl
      | some t => exact ih t (keep s a t inv guard stepped) (later t stepped)

/-- A run of a step with an output: where it ends and what it put out. -/
def trace {β : Type u} (step : σ → α → Option (σ × β)) : σ → List α → Option (σ × List β)
  | s, [] => some (s, [])
  | s, a :: rest => (step s a).bind fun (t, b) => (trace step t rest).map fun (u, bs) => (u, b :: bs)

/-- A run of a relation: the actions `bs` lead from one state to another. -/
inductive Path {τ : Type u} {β : Type v} (rel : τ → β → τ → Prop) : τ → List β → τ → Prop where
  | nil (s : τ) : Path rel s [] s
  | cons {s t u : τ} {b : β} {bs : List β} (first : rel s b t) (rest : Path rel t bs u) :
      Path rel s (b :: bs) u

/-- A step without its output. -/
def silent {β : Type u} (step : σ → α → Option (σ × β)) (s : σ) (a : α) : Option σ :=
  (step s a).map Prod.fst

/-- **Simulation by outputs.** When each step that meets the guard puts out an action
of the abstract system that keeps the relation, a run puts out a run of the abstract
system. -/
theorem trace_simulates {β τ : Type u} {step : σ → α → Option (σ × β)} {rel : τ → β → τ → Prop}
    {G : σ → α → Prop} (R : σ → τ → Prop)
    (one : ∀ s a t b s', R s s' → G s a → step s a = some (t, b) → ∃ t', rel s' b t' ∧ R t t') :
    ∀ (run : List α) (s t : σ) (bs : List β) (s' : τ), R s s' → Meets (silent step) G s run →
      trace step s run = some (t, bs) → ∃ t', Path rel s' bs t' ∧ R t t' := by
  intro run
  induction run with
  | nil =>
      intro s t bs s' related _ ran
      cases ran
      exact ⟨s', .nil s', related⟩
  | cons a rest ih =>
      intro s t bs s' related meets ran
      obtain ⟨⟨mid, b⟩, stepped, ran⟩ := Option.bind_eq_some_iff.1 ran
      obtain ⟨⟨last, outs⟩, later, same⟩ := Option.map_eq_some_iff.1 ran
      obtain ⟨rfl, rfl⟩ := Prod.mk.inj same
      have next : silent step s a = some mid := Option.map_eq_some_iff.2 ⟨_, stepped, rfl⟩
      obtain ⟨mid', first, related'⟩ := one s a mid b s' related meets.1 stepped
      obtain ⟨t', path, related''⟩ := ih mid last outs mid' related' (meets.2 mid next) later
      exact ⟨t', .cons first path, related''⟩

theorem meets_true : ∀ (run : List α) (s : σ), Meets step (fun _ _ => True) s run := by
  intro run
  induction run with
  | nil => intro s; trivial
  | cons a rest ih => exact fun s => ⟨trivial, fun t _ => ih t⟩

theorem meets_mono {G G' : σ → α → Prop} (weaker : ∀ s a, G s a → G' s a) :
    ∀ (run : List α) (s : σ), Meets step G s run → Meets step G' s run := by
  intro run
  induction run with
  | nil => intro s _; trivial
  | cons a rest ih =>
      intro s meets
      exact ⟨weaker s a meets.1, fun t stepped => ih t (meets.2 t stepped)⟩

/-- The guard holds before the action that comes after `pre`. -/
theorem meets_at {G : σ → α → Prop} {a : α} {rest : List α} : ∀ (pre : List α) (s t : σ),
    Meets step G s (pre ++ a :: rest) → after step s pre = some t → G t a := by
  intro pre
  induction pre with
  | nil =>
      intro s t meets reached
      obtain rfl : s = t := by simpa using reached
      exact meets.1
  | cons b pre ih =>
      intro s t meets reached
      obtain ⟨mid, stepped, later⟩ := Option.bind_eq_some_iff.1 reached
      exact ih mid t (meets.2 mid stepped) later

/-- What an invariant implies holds before every step of every run. -/
theorem meets_of_invariant (Inv : σ → Prop) {G : σ → α → Prop} (good : ∀ s a, Inv s → G s a)
    (keep : ∀ s a t, Inv s → step s a = some t → Inv t) :
    ∀ (run : List α) (s : σ), Inv s → Meets step G s run := by
  intro run
  induction run with
  | nil => intro s _; trivial
  | cons a rest ih =>
      intro s inv
      exact ⟨good s a inv, fun t stepped => ih t (keep s a t inv stepped)⟩

/-- The same, under an assumption on the steps the run takes. -/
theorem meets_of_every (Inv : σ → Prop) {G : σ → α → Prop} {P : σ → α → σ → Prop}
    (good : ∀ s a, Inv s → (∀ t, step s a = some t → P s a t) → G s a)
    (keep : ∀ s a t, Inv s → step s a = some t → P s a t → Inv t) :
    ∀ (run : List α) (s : σ), Inv s → Every step P s run → Meets step G s run := by
  intro run
  induction run with
  | nil => intro s _ _; trivial
  | cons a rest ih =>
      intro s inv assumed
      refine ⟨good s a inv fun t stepped => (assumed t stepped).1, fun t stepped => ?_⟩
      obtain ⟨holds, later⟩ := assumed t stepped
      exact ih t (keep s a t inv stepped holds) later

/-- **Invariants of guarded runs.** A step lemma under an invariant and a guard
gives the run lemma. -/
theorem every_of_meets (Inv : σ → Prop) {G : σ → α → Prop} {Q : σ → α → σ → Prop}
    (keep : ∀ s a t, Inv s → G s a → step s a = some t → Inv t ∧ Q s a t) :
    ∀ (run : List α) (s : σ), Inv s → Meets step G s run → Every step Q s run := by
  intro run
  induction run with
  | nil => intro s _ _; trivial
  | cons a rest ih =>
      intro s inv meets t stepped
      obtain ⟨next, good⟩ := keep s a t inv meets.1 stepped
      exact ⟨good, ih t next (meets.2 t stepped)⟩

theorem every_of_invariant (Inv : σ → Prop) {Q : σ → α → σ → Prop}
    (keep : ∀ s a t, Inv s → step s a = some t → Inv t ∧ Q s a t)
    (run : List α) (s : σ) (inv : Inv s) : Every step Q s run :=
  every_of_meets Inv (fun s a t i _ h => keep s a t i h) run s inv (meets_true run s)

/-- **Exact guards, with a guard that some stuck steps fail.** When a step from a
state of the invariant is good exactly if `G` holds before it, and a stuck one
meets `P` exactly if it meets `G`, a run is good and meets `P` exactly if it
meets `G`. -/
theorem every_and_meets_iff (Inv : σ → Prop) {G P : σ → α → Prop} {Q : σ → α → σ → Prop}
    (sharp : ∀ s a t, Inv s → step s a = some t → (Q s a t ∧ P s a ↔ G s a))
    (stuck : ∀ s a, Inv s → step s a = none → (P s a ↔ G s a))
    (keep : ∀ s a t, Inv s → G s a → step s a = some t → Inv t) :
    ∀ (run : List α) (s : σ), Inv s →
      (Every step Q s run ∧ Meets step P s run ↔ Meets step G s run) := by
  intro run
  induction run with
  | nil => intro s _; exact and_self_iff
  | cons a rest ih =>
      intro s inv
      cases stepped : step s a with
      | none =>
          simp only [Every, Meets, stepped, reduceCtorEq, IsEmpty.forall_iff, implies_true, true_and,
            and_true]
          exact stuck s a inv stepped
      | some t =>
          simp only [Every, Meets, stepped, Option.some.injEq, forall_eq']
          rw [and_and_and_comm, sharp s a t inv stepped]
          exact and_congr_right fun guard => ih t (keep s a t inv guard stepped)

/-- **Exact guards.** When a step from a state of the invariant is good exactly
if the guard holds before it, a run is good exactly if it meets the guard. -/
theorem every_iff_meets (Inv : σ → Prop) {G : σ → α → Prop} {Q : σ → α → σ → Prop}
    (sharp : ∀ s a t, Inv s → step s a = some t → (Q s a t ↔ G s a))
    (stuck : ∀ s a, Inv s → step s a = none → G s a)
    (keep : ∀ s a t, Inv s → G s a → step s a = some t → Inv t)
    (run : List α) (s : σ) (inv : Inv s) : Every step Q s run ↔ Meets step G s run := by
  rw [← every_and_meets_iff Inv (P := fun _ _ => True) ?_ ?_ keep run s inv]
  · exact (and_iff_left (meets_true run s)).symm
  · intro s a t inv stepped
    rw [sharp s a t inv stepped, and_true]
  · exact fun s a inv none' => iff_of_true trivial (stuck s a inv none')

/-- Properties that say the same of every step from a state of the invariant hold
along the same runs, among the runs where the assumption `P` holds throughout. -/
theorem every_congr_of (Inv : σ → Prop) {P Q R : σ → α → σ → Prop}
    (sharp : ∀ s a t, Inv s → step s a = some t → P s a t → (Q s a t ↔ R s a t))
    (keep : ∀ s a t, Inv s → step s a = some t → P s a t → Q s a t → Inv t) :
    ∀ (run : List α) (s : σ), Inv s → Every step P s run →
      (Every step Q s run ↔ Every step R s run) := by
  intro run
  induction run with
  | nil => intro s _ _; exact Iff.rfl
  | cons a rest ih =>
      intro s inv assumed
      constructor
      · intro every t stepped
        obtain ⟨good, later⟩ := every t stepped
        obtain ⟨holds, rest'⟩ := assumed t stepped
        exact ⟨(sharp s a t inv stepped holds).1 good,
          (ih t (keep s a t inv stepped holds good) rest').1 later⟩
      · intro every t stepped
        obtain ⟨guard, later⟩ := every t stepped
        obtain ⟨holds, rest'⟩ := assumed t stepped
        have good := (sharp s a t inv stepped holds).2 guard
        exact ⟨good, (ih t (keep s a t inv stepped holds good) rest').2 later⟩

theorem every_congr (Inv : σ → Prop) {Q R : σ → α → σ → Prop}
    (sharp : ∀ s a t, Inv s → step s a = some t → (Q s a t ↔ R s a t))
    (keep : ∀ s a t, Inv s → step s a = some t → Q s a t → Inv t)
    (run : List α) (s : σ) (inv : Inv s) : Every step Q s run ↔ Every step R s run := by
  refine every_congr_of Inv (P := fun _ _ _ => True) ?_ ?_ run s inv ?_
  · exact fun s a t inv stepped _ => sharp s a t inv stepped
  · exact fun s a t inv stepped _ => keep s a t inv stepped
  · exact every_of_invariant (fun _ => True) (fun _ _ _ _ _ => ⟨trivial, trivial⟩) run s trivial

/-- Guards that say the same of every state of the invariant are met by the same
runs, among the runs where the assumption `P` holds throughout. -/
theorem meets_congr_of (Inv : σ → Prop) {G G' : σ → α → Prop} {P : σ → α → σ → Prop}
    (same : ∀ s a, Inv s → (G s a ↔ G' s a))
    (keep : ∀ s a t, Inv s → G s a → step s a = some t → P s a t → Inv t) :
    ∀ (run : List α) (s : σ), Inv s → Every step P s run →
      (Meets step G s run ↔ Meets step G' s run) := by
  intro run
  induction run with
  | nil => intro s _ _; exact Iff.rfl
  | cons a rest ih =>
      intro s inv assumed
      have next : ∀ t, step s a = some t → G s a →
          (Meets step G t rest ↔ Meets step G' t rest) := fun t stepped good =>
        ih t (keep s a t inv good stepped (assumed t stepped).1) (assumed t stepped).2
      constructor
      · rintro ⟨good, later⟩
        exact ⟨(same s a inv).1 good, fun t stepped => (next t stepped good).1 (later t stepped)⟩
      · rintro ⟨guard, later⟩
        have good := (same s a inv).2 guard
        exact ⟨good, fun t stepped => (next t stepped good).2 (later t stepped)⟩

theorem meets_congr (Inv : σ → Prop) {G G' : σ → α → Prop}
    (same : ∀ s a, Inv s → (G s a ↔ G' s a))
    (keep : ∀ s a t, Inv s → step s a = some t → Inv t) (run : List α) (s : σ) (inv : Inv s) :
    Meets step G s run ↔ Meets step G' s run := by
  refine meets_congr_of Inv (P := fun _ _ _ => True) same ?_ run s inv ?_
  · exact fun s a t inv _ stepped _ => keep s a t inv stepped
  · exact every_of_invariant (fun _ => True) (fun _ _ _ _ _ => ⟨trivial, trivial⟩) run s trivial

/-- **Exact guards, with no stuck step**, among the runs that meet an assumption. -/
theorem safe_iff_meets_of (Inv : σ → Prop) {G P : σ → α → Prop} {Q : σ → α → σ → Prop}
    (sharp : ∀ s a, Inv s → P s a → ((∃ t, step s a = some t ∧ Q s a t) ↔ G s a))
    (keep : ∀ s a t, Inv s → P s a → G s a → step s a = some t → Inv t) :
    ∀ (run : List α) (s : σ), Inv s → Meets step P s run →
      (Safe step Q s run ↔ Meets step G s run) := by
  intro run
  induction run with
  | nil => intro s _ _; exact Iff.rfl
  | cons a rest ih =>
      rintro s inv ⟨holds, assumed⟩
      constructor
      · rintro ⟨t, stepped, good, later⟩
        have guard := (sharp s a inv holds).1 ⟨t, stepped, good⟩
        refine ⟨guard, fun t' stepped' => ?_⟩
        obtain rfl : t = t' := by simpa [stepped] using stepped'
        exact (ih t (keep s a t inv holds guard stepped) (assumed t stepped)).1 later
      · rintro ⟨guard, later⟩
        obtain ⟨t, stepped, good⟩ := (sharp s a inv holds).2 guard
        have next := ih t (keep s a t inv holds guard stepped) (assumed t stepped)
        exact ⟨t, stepped, good, next.2 (later t stepped)⟩

theorem safe_iff_meets (Inv : σ → Prop) {G : σ → α → Prop} {Q : σ → α → σ → Prop}
    (sharp : ∀ s a, Inv s → ((∃ t, step s a = some t ∧ Q s a t) ↔ G s a))
    (keep : ∀ s a t, Inv s → G s a → step s a = some t → Inv t)
    (run : List α) (s : σ) (inv : Inv s) : Safe step Q s run ↔ Meets step G s run := by
  refine safe_iff_meets_of Inv (P := fun _ _ => True) (fun s a inv _ => sharp s a inv)
    (fun s a t inv _ => keep s a t inv) run s inv ?_
  exact meets_of_invariant (fun _ => True) (fun _ _ _ => trivial) (fun _ _ _ _ _ => trivial) run s
    trivial

end Illinix.Theory
