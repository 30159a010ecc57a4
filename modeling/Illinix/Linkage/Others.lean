/-
# Linkage.Others -- the threads that do not run

The invariant on the processes whose turn it is not: what the other terminals' top
processes have on their stacks is what resumes them, and the processes that wait in
`execute` have on theirs what `halt` returns to.

It says nothing of the running process, so it survives whatever that does on its own
stack (`Others.keep`), and there is one lemma for each way control leaves.
-/
import Illinix.Linkage.Sessions
import Illinix.Linkage.Frames

namespace Illinix.Linkage

open Illinix.Kernel Illinix.Theory

set_option autoImplicit false

structure Others (l : Layout) (s : Sessions) (mem : Nat → Nat) (code : Nat → Progress)
    (thread : Nat → Thread) : Prop where
  suspended : ∀ t, t < terminalCount → t ≠ s.activeTermId →
    Suspended l mem code (s.head t) (thread (s.head t)) (s.ebp (s.head t))
  frame : ∀ q r, s.Alive q → s.parent q = some r → s.parentEbp q + 4 = callBase r
  waiting : ∀ q r, s.Alive q → s.parent q = some r → Waiting l mem r (thread r)

namespace Others

variable {l : Layout} {s s' : Sessions} {mem mem' : Nat → Nat} {code code' : Nat → Progress}
  {thread thread' : Nat → Thread}

/-- A stack is no part of another one. -/
theorem not_onStack {p q x : Nat} (apart : p ≠ q) (on : OnStack p x) : ¬OnStack q x := by
  intro on'
  have here := (onStack_iff.1 on).2
  have there := (onStack_iff.1 on').2
  have low := on.1
  have low' := on'.1
  simp only [maxProcess] at low low'
  omega

theorem onStack_of_between {p x y : Nat} (inside : p < maxProcess) (low : pcbAddr p ≤ y) (above : y ≤ x)
    (below : x < stackTop p) : OnStack p x := ⟨inside, low.trans above, below⟩

/-- **What the running process does on its own stack** is no matter to the others. -/
theorem keep (sched : Scheduled s) (others : Others l s mem code thread)
    (same : ∀ x, ¬OnStack (s.head s.activeTermId) x → mem' x = mem x)
    (still : ∀ p, p ≠ s.head s.activeTermId → code' p = code p)
    (threads : ∀ p, p ≠ s.head s.activeTermId → thread' p = thread p) :
    Others l s mem' code' thread' := by
  have elsewhere : ∀ p y, p ≠ s.head s.activeTermId → p < maxProcess → pcbAddr p ≤ y →
      ∀ x, y ≤ x → x < stackTop p → mem' x = mem x := fun p y other inside low x above below =>
    same x (not_onStack other (onStack_of_between inside low above below))
  refine ⟨fun t low other => ?_, others.frame, fun q r alive up => ?_⟩
  · have differ : s.head t ≠ s.head s.activeTermId := fun eq =>
      other (sched.head_injective low sched.active eq)
    have inside := (sched.head_alive low).1
    rw [threads _ differ]
    apply (others.suspended t low other).congr inside
    · exact elsewhere _ _ differ inside (sched.waiting t low other).1.2.1
    · exact still _ differ
  · have differ : r ≠ s.head s.activeTermId := (head_not_parent sched sched.active alive up).symm
    have inside := (parent_alive sched alive up).1
    rw [threads _ differ]
    apply (others.waiting q r alive up).congr inside
    apply elsewhere _ _ differ inside
    have top := callBase_top inside
    simp only [pcbAddr, stackTop, kernelStack, kernelStackSize, maxProcess] at top inside ⊢
    omega

/-- A child is on top of the chain, and its parent waits. -/
theorem child {pid frame : Nat} (sched : Scheduled s) (others : Others l s mem code thread)
    (child : Child s s' pid frame) (at' : frame + 4 = callBase (s.head s.activeTermId))
    (waits : Waiting l mem (s.head s.activeTermId) (thread (s.head s.activeTermId)))
    (threads : ∀ p, p ≠ pid → thread' p = thread p) : Others l s' mem code thread' := by
  have known : ∀ p, s.Alive p → thread' p = thread p := fun p alive =>
    threads p fun same => child.fresh (same ▸ alive)
  have old : ∀ q r, s'.Alive q → s'.parent q = some r →
      (q = pid ∧ r = s.head s.activeTermId) ∨ (q ≠ pid ∧ s.Alive q ∧ s.parent q = some r) := by
    intro q r alive up
    rw [child.parent] at up
    rcases child.alive q alive with rfl | before
    · rw [Function.update_self] at up
      exact Or.inl ⟨rfl, (Option.some.inj up).symm⟩
    · have other : q ≠ pid := fun same => child.fresh (same ▸ before)
      rw [Function.update_of_ne other] at up
      exact Or.inr ⟨other, before, up⟩
  refine ⟨fun t low other => ?_, fun q r alive up => ?_, fun q r alive up => ?_⟩
  · rw [child.active] at other
    have head : s'.head t = s.head t := by rw [child.head, Function.update_of_ne other]
    rw [head, child.ebp, known _ (sched.head_alive low)]
    exact others.suspended t low other
  · rw [child.parentEbp]
    rcases old q r alive up with ⟨rfl, rfl⟩ | ⟨other, before, up⟩
    · rw [Function.update_self]
      exact at'
    · rw [Function.update_of_ne other]
      exact others.frame q r before up
  · rcases old q r alive up with ⟨rfl, rfl⟩ | ⟨_, before, up⟩
    · rw [known _ (sched.head_alive sched.active)]
      exact waits
    · rw [known _ (parent_alive sched before up)]
      exact others.waiting q r before up

/-- The base shell is there again. -/
theorem again (sched : Scheduled s) (others : Others l s mem code thread) (again : Again s s')
    (threads : ∀ p, p ≠ s.head s.activeTermId → thread' p = thread p) :
    Others l s' mem code thread' := by
  have kept := others.keep sched (fun _ _ => rfl) (fun _ _ => rfl) threads
  refine ⟨fun t low other => ?_, fun q r alive up => ?_, fun q r alive up => ?_⟩
  · rw [again.head, again.ebp]
    exact kept.suspended t low (again.active ▸ other)
  · rw [again.parent] at up
    have other : q ≠ s.head s.activeTermId := by
      rintro rfl
      cases again.root.symm.trans up
    rw [again.parentEbp q other]
    exact kept.frame q r (again.alive q alive) up
  · rw [again.parent] at up
    exact kept.waiting q r (again.alive q alive) up

/-- The parent of the process that has ended waits no longer. -/
theorem returned {q : Nat} (sched : Scheduled s) (others : Others l s mem code thread)
    (returned : Returned s s' q) (threads : ∀ p, p ≠ q → thread' p = thread p) :
    Others l s' mem code thread' := by
  have head := sched.head_alive sched.active
  refine ⟨fun t low other => ?_, fun p r alive up => ?_, fun p r alive up => ?_⟩
  · rw [returned.active] at other
    have same : s'.head t = s.head t := by rw [returned.head, Function.update_of_ne other]
    rw [same, returned.ebp, threads _ (head_not_parent sched low head returned.up)]
    exact others.suspended t low other
  · rw [returned.parent] at up
    rw [returned.parentEbp]
    exact others.frame p r (returned.alive p alive).1 up
  · rw [returned.parent] at up
    obtain ⟨before, other⟩ := returned.alive p alive
    have differ : r ≠ q := by
      rintro rfl
      exact other (one_child sched before head up returned.up)
    rw [threads r differ]
    exact others.waiting p r before up

/-- Another terminal is active, and the process left is suspended. -/
theorem turned {t frame : Nat} (sched : Scheduled s) (others : Others l s mem code thread)
    (turned : Turned s s' t frame) (left : Suspended l mem code (s.head s.activeTermId)
      (thread (s.head s.activeTermId)) frame) :
    Others l s' mem code thread ∧ Suspended l mem code (s'.head s'.activeTermId)
      (thread (s'.head s'.activeTermId)) (s'.ebp (s'.head s'.activeTermId)) := by
  have all : ∀ u, u < terminalCount →
      Suspended l mem code (s.head u) (thread (s.head u)) (s'.ebp (s.head u)) := by
    intro u low
    rw [turned.ebp]
    by_cases active : u = s.activeTermId
    · rw [active, Function.update_self]
      exact left
    · have differ : s.head u ≠ s.head s.activeTermId := fun eq =>
        active (sched.head_injective low sched.active eq)
      rw [Function.update_of_ne differ]
      exact others.suspended u low active
  refine ⟨⟨fun u low _ => turned.head ▸ all u low, fun q r alive up => ?_, fun q r alive up => ?_⟩,
    ?_⟩
  · rw [turned.parent] at up
    rw [turned.parentEbp]
    exact others.frame q r (turned.alive q alive) up
  · rw [turned.parent] at up
    exact others.waiting q r (turned.alive q alive) up
  · rw [turned.active, turned.head]
    exact all t turned.low

end Others

end Illinix.Linkage
