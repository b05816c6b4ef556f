import Mathlib.Data.Set.Subsingleton
import Mathlib.Logic.Relation

namespace Xv6Peterson
namespace Transition

/-!
# The abstract lock

What a mutual exclusion lock is for, stated over the processes alone.  Its
state is the set of processes in their critical sections.  A process enters
only while that set is empty, and the process inside is the one that leaves.
An implementation refines the lock when every step of it from a reachable
state, seen through the set of processes it counts as inside, is one such move
or leaves the set as it is (a `Transition.Refinement` onto `Lock.Step` from the
empty set).  A step never hands the lock from one process to another.

The one lemma an implementation needs is `Lock.step_of_mover`: when one
process moves and at most one process is inside before and after the step,
the set moves as the lock does.  A refinement then rests on two facts of the
implementation: each step moves one process, and mutual exclusion holds
before and after it.
-/

variable {P : Type*}

namespace Lock

/-- The moves of the abstract lock on the set of processes inside. -/
inductive Step : Set P -> Set P -> Prop
  | enter (p : P) : Step ∅ {p}
  | leave (p : P) : Step {p} ∅

/-- When no process but `p` enters or leaves, and `p` stays inside or stays
out, nothing changes. -/
theorem eq_of_mover {inside inside' : Set P} {p : P}
    (others : forall q, q ≠ p -> (q ∈ inside' ↔ q ∈ inside)) (stays : p ∈ inside' ↔ p ∈ inside) :
    inside' = inside := by
  ext q
  by_cases same : q = p
  · subst same
    exact stays
  · exact others q same

/-- The set a process `p` leaves when it was alone inside and nobody else enters. -/
theorem eq_empty_of_mover {inside inside' : Set P} {p : P}
    (others : forall q, q ≠ p -> (q ∈ inside' ↔ q ∈ inside)) (out : p ∉ inside')
    (alone : inside = {p}) : inside' = ∅ := by
  refine Set.eq_empty_of_forall_notMem fun q member => ?_
  by_cases same : q = p
  · exact out (same ▸ member)
  · have wasInside := (others q same).mp member
    rw [alone] at wasInside
    exact same wasInside

/-- A step in which only `p` may enter or leave, with at most one process
inside before and after it, is a move of the lock or no move. -/
theorem step_of_mover {inside inside' : Set P} (p : P)
    (others : forall q, q ≠ p -> (q ∈ inside' ↔ q ∈ inside))
    (unique : inside.Subsingleton) (unique' : inside'.Subsingleton) :
    Relation.ReflGen Step inside inside' := by
  by_cases before : p ∈ inside <;> by_cases after : p ∈ inside'
  · rw [eq_of_mover others (iff_of_true after before)]
  · -- `p` was alone inside and leaves
    have alone := unique.eq_singleton_of_mem before
    rw [alone, eq_empty_of_mover others after alone]
    exact Relation.ReflGen.single (Step.leave p)
  · -- `p` enters, and is then alone inside
    have alone := unique'.eq_singleton_of_mem after
    have symmetric : forall q, q ≠ p -> (q ∈ inside ↔ q ∈ inside') :=
      fun q other => (others q other).symm
    rw [alone, eq_empty_of_mover symmetric before alone]
    exact Relation.ReflGen.single (Step.enter p)
  · rw [eq_of_mover others (iff_of_false after before)]

end Lock

end Transition
end Xv6Peterson
