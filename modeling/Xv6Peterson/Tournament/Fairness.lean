import Xv6Peterson.Tournament.Exclusion
import Xv6Peterson.Peterson.Bypass

namespace Xv6Peterson
namespace Tournament

open Transition Kernel Peterson

/-!
# Bounded bypass at every node of the tournament

A process waits in the tournament only in the wait loop of `peterson_acquire`
at some level of its path.  The lock there is shared by the processes that
come up through the two children of the node, those of one child with role
`0` and those of the other with role `1`.  The tree invariant makes every
step of the tournament a guarded step at that lock: the lock is never freed,
and the roles on it are unique.  Bounded bypass of one lock for any number of
processes (`Peterson/Bypass.lean`) then applies at the node: while the
process waits, at most one process from the other child passes the node.
-/

variable {P : Type*} [DecidableEq P]

namespace Layout

variable {t : Layout P}

/-- The roles are unique at the lock of each level of a process's path. -/
theorem TreeInv.rolesUnique_slot {s : System P Process} (inv : TreeInv t s) (p : P) {depth : Nat}
    (depthLt : depth < t.height) : RolesUnique (phases Process.held s (t.slot p depth)) :=
  inv.rolesUnique depthLt (Tree.ancestor_lt (t.leaf_lt p) (Nat.le_of_lt depthLt))

/-- From a state with the tree invariant, a step of the tournament is a
guarded step at the lock of each level of each path. -/
theorem TreeInv.guarded {s s' : System P Process} {label : Option (Label P)} (inv : TreeInv t s)
    (stepped : (rounds t.globals).Step s label s') (p : P) {depth : Nat}
    (depthLt : depth < t.height) :
    Guarded (rounds t.globals) Process.held (t.slot p depth) s label s' :=
  ⟨stepped, rounds_not_frees stepped _, (inv.step stepped).rolesUnique_slot p depthLt⟩

/-- Bounded bypass from a state with the tree's invariant: while `w` keeps
waiting at a lock with role `r`, the acquires with role `1 - r` of that lock
return `0` at most once. -/
theorem TreeInv.bypass_bounded {s s' : System P Process} (inv : TreeInv t s)
    {more : List (Option (Label P))} {w : P} {slot : Fin NPETERSONLOCKS} {r : Fin 2}
    (entered : s.machine.frame w = some (.waiting slot r))
    (after : Run (fun s label s' => (rounds t.globals).Step s label s' ∧
      s'.machine.frame w = some (.waiting slot r)) s more s') :
    more.countP (acquiredWith slot (1 - r)) ≤ 1 := by
  -- `w` waits at the lock of some level of its path
  have stand := inv.stand w
  rw [entered] at stand
  obtain ⟨depth, depthLt, -, same⟩ := stand.of_some
  cases same
  have guarded : Run (WaitingGuarded (rounds t.globals) Process.held (t.slot w depth) w
      (t.role w depth)) s more s' :=
    Run.weaken (TreeInv t) inv (fun _ _ _ inv stepped => inv.step stepped.1)
    (fun _ _ _ inv stepped => ⟨inv.guarded stepped.1 w depthLt, stepped.2⟩) after
  exact SlotGuard.bypassBounded (rounds_disciplined t.globals)
    ⟨inv.slotInv w depthLt, inv.rolesUnique_slot w depthLt⟩ entered guarded

end Layout

/-- Bounded bypass at every node of the tournament.  Along every run of rounds
from the state `tournament_create` leaves, once a process `w` waits in its
acquire of a lock with role `r`, the kernel returns `0` to acquires of that
lock with role `1 - r` at most once while `w` keeps waiting: of the processes
that come up through the other child of the node, at most one passes it. -/
theorem tournamentNode_boundedBypass (t : Layout P) {s₀ s s' : System P Process}
    {labels more : List (Option (Label P))} (start : t.Start s₀)
    (before : Run (rounds t.globals).Step s₀ labels s) {w : P} {slot : Fin NPETERSONLOCKS}
    {r : Fin 2} (entered : s.machine.frame w = some (.waiting slot r))
    (after : Run (fun s label s' => (rounds t.globals).Step s label s' ∧
      s'.machine.frame w = some (.waiting slot r)) s more s') :
    more.countP (acquiredWith slot (1 - r)) ≤ 1 :=
  (Layout.TreeInv.of_run start before).bypass_bounded entered after

/-- After boot, with two processes: `b` takes the lock of the root with role
`1`, `a` enters and waits there with role `0`, and `b` goes through its critical
section, releases the root and enters again, so that both wait at the root and
the turn is `a`'s. -/
def secondRound (a b : P) : List (Option (Label P)) :=
  [none, some ⟨b, .petersonAcquire 0 1, some 0⟩, none, some ⟨a, .petersonAcquire 0 0, none⟩,
   none, none, some ⟨b, .petersonRelease 0 1, some 0⟩, none, none,
   some ⟨b, .petersonAcquire 0 1, none⟩]

/-- While `b` waits at the root: the test of `a` passes, `b` tests again in
vain, and `a` enters its critical section. -/
def passRoot (a b : P) : List (Option (Label P)) :=
  [some ⟨a, .petersonAcquire 0 0, some 0⟩, some ⟨b, .petersonAcquire 0 1, none⟩, none]

/-- Along `secondRound 0 1` and then `passRoot 0 1`, the acquire of process `0`
at the root returns once while process `1` waits there. -/
theorem tournamentNode_boundedBypass_passRoot :
    exists s s', Run (rounds (bootLayout 1 (by decide)).globals).Step (bootStart 1) (secondRound 0 1) s ∧
      s.machine.frame 1 = some (.waiting 0 1) ∧
      Run (fun s label s' => (rounds (bootLayout 1 (by decide)).globals).Step s label s' ∧
        s'.machine.frame 1 = some (.waiting 0 1)) s (passRoot 0 1) s' ∧
      (passRoot 0 1).countP (acquiredWith 0 (1 - 1)) = 1 ∧
      (passRoot 0 1).countP (acquiredWith 0 (1 - 1)) ≤ 1 := by
  have entered₁ := Run.single
    (@Program.Step.internal _ _ _ (rounds (bootLayout 1 (by decide)).globals) (bootStart 1) 1 ⟨.acquiring (.ofNat 0), _⟩ rfl ⟨by decide, rfl⟩)
  have acquired₁ := Run.snoc entered₁ (show (rounds (bootLayout 1 (by decide)).globals).Step _ (some ⟨1, .petersonAcquire 0 1, some 0⟩) _ from .call (fun _ => ⟨by decide, rfl⟩) (Machine.step_of_next rfl))
  have entered₀ := Run.snoc acquired₁ (@Program.Step.internal _ _ _ (rounds (bootLayout 1 (by decide)).globals) _ 0 ⟨.acquiring (.ofNat 0), _⟩ rfl ⟨by decide, rfl⟩)
  have waits₀ := Run.snoc entered₀ (show (rounds (bootLayout 1 (by decide)).globals).Step _ (some ⟨0, .petersonAcquire 0 0, none⟩) _ from .call (fun _ => ⟨by decide, rfl⟩) (Machine.step_of_next rfl))
  have critical₁ := Run.snoc waits₀ (@Program.Step.internal _ _ _ (rounds (bootLayout 1 (by decide)).globals) _ 1 ⟨.critical, _⟩ rfl ⟨by decide, rfl⟩)
  have leaves₁ := Run.snoc critical₁ (@Program.Step.internal _ _ _ (rounds (bootLayout 1 (by decide)).globals) _ 1 ⟨.releasing 0, _⟩ rfl ⟨by decide, rfl⟩)
  have released₁ := Run.snoc leaves₁ (show (rounds (bootLayout 1 (by decide)).globals).Step _ (some ⟨1, .petersonRelease 0 1, some 0⟩) _ from .call (fun _ => ⟨by decide, rfl⟩) (Machine.step_of_next rfl))
  have done₁ := Run.snoc released₁ (@Program.Step.internal _ _ _ (rounds (bootLayout 1 (by decide)).globals) _ 1 ⟨.remainder, _⟩ rfl ⟨by decide, rfl⟩)
  have again₁ := Run.snoc done₁ (@Program.Step.internal _ _ _ (rounds (bootLayout 1 (by decide)).globals) _ 1 ⟨.acquiring (.ofNat 0), _⟩ rfl ⟨by decide, rfl⟩)
  -- the entry of process `1` gives the turn to process `0`
  have waits₁ := Run.snoc again₁ (show (rounds (bootLayout 1 (by decide)).globals).Step _ (some ⟨1, .petersonAcquire 0 1, none⟩) _ from .call (fun _ => ⟨by decide, rfl⟩) (Machine.step_of_next rfl))
  refine ⟨_, ?last, waits₁, rfl, ?window, by decide,
    @tournamentNode_boundedBypass _ _ (bootLayout 1 (by decide)) _ _ _ _ _ (start_bootStart 1 (by decide))
      waits₁ 1 0 1 rfl ?window⟩
  case window =>
    apply Run.cons
    · exact ⟨.call (fun idle => by cases idle) (Machine.step_of_next rfl), rfl⟩
    apply Run.cons
    · exact ⟨.call (fun idle => by cases idle) (Machine.step_of_next rfl), rfl⟩
    apply Run.cons
    · exact ⟨@Program.Step.internal _ _ _ (rounds (bootLayout 1 (by decide)).globals) _ 0 ⟨.critical, _⟩ rfl ⟨by decide, rfl⟩, rfl⟩
    exact Run.nil

end Tournament
end Xv6Peterson
