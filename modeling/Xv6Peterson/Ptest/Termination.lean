import Xv6Peterson.Ptest.Runs
import Xv6Peterson.Transition.Fair

namespace Xv6Peterson
namespace Ptest

open Transition Kernel Peterson

/-!
# `ptest` ends under a fair scheduler

A process of `ptest` that cannot enter the critical section yields in the
wait loop of `sys_peterson_acquire` and is runnable again; the parent in
`wait(0)` sleeps until the child has exited.  A scheduler that passes over no
process that can step forever lets both processes exit with `0`, and the
parent then leaves the table as `peterson_create` left it, with the slot
freed.

Every step either is a test of the wait loop that yields again, which leaves
the state as it was, or takes its process further along its program
(`Inv.rank_step`), and how far both have gone is bounded.  So every execution
settles in one state, where a fair scheduler gives every process that can step
a step back to that state: a test that yields again.  A process yields only
while the other one is registered on the lock, and the other one can then step
too, so it yields as well; but the two wait conditions exclude each other.  So
nobody can step where the execution settles, and there both have exited.
-/

variable {slot : Fin NPETERSONLOCKS}

/-- How far along its program a process at `point` is: two steps for each
iteration of the loop, then `wait(0)`, the destroy and `exit`. -/
def position : Point -> Nat
  | .loop i => 2 * i.toInt.toNat
  | .critical i => 2 * i.toInt.toNat + 1
  | .joining _ => 201
  | .destroying _ => 202
  | .exited _ => 203

/-- How far a process has gone, where entering the wait loop of an acquire
counts as half a step. -/
def progress (point : Point) (frame : Option Frame) : Nat :=
  2 * position point + if frame.isSome then 1 else 0

/-- How far both processes of a state have gone. -/
def rank (s : System (Fin 2) Process) : Nat :=
  ∑ p : Fin 2, progress (s.user p).point (s.machine.frame p)

theorem progress_lt_of_position_lt {point point' : Point} (further : position point < position point')
    (frame frame' : Option Frame) : progress point frame < progress point' frame' := by
  unfold progress
  split <;> split <;> omega

theorem Stand.position_le {p : Fin 2} {point : Point} {frame : Option Frame} {held : Holding}
    (stand : Stand slot p point frame held) : position point ≤ 203 := by
  cases stand <;> simp only [position] <;> omega

theorem Stand.progress_le {p : Fin 2} {point : Point} {frame : Option Frame} {held : Holding}
    (stand : Stand slot p point frame held) : progress point frame ≤ 407 := by
  have bounded := stand.position_le
  unfold progress
  split <;> omega

/-- A move that takes its process to another point takes it further. -/
theorem Move.position_lt {p : Fin 2} {point point' : Point} {label : Option (Label (Fin 2))}
    {frame : Option Frame} {held : Holding} (moved : Move slot p point label point')
    (stand : Stand slot p point frame held) (moves : point' ≠ point) :
    position point < position point' := by
  cases moved with
  | wait => exact absurd rfl moves
  | acquire | join | destroy => simp only [position]; omega
  | release =>
      cases stand with
      | critical low high =>
          have next := toInt_add_one low high
          simp only [position]
          omega
  | @finish i _ =>
      -- the loop ends at `i = 100`, before `wait(0)` or `exit`
      have atMost : position (.loop i) ≤ 200 := by
        cases stand <;> simp only [position] <;> omega
      split <;> simp only [position] at atMost ⊢ <;> omega

/-- Only the test of the wait loop that yields keeps a process at its point. -/
theorem Move.label_of_stays {p : Fin 2} {point point' : Point} {label : Option (Label (Fin 2))}
    (moved : Move slot p point label point') (stays : point' = point) :
    label = some ⟨p, .petersonAcquire slot p.val, none⟩ := by
  cases moved with
  | wait => rfl
  | acquire | release | join | destroy => cases stays
  | finish => split at stays <;> cases stays

/-- The rank goes up when one process goes further and the other keeps its
point and its frame. -/
theorem rank_lt {s s' : System (Fin 2) Process} {p : Fin 2}
    (further : progress (s.user p).point (s.machine.frame p) <
      progress (s'.user p).point (s'.machine.frame p))
    (same : forall q, q ≠ p -> s'.user q = s.user q ∧ s'.machine.frame q = s.machine.frame q) :
    rank s < rank s' := by
  apply Finset.sum_lt_sum
  · intro q _
    by_cases mover : q = p
    · subst mover
      exact Nat.le_of_lt further
    · rw [(same q mover).1, (same q mover).2]
  · exact ⟨p, Finset.mem_univ p, further⟩

section Variant

variable {table : Ptable} {s s' : System (Fin 2) Process} {label : Option (Label (Fin 2))}

theorem Inv.rank_le (inv : Inv slot table s) : rank s ≤ 814 := by
  have parent := (inv.stand 0).progress_le
  have child := (inv.stand 1).progress_le
  rw [rank, Fin.sum_univ_two]
  omega

/-- Every step of a run either is a test of the wait loop that yields again,
which leaves the state as it was, or takes its process further. -/
theorem Inv.rank_step (inv : Inv slot table s) (stepped : Step slot s label s') :
    s' = s ∨ rank s < rank s' := by
  obtain ⟨p, moved, -, same⟩ := stand_step inv.stand (fun _ => inv.active) stepped.1
  by_cases moves : (s'.user p).point ≠ (s.user p).point
  · exact Or.inr (rank_lt (progress_lt_of_position_lt (moved.position_lt (inv.stand p) moves) _ _)
      same)
  have stays : (s'.user p).point = (s.user p).point := not_not.mp moves
  obtain rfl := moved.label_of_stays stays
  have machineStep := stepped.1.machine_step
  rcases acquire_frame_of_step machineStep rfl (checkArgs_slot slot p) with idle | waiting
  · -- the entry region yielded: the process has entered the wait loop
    right
    apply rank_lt _ same
    rcases machineStep.acquire_active rfl (checkArgs_slot slot p)
        (inv.active (moved.not_exited 0)) with ⟨-, nowWaiting⟩ | ⟨returned, -⟩
    · simp only at idle nowWaiting
      simp [progress, stays, idle, nowWaiting]
    · cases returned
  · -- a test of the wait loop that yields again
    left
    exact System.ext (machineStep.recheck_yields waiting rfl).1 (stepped.1.user_of_yield rfl)

end Variant

/-! ## Where an execution settles -/

section Settled

variable {table : Ptable} {s : System (Fin 2) Process}

/-- A process registered on the lock is at its loop or in the critical
section. -/
theorem Stand.running_of_registered {p r : Fin 2} {point : Point} {frame : Option Frame}
    {held : Holding} (stand : Stand slot p point frame held)
    (registered : (phaseOf frame held slot).role = some r) :
    point ≠ .exited 0 ∧ forall failed, point ≠ .joining failed := by
  cases stand <;> simp [heldPhase] at registered ⊢

/-- A process registered on the lock can step. -/
theorem Inv.can_step_of_registered (inv : Inv slot table s) {q r : Fin 2}
    (registered : (phases Process.held s slot q).role = some r) :
    Enabled (ProcessStep slot) q s := by
  obtain ⟨running, notJoining⟩ := (inv.stand q).running_of_registered registered
  exact inv.can_step running (fun joining => absurd joining (notJoining false))

/-- A step of a process back to the state it left is a test of the wait loop
that yields again: the process waits, and its wait condition holds. -/
theorem Inv.blocked_of_loop (inv : Inv slot table s) {p : Fin 2} {label : Option (Label (Fin 2))}
    (looped : ProcessStep slot p s label s) :
    s.machine.frame p = some (.waiting slot p) ∧ (s.machine.ptable slot).waitCondition p := by
  have moved := stand_stepBy inv.stand (fun _ => inv.active) looped.1
  obtain rfl := moved.label_of_stays rfl
  have machineStep := looped.step.1.machine_step
  rcases machineStep.acquire_active rfl (checkArgs_slot slot p) (inv.active (moved.not_exited 0))
    with ⟨-, waiting⟩ | ⟨returned, -⟩
  · exact ⟨waiting, (machineStep.recheck_yields waiting rfl).2⟩
  · cases returned

/-- A process waits only while the other process is registered with its role. -/
theorem Inv.registered_of_blocked (inv : Inv slot table s) {p : Fin 2}
    (blocked : (s.machine.ptable slot).waitCondition p) :
    (phases Process.held s slot (1 - p)).role = some (1 - p) := by
  obtain ⟨a, registered⟩ := (inv.slotInv.protocol.flag_iff (1 - p)).mp blocked.1
  rcases ownRoles_of_stand inv.stand a with unregistered | own
  · rw [unregistered] at registered
    cases registered
  · rw [own, Option.some.injEq] at registered
    subst registered
    exact own

/-- Where every process that can step has a step back to the state, nobody
has one: the two processes would both wait, each for the other. -/
theorem Inv.not_loop (inv : Inv slot table s)
    (loops : forall p, Enabled (ProcessStep slot) p s ->
      exists label, ProcessStep slot p s label s) (p : Fin 2) :
    ¬ exists label, ProcessStep slot p s label s := by
  rintro ⟨label, looped⟩
  have blocked := (inv.blocked_of_loop looped).2
  obtain ⟨label', looped'⟩ := loops (1 - p) (inv.can_step_of_registered (inv.registered_of_blocked blocked))
  exact PetersonLock.not_waitCondition_one_sub _ blocked (inv.blocked_of_loop looped').2

/-- A state in which every process that can step has a step back to it is
one in which both have exited. -/
theorem Inv.exited_of_loops (inv : Inv slot table s)
    (loops : forall p, Enabled (ProcessStep slot) p s ->
      exists label, ProcessStep slot p s label s) :
    forall p, (s.user p).point = .exited 0 := by
  have stuck : forall p, ¬ Enabled (ProcessStep slot) p s :=
    fun p enabled => inv.not_loop loops p (loops p enabled)
  have childDone : (s.user 1).point = .exited 0 := by
    by_contra running
    exact stuck 1 (inv.child_can_step running)
  have parentDone : (s.user 0).point = .exited 0 := by
    by_contra running
    exact stuck 0 (inv.parent_can_step running childDone)
  intro p
  rcases (show p = 0 ∨ p = 1 by omega) with rfl | rfl
  · exact parentDone
  · exact childDone

/-- A process that has exited takes no step. -/
theorem Inv.not_enabled_of_exited (inv : Inv slot table s) {p : Fin 2}
    (done : (s.user p).point = .exited 0) : ¬ Enabled (ProcessStep slot) p s := by
  rintro ⟨label, s', stepped⟩
  exact (stand_stepBy inv.stand (fun _ => inv.active) stepped.1).not_exited 0 done

end Settled

/-- `ptest` ends under every scheduler fair to both processes: every fair
execution from the fork reaches a state in which both processes have exited
with `0` and the table is the one `peterson_create` left, with the slot
freed. -/
theorem ptest_terminates {table : Ptable} (fresh : table slot = (table slot).reset 1)
    (x : Execution (ProcessStep slot) (forked table)) (fair : x.Fair) :
    exists n, (forall p, ((x.state n).user p).point = .exited 0) ∧
      (x.state n).machine.ptable = Function.update table slot ((table slot).reset 0) := by
  have keep : forall p s label s', Inv slot table s -> ProcessStep slot p s label s' ->
      Inv slot table s' :=
    fun _ _ _ _ inv stepped => inv.step stepped.step
  obtain ⟨n, settled⟩ := x.settles (Inv slot table) (Inv.start fresh) keep rank
    (fun _ inv => inv.rank_le) (fun _ _ _ _ inv stepped => inv.rank_step stepped.step)
  have inv := x.invariant (Inv slot table) (Inv.start fresh) keep n
  have done := inv.exited_of_loops (fun _ enabled => fair.loops settled enabled)
  exact ⟨n, done, inv.table_of_done (done 0)⟩

/-- After boot, a fair execution exists: the run that takes the test to its
end, after which nobody can step. -/
theorem ptest_terminates_afterBoot :
    exists x : Execution (ProcessStep 0) (forked (sysPetersonCreate petersonInit).1), x.Fair ∧
      exists n, (forall p, ((x.state n).user p).point = .exited 0) ∧
        (x.state n).machine.ptable = Function.update (sysPetersonCreate petersonInit).1 0
          (((sysPetersonCreate petersonInit).1 0).reset 0) := by
  obtain ⟨labels, s, run, finished⟩ := exists_finishedRun createAtBoot.2
  have inv := Inv.of_run createAtBoot.2 run
  have byProcess : Run (fun s label s' => exists p, ProcessStep 0 p s label s')
      (forked (sysPetersonCreate petersonInit).1) labels s :=
    Run.weaken (fun _ => True) trivial (fun _ _ _ _ _ => trivial)
      (fun _ _ _ _ stepped => stepped.exists_processStep) run
  obtain ⟨x, fair, -⟩ := byProcess.exists_fair (fun p => inv.not_enabled_of_exited (finished p))
  exact ⟨x, fair, ptest_terminates createAtBoot.2 x fair⟩

end Ptest
end Xv6Peterson
