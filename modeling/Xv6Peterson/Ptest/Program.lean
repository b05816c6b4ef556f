import Xv6Peterson.Peterson.Client

namespace Xv6Peterson
namespace Ptest

open Transition Kernel Peterson

/-!
# `user/ptest.c`

`main` creates one Peterson lock and forks.  The parent takes role `0` and the
child role `1`, and each runs a hundred iterations of acquire, critical work
and release on the lock.  When a call fails the process gives up: the parent
waits for the child, destroys the lock and exits with `1`, the child exits
with `1` at once.  After its loop the child exits with `0`; the parent waits
for the child, destroys the lock and exits with `0`, or with `1` when the
destroy fails.

After the fork the two processes run as a program of `Kernel/Machine.lean`
over `Fin 2`, numbered by role: process `0` is the parent.  Its calls are the
machine's calls, and its own steps are the end of the loop and the return of
`wait(0)`, which may happen only once the child has exited (`Joined`).  The
output, `getpid` and the two `sleep`s change nothing that the lock reads; the
interleavings they allow are all among the program's runs.  Before the fork
the parent runs alone, so `peterson_create` and the destroy after a failed
fork are the single-process calls `sysPetersonCreate` and `sysPetersonDestroy`.
-/

/-- Where a process of `ptest` stands between its steps once it has forked. -/
inductive Point
  /-- At the test `i < 100` of the loop; while it holds, the next step is the
  call `peterson_acquire(lock_id, role)`. -/
  | loop (i : Int32)
  /-- `peterson_acquire` returned `0` in iteration `i`; the critical section
  ends with the call `peterson_release(lock_id, role)`. -/
  | critical (i : Int32)
  /-- The parent in `wait(0)`, after its loop or after a failed call. -/
  | joining (failed : Bool)
  /-- The parent's call `peterson_destroy(lock_id)`. -/
  | destroying (failed : Bool)
  /-- The process has called `exit(status)`. -/
  | exited (status : Int32)
  deriving DecidableEq, Repr

/-- The call process `p` makes next at `point`, with the lock id
`peterson_create` returned and its role, which is `p`. -/
def callAt (lockId : Int) (p : Fin 2) : Point -> Option Syscall
  | .loop i => if i < 100 then some (.petersonAcquire lockId p.val) else none
  | .critical _ => some (.petersonRelease lockId p.val)
  | .destroying _ => some (.petersonDestroy lockId)
  | _ => none

/-- Where a process goes when `peterson_acquire` or `peterson_release` fails:
the parent (`fork_ret > 0`) waits for the child and then destroys the lock,
since its role is `0`; the child exits with `1` at once. -/
def giveUp (p : Fin 2) : Point :=
  if p.val = 0 then .joining true else .exited 1

/-- Where a process goes on from `point` once its call returns `value`. -/
def resume (p : Fin 2) : Point -> Int -> Point
  | .loop i, value => if value < 0 then giveUp p else .critical i
  | .critical i, value => if value < 0 then giveUp p else .loop (i + 1)
  | .destroying failed, value =>
      -- after a failed call the parent exits with `1` whatever the destroy returns
      if failed then .exited 1 else if value < 0 then .exited 1 else .exited 0
  | point, _ => point

/-- The step process `p` takes at `point` without a call: the end of the loop,
after which the parent waits for the child and the child exits with `0`, and
the return of the parent's `wait(0)`. -/
def advance (p : Fin 2) : Point -> Option Point
  | .loop i => if i < 100 then none else some (if p.val = 0 then .joining false else .exited 0)
  | .joining failed => some (.destroying failed)
  | _ => none

/-- A process of `ptest`: its point, and the locks it holds, an auxiliary
variable that only the results of its calls change. -/
structure Process where
  point : Point
  held : Holding

/-- The two processes of `ptest` on the lock `lockId`.  A process starts the
call its point names, among the calls the locks it holds allow. -/
def ptest (lockId : Int) : Program (Fin 2) Process where
  starts p u call := callAt lockId p u.point = some call ∧ Allowed u.held call
  returns p u call value := ⟨resume p u.point value, grant call value u.held⟩
  internal p u u' := advance p u.point = some u'.point ∧ u'.held = u.held

theorem ptest_disciplined (lockId : Int) : Disciplined (ptest lockId) Process.held where
  starts_allowed _ _ _ started := started.2
  returns_held _ _ _ _ := rfl
  internal_held _ _ _ internal := internal.2

/-- `wait(0)` in the parent returns only once the child has exited: a step
that takes the parent out of `joining` finds the child at `exit`. -/
def Joined (s s' : System (Fin 2) Process) : Prop :=
  forall parent child : Fin 2, parent.val = 0 -> child.val = 1 -> forall failed : Bool,
    (s.user parent).point = .joining failed -> (s'.user parent).point ≠ .joining failed ->
      exists status, (s.user child).point = .exited status

/-- The steps of `ptest` after the fork. -/
def Step (lockId : Int) (s : System (Fin 2) Process) (label : Option (Label (Fin 2)))
    (s' : System (Fin 2) Process) : Prop :=
  (ptest lockId).Step s label s' ∧ Joined s s'

/-- The steps of `ptest` that process `p` takes, over which a scheduler fair to
each process is stated. -/
def ProcessStep (lockId : Int) (p : Fin 2) (s : System (Fin 2) Process)
    (label : Option (Label (Fin 2))) (s' : System (Fin 2) Process) : Prop :=
  (ptest lockId).StepBy p s label s' ∧ Joined s s'

theorem ProcessStep.step {lockId : Int} {p : Fin 2} {s s' : System (Fin 2) Process}
    {label : Option (Label (Fin 2))} (stepped : ProcessStep lockId p s label s') :
    Step lockId s label s' :=
  ⟨stepped.1.step, stepped.2⟩

/-- Every step of `ptest` is a step of the parent or of the child. -/
theorem Step.exists_processStep {lockId : Int} {s s' : System (Fin 2) Process}
    {label : Option (Label (Fin 2))} (stepped : Step lockId s label s') :
    exists p, ProcessStep lockId p s label s' := by
  obtain ⟨p, steppedBy⟩ := stepped.1.exists_stepBy
  exact ⟨p, steppedBy, stepped.2⟩

/-- Both processes right after `fork()`, with the table `peterson_create` left:
at the first test of the loop, holding nothing and in no call. -/
def forked (ptable : Ptable) : System (Fin 2) Process :=
  ⟨⟨ptable, none, fun _ => none⟩, fun _ => ⟨.loop 0, fun _ => none⟩⟩

/-- The runs of `main` from the table `ptable`, each with the table it leaves
once every process has exited.  A failed `peterson_create` exits with `1`
before the fork; a failed `fork()` destroys the lock and exits with `1`;
otherwise the parent and the child run their loops, interleaved in any way,
until both have exited. -/
inductive MainRun : Ptable -> Ptable -> Prop
  | createFailed {ptable created : Ptable} {lockId : Int} :
      sysPetersonCreate ptable = (created, lockId) -> lockId < 0 -> MainRun ptable created
  | forkFailed {ptable created destroyed : Ptable} {lockId value : Int} :
      sysPetersonCreate ptable = (created, lockId) -> 0 ≤ lockId ->
      sysPetersonDestroy created lockId = .ok (destroyed, value) -> MainRun ptable destroyed
  | ran {ptable created : Ptable} {lockId : Int} {labels : List (Option (Label (Fin 2)))}
      {s : System (Fin 2) Process} :
      sysPetersonCreate ptable = (created, lockId) -> 0 ≤ lockId ->
      Run (Step lockId) (forked created) labels s ->
      (forall p, exists status, (s.user p).point = .exited status) ->
      MainRun ptable s.machine.ptable

/-! ## The model evaluated -/

theorem callAt_loop {lockId : Int} {p : Fin 2} {i : Int32} (running : i < 100) :
    callAt lockId p (.loop i) = some (.petersonAcquire lockId p.val) := by
  simp [callAt, running]

theorem advance_loop {p : Fin 2} {i : Int32} (done : ¬ i < 100) :
    advance p (.loop i) = some (if p.val = 0 then .joining false else .exited 0) := by
  simp [advance, done]

@[simp] theorem callAt_joining (lockId : Int) (p : Fin 2) (failed : Bool) :
    callAt lockId p (.joining failed) = none :=
  rfl

@[simp] theorem callAt_exited (lockId : Int) (p : Fin 2) (status : Int32) :
    callAt lockId p (.exited status) = none :=
  rfl

@[simp] theorem resume_loop_zero (p : Fin 2) (i : Int32) : resume p (.loop i) 0 = .critical i := by
  simp [resume]

@[simp] theorem resume_critical_zero (p : Fin 2) (i : Int32) :
    resume p (.critical i) 0 = .loop (i + 1) := by
  simp [resume]

@[simp] theorem resume_destroying_zero (p : Fin 2) :
    resume p (.destroying false) 0 = .exited 0 := by
  simp [resume]

/-- A step of a process's own ends its loop or returns from `wait(0)`. -/
theorem advance_eq_some {p : Fin 2} {point point' : Point}
    (advanced : advance p point = some point') :
    (exists i, ¬ i < 100 ∧ point = .loop i ∧
        point' = if p.val = 0 then .joining false else .exited 0) ∨
      exists failed, point = .joining failed ∧ point' = .destroying failed := by
  cases point with
  | loop i =>
      by_cases running : i < 100
      · simp [advance, running] at advanced
      · rw [advance_loop running, Option.some.injEq] at advanced
        exact Or.inl ⟨i, running, rfl, advanced.symm⟩
  | joining failed =>
      cases advanced
      exact Or.inr ⟨failed, rfl, rfl⟩
  | critical | destroying | exited => cases advanced

end Ptest
end Xv6Peterson
