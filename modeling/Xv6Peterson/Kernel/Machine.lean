import Xv6Peterson.Transition.Run
import Xv6Peterson.Kernel.PetersonLock

namespace Xv6Peterson
namespace Kernel

open Transition

/-!
# Processes calling into the lock table

Any number of processes, on any CPUs, make the four Peterson system calls.
The model's atomic step is one region of `kernel/peterson.c` that holds a
spinlock, by one process.  This is sound for xv6's `acquire` and `release`,
which give mutual exclusion and issue the fences that order the writes inside
a region before the next holder's reads.  A call that holds no spinlock
between two regions may be interrupted there, and the process's `Frame`
records where it stands:

* `sys_peterson_acquire` yields inside its wait loop with `pl->lk` dropped;
* `sys_peterson_create` keeps `ptable_lock` for the whole first-fit scan of
  `peterson_alloc`, but takes each entry's spinlock in turn.

Acquiring a spinlock that another process holds spins.  Only `ptable_lock` is
held across steps, so only `sys_peterson_create` and `sys_peterson_destroy`
can spin, and a spinning call has not taken a step yet.  A kernel `panic`
halts the machine, so a region that would panic has no step.

User programs are composed with the machine in `Program`: a program says
which calls a process may start in each of its user states and where the
process continues when a call returns.  Every step of a program labelled with
a call is that step of the machine, and its user steps leave the machine alone.
-/

/-- Where a process stands inside a call that spans several atomic steps. -/
inductive Frame
  /-- Yielded in the wait loop of `sys_peterson_acquire`. -/
  | waiting (slot : Fin NPETERSONLOCKS) (role : Fin 2)
  /-- In `peterson_alloc` holding `ptable_lock`, before locking `ptable[slot]`. -/
  | scanning (slot : Fin NPETERSONLOCKS)
  deriving DecidableEq

/-- The four Peterson system calls, with the arguments a user passes. -/
inductive Syscall
  | petersonCreate
  | petersonAcquire (lockId role : Int)
  | petersonRelease (lockId role : Int)
  | petersonDestroy (lockId : Int)
  deriving DecidableEq

/-- The call that a frame is part of. -/
def Frame.call : Frame -> Syscall
  | .waiting slot role => .petersonAcquire slot role
  | .scanning _ => .petersonCreate

/-- What a region of `sys_peterson_acquire` returns, if it ends the call. -/
def Outcome.result : Outcome -> Option Int
  | .returns value => some value
  | .yields => none

/-- The kernel state that processes share: the table, the holder of
`ptable_lock`, and the frame of every process that is inside a call. -/
structure Machine (P : Type*) where
  ptable : Ptable
  ptableLock : Option P
  frame : P -> Option Frame

/-- One atomic step as processes see it: the process, the call it is in, and
what the call returned when the step ends it. -/
structure Label (P : Type*) where
  process : P
  call : Syscall
  result : Option Int
  deriving DecidableEq

namespace Machine

variable {P : Type*} [DecidableEq P]

/-- The machine right after `peterson_init`: no process is inside a call. -/
def initial : Machine P :=
  { ptable := petersonInit, ptableLock := none, frame := fun _ => none }

/-- The machine after a region of `sys_peterson_acquire` of process `p` left
the lock in state `pl`: the process waits on, or has left, the call. -/
def settle (m : Machine P) (p : P) (slot : Fin NPETERSONLOCKS) (role : Fin 2)
    (pl : PetersonLock) : Outcome -> Machine P
  | .returns _ =>
      { m with ptable := Function.update m.ptable slot pl, frame := Function.update m.frame p none }
  | .yields =>
      { m with ptable := Function.update m.ptable slot pl,
               frame := Function.update m.frame p (some (.waiting slot role)) }

/-- The atomic steps of the machine, one for each way a region of the four
calls can end. -/
inductive Step : Machine P -> Label P -> Machine P -> Prop
  /-- `sys_peterson_create` takes `ptable_lock`. -/
  | createBegin {m : Machine P} {p : P} :
      m.frame p = none -> m.ptableLock = none ->
      Step m ⟨p, .petersonCreate, none⟩
        { m with ptableLock := some p, frame := Function.update m.frame p (some (.scanning 0)) }
  /-- The scan finds `ptable[slot]` inactive: it takes the slot, and the call
  drops `ptable_lock` and returns the index. -/
  | createTake {m : Machine P} {p : P} {slot : Fin NPETERSONLOCKS} :
      m.frame p = some (.scanning slot) -> (m.ptable slot).active = 0 ->
      Step m ⟨p, .petersonCreate, some slot⟩
        { ptable := Function.update m.ptable slot ((m.ptable slot).reset 1),
          ptableLock := none, frame := Function.update m.frame p none }
  /-- The scan finds `ptable[slot]` active and goes on with the next slot. -/
  | createSkip {m : Machine P} {p : P} {slot next : Fin NPETERSONLOCKS} :
      m.frame p = some (.scanning slot) -> (m.ptable slot).active ≠ 0 ->
      next.val = slot.val + 1 ->
      Step m ⟨p, .petersonCreate, none⟩
        { m with frame := Function.update m.frame p (some (.scanning next)) }
  /-- The last slot is active too: the call drops `ptable_lock` and returns `-1`. -/
  | createFull {m : Machine P} {p : P} {slot : Fin NPETERSONLOCKS} :
      m.frame p = some (.scanning slot) -> (m.ptable slot).active ≠ 0 ->
      slot.val + 1 = NPETERSONLOCKS ->
      Step m ⟨p, .petersonCreate, some (-1)⟩
        { m with ptableLock := none, frame := Function.update m.frame p none }
  /-- `sys_peterson_acquire` refuses its arguments before locking anything. -/
  | acquireRejected {m : Machine P} {p : P} {lockId role : Int} :
      m.frame p = none -> checkArgs lockId role = none ->
      Step m ⟨p, .petersonAcquire lockId role, some (-1)⟩ m
  /-- The entry region of `sys_peterson_acquire`. -/
  | acquireEnter {m : Machine P} {p : P} {lockId role : Int} {slot : Fin NPETERSONLOCKS}
      {checked : Fin 2} :
      m.frame p = none -> checkArgs lockId role = some (slot, checked) ->
      Step m ⟨p, .petersonAcquire lockId role, (acquireEntry (m.ptable slot) checked).2.result⟩
        (m.settle p slot checked (acquireEntry (m.ptable slot) checked).1
          (acquireEntry (m.ptable slot) checked).2)
  /-- A region of the wait loop after `yield`: the spinlock is taken again and
  the loop condition tested. -/
  | acquireRecheck {m : Machine P} {p : P} {slot : Fin NPETERSONLOCKS} {role : Fin 2} :
      m.frame p = some (.waiting slot role) ->
      Step m ⟨p, .petersonAcquire slot role, (acquireTest (m.ptable slot) role).result⟩
        (m.settle p slot role (m.ptable slot) (acquireTest (m.ptable slot) role))
  /-- `sys_peterson_release`, one region. -/
  | release {m : Machine P} {p : P} {lockId role : Int} :
      m.frame p = none ->
      Step m ⟨p, .petersonRelease lockId role, some (sysPetersonRelease m.ptable lockId role).2⟩
        { m with ptable := (sysPetersonRelease m.ptable lockId role).1 }
  /-- `sys_peterson_destroy` refuses its lock id before locking anything. -/
  | destroyRejected {m : Machine P} {p : P} {lockId : Int} :
      m.frame p = none -> checkLockId lockId = none ->
      Step m ⟨p, .petersonDestroy lockId, some (-1)⟩ m
  /-- `sys_peterson_destroy` holding `ptable_lock` and `pl->lk`. -/
  | destroy {m : Machine P} {p : P} {lockId : Int} {slot : Fin NPETERSONLOCKS}
      {ptable : Ptable} {value : Int} :
      m.frame p = none -> checkLockId lockId = some slot -> m.ptableLock = none ->
      destroyRegion m.ptable slot = .ok (ptable, value) ->
      Step m ⟨p, .petersonDestroy lockId, some value⟩ { m with ptable := ptable }

@[simp] theorem settle_ptableLock (m : Machine P) (p : P) (slot : Fin NPETERSONLOCKS)
    (role : Fin 2) (pl : PetersonLock) (outcome : Outcome) :
    (m.settle p slot role pl outcome).ptableLock = m.ptableLock := by
  cases outcome <;> rfl

@[simp] theorem settle_ptable (m : Machine P) (p : P) (slot : Fin NPETERSONLOCKS)
    (role : Fin 2) (pl : PetersonLock) (outcome : Outcome) :
    (m.settle p slot role pl outcome).ptable = Function.update m.ptable slot pl := by
  cases outcome <;> rfl

theorem settle_frame (m : Machine P) (p : P) (slot : Fin NPETERSONLOCKS) (role : Fin 2)
    (pl : PetersonLock) (outcome : Outcome) :
    (m.settle p slot role pl outcome).frame =
      Function.update m.frame p (if outcome = .yields then some (.waiting slot role) else none) := by
  cases outcome <;> rfl

/-- A step changes the frame of the process that takes it and of no other. -/
theorem Step.frame_of_ne {m m' : Machine P} {label : Label P} {q : P}
    (stepped : Step m label m') (other : q ≠ label.process) : m'.frame q = m.frame q := by
  cases stepped <;> simp [settle_frame, Function.update_of_ne other]

/-- A step is taken in the call of the frame its process is in. -/
theorem Step.call_of_frame {m m' : Machine P} {label : Label P} {frame : Frame}
    (stepped : Step m label m') (inCall : m.frame label.process = some frame) :
    label.call = frame.call := by
  cases stepped <;> simp_all [Frame.call]

end Machine

/-! ## User programs -/

/-- A user program over the Peterson calls: the calls a process may start in a
user state, the user state it continues in when a call returns, and the user
steps that make no call. -/
structure Program (P U : Type*) where
  starts : P -> U -> Syscall -> Prop
  returns : P -> U -> Syscall -> Int -> U
  internal : P -> U -> U -> Prop

/-- The state of a program run: the machine and each process's user state. -/
structure System (P U : Type*) where
  machine : Machine P
  user : P -> U

theorem System.ext {P U : Type*} {s s' : System P U} (machine : s.machine = s'.machine)
    (user : s.user = s'.user) : s = s' := by
  cases s
  cases s'
  cases machine
  cases user
  rfl

/-- The system with each user state seen through `f`. -/
def System.map {P U V : Type*} (f : U -> V) (s : System P U) : System P V :=
  ⟨s.machine, fun p => f (s.user p)⟩

theorem System.map_update {P U V : Type*} [DecidableEq P] (f : U -> V) (machine : Machine P)
    (user : P -> U) (p : P) (u : U) :
    System.map f ⟨machine, Function.update user p u⟩ =
      ⟨machine, Function.update (fun q => f (user q)) p (f u)⟩ := by
  show (⟨machine, f ∘ Function.update user p u⟩ : System P V) = _
  rw [Function.comp_update]
  rfl

namespace Program

variable {P U : Type*} [DecidableEq P] (program : Program P U)

/-- The user state of the process of `label` once the step is taken: it moves
on only when the step ends the call. -/
def after (label : Label P) (u : U) : U :=
  match label.result with
  | some value => program.returns label.process u label.call value
  | none => u

/-- The steps of a program run: a machine step of a process in a call it was
allowed to start, or a user step of a process that is in no call.  The first
kind is labelled with the machine label, the second with `none`. -/
inductive Step : System P U -> Option (Label P) -> System P U -> Prop
  | call {s : System P U} {label : Label P} {machine : Machine P} :
      (s.machine.frame label.process = none ->
        program.starts label.process (s.user label.process) label.call) ->
      Machine.Step s.machine label machine ->
      Step s (some label)
        ⟨machine, Function.update s.user label.process (program.after label (s.user label.process))⟩
  | internal {s : System P U} {p : P} {u : U} :
      s.machine.frame p = none -> program.internal p (s.user p) u ->
      Step s none ⟨s.machine, Function.update s.user p u⟩

/-- The steps of process `p` in a program run: the steps of `Step` that `p`
takes.  A scheduler that is fair to each process is stated over these. -/
inductive StepBy (p : P) : System P U -> Option (Label P) -> System P U -> Prop
  | call {s : System P U} {label : Label P} {machine : Machine P} :
      label.process = p ->
      (s.machine.frame p = none -> program.starts p (s.user p) label.call) ->
      Machine.Step s.machine label machine ->
      StepBy p s (some label) ⟨machine, Function.update s.user p (program.after label (s.user p))⟩
  | internal {s : System P U} {u : U} :
      s.machine.frame p = none -> program.internal p (s.user p) u ->
      StepBy p s none ⟨s.machine, Function.update s.user p u⟩

variable {program}

theorem StepBy.step {p : P} {s s' : System P U} {label : Option (Label P)}
    (stepped : program.StepBy p s label s') : program.Step s label s' := by
  cases stepped with
  | call mover starts machineStep =>
      subst mover
      exact Step.call starts machineStep
  | internal idle internal => exact Step.internal idle internal

/-- A step of `p` leaves every other process's user state and frame alone. -/
theorem StepBy.other {p q : P} {s s' : System P U} {label : Option (Label P)}
    (stepped : program.StepBy p s label s') (other : q ≠ p) :
    s'.user q = s.user q ∧ s'.machine.frame q = s.machine.frame q := by
  cases stepped with
  | call mover _ machineStep =>
      subst mover
      exact ⟨Function.update_of_ne other _ _, machineStep.frame_of_ne other⟩
  | internal => exact ⟨Function.update_of_ne other _ _, rfl⟩

/-! ### Programs over images of the user states

A program whose user states are seen through a map `f` takes, for each step of
the first, the same machine step: a call step whenever the second starts the
same calls and returns to the images, a user step whenever its user steps
match, and no step at all when the image of the user state stays where it was. -/

section Map

variable {V : Type*} {program' : Program P V} (f : U -> V) {p : P} {s s' : System P U}

omit [DecidableEq P] in
theorem after_map (returns : forall q u call value,
      f (program.returns q u call value) = program'.returns q (f u) call value)
    (label : Label P) (u : U) : f (program.after label u) = program'.after label (f u) := by
  unfold after
  cases label.result with
  | some value => exact returns _ _ _ value
  | none => rfl

theorem StepBy.map_call {seen : Label P}
    (starts : forall q u call, program.starts q u call -> program'.starts q (f u) call)
    (returns : forall q u call value,
      f (program.returns q u call value) = program'.returns q (f u) call value)
    (stepped : program.StepBy p s (some seen) s') :
    program'.StepBy p (s.map f) (some seen) (s'.map f) := by
  cases stepped with
  | call mover started machineStep =>
      rw [System.map_update, after_map f returns]
      exact StepBy.call mover (fun idle => starts _ _ _ (started idle)) machineStep

theorem StepBy.map_internal (stepped : program.StepBy p s none s')
    (internal : forall u, program.internal p (s.user p) u -> program'.internal p (f (s.user p)) (f u)) :
    program'.StepBy p (s.map f) none (s'.map f) := by
  cases stepped with
  | internal idle moved =>
      rw [System.map_update]
      exact StepBy.internal idle (internal _ moved)

theorem StepBy.map_stutter (stepped : program.StepBy p s none s')
    (same : forall u, program.internal p (s.user p) u -> f u = f (s.user p)) :
    s'.map f = s.map f := by
  cases stepped with
  | internal _ moved =>
      rw [System.map_update, same _ moved]
      exact congrArg (System.mk s.machine) (Function.update_eq_self p _)

end Map

/-- Every step of a program run is a step of one of its processes. -/
theorem Step.exists_stepBy {s s' : System P U} {label : Option (Label P)}
    (stepped : program.Step s label s') : exists p, program.StepBy p s label s' := by
  cases stepped with
  | call starts machineStep => exact ⟨_, StepBy.call rfl starts machineStep⟩
  | internal idle internal => exact ⟨_, StepBy.internal idle internal⟩

/-- A program step labelled with a machine label is that machine step. -/
theorem Step.machine_step {s s' : System P U} {seen : Label P}
    (stepped : program.Step s (some seen) s') : Machine.Step s.machine seen s'.machine := by
  cases stepped with
  | call _ machineStep => exact machineStep

/-- A user step leaves the machine alone. -/
theorem Step.machine_eq {s s' : System P U} (stepped : program.Step s none s') :
    s'.machine = s.machine := by
  cases stepped
  rfl

/-- A step whose call does not return leaves every user state as it was. -/
theorem Step.user_of_yield {s s' : System P U} {seen : Label P}
    (stepped : program.Step s (some seen) s') (yields : seen.result = none) : s'.user = s.user := by
  cases stepped with
  | call => simp [after, yields]

/-- One process moves in each step: every other process keeps its user state. -/
theorem Step.exists_mover {s s' : System P U} {label : Option (Label P)}
    (stepped : program.Step s label s') : exists p, forall q, q ≠ p -> s'.user q = s.user q := by
  cases stepped with
  | @call label _ _ _ => exact ⟨label.process, fun q other => Function.update_of_ne other _ _⟩
  | @internal p _ _ _ => exact ⟨p, fun q other => Function.update_of_ne other _ _⟩

end Program

end Kernel
end Xv6Peterson
