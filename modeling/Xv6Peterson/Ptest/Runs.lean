import Xv6Peterson.Ptest.Program
import Xv6Peterson.Peterson.Bypass
import Xv6Peterson.Kernel.LockTable
import Xv6Peterson.Word.Signed

namespace Xv6Peterson
namespace Ptest

open Transition Kernel Peterson

/-!
# Every run of `ptest` after the fork

The lock of `ptest` is a slot `slot` that `peterson_create` has just
allocated.  Along every interleaving of the parent and the child, each process
stands at a point of its program that no failed call leads to (`Stand`), with
the kernel frame and the locks that point implies, and every step is one move
of the program in which no call fails (`Move`).  The slot keeps the invariant
of Peterson's protocol, since each process registers with its own role.  It
stays active until the parent destroys it, which the parent does only once
the child has exited, and no other slot changes.

So every call returns `0`, the two processes are never both in the critical
section, and a state in which a process has not exited always has a next step.
Once both have exited, each has exited with `0` after a hundred passes through
the critical section, and the table is the one `peterson_create` left, with
the slot freed.  Whether `peterson_create` fails, `fork` fails or the test
runs to its end, `main` leaves every slot as active as it found it.
-/

variable {slot : Fin NPETERSONLOCKS}

/-! ## The moves of one process -/

/-- The steps of one process of `ptest` on the lock of `slot` in which no call
fails, with the label each shows: the acquire waits or returns `0`, the
release returns `0`, the loop ends, the parent's `wait(0)` returns and its
destroy returns `0`. -/
inductive Move (slot : Fin NPETERSONLOCKS) (p : Fin 2) :
    Point -> Option (Label (Fin 2)) -> Point -> Prop
  | wait {i : Int32} : i < 100 ->
      Move slot p (.loop i) (some ⟨p, .petersonAcquire slot p.val, none⟩) (.loop i)
  | acquire {i : Int32} : i < 100 ->
      Move slot p (.loop i) (some ⟨p, .petersonAcquire slot p.val, some 0⟩) (.critical i)
  | release {i : Int32} :
      Move slot p (.critical i) (some ⟨p, .petersonRelease slot p.val, some 0⟩) (.loop (i + 1))
  | finish {i : Int32} : ¬ i < 100 ->
      Move slot p (.loop i) none (if p.val = 0 then .joining false else .exited 0)
  | join : Move slot p (.joining false) none (.destroying false)
  | destroy :
      Move slot p (.destroying false) (some ⟨p, .petersonDestroy slot, some 0⟩) (.exited 0)

/-- Where a process of `ptest` on the lock of `slot` can stand, with its kernel
frame and the locks it holds: at the test of the loop, or waiting in the
acquire of the iteration; in the critical section; the parent waiting for the
child and destroying the lock; after `exit(0)`. -/
inductive Stand (slot : Fin NPETERSONLOCKS) (p : Fin 2) : Point -> Option Frame -> Holding -> Prop
  | loop {i : Int32} : 0 ≤ i.toInt -> i.toInt ≤ 100 ->
      Stand slot p (.loop i) none (fun _ => none)
  | waiting {i : Int32} : 0 ≤ i.toInt -> i.toInt < 100 ->
      Stand slot p (.loop i) (some (.waiting slot p)) (fun _ => none)
  | critical {i : Int32} : 0 ≤ i.toInt -> i.toInt < 100 ->
      Stand slot p (.critical i) none (Function.update (fun _ => none) slot (some p))
  | joining : p.val = 0 -> Stand slot p (.joining false) none (fun _ => none)
  | destroying : p.val = 0 -> Stand slot p (.destroying false) none (fun _ => none)
  | exited : Stand slot p (.exited 0) none (fun _ => none)

theorem lt_hundred_iff {i : Int32} : i < 100 ↔ i.toInt < 100 := by
  rw [Int32.lt_iff_toInt_lt]
  rfl

/-- The loop counter goes up by one without wrapping. -/
theorem toInt_add_one {i : Int32} (low : 0 ≤ i.toInt) (high : i.toInt < 100) :
    (i + 1).toInt = i.toInt + 1 :=
  Word.toInt_add_of_range (by simp; omega) (by simp; omega)

/-- A process registers on `slot`, if at all, with its own role. -/
theorem Stand.phase_role {p : Fin 2} {point : Point} {frame : Option Frame} {held : Holding}
    (stand : Stand slot p point frame held) :
    (phaseOf frame held slot).role = none ∨ (phaseOf frame held slot).role = some p := by
  cases stand <;> simp [heldPhase]

/-- Nobody is registered on `slot` after `exit`. -/
theorem Stand.exited_idle {p : Fin 2} {status : Int32} {frame : Option Frame} {held : Holding}
    (stand : Stand slot p (.exited status) frame held) : phaseOf frame held slot = .idle := by
  cases stand
  rfl

theorem Stand.parent_of_destroying {p : Fin 2} {failed : Bool} {frame : Option Frame}
    {held : Holding} (stand : Stand slot p (.destroying failed) frame held) : p.val = 0 := by
  cases stand with
  | destroying parent => exact parent

theorem Stand.parent_of_joining {p : Fin 2} {failed : Bool} {frame : Option Frame}
    {held : Holding} (stand : Stand slot p (.joining failed) frame held) : p.val = 0 := by
  cases stand with
  | joining parent => exact parent

/-- A process in the critical section holds the lock with its own role. -/
theorem Stand.critical_phase {p : Fin 2} {i : Int32} {frame : Option Frame} {held : Holding}
    (stand : Stand slot p (.critical i) frame held) : phaseOf frame held slot = .critical p := by
  cases stand
  simp [heldPhase]

theorem Stand.exited_zero {p : Fin 2} {status : Int32} {frame : Option Frame} {held : Holding}
    (stand : Stand slot p (.exited status) frame held) : status = 0 := by
  cases stand
  rfl

/-- The auxiliary lock rules never block a call of `ptest`: at a point where it
is in no call, a process holds exactly the locks that allow the call the point
names. -/
theorem Stand.allowed {p : Fin 2} {point : Point} {held : Holding} (stand : Stand slot p point none held)
    {call : Syscall} (named : callAt slot p point = some call) : Allowed held call := by
  cases stand with
  | loop =>
      simp only [callAt] at named
      split at named
      · cases named
        exact (allowed_acquire_iff (checkArgs_slot slot p)).mpr rfl
      · cases named
  | critical =>
      cases named
      exact (allowed_release_iff (checkArgs_slot slot p)).mpr (by simp)
  | destroying =>
      cases named
      trivial
  | joining | exited => cases named

/-- After `exit` a process moves no more. -/
theorem Move.not_exited {p : Fin 2} {point point' : Point} {label : Option (Label (Fin 2))}
    (moved : Move slot p point label point') (status : Int32) : point ≠ .exited status := by
  cases moved <;> simp

/-- Only the parent's destroy frees the slot. -/
theorem Move.frees {p : Fin 2} {point point' : Point} {label : Option (Label (Fin 2))}
    (moved : Move slot p point label point') (freeing : Frees slot label) :
    point = .destroying false ∧ point' = .exited 0 := by
  cases moved with
  | destroy => exact ⟨rfl, rfl⟩
  | wait | acquire | release | finish | join => simp [Frees] at freeing

/-- The parent reaches the destroy or `exit` only from `wait(0)` or the destroy. -/
theorem Move.parent_done {p : Fin 2} {point point' : Point} {label : Option (Label (Fin 2))}
    (moved : Move slot p point label point') (parent : p.val = 0)
    (done : point' = .destroying false ∨ point' = .exited 0) :
    point = .joining false ∨ point = .destroying false := by
  cases moved with
  | join => exact Or.inl rfl
  | destroy => exact Or.inr rfl
  | finish => simp [parent] at done
  | wait | acquire | release => simp at done

/-! ## One step of a process -/

section Steps

variable {m m' : Machine (Fin 2)} {p : Fin 2}

theorem release_held (p : Fin 2) :
    Function.update (Function.update (fun _ => none : Holding) slot (some p)) slot none =
      fun _ => none := by
  funext j
  by_cases same : j = slot <;> simp [same]

/-- A step of the acquire of iteration `i` on an active lock: the process
waits, or enters the critical section. -/
theorem Stand.acquire_step {result : Option Int}
    (stepped : Machine.Step m ⟨p, .petersonAcquire slot p.val, result⟩ m') {i : Int32}
    (low : 0 ≤ i.toInt) (running : i < 100) (active : (m.ptable slot).active ≠ 0) :
    Move slot p (.loop i) (some ⟨p, .petersonAcquire slot p.val, result⟩)
        ((ptest slot).after ⟨p, .petersonAcquire slot p.val, result⟩
          ⟨.loop i, fun _ => none⟩).point ∧
      Stand slot p
        ((ptest slot).after ⟨p, .petersonAcquire slot p.val, result⟩
          ⟨.loop i, fun _ => none⟩).point
        (m'.frame p)
        ((ptest slot).after ⟨p, .petersonAcquire slot p.val, result⟩
          ⟨.loop i, fun _ => none⟩).held := by
  have high := lt_hundred_iff.mp running
  rcases stepped.acquire_active rfl (checkArgs_slot slot p) active with
    ⟨yields, waiting⟩ | ⟨returned, free⟩
  · simp only at yields waiting
    subst yields
    rw [waiting]
    exact ⟨Move.wait running, Stand.waiting low high⟩
  · simp only at returned free
    subst returned
    rw [free]
    simp only [Program.after, ptest, grant_acquire (checkArgs_slot slot p), if_pos,
      resume_loop_zero]
    exact ⟨Move.acquire running, Stand.critical low high⟩

/-- A step of a process's own call, from where it stands, is one move, after
which it stands again.  The lock is active unless the process has exited. -/
theorem Stand.call {label : Label (Fin 2)} (stepped : Machine.Step m label m') {u : Process}
    (stand : Stand slot label.process u.point (m.frame label.process) u.held)
    (starts : m.frame label.process = none -> (ptest slot).starts label.process u label.call)
    (active : u.point ≠ .exited 0 -> (m.ptable slot).active ≠ 0) :
    Move slot label.process u.point (some label) ((ptest slot).after label u).point ∧
      Stand slot label.process ((ptest slot).after label u).point (m'.frame label.process)
        ((ptest slot).after label u).held := by
  obtain ⟨p, call, result⟩ := label
  obtain ⟨point, held⟩ := u
  simp only at stand starts active ⊢
  generalize inFrame : m.frame p = frame at stand starts
  cases stand with
  | @loop i low _ =>
      have called := (starts rfl).1
      by_cases running : i < 100
      · rw [callAt_loop running, Option.some.injEq] at called
        subst called
        exact Stand.acquire_step stepped low running (active (by simp))
      · simp [callAt, running] at called
  | @waiting i low high =>
      -- a re-check of the wait loop, whose call the frame names
      have sameCall := stepped.call_of_frame inFrame
      simp only [Frame.call] at sameCall
      subst sameCall
      exact Stand.acquire_step stepped low (lt_hundred_iff.mpr high) (active (by simp))
  | @critical i low high =>
      have called := (starts rfl).1
      simp only [callAt, Option.some.injEq] at called
      subst called
      obtain ⟨returned, sameFrame⟩ :=
        stepped.release_active rfl (checkArgs_slot slot p) (active (by simp))
      simp only at returned sameFrame
      subst returned
      rw [sameFrame, inFrame]
      simp only [Program.after, ptest, grant_release (checkArgs_slot slot p), resume_critical_zero,
        release_held]
      have next := toInt_add_one low high
      exact ⟨Move.release, Stand.loop (by omega) (by omega)⟩
  | destroying _ =>
      have called := (starts rfl).1
      simp only [callAt, Option.some.injEq] at called
      subst called
      obtain ⟨returned, machine⟩ :=
        stepped.destroy_active rfl (checkLockId_slot slot) (active (by simp))
      simp only at returned
      subst returned
      rw [machine]
      simp only [Program.after, ptest, grant_destroy, resume_destroying_zero]
      rw [inFrame]
      exact ⟨Move.destroy, Stand.exited⟩
  | joining | exited => simp [ptest] at starts

/-- A step of a process's own, from where it stands, is one move, after which
it stands again. -/
theorem Stand.advance {point point' : Point} {held : Holding} (stand : Stand slot p point none held)
    (advanced : advance p point = some point') :
    Move slot p point none point' ∧ Stand slot p point' none held := by
  rcases advance_eq_some advanced with ⟨i, done, rfl, rfl⟩ | ⟨failed, rfl, rfl⟩
  · cases stand with
    | loop =>
        refine ⟨Move.finish done, ?_⟩
        by_cases parent : p.val = 0
        · rw [if_pos parent]
          exact Stand.joining parent
        · rw [if_neg parent]
          exact Stand.exited
  · cases stand with
    | joining parent => exact ⟨Move.join, Stand.destroying parent⟩

end Steps

/-- A step of `ptest` from states where both processes stand, with the lock
active for each that has not exited: one process makes one move and stands
again, and the other keeps its point, its frame and its locks. -/
theorem stand_step {s s' : System (Fin 2) Process} {label : Option (Label (Fin 2))}
    (stand : forall p, Stand slot p (s.user p).point (s.machine.frame p) (s.user p).held)
    (active : forall p, (s.user p).point ≠ .exited 0 -> (s.machine.ptable slot).active ≠ 0)
    (stepped : (ptest slot).Step s label s') :
    exists p, Move slot p (s.user p).point label (s'.user p).point ∧
      (forall q, Stand slot q (s'.user q).point (s'.machine.frame q) (s'.user q).held) ∧
      forall q, q ≠ p -> s'.user q = s.user q ∧ s'.machine.frame q = s.machine.frame q := by
  cases stepped with
  | @call seen machine starts machineStep =>
      have moved := Stand.call machineStep (stand seen.process) starts (active seen.process)
      refine ⟨seen.process, ?_, ?_, ?_⟩
      · simp only [Function.update_self]
        exact moved.1
      · intro q
        by_cases same : q = seen.process
        · subst same
          simp only [Function.update_self]
          exact moved.2
        · simp only [Function.update_of_ne same]
          rw [machineStep.frame_of_ne same]
          exact stand q
      · intro q other
        exact ⟨Function.update_of_ne other _ _, machineStep.frame_of_ne other⟩
  | @internal p u idle internal =>
      have own := stand p
      rw [idle] at own
      have moved := own.advance internal.1
      refine ⟨p, ?_, ?_, fun q other => ⟨Function.update_of_ne other _ _, rfl⟩⟩
      · simp only [Function.update_self]
        exact moved.1
      intro q
      by_cases same : q = p
      · subst same
        simp only [Function.update_self]
        rw [idle, internal.2]
        exact moved.2
      · simp only [Function.update_of_ne same]
        exact stand q

/-- A step of process `p` is a move of `p`. -/
theorem stand_stepBy {s s' : System (Fin 2) Process} {label : Option (Label (Fin 2))} {p : Fin 2}
    (stand : forall p, Stand slot p (s.user p).point (s.machine.frame p) (s.user p).held)
    (active : forall p, (s.user p).point ≠ .exited 0 -> (s.machine.ptable slot).active ≠ 0)
    (stepped : (ptest slot).StepBy p s label s') :
    Move slot p (s.user p).point label (s'.user p).point := by
  cases stepped with
  | call mover starts machineStep =>
      subst mover
      simp only [Function.update_self]
      exact (Stand.call machineStep (stand _) starts (active _)).1
  | internal idle internal =>
      have own := stand p
      rw [idle] at own
      simp only [Function.update_self]
      exact (own.advance internal.1).1

/-- A process's move leaves the other's successful acquires uncounted. -/
theorem Move.not_acquiredBy {p q : Fin 2} {point point' : Point} {label : Option (Label (Fin 2))}
    (moved : Move slot p point label point') (other : q ≠ p) :
    acquiredBy slot q label = false := by
  cases moved <;> simp [acquiredBy, Ne.symm other]

/-- Every call of a move returns `0`, unless it waits. -/
theorem Move.result {p : Fin 2} {point point' : Point} {label : Option (Label (Fin 2))}
    (moved : Move slot p point label point') {seen : Label (Fin 2)} (labelled : label = some seen) :
    seen.result = none ∨ seen.result = some 0 := by
  cases moved <;> cases labelled <;> simp

/-- The parent reaches `exit` only through the destroy, which frees the slot. -/
theorem Move.exits {p : Fin 2} {point point' : Point} {label : Option (Label (Fin 2))}
    (moved : Move slot p point label point') (parent : p.val = 0) (exits : point' = .exited 0) :
    Frees slot label := by
  cases moved with
  | destroy => simp [Frees]
  | finish => simp [parent] at exits
  | wait | acquire | release | join => simp at exits

/-- The calls of `ptest` work on the slot of its lock and do not create one. -/
theorem Move.target {m : Machine (Fin 2)} {p : Fin 2} {point point' : Point} {held : Holding}
    {seen : Label (Fin 2)} (moved : Move slot p point (some seen) point')
    (stand : Stand slot p point (m.frame p) held) :
    m.target seen = some slot ∧ seen.call ≠ .petersonCreate := by
  generalize inFrame : m.frame p = frame at stand
  cases moved <;> cases stand <;> simp [Machine.target, inFrame]

/-- A step that frees the active `slot` resets it and changes nothing else of
the machine. -/
theorem step_frees {m m' : Machine (Fin 2)} {label : Label (Fin 2)}
    (stepped : Machine.Step m label m') (freeing : Frees slot (some label))
    (active : (m.ptable slot).active ≠ 0) :
    m' = { m with ptable := Function.update m.ptable slot ((m.ptable slot).reset 0) } := by
  obtain ⟨p, call, result⟩ := label
  cases call with
  | petersonDestroy lockId => exact (stepped.destroy_active rfl freeing.1 active).2
  | petersonCreate | petersonAcquire | petersonRelease => simp [Frees] at freeing

/-- Where both processes stand, each registers with its own role. -/
theorem ownRoles_of_stand {s : System (Fin 2) Process}
    (stand : forall p, Stand slot p (s.user p).point (s.machine.frame p) (s.user p).held) :
    OwnRoles (phases Process.held s slot) :=
  fun p => (stand p).phase_role

/-! ## The invariant of the runs -/

/-- What every state of a run of `ptest` after the fork satisfies, with the
lock in the slot `slot` of the table `table` that `peterson_create` left. -/
structure Inv (slot : Fin NPETERSONLOCKS) (table : Ptable) (s : System (Fin 2) Process) : Prop where
  stand : forall p, Stand slot p (s.user p).point (s.machine.frame p) (s.user p).held
  others : forall j, j ≠ slot -> s.machine.ptable j = table j
  unlocked : s.machine.ptableLock = none
  slotInv : SlotInv (s.machine.ptable slot) (phases Process.held s slot)
  /-- The parent destroys the lock only once the child has exited. -/
  joined : (s.user 0).point = .destroying false ∨ (s.user 0).point = .exited 0 ->
    (s.user 1).point = .exited 0
  /-- The lock is active until the parent exits, and freed from then on. -/
  live : (s.user 0).point ≠ .exited 0 -> (s.machine.ptable slot).active ≠ 0
  freed : (s.user 0).point = .exited 0 -> s.machine.ptable slot = (table slot).reset 0

section Invariant

variable {table : Ptable} {s s' : System (Fin 2) Process} {label : Option (Label (Fin 2))}

theorem Inv.start (fresh : table slot = (table slot).reset 1) : Inv slot table (forked table) where
  stand _ := Stand.loop (by decide) (by decide)
  others _ _ := rfl
  unlocked := rfl
  slotInv := SlotInv.idle (fun _ => rfl)
    (by show table slot = (table slot).reset (table slot).active; rw [fresh]; rfl)
  joined started := by simp [Ptest.forked] at started
  live _ := by
    show (table slot).active ≠ 0
    rw [fresh]
    simp
  freed started := by simp [Ptest.forked] at started

/-- The lock is active for every process that has not exited. -/
theorem Inv.active (inv : Inv slot table s) {p : Fin 2} (running : (s.user p).point ≠ .exited 0) :
    (s.machine.ptable slot).active ≠ 0 := by
  apply inv.live
  intro parentDone
  have childDone := inv.joined (Or.inr parentDone)
  rcases (show p = 0 ∨ p = 1 by omega) with rfl | rfl
  · exact running parentDone
  · exact running childDone

/-- Only the parent frees the lock, by its destroy, and only once the child
has exited. -/
theorem Inv.frees_parent (inv : Inv slot table s) {p : Fin 2} {point' : Point}
    (moved : Move slot p (s.user p).point label point') (freeing : Frees slot label) :
    p = 0 ∧ (s.user 0).point = .destroying false ∧ point' = .exited 0 ∧
      (s.user 1).point = .exited 0 := by
  obtain ⟨before, after⟩ := moved.frees freeing
  have own := inv.stand p
  rw [before] at own
  obtain rfl : p = 0 := Fin.ext own.parent_of_destroying
  exact ⟨rfl, before, after, inv.joined (Or.inl before)⟩

/-- The parent's destroy: both processes have exited after it, and the slot is
free. -/
theorem Inv.free_step (inv : Inv slot table s) (stepped : (ptest slot).Step s label s') {p : Fin 2}
    (moved : Move slot p (s.user p).point label (s'.user p).point)
    (stand' : forall q, Stand slot q (s'.user q).point (s'.machine.frame q) (s'.user q).held)
    (same : forall q, q ≠ p -> s'.user q = s.user q ∧ s'.machine.frame q = s.machine.frame q)
    (freeing : Frees slot label) : Inv slot table s' := by
  obtain ⟨rfl, before, after, childDone⟩ := inv.frees_parent moved freeing
  have child : s'.user 1 = s.user 1 := (same 1 (by decide)).1
  obtain ⟨seen, rfl⟩ : exists seen, label = some seen := by
    cases label with
    | none => simp [Frees] at freeing
    | some seen => exact ⟨seen, rfl⟩
  have machine := step_frees stepped.machine_step freeing (inv.live (by rw [before]; simp))
  refine ⟨stand', fun j other => ?_, ?_, ?_, fun _ => ?_, fun running => absurd after running,
    fun _ => ?_⟩
  · rw [machine]
    simp [Function.update_of_ne other, inv.others j other]
  · rw [machine]
    exact inv.unlocked
  · -- nobody is registered any more, and the slot is cleared
    refine SlotInv.idle (fun q => ?_) (by rw [machine]; simp; rfl)
    have done : (s'.user q).point = .exited 0 := by
      rcases (show q = 0 ∨ q = 1 by omega) with rfl | rfl
      · exact after
      · rw [child]
        exact childDone
    have own := stand' q
    rw [done] at own
    exact own.exited_idle
  · rw [child]
    exact childDone
  · rw [machine]
    simp
    rfl

/-- Every other step keeps the slot active and leaves the rest of the table. -/
theorem Inv.keep_step (inv : Inv slot table s) (stepped : Step slot s label s') {p : Fin 2}
    (moved : Move slot p (s.user p).point label (s'.user p).point)
    (stand' : forall q, Stand slot q (s'.user q).point (s'.machine.frame q) (s'.user q).held)
    (same : forall q, q ≠ p -> s'.user q = s.user q ∧ s'.machine.frame q = s.machine.frame q)
    (kept : ¬ Frees slot label) : Inv slot table s' := by
  -- had the parent exited, the child would have too, and nobody could move
  have parentRunning : (s.user 0).point ≠ .exited 0 := by
    intro parentDone
    have childDone := inv.joined (Or.inr parentDone)
    rcases (show p = 0 ∨ p = 1 by omega) with rfl | rfl
    · exact moved.not_exited 0 parentDone
    · exact moved.not_exited 0 childDone
  have untouched : (forall j, j ≠ slot -> s'.machine.ptable j = s.machine.ptable j) ∧
      s'.machine.ptableLock = s.machine.ptableLock := by
    cases label with
    | none =>
        rw [stepped.1.machine_eq]
        exact ⟨fun _ _ => rfl, rfl⟩
    | some seen =>
        have machineStep := stepped.1.machine_step
        obtain ⟨target, notCreate⟩ := moved.target (inv.stand p)
        exact ⟨fun j other => machineStep.untouched j (by rw [target]; simpa using Ne.symm other),
          machineStep.ptableLock_of_ne_create notCreate⟩
  refine ⟨stand', fun j other => ?_, ?_, ?_, fun parentDone' => ?_,
    fun _ => programStep_keeps_active stepped.1 kept (inv.live parentRunning),
    fun parentDone => ?_⟩
  · rw [untouched.1 j other]
    exact inv.others j other
  · rw [untouched.2]
    exact inv.unlocked
  · rcases (ptest_disciplined slot).slotMove stepped.1 slot with
      ⟨sameSlot, samePhases⟩ | slotMoved
    · rw [sameSlot, samePhases]
      exact inv.slotInv
    · exact inv.slotInv.move (ownRoles_of_stand inv.stand).rolesUnique slotMoved
        (ownRoles_of_stand stand').rolesUnique (programStep_keeps_active stepped.1 kept)
  · rcases (show p = 0 ∨ p = 1 by omega) with rfl | rfl
    · -- the parent moved, and reached the destroy or `exit` only past `wait(0)`
      rw [(same 1 (by decide)).1]
      rcases moved.parent_done rfl parentDone' with joining | destroying
      · have left : (s'.user 0).point ≠ .joining false := by
          rcases parentDone' with done | done <;> rw [done] <;> simp
        obtain ⟨status, childDone⟩ := stepped.2 0 1 rfl rfl false joining left
        have own := inv.stand 1
        rw [childDone] at own ⊢
        rw [own.exited_zero]
      · exact inv.joined (Or.inl destroying)
    · -- the child moved, so it had not exited, and neither had the parent
      rw [(same 0 (by decide)).1] at parentDone'
      exact absurd (inv.joined parentDone') (moved.not_exited 0)
  · exfalso
    rcases (show p = 0 ∨ p = 1 by omega) with rfl | rfl
    · exact kept (moved.exits rfl parentDone)
    · rw [(same 0 (by decide)).1] at parentDone
      exact parentRunning parentDone

/-- Every step of `ptest` keeps the invariant. -/
theorem Inv.step (inv : Inv slot table s) (stepped : Step slot s label s') : Inv slot table s' := by
  obtain ⟨p, moved, stand', same⟩ := stand_step inv.stand (fun _ => inv.active) stepped.1
  by_cases freeing : Frees slot label
  · exact inv.free_step stepped.1 moved stand' same freeing
  · exact inv.keep_step stepped moved stand' same freeing

/-- The invariant holds along every run from the fork. -/
theorem Inv.of_run (fresh : table slot = (table slot).reset 1)
    {labels : List (Option (Label (Fin 2)))} (run : Run (Step slot) (Ptest.forked table) labels s) : Inv slot table s :=
  Run.invariant (Inv slot table) (Inv.start fresh) (fun _ _ _ inv stepped => inv.step stepped) run

end Invariant

/-! ## A run to the end -/

/-- A step of a process that does not leave `joining` keeps to `wait(0)`. -/
theorem joined_of_update {s : System (Fin 2) Process} {m : Machine (Fin 2)} {q : Fin 2}
    {u : Process}
    (stays : forall failed, (s.user q).point = .joining failed -> u.point = .joining failed) :
    Joined s ⟨m, Function.update s.user q u⟩ := by
  intro parent child _ _ failed joining left
  by_cases same : parent = q
  · subst same
    simp only [Function.update_self] at left
    exact absurd (stays failed joining) left
  · simp only [Function.update_of_ne same] at left
    exact absurd joining left

/-- A step of a process that is not in `wait(0)` keeps to it. -/
theorem joined_of_point {s : System (Fin 2) Process} {m : Machine (Fin 2)} {q : Fin 2}
    {u : Process} {point : Point} (atPoint : (s.user q).point = point)
    (notJoining : forall failed, point ≠ .joining failed) :
    Joined s ⟨m, Function.update s.user q u⟩ :=
  joined_of_update fun failed joining => absurd (atPoint.symm.trans joining) (notJoining failed)

/-- A step of process `q`'s own. -/
theorem internal_step {s : System (Fin 2) Process} {q : Fin 2} {point' : Point}
    (idle : s.machine.frame q = none) (advanced : advance q (s.user q).point = some point')
    (joined : Joined s ⟨s.machine, Function.update s.user q ⟨point', (s.user q).held⟩⟩) :
    Step slot s none ⟨s.machine, Function.update s.user q ⟨point', (s.user q).held⟩⟩ :=
  ⟨Program.Step.internal idle ⟨advanced, rfl⟩, joined⟩

/-- With nobody registered with the other role, the entry of an acquire finds
the lock free and returns `0` at once. -/
theorem acquireEntry_alone {pl : PetersonLock} {phase : Fin 2 -> Phase}
    (protocol : Peterson.Inv pl phase) (active : pl.active ≠ 0) {q : Fin 2}
    (alone : ¬ Interested phase (1 - q)) : acquireEntry pl q = (pl.enter q, .returns 0) := by
  have free : ¬ (pl.enter q).waitCondition q := by
    rw [PetersonLock.waitCondition_enter]
    exact fun flagged => alone ((protocol.flag_iff (1 - q)).mp flagged)
  rw [acquireEntry_of_active active, if_neg free]

section Completion

variable {table : Ptable}

/-- Alone on the lock, a process at the test of iteration `i` enters the
critical section at once and leaves it: two steps take it to the next test,
and the other process keeps its state. -/
theorem Inv.iteration {s : System (Fin 2) Process} (inv : Inv slot table s) {q : Fin 2} {i : Int32}
    (more : i < 100) (atTest : s.user q = ⟨.loop i, fun _ => none⟩) (idle : s.machine.frame q = none)
    (alone : forall r, r ≠ q -> phases Process.held s slot r = .idle) :
    exists labels s', Run (Step slot) s labels s' ∧ s'.user q = ⟨.loop (i + 1), fun _ => none⟩ ∧
      s'.machine.frame q = none ∧
      forall r, r ≠ q -> s'.user r = s.user r ∧ s'.machine.frame r = s.machine.frame r := by
  have active := inv.active (show (s.user q).point ≠ .exited 0 by rw [atTest]; simp)
  have notInterested : ¬ Interested (phases Process.held s slot) (1 - q) := by
    rintro ⟨a, registered⟩
    by_cases same : a = q
    · subst same
      simp [phases, phaseMap, idle, atTest, heldPhase] at registered
    · rw [alone a same] at registered
      cases registered
  -- the acquire finds the other role uninterested and returns `0`
  have enters := Machine.Step.acquireEnter idle (checkArgs_slot slot q)
  rw [acquireEntry_alone inv.slotInv.protocol active notInterested] at enters
  obtain ⟨s₁, acquired, critical₁, idle₁, others₁, active₁⟩ : exists s₁,
      Step slot s (some ⟨q, .petersonAcquire slot q.val, some 0⟩) s₁ ∧
      s₁.user q = ⟨.critical i, Function.update (fun _ => none) slot (some q)⟩ ∧
      s₁.machine.frame q = none ∧
      (forall r, r ≠ q -> s₁.user r = s.user r ∧ s₁.machine.frame r = s.machine.frame r) ∧
      (s₁.machine.ptable slot).active ≠ 0 := by
    refine ⟨_, ⟨Program.Step.call (fun _ => ⟨?_, ?_⟩) enters,
      joined_of_point (congrArg Process.point atTest) (by simp)⟩, ?_, ?_, ?_, ?_⟩
    · rw [atTest]
      exact callAt_loop more
    · rw [atTest]
      exact (allowed_acquire_iff (checkArgs_slot slot q)).mpr rfl
    · simp [Program.after, ptest, atTest, grant_acquire (checkArgs_slot slot q)]
    · simp [Machine.settle_frame]
    · intro r other
      simp [Machine.settle_frame, Function.update_of_ne other]
    · simpa using active
  -- the release of the active lock returns `0`
  have releases : Machine.Step s₁.machine
      ⟨q, .petersonRelease slot q.val, some (sysPetersonRelease s₁.machine.ptable slot q.val).2⟩ _ :=
    Machine.Step.release idle₁
  rw [sysPetersonRelease_of_checked (checkArgs_slot slot q), releaseRegion_of_active active₁]
    at releases
  obtain ⟨s₂, released, atNext, idle₂, others₂⟩ : exists s₂,
      Step slot s₁ (some ⟨q, .petersonRelease slot q.val, some 0⟩) s₂ ∧
      s₂.user q = ⟨.loop (i + 1), fun _ => none⟩ ∧ s₂.machine.frame q = none ∧
      forall r, r ≠ q -> s₂.user r = s₁.user r ∧ s₂.machine.frame r = s₁.machine.frame r := by
    refine ⟨_, ⟨Program.Step.call (fun _ => ⟨?_, ?_⟩) releases,
      joined_of_point (congrArg Process.point critical₁) (by simp)⟩, ?_, ?_, ?_⟩
    · rw [critical₁]
      rfl
    · rw [critical₁]
      exact (allowed_release_iff (checkArgs_slot slot q)).mpr (by simp)
    · simp [Program.after, ptest, critical₁, grant_release (checkArgs_slot slot q)]
    · exact idle₁
    · intro r other
      exact ⟨Function.update_of_ne other _ _, rfl⟩
  exact ⟨_, s₂, Run.snoc (Run.single acquired) released, atNext, idle₂, fun r other =>
    ⟨(others₂ r other).1.trans (others₁ r other).1,
      (others₂ r other).2.trans (others₁ r other).2⟩⟩

/-- Alone on the lock, a process at the test of iteration `i` runs the rest of
its loop, by induction on the iterations left. -/
theorem loop_to_end (q : Fin 2) (n : Nat) : forall {s : System (Fin 2) Process} {i : Int32},
    Inv slot table s -> 0 ≤ i.toInt -> i.toInt + n = 100 ->
    s.user q = ⟨.loop i, fun _ => none⟩ -> s.machine.frame q = none ->
    (forall r, r ≠ q -> phases Process.held s slot r = .idle) ->
    exists labels s', Run (Step slot) s labels s' ∧ s'.user q = ⟨.loop 100, fun _ => none⟩ ∧
      s'.machine.frame q = none ∧
      forall r, r ≠ q -> s'.user r = s.user r ∧ s'.machine.frame r = s.machine.frame r := by
  induction n with
  | zero =>
      intro s i _ _ last atTest idle _
      have hundred : i = 100 :=
        Int32.toInt_inj.mp (by rw [show (100 : Int32).toInt = 100 by decide]; omega)
      subst hundred
      exact ⟨[], s, Run.nil, atTest, idle, fun _ _ => ⟨rfl, rfl⟩⟩
  | succ n inductionHypothesis =>
      intro s i inv low last atTest idle alone
      obtain ⟨labels, s₁, first, atNext, idle₁, others₁⟩ :=
        inv.iteration (lt_hundred_iff.mpr (by omega)) atTest idle alone
      have inv₁ :=
        Run.invariant (Inv slot table) inv (fun _ _ _ kept stepped => kept.step stepped) first
      have next := toInt_add_one low (by omega)
      have alone₁ : forall r, r ≠ q -> phases Process.held s₁ slot r = .idle := by
        intro r other
        rw [← alone r other]
        simp only [phases, phaseMap, Function.comp, (others₁ r other).1, (others₁ r other).2]
      obtain ⟨rest, s₂, second, atEnd, idle₂, others₂⟩ :=
        inductionHypothesis inv₁ (by omega) (by omega) atNext idle₁ alone₁
      exact ⟨labels ++ rest, s₂, first.append second, atEnd, idle₂, fun r other =>
        ⟨(others₂ r other).1.trans (others₁ r other).1,
          (others₂ r other).2.trans (others₁ r other).2⟩⟩

/-- From the fork, the parent can run its whole loop while the child stands at
its first test, and reach `wait(0)`. -/
theorem exists_parentJoining (fresh : table slot = (table slot).reset 1) :
    exists labels s, Run (Step slot) (forked table) labels s ∧
      s.user 0 = ⟨.joining false, fun _ => none⟩ ∧ s.user 1 = ⟨.loop 0, fun _ => none⟩ ∧
      s.machine.frame 0 = none ∧ s.machine.frame 1 = none := by
  obtain ⟨labels₁, s₁, run₁, parent₁, parentIdle₁, others₁⟩ :=
    loop_to_end 0 100 (Inv.start fresh) (by decide) (by decide) rfl rfl (fun _ _ => rfl)
  -- the end of the parent's loop
  refine ⟨labels₁ ++ [none], _, Run.snoc run₁ (internal_step parentIdle₁
      (show advance 0 (s₁.user 0).point = some (.joining false) by rw [parent₁]; decide)
      (joined_of_point (congrArg Process.point parent₁) (by simp))),
    by simp [parent₁], ?_, parentIdle₁, (others₁ 1 (by decide)).2⟩
  simp only [Function.update_of_ne (show (1 : Fin 2) ≠ 0 by decide)]
  exact (others₁ 1 (by decide)).1

/-- `ptest` can run to its end: from the fork, the parent runs its loop while
the child waits at its first test, then the child runs its loop and exits,
then the parent's `wait(0)` returns and it destroys the lock and exits. -/
theorem exists_finishedRun (fresh : table slot = (table slot).reset 1) :
    exists labels s, Run (Step slot) (forked table) labels s ∧
      forall p, (s.user p).point = .exited 0 := by
  obtain ⟨labels₂, s₂, run₂, parent₂, child₂, parentIdle₂, childIdle₂⟩ := exists_parentJoining fresh
  -- the child's loop, while the parent waits for it
  obtain ⟨labels₃, s₃, run₃, child₃, childIdle₃, others₃⟩ :=
    loop_to_end 1 100 (Inv.of_run fresh run₂) (show 0 ≤ (0 : Int32).toInt by decide)
      (by decide) child₂ childIdle₂
      (fun r other => by
        obtain rfl : r = 0 := by omega
        simp [phases, phaseMap, parentIdle₂, parent₂, heldPhase])
  have parent₃ : s₃.user 0 = ⟨.joining false, fun _ => none⟩ := by
    rw [(others₃ 0 (by decide)).1, parent₂]
  have parentIdle₃ : s₃.machine.frame 0 = none := by
    rw [(others₃ 0 (by decide)).2, parentIdle₂]
  -- the end of the child's loop, and its `exit(0)`
  obtain ⟨s₄, run₄, parent₄, child₄, machine₄⟩ : exists s₄,
      Run (Step slot) (forked table) (labels₂ ++ labels₃ ++ [none]) s₄ ∧
      s₄.user 0 = ⟨.joining false, fun _ => none⟩ ∧ (s₄.user 1).point = .exited 0 ∧
      s₄.machine = s₃.machine :=
    ⟨_, Run.snoc (run₂.append run₃) (internal_step childIdle₃
      (show advance 1 (s₃.user 1).point = some (.exited 0) by rw [child₃]; decide)
      (joined_of_point (congrArg Process.point child₃) (by simp))),
      by simp [parent₃], by simp, rfl⟩
  -- the parent's `wait(0)` returns, since the child has exited
  obtain ⟨s₅, run₅, parent₅, child₅, machine₅⟩ : exists s₅,
      Run (Step slot) (forked table) (labels₂ ++ labels₃ ++ [none] ++ [none]) s₅ ∧
      s₅.user 0 = ⟨.destroying false, fun _ => none⟩ ∧ (s₅.user 1).point = .exited 0 ∧
      s₅.machine = s₃.machine :=
    ⟨_, Run.snoc run₄ (internal_step (by rw [machine₄]; exact parentIdle₃)
      (show advance 0 (s₄.user 0).point = some (.destroying false) by rw [parent₄]; rfl)
      (fun _ child _ childOne _ _ _ => by
        obtain rfl : child = 1 := by omega
        exact ⟨0, child₄⟩)),
      by simp [parent₄], by simp [child₄], machine₄⟩
  -- the parent destroys the lock and exits with `0`
  have inv₅ := Inv.of_run fresh run₅
  have destroys := Machine.Step.destroy (by rw [machine₅]; exact parentIdle₃)
    (checkLockId_slot slot) inv₅.unlocked (destroyRegion_of_active
      (inv₅.active (show (s₅.user 0).point ≠ .exited 0 by rw [parent₅]; simp)))
  obtain ⟨labels₆, s₆, run₆, parent₆, child₆⟩ : exists labels₆ s₆,
      Run (Step slot) (forked table) labels₆ s₆ ∧
      (s₆.user 0).point = .exited 0 ∧ (s₆.user 1).point = .exited 0 :=
    ⟨_, _, Run.snoc run₅
      ⟨Program.Step.call (fun _ => ⟨by rw [parent₅]; rfl, by exact trivial⟩) destroys, joined_of_point (congrArg Process.point parent₅) (by simp)⟩,
      by simp [Program.after, ptest, parent₅], by simp [child₅]⟩
  refine ⟨labels₆, s₆, run₆, fun p => ?_⟩
  rcases (show p = 0 ∨ p = 1 by omega) with rfl | rfl
  · exact parent₆
  · exact child₆

/-- After boot, `peterson_create` returns slot `0`, just allocated. -/
theorem createAtBoot : (sysPetersonCreate petersonInit).2 = 0 ∧
    (sysPetersonCreate petersonInit).1 0 = ((sysPetersonCreate petersonInit).1 0).reset 1 := by
  rw [sysPetersonCreate, petersonAlloc_of_first (show (petersonInit 0).active = 0 from rfl)
    (fun _ before => absurd before (Nat.not_lt_zero _))]
  simp
  rfl

end Completion

/-! ## What every run guarantees -/

/-- How many times a process at `point` has entered the critical section: `i`
at the test of iteration `i`, `i + 1` inside it, and all hundred past the
loop. -/
def entries : Point -> Nat
  | .loop i => i.toInt.toNat
  | .critical i => i.toInt.toNat + 1
  | _ => 100

/-- A move adds one entry exactly when its label is a successful acquire of
the process. -/
theorem Move.entries_eq {p : Fin 2} {point point' : Point} {label : Option (Label (Fin 2))}
    {frame : Option Frame} {held : Holding} (moved : Move slot p point label point')
    (stand : Stand slot p point frame held) :
    entries point' = entries point + if acquiredBy slot p label then 1 else 0 := by
  cases moved with
  | wait | join | destroy => simp [acquiredBy, entries]
  | acquire => simp [acquiredBy, entries]
  | release =>
      cases stand with
      | critical low high =>
          have next := toInt_add_one low high
          have notAcquire :
              acquiredBy slot p (some ⟨p, .petersonRelease slot p.val, some 0⟩) = false := rfl
          rw [notAcquire]
          simp only [entries, Bool.false_eq_true, if_false]
          omega
  | @finish i done =>
      have atLeast := lt_hundred_iff.not.mp done
      cases stand with
      | loop _ high =>
          have hundred : i.toInt = 100 := by omega
          by_cases parent : p.val = 0 <;> simp [parent, entries, hundred, acquiredBy]
      | waiting _ high => exact absurd high atLeast

section Guarantees

variable {table : Ptable} {labels : List (Option (Label (Fin 2)))} {s : System (Fin 2) Process}

theorem Inv.exited_zero (inv : Inv slot table s) {p : Fin 2} {status : Int32}
    (done : (s.user p).point = .exited status) : (s.user p).point = .exited 0 := by
  have own := inv.stand p
  rw [done] at own ⊢
  rw [own.exited_zero]

/-- Once the parent has exited, the table is the one `peterson_create` left,
with the slot freed. -/
theorem Inv.table_of_done (inv : Inv slot table s) (parentDone : (s.user 0).point = .exited 0) :
    s.machine.ptable = Function.update table slot ((table slot).reset 0) := by
  funext j
  by_cases same : j = slot
  · subst same
    rw [Function.update_self]
    exact inv.freed parentDone
  · rw [Function.update_of_ne same]
    exact inv.others j same

/-- A process that has not exited can take a step, unless it is the parent in
`wait(0)` while the child runs. -/
theorem Inv.can_step (inv : Inv slot table s) {q : Fin 2} (running : (s.user q).point ≠ .exited 0)
    (joinable : (s.user q).point = .joining false -> (s.user 1).point = .exited 0) :
    exists label s', ProcessStep slot q s label s' := by
  have active := inv.active running
  have stand := inv.stand q
  generalize inPoint : (s.user q).point = point at stand running joinable
  generalize inFrame : s.machine.frame q = frame at stand
  generalize inHeld : (s.user q).held = held at stand
  -- the point it stands at names its next step
  cases stand with
  | @loop i _ _ =>
      by_cases more : i < 100
      · -- the acquire of iteration `i`
        refine ⟨_, _, Program.StepBy.call (by rfl) (fun _ => ⟨?_, ?_⟩)
          (Machine.Step.acquireEnter inFrame (checkArgs_slot slot q)),
          joined_of_point inPoint (by simp)⟩
        · rw [inPoint]
          exact callAt_loop more
        · rw [inHeld]
          exact (allowed_acquire_iff (checkArgs_slot slot q)).mpr rfl
      · -- the end of the loop
        exact ⟨_, _, @Program.StepBy.internal _ _ _ (ptest slot) q s
          ⟨if q.val = 0 then .joining false else .exited 0, (s.user q).held⟩ inFrame
          ⟨by rw [inPoint]; exact advance_loop more, rfl⟩, joined_of_point inPoint (by simp)⟩
  | waiting =>
      -- the next test of the wait loop
      exact ⟨_, _, Program.StepBy.call (by rfl) (fun idle => by rw [inFrame] at idle; cases idle)
        (Machine.Step.acquireRecheck inFrame), joined_of_point inPoint (by simp)⟩
  | critical =>
      have releases : Machine.Step s.machine
          ⟨q, .petersonRelease slot q.val, some (sysPetersonRelease s.machine.ptable slot q.val).2⟩ _ :=
        Machine.Step.release inFrame
      refine ⟨_, _, Program.StepBy.call (by rfl) (fun _ => ⟨by rw [inPoint]; rfl, ?_⟩) releases,
        joined_of_point inPoint (by simp)⟩
      rw [inHeld]
      exact (allowed_release_iff (checkArgs_slot slot q)).mpr (by simp)
  | joining _ =>
      -- `wait(0)` returns, since the child has exited
      refine ⟨_, _, @Program.StepBy.internal _ _ _ (ptest slot) q s
        ⟨.destroying false, (s.user q).held⟩ inFrame ⟨by rw [inPoint]; rfl, rfl⟩, ?_⟩
      intro _ child _ childOne _ _ _
      obtain rfl : child = 1 := by omega
      exact ⟨0, joinable rfl⟩
  | destroying _ =>
      have destroys := Machine.Step.destroy inFrame (checkLockId_slot slot) inv.unlocked
        (destroyRegion_of_active active)
      exact ⟨_, _, Program.StepBy.call (by rfl) (fun _ => ⟨by rw [inPoint]; rfl, by exact trivial⟩)
        destroys, joined_of_point inPoint (by simp)⟩
  | exited => exact absurd rfl running

/-- The child can step until it has exited: it never waits for anybody. -/
theorem Inv.child_can_step (inv : Inv slot table s) (running : (s.user 1).point ≠ .exited 0) :
    exists label s', ProcessStep slot 1 s label s' := by
  refine inv.can_step running (fun joining => ?_)
  have child := inv.stand 1
  rw [joining] at child
  exact absurd child.parent_of_joining (by decide)

/-- Once the child has exited, the parent can step until it has exited. -/
theorem Inv.parent_can_step (inv : Inv slot table s) (running : (s.user 0).point ≠ .exited 0)
    (childDone : (s.user 1).point = .exited 0) : exists label s', ProcessStep slot 0 s label s' :=
  inv.can_step running (fun _ => childDone)

/-- Every call in a run of `ptest` after the fork returns `0` or is still in
its wait loop, and the parent and the child are never both in the critical
section, whatever the interleaving. -/
theorem ptest_callsSucceed (fresh : table slot = (table slot).reset 1)
    (run : Run (Step slot) (forked table) labels s) :
    (forall label, label ∈ labels -> forall seen : Label (Fin 2), label = some seen ->
        seen.result = none ∨ seen.result = some 0) ∧
      ¬ ((exists i, (s.user 0).point = .critical i) ∧ exists j, (s.user 1).point = .critical j) := by
  constructor
  · refine Run.forall_labels (Inv slot table) (Inv.start fresh)
      (fun _ _ _ inv stepped => inv.step stepped) (fun _ _ _ inv stepped seen labelled => ?_) run
    obtain ⟨p, moved, -, -⟩ := stand_step inv.stand (fun _ => inv.active) stepped.1
    exact moved.result labelled
  · rintro ⟨⟨i, parentCritical⟩, ⟨j, childCritical⟩⟩
    have inv := Inv.of_run fresh run
    have exclusive := inv.slotInv.protocol.exclusive (ownRoles_of_stand inv.stand).rolesUnique
    have parent := inv.stand 0
    have child := inv.stand 1
    rw [parentCritical] at parent
    rw [childCritical] at child
    exact absurd (exclusive 0 1 0 1 parent.critical_phase child.critical_phase) (by decide)

/-- After boot, along the run that takes the test to its end. -/
theorem ptest_callsSucceed_toEnd :
    exists labels s, Run (Step 0) (forked (sysPetersonCreate petersonInit).1) labels s ∧
      (forall label, label ∈ labels -> forall seen : Label (Fin 2), label = some seen ->
          seen.result = none ∨ seen.result = some 0) ∧
        ¬ ((exists i, (s.user 0).point = .critical i) ∧ exists j, (s.user 1).point = .critical j) := by
  obtain ⟨labels, s, run, -⟩ := exists_finishedRun createAtBoot.2
  exact ⟨labels, s, run, ptest_callsSucceed createAtBoot.2 run⟩

/-- `ptest` does not deadlock.  In every state of a run after the fork, the
child has a step of its own until it has exited, and so has the parent, unless
it is in `wait(0)` while the child has not exited; so while a process has not
exited, some step can be taken. -/
theorem ptest_progress (fresh : table slot = (table slot).reset 1)
    (run : Run (Step slot) (forked table) labels s) :
    ((s.user 1).point ≠ .exited 0 -> exists label s', ProcessStep slot 1 s label s') ∧
      ((s.user 0).point ≠ .exited 0 -> (exists label s', ProcessStep slot 0 s label s') ∨
        ((s.user 0).point = .joining false ∧ (s.user 1).point ≠ .exited 0)) ∧
      (forall p, (s.user p).point ≠ .exited 0 -> exists label s', Step slot s label s') := by
  have inv := Inv.of_run fresh run
  -- the parent steps unless `wait(0)` still waits for the child
  have parentSteps : (s.user 0).point ≠ .exited 0 -> (exists label s', ProcessStep slot 0 s label s') ∨
      ((s.user 0).point = .joining false ∧ (s.user 1).point ≠ .exited 0) := by
    intro running
    by_cases waits : (s.user 0).point = .joining false ∧ (s.user 1).point ≠ .exited 0
    · exact Or.inr waits
    · exact Or.inl (inv.can_step running fun joining =>
        Classical.byContradiction fun childRunning => waits ⟨joining, childRunning⟩)
  refine ⟨inv.child_can_step, parentSteps, fun p running => ?_⟩
  by_cases childDone : (s.user 1).point = .exited 0
  · -- only the parent is left, and the child it waits for has exited
    have parentRunning : (s.user 0).point ≠ .exited 0 := by
      rcases (show p = 0 ∨ p = 1 by omega) with rfl | rfl
      · exact running
      · exact absurd childDone running
    obtain ⟨label, s', stepped⟩ := inv.parent_can_step parentRunning childDone
    exact ⟨label, s', stepped.step⟩
  · obtain ⟨label, s', stepped⟩ := inv.child_can_step childDone
    exact ⟨label, s', stepped.step⟩

/-- After boot, once the parent has run its loop: it waits in `wait(0)` while
the child stands at its first test. -/
theorem ptest_progress_parentJoining :
    exists labels s, Run (Step 0) (forked (sysPetersonCreate petersonInit).1) labels s ∧
      (s.user 0).point = .joining false ∧ (s.user 1).point = .loop 0 ∧
      (((s.user 1).point ≠ .exited 0 -> exists label s', ProcessStep 0 1 s label s') ∧
        ((s.user 0).point ≠ .exited 0 -> (exists label s', ProcessStep 0 0 s label s') ∨
          ((s.user 0).point = .joining false ∧ (s.user 1).point ≠ .exited 0)) ∧
        (forall p, (s.user p).point ≠ .exited 0 -> exists label s', Step 0 s label s')) := by
  obtain ⟨labels, s, run, parent, child, -, -⟩ := exists_parentJoining createAtBoot.2
  exact ⟨labels, s, run, by rw [parent], by rw [child], ptest_progress createAtBoot.2 run⟩

/-- A step after which a process still waits on the lock does not free it:
the parent destroys only once the child has exited, and then both have. -/
theorem Inv.not_frees_of_waiting (inv : Inv slot table s) {label : Option (Label (Fin 2))}
    {s' : System (Fin 2) Process} (stepped : Step slot s label s') {w r : Fin 2}
    (waiting : s'.machine.frame w = some (.waiting slot r)) : ¬ Frees slot label := by
  intro freeing
  obtain ⟨p, moved, stand', same⟩ := stand_step inv.stand (fun _ => inv.active) stepped.1
  obtain ⟨rfl, -, after, childDone⟩ := inv.frees_parent moved freeing
  rw [← (same 1 (by decide)).1] at childDone
  have done : (s'.user w).point = .exited 0 := by
    rcases (show w = 0 ∨ w = 1 by omega) with rfl | rfl
    · exact after
    · exact childDone
  have own := stand' w
  rw [done, waiting] at own
  cases own

/-- Bounded bypass in `ptest`: along every run after the fork, once a process
waits in its acquire of the lock with role `r`, the kernel returns `0` to
acquires with role `1 - r` at most once while it keeps waiting. -/
theorem ptest_boundedBypass (fresh : table slot = (table slot).reset 1)
    {more : List (Option (Label (Fin 2)))} {s' : System (Fin 2) Process}
    (before : Run (Step slot) (forked table) labels s) {w r : Fin 2}
    (entered : s.machine.frame w = some (.waiting slot r))
    (after : Run (fun s label s' => Step slot s label s' ∧
      s'.machine.frame w = some (.waiting slot r)) s more s') :
    more.countP (acquiredWith slot (1 - r)) ≤ 1 := by
  have inv := Inv.of_run fresh before
  -- while `w` waits the lock is not destroyed, so every step is guarded
  have guarded : Run (WaitingGuarded (ptest slot) Process.held slot w r) s more s' :=
    Run.weaken (Inv slot table) inv (fun _ _ _ inv stepped => inv.step stepped.1)
      (fun _ _ _ inv stepped => ⟨⟨stepped.1.1, inv.not_frees_of_waiting stepped.1 stepped.2,
        (ownRoles_of_stand (inv.step stepped.1).stand).rolesUnique⟩, stepped.2⟩) after
  exact SlotGuard.bypassBounded (ptest_disciplined slot)
    ⟨inv.slotInv, (ownRoles_of_stand inv.stand).rolesUnique⟩ entered guarded

/-- After boot, along `enterTwice 0 1` both processes wait on the lock with the
turn given to the parent; along `passOnce 0 1` the parent's acquire returns
once while the child waits. -/
theorem ptest_boundedBypass_passOnce :
    exists s s', Run (Step 0) (forked (sysPetersonCreate petersonInit).1) (enterTwice 0 1) s ∧
      s.machine.frame 1 = some (.waiting 0 1) ∧
      Run (fun s label s' => Step 0 s label s' ∧ s'.machine.frame 1 = some (.waiting 0 1)) s
        (passOnce 0 1) s' ∧
      (passOnce 0 1).countP (acquiredWith 0 (1 - 1)) = 1 ∧
      (passOnce 0 1).countP (acquiredWith 0 (1 - 1)) ≤ 1 := by
  have childIn := Run.single (show Step 0 (forked (sysPetersonCreate petersonInit).1)
      (some ⟨1, .petersonAcquire 0 1, some 0⟩) _ from
    ⟨.call (fun _ => ⟨by decide, rfl⟩) (Machine.step_of_next rfl),
      joined_of_update (by intro _ joining; cases joining)⟩)
  have parentWaits := Run.snoc childIn (show Step 0 _ (some ⟨0, .petersonAcquire 0 0, none⟩) _ from
    ⟨.call (fun _ => ⟨by decide, rfl⟩) (Machine.step_of_next rfl),
      joined_of_update (by intro _ joining; cases joining)⟩)
  have childOut := Run.snoc parentWaits (show Step 0 _ (some ⟨1, .petersonRelease 0 1, some 0⟩) _ from
    ⟨.call (fun _ => ⟨by decide, rfl⟩) (Machine.step_of_next rfl),
      joined_of_update (by intro _ joining; cases joining)⟩)
  have childWaits := Run.snoc childOut (show Step 0 _ (some ⟨1, .petersonAcquire 0 1, none⟩) _ from
    ⟨.call (fun _ => ⟨by decide, rfl⟩) (Machine.step_of_next rfl),
      joined_of_update (by intro _ joining; cases joining)⟩)
  refine ⟨_, ?last, childWaits, rfl, ?window, by decide,
    ptest_boundedBypass createAtBoot.2 childWaits rfl ?window⟩
  case window =>
    -- the test of the parent passes on the turn the child gave it
    apply Run.cons
    · exact ⟨⟨.call (fun idle => by cases idle) (Machine.step_of_next rfl),
        joined_of_update (by intro _ joining; cases joining)⟩, rfl⟩
    apply Run.cons
    · exact ⟨⟨.call (fun idle => by cases idle) (Machine.step_of_next rfl),
        joined_of_update (by intro _ joining; cases joining)⟩, rfl⟩
    apply Run.cons
    · exact ⟨⟨.call (fun _ => ⟨by decide, rfl⟩) (Machine.step_of_next rfl), joined_of_update (by intro _ joining; cases joining)⟩, rfl⟩
    -- the entry of the parent gives the turn back to the child
    apply Run.cons
    · exact ⟨⟨.call (fun _ => ⟨by decide, rfl⟩) (Machine.step_of_next rfl), joined_of_update (by intro _ joining; cases joining)⟩, rfl⟩
    exact Run.nil

/-- The auxiliary lock rules never block `ptest`: along every run after the
fork, a process in no call is allowed the call its point names. -/
theorem ptest_allowed (fresh : table slot = (table slot).reset 1)
    (run : Run (Step slot) (forked table) labels s) (p : Fin 2) (idle : s.machine.frame p = none)
    {call : Syscall} (named : callAt slot p (s.user p).point = some call) : Allowed (s.user p).held call := by
  have stand := (Inv.of_run fresh run).stand p
  rw [idle] at stand
  exact stand.allowed named

/-- The successful acquires of a process in a run are its entries. -/
theorem countP_acquiredBy (fresh : table slot = (table slot).reset 1)
    (run : Run (Step slot) (forked table) labels s) (q : Fin 2) :
    labels.countP (acquiredBy slot q) = entries (s.user q).point := by
  have counted := Run.count_invariant (acquiredBy slot q)
    (fun n t => Inv slot table t ∧ n = entries (t.user q).point) ⟨Inv.start fresh, rfl⟩
    (fun n t label t' kept stepped => ⟨kept.1.step stepped, by
      obtain ⟨p, moved, -, same⟩ := stand_step kept.1.stand (fun _ => kept.1.active) stepped.1
      rw [kept.2]
      by_cases mover : q = p
      · subst mover
        exact (moved.entries_eq (kept.1.stand q)).symm
      · rw [(same q mover).1, moved.not_acquiredBy mover]
        simp⟩) run
  exact counted.2

/-- A run of `ptest` in which both processes have exited: each exited with
`0` after the kernel returned `0` to exactly a hundred of its acquires, and
the table is the one `peterson_create` left, with the slot freed. -/
theorem ptest_finishes (fresh : table slot = (table slot).reset 1)
    (run : Run (Step slot) (forked table) labels s)
    (finished : forall p, exists status, (s.user p).point = .exited status) :
    (forall p, (s.user p).point = .exited 0 ∧ labels.countP (acquiredBy slot p) = 100) ∧
      s.machine.ptable = Function.update table slot ((table slot).reset 0) := by
  have inv := Inv.of_run fresh run
  have done : forall p, (s.user p).point = .exited 0 := fun p => by
    obtain ⟨status, exited⟩ := finished p
    exact inv.exited_zero exited
  refine ⟨fun p => ⟨done p, ?_⟩, inv.table_of_done (done 0)⟩
  rw [countP_acquiredBy fresh run p, done p]
  rfl

/-- After boot, along the run that takes the test to its end. -/
theorem ptest_finishes_afterBoot :
    exists labels s, Run (Step 0) (forked (sysPetersonCreate petersonInit).1) labels s ∧
      (forall p, (s.user p).point = .exited 0 ∧ labels.countP (acquiredBy 0 p) = 100) ∧
        s.machine.ptable = Function.update (sysPetersonCreate petersonInit).1 0
          (((sysPetersonCreate petersonInit).1 0).reset 0) := by
  obtain ⟨labels, s, run, finished⟩ := exists_finishedRun createAtBoot.2
  exact ⟨labels, s, run, ptest_finishes createAtBoot.2 run (fun p => ⟨0, finished p⟩)⟩

end Guarantees

/-! ## The whole of `main` -/

/-- A `peterson_create` that returns an id has allocated a slot that was
inactive, with that index. -/
theorem create_of_nonneg {ptable created : Ptable} {lockId : Int}
    (returned : sysPetersonCreate ptable = (created, lockId)) (nonneg : 0 ≤ lockId) :
    exists slot : Fin NPETERSONLOCKS, (ptable slot).active = 0 ∧ lockId = slot ∧
      created = Function.update ptable slot ((ptable slot).reset 1) := by
  rcases sysPetersonCreate_cases ptable with ⟨-, full⟩ | ⟨slot, inactive, allocated⟩
  · rw [full, Prod.mk.injEq] at returned
    omega
  · rw [allocated, Prod.mk.injEq] at returned
    exact ⟨slot, inactive, returned.2.symm, returned.1.symm⟩

/-- Freeing a slot that was inactive before its allocation leaves every slot
as active as it was. -/
theorem active_update_reset {ptable : Ptable} {slot : Fin NPETERSONLOCKS}
    (inactive : (ptable slot).active = 0) (pl : PetersonLock) (j : Fin NPETERSONLOCKS) :
    (Function.update ptable slot (pl.reset 0) j).active = (ptable j).active := by
  by_cases same : j = slot
  · subst same
    simp [inactive]
  · simp [Function.update_of_ne same]

/-- Every complete run of `main` leaves every slot of the table as active as
it found it: when `peterson_create` fails, when `fork` fails, and when the
parent and the child run their loops to the end, interleaved in any way. -/
theorem ptestMain_keepsActive {ptable ptable' : Ptable} (run : MainRun ptable ptable')
    (j : Fin NPETERSONLOCKS) : (ptable' j).active = (ptable j).active := by
  cases run with
  | createFailed returned failed =>
      rcases sysPetersonCreate_cases ptable with ⟨-, full⟩ | ⟨slot, -, allocated⟩
      · rw [full, Prod.mk.injEq] at returned
        rw [← returned.1]
      · rw [allocated, Prod.mk.injEq] at returned
        omega
  | forkFailed returned nonneg destroyed =>
      obtain ⟨slot, inactive, rfl, rfl⟩ := create_of_nonneg returned nonneg
      -- the destroy after the failed fork frees the slot just allocated
      rw [sysPetersonDestroy, checkLockId_slot] at destroyed
      simp only at destroyed
      rw [destroyRegion_of_active (by simp)] at destroyed
      cases destroyed
      rw [Function.update_idem]
      exact active_update_reset inactive _ j
  | ran returned nonneg run finished =>
      obtain ⟨slot, inactive, rfl, rfl⟩ := create_of_nonneg returned nonneg
      have fresh : Function.update ptable slot ((ptable slot).reset 1) slot =
          (Function.update ptable slot ((ptable slot).reset 1) slot).reset 1 := by
        rw [Function.update_self]
        rfl
      have inv := Inv.of_run fresh run
      obtain ⟨status, parentExited⟩ := finished 0
      rw [inv.table_of_done (inv.exited_zero parentExited), Function.update_idem]
      exact active_update_reset inactive _ j

/-- After boot, along the run that takes the test to its end. -/
theorem ptestMain_keepsActive_afterBoot :
    exists ptable', MainRun petersonInit ptable' ∧
      forall j, (ptable' j).active = (petersonInit j).active := by
  obtain ⟨returned, fresh⟩ := createAtBoot
  obtain ⟨labels, s, run, finished⟩ := exists_finishedRun fresh
  have ran : MainRun petersonInit s.machine.ptable :=
    MainRun.ran (Prod.mk.eta).symm (by rw [returned]) (by rw [returned]; exact run)
      (fun p => ⟨0, finished p⟩)
  exact ⟨_, ran, ptestMain_keepsActive ran⟩

end Ptest
end Xv6Peterson
