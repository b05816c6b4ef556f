import Xv6Peterson.Kernel.Execute
import Xv6Peterson.Peterson.Client

namespace Xv6Peterson
namespace Peterson

open Transition Kernel

/-!
# Two processes on one lock, as in `user/ptest.c`

`ptest` forks a parent and a child that share one lock id.  The parent always
uses role 0 and the child role 1, and each repeatedly acquires the lock, does
its critical work and releases it.  `pairUser lockId` is that pair, numbered
by role, with the lock rules of `Peterson/Client.lean`; either process may also
create and destroy locks.  `roleUser lockId` keeps the roles and drops the
rules: each process may acquire and release the lock with its own role at any
time, a release of a lock it does not hold included.

Bounded bypass and the absence of deadlock need the roles only (`OwnCalls`),
in runs in which the lock is not destroyed.  A process of role `r` that waits
keeps its flag up, since only its own release clears it.  The other process
may pass once, on the turn that `r` gave it with its entry.  Every later entry
of the other process gives the turn back to `r` and sees `r`'s flag, so it
waits, and a test repeated under that turn fails again (`TurnGiven`).  Two
processes in the wait loop never both see their wait condition, so one of
them returns at its next test.

When the lock is destroyed and created again while a process waits, the
record is reset under the waiting process.  Its next test reads the flags of
the new allocation, which no longer show the other process, and it returns
`0`.  The run of `reuseSchedule 0 1` does this and ends with both processes in the
critical section.
-/

/-- The calls that process `p` of the pair makes on the shared lock: acquire
and release with its own role. -/
def OwnCall (lockId : Int) (p : Fin 2) : Syscall -> Prop
  | .petersonAcquire id role => id = lockId ∧ role = p.val
  | .petersonRelease id role => id = lockId ∧ role = p.val
  | _ => True

/-- The two processes of `ptest` on the lock `lockId`, numbered by role. -/
def pairUser (lockId : Int) : Program (Fin 2) Holding where
  starts p held call := Allowed held call ∧ OwnCall lockId p call
  returns _ held call value := grant call value held
  internal _ _ _ := False

/-- The two processes with their roles fixed and nothing else: each may start
any call that `OwnCall` allows, whatever it holds. -/
def roleUser (lockId : Int) : Program (Fin 2) Unit where
  starts p _ call := OwnCall lockId p call
  returns _ _ _ _ := ()
  internal _ _ _ := False

/-- Programs of two processes, numbered by role, that acquire and release
`lockId` with their own role only. -/
def OwnCalls {U : Type*} (program : Program (Fin 2) U) (lockId : Int) : Prop :=
  forall p u call, program.starts p u call -> OwnCall lockId p call

theorem roleUser_ownCalls (lockId : Int) : OwnCalls (roleUser lockId) lockId :=
  fun _ _ _ starts => starts

theorem pairUser_disciplined (lockId : Int) : Disciplined (pairUser lockId) id where
  starts_allowed _ _ _ starts := starts.1
  returns_held _ _ _ _ := rfl
  internal_held _ _ _ impossible := impossible.elim

theorem pairUser_fixedRoles (lockId : Int) : FixedRoles (pairUser lockId) (fun p _ => p) := by
  intro p u id role slot checked starts valid
  have ownRole : role = p.val := starts.2.2
  have checkedRole := (checkArgs_eq_some.mp valid).2
  show checked = p
  exact Fin.ext (by omega)

/-- Every process is registered, if at all, with its own role. -/
def OwnRoles (phase : Fin 2 -> Phase) : Prop :=
  forall p, (phase p).role = none ∨ (phase p).role = some p

theorem OwnRoles.rolesUnique {phase : Fin 2 -> Phase} (own : OwnRoles phase) : RolesUnique phase := by
  intro a b role registeredA registeredB
  rcases own a with noneA | ownA
  · rw [noneA] at registeredA
    cases registeredA
  rcases own b with noneB | ownB
  · rw [noneB] at registeredB
    cases registeredB
  rw [ownA, Option.some.injEq] at registeredA
  rw [ownB, Option.some.injEq] at registeredB
  rw [registeredA, registeredB]

theorem ownRoles_of_follow {m : Machine (Fin 2)} {heldOf : Fin 2 -> Holding}
    (follow : RolesFollow m heldOf (fun p _ => p)) (slot : Fin NPETERSONLOCKS) :
    OwnRoles (phaseMap m heldOf slot) :=
  fun p => follow.phase_role p slot

/-! ## Runs in which the lock is not destroyed -/

section Roles

variable {U : Type*} {slot : Fin NPETERSONLOCKS}

/-- The steps of a program in which `slot` is not freed. -/
def KeptStep (program : Program (Fin 2) U) (slot : Fin NPETERSONLOCKS) (s : System (Fin 2) U)
    (label : Option (Label (Fin 2))) (s' : System (Fin 2) U) : Prop :=
  program.Step s label s' ∧ ¬ Frees slot label

/-- What the machine keeps on `slot` when the processes call with their own
role: a process waits only on `slot` and with its own role, and while it waits
its flag is up and the slot active. -/
structure RoleInv (slot : Fin NPETERSONLOCKS) (m : Machine (Fin 2)) : Prop where
  waiting_own : forall p target role, m.frame p = some (.waiting target role) -> target = slot ∧ role = p
  waiting_flag : forall p, m.frame p = some (.waiting slot p) ->
    (m.ptable slot).flag p = 1 ∧ (m.ptable slot).active ≠ 0

theorem RoleInv.initial (slot : Fin NPETERSONLOCKS) : RoleInv slot (Machine.initial : Machine (Fin 2)) where
  waiting_own _ _ _ waiting := by simp [Machine.initial] at waiting
  waiting_flag _ waiting := by simp [Machine.initial] at waiting

section Step

variable {m m' : Machine (Fin 2)} {label : Label (Fin 2)}

/-- On an active `slot` that it does not free, a process that calls with its
own role writes at most its own flag and the turn. -/
theorem slot_step (stepped : Machine.Step m label m')
    (own : m.frame label.process = none -> OwnCall slot label.process label.call)
    (kept : ¬ Frees slot (some label)) (active : (m.ptable slot).active ≠ 0) {q : Fin 2}
    (other : q ≠ label.process) :
    (m'.ptable slot).flag q = (m.ptable slot).flag q ∧
      (m'.ptable slot).active = (m.ptable slot).active := by
  cases stepped with
  | createBegin | createSkip | createFull | acquireRejected | destroyRejected => exact ⟨rfl, rfl⟩
  | @createTake p target _ inactive =>
      -- the scan takes an inactive slot, so not `slot`
      have different : slot ≠ target := fun same => active (same ▸ inactive)
      simp [Function.update_of_ne different]
  | @acquireEnter p lockId role target checked idle valid =>
      obtain ⟨rfl, rfl⟩ : lockId = slot ∧ role = p.val := own idle
      rw [checkArgs_slot, Option.some.injEq, Prod.mk.injEq] at valid
      obtain ⟨rfl, rfl⟩ := valid
      simp [acquireEntry_of_active active, PetersonLock.enter, Function.update_of_ne other]
  | acquireRecheck => simp
  | @release p lockId role idle =>
      obtain ⟨rfl, rfl⟩ : lockId = slot ∧ role = p.val := own idle
      simp [sysPetersonRelease_of_checked (checkArgs_slot slot p), releaseRegion_of_active active,
        Function.update_of_ne other]
  | @destroy p lockId target ptable value idle named _ region =>
      by_cases inactive : (m.ptable target).active = 0
      · rw [destroyRegion_of_inactive inactive] at region
        cases region
        exact ⟨rfl, rfl⟩
      · -- an active lock is freed, and it is not `slot`, which the step keeps
        rw [destroyRegion_of_active inactive] at region
        cases region
        have different : slot ≠ target := fun same => kept ⟨by rw [same]; exact named, rfl⟩
        simp [Function.update_of_ne different]

/-- After a step, the process that took it waits only on `slot` and with its
own role: it was waiting already and the step left the machine alone, or it has
just made its entry writes on an active `slot`. -/
theorem RoleInv.mover_waiting (inv : RoleInv slot m) (stepped : Machine.Step m label m')
    (own : m.frame label.process = none -> OwnCall slot label.process label.call)
    {target : Fin NPETERSONLOCKS} {role : Fin 2}
    (waiting' : m'.frame label.process = some (.waiting target role)) :
    target = slot ∧ role = label.process ∧
      ((m.frame label.process = some (.waiting slot label.process) ∧ m' = m) ∨
        (m.frame label.process = none ∧ (m.ptable slot).active ≠ 0 ∧
          m'.ptable slot = (m.ptable slot).enter label.process)) := by
  -- a step after which its process waits has not returned
  have yields : label.result = none := by
    cases returned : label.result with
    | none => rfl
    | some value => simp [frame_of_returned stepped returned] at waiting'
  obtain ⟨lockId, role', acquiring, valid, before⟩ := waiting_after_step stepped waiting'
  rcases before with idle | stillWaiting
  · -- the entry region, with the slot and the role of the process's own call
    obtain ⟨rfl, rfl⟩ : lockId = slot ∧ role' = label.process.val := by
      have ownCall := own idle
      rw [acquiring] at ownCall
      exact ownCall
    rw [checkArgs_slot, Option.some.injEq, Prod.mk.injEq] at valid
    obtain ⟨rfl, rfl⟩ := valid
    obtain ⟨result, rfl⟩ := stepped.acquire_entry idle acquiring (checkArgs_slot _ _)
    have active : (m.ptable slot).active ≠ 0 := by
      intro inactive
      rw [acquireEntry_of_inactive inactive, yields] at result
      cases result
    refine ⟨rfl, rfl, Or.inr ⟨idle, active, ?_⟩⟩
    simp [acquireEntry_of_active active]
  · obtain ⟨rfl, rfl⟩ := inv.waiting_own _ _ _ stillWaiting
    exact ⟨rfl, rfl, Or.inl ⟨stillWaiting, (stepped.recheck_yields stillWaiting yields).1⟩⟩

/-- A step of a process that calls with its own role, in which `slot` is not
freed, keeps the invariant. -/
theorem RoleInv.step (inv : RoleInv slot m) (stepped : Machine.Step m label m')
    (own : m.frame label.process = none -> OwnCall slot label.process label.call)
    (kept : ¬ Frees slot (some label)) : RoleInv slot m' where
  waiting_own p target role waiting' := by
    by_cases mover : p = label.process
    · subst mover
      obtain ⟨same, sameRole, -⟩ := inv.mover_waiting stepped own waiting'
      exact ⟨same, sameRole⟩
    · rw [stepped.frame_of_ne mover] at waiting'
      exact inv.waiting_own _ _ _ waiting'
  waiting_flag p waiting' := by
    by_cases mover : p = label.process
    · subst mover
      obtain ⟨-, -, ⟨stillWaiting, same⟩ | ⟨-, active, entered⟩⟩ := inv.mover_waiting stepped own waiting'
      · rw [same]
        exact inv.waiting_flag _ stillWaiting
      · rw [entered]
        exact ⟨PetersonLock.enter_flag_self _ _, active⟩
    · -- another process waited before, and the step keeps its flag and `active`
      rw [stepped.frame_of_ne mover] at waiting'
      obtain ⟨flag, active⟩ := inv.waiting_flag p waiting'
      obtain ⟨sameFlag, sameActive⟩ := slot_step stepped own kept active mover
      rw [sameFlag, sameActive]
      exact ⟨flag, active⟩

/-- The process of role `q` waits, if at all, under the turn of `r`. -/
def TurnGiven (slot : Fin NPETERSONLOCKS) (q r : Fin 2) (m : Machine (Fin 2)) : Prop :=
  m.frame q = some (.waiting slot q) -> (m.ptable slot).turn = r.val

/-- While `r` waits, a waiting other process keeps the turn with `r`: `r` can
only test again, which writes nothing, and every entry of the other process
gives the turn to `r`. -/
theorem TurnGiven.step {r : Fin 2} (inv : RoleInv slot m) (stepped : Machine.Step m label m')
    (own : m.frame label.process = none -> OwnCall slot label.process label.call)
    (waiting : m.frame r = some (.waiting slot r)) (given : TurnGiven slot (1 - r) r m) :
    TurnGiven slot (1 - r) r m' := by
  intro waitingOther'
  by_cases mover : label.process = 1 - r
  · -- the other process waits after its own step: a failed test, or its entry
    rw [← mover] at waitingOther'
    obtain ⟨-, -, ⟨-, same⟩ | ⟨-, -, entered⟩⟩ := inv.mover_waiting stepped own waitingOther'
    · rw [same] at waitingOther' ⊢
      exact given (mover ▸ waitingOther')
    · rw [entered, PetersonLock.enter_turn, mover, role_val_one_sub]
      omega
  · -- the step is a test of `r`
    have isR : label.process = r := (role_eq_or_eq_one_sub r label.process).resolve_right mover
    rw [stepped.frame_of_ne (fun same => mover same.symm)] at waitingOther'
    rw [stepped.recheck_ptable (isR ▸ waiting)]
    exact given waitingOther'

/-- Under the turn of `r`, with `r` waiting, the other process's acquire of
`slot` does not return `0`: its entry sees `r`'s flag, and its test sees the
flag and the turn. -/
theorem TurnGiven.not_acquired {r : Fin 2} (inv : RoleInv slot m)
    (stepped : Machine.Step m ⟨1 - r, .petersonAcquire slot (1 - r).val, some 0⟩ m')
    (waiting : m.frame r = some (.waiting slot r)) (given : TurnGiven slot (1 - r) r m) : False := by
  obtain ⟨flagR, active⟩ := inv.waiting_flag r waiting
  cases frame : m.frame (1 - r) with
  | none =>
      obtain ⟨result, -⟩ := stepped.acquire_entry frame rfl (checkArgs_slot slot (1 - r))
      have blocked : ((m.ptable slot).enter (1 - r)).waitCondition (1 - r) := by
        rw [PetersonLock.waitCondition_enter, role_one_sub_one_sub]
        exact flagR
      simp [acquireEntry_of_active active, blocked, Outcome.result] at result
  | some current =>
      cases current with
      | scanning => cases stepped.call_of_frame frame
      | waiting target role =>
          -- the process is in its wait loop on `slot`, with its own role
          obtain ⟨rfl, rfl⟩ := inv.waiting_own _ _ _ frame
          refine stepped.recheck_opens frame rfl ⟨?_, ?_⟩
          · rw [role_one_sub_one_sub]
            exact flagR
          · rw [given frame, role_val_one_sub]
            omega

end Step

theorem RoleInv.keptStep {program : Program (Fin 2) U} (own : OwnCalls program slot)
    {s s' : System (Fin 2) U} {label : Option (Label (Fin 2))} (inv : RoleInv slot s.machine)
    (stepped : KeptStep program slot s label s') : RoleInv slot s'.machine := by
  obtain ⟨programStep, kept⟩ := stepped
  cases programStep with
  | internal => exact inv
  | call starts machineStep => exact inv.step machineStep (fun idle => own _ _ _ (starts idle)) kept

theorem RoleInv.of_run {program : Program (Fin 2) U} (own : OwnCalls program slot) (users : Fin 2 -> U)
    {labels : List (Option (Label (Fin 2)))} {s : System (Fin 2) U}
    (run : Run (KeptStep program slot) ⟨Machine.initial, users⟩ labels s) : RoleInv slot s.machine :=
  Run.invariant (fun s => RoleInv slot s.machine) (RoleInv.initial slot)
    (fun _ _ _ inv stepped => inv.keptStep own stepped) run

/-! ## Bounded bypass and no deadlock -/

/-- A label on which process `q` returns `0` from `peterson_acquire(slot, q)`. -/
def acquiredBy (slot : Fin NPETERSONLOCKS) (q : Fin 2) : Option (Label (Fin 2)) -> Bool
  | some ⟨p, .petersonAcquire lockId role, some value⟩ =>
      decide (p = q ∧ lockId = slot ∧ role = q.val ∧ value = 0)
  | _ => false

theorem acquiredBy_eq_true {q : Fin 2} {label : Option (Label (Fin 2))}
    (acquired : acquiredBy slot q label = true) :
    label = some ⟨q, .petersonAcquire slot q.val, some 0⟩ := by
  cases label with
  | none => simp [acquiredBy] at acquired
  | some seen =>
      obtain ⟨p, call, result⟩ := seen
      cases call <;> cases result <;> simp [acquiredBy] at acquired
      obtain ⟨rfl, rfl, rfl, rfl⟩ := acquired
      rfl

/-- The steps of a program while process `r` stays in the wait loop of its
acquire of `slot`. -/
def WaitingStep (program : Program (Fin 2) U) (slot : Fin NPETERSONLOCKS) (r : Fin 2)
    (s : System (Fin 2) U) (label : Option (Label (Fin 2))) (s' : System (Fin 2) U) : Prop :=
  KeptStep program slot s label s' ∧ s'.machine.frame r = some (.waiting slot r)

/-- One step while `r` waits.  The other process's returns from acquire are
counted: none so far, or one, after which the turn stays with `r`. -/
theorem waiting_step {program : Program (Fin 2) U} (own : OwnCalls program slot) {r : Fin 2}
    {n : Nat} {s s' : System (Fin 2) U} {label : Option (Label (Fin 2))}
    (inv : RoleInv slot s.machine) (waiting : s.machine.frame r = some (.waiting slot r))
    (counted : n = 0 ∨ (n = 1 ∧ TurnGiven slot (1 - r) r s.machine))
    (stepped : KeptStep program slot s label s') :
    let total := n + if acquiredBy slot (1 - r) label then 1 else 0
    total = 0 ∨ (total = 1 ∧ TurnGiven slot (1 - r) r s'.machine) := by
  intro total
  obtain ⟨programStep, -⟩ := stepped
  cases programStep with
  | internal =>
      -- a user step leaves the machine alone and is not counted
      simpa [total, acquiredBy] using counted
  | @call seen _ starts machineStep =>
      have ownCall : s.machine.frame seen.process = none -> OwnCall slot seen.process seen.call :=
        fun idle => own _ _ _ (starts idle)
      cases acquired : acquiredBy slot (1 - r) (some seen) with
      | false =>
          simp only [total, acquired, Bool.false_eq_true, if_false, Nat.add_zero]
          rcases counted with zero | ⟨one, given⟩
          · exact Or.inl zero
          · exact Or.inr ⟨one, given.step inv machineStep ownCall waiting⟩
      | true =>
          -- the other process returns `0` from its acquire of `slot`
          have shape := acquiredBy_eq_true acquired
          rw [Option.some.injEq] at shape
          subst shape
          simp only [total, acquired, if_true]
          rcases counted with zero | ⟨-, given⟩
          · -- it leaves its call, so it does not wait
            refine Or.inr ⟨by omega, fun waitingOther' => ?_⟩
            rw [show (1 - r) = (⟨1 - r, .petersonAcquire slot (1 - r).val, some 0⟩ : Label (Fin 2)).process
              from rfl, frame_of_returned machineStep rfl] at waitingOther'
            cases waitingOther'
          · exact (given.not_acquired inv machineStep waiting).elim

/-- Two different roles never both see their wait condition: each needs the
turn to be the other role. -/
theorem not_waitCondition_of_ne (pl : PetersonLock) {p q : Fin 2} (different : p ≠ q) :
    ¬ (pl.waitCondition p ∧ pl.waitCondition q) := by
  rintro ⟨⟨-, turnP⟩, ⟨-, turnQ⟩⟩
  exact different (Fin.ext (by omega))

/-- In a state where both processes wait on `slot`, their two wait conditions
do not both hold, and one of them passes its next test. -/
def NoDeadlock (slot : Fin NPETERSONLOCKS) (m : Machine (Fin 2)) : Prop :=
  forall p q : Fin 2, p ≠ q -> m.frame p = some (.waiting slot p) ->
    m.frame q = some (.waiting slot q) ->
    ¬ ((m.ptable slot).waitCondition p ∧ (m.ptable slot).waitCondition q) ∧
      exists t, (t = p ∨ t = q) ∧ acquireTest (m.ptable slot) t = .returns 0

/-- A waiting process keeps the slot active, so the test of whichever process
does not see its wait condition returns `0`. -/
theorem RoleInv.noDeadlock {m : Machine (Fin 2)} (inv : RoleInv slot m) : NoDeadlock slot m := by
  intro p q different waiting _
  have active := (inv.waiting_flag p waiting).2
  have notBoth := not_waitCondition_of_ne (m.ptable slot) different
  refine ⟨notBoth, ?_⟩
  by_cases blocked : (m.ptable slot).waitCondition p
  · have free : ¬ (m.ptable slot).waitCondition q := fun blocked' => notBoth ⟨blocked, blocked'⟩
    exact ⟨q, Or.inr rfl, by rw [acquireTest_of_active active, if_neg free]⟩
  · exact ⟨p, Or.inl rfl, by rw [acquireTest_of_active active, if_neg blocked]⟩

/-- Bounded bypass and no deadlock for two processes that acquire and release
the lock with their own role only, whatever else they do.  Take a run from
`peterson_init` in which `slot` is never destroyed, up to a state where the
process of role `r` waits after the entry step of its acquire.  While `r` keeps
waiting, the process of role `1 - r` returns `0` from its acquire at most once,
and in every state where both processes wait one of them passes its next
test. -/
theorem boundedBypass {program : Program (Fin 2) U} (slot : Fin NPETERSONLOCKS)
    (own : OwnCalls program slot) (users : Fin 2 -> U) (r : Fin 2)
    {labels more : List (Option (Label (Fin 2)))} {s s' : System (Fin 2) U}
    (before : Run (KeptStep program slot) ⟨Machine.initial, users⟩ labels s)
    (entered : s.machine.frame r = some (.waiting slot r))
    (after : Run (WaitingStep program slot r) s more s') :
    more.countP (acquiredBy slot (1 - r)) ≤ 1 ∧ NoDeadlock slot s'.machine := by
  -- the count of returns to the other process is carried by `waiting_step`
  have bound := Run.count_invariant (acquiredBy slot (1 - r))
    (fun n s => RoleInv slot s.machine ∧ s.machine.frame r = some (.waiting slot r) ∧
      (n = 0 ∨ (n = 1 ∧ TurnGiven slot (1 - r) r s.machine)))
    ⟨RoleInv.of_run own users before, entered, Or.inl rfl⟩
    (fun _ _ _ _ ⟨inv, waiting, counted⟩ stepped =>
      ⟨inv.keptStep own stepped.1, stepped.2, waiting_step own inv waiting counted stepped.1⟩)
    after
  obtain ⟨inv', -, counted⟩ := bound
  refine ⟨?_, inv'.noDeadlock⟩
  rcases counted with zero | ⟨one, -⟩ <;> omega

end Roles

/-- Process `a` creates lock `0`: the step that takes `ptable_lock` and the one
that takes slot `0`. -/
def createZero (a : Fin 2) : List (Option (Label (Fin 2))) :=
  [some ⟨a, .petersonCreate, none⟩, some ⟨a, .petersonCreate, some 0⟩]

/-- On lock `0`: `b` takes it, `a` enters and waits, and `b` releases it and
enters again, so that both wait and the turn is `a`'s. -/
def enterTwice (a b : Fin 2) : List (Option (Label (Fin 2))) :=
  [some ⟨b, .petersonAcquire 0 b.val, some 0⟩, some ⟨a, .petersonAcquire 0 a.val, none⟩,
   some ⟨b, .petersonRelease 0 b.val, some 0⟩, some ⟨b, .petersonAcquire 0 b.val, none⟩]

/-- While `b` waits: the test of `a` passes, `b` tests again in vain, and `a`
releases the lock and enters again, which gives the turn to `b`. -/
def passOnce (a b : Fin 2) : List (Option (Label (Fin 2))) :=
  [some ⟨a, .petersonAcquire 0 a.val, some 0⟩, some ⟨b, .petersonAcquire 0 b.val, none⟩,
   some ⟨a, .petersonRelease 0 a.val, some 0⟩, some ⟨a, .petersonAcquire 0 a.val, none⟩]

/-- Two processes of `roleUser` after `createZero 0` and `enterTwice 0 1`:
while process `1` waits along `passOnce 0 1`, process `0` returns from its
acquire once. -/
theorem boundedBypass_passOnce :
    exists s s', Run (KeptStep (roleUser 0) 0) ⟨Machine.initial, fun _ => ()⟩
        (createZero 0 ++ enterTwice 0 1) s ∧
      s.machine.frame 1 = some (.waiting 0 1) ∧ Run (WaitingStep (roleUser 0) 0 1) s (passOnce 0 1) s' ∧
      (passOnce 0 1).countP (acquiredBy 0 (1 - 1)) = 1 ∧
      (passOnce 0 1).countP (acquiredBy 0 (1 - 1)) ≤ 1 ∧ NoDeadlock 0 s'.machine := by
  have begun := Run.single (show KeptStep (roleUser 0) 0 ⟨Machine.initial, fun _ => ()⟩
      (some ⟨0, .petersonCreate, none⟩) _ from
    ⟨.call (fun _ => trivial) (Machine.step_of_next rfl), id⟩)
  have created := Run.snoc begun (show KeptStep (roleUser 0) 0 _ (some ⟨0, .petersonCreate, some 0⟩) _ from
    ⟨.call (fun _ => trivial) (Machine.step_of_next rfl), id⟩)
  have childIn := Run.snoc created
    (show KeptStep (roleUser 0) 0 _ (some ⟨1, .petersonAcquire 0 1, some 0⟩) _ from
      ⟨.call (fun _ => ⟨rfl, rfl⟩) (Machine.step_of_next rfl), id⟩)
  have parentWaits := Run.snoc childIn
    (show KeptStep (roleUser 0) 0 _ (some ⟨0, .petersonAcquire 0 0, none⟩) _ from
      ⟨.call (fun _ => ⟨rfl, rfl⟩) (Machine.step_of_next rfl), id⟩)
  have childOut := Run.snoc parentWaits
    (show KeptStep (roleUser 0) 0 _ (some ⟨1, .petersonRelease 0 1, some 0⟩) _ from
      ⟨.call (fun _ => ⟨rfl, rfl⟩) (Machine.step_of_next rfl), id⟩)
  have childWaits := Run.snoc childOut
    (show KeptStep (roleUser 0) 0 _ (some ⟨1, .petersonAcquire 0 1, none⟩) _ from
      ⟨.call (fun _ => ⟨rfl, rfl⟩) (Machine.step_of_next rfl), id⟩)
  refine ⟨_, ?last, childWaits, rfl, ?window, by decide,
    boundedBypass 0 (roleUser_ownCalls 0) _ 1 childWaits rfl ?window⟩
  case window =>
    -- the entry of process `1` gave the turn to process `0`, whose test passes
    apply Run.cons
    · exact ⟨⟨.call (fun _ => ⟨rfl, rfl⟩) (Machine.step_of_next rfl), id⟩, rfl⟩
    -- process `1` tests again under the turn of process `0`
    apply Run.cons
    · exact ⟨⟨.call (fun _ => ⟨rfl, rfl⟩) (Machine.step_of_next rfl), id⟩, rfl⟩
    apply Run.cons
    · exact ⟨⟨.call (fun _ => ⟨rfl, rfl⟩) (Machine.step_of_next rfl), id⟩, rfl⟩
    -- the entry of process `0` gives the turn to process `1`
    apply Run.cons
    · exact ⟨⟨.call (fun _ => ⟨rfl, rfl⟩) (Machine.step_of_next rfl), id⟩, rfl⟩
    exact Run.nil

/-! ## Destroying the lock under a waiting process -/

/-- `ptest` from a fresh boot: the parent creates lock `0` and takes it, and
the child enters and waits.  Each uses its own number as its role. -/
def parentFirst (parent child : Fin 2) : List (Option (Label (Fin 2))) :=
  [some ⟨parent, .petersonCreate, none⟩, some ⟨parent, .petersonCreate, some 0⟩,
   some ⟨parent, .petersonAcquire 0 parent.val, some 0⟩,
   some ⟨child, .petersonAcquire 0 child.val, none⟩]

/-- `parentFirst`, and then the parent destroys lock `0` while the child waits
and creates a lock again, which hands out slot `0` with cleared flags.  The
child's next test passes.  The parent releases and acquires the new
allocation too. -/
def reuseSchedule (parent child : Fin 2) : List (Option (Label (Fin 2))) :=
  parentFirst parent child ++
    [some ⟨parent, .petersonDestroy 0, some 0⟩,
     some ⟨parent, .petersonCreate, none⟩, some ⟨parent, .petersonCreate, some 0⟩,
     some ⟨child, .petersonAcquire 0 child.val, some 0⟩,
     some ⟨parent, .petersonRelease 0 parent.val, some 0⟩,
     some ⟨parent, .petersonAcquire 0 parent.val, some 0⟩]

/-- The child's acquire returns `0` although the lock was destroyed while it
waited, and at the end both processes are in the critical section of the new
allocation of slot `0`, with their roles still unique. -/
theorem destroy_under_waiter :
    exists s, Run (pairUser 0).Step pairStart (reuseSchedule 0 1) s ∧
      RolesUnique (phases id s 0) ∧ ¬ Exclusive (phases id s 0) := by
  have begun := Run.single (show (pairUser 0).Step pairStart (some ⟨0, .petersonCreate, none⟩) _ from
    .call (fun _ => ⟨trivial, trivial⟩) (Machine.step_of_next rfl))
  have created := Run.snoc begun (show (pairUser 0).Step _ (some ⟨0, .petersonCreate, some 0⟩) _ from
    .call (fun idle => by cases idle) (Machine.step_of_next rfl))
  have parentIn := Run.snoc created
    (show (pairUser 0).Step _ (some ⟨0, .petersonAcquire 0 0, some 0⟩) _ from
      .call (fun _ => ⟨rfl, rfl, rfl⟩) (Machine.step_of_next rfl))
  have childWaits := Run.snoc parentIn
    (show (pairUser 0).Step _ (some ⟨1, .petersonAcquire 0 1, none⟩) _ from
      .call (fun _ => ⟨rfl, rfl, rfl⟩) (Machine.step_of_next rfl))
  have freed := Run.snoc childWaits
    (show (pairUser 0).Step _ (some ⟨0, .petersonDestroy 0, some 0⟩) _ from
      .call (fun _ => ⟨trivial, trivial⟩) (Machine.step_of_next rfl))
  have begunAgain := Run.snoc freed
    (show (pairUser 0).Step _ (some ⟨0, .petersonCreate, none⟩) _ from
      .call (fun _ => ⟨trivial, trivial⟩) (Machine.step_of_next rfl))
  have createdAgain := Run.snoc begunAgain
    (show (pairUser 0).Step _ (some ⟨0, .petersonCreate, some 0⟩) _ from
      .call (fun idle => by cases idle) (Machine.step_of_next rfl))
  -- the re-check sees `active = 1` and the cleared flag of the parent
  have childIn := Run.snoc createdAgain
    (show (pairUser 0).Step _ (some ⟨1, .petersonAcquire 0 1, some 0⟩) _ from
      .call (fun idle => by cases idle) (Machine.step_of_next rfl))
  have parentOut := Run.snoc childIn
    (show (pairUser 0).Step _ (some ⟨0, .petersonRelease 0 0, some 0⟩) _ from
      .call (fun _ => ⟨rfl, rfl, rfl⟩) (Machine.step_of_next rfl))
  have parentIn' := Run.snoc parentOut
    (show (pairUser 0).Step _ (some ⟨0, .petersonAcquire 0 0, some 0⟩) _ from
      .call (fun _ => ⟨rfl, rfl, rfl⟩) (Machine.step_of_next rfl))
  have follow := RolesFollow.of_run (pairUser_disciplined 0) (pairUser_fixedRoles 0) _
    (fun _ => rfl) parentIn'
  refine ⟨_, parentIn', (ownRoles_of_follow follow 0).rolesUnique, ?_⟩
  intro exclusive
  have same := exclusive 0 1 0 1 rfl rfl
  cases same

end Peterson
end Xv6Peterson
