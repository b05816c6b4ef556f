import Xv6Peterson.Peterson.Pair

namespace Xv6Peterson
namespace Peterson

open Transition Kernel

/-!
# Bounded bypass on one lock, for any number of processes

`Peterson/Pair.lean` proves bounded bypass for the two processes of `ptest`,
each with a role of its own.  A lock of the tournament tree is used by many
processes over time: the processes below one child of its node acquire it
with role `0`, those below the other child with role `1`, and at most one of
each side is registered at a time.  The guarantee is then one of roles.  Once
a process has run the entry step of `peterson_acquire` with role `r` and
waits, the kernel returns `0` to acquires of the lock with role `1 - r` at
most once before the waiting process leaves the wait loop.

The argument is the one of the pair, with roles in place of processes.  The
first process of role `1 - r` may pass because the turn may still be its
own.  Every process that registers with role `1 - r` after it gives the turn
to `r` in its entry step and then sees the waiting process's flag, so it
waits.  Only such entries write the turn while the process of role `r`
waits, so the turn stays with `r` (`Behind`).
-/

variable {P U : Type*}

/-! ## Acquisitions with one role -/

/-- A label on which some process gets `0` from an acquire of `slot` with the
role `role`. -/
def acquiredWith (slot : Fin NPETERSONLOCKS) (role : Fin 2) : Option (Label P) -> Bool
  | some ⟨_, .petersonAcquire lockId role', some value⟩ =>
      decide (checkArgs lockId role' = some (slot, role) ∧ value = 0)
  | _ => false

theorem acquiredWith_eq_true {slot : Fin NPETERSONLOCKS} {role : Fin 2} {label : Option (Label P)}
    (acquired : acquiredWith slot role label = true) :
    exists p lockId role', label = some ⟨p, .petersonAcquire lockId role', some 0⟩ ∧
      checkArgs lockId role' = some (slot, role) := by
  cases label with
  | none => simp [acquiredWith] at acquired
  | some seen =>
      obtain ⟨p, call, result⟩ := seen
      cases call <;> cases result <;> simp [acquiredWith] at acquired
      obtain ⟨valid, rfl⟩ := acquired
      exact ⟨p, _, _, rfl, valid⟩

/-! ## The processes of the other role once one of them has passed -/

/-- Every process registered with role `q` is in the critical section, or
waits behind the turn it gave to `r`. -/
def Behind (pl : PetersonLock) (phase : P -> Phase) (q r : Fin 2) : Prop :=
  forall p, (phase p).role = some q -> phase p = .critical q ∨ (phase p = .waiting q ∧ pl.turn = r.val)

section Moves

variable [DecidableEq P] {pl pl' : PetersonLock} {phase phase' : P -> Phase} {r : Fin 2}

omit [DecidableEq P] in
/-- When `p` is the one process of role `1 - r` and stands where `Behind` asks,
`Behind` holds. -/
theorem behind_of_unique (unique : RolesUnique phase) (p : P)
    (registered : (phase p).role = some (1 - r))
    (stands : phase p = .critical (1 - r) ∨ (phase p = .waiting (1 - r) ∧ pl.turn = r.val)) :
    Behind pl phase (1 - r) r := by
  intro q registeredQ
  rw [unique q p (1 - r) registeredQ registered]
  exact stands

/-- A move of a process that is not of role `1 - r` afterwards, under the same
turn, keeps `Behind`. -/
theorem Behind.update_other (behind : Behind pl phase (1 - r) r) (turnKept : pl'.turn = pl.turn)
    {p : P} {new : Phase} (other : new.role ≠ some (1 - r)) :
    Behind pl' (Function.update phase p new) (1 - r) r := by
  intro q registered
  by_cases same : q = p
  · subst same
    rw [Function.update_self] at registered
    exact absurd registered other
  · rw [Function.update_of_ne same] at registered ⊢
    rw [turnKept]
    exact behind q registered

/-- A move of one process to a phase other than critical with role `1 - r`
makes no other process critical with it. -/
theorem not_critical_update {p : P} {new : Phase} (notCritical : new ≠ .critical (1 - r))
    (q : P) (before : phase q ≠ .critical (1 - r)) :
    Function.update phase p new q ≠ .critical (1 - r) := by
  by_cases same : q = p
  · subst same
    rw [Function.update_self]
    exact notCritical
  · rw [Function.update_of_ne same]
    exact before

/-- While a process `w` of role `r` waits on the slot, every move keeps
`Behind`, and makes no process critical with role `1 - r`.  An entry with
role `1 - r` gives the turn to `r` and sees `w`'s flag; a re-check with role
`1 - r` fails again under that turn; a release or `w`'s own re-check leaves
the processes of role `1 - r` alone. -/
theorem Behind.move (inv : SlotInv pl phase) (unique : RolesUnique phase) {w : P}
    (waiting : phase w = .waiting r) (waiting' : phase' w = .waiting r) (unique' : RolesUnique phase')
    (moved : SlotMove pl phase pl' phase') (active' : pl'.active ≠ 0)
    (behind : Behind pl phase (1 - r) r) :
    Behind pl' phase' (1 - r) r ∧
      forall q, phase q ≠ .critical (1 - r) -> phase' q ≠ .critical (1 - r) := by
  have flagR : pl.flag r = 1 := (inv.protocol.flag_iff r).mpr ⟨w, by simp [waiting]⟩
  have active : pl.active ≠ 0 := inv.active_of_registered (show phase w ≠ .idle by simp [waiting])
  have otherRole : r ≠ 1 - r := (role_one_sub_ne r).symm
  cases moved with
  | @enter p role idle _ =>
      -- the entering process is not `w`, and so takes role `1 - r`
      have notW : p ≠ w := fun same => by simp [same, waiting] at idle
      have roleIs : role = 1 - r := by
        rcases role_eq_or_eq_one_sub r role with sameRole | other
        · subst sameRole
          exact absurd (unique' p w role (by simp) (by simp [waiting'])) notW
        · exact other
      subst roleIs
      have blocked : (pl.enter (1 - r)).waitCondition (1 - r) := by
        rw [PetersonLock.waitCondition_enter, role_one_sub_one_sub]
        exact flagR
      have newPhase : Phase.ofTest (pl.enter (1 - r)) (1 - r) = .waiting (1 - r) := by
        simp [Phase.ofTest, blocked]
      have turnGiven : (pl.enter (1 - r)).turn = r.val := by
        rw [PetersonLock.enter_turn, role_val_one_sub]
        omega
      refine ⟨behind_of_unique unique' p (by simp) (Or.inr ⟨by simp [newPhase], turnGiven⟩),
        not_critical_update (by rw [newPhase]; simp)⟩
  | @recheck p role waitingP _ =>
      by_cases same : p = w
      · -- `w` tests again and stays in the loop
        subst same
        have newPhase : Phase.ofTest pl role = .waiting r := by simpa using waiting'
        refine ⟨behind.update_other rfl (by rw [newPhase]; simpa using otherRole),
          not_critical_update (by rw [newPhase]; simp)⟩
      · -- a process of role `1 - r` tests again under the turn it gave to `r`
        have roleIs : role = 1 - r := by
          rcases role_eq_or_eq_one_sub r role with sameRole | other
          · subst sameRole
            exact absurd (unique p w role (by simp [waitingP]) (by simp [waiting])) same
          · exact other
        subst roleIs
        obtain ⟨-, turn⟩ := (behind p (by simp [waitingP])).resolve_left (by simp [waitingP])
        have blocked : pl.waitCondition (1 - r) := by
          refine ⟨by rw [role_one_sub_one_sub]; exact flagR, ?_⟩
          rw [turn, role_val_one_sub]
          omega
        have newPhase : Phase.ofTest pl (1 - r) = .waiting (1 - r) := by
          simp [Phase.ofTest, blocked]
        refine ⟨behind_of_unique unique' p (by simp) (Or.inr ⟨by simp [newPhase], turn⟩),
          not_critical_update (by rw [newPhase]; simp)⟩
  | leave _ _ => exact ⟨behind.update_other rfl (by simp), not_critical_update (by simp)⟩
  | allocate inactive => exact absurd inactive active
  | free _ => exact absurd rfl active'
  | abandon inactive _ => exact absurd inactive active

/-- Once the wait condition of a waiting process `w` is false, every move keeps
it false while `w` waits: an entry takes the other role and gives the turn to
`w`'s role, a release of the other role clears its flag, and nothing else
writes the flag of the other role or the turn. -/
theorem SlotMove.keeps_open (inv : SlotInv pl phase) {w : P} (waiting : phase w = .waiting r)
    (waiting' : phase' w = .waiting r) (unique' : RolesUnique phase')
    (moved : SlotMove pl phase pl' phase') (opened : ¬ pl.waitCondition r) :
    ¬ pl'.waitCondition r := by
  have active : pl.active ≠ 0 := inv.active_of_registered (show phase w ≠ .idle by simp [waiting])
  cases moved with
  | @enter p role idle _ =>
      have notW : p ≠ w := fun same => by simp [same, waiting] at idle
      have roleIs : role = 1 - r := by
        rcases role_eq_or_eq_one_sub r role with sameRole | other
        · subst sameRole
          exact absurd (unique' p w role (by simp) (by simp [waiting'])) notW
        · exact other
      subst roleIs
      rintro ⟨-, turn⟩
      rw [PetersonLock.enter_turn, role_val_one_sub] at turn
      omega
  | recheck => exact opened
  | @leave p role _ _ =>
      rintro ⟨flagged, turn⟩
      by_cases cleared : role = 1 - r
      · subst cleared
        simp at flagged
      · exact opened ⟨by simpa [Function.update_of_ne (Ne.symm cleared)] using flagged, turn⟩
  | allocate inactive => exact absurd inactive active
  | free _ =>
      rintro ⟨flagged, -⟩
      simp at flagged
  | abandon inactive _ => exact absurd inactive active

end Moves

/-! ## Bounded bypass along guarded runs -/

section Bypass

variable [DecidableEq P] {program : Program P U} {held : U -> Holding}

/-- The guarded steps on `slot` while process `w` stays in the wait loop of its
acquire of `slot` with role `r`. -/
def WaitingGuarded (program : Program P U) (held : U -> Holding) (slot : Fin NPETERSONLOCKS)
    (w : P) (r : Fin 2) (s : System P U) (label : Option (Label P)) (s' : System P U) : Prop :=
  Guarded program held slot s label s' ∧ s'.machine.frame w = some (.waiting slot r)

/-- One step while `w` waits: the count of acquisitions with role `1 - r`
stays at most one, and once it is one the processes of that role are behind. -/
theorem bypass_step_guarded (disciplined : Disciplined program held) {slot : Fin NPETERSONLOCKS}
    {w : P} {r : Fin 2} {n : Nat} {s s' : System P U} {label : Option (Label P)}
    (guard : SlotGuard held slot s) (waiting : s.machine.frame w = some (.waiting slot r))
    (counted : n = 0 ∨ (n = 1 ∧ Behind (s.machine.ptable slot) (phases held s slot) (1 - r) r))
    (stepped : WaitingGuarded program held slot w r s label s') :
    let total := n + if acquiredWith slot (1 - r) label then 1 else 0
    total = 0 ∨ (total = 1 ∧ Behind (s'.machine.ptable slot) (phases held s' slot) (1 - r) r) := by
  obtain ⟨guarded, stillWaiting⟩ := stepped
  obtain ⟨programStep, kept, unique'⟩ := guarded
  have waitingPhase : phases held s slot w = .waiting r := by
    simp [phases, phaseMap, waiting]
  have waitingPhase' : phases held s' slot w = .waiting r := by
    simp [phases, phaseMap, stillWaiting]
  have active' : (s'.machine.ptable slot).active ≠ 0 :=
    programStep_keeps_active programStep kept
      (guard.1.active_of_registered (show phases held s slot w ≠ .idle by simp [waitingPhase]))
  -- what the processes of role `1 - r` can become in this step, whatever the label
  have kept' : Behind (s.machine.ptable slot) (phases held s slot) (1 - r) r ->
      Behind (s'.machine.ptable slot) (phases held s' slot) (1 - r) r ∧
        forall q, phases held s slot q ≠ .critical (1 - r) ->
          phases held s' slot q ≠ .critical (1 - r) := by
    intro behind
    rcases disciplined.slotMove programStep slot with ⟨sameSlot, samePhases⟩ | moved
    · rw [sameSlot, samePhases]
      exact ⟨behind, fun _ => id⟩
    · exact behind.move guard.1 guard.2 waitingPhase waitingPhase' unique' moved active'
  intro total
  cases acquired : acquiredWith slot (1 - r) label with
  | false =>
      simp only [total, acquired, Bool.false_eq_true, if_false, Nat.add_zero]
      rcases counted with zero | ⟨one, behind⟩
      · exact Or.inl zero
      · exact Or.inr ⟨one, (kept' behind).1⟩
  | true =>
      -- the label is a return of `0` to an acquire of `slot` with role `1 - r`
      obtain ⟨p, lockId, role', rfl, valid⟩ := acquiredWith_eq_true acquired
      obtain ⟨critical', notCritical⟩ := disciplined.phases_acquired programStep rfl rfl valid
      simp only [total, acquired, if_true]
      rcases counted with zero | ⟨one, behind⟩
      · exact Or.inr ⟨by omega, behind_of_unique unique' p (by simp [critical']) (Or.inl critical')⟩
      · exact absurd critical' ((kept' behind).2 p notCritical)

/-- Bounded bypass from any state with the slot invariant and unique roles. -/
theorem SlotGuard.bypassBounded (disciplined : Disciplined program held) {slot : Fin NPETERSONLOCKS}
    {w : P} {r : Fin 2} {more : List (Option (Label P))} {s s' : System P U}
    (guard : SlotGuard held slot s) (entered : s.machine.frame w = some (.waiting slot r))
    (after : Run (WaitingGuarded program held slot w r) s more s') :
    more.countP (acquiredWith slot (1 - r)) ≤ 1 := by
  -- the count of acquisitions with role `1 - r` is carried by `bypass_step_guarded`
  have bound := Run.count_invariant (acquiredWith slot (1 - r))
    (fun n s => SlotGuard held slot s ∧ s.machine.frame w = some (.waiting slot r) ∧
      (n = 0 ∨ (n = 1 ∧ Behind (s.machine.ptable slot) (phases held s slot) (1 - r) r)))
    ⟨guard, entered, Or.inl rfl⟩
    (fun _ _ _ _ ⟨guard, waiting, counted⟩ stepped =>
      ⟨guard.step disciplined stepped.1, stepped.2,
        bypass_step_guarded disciplined guard waiting counted stepped⟩)
    after
  obtain ⟨-, -, counted⟩ := bound
  rcases counted with zero | ⟨one, -⟩ <;> omega

/-- Bounded bypass of each Peterson lock, for any number of processes.  Take
processes that use the locks by the rules from `peterson_init`, and a run in
which `slot` is never freed and no two processes are registered on it with
the same role, up to a state where process `w` waits in its acquire of `slot`
with role `r`.  While `w` keeps waiting, the kernel returns `0` to acquires of
`slot` with role `1 - r` at most once. -/
theorem petersonLock_boundedBypass (disciplined : Disciplined program held) (users : P -> U)
    (nothingHeld : forall p, held (users p) = fun _ => none) (slot : Fin NPETERSONLOCKS)
    {w : P} {r : Fin 2} {labels more : List (Option (Label P))} {s s' : System P U}
    (before : Run (Guarded program held slot) ⟨Machine.initial, users⟩ labels s)
    (entered : s.machine.frame w = some (.waiting slot r))
    (after : Run (WaitingGuarded program held slot w r) s more s') :
    more.countP (acquiredWith slot (1 - r)) ≤ 1 := by
  have guard := Run.invariant (SlotGuard held slot) (SlotGuard.initial users nothingHeld slot)
    (fun _ _ _ guard stepped => guard.step disciplined stepped) before
  exact guard.bypassBounded disciplined entered after

end Bypass

/-! ## The pair of `ptest` -/

/-- Two processes of `pairUser` after `createZero 0` and `enterTwice 0 1`: while
process `1` waits with role `1` along `passOnce 0 1`, one acquire with role `0`
returns `0`. -/
theorem petersonLock_boundedBypass_passOnce :
    exists s s', Run (Guarded (pairUser 0) id 0) pairStart (createZero 0 ++ enterTwice 0 1) s ∧
      s.machine.frame 1 = some (.waiting 0 1) ∧
      Run (WaitingGuarded (pairUser 0) id 0 1 1) s (passOnce 0 1) s' ∧
      (passOnce 0 1).countP (acquiredWith 0 (1 - 1)) = 1 ∧
      (passOnce 0 1).countP (acquiredWith 0 (1 - 1)) ≤ 1 := by
  have begun := Run.single (show Guarded (pairUser 0) id 0 pairStart (some ⟨0, .petersonCreate, none⟩) _ from
    ⟨.call (fun _ => ⟨trivial, trivial⟩) (Machine.step_of_next rfl), id, by decide⟩)
  have created := Run.snoc begun (show Guarded (pairUser 0) id 0 _ (some ⟨0, .petersonCreate, some 0⟩) _ from
    ⟨.call (fun _ => ⟨trivial, trivial⟩) (Machine.step_of_next rfl), id, by decide⟩)
  have childIn := Run.snoc created
    (show Guarded (pairUser 0) id 0 _ (some ⟨1, .petersonAcquire 0 1, some 0⟩) _ from ⟨.call (fun _ => ⟨rfl, rfl, rfl⟩) (Machine.step_of_next rfl), id, by decide⟩)
  have parentWaits := Run.snoc childIn
    (show Guarded (pairUser 0) id 0 _ (some ⟨0, .petersonAcquire 0 0, none⟩) _ from ⟨.call (fun _ => ⟨rfl, rfl, rfl⟩) (Machine.step_of_next rfl), id, by decide⟩)
  have childOut := Run.snoc parentWaits
    (show Guarded (pairUser 0) id 0 _ (some ⟨1, .petersonRelease 0 1, some 0⟩) _ from ⟨.call (fun _ => ⟨rfl, rfl, rfl⟩) (Machine.step_of_next rfl), id, by decide⟩)
  have childWaits := Run.snoc childOut
    (show Guarded (pairUser 0) id 0 _ (some ⟨1, .petersonAcquire 0 1, none⟩) _ from ⟨.call (fun _ => ⟨rfl, rfl, rfl⟩) (Machine.step_of_next rfl), id, by decide⟩)
  refine ⟨_, ?last, childWaits, rfl, ?window, by decide,
    petersonLock_boundedBypass (pairUser_disciplined 0) (fun _ _ => none) (fun _ => rfl) 0 childWaits rfl
      ?window⟩
  case window =>
    -- the test of process `0` passes on the turn that process `1` gave it
    apply Run.cons
    · exact ⟨⟨.call (fun _ => ⟨rfl, rfl, rfl⟩) (Machine.step_of_next rfl), id, by decide⟩, rfl⟩
    apply Run.cons
    · exact ⟨⟨.call (fun _ => ⟨rfl, rfl, rfl⟩) (Machine.step_of_next rfl), id, by decide⟩, rfl⟩
    apply Run.cons
    · exact ⟨⟨.call (fun _ => ⟨rfl, rfl, rfl⟩) (Machine.step_of_next rfl), id, by decide⟩, rfl⟩
    -- the entry of process `0` gives the turn back to process `1`
    apply Run.cons
    · exact ⟨⟨.call (fun _ => ⟨rfl, rfl, rfl⟩) (Machine.step_of_next rfl), id, by decide⟩, rfl⟩
    exact Run.nil

end Peterson
end Xv6Peterson
