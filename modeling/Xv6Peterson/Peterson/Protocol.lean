import Mathlib.Tactic.FinCases
import Xv6Peterson.Kernel.PetersonLock

namespace Xv6Peterson
namespace Peterson

open Kernel

/-!
# Peterson's protocol on one lock

This is the abstract view of one active Peterson lock.  Each participant of
an arbitrary type `A` is idle, waiting with a role, or critical with a role,
and the lock holds its two flags and its turn.  The invariant ties the record
to the participants:

* `flag[r]` is `1` exactly while some participant is registered with role `r`;
* the turn is `0` or `1`;
* a critical participant whose other role is also registered has the turn.

The three protocol steps keep the invariant: the entry writes and its first
test, a repeated test, and the withdrawal of interest.  They need one
precondition from the users of the lock, namely that no two participants are
registered with the same role.  Under it no two participants are critical at
once.  When both roles wait, the two wait conditions cannot both hold.

The participants are kept abstract because the development uses the same
protocol twice.  Processes calling `sys_peterson_acquire` directly are the
participants of one slot.  In the tournament tree, the participants of a node
are the processes whose path passes through it.
-/

/-- Where a participant stands in the protocol on one lock. -/
inductive Phase
  | idle
  | waiting (role : Fin 2)
  | critical (role : Fin 2)
  deriving DecidableEq

/-- The role a participant has announced interest with, if any. -/
def Phase.role : Phase -> Option (Fin 2)
  | .idle => none
  | .waiting role => some role
  | .critical role => some role

/-- The phase a participant with `role` is in after testing the wait
condition on `pl`. -/
def Phase.ofTest (pl : PetersonLock) (role : Fin 2) : Phase :=
  if pl.waitCondition role then .waiting role else .critical role

@[simp] theorem Phase.role_idle : Phase.idle.role = none :=
  rfl

@[simp] theorem Phase.role_waiting (role : Fin 2) : (Phase.waiting role).role = some role :=
  rfl

@[simp] theorem Phase.role_critical (role : Fin 2) : (Phase.critical role).role = some role :=
  rfl

@[simp] theorem Phase.role_ofTest (pl : PetersonLock) (role : Fin 2) :
    (Phase.ofTest pl role).role = some role := by
  unfold Phase.ofTest
  split <;> rfl

theorem role_one_sub_ne (role : Fin 2) : 1 - role ≠ role := by
  fin_cases role <;> decide

theorem role_one_sub_one_sub (role : Fin 2) : 1 - (1 - role) = role := by
  fin_cases role <;> decide

theorem role_eq_or_eq_one_sub (role other : Fin 2) : other = role ∨ other = 1 - role := by
  fin_cases role <;> fin_cases other <;> decide

/-- The turn value `1 - role` the entry writes names the other role. -/
theorem role_val_one_sub (role : Fin 2) : (((1 - role : Fin 2)).val : Int) = 1 - (role.val : Int) := by
  fin_cases role <;> decide

variable {A : Type*}

/-- Some participant is registered with `role`. -/
def Interested (phase : A -> Phase) (role : Fin 2) : Prop :=
  exists a, (phase a).role = some role

/-- No two participants are registered with the same role: the precondition
that users of a Peterson lock must provide. -/
def RolesUnique (phase : A -> Phase) : Prop :=
  forall a b role, (phase a).role = some role -> (phase b).role = some role -> a = b

/-- At most one participant is critical: what a lock is for. -/
def Exclusive (phase : A -> Phase) : Prop :=
  forall a b role role', phase a = .critical role -> phase b = .critical role' -> a = b

instance [Fintype A] [DecidableEq A] (phase : A -> Phase) : Decidable (RolesUnique phase) :=
  inferInstanceAs (Decidable (forall a b _, _ -> _ -> a = b))

instance [Fintype A] [DecidableEq A] (phase : A -> Phase) : Decidable (Exclusive phase) :=
  inferInstanceAs (Decidable (forall a b _ _, _ -> _ -> a = b))

/-- The invariant of Peterson's algorithm on one lock. -/
structure Inv (pl : PetersonLock) (phase : A -> Phase) : Prop where
  flag_iff : forall role, pl.flag role = 1 ↔ Interested phase role
  turn_cases : pl.turn = 0 ∨ pl.turn = 1
  critical_turn : forall a role, phase a = .critical role -> Interested phase (1 - role) ->
    pl.turn = role.val

/-- The invariant gives mutual exclusion to users that keep roles unique. -/
theorem Inv.exclusive {pl : PetersonLock} {phase : A -> Phase} (inv : Inv pl phase)
    (unique : RolesUnique phase) : Exclusive phase := by
  intro a b role role' criticalA criticalB
  rcases role_eq_or_eq_one_sub role role' with same | other
  · rw [same] at criticalB
    exact unique a b role (by simp [criticalA]) (by simp [criticalB])
  · exfalso
    have turnA := inv.critical_turn a role criticalA ⟨b, by simp [criticalB, other]⟩
    have turnB := inv.critical_turn b role' criticalB
      ⟨a, by rw [other, role_one_sub_one_sub]; simp [criticalA]⟩
    have distinct : role.val ≠ role'.val := by
      rw [other]
      exact fun same => role_one_sub_ne role (Fin.ext same.symm)
    omega

/-- A lock just allocated, with nobody registered, satisfies the invariant. -/
theorem Inv.reset {phase : A -> Phase} (pl : PetersonLock) (active : Int)
    (idle : forall a, phase a = .idle) : Inv (pl.reset active) phase where
  flag_iff role := by simp [Interested, idle]
  turn_cases := Or.inl rfl
  critical_turn a role critical := by simp [idle a] at critical

/-! ## The protocol steps keep the invariant -/

section Steps

variable [DecidableEq A] {pl : PetersonLock} {phase : A -> Phase} {a : A} {role : Fin 2}

/-- Changing one participant's phase changes who is interested in `other`
only if its registration for `other` changes. -/
theorem interested_update_iff {new : Phase} {other : Fin 2}
    (sameRegistration : new.role = some other ↔ (phase a).role = some other) :
    Interested (Function.update phase a new) other ↔ Interested phase other := by
  constructor
  · rintro ⟨b, registered⟩
    by_cases same : b = a
    · subst same
      exact ⟨b, sameRegistration.mp (by simpa using registered)⟩
    · exact ⟨b, by simpa [Function.update_of_ne same] using registered⟩
  · rintro ⟨b, registered⟩
    by_cases same : b = a
    · subst same
      exact ⟨b, by simpa using sameRegistration.mpr registered⟩
    · exact ⟨b, by simpa [Function.update_of_ne same] using registered⟩

/-- The entry region: an idle participant announces interest with `role`,
gives the turn away and tests the wait condition once. -/
theorem Inv.enter (inv : Inv pl phase) (idle : phase a = .idle)
    (unique : RolesUnique (Function.update phase a (Phase.ofTest (pl.enter role) role))) :
    Inv (pl.enter role) (Function.update phase a (Phase.ofTest (pl.enter role) role)) := by
  have otherUnchanged : Interested (Function.update phase a (Phase.ofTest (pl.enter role) role))
      (1 - role) ↔ Interested phase (1 - role) := by
    apply interested_update_iff
    simp [idle, Ne.symm (role_one_sub_ne role)]
  refine ⟨?_, ?_, ?_⟩
  · intro announced
    rcases role_eq_or_eq_one_sub role announced with same | other
    · subst same
      simp only [PetersonLock.enter_flag_self, true_iff]
      exact ⟨a, by simp⟩
    · subst other
      rw [PetersonLock.enter_flag_other, otherUnchanged]
      exact inv.flag_iff (1 - role)
  · fin_cases role <;> simp
  · intro b held heldCritical otherInterested
    by_cases same : b = a
    · -- the entering participant is critical only if the other role was free
      subst same
      simp only [Function.update_self, Phase.ofTest] at heldCritical
      split at heldCritical
      · cases heldCritical
      · rename_i free
        cases heldCritical
        rw [PetersonLock.waitCondition_enter, inv.flag_iff, ← otherUnchanged] at free
        exact absurd otherInterested free
    · -- an earlier critical participant has the other role, and now the turn
      rw [Function.update_of_ne same] at heldCritical
      rcases role_eq_or_eq_one_sub role held with sameRole | otherRole
      · exfalso
        apply same
        apply unique b a role
        · simp [Function.update_of_ne same, heldCritical, sameRole]
        · simp
      · simp [otherRole, role_val_one_sub]

/-- A repeated test of the wait condition by a waiting participant. -/
theorem Inv.recheck (inv : Inv pl phase) (waiting : phase a = .waiting role) :
    Inv pl (Function.update phase a (Phase.ofTest pl role)) := by
  have unchanged : forall other,
      Interested (Function.update phase a (Phase.ofTest pl role)) other ↔
        Interested phase other := by
    intro other
    apply interested_update_iff
    simp [waiting]
  refine ⟨fun announced => (inv.flag_iff announced).trans (unchanged announced).symm,
    inv.turn_cases, ?_⟩
  intro b held heldCritical otherInterested
  rw [unchanged] at otherInterested
  by_cases same : b = a
  · -- the test failed while the other role is registered, so the turn is ours
    subst same
    simp only [Function.update_self, Phase.ofTest] at heldCritical
    split at heldCritical
    · cases heldCritical
    · rename_i free
      cases heldCritical
      have otherFlag := (inv.flag_iff (1 - role)).mpr otherInterested
      have turnNotOther : pl.turn ≠ 1 - (role.val : Int) := fun turn => free ⟨otherFlag, turn⟩
      have bounded : role.val < 2 := role.isLt
      rcases inv.turn_cases with turn | turn <;> omega
  · rw [Function.update_of_ne same] at heldCritical
    exact inv.critical_turn b held heldCritical otherInterested

/-- Making a participant idle takes no one else's interest away. -/
theorem interested_of_update_idle {other : Fin 2}
    (interested : Interested (Function.update phase a .idle) other) : Interested phase other := by
  obtain ⟨b, registered⟩ := interested
  by_cases same : b = a
  · subst same
    simp at registered
  · exact ⟨b, by simpa [Function.update_of_ne same] using registered⟩

/-- Leaving: a critical participant clears its flag. -/
theorem Inv.leave (inv : Inv pl phase) (unique : RolesUnique phase)
    (critical : phase a = .critical role) :
    Inv { pl with flag := Function.update pl.flag role 0 } (Function.update phase a .idle) := by
  refine ⟨?_, inv.turn_cases, ?_⟩
  · intro announced
    rcases role_eq_or_eq_one_sub role announced with same | other
    · -- the leaving participant was the only one with its role
      rw [same]
      simp only [Function.update_self, zero_ne_one, false_iff]
      rintro ⟨b, registered⟩
      by_cases same : b = a
      · subst same
        simp at registered
      · rw [Function.update_of_ne same] at registered
        exact same (unique b a role registered (by simp [critical]))
    · rw [other]
      have otherUnchanged : Interested (Function.update phase a .idle) (1 - role) ↔
          Interested phase (1 - role) := by
        apply interested_update_iff
        simp [critical, Ne.symm (role_one_sub_ne role)]
      simp only [Function.update_of_ne (role_one_sub_ne role)]
      rw [otherUnchanged]
      exact inv.flag_iff (1 - role)
  · intro b held heldCritical otherInterested
    by_cases same : b = a
    · subst same
      simp at heldCritical
    · rw [Function.update_of_ne same] at heldCritical
      exact inv.critical_turn b held heldCritical (interested_of_update_idle otherInterested)

end Steps

end Peterson
end Xv6Peterson
