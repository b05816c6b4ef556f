import Mathlib.Data.List.FinRange
import Mathlib.Data.Fintype.Basic
import Mathlib.Tactic.FinCases

namespace Xv6Peterson
namespace Kernel

/-!
# The Peterson lock table of `kernel/peterson.c`

The kernel keeps `NPETERSONLOCKS` lock records in the table `ptable`.  A slot
is allocated by `sys_peterson_create`, taken and given back by
`sys_peterson_acquire` and `sys_peterson_release` with a role of 0 or 1, and
freed by `sys_peterson_destroy`.

Each record has its own spinlock `lk`, and allocation and freeing also hold
the table-wide `ptable_lock`.  This file models what the code does while it
holds those spinlocks: every function below is one region between an
`acquire` and the matching `release`, and it runs without interference.  The
regions are then composed into atomic steps of processes in
`Kernel/Machine.lean`.  `sys_peterson_acquire` is the one call that spans
several regions: its entry region announces interest and tests the wait
condition, and after each `yield` a new region tests it again.

C `int` fields and arguments are integers.  No region does arithmetic that can
overflow: the only arithmetic is `1 - role`, after `role` is checked to be 0
or 1.  The spinlocks themselves and the debugging `name` field are not state
of the model, since no region reads a name.  A checked role is an element of
`Fin 2`, which indexes the two-element `flag` array.
-/

/-- `NPETERSONLOCKS` of `peterson.h`: the number of slots in the table. -/
abbrev NPETERSONLOCKS : Nat := 16

/-- `struct peterson_lock` without its spinlock and its debugging name. -/
structure PetersonLock where
  active : Int
  flag : Fin 2 -> Int
  turn : Int
  deriving DecidableEq

/-- The lock table `ptable`. -/
abbrev Ptable := Fin NPETERSONLOCKS -> PetersonLock

namespace PetersonLock

/-- The writes shared by `peterson_init`, `peterson_alloc` and
`peterson_free`: `active` is set, both flags and the turn are cleared. -/
def reset (pl : PetersonLock) (active : Int) : PetersonLock :=
  { pl with active := active, flag := fun _ => 0, turn := 0 }

/-- The two writes of the entry region of `sys_peterson_acquire`:
`pl->flag[role] = 1` and then `pl->turn = 1 - role`. -/
def enter (pl : PetersonLock) (role : Fin 2) : PetersonLock :=
  { pl with flag := Function.update pl.flag role 1, turn := 1 - (role.val : Int) }

/-- The wait condition `pl->flag[1 - role] == 1 && pl->turn == (1 - role)`. -/
def waitCondition (pl : PetersonLock) (role : Fin 2) : Prop :=
  pl.flag (1 - role) = 1 ∧ pl.turn = 1 - (role.val : Int)

instance (pl : PetersonLock) (role : Fin 2) : Decidable (pl.waitCondition role) :=
  inferInstanceAs (Decidable (_ ∧ _))

@[simp] theorem reset_active (pl : PetersonLock) (active : Int) : (pl.reset active).active = active :=
  rfl

@[simp] theorem reset_flag (pl : PetersonLock) (active : Int) (role : Fin 2) :
    (pl.reset active).flag role = 0 :=
  rfl

@[simp] theorem reset_turn (pl : PetersonLock) (active : Int) : (pl.reset active).turn = 0 :=
  rfl

@[simp] theorem enter_active (pl : PetersonLock) (role : Fin 2) :
    (pl.enter role).active = pl.active :=
  rfl

@[simp] theorem enter_flag_self (pl : PetersonLock) (role : Fin 2) :
    (pl.enter role).flag role = 1 := by
  simp [enter]

theorem enter_flag_other (pl : PetersonLock) (role : Fin 2) :
    (pl.enter role).flag (1 - role) = pl.flag (1 - role) := by
  have different : 1 - role ≠ role := by fin_cases role <;> decide
  simp [enter, Function.update_of_ne different]

@[simp] theorem enter_turn (pl : PetersonLock) (role : Fin 2) :
    (pl.enter role).turn = 1 - (role.val : Int) :=
  rfl

/-- Right after the entry writes the turn already favours the other role, so
the wait condition holds exactly when the other role is interested. -/
theorem waitCondition_enter (pl : PetersonLock) (role : Fin 2) :
    (pl.enter role).waitCondition role ↔ pl.flag (1 - role) = 1 := by
  simp [waitCondition, enter_flag_other]

/-- The two wait conditions exclude each other: each needs the turn to be the
other role. -/
theorem not_waitCondition_both (pl : PetersonLock) :
    ¬ (pl.waitCondition 0 ∧ pl.waitCondition 1) := by
  rintro ⟨⟨-, turnOne⟩, ⟨-, turnZero⟩⟩
  simp at turnOne turnZero
  omega

theorem not_waitCondition_one_sub (pl : PetersonLock) {role : Fin 2}
    (blocked : pl.waitCondition role) : ¬ pl.waitCondition (1 - role) := by
  intro other
  fin_cases role
  · exact not_waitCondition_both pl ⟨blocked, other⟩
  · exact not_waitCondition_both pl ⟨other, blocked⟩

end PetersonLock

/-- `peterson_init`: every slot inactive, with both flags and the turn zero. -/
def petersonInit : Ptable :=
  fun _ => { active := 0, flag := fun _ => 0, turn := 0 }

/-! ## Argument checks -/

/-- The lock id check of the calls that take one:
`lock_id < 0 || lock_id >= NPETERSONLOCKS` is rejected. -/
def checkLockId (lockId : Int) : Option (Fin NPETERSONLOCKS) :=
  if outside : lockId < 0 ∨ lockId ≥ NPETERSONLOCKS then none
  else some ⟨lockId.toNat, by omega⟩

/-- The role check `role != 0 && role != 1` of acquire and release. -/
def checkRole (role : Int) : Option (Fin 2) :=
  if invalid : role ≠ 0 ∧ role ≠ 1 then none
  else some ⟨role.toNat, by omega⟩

/-- The argument check of `sys_peterson_acquire` and `sys_peterson_release`,
which reject when the lock id or the role fails its check. -/
def checkArgs (lockId role : Int) : Option (Fin NPETERSONLOCKS × Fin 2) :=
  match checkLockId lockId, checkRole role with
  | some slot, some checked => some (slot, checked)
  | _, _ => none

theorem checkLockId_eq_some {lockId : Int} {slot : Fin NPETERSONLOCKS} :
    checkLockId lockId = some slot ↔ (slot.val : Int) = lockId := by
  unfold checkLockId
  split
  · simp only [reduceCtorEq, false_iff]
    omega
  · simp only [Option.some.injEq]
    constructor
    · rintro rfl
      simp only [Int.toNat_of_nonneg (by omega : 0 ≤ lockId)]
    · intro same
      ext
      simp only
      omega

theorem checkRole_eq_some {role : Int} {checked : Fin 2} :
    checkRole role = some checked ↔ (checked.val : Int) = role := by
  unfold checkRole
  split
  · simp only [reduceCtorEq, false_iff]
    omega
  · simp only [Option.some.injEq]
    constructor
    · rintro rfl
      simp only [Int.toNat_of_nonneg (by omega : 0 ≤ role)]
    · intro same
      ext
      simp only
      omega

theorem checkArgs_eq_some {lockId role : Int} {slot : Fin NPETERSONLOCKS} {checked : Fin 2} :
    checkArgs lockId role = some (slot, checked) ↔
      (slot.val : Int) = lockId ∧ (checked.val : Int) = role := by
  rw [← checkLockId_eq_some, ← checkRole_eq_some]
  unfold checkArgs
  cases checkLockId lockId <;> cases checkRole role <;> simp

theorem checkArgs_lockId {lockId role : Int} {slot : Fin NPETERSONLOCKS} {checked : Fin 2}
    (valid : checkArgs lockId role = some (slot, checked)) : checkLockId lockId = some slot :=
  checkLockId_eq_some.mpr (checkArgs_eq_some.mp valid).1

@[simp] theorem checkArgs_slot (slot : Fin NPETERSONLOCKS) (checked : Fin 2) :
    checkArgs slot checked = some (slot, checked) :=
  checkArgs_eq_some.mpr ⟨rfl, rfl⟩

@[simp] theorem checkLockId_slot (slot : Fin NPETERSONLOCKS) : checkLockId slot = some slot :=
  checkLockId_eq_some.mpr rfl

/-! ## `sys_peterson_create` -/

/-- `peterson_alloc`, called with `ptable_lock` held: the first inactive slot
in index order is taken, its flags and turn cleared, and its index returned;
`-1` when every slot is active.  The loop also takes and drops each entry's
spinlock, which changes no field. -/
def petersonAlloc (ptable : Ptable) : Ptable × Int :=
  match (List.finRange NPETERSONLOCKS).find? (fun slot => (ptable slot).active = 0) with
  | some slot => (Function.update ptable slot ((ptable slot).reset 1), slot)
  | none => (ptable, -1)

/-- `sys_peterson_create` when it runs alone: `peterson_alloc` between taking
and dropping `ptable_lock`. -/
def sysPetersonCreate (ptable : Ptable) : Ptable × Int :=
  petersonAlloc ptable

theorem petersonAlloc_of_full {ptable : Ptable} (full : forall slot, (ptable slot).active ≠ 0) :
    petersonAlloc ptable = (ptable, -1) := by
  have missing : (List.finRange NPETERSONLOCKS).find? (fun slot => (ptable slot).active = 0) = none :=
    List.find?_eq_none.mpr fun slot _ => by simpa using full slot
  simp [petersonAlloc, missing]

theorem petersonAlloc_of_free {ptable : Ptable} (free : exists slot, (ptable slot).active = 0) :
    exists slot : Fin NPETERSONLOCKS, (ptable slot).active = 0 ∧
      petersonAlloc ptable = (Function.update ptable slot ((ptable slot).reset 1), ((slot : Nat) : Int)) := by
  cases found : (List.finRange NPETERSONLOCKS).find? (fun slot => (ptable slot).active = 0) with
  | none =>
      obtain ⟨slot, inactive⟩ := free
      have missed := List.find?_eq_none.mp found slot (List.mem_finRange slot)
      simp [inactive] at missed
  | some slot =>
      have inactive := List.find?_some found
      refine ⟨slot, by simpa using inactive, ?_⟩
      simp [petersonAlloc, found]

/-- `peterson_alloc` takes the first inactive slot. -/
theorem petersonAlloc_of_first {ptable : Ptable} {slot : Fin NPETERSONLOCKS}
    (inactive : (ptable slot).active = 0)
    (before : forall j : Fin NPETERSONLOCKS, j.val < slot.val -> (ptable j).active ≠ 0) :
    petersonAlloc ptable =
      (Function.update ptable slot ((ptable slot).reset 1), ((slot : Nat) : Int)) := by
  have first : (List.finRange NPETERSONLOCKS).find? (fun slot => (ptable slot).active = 0) =
      some slot := by
    rw [List.find?_eq_some_iff_getElem]
    refine ⟨by simpa using inactive, slot.val, by simp, by simp [List.getElem_finRange], ?_⟩
    intro j jLt
    simpa [List.getElem_finRange] using before ⟨j, by omega⟩ jLt
  simp [petersonAlloc, first]

/-- What `sys_peterson_create` can return: `-1` with the table as it was when
every slot is active, or the index of an inactive slot, which it allocates. -/
theorem sysPetersonCreate_cases (ptable : Ptable) :
    ((forall slot, (ptable slot).active ≠ 0) ∧ sysPetersonCreate ptable = (ptable, -1)) ∨
      exists slot : Fin NPETERSONLOCKS, (ptable slot).active = 0 ∧
        sysPetersonCreate ptable =
          (Function.update ptable slot ((ptable slot).reset 1), ((slot : Nat) : Int)) := by
  by_cases free : exists slot, (ptable slot).active = 0
  · exact Or.inr (petersonAlloc_of_free free)
  · have full : forall slot, (ptable slot).active ≠ 0 := fun slot inactive => free ⟨slot, inactive⟩
    exact Or.inl ⟨full, petersonAlloc_of_full full⟩


/-! ## `sys_peterson_acquire` -/

/-- How a region of `sys_peterson_acquire` ends: the call returns, or the
region releases `pl->lk` and yields with the wait loop still running. -/
inductive Outcome
  | returns (value : Int)
  | yields
  deriving DecidableEq

/-- The loop test of `sys_peterson_acquire` and the rest of its region.  With
the condition true, the body checks `active` before it yields; with it false,
the final check after the loop decides the result. -/
def acquireTest (pl : PetersonLock) (role : Fin 2) : Outcome :=
  if pl.waitCondition role then
    if pl.active = 0 then .returns (-1) else .yields
  else
    if pl.active = 0 then .returns (-1) else .returns 0

/-- The entry region of `sys_peterson_acquire`, after the argument check: an
inactive lock is refused, otherwise interest is announced and the loop test
made, all under `pl->lk`. -/
def acquireEntry (pl : PetersonLock) (role : Fin 2) : PetersonLock × Outcome :=
  if pl.active = 0 then (pl, .returns (-1))
  else (pl.enter role, acquireTest (pl.enter role) role)

theorem acquireTest_of_inactive {pl : PetersonLock} (inactive : pl.active = 0) (role : Fin 2) :
    acquireTest pl role = .returns (-1) := by
  simp [acquireTest, inactive]

theorem acquireTest_of_active {pl : PetersonLock} (active : pl.active ≠ 0) (role : Fin 2) :
    acquireTest pl role = if pl.waitCondition role then .yields else .returns 0 := by
  simp [acquireTest, active]

theorem acquireEntry_of_inactive {pl : PetersonLock} (inactive : pl.active = 0) (role : Fin 2) :
    acquireEntry pl role = (pl, .returns (-1)) := by
  simp [acquireEntry, inactive]

theorem acquireEntry_of_active {pl : PetersonLock} (active : pl.active ≠ 0) (role : Fin 2) :
    acquireEntry pl role =
      (pl.enter role, if (pl.enter role).waitCondition role then .yields else .returns 0) := by
  have stillActive : (pl.enter role).active ≠ 0 := active
  simp [acquireEntry, active, acquireTest_of_active stillActive]

/-- No region of `sys_peterson_acquire` writes `active`. -/
@[simp] theorem acquireEntry_active (pl : PetersonLock) (role : Fin 2) :
    (acquireEntry pl role).1.active = pl.active := by
  unfold acquireEntry
  split <;> rfl

/-! ## `sys_peterson_release` and `sys_peterson_destroy` -/

/-- `sys_peterson_release` after its argument check, under `pl->lk`: an
inactive lock is refused, otherwise `flag[role]` is cleared. -/
def releaseRegion (pl : PetersonLock) (role : Fin 2) : PetersonLock × Int :=
  if pl.active = 0 then (pl, -1)
  else ({ pl with flag := Function.update pl.flag role 0 }, 0)

/-- `sys_peterson_release`: the whole call is one region. -/
def sysPetersonRelease (ptable : Ptable) (lockId role : Int) : Ptable × Int :=
  match checkArgs lockId role with
  | none => (ptable, -1)
  | some (slot, checked) =>
      (Function.update ptable slot (releaseRegion (ptable slot) checked).1,
        (releaseRegion (ptable slot) checked).2)

theorem releaseRegion_of_inactive {pl : PetersonLock} (inactive : pl.active = 0) (role : Fin 2) :
    releaseRegion pl role = (pl, -1) := by
  simp [releaseRegion, inactive]

theorem releaseRegion_of_active {pl : PetersonLock} (active : pl.active ≠ 0) (role : Fin 2) :
    releaseRegion pl role = ({ pl with flag := Function.update pl.flag role 0 }, 0) := by
  simp [releaseRegion, active]

@[simp] theorem releaseRegion_active (pl : PetersonLock) (role : Fin 2) :
    (releaseRegion pl role).1.active = pl.active := by
  unfold releaseRegion
  split <;> rfl

theorem sysPetersonRelease_of_rejected {ptable : Ptable} {lockId role : Int}
    (rejected : checkArgs lockId role = none) :
    sysPetersonRelease ptable lockId role = (ptable, -1) := by
  simp [sysPetersonRelease, rejected]

theorem sysPetersonRelease_of_checked {ptable : Ptable} {lockId role : Int}
    {slot : Fin NPETERSONLOCKS} {checked : Fin 2} (valid : checkArgs lockId role = some (slot, checked)) :
    sysPetersonRelease ptable lockId role =
      (Function.update ptable slot (releaseRegion (ptable slot) checked).1,
        (releaseRegion (ptable slot) checked).2) := by
  simp [sysPetersonRelease, valid]

/-- A release writes no `active` field. -/
@[simp] theorem sysPetersonRelease_active (ptable : Ptable) (lockId role : Int)
    (slot : Fin NPETERSONLOCKS) :
    ((sysPetersonRelease ptable lockId role).1 slot).active = (ptable slot).active := by
  unfold sysPetersonRelease
  split
  · rfl
  · rename_i target checked _
    by_cases same : slot = target
    · subst same
      simp
    · simp [Function.update_of_ne same]

/-- `peterson_free`, called with both spinlocks held.  Its own validation
panics with the text below; otherwise the slot is reset to inactive. -/
def petersonFree (ptable : Ptable) (id : Int) : Except String Ptable :=
  match checkLockId id with
  | none => .error "peterson_free: invalid id or inactive lock"
  | some slot =>
      if (ptable slot).active = 0 then .error "peterson_free: invalid id or inactive lock"
      else .ok (Function.update ptable slot ((ptable slot).reset 0))

/-- `sys_peterson_destroy` after its lock id check, holding `ptable_lock` and
`pl->lk`: an inactive lock is refused, otherwise it is freed. -/
def destroyRegion (ptable : Ptable) (slot : Fin NPETERSONLOCKS) : Except String (Ptable × Int) :=
  if (ptable slot).active = 0 then .ok (ptable, -1)
  else (petersonFree ptable slot).map (fun freed => (freed, 0))

theorem destroyRegion_of_inactive {ptable : Ptable} {slot : Fin NPETERSONLOCKS}
    (inactive : (ptable slot).active = 0) : destroyRegion ptable slot = .ok (ptable, -1) := by
  simp [destroyRegion, inactive]

/-- `peterson_free`'s panic is out of reach from `sys_peterson_destroy`: the slot
is in range and active when it is called. -/
theorem destroyRegion_of_active {ptable : Ptable} {slot : Fin NPETERSONLOCKS}
    (active : (ptable slot).active ≠ 0) :
    destroyRegion ptable slot = .ok (Function.update ptable slot ((ptable slot).reset 0), 0) := by
  simp [destroyRegion, petersonFree, active, Except.map]

/-- `sys_peterson_destroy` when it runs alone. -/
def sysPetersonDestroy (ptable : Ptable) (lockId : Int) : Except String (Ptable × Int) :=
  match checkLockId lockId with
  | none => .ok (ptable, -1)
  | some slot => destroyRegion ptable slot

end Kernel
end Xv6Peterson
