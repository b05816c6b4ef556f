import Xv6Peterson.Kernel.Execute
import Xv6Peterson.Peterson.Protocol
import Xv6Peterson.Transition.Lock

namespace Xv6Peterson
namespace Peterson

open Transition Kernel

/-!
# Processes that use the Peterson locks by the rules

A process takes part in the protocol on a slot from the entry region of its
`peterson_acquire` until its `peterson_release`.  It waits while its call is
in the wait loop, which its kernel frame records, and it is critical from the
`0` the call returns until it releases, which only its user state can record.
A program therefore says, through `held`, which locks each of its user states
holds.  It follows the rules (`Disciplined`) when it acquires only locks it
does not hold and releases only locks it holds, with the role it holds them
with, and when what it holds moves with the results of its calls (`grant`).
`lockUser` is the most general such program: any process may make any allowed
call at any time.  A release by a process that holds nothing is outside the
rules, since it clears the flag of whoever holds the role: `anyUser`, which
makes any call at any time, reaches two processes in the critical section of
one slot that is never freed, with their roles unique (`strayRelease`).

Seen from one slot, a step of such a program either changes neither the slot
nor anybody's phase on it, or it is one `SlotMove`: a step of Peterson's
protocol, the kernel allocating or freeing the slot, or a registered process
getting `-1` from a slot that is no longer active.  Over this projection the
invariant of `Peterson/Protocol.lean` holds on every slot that is never freed,
as long as the roles on it stay unique, and mutual exclusion follows.
-/

variable {P U : Type*}

/-! ## Holding locks -/

/-- The role with which a process holds each lock slot, if it holds it. -/
abbrev Holding := Fin NPETERSONLOCKS -> Option (Fin 2)

/-- The calls a process may start while it holds `held`: it acquires only a
lock it does not hold, and releases only a lock it holds, with the role it
holds it with.  Calls that the kernel refuses for their arguments change
nothing and are always allowed. -/
def Allowed (held : Holding) : Syscall -> Prop
  | .petersonAcquire lockId role =>
      match checkArgs lockId role with
      | some (slot, _) => held slot = none
      | none => True
  | .petersonRelease lockId role =>
      match checkArgs lockId role with
      | some (slot, checked) => held slot = some checked
      | none => True
  | _ => True

/-- What a process holds once a call returns `value`.  A `0` from
`peterson_acquire` grants the lock with the checked role, and
`peterson_release` ends the registration whatever it returns. -/
def grant : Syscall -> Int -> Holding -> Holding
  | .petersonAcquire lockId role, value, held =>
      match checkArgs lockId role with
      | some (slot, checked) => if value = 0 then Function.update held slot (some checked) else held
      | none => held
  | .petersonRelease lockId role, _, held =>
      match checkArgs lockId role with
      | some (slot, _) => Function.update held slot none
      | none => held
  | _, _, held => held

/-- What the process of `label` holds once the step is taken. -/
def holdingAfter (label : Label P) (held : Holding) : Holding :=
  match label.result with
  | some value => grant label.call value held
  | none => held

theorem allowed_acquire_iff {held : Holding} {lockId role : Int} {slot : Fin NPETERSONLOCKS}
    {checked : Fin 2} (valid : checkArgs lockId role = some (slot, checked)) :
    Allowed held (.petersonAcquire lockId role) ↔ held slot = none := by
  simp [Allowed, valid]

theorem allowed_release_iff {held : Holding} {lockId role : Int} {slot : Fin NPETERSONLOCKS}
    {checked : Fin 2} (valid : checkArgs lockId role = some (slot, checked)) :
    Allowed held (.petersonRelease lockId role) ↔ held slot = some checked := by
  simp [Allowed, valid]

theorem Allowed.acquire {held : Holding} {lockId role : Int} {slot : Fin NPETERSONLOCKS}
    {checked : Fin 2} (allowed : Allowed held (.petersonAcquire lockId role))
    (valid : checkArgs lockId role = some (slot, checked)) : held slot = none :=
  (allowed_acquire_iff valid).mp allowed

theorem Allowed.release {held : Holding} {lockId role : Int} {slot : Fin NPETERSONLOCKS}
    {checked : Fin 2} (allowed : Allowed held (.petersonRelease lockId role))
    (valid : checkArgs lockId role = some (slot, checked)) : held slot = some checked :=
  (allowed_release_iff valid).mp allowed

theorem grant_acquire {lockId role : Int} {slot : Fin NPETERSONLOCKS} {checked : Fin 2}
    (valid : checkArgs lockId role = some (slot, checked)) (value : Int) (held : Holding) :
    grant (.petersonAcquire lockId role) value held =
      if value = 0 then Function.update held slot (some checked) else held := by
  simp [grant, valid]

theorem grant_acquire_rejected {lockId role : Int} (rejected : checkArgs lockId role = none)
    (value : Int) (held : Holding) : grant (.petersonAcquire lockId role) value held = held := by
  simp [grant, rejected]

theorem grant_release {lockId role : Int} {slot : Fin NPETERSONLOCKS} {checked : Fin 2}
    (valid : checkArgs lockId role = some (slot, checked)) (value : Int) (held : Holding) :
    grant (.petersonRelease lockId role) value held = Function.update held slot none := by
  simp [grant, valid]

theorem grant_release_rejected {lockId role : Int} (rejected : checkArgs lockId role = none)
    (value : Int) (held : Holding) : grant (.petersonRelease lockId role) value held = held := by
  simp [grant, rejected]

@[simp] theorem grant_create (value : Int) (held : Holding) :
    grant .petersonCreate value held = held :=
  rfl

@[simp] theorem grant_destroy (lockId value : Int) (held : Holding) :
    grant (.petersonDestroy lockId) value held = held :=
  rfl

@[simp] theorem holdingAfter_none (p : P) (call : Syscall) (held : Holding) :
    holdingAfter ⟨p, call, none⟩ held = held :=
  rfl

@[simp] theorem holdingAfter_some (p : P) (call : Syscall) (value : Int) (held : Holding) :
    holdingAfter ⟨p, call, some value⟩ held = grant call value held :=
  rfl

/-- A program follows the rules of the locks when, with `held` reading the
locks off its user states, it starts only allowed calls, its own steps keep
what it holds, and what it holds after a call is what `grant` says. -/
structure Disciplined (program : Program P U) (held : U -> Holding) : Prop where
  starts_allowed : forall p u call, program.starts p u call -> Allowed (held u) call
  returns_held : forall p u call value,
    held (program.returns p u call value) = grant call value (held u)
  internal_held : forall p u u', program.internal p u u' -> held u' = held u

/-- The most general program that follows the rules: a process may start any
allowed call in any state, and holds what its calls have granted. -/
def lockUser : Program P Holding where
  starts _ held call := Allowed held call
  returns _ held call value := grant call value held
  internal _ _ _ := False

theorem lockUser_disciplined : Disciplined (lockUser : Program P Holding) id where
  starts_allowed _ _ _ allowed := allowed
  returns_held _ _ _ _ := rfl
  internal_held _ _ _ impossible := impossible.elim

/-- The most general program: any process may start any call at any time, and
holds what its calls have granted, which places it in the critical section from
the `0` its acquire returns to its release. -/
def anyUser : Program P Holding where
  starts _ _ _ := True
  returns _ held call value := grant call value held
  internal _ _ _ := False

theorem Disciplined.after_held [DecidableEq P] {program : Program P U} {held : U -> Holding}
    (disciplined : Disciplined program held) (label : Label P) (u : U) :
    held (program.after label u) = holdingAfter label (held u) := by
  unfold Program.after holdingAfter
  cases label.result with
  | none => rfl
  | some value => exact disciplined.returns_held _ _ _ _

/-! ## Phases on a slot -/

/-- The phase that holding a role, or holding nothing, stands for. -/
def heldPhase : Option (Fin 2) -> Phase
  | none => .idle
  | some role => .critical role

/-- Where a process with kernel frame `frame` and holdings `held` stands on
`slot`. -/
def phaseOf (frame : Option Frame) (held : Holding) (slot : Fin NPETERSONLOCKS) : Phase :=
  match frame with
  | some (.waiting waitSlot role) => if waitSlot = slot then .waiting role else heldPhase (held slot)
  | _ => heldPhase (held slot)

@[simp] theorem heldPhase_eq_idle {held : Option (Fin 2)} : heldPhase held = .idle ↔ held = none := by
  cases held <;> simp [heldPhase]

@[simp] theorem phaseOf_none (held : Holding) (slot : Fin NPETERSONLOCKS) :
    phaseOf none held slot = heldPhase (held slot) :=
  rfl

@[simp] theorem phaseOf_scanning (held : Holding) (slot next : Fin NPETERSONLOCKS) :
    phaseOf (some (.scanning next)) held slot = heldPhase (held slot) :=
  rfl

@[simp] theorem phaseOf_waiting_self (held : Holding) (slot : Fin NPETERSONLOCKS) (role : Fin 2) :
    phaseOf (some (.waiting slot role)) held slot = .waiting role := by
  simp [phaseOf]

theorem phaseOf_waiting_ne {slot other : Fin NPETERSONLOCKS} (different : other ≠ slot)
    (held : Holding) (role : Fin 2) :
    phaseOf (some (.waiting other role)) held slot = heldPhase (held slot) := by
  simp [phaseOf, different]

/-- A process waits on a slot only in the wait loop of an acquire of it. -/
theorem phaseOf_eq_waiting {frame : Option Frame} {held : Holding} {slot : Fin NPETERSONLOCKS}
    {role : Fin 2} (waiting : phaseOf frame held slot = .waiting role) :
    frame = some (.waiting slot role) := by
  have notHeld : forall held : Option (Fin 2), heldPhase held ≠ .waiting role := by
    intro held
    cases held <;> simp [heldPhase]
  unfold phaseOf at waiting
  split at waiting
  · split at waiting
    · rename_i same
      cases waiting
      rw [same]
    · exact absurd waiting (notHeld _)
  · exact absurd waiting (notHeld _)

/-- A process is critical on a slot only while it holds it. -/
theorem phaseOf_eq_critical {frame : Option Frame} {held : Holding} {slot : Fin NPETERSONLOCKS}
    {role : Fin 2} (critical : phaseOf frame held slot = .critical role) : held slot = some role := by
  have fromHeld : heldPhase (held slot) = .critical role -> held slot = some role := by
    cases held slot with
    | none => intro idle; cases idle
    | some r => intro same; cases same; rfl
  unfold phaseOf at critical
  split at critical
  · split at critical
    · cases critical
    · exact fromHeld critical
  · exact fromHeld critical

/-- A process registered on a slot waits on it or holds it. -/
theorem phaseOf_role_eq_some {frame : Option Frame} {held : Holding} {slot : Fin NPETERSONLOCKS}
    {role : Fin 2} (registered : (phaseOf frame held slot).role = some role) :
    frame = some (.waiting slot role) ∨ held slot = some role := by
  cases phase : phaseOf frame held slot with
  | idle => rw [phase] at registered; cases registered
  | waiting r =>
      rw [phase, Phase.role_waiting, Option.some.injEq] at registered
      subst registered
      exact Or.inl (phaseOf_eq_waiting phase)
  | critical r =>
      rw [phase, Phase.role_critical, Option.some.injEq] at registered
      subst registered
      exact Or.inr (phaseOf_eq_critical phase)

/-- The phases of all processes on `slot`. -/
def phaseMap (m : Machine P) (heldOf : P -> Holding) (slot : Fin NPETERSONLOCKS) : P -> Phase :=
  fun p => phaseOf (m.frame p) (heldOf p) slot

/-- The phases on `slot` in a state of a program run. -/
def phases (held : U -> Holding) (s : System P U) (slot : Fin NPETERSONLOCKS) : P -> Phase :=
  phaseMap s.machine (held ∘ s.user) slot

/-! ## The moves of one slot -/

/-- A slot and the phases on it as runs keep them: the protocol invariant, and
nobody registered while the slot is inactive. -/
structure SlotInv (pl : PetersonLock) (phase : P -> Phase) : Prop where
  protocol : Inv pl phase
  inactive_idle : pl.active = 0 -> forall p, phase p = .idle

theorem SlotInv.active_of_registered {pl : PetersonLock} {phase : P -> Phase}
    (inv : SlotInv pl phase) {p : P} (registered : phase p ≠ .idle) : pl.active ≠ 0 :=
  fun inactive => registered (inv.inactive_idle inactive p)

/-- A slot that nobody has registered on, with both flags and the turn clear. -/
theorem SlotInv.idle {pl : PetersonLock} {phase : P -> Phase} (idle : forall p, phase p = .idle)
    (cleared : pl = pl.reset pl.active) : SlotInv pl phase where
  protocol := by
    rw [cleared]
    exact Inv.reset pl pl.active idle
  inactive_idle _ := idle

section Moves

variable [DecidableEq P]

/-- The moves of one slot together with the phases of the processes on it:
the three steps of Peterson's protocol, the kernel allocating and freeing the
slot, and a registered process getting `-1` from a slot that is no longer
active. -/
inductive SlotMove : PetersonLock -> (P -> Phase) -> PetersonLock -> (P -> Phase) -> Prop
  | enter {pl : PetersonLock} {phase : P -> Phase} {p : P} {role : Fin 2} :
      phase p = .idle -> pl.active ≠ 0 ->
      SlotMove pl phase (pl.enter role)
        (Function.update phase p (Phase.ofTest (pl.enter role) role))
  | recheck {pl : PetersonLock} {phase : P -> Phase} {p : P} {role : Fin 2} :
      phase p = .waiting role -> pl.active ≠ 0 ->
      SlotMove pl phase pl (Function.update phase p (Phase.ofTest pl role))
  | leave {pl : PetersonLock} {phase : P -> Phase} {p : P} {role : Fin 2} :
      phase p = .critical role -> pl.active ≠ 0 ->
      SlotMove pl phase { pl with flag := Function.update pl.flag role 0 }
        (Function.update phase p .idle)
  | allocate {pl : PetersonLock} {phase : P -> Phase} :
      pl.active = 0 -> SlotMove pl phase (pl.reset 1) phase
  | free {pl : PetersonLock} {phase : P -> Phase} :
      pl.active ≠ 0 -> SlotMove pl phase (pl.reset 0) phase
  | abandon {pl : PetersonLock} {phase : P -> Phase} {p : P} {new : Phase} :
      pl.active = 0 -> phase p ≠ .idle -> SlotMove pl phase pl (Function.update phase p new)

/-- Every move that does not free an active slot keeps the invariant, given
that the roles are unique before and after it. -/
theorem SlotInv.move {pl pl' : PetersonLock} {phase phase' : P -> Phase}
    (inv : SlotInv pl phase) (unique : RolesUnique phase) (moved : SlotMove pl phase pl' phase')
    (unique' : RolesUnique phase') (kept : pl.active ≠ 0 -> pl'.active ≠ 0) :
    SlotInv pl' phase' := by
  cases moved with
  | enter idle active =>
      exact ⟨inv.protocol.enter idle unique', fun inactive => absurd inactive active⟩
  | recheck waiting active =>
      exact ⟨inv.protocol.recheck waiting, fun inactive => absurd inactive active⟩
  | leave critical active =>
      exact ⟨inv.protocol.leave unique critical, fun inactive => absurd inactive active⟩
  | allocate inactive =>
      refine ⟨Inv.reset pl 1 (inv.inactive_idle inactive), ?_⟩
      intro allocated
      cases allocated
  | free active => exact absurd rfl (kept active)
  | abandon inactive registered => exact absurd (inv.inactive_idle inactive _) registered

end Moves

/-! ## Every step is a move of each slot, or leaves it alone -/

section Projection

variable [DecidableEq P]

/-- The label of a `sys_peterson_destroy` that frees `slot`. -/
def Frees (slot : Fin NPETERSONLOCKS) : Option (Label P) -> Prop
  | some ⟨_, .petersonDestroy lockId, result⟩ => checkLockId lockId = some slot ∧ result = some 0
  | _ => False

/-- Only the process that steps can change its phase on a slot. -/
theorem phaseMap_step {m m' : Machine P} {label : Label P} (stepped : Machine.Step m label m')
    (heldOf : P -> Holding) (held' : Holding) (slot : Fin NPETERSONLOCKS) :
    phaseMap m' (Function.update heldOf label.process held') slot =
      Function.update (phaseMap m heldOf slot) label.process
        (phaseOf (m'.frame label.process) held' slot) := by
  funext q
  by_cases same : q = label.process
  · subst same
    simp [phaseMap]
  · simp [phaseMap, Function.update_of_ne same, stepped.frame_of_ne same]

/-- A process whose phase on `slot` is what it was leaves the phases alone. -/
theorem update_phaseMap_self {m : Machine P} {heldOf : P -> Holding} {slot : Fin NPETERSONLOCKS}
    {p : P} {new : Phase} (same : new = phaseOf (m.frame p) (heldOf p) slot) :
    Function.update (phaseMap m heldOf slot) p new = phaseMap m heldOf slot :=
  Function.update_eq_self_iff.mpr same

/-- The phase of a process on the slot of its acquire once a region of the call
has run the loop test on `pl`: waiting if the wait condition holds, and
critical with the `0` it returns otherwise. -/
theorem phaseOf_acquireTest {m : Machine P} {p : P} {lockId role : Int}
    {slot : Fin NPETERSONLOCKS} {checked : Fin 2} (valid : checkArgs lockId role = some (slot, checked))
    (pl pl' : PetersonLock) (held : Holding) :
    phaseOf ((m.settle p slot checked pl'
        (if pl.waitCondition checked then .yields else .returns 0)).frame p)
      (holdingAfter ⟨p, .petersonAcquire lockId role,
        (if pl.waitCondition checked then Outcome.yields else .returns 0).result⟩ held) slot =
      Phase.ofTest pl checked := by
  unfold Phase.ofTest
  split <;> simp [Machine.settle_frame, Outcome.result, grant_acquire valid, heldPhase]

/-- On any other slot, an acquire leaves its process where it was. -/
theorem phaseOf_acquire_other {m : Machine P} {p : P} {lockId role : Int}
    {target slot : Fin NPETERSONLOCKS} {checked : Fin 2}
    (valid : checkArgs lockId role = some (target, checked)) (different : target ≠ slot)
    (pl : PetersonLock) (outcome : Outcome) (held : Holding) :
    phaseOf ((m.settle p target checked pl outcome).frame p)
      (holdingAfter ⟨p, .petersonAcquire lockId role, outcome.result⟩ held) slot =
      heldPhase (held slot) := by
  cases outcome with
  | yields => simp [Machine.settle_frame, Outcome.result, phaseOf_waiting_ne different]
  | returns value =>
      by_cases granted : value = 0
      · simp [Machine.settle_frame, Outcome.result, grant_acquire valid, granted,
          Function.update_of_ne (Ne.symm different)]
      · simp [Machine.settle_frame, Outcome.result, grant_acquire valid, granted]

/-- A step of a process that follows the rules, seen from `slot`: the slot
and the phases on it stay as they are, or they make one `SlotMove`. -/
theorem step_slotMove {m m' : Machine P} {label : Label P} (stepped : Machine.Step m label m')
    {heldOf : P -> Holding}
    (allowed : m.frame label.process = none -> Allowed (heldOf label.process) label.call)
    (slot : Fin NPETERSONLOCKS) :
    (m'.ptable slot = m.ptable slot ∧
        phaseMap m' (Function.update heldOf label.process
          (holdingAfter label (heldOf label.process))) slot = phaseMap m heldOf slot) ∨
      SlotMove (m.ptable slot) (phaseMap m heldOf slot) (m'.ptable slot)
        (phaseMap m' (Function.update heldOf label.process
          (holdingAfter label (heldOf label.process))) slot) := by
  rw [phaseMap_step stepped]
  cases stepped with
  | createBegin idle _ =>
      exact Or.inl ⟨rfl, update_phaseMap_self (by simp [idle])⟩
  | @createTake p target scanning inactive =>
      rw [update_phaseMap_self (by simp [scanning])]
      by_cases same : target = slot
      · -- the scan takes this very slot
        subst same
        right
        simp only [Function.update_self]
        exact SlotMove.allocate inactive
      · exact Or.inl ⟨Function.update_of_ne (Ne.symm same) _ _, rfl⟩
  | createSkip scanning _ _ =>
      exact Or.inl ⟨rfl, update_phaseMap_self (by simp [scanning])⟩
  | createFull scanning _ _ =>
      exact Or.inl ⟨rfl, update_phaseMap_self (by simp [scanning])⟩
  | acquireRejected idle rejected =>
      exact Or.inl ⟨rfl, update_phaseMap_self
        (by simp [idle, grant_acquire_rejected rejected])⟩
  | @acquireEnter p lockId role target checked idle valid =>
      have free := (allowed idle).acquire valid
      by_cases inactive : (m.ptable target).active = 0
      · -- an inactive lock is refused before anything is written
        rw [acquireEntry_of_inactive inactive]
        refine Or.inl ⟨by simp, Function.update_eq_self_iff.mpr ?_⟩
        simp [phaseMap, idle, Machine.settle_frame, Outcome.result, grant_acquire valid]
      rw [acquireEntry_of_active inactive]
      by_cases same : target = slot
      · subst same
        right
        rw [phaseOf_acquireTest valid, Machine.settle_ptable, Function.update_self]
        exact SlotMove.enter (by simp [phaseMap, idle, free, heldPhase]) inactive
      · left
        refine ⟨by simp [Function.update_of_ne (Ne.symm same)], ?_⟩
        rw [phaseOf_acquire_other valid same]
        exact update_phaseMap_self (by simp [idle])
  | @acquireRecheck p target checked waiting =>
      have valid : checkArgs target checked = some (target, checked) := checkArgs_slot target checked
      by_cases same : target = slot
      · subst same
        have waitingPhase : phaseMap m heldOf target p = .waiting checked := by
          simp [phaseMap, waiting]
        right
        rw [Machine.settle_ptable, Function.update_eq_self]
        by_cases inactive : (m.ptable target).active = 0
        · -- the slot was freed under the waiting process
          exact SlotMove.abandon inactive (by simp [waitingPhase])
        · rw [acquireTest_of_active inactive, phaseOf_acquireTest valid]
          exact SlotMove.recheck waitingPhase inactive
      · left
        refine ⟨by simp [Function.update_of_ne (Ne.symm same)], ?_⟩
        rw [phaseOf_acquire_other valid same]
        exact update_phaseMap_self (by simp [waiting, phaseOf_waiting_ne same])
  | @release p lockId role idle =>
      cases valid : checkArgs lockId role with
      | none =>
          refine Or.inl ⟨by simp [sysPetersonRelease_of_rejected valid], ?_⟩
          exact update_phaseMap_self
            (by simp [idle, grant_release_rejected valid])
      | some checkedArgs =>
          obtain ⟨target, checked⟩ := checkedArgs
          have holds := (allowed idle).release valid
          simp only [sysPetersonRelease_of_checked valid, holdingAfter_some, grant_release valid]
          by_cases same : target = slot
          · subst same
            have criticalPhase : phaseMap m heldOf target p = .critical checked := by
              simp [phaseMap, idle, holds, heldPhase]
            right
            simp only [Function.update_self, idle, phaseOf_none, heldPhase]
            by_cases inactive : (m.ptable target).active = 0
            · rw [releaseRegion_of_inactive inactive]
              exact SlotMove.abandon inactive (by simp [criticalPhase])
            · rw [releaseRegion_of_active inactive]
              exact SlotMove.leave criticalPhase inactive
          · left
            refine ⟨Function.update_of_ne (Ne.symm same) _ _, ?_⟩
            exact update_phaseMap_self
              (by simp [idle, Function.update_of_ne (Ne.symm same)])
  | destroyRejected idle _ =>
      exact Or.inl ⟨rfl, update_phaseMap_self (by simp [idle])⟩
  | @destroy p lockId target ptable value idle named _ region =>
      rw [update_phaseMap_self (by simp [idle])]
      by_cases inactive : (m.ptable target).active = 0
      · rw [destroyRegion_of_inactive inactive] at region
        cases region
        exact Or.inl ⟨rfl, rfl⟩
      rw [destroyRegion_of_active inactive] at region
      cases region
      by_cases same : target = slot
      · subst same
        right
        simp only [Function.update_self]
        exact SlotMove.free inactive
      · exact Or.inl ⟨Function.update_of_ne (Ne.symm same) _ _, rfl⟩

/-- Only a destroy that frees it makes an active slot inactive. -/
theorem step_keeps_active {m m' : Machine P} {label : Label P} (stepped : Machine.Step m label m')
    {slot : Fin NPETERSONLOCKS} (kept : ¬ Frees slot (some label))
    (active : (m.ptable slot).active ≠ 0) : (m'.ptable slot).active ≠ 0 := by
  cases stepped with
  | @createTake p target _ _ =>
      by_cases same : target = slot
      · subst same
        simp
      · simpa [Function.update_of_ne (Ne.symm same)] using active
  | @acquireEnter p lockId role target =>
      by_cases same : target = slot
      · subst same
        simpa using active
      · simpa [Function.update_of_ne (Ne.symm same)] using active
  | @acquireRecheck p target =>
      by_cases same : target = slot
      · subst same
        simpa using active
      · simpa [Function.update_of_ne (Ne.symm same)] using active
  | release => simpa using active
  | @destroy p lockId target ptable value _ named _ region =>
      by_cases inactive : (m.ptable target).active = 0
      · rw [destroyRegion_of_inactive inactive] at region
        cases region
        exact active
      rw [destroyRegion_of_active inactive] at region
      cases region
      by_cases same : target = slot
      · subst same
        exact absurd ⟨named, rfl⟩ kept
      · simpa [Function.update_of_ne (Ne.symm same)] using active
  | createBegin | createSkip | createFull | acquireRejected | destroyRejected => exact active

/-- What the processes of a program hold after one of them ends a call. -/
theorem Disciplined.held_after {program : Program P U} {held : U -> Holding}
    (disciplined : Disciplined program held) (s : System P U) (label : Label P) :
    held ∘ Function.update s.user label.process (program.after label (s.user label.process)) =
      Function.update (held ∘ s.user) label.process
        (holdingAfter label ((held ∘ s.user) label.process)) := by
  rw [Function.comp_update, disciplined.after_held]
  rfl

/-- A user step holds on to what the process holds. -/
theorem Disciplined.held_internal {program : Program P U} {held : U -> Holding}
    (disciplined : Disciplined program held) (s : System P U) {p : P} {u : U}
    (internal : program.internal p (s.user p) u) :
    held ∘ Function.update s.user p u = held ∘ s.user := by
  rw [Function.comp_update, disciplined.internal_held _ _ _ internal]
  exact Function.update_eq_self_iff.mpr rfl

/-- The projection at the level of a program that follows the rules. -/
theorem Disciplined.slotMove {program : Program P U} {held : U -> Holding}
    (disciplined : Disciplined program held) {s s' : System P U} {label : Option (Label P)}
    (stepped : program.Step s label s') (slot : Fin NPETERSONLOCKS) :
    (s'.machine.ptable slot = s.machine.ptable slot ∧ phases held s' slot = phases held s slot) ∨
      SlotMove (s.machine.ptable slot) (phases held s slot) (s'.machine.ptable slot)
        (phases held s' slot) := by
  cases stepped with
  | @call seen machine starts machineStep =>
      unfold phases
      rw [disciplined.held_after]
      exact step_slotMove machineStep
        (fun idle => disciplined.starts_allowed _ _ _ (starts idle)) slot
  | internal _ internal =>
      left
      refine ⟨rfl, ?_⟩
      unfold phases
      rw [disciplined.held_internal s internal]

/-- A program step that does not free `slot` keeps it active. -/
theorem programStep_keeps_active {program : Program P U} {s s' : System P U}
    {label : Option (Label P)} (stepped : program.Step s label s') {slot : Fin NPETERSONLOCKS}
    (kept : ¬ Frees slot label) (active : (s.machine.ptable slot).active ≠ 0) :
    (s'.machine.ptable slot).active ≠ 0 := by
  cases stepped with
  | call _ machineStep => exact step_keeps_active machineStep kept active
  | internal => exact active

end Projection

/-! ## Processes that keep to fixed roles -/

section Roles

variable [DecidableEq P]

/-- A process waits on a slot after a step only inside an acquire of that
slot, which it either starts with the step or was already waiting in. -/
theorem waiting_after_step {m m' : Machine P} {label : Label P} (stepped : Machine.Step m label m')
    {slot : Fin NPETERSONLOCKS} {role : Fin 2}
    (waiting : m'.frame label.process = some (.waiting slot role)) :
    exists lockId role', label.call = .petersonAcquire lockId role' ∧
      checkArgs lockId role' = some (slot, role) ∧
      (m.frame label.process = none ∨ m.frame label.process = some (.waiting slot role)) := by
  cases stepped with
  | @acquireEnter p lockId role' target checked idle valid =>
      simp only [Machine.settle_frame, Function.update_self] at waiting
      split at waiting
      · cases waiting
        exact ⟨lockId, role', rfl, valid, Or.inl idle⟩
      · cases waiting
  | @acquireRecheck p target checked stillWaiting =>
      simp only [Machine.settle_frame, Function.update_self] at waiting
      split at waiting
      · cases waiting
        exact ⟨_, _, rfl, checkArgs_slot _ _, Or.inr stillWaiting⟩
      · cases waiting
  | acquireRejected idle | release idle | destroyRejected idle | destroy idle =>
      simp [idle] at waiting
  | createBegin | createTake | createSkip | createFull => simp at waiting

/-- A step whose call returns leaves its process in no call. -/
theorem frame_of_returned {m m' : Machine P} {label : Label P} (stepped : Machine.Step m label m')
    {value : Int} (returned : label.result = some value) : m'.frame label.process = none := by
  cases stepped with
  | createBegin | createSkip => cases returned
  | createTake | createFull => simp
  | acquireRejected idle | release idle | destroyRejected idle | destroy idle => exact idle
  | acquireEnter =>
      rw [Machine.settle_frame, Function.update_self]
      split
      · rename_i yields
        simp [yields, Outcome.result] at returned
      · rfl
  | acquireRecheck =>
      rw [Machine.settle_frame, Function.update_self]
      split
      · rename_i yields
        simp [yields, Outcome.result] at returned
      · rfl

/-- A step of an acquire is its first region, or a region of the wait loop on
the slot and role its arguments name. -/
theorem acquire_frame_of_step {m m' : Machine P} {label : Label P} (stepped : Machine.Step m label m')
    {lockId role : Int} (acquiring : label.call = .petersonAcquire lockId role)
    {slot : Fin NPETERSONLOCKS} {checked : Fin 2} (valid : checkArgs lockId role = some (slot, checked)) :
    m.frame label.process = none ∨ m.frame label.process = some (.waiting slot checked) := by
  cases inCall : m.frame label.process with
  | none => exact Or.inl rfl
  | some frame =>
      have sameCall := stepped.call_of_frame inCall
      cases frame with
      | waiting target role' =>
          simp only [acquiring, Frame.call, Syscall.petersonAcquire.injEq] at sameCall
          obtain ⟨sameId, sameRole⟩ := sameCall
          rw [sameId, sameRole, checkArgs_slot] at valid
          cases valid
          exact Or.inr rfl
      | scanning => simp [acquiring, Frame.call] at sameCall

/-- A holding after a call is the one before, or the lock the call acquired. -/
theorem grant_eq_some {call : Syscall} {value : Int} {held : Holding} {slot : Fin NPETERSONLOCKS}
    {role : Fin 2} (granted : grant call value held slot = some role) :
    held slot = some role ∨ exists lockId role', call = .petersonAcquire lockId role' ∧
      checkArgs lockId role' = some (slot, role) := by
  cases call with
  | petersonAcquire lockId role' =>
      cases valid : checkArgs lockId role' with
      | none =>
          rw [grant_acquire_rejected valid] at granted
          exact Or.inl granted
      | some checkedArgs =>
          obtain ⟨target, checked⟩ := checkedArgs
          rw [grant_acquire valid] at granted
          by_cases same : slot = target
          · subst same
            by_cases acquired : value = 0
            · simp only [acquired, if_true, Function.update_self, Option.some.injEq] at granted
              exact Or.inr ⟨lockId, role', rfl, by rw [valid, granted]⟩
            · simp only [acquired, if_false] at granted
              exact Or.inl granted
          · split at granted
            · exact Or.inl (by simpa [Function.update_of_ne same] using granted)
            · exact Or.inl granted
  | petersonRelease lockId role' =>
      cases valid : checkArgs lockId role' with
      | none =>
          rw [grant_release_rejected valid] at granted
          exact Or.inl granted
      | some checkedArgs =>
          obtain ⟨target, checked⟩ := checkedArgs
          rw [grant_release valid] at granted
          by_cases same : slot = target
          · subst same
            simp at granted
          · exact Or.inl (by simpa [Function.update_of_ne same] using granted)
  | petersonCreate | petersonDestroy => exact Or.inl granted

/-- A process whose acquire of `slot` returns `0` was not critical on it
before and is critical with the checked role after. -/
theorem phaseMap_acquired {m m' : Machine P} {label : Label P} (stepped : Machine.Step m label m')
    {heldOf : P -> Holding}
    (allowed : m.frame label.process = none -> Allowed (heldOf label.process) label.call)
    {lockId role : Int} (acquiring : label.call = .petersonAcquire lockId role)
    (returned : label.result = some 0) {slot : Fin NPETERSONLOCKS} {checked : Fin 2}
    (valid : checkArgs lockId role = some (slot, checked)) :
    phaseMap m' (Function.update heldOf label.process
        (holdingAfter label (heldOf label.process))) slot label.process = .critical checked ∧
      phaseMap m heldOf slot label.process ≠ .critical checked := by
  constructor
  · obtain ⟨p, call, result⟩ := label
    simp only at acquiring returned
    subst acquiring returned
    simp [phaseMap, frame_of_returned stepped rfl, grant_acquire valid, heldPhase]
  · rcases acquire_frame_of_step stepped acquiring valid with idle | waiting
    · have starts := allowed idle
      rw [acquiring] at starts
      simp [phaseMap, idle, starts.acquire valid, heldPhase]
    · simp [phaseMap, waiting]

/-- The same at the level of a program that follows the rules. -/
theorem Disciplined.phases_acquired {program : Program P U} {held : U -> Holding}
    (disciplined : Disciplined program held) {s s' : System P U} {label : Label P}
    (stepped : program.Step s (some label) s') {lockId role : Int}
    (acquiring : label.call = .petersonAcquire lockId role) (returned : label.result = some 0)
    {slot : Fin NPETERSONLOCKS} {checked : Fin 2} (valid : checkArgs lockId role = some (slot, checked)) :
    phases held s' slot label.process = .critical checked ∧
      phases held s slot label.process ≠ .critical checked := by
  cases stepped with
  | call starts machineStep =>
      unfold phases
      rw [disciplined.held_after]
      exact phaseMap_acquired machineStep (fun idle => disciplined.starts_allowed _ _ _ (starts idle))
        acquiring returned valid

/-- Every acquire that `program` starts on a slot uses the role
`roleOn p slot`. -/
def FixedRoles (program : Program P U) (roleOn : P -> Fin NPETERSONLOCKS -> Fin 2) : Prop :=
  forall p u lockId role slot checked, program.starts p u (.petersonAcquire lockId role) ->
    checkArgs lockId role = some (slot, checked) -> checked = roleOn p slot

/-- The roles in the frames and holdings of a state are the fixed ones. -/
structure RolesFollow (m : Machine P) (heldOf : P -> Holding)
    (roleOn : P -> Fin NPETERSONLOCKS -> Fin 2) : Prop where
  waiting_role : forall p slot role, m.frame p = some (.waiting slot role) -> role = roleOn p slot
  held_role : forall p slot role, heldOf p slot = some role -> role = roleOn p slot

omit [DecidableEq P] in
/-- With fixed roles, a process is registered on a slot, if at all, with its
role there. -/
theorem RolesFollow.phase_role {m : Machine P} {heldOf : P -> Holding}
    {roleOn : P -> Fin NPETERSONLOCKS -> Fin 2} (follow : RolesFollow m heldOf roleOn) (p : P)
    (slot : Fin NPETERSONLOCKS) :
    (phaseMap m heldOf slot p).role = none ∨ (phaseMap m heldOf slot p).role = some (roleOn p slot) := by
  have fromHeld : (heldPhase (heldOf p slot)).role = none ∨
      (heldPhase (heldOf p slot)).role = some (roleOn p slot) := by
    cases holding : heldOf p slot with
    | none => exact Or.inl rfl
    | some role => exact Or.inr (by simp [heldPhase, follow.held_role p slot role holding])
  unfold phaseMap
  cases inFrame : m.frame p with
  | none => simpa using fromHeld
  | some frame =>
      cases frame with
      | scanning => simpa using fromHeld
      | waiting target role =>
          by_cases same : target = slot
          · subst same
            simp [follow.waiting_role p target role inFrame]
          · simpa [phaseOf_waiting_ne same] using fromHeld

/-- A step keeps the roles fixed, given that a call the process starts uses
its fixed role. -/
theorem RolesFollow.step {m m' : Machine P} {label : Label P} {heldOf : P -> Holding}
    {roleOn : P -> Fin NPETERSONLOCKS -> Fin 2} (follow : RolesFollow m heldOf roleOn)
    (stepped : Machine.Step m label m')
    (fixed : m.frame label.process = none -> forall lockId role slot checked,
      label.call = .petersonAcquire lockId role -> checkArgs lockId role = some (slot, checked) ->
      checked = roleOn label.process slot) :
    RolesFollow m' (Function.update heldOf label.process (holdingAfter label (heldOf label.process)))
      roleOn where
  waiting_role q slot role waiting := by
    by_cases same : q = label.process
    · subst same
      obtain ⟨lockId, role', acquiring, valid, before⟩ := waiting_after_step stepped waiting
      rcases before with idle | stillWaiting
      · exact fixed idle lockId role' slot role acquiring valid
      · exact follow.waiting_role _ slot role stillWaiting
    · rw [stepped.frame_of_ne same] at waiting
      exact follow.waiting_role q slot role waiting
  held_role q slot role holding := by
    by_cases same : q = label.process
    · subst same
      rw [Function.update_self] at holding
      unfold holdingAfter at holding
      cases returned : label.result with
      | none =>
          rw [returned] at holding
          exact follow.held_role _ slot role holding
      | some value =>
          rw [returned] at holding
          rcases grant_eq_some holding with kept | ⟨lockId, role', acquiring, valid⟩
          · exact follow.held_role _ slot role kept
          · rcases acquire_frame_of_step stepped acquiring valid with idle | waiting
            · exact fixed idle lockId role' slot role acquiring valid
            · exact follow.waiting_role _ slot role waiting
    · rw [Function.update_of_ne same] at holding
      exact follow.held_role q slot role holding

/-- A program step keeps the roles fixed. -/
theorem RolesFollow.programStep {program : Program P U} {held : U -> Holding}
    (disciplined : Disciplined program held) {roleOn : P -> Fin NPETERSONLOCKS -> Fin 2}
    (fixed : FixedRoles program roleOn) {s s' : System P U} {label : Option (Label P)}
    (follow : RolesFollow s.machine (held ∘ s.user) roleOn) (stepped : program.Step s label s') :
    RolesFollow s'.machine (held ∘ s'.user) roleOn := by
  cases stepped with
  | @call seen machine starts machineStep =>
      rw [disciplined.held_after]
      exact follow.step machineStep (fun idle lockId role slot checked acquiring valid =>
        fixed _ _ lockId role slot checked (acquiring ▸ starts idle) valid)
  | internal _ internal =>
      rw [disciplined.held_internal s internal]
      exact follow

/-- Over every run of a program that follows the rules with fixed roles, the
roles stay fixed. -/
theorem RolesFollow.of_run {program : Program P U} {held : U -> Holding}
    (disciplined : Disciplined program held) {roleOn : P -> Fin NPETERSONLOCKS -> Fin 2}
    (fixed : FixedRoles program roleOn) (users : P -> U)
    (nothingHeld : forall p, held (users p) = fun _ => none) {labels : List (Option (Label P))}
    {s : System P U} (run : Run program.Step ⟨Machine.initial, users⟩ labels s) :
    RolesFollow s.machine (held ∘ s.user) roleOn := by
  refine Run.invariant (fun s => RolesFollow s.machine (held ∘ s.user) roleOn) ?_
    (fun _ _ _ follow stepped => follow.programStep disciplined fixed stepped) run
  constructor
  · intro p slot role waiting
    simp [Machine.initial] at waiting
  · intro p slot role holding
    simp [nothingHeld] at holding

end Roles

/-! ## Mutual exclusion on a slot that is never freed -/

section Exclusion

variable [DecidableEq P]

/-- The steps of a program run in which `slot` is not freed and the roles on
it stay unique. -/
def Guarded (program : Program P U) (held : U -> Holding) (slot : Fin NPETERSONLOCKS)
    (s : System P U) (label : Option (Label P)) (s' : System P U) : Prop :=
  program.Step s label s' ∧ ¬ Frees slot label ∧ RolesUnique (phases held s' slot)

/-- A guarded step keeps the slot invariant. -/
theorem SlotInv.guarded {program : Program P U} {held : U -> Holding}
    (disciplined : Disciplined program held) {slot : Fin NPETERSONLOCKS} {s s' : System P U}
    {label : Option (Label P)} (inv : SlotInv (s.machine.ptable slot) (phases held s slot))
    (unique : RolesUnique (phases held s slot)) (stepped : Guarded program held slot s label s') :
    SlotInv (s'.machine.ptable slot) (phases held s' slot) := by
  obtain ⟨programStep, kept, unique'⟩ := stepped
  rcases disciplined.slotMove programStep slot with ⟨sameSlot, samePhases⟩ | moved
  · rw [sameSlot, samePhases]
    exact inv
  · exact inv.move unique moved unique' (programStep_keeps_active programStep kept)

omit [DecidableEq P] in
/-- At `peterson_init`, with nobody holding anything, every slot is idle. -/
theorem SlotInv.initial {held : U -> Holding} (users : P -> U)
    (nothingHeld : forall p, held (users p) = fun _ => none) (slot : Fin NPETERSONLOCKS) :
    SlotInv ((⟨Machine.initial, users⟩ : System P U).machine.ptable slot)
      (phases held ⟨Machine.initial, users⟩ slot) :=
  SlotInv.idle (fun p => by simp [phases, phaseMap, Machine.initial, nothingHeld, heldPhase]) rfl

/-- What guarded runs keep on `slot`: the slot invariant, with the roles on
it unique. -/
def SlotGuard (held : U -> Holding) (slot : Fin NPETERSONLOCKS) (s : System P U) : Prop :=
  SlotInv (s.machine.ptable slot) (phases held s slot) ∧ RolesUnique (phases held s slot)

omit [DecidableEq P] in
theorem SlotGuard.initial {held : U -> Holding} (users : P -> U)
    (nothingHeld : forall p, held (users p) = fun _ => none) (slot : Fin NPETERSONLOCKS) :
    SlotGuard held slot ⟨Machine.initial, users⟩ :=
  ⟨SlotInv.initial users nothingHeld slot, fun a b role registered _ => by
    simp [phases, phaseMap, Machine.initial, nothingHeld, heldPhase] at registered⟩

theorem SlotGuard.step {program : Program P U} {held : U -> Holding}
    (disciplined : Disciplined program held) {slot : Fin NPETERSONLOCKS} {s s' : System P U}
    {label : Option (Label P)} (guard : SlotGuard held slot s)
    (stepped : Guarded program held slot s label s') : SlotGuard held slot s' :=
  ⟨guard.1.guarded disciplined guard.2 stepped, stepped.2.2⟩

omit [DecidableEq P] in
theorem SlotGuard.exclusive {held : U -> Holding} {slot : Fin NPETERSONLOCKS} {s : System P U}
    (guard : SlotGuard held slot s) : Exclusive (phases held s slot) :=
  guard.1.protocol.exclusive guard.2

/-- Peterson mutual exclusion.  Any processes that use the locks by the rules
start from `peterson_init`.  Take any interleaving of their steps in which
`slot` is never freed and no two processes are registered with the same role
on it at once.  Then at most one process is in the critical section of `slot`
at every point. -/
theorem mutualExclusion {program : Program P U} {held : U -> Holding}
    (disciplined : Disciplined program held) (users : P -> U)
    (nothingHeld : forall p, held (users p) = fun _ => none) (slot : Fin NPETERSONLOCKS)
    {labels : List (Option (Label P))} {s : System P U}
    (run : Run (Guarded program held slot) ⟨Machine.initial, users⟩ labels s) :
    Exclusive (phases held s slot) := by
  have reached := Run.invariant (SlotGuard held slot) (SlotGuard.initial users nothingHeld slot)
    (fun _ _ _ guard stepped => guard.step disciplined stepped) run
  exact reached.exclusive

/-- Two processes right after `peterson_init`, holding nothing. -/
def pairStart : System (Fin 2) Holding :=
  ⟨Machine.initial, fun _ _ => none⟩

/-- From a fresh boot: process `a` creates lock `0` and takes it with role `a`,
process `b` enters with role `b` and waits, `a` releases, and the next test of
`b` passes. -/
def handover (a b : Fin 2) : List (Option (Label (Fin 2))) :=
  [some ⟨a, .petersonCreate, none⟩, some ⟨a, .petersonCreate, some 0⟩,
   some ⟨a, .petersonAcquire 0 a.val, some 0⟩, some ⟨b, .petersonAcquire 0 b.val, none⟩,
   some ⟨a, .petersonRelease 0 a.val, some 0⟩, some ⟨b, .petersonAcquire 0 b.val, some 0⟩]

/-- Two processes of `lockUser` pass the lock from one to the other. -/
theorem mutualExclusion_handover :
    exists s, Run (Guarded lockUser id 0) pairStart (handover 0 1) s ∧
      phases id s 0 1 = .critical 1 ∧ Exclusive (phases id s 0) := by
  have begun := Run.single (show Guarded lockUser id 0 pairStart (some ⟨0, .petersonCreate, none⟩) _ from
    ⟨.call (fun _ => trivial) (Machine.step_of_next rfl), id, by decide⟩)
  have created := Run.snoc begun (show Guarded lockUser id 0 _ (some ⟨0, .petersonCreate, some 0⟩) _ from
    ⟨.call (fun _ => trivial) (Machine.step_of_next rfl), id, by decide⟩)
  have taken := Run.snoc created
    (show Guarded lockUser id 0 _ (some ⟨0, .petersonAcquire 0 0, some 0⟩) _ from
      ⟨.call (fun _ => rfl) (Machine.step_of_next rfl), id, by decide⟩)
  have waits := Run.snoc taken
    (show Guarded lockUser id 0 _ (some ⟨1, .petersonAcquire 0 1, none⟩) _ from
      ⟨.call (fun _ => rfl) (Machine.step_of_next rfl), id, by decide⟩)
  have released := Run.snoc waits
    (show Guarded lockUser id 0 _ (some ⟨0, .petersonRelease 0 0, some 0⟩) _ from
      ⟨.call (fun _ => rfl) (Machine.step_of_next rfl), id, by decide⟩)
  -- the re-check of process `1` finds the flag of process `0` cleared
  have passed := Run.snoc released
    (show Guarded lockUser id 0 _ (some ⟨1, .petersonAcquire 0 1, some 0⟩) _ from
      ⟨.call (fun idle => by cases idle) (Machine.step_of_next rfl), id, by decide⟩)
  exact ⟨_, passed, rfl, mutualExclusion lockUser_disciplined (fun _ _ => none) (fun _ => rfl) 0 passed⟩

/-- From a fresh boot: process `a` creates lock `0` and takes it with role `a`;
process `b`, which holds nothing, releases lock `0` with role `a`, which clears
the flag of `a`, and then acquires it with role `b`. -/
def strayRelease (a b : Fin 2) : List (Option (Label (Fin 2))) :=
  [some ⟨a, .petersonCreate, none⟩, some ⟨a, .petersonCreate, some 0⟩,
   some ⟨a, .petersonAcquire 0 a.val, some 0⟩, some ⟨b, .petersonRelease 0 a.val, some 0⟩,
   some ⟨b, .petersonAcquire 0 b.val, some 0⟩]

/-- Without the rules, mutual exclusion fails: along `strayRelease`, the slot is
never freed and the roles on it stay unique, but both processes end in its
critical section. -/
theorem strayRelease_breaksExclusion :
    exists s, Run (Guarded anyUser id 0) pairStart (strayRelease 0 1) s ∧
      phases id s 0 0 = .critical 0 ∧ phases id s 0 1 = .critical 1 ∧ ¬ Exclusive (phases id s 0) := by
  have begun := Run.single (show Guarded anyUser id 0 pairStart (some ⟨0, .petersonCreate, none⟩) _ from
    ⟨.call (fun _ => trivial) (Machine.step_of_next rfl), id, by decide⟩)
  have created := Run.snoc begun (show Guarded anyUser id 0 _ (some ⟨0, .petersonCreate, some 0⟩) _ from
    ⟨.call (fun _ => trivial) (Machine.step_of_next rfl), id, by decide⟩)
  have taken := Run.snoc created
    (show Guarded anyUser id 0 _ (some ⟨0, .petersonAcquire 0 0, some 0⟩) _ from
      ⟨.call (fun _ => trivial) (Machine.step_of_next rfl), id, by decide⟩)
  -- process `1` holds nothing, and its release clears `flag[0]`
  have stray := Run.snoc taken
    (show Guarded anyUser id 0 _ (some ⟨1, .petersonRelease 0 0, some 0⟩) _ from
      ⟨.call (fun _ => trivial) (Machine.step_of_next rfl), id, by decide⟩)
  have entered := Run.snoc stray
    (show Guarded anyUser id 0 _ (some ⟨1, .petersonAcquire 0 1, some 0⟩) _ from
      ⟨.call (fun _ => trivial) (Machine.step_of_next rfl), id, by decide⟩)
  exact ⟨_, entered, rfl, rfl, by decide⟩

/-! ## Each lock implements the abstract lock -/

/-- The processes in the critical section, for the phases `phase` of a slot. -/
def criticalSet (phase : P -> Phase) : Set P :=
  {p | exists role, phase p = .critical role}

instance (phase : P -> Phase) (p : P) : Decidable (p ∈ criticalSet phase) :=
  inferInstanceAs (Decidable (exists role, phase p = .critical role))

omit [DecidableEq P] in
theorem Exclusive.criticalSet_subsingleton {phase : P -> Phase} (exclusive : Exclusive phase) :
    (criticalSet phase).Subsingleton :=
  fun a ⟨role, criticalA⟩ b ⟨role', criticalB⟩ => exclusive a b role role' criticalA criticalB

/-- A change of one process's phase, with one process at most in the critical
section before and after it, is a move of the abstract lock or no move. -/
theorem lockStep_of_update {phase : P -> Phase} (p : P) (new : Phase) (exclusive : Exclusive phase)
    (exclusive' : Exclusive (Function.update phase p new)) :
    Relation.ReflGen Lock.Step (criticalSet phase) (criticalSet (Function.update phase p new)) := by
  refine Lock.step_of_mover p (fun q other => ?_) exclusive.criticalSet_subsingleton
    exclusive'.criticalSet_subsingleton
  show (exists role, Function.update phase p new q = .critical role) ↔ exists role, phase q = .critical role
  rw [Function.update_of_ne other]

/-- Every move of a slot that keeps it exclusive is a move of the abstract lock
on its critical section, or no move: allocating and freeing leave the phases
alone, and the other moves change the phase of one process. -/
theorem SlotMove.lockStep {pl pl' : PetersonLock} {phase phase' : P -> Phase}
    (moved : SlotMove pl phase pl' phase') (exclusive : Exclusive phase) (exclusive' : Exclusive phase') :
    Relation.ReflGen Lock.Step (criticalSet phase) (criticalSet phase') := by
  cases moved with
  | enter => exact lockStep_of_update _ _ exclusive exclusive'
  | recheck => exact lockStep_of_update _ _ exclusive exclusive'
  | leave => exact lockStep_of_update _ _ exclusive exclusive'
  | allocate => exact Relation.ReflGen.refl
  | free => exact Relation.ReflGen.refl
  | abandon => exact lockStep_of_update _ _ exclusive exclusive'

/-- Each Peterson lock refines the abstract lock.  Take processes that use the
locks by the rules, from `peterson_init`, and the steps in which `slot` is never
freed and the roles on it stay unique.  The set of processes in the critical
section of `slot` starts empty, and each step from a state that such a run
reaches leaves it as it is, lets one process enter while it is empty, or lets
the process inside leave. -/
theorem petersonLock_refinesLock {program : Program P U} {held : U -> Holding}
    (disciplined : Disciplined program held) (users : P -> U)
    (nothingHeld : forall p, held (users p) = fun _ => none) (slot : Fin NPETERSONLOCKS) :
    Refinement (Guarded program held slot) ⟨Machine.initial, users⟩ Lock.Step ∅
      (fun s => criticalSet (phases held s slot)) := by
  refine Refinement.of_invariant _ (SlotGuard held slot) (SlotGuard.initial users nothingHeld slot)
    (fun _ _ _ guard stepped => guard.step disciplined stepped) ?_ (fun s label s' guard stepped => ?_)
  · -- nobody holds anything at `peterson_init`
    refine Set.eq_empty_of_forall_notMem fun p ⟨role, critical⟩ => ?_
    simp [phases, phaseMap, Machine.initial, nothingHeld, heldPhase] at critical
  · -- the step leaves the slot alone or makes one move of it
    rcases disciplined.slotMove stepped.1 slot with ⟨-, same⟩ | moved
    · rw [same]
    · exact moved.lockStep guard.exclusive (guard.step disciplined stepped).exclusive

/-- After boot, the step in which process `0` takes lock `0` moves the abstract
lock from empty to holding process `0`. -/
theorem petersonLock_refinesLock_enter :
    exists s s', Run (Guarded lockUser id 0) pairStart (List.take 2 (handover 0 1)) s ∧
      Guarded lockUser id 0 s (some ⟨0, .petersonAcquire 0 0, some 0⟩) s' ∧
      criticalSet (phases id s 0) = ∅ ∧ criticalSet (phases id s' 0) = {0} ∧
      Relation.ReflGen Lock.Step (criticalSet (phases id s 0)) (criticalSet (phases id s' 0)) := by
  have begun := Run.single (show Guarded lockUser id 0 pairStart (some ⟨0, .petersonCreate, none⟩) _ from
    ⟨.call (fun _ => trivial) (Machine.step_of_next rfl), id, by decide⟩)
  have created := Run.snoc begun (show Guarded lockUser id 0 _ (some ⟨0, .petersonCreate, some 0⟩) _ from
    ⟨.call (fun _ => trivial) (Machine.step_of_next rfl), id, by decide⟩)
  -- the step is stated twice: once as the witness's step, once for the refinement
  exact ⟨_, _, created, ⟨.call (fun _ => rfl) (Machine.step_of_next rfl), id, by decide⟩,
    Set.eq_empty_of_forall_notMem fun p => by fin_cases p <;> decide,
    Set.ext fun p => by fin_cases p <;> decide,
    (petersonLock_refinesLock lockUser_disciplined (fun _ _ => none) (fun _ => rfl) 0).maps_step created
      ⟨.call (fun _ => rfl) (Machine.step_of_next rfl), id, by decide⟩⟩

end Exclusion

end Peterson
end Xv6Peterson
