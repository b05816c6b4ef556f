import Mathlib.Data.Finset.Insert
import Xv6Peterson.Kernel.Machine

namespace Xv6Peterson
namespace Kernel

open Transition

/-!
# The lock table over whole runs

The `active` field of a slot is written only while `ptable_lock` is held, by
`peterson_alloc` and `peterson_free`, but it is read under the slot's own
spinlock alone by acquire and release.  This module shows that the two levels
of locking still make the table behave like a set of allocated names.

Over every run from `peterson_init`, with any processes making any calls, the
active slots are exactly the ids that creates returned and that successful
destroys have not freed since (`liveIds`).  The first-fit scan neither hands
out a live slot nor misses a free one.  It holds `ptable_lock` throughout, no
other process can change an `active` field meanwhile, and every slot it has
passed is active (`TableInv.scanned_active`).

Each single step also keeps its promises (`StepSpec`).  A rejected call
changes nothing.  A destroy succeeds exactly on an active slot, and then
resets it.  A step changes no slot other than the one its call names.
-/

variable {P : Type*}

/-! ## Allocations seen by the processes -/

/-- The live allocations after one more step: a create that returns an id
adds it, and a destroy that returns `0` removes its argument. -/
def liveAfter (live : Finset Int) (label : Label P) : Finset Int :=
  match label.call, label.result with
  | .petersonCreate, some value => if value = -1 then live else insert value live
  | .petersonDestroy lockId, some value => if value = 0 then live.erase lockId else live
  | _, _ => live

/-- The ids returned by successful creates and not successfully destroyed
since, along a sequence of steps. -/
def liveIds (labels : List (Label P)) : Finset Int :=
  labels.foldl liveAfter ∅

/-! ## The table invariant -/

/-- What holds of the table in every reachable state, together with the live
allocations `live` that the steps so far have reported. -/
structure TableInv (m : Machine P) (live : Finset Int) : Prop where
  live_iff : forall value, value ∈ live ↔
    exists slot : Fin NPETERSONLOCKS, (slot : Int) = value ∧ (m.ptable slot).active = 1
  active_cases : forall slot, (m.ptable slot).active = 0 ∨ (m.ptable slot).active = 1
  scanning_holds : forall p slot, m.frame p = some (.scanning slot) -> m.ptableLock = some p
  holder_scanning : forall p, m.ptableLock = some p -> exists slot, m.frame p = some (.scanning slot)
  scanned_active : forall p slot, m.frame p = some (.scanning slot) ->
    forall earlier : Fin NPETERSONLOCKS, earlier.val < slot.val -> (m.ptable earlier).active ≠ 0

theorem TableInv.initial : TableInv (Machine.initial : Machine P) ∅ where
  live_iff value := by simp [Machine.initial, petersonInit]
  active_cases _ := Or.inl rfl
  scanning_holds _ _ scanning := by simp [Machine.initial] at scanning
  holder_scanning _ holder := by simp [Machine.initial] at holder
  scanned_active _ _ scanning := by simp [Machine.initial] at scanning

/-- A step that writes no `active` field, keeps `ptable_lock` where it was and
starts or ends no scan keeps the invariant. -/
theorem TableInv.congr {m m' : Machine P} {live : Finset Int} (inv : TableInv m live)
    (sameActive : forall slot, (m'.ptable slot).active = (m.ptable slot).active)
    (sameLock : m'.ptableLock = m.ptableLock)
    (sameScans : forall p slot, m'.frame p = some (.scanning slot) ↔ m.frame p = some (.scanning slot)) :
    TableInv m' live where
  live_iff value := by simp only [sameActive]; exact inv.live_iff value
  active_cases slot := by rw [sameActive]; exact inv.active_cases slot
  scanning_holds p slot scanning := by
    rw [sameLock]
    exact inv.scanning_holds p slot ((sameScans p slot).mp scanning)
  holder_scanning p holder := by
    obtain ⟨slot, scanning⟩ := inv.holder_scanning p (sameLock ▸ holder)
    exact ⟨slot, (sameScans p slot).mpr scanning⟩
  scanned_active p slot scanning earlier before := by
    rw [sameActive]
    exact inv.scanned_active p slot ((sameScans p slot).mp scanning) earlier before

/-- With nobody holding `ptable_lock`, nobody is scanning. -/
theorem TableInv.not_scanning {m : Machine P} {live : Finset Int} (inv : TableInv m live)
    (unlocked : m.ptableLock = none) (p : P) (slot : Fin NPETERSONLOCKS) :
    m.frame p ≠ some (.scanning slot) := by
  intro scanning
  have holder := inv.scanning_holds p slot scanning
  rw [unlocked] at holder
  cases holder

/-- The holder of `ptable_lock` is the only process scanning. -/
theorem TableInv.scanning_unique {m : Machine P} {live : Finset Int} (inv : TableInv m live)
    {p q : P} {slot slot' : Fin NPETERSONLOCKS} (scanning : m.frame p = some (.scanning slot))
    (scanning' : m.frame q = some (.scanning slot')) : q = p := by
  have holder := inv.scanning_holds p slot scanning
  have holder' := inv.scanning_holds q slot' scanning'
  rw [holder] at holder'
  exact (Option.some.inj holder').symm

/-! ## Each kind of step keeps the invariant -/

section Steps

variable [DecidableEq P] {m : Machine P} {live : Finset Int} {p : P}

/-- A process that is in no call, or waits in the acquire loop, is not
scanning before or after a region of `sys_peterson_acquire`. -/
theorem scanning_settle_iff {m : Machine P} {p q : P} {slot target : Fin NPETERSONLOCKS}
    {role : Fin 2} {pl : PetersonLock} {outcome : Outcome}
    (notScanning : forall slot', m.frame p ≠ some (.scanning slot')) :
    (m.settle p slot role pl outcome).frame q = some (.scanning target) ↔
      m.frame q = some (.scanning target) := by
  rw [Machine.settle_frame]
  by_cases same : q = p
  · subst same
    simp only [Function.update_self, notScanning target, iff_false]
    split <;> simp
  · simp only [Function.update_of_ne same]

/-- Taking `ptable_lock` starts the only scan, at slot `0`. -/
theorem TableInv.createBegin (inv : TableInv m live) (unlocked : m.ptableLock = none) :
    TableInv { m with ptableLock := some p,
                      frame := Function.update m.frame p (some (.scanning 0)) } live where
  live_iff := inv.live_iff
  active_cases := inv.active_cases
  scanning_holds q slot scanning := by
    by_cases same : q = p
    · rw [same]
    · simp only [Function.update_of_ne same] at scanning
      exact absurd scanning (inv.not_scanning unlocked q slot)
  holder_scanning q holder := by
    cases holder
    exact ⟨0, by simp⟩
  scanned_active q slot scanning earlier before := by
    by_cases same : q = p
    · subst same
      simp only [Function.update_self, Option.some.injEq, Frame.scanning.injEq] at scanning
      subst scanning
      exact absurd before (Nat.not_lt_zero _)
    · simp only [Function.update_of_ne same] at scanning
      exact absurd scanning (inv.not_scanning unlocked q slot)

/-- Taking a free slot makes it active and live, and ends the scan. -/
theorem TableInv.createTake {slot : Fin NPETERSONLOCKS} (inv : TableInv m live)
    (scanning : m.frame p = some (.scanning slot)) (inactive : (m.ptable slot).active = 0) :
    TableInv { ptable := Function.update m.ptable slot ((m.ptable slot).reset 1),
               ptableLock := none, frame := Function.update m.frame p none }
      (insert (slot : Int) live) where
  live_iff value := by
    rw [Finset.mem_insert, inv.live_iff value]
    constructor
    · rintro (taken | ⟨other, named, active⟩)
      · exact ⟨slot, taken.symm, by simp⟩
      · have different : other ≠ slot := by
          intro same
          rw [same, inactive] at active
          cases active
        exact ⟨other, named, by simp only [Function.update_of_ne different]; exact active⟩
    · rintro ⟨other, named, active⟩
      by_cases same : other = slot
      · subst same
        exact Or.inl named.symm
      · simp only [Function.update_of_ne same] at active
        exact Or.inr ⟨other, named, active⟩
  active_cases other := by
    by_cases same : other = slot
    · subst same
      simp
    · simp only [Function.update_of_ne same]
      exact inv.active_cases other
  scanning_holds q slot' scanning' := by
    by_cases same : q = p
    · subst same
      simp at scanning'
    · simp only [Function.update_of_ne same] at scanning'
      exact absurd (inv.scanning_unique scanning scanning') same
  holder_scanning _ holder := by cases holder
  scanned_active q slot' scanning' := by
    by_cases same : q = p
    · subst same
      simp at scanning'
    · simp only [Function.update_of_ne same] at scanning'
      exact absurd (inv.scanning_unique scanning scanning') same

/-- Passing an active slot moves the scan on; the slots behind it stay active. -/
theorem TableInv.createSkip {slot next : Fin NPETERSONLOCKS} (inv : TableInv m live)
    (scanning : m.frame p = some (.scanning slot)) (active : (m.ptable slot).active ≠ 0)
    (following : next.val = slot.val + 1) :
    TableInv { m with frame := Function.update m.frame p (some (.scanning next)) } live where
  live_iff := inv.live_iff
  active_cases := inv.active_cases
  scanning_holds q slot' scanning' := by
    by_cases same : q = p
    · subst same
      exact inv.scanning_holds q slot scanning
    · simp only [Function.update_of_ne same] at scanning'
      exact inv.scanning_holds q slot' scanning'
  holder_scanning q holder := by
    obtain ⟨slot', scanning'⟩ := inv.holder_scanning q holder
    by_cases same : q = p
    · subst same
      exact ⟨next, by simp⟩
    · exact ⟨slot', by simp only [Function.update_of_ne same]; exact scanning'⟩
  scanned_active q slot' scanning' earlier before := by
    by_cases same : q = p
    · subst same
      simp only [Function.update_self, Option.some.injEq, Frame.scanning.injEq] at scanning'
      subst scanning'
      rcases Nat.lt_succ_iff_lt_or_eq.mp (following ▸ before) with passed | current
      · exact inv.scanned_active q slot scanning earlier passed
      · rw [Fin.ext current]
        exact active
    · simp only [Function.update_of_ne same] at scanning'
      exact inv.scanned_active q slot' scanning' earlier before

/-- A scan that passed the last slot ends and drops `ptable_lock`. -/
theorem TableInv.createFull {slot : Fin NPETERSONLOCKS} (inv : TableInv m live)
    (scanning : m.frame p = some (.scanning slot)) :
    TableInv { m with ptableLock := none, frame := Function.update m.frame p none } live where
  live_iff := inv.live_iff
  active_cases := inv.active_cases
  scanning_holds q slot' scanning' := by
    by_cases same : q = p
    · subst same
      simp at scanning'
    · simp only [Function.update_of_ne same] at scanning'
      exact absurd (inv.scanning_unique scanning scanning') same
  holder_scanning _ holder := by cases holder
  scanned_active q slot' scanning' := by
    by_cases same : q = p
    · subst same
      simp at scanning'
    · simp only [Function.update_of_ne same] at scanning'
      exact absurd (inv.scanning_unique scanning scanning') same

/-- A region of `sys_peterson_acquire` writes no `active` field and starts no
scan. -/
theorem TableInv.settle {slot : Fin NPETERSONLOCKS} {role : Fin 2} {pl : PetersonLock}
    {outcome : Outcome} (inv : TableInv m live) (sameActive : pl.active = (m.ptable slot).active)
    (notScanning : forall slot', m.frame p ≠ some (.scanning slot')) :
    TableInv (m.settle p slot role pl outcome) live := by
  apply inv.congr
  · intro other
    by_cases same : other = slot
    · subst same
      simpa using sameActive
    · simp [Function.update_of_ne same]
  · simp
  · intro q target
    exact scanning_settle_iff notScanning

omit [DecidableEq P] in
/-- A successful destroy frees the slot and removes its id from the live set. -/
theorem TableInv.destroy {slot : Fin NPETERSONLOCKS} {lockId : Int} (inv : TableInv m live)
    (named : checkLockId lockId = some slot) (unlocked : m.ptableLock = none)
    (active : (m.ptable slot).active ≠ 0) :
    TableInv { m with ptable := Function.update m.ptable slot ((m.ptable slot).reset 0) }
      (live.erase lockId) where
  live_iff value := by
    have slotNamed := checkLockId_eq_some.mp named
    rw [Finset.mem_erase, inv.live_iff value]
    constructor
    · rintro ⟨notFreed, other, otherNamed, otherActive⟩
      have different : other ≠ slot := by
        rintro rfl
        exact notFreed (otherNamed.symm.trans slotNamed)
      exact ⟨other, otherNamed, by simp only [Function.update_of_ne different]; exact otherActive⟩
    · rintro ⟨other, otherNamed, otherActive⟩
      by_cases same : other = slot
      · subst same
        simp at otherActive
      · simp only [Function.update_of_ne same] at otherActive
        refine ⟨?_, other, otherNamed, otherActive⟩
        rintro rfl
        exact same (Fin.ext (by omega))
  active_cases other := by
    by_cases same : other = slot
    · subst same
      simp
    · simp only [Function.update_of_ne same]
      exact inv.active_cases other
  scanning_holds q slot' scanning' := inv.scanning_holds q slot' scanning'
  holder_scanning q holder := inv.holder_scanning q holder
  scanned_active q slot' scanning' := absurd scanning' (inv.not_scanning unlocked q slot')

end Steps

section Runs

variable [DecidableEq P]

/-- Every step keeps the invariant, with the live set updated by its label. -/
theorem TableInv.step {m m' : Machine P} {live : Finset Int} {label : Label P}
    (inv : TableInv m live) (stepped : Machine.Step m label m') :
    TableInv m' (liveAfter live label) := by
  cases stepped with
  | createBegin _ unlocked => exact inv.createBegin unlocked
  | @createTake p slot scanning inactive =>
      have inserted : liveAfter live ⟨p, .petersonCreate, some (slot : Int)⟩ =
          insert (slot : Int) live := by
        simp only [liveAfter]
        rw [if_neg (by omega)]
      rw [inserted]
      exact inv.createTake scanning inactive
  | createSkip scanning active following => exact inv.createSkip scanning active following
  | createFull scanning _ _ => exact inv.createFull scanning
  | acquireRejected => exact inv
  | acquireEnter free _ =>
      exact inv.settle (acquireEntry_active _ _) (fun _ scanning => by simp [free] at scanning)
  | acquireRecheck waiting =>
      exact inv.settle rfl (fun _ scanning => by simp [waiting] at scanning)
  | release =>
      exact inv.congr (fun slot => sysPetersonRelease_active _ _ _ slot) rfl (fun _ _ => Iff.rfl)
  | destroyRejected => exact inv
  | @destroy _ _ slot _ _ _ named unlocked region =>
      by_cases inactive : (m.ptable slot).active = 0
      · rw [destroyRegion_of_inactive inactive] at region
        cases region
        exact inv
      · rw [destroyRegion_of_active inactive] at region
        cases region
        exact inv.destroy named unlocked inactive

/-- The invariant holds after every run, with the live set its labels report. -/
theorem TableInv.of_run {labels : List (Label P)} {m : Machine P}
    (run : Run Machine.Step Machine.initial labels m) : TableInv m (liveIds labels) :=
  Run.fold_invariant liveAfter (fun live m => TableInv m live) ∅ TableInv.initial
    (fun _ _ _ _ inv stepped => inv.step stepped) run

end Runs

/-! ## What each step promises -/

namespace Machine

/-- The slot a step works on: the one its call names, or the one its process's
frame is at. -/
def target (m : Machine P) (label : Label P) : Option (Fin NPETERSONLOCKS) :=
  match m.frame label.process with
  | some (.waiting slot _) => some slot
  | some (.scanning slot) => some slot
  | none =>
      match label.call with
      | .petersonCreate => none
      | .petersonAcquire lockId _ => checkLockId lockId
      | .petersonRelease lockId _ => checkLockId lockId
      | .petersonDestroy lockId => checkLockId lockId

/-- A step of a call that its arguments or an inactive slot make fail. -/
def Rejected (m : Machine P) (label : Label P) : Prop :=
  match m.frame label.process with
  | some (.waiting slot _) => (m.ptable slot).active = 0
  | some (.scanning _) => False
  | none =>
      match label.call with
      | .petersonCreate => False
      | .petersonAcquire lockId role | .petersonRelease lockId role =>
          match checkArgs lockId role with
          | none => True
          | some (slot, _) => (m.ptable slot).active = 0
      | .petersonDestroy lockId =>
          match checkLockId lockId with
          | none => True
          | some slot => (m.ptable slot).active = 0

end Machine

/-- The promises of a single step of the four calls. -/
structure StepSpec (m : Machine P) (label : Label P) (m' : Machine P) : Prop where
  /-- A create that returns an id returns a slot that was inactive. -/
  create_fresh : label.call = .petersonCreate -> forall value, label.result = some value ->
    value ≠ -1 -> exists slot : Fin NPETERSONLOCKS, (slot : Int) = value ∧ (m.ptable slot).active = 0
  /-- A create returns `-1` only when every slot is active. -/
  create_full : label.call = .petersonCreate -> label.result = some (-1) ->
    forall slot, (m.ptable slot).active ≠ 0
  /-- A destroy returns `0` exactly for an active slot in range. -/
  destroy_iff : forall lockId, label.call = .petersonDestroy lockId ->
    (label.result = some 0 ↔ exists slot, checkLockId lockId = some slot ∧ (m.ptable slot).active ≠ 0)
  /-- A successful destroy leaves its slot inactive with flags and turn zero. -/
  destroy_reset : forall lockId slot, label.call = .petersonDestroy lockId -> label.result = some 0 ->
    checkLockId lockId = some slot -> m'.ptable slot = (m.ptable slot).reset 0
  /-- A rejected call returns `-1` and changes no slot. -/
  rejected : m.Rejected label -> label.result = some (-1) ∧ m'.ptable = m.ptable
  /-- Only the slot the step works on can change. -/
  untouched : forall slot, m.target label ≠ some slot -> m'.ptable slot = m.ptable slot

section Promises

variable [DecidableEq P] {m m' : Machine P} {label : Label P}

theorem Machine.Step.create_fresh (stepped : Machine.Step m label m')
    (creating : label.call = .petersonCreate) (value : Int) (returned : label.result = some value)
    (notFull : value ≠ -1) :
    exists slot : Fin NPETERSONLOCKS, (slot : Int) = value ∧ (m.ptable slot).active = 0 := by
  cases stepped with
  | createTake _ inactive =>
      cases returned
      exact ⟨_, rfl, inactive⟩
  | createFull => cases returned; exact absurd rfl notFull
  | createBegin | createSkip => cases returned
  | acquireRejected | acquireEnter | acquireRecheck | release | destroyRejected | destroy =>
      cases creating

theorem TableInv.create_full {live : Finset Int} (inv : TableInv m live)
    (stepped : Machine.Step m label m') (creating : label.call = .petersonCreate)
    (returned : label.result = some (-1)) (slot : Fin NPETERSONLOCKS) :
    (m.ptable slot).active ≠ 0 := by
  cases stepped with
  | @createFull p last scanning active lastSlot =>
      rcases Nat.lt_or_ge slot.val last.val with before | atLast
      · exact inv.scanned_active p last scanning slot before
      · have same : slot = last := Fin.ext (by omega)
        rw [same]
        exact active
  | createTake => simp at returned
  | createBegin | createSkip => cases returned
  | acquireRejected | acquireEnter | acquireRecheck | release | destroyRejected | destroy =>
      cases creating

theorem Machine.Step.destroy_iff (stepped : Machine.Step m label m') {lockId : Int}
    (destroying : label.call = .petersonDestroy lockId) :
    label.result = some 0 ↔
      exists slot, checkLockId lockId = some slot ∧ (m.ptable slot).active ≠ 0 := by
  cases stepped with
  | destroyRejected _ rejected =>
      cases destroying
      simp [rejected]
  | @destroy _ _ slot _ _ _ named _ region =>
      cases destroying
      by_cases inactive : (m.ptable slot).active = 0
      · rw [destroyRegion_of_inactive inactive] at region
        cases region
        simp [named, inactive]
      · rw [destroyRegion_of_active inactive] at region
        cases region
        simp [named, inactive]
  | createBegin | createTake | createSkip | createFull | acquireRejected | acquireEnter
    | acquireRecheck | release => cases destroying

theorem Machine.Step.destroy_reset (stepped : Machine.Step m label m') {lockId : Int}
    {slot : Fin NPETERSONLOCKS} (destroying : label.call = .petersonDestroy lockId)
    (returned : label.result = some 0) (named : checkLockId lockId = some slot) :
    m'.ptable slot = (m.ptable slot).reset 0 := by
  cases stepped with
  | destroyRejected _ rejected =>
      cases destroying
      rw [named] at rejected
      cases rejected
  | @destroy _ _ slot' _ _ _ named' _ region =>
      cases destroying
      rw [named] at named'
      cases named'
      by_cases inactive : (m.ptable slot).active = 0
      · rw [destroyRegion_of_inactive inactive] at region
        cases region
        cases returned
      · rw [destroyRegion_of_active inactive] at region
        cases region
        simp
  | createBegin | createTake | createSkip | createFull | acquireRejected | acquireEnter
    | acquireRecheck | release => cases destroying

theorem Machine.Step.rejected (stepped : Machine.Step m label m') (rejected : m.Rejected label) :
    label.result = some (-1) ∧ m'.ptable = m.ptable := by
  cases stepped with
  | createBegin free => simp [Machine.Rejected, free] at rejected
  | createTake scanning | createSkip scanning | createFull scanning =>
      simp [Machine.Rejected, scanning] at rejected
  | acquireRejected => exact ⟨rfl, rfl⟩
  | @acquireEnter _ _ _ slot checked free valid =>
      simp only [Machine.Rejected, free, valid] at rejected
      rw [acquireEntry_of_inactive rejected]
      exact ⟨rfl, by simp⟩
  | @acquireRecheck _ slot role waiting =>
      simp only [Machine.Rejected, waiting] at rejected
      rw [acquireTest_of_inactive rejected]
      exact ⟨rfl, by simp⟩
  | @release _ lockId role free =>
      simp only [Machine.Rejected, free] at rejected
      cases valid : checkArgs lockId role with
      | none => simp [sysPetersonRelease_of_rejected valid]
      | some checkedArgs =>
          obtain ⟨slot, checked⟩ := checkedArgs
          rw [valid] at rejected
          simp [sysPetersonRelease_of_checked valid, releaseRegion_of_inactive rejected]
  | destroyRejected => exact ⟨rfl, rfl⟩
  | @destroy _ _ slot _ _ free named _ region =>
      simp only [Machine.Rejected, free, named] at rejected
      rw [destroyRegion_of_inactive rejected] at region
      cases region
      exact ⟨rfl, rfl⟩

theorem Machine.Step.untouched (stepped : Machine.Step m label m') (slot : Fin NPETERSONLOCKS)
    (elsewhere : m.target label ≠ some slot) : m'.ptable slot = m.ptable slot := by
  cases stepped with
  | createBegin | createSkip | createFull | acquireRejected | destroyRejected => rfl
  | createTake scanning =>
      simp only [Machine.target, scanning, ne_eq, Option.some.injEq] at elsewhere
      exact Function.update_of_ne (Ne.symm elsewhere) _ _
  | acquireEnter free valid =>
      simp only [Machine.target, free, checkArgs_lockId valid, ne_eq, Option.some.injEq] at elsewhere
      simp [Function.update_of_ne (Ne.symm elsewhere)]
  | acquireRecheck waiting =>
      simp only [Machine.target, waiting, ne_eq, Option.some.injEq] at elsewhere
      simp [Function.update_of_ne (Ne.symm elsewhere)]
  | @release _ lockId role free =>
      cases valid : checkArgs lockId role with
      | none => simp [sysPetersonRelease_of_rejected valid]
      | some checkedArgs =>
          obtain ⟨target, checked⟩ := checkedArgs
          simp only [Machine.target, free, checkArgs_lockId valid, ne_eq,
            Option.some.injEq] at elsewhere
          simp [sysPetersonRelease_of_checked valid, Function.update_of_ne (Ne.symm elsewhere)]
  | @destroy _ _ target _ _ free named _ region =>
      simp only [Machine.target, free, named, ne_eq, Option.some.injEq] at elsewhere
      by_cases inactive : (m.ptable target).active = 0
      · rw [destroyRegion_of_inactive inactive] at region
        cases region
        rfl
      · rw [destroyRegion_of_active inactive] at region
        cases region
        exact Function.update_of_ne (Ne.symm elsewhere) _ _

/-- The calls of the lock routines: `peterson_acquire` and `peterson_release`. -/
def Syscall.Locking (call : Syscall) : Prop :=
  (exists lockId role, call = .petersonAcquire lockId role) ∨
    exists lockId role, call = .petersonRelease lockId role

/-- Steps of `peterson_acquire` and `peterson_release` write no `active`
field: only create and destroy allocate and free. -/
theorem Machine.Step.active_of_locking (stepped : Machine.Step m label m')
    (locking : label.call.Locking) (slot : Fin NPETERSONLOCKS) :
    (m'.ptable slot).active = (m.ptable slot).active := by
  have notCreate : label.call ≠ .petersonCreate := by
    rcases locking with ⟨_, _, named⟩ | ⟨_, _, named⟩ <;> rw [named] <;> simp
  have notDestroy : forall lockId, label.call ≠ .petersonDestroy lockId := by
    intro lockId
    rcases locking with ⟨_, _, named⟩ | ⟨_, _, named⟩ <;> rw [named] <;> simp
  cases stepped with
  | createBegin | createTake | createSkip | createFull => exact absurd rfl notCreate
  | destroyRejected | destroy => exact absurd rfl (notDestroy _)
  | acquireRejected | release => simp
  | @acquireEnter _ _ _ target =>
      by_cases same : slot = target
      · subst same
        simp
      · simp [Function.update_of_ne same]
  | @acquireRecheck _ target =>
      by_cases same : slot = target
      · subst same
        simp
      · simp [Function.update_of_ne same]

/-- A step of `peterson_acquire` or `peterson_release` does not put its process
into the scan of `peterson_create`. -/
theorem Machine.Step.not_scanning_of_locking (stepped : Machine.Step m label m')
    (locking : label.call.Locking) {slot : Fin NPETERSONLOCKS}
    (wasNot : m.frame label.process ≠ some (.scanning slot)) :
    m'.frame label.process ≠ some (.scanning slot) := by
  have notCreate : label.call ≠ .petersonCreate := by
    rcases locking with ⟨_, _, named⟩ | ⟨_, _, named⟩ <;> rw [named] <;> simp
  cases stepped with
  | createBegin | createTake | createSkip | createFull => exact absurd rfl notCreate
  | acquireRejected | release | destroyRejected | destroy => exact wasNot
  | acquireEnter | acquireRecheck =>
      rw [settle_frame, Function.update_self]
      split <;> simp

/-- Every step from a state that satisfies the invariant keeps all its
promises. -/
theorem TableInv.stepSpec {live : Finset Int} (inv : TableInv m live)
    (stepped : Machine.Step m label m') : StepSpec m label m' where
  create_fresh := stepped.create_fresh
  create_full := inv.create_full stepped
  destroy_iff _ := stepped.destroy_iff
  destroy_reset _ _ := stepped.destroy_reset
  rejected := stepped.rejected
  untouched := stepped.untouched

end Promises

/-- The lock table over every run from `peterson_init`, by any processes
making any of the four calls in any interleaving: the active slots are the
live allocations, and every further step keeps the promises of a single call. -/
theorem lockTable_runs {P : Type*} [DecidableEq P] {labels : List (Label P)} {m : Machine P}
    (run : Run Machine.Step Machine.initial labels m) :
    (forall value, value ∈ liveIds labels ↔
      exists slot : Fin NPETERSONLOCKS, (slot : Int) = value ∧ (m.ptable slot).active = 1) ∧
    (forall label m', Machine.Step m label m' -> StepSpec m label m') := by
  have inv := TableInv.of_run run
  exact ⟨inv.live_iff, fun _ _ stepped => inv.stepSpec stepped⟩

/-- From `peterson_init`: process `a` creates a lock, which takes slot `0`, and
acquires it with role `0`; process `b` then enters with role `1` and waits. -/
def createAndWait (a b : P) : List (Label P) :=
  [⟨a, .petersonCreate, none⟩, ⟨a, .petersonCreate, some 0⟩, ⟨a, .petersonAcquire 0 0, some 0⟩,
   ⟨b, .petersonAcquire 0 1, none⟩]

/-- Along `createAndWait 0 1`, slot `0` is the one live allocation, and process
`1` waits on it. -/
theorem lockTable_runs_createAndWait :
    exists m : Machine (Fin 2), Run Machine.Step Machine.initial (createAndWait 0 1) m ∧
      liveIds (createAndWait (0 : Fin 2) 1) = {0} ∧ m.frame 1 = some (.waiting 0 1) ∧
      (forall value, value ∈ liveIds (createAndWait 0 1) ↔
        exists slot : Fin NPETERSONLOCKS, (slot : Int) = value ∧ (m.ptable slot).active = 1) ∧
      (forall label m', Machine.Step m label m' -> StepSpec m label m') := by
  have begun := Run.single (@Machine.Step.createBegin (Fin 2) _ Machine.initial 0 rfl rfl)
  have created := Run.snoc begun (@Machine.Step.createTake _ _ _ 0 0 rfl rfl)
  have taken := Run.snoc created (@Machine.Step.acquireEnter _ _ _ 0 0 0 0 0 rfl rfl)
  -- the entry of process `1` sees the flag of process `0` and the turn it gave away
  have waits := Run.snoc taken (@Machine.Step.acquireEnter _ _ _ 1 0 1 0 1 rfl rfl)
  exact ⟨_, waits, by decide, rfl, lockTable_runs waits⟩

end Kernel
end Xv6Peterson
