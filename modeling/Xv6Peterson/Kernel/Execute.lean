import Xv6Peterson.Kernel.Machine

namespace Xv6Peterson
namespace Kernel

/-!
# The machine's steps, computed

`Machine.Step` is a relation because the scheduler chooses which process runs
next.  Once the process and the call it makes are fixed, the step is
determined: a process inside a call continues it, and a process in no call
starts the call it names.  `Machine.next` computes that step, and
`Machine.step_iff_next` shows that it is exactly the relation.  Two processes
may still be blocked: one that would take `ptable_lock` while another holds it,
and one named with a call other than the call it is in.

The function makes the model executable, so that a schedule can be run on a
concrete state and its runs built by evaluation.

A `peterson_create` that no other process interleaves with is one step that
takes `ptable_lock`, a scan of one step per slot, and one step that returns.
Its result is that of `sysPetersonCreate`, the call as one function, which the
models of the user programs use (`createAlone`).
-/

variable {P : Type*} [DecidableEq P]

namespace Machine

/-- The next atomic step of process `p` in the call `call`: its label and the
state after it, or `none` when the process cannot take one. -/
def next (m : Machine P) (p : P) (call : Syscall) : Option (Label P × Machine P) :=
  match m.frame p with
  | some (.waiting slot role) =>
      if call = .petersonAcquire slot role then
        some (⟨p, call, (acquireTest (m.ptable slot) role).result⟩,
          m.settle p slot role (m.ptable slot) (acquireTest (m.ptable slot) role))
      else none
  | some (.scanning slot) =>
      if call = .petersonCreate then
        if (m.ptable slot).active = 0 then
          some (⟨p, call, some slot⟩,
            { ptable := Function.update m.ptable slot ((m.ptable slot).reset 1),
              ptableLock := none, frame := Function.update m.frame p none })
        else if following : slot.val + 1 < NPETERSONLOCKS then
          some (⟨p, call, none⟩,
            { m with frame := Function.update m.frame p (some (.scanning ⟨slot.val + 1, following⟩)) })
        else
          some (⟨p, call, some (-1)⟩,
            { m with ptableLock := none, frame := Function.update m.frame p none })
      else none
  | none =>
      match call with
      | .petersonCreate =>
          if m.ptableLock = none then
            some (⟨p, call, none⟩,
              { m with ptableLock := some p,
                       frame := Function.update m.frame p (some (.scanning 0)) })
          else none
      | .petersonAcquire lockId role =>
          match checkArgs lockId role with
          | none => some (⟨p, call, some (-1)⟩, m)
          | some (slot, checked) =>
              some (⟨p, call, (acquireEntry (m.ptable slot) checked).2.result⟩,
                m.settle p slot checked (acquireEntry (m.ptable slot) checked).1
                  (acquireEntry (m.ptable slot) checked).2)
      | .petersonRelease lockId role =>
          some (⟨p, call, some (sysPetersonRelease m.ptable lockId role).2⟩,
            { m with ptable := (sysPetersonRelease m.ptable lockId role).1 })
      | .petersonDestroy lockId =>
          match checkLockId lockId with
          | none => some (⟨p, call, some (-1)⟩, m)
          | some slot =>
              if m.ptableLock = none then
                match destroyRegion m.ptable slot with
                | .ok (ptable, value) => some (⟨p, call, some value⟩, { m with ptable := ptable })
                | .error _ => none
              else none

/-- Every computed step is a step of the machine. -/
theorem step_of_next {m m' : Machine P} {label : Label P}
    (computed : m.next label.process label.call = some (label, m')) : Step m label m' := by
  obtain ⟨p, call, result⟩ := label
  unfold next at computed
  split at computed
  · rename_i slot role waiting
    split at computed
    · rename_i named
      cases computed
      subst named
      exact Step.acquireRecheck waiting
    · cases computed
  · rename_i slot scanning
    split at computed
    · rename_i named
      subst named
      split at computed
      · rename_i inactive
        cases computed
        exact Step.createTake scanning inactive
      · rename_i active
        split at computed
        · rename_i following
          cases computed
          exact Step.createSkip scanning active rfl
        · rename_i last
          cases computed
          exact Step.createFull scanning active (by omega)
    · cases computed
  · rename_i idle
    -- a process in no call starts the call it is named with
    cases call with
    | petersonCreate =>
        dsimp only at computed
        split at computed
        · rename_i unlocked
          cases computed
          exact Step.createBegin idle unlocked
        · cases computed
    | petersonAcquire lockId role =>
        dsimp only at computed
        split at computed
        · rename_i rejected
          cases computed
          exact Step.acquireRejected idle rejected
        · rename_i slot checked valid
          cases computed
          exact Step.acquireEnter idle valid
    | petersonRelease lockId role =>
        cases computed
        exact Step.release idle
    | petersonDestroy lockId =>
        dsimp only at computed
        split at computed
        · rename_i rejected
          cases computed
          exact Step.destroyRejected idle rejected
        · rename_i slot named
          split at computed
          · rename_i unlocked
            split at computed
            · rename_i ptable value region
              cases computed
              exact Step.destroy idle named unlocked region
            · cases computed
          · cases computed

/-- Every step of the machine is the computed step of its process and call. -/
theorem next_of_step {m m' : Machine P} {label : Label P} (stepped : Step m label m') :
    m.next label.process label.call = some (label, m') := by
  cases stepped with
  | createBegin idle unlocked => simp [next, idle, unlocked]
  | createTake scanning inactive => simp [next, scanning, inactive]
  | @createSkip p slot following scanning active successor =>
      have inRange : slot.val + 1 < NPETERSONLOCKS := successor ▸ following.isLt
      have same : (⟨slot.val + 1, inRange⟩ : Fin NPETERSONLOCKS) = following := Fin.ext successor.symm
      simp [next, scanning, active, inRange, same]
  | createFull scanning active last => simp [next, scanning, active, last]
  | acquireRejected idle rejected => simp [next, idle, rejected]
  | acquireEnter idle valid => simp [next, idle, valid]
  | acquireRecheck waiting => simp [next, waiting]
  | release idle => simp [next, idle]
  | destroyRejected idle rejected => simp [next, idle, rejected]
  | destroy idle named unlocked region => simp [next, idle, named, unlocked, region]

/-- Once the scheduler has chosen a process and its call, the machine's step
is the computed one. -/
theorem step_iff_next {m m' : Machine P} {label : Label P} :
    Step m label m' ↔ m.next label.process label.call = some (label, m') :=
  ⟨next_of_step, step_of_next⟩

/-! ## Calls on an active lock -/

/-- An acquire that its process starts with valid arguments is the entry
region. -/
theorem Step.acquire_entry {m m' : Machine P} {label : Label P} (stepped : Step m label m')
    (idle : m.frame label.process = none) {lockId role : Int}
    (acquiring : label.call = .petersonAcquire lockId role) {slot : Fin NPETERSONLOCKS}
    {checked : Fin 2} (valid : checkArgs lockId role = some (slot, checked)) :
    label.result = (acquireEntry (m.ptable slot) checked).2.result ∧
      m' = m.settle label.process slot checked (acquireEntry (m.ptable slot) checked).1
        (acquireEntry (m.ptable slot) checked).2 := by
  cases stepped with
  | acquireRejected _ rejected =>
      simp only [Syscall.petersonAcquire.injEq] at acquiring
      obtain ⟨rfl, rfl⟩ := acquiring
      rw [valid] at rejected
      cases rejected
  | @acquireEnter p lockId' role' target checked' _ valid' =>
      simp only [Syscall.petersonAcquire.injEq] at acquiring
      obtain ⟨rfl, rfl⟩ := acquiring
      rw [valid] at valid'
      cases valid'
      exact ⟨rfl, rfl⟩
  | acquireRecheck waiting => simp [waiting] at idle
  | createBegin | createTake | createSkip | createFull | release | destroyRejected | destroy =>
      cases acquiring

/-- A step of `peterson_acquire` on an active lock either leaves its process
in the wait loop or returns `0`. -/
theorem Step.acquire_active {m m' : Machine P} {label : Label P} (stepped : Step m label m')
    {lockId role : Int} (acquiring : label.call = .petersonAcquire lockId role)
    {slot : Fin NPETERSONLOCKS} {checked : Fin 2} (valid : checkArgs lockId role = some (slot, checked))
    (active : (m.ptable slot).active ≠ 0) :
    (label.result = none ∧ m'.frame label.process = some (.waiting slot checked)) ∨
      (label.result = some 0 ∧ m'.frame label.process = none) := by
  cases stepped with
  | acquireRejected _ rejected =>
      simp only [Syscall.petersonAcquire.injEq] at acquiring
      obtain ⟨rfl, rfl⟩ := acquiring
      rw [valid] at rejected
      cases rejected
  | @acquireEnter p lockId' role' target checked' idle valid' =>
      simp only [Syscall.petersonAcquire.injEq] at acquiring
      obtain ⟨rfl, rfl⟩ := acquiring
      rw [valid] at valid'
      cases valid'
      rw [acquireEntry_of_active active]
      by_cases blocked : ((m.ptable slot).enter checked).waitCondition checked
      · left
        simp [blocked, Outcome.result, settle_frame]
      · right
        simp [blocked, Outcome.result, settle_frame]
  | @acquireRecheck p target checked' waiting =>
      simp only [Syscall.petersonAcquire.injEq] at acquiring
      obtain ⟨rfl, rfl⟩ := acquiring
      rw [checkArgs_slot] at valid
      cases valid
      rw [acquireTest_of_active active]
      by_cases blocked : (m.ptable slot).waitCondition checked
      · left
        simp [blocked, Outcome.result, settle_frame]
      · right
        simp [blocked, Outcome.result, settle_frame]
  | createBegin | createTake | createSkip | createFull | release | destroyRejected | destroy =>
      cases acquiring

/-- A test of the wait loop that yields again leaves the machine as it was:
the region writes back the lock it read and keeps the process waiting.  It
yields only while the wait condition holds. -/
theorem Step.recheck_yields {m m' : Machine P} {label : Label P} (stepped : Step m label m')
    {slot : Fin NPETERSONLOCKS} {role : Fin 2}
    (waiting : m.frame label.process = some (.waiting slot role)) (yields : label.result = none) :
    m' = m ∧ (m.ptable slot).waitCondition role := by
  cases stepped with
  | @acquireRecheck p slot' role' waiting' =>
      simp only at waiting yields
      rw [waiting, Option.some.injEq, Frame.waiting.injEq] at waiting'
      obtain ⟨rfl, rfl⟩ := waiting'
      unfold acquireTest at yields ⊢
      by_cases blocked : (m.ptable slot).waitCondition role
      · by_cases inactive : (m.ptable slot).active = 0
        · simp [blocked, inactive, Outcome.result] at yields
        · refine ⟨?_, blocked⟩
          simp only [blocked, inactive, if_true, if_false, settle, Function.update_eq_self]
          rw [← waiting, Function.update_eq_self]
      · simp only [blocked, if_false] at yields
        split at yields <;> simp [Outcome.result] at yields
  | createBegin idle | acquireRejected idle | acquireEnter idle | release idle
  | destroyRejected idle | destroy idle => simp [idle] at waiting
  | createTake scanning | createSkip scanning | createFull scanning => simp [scanning] at waiting

/-- A test of the wait loop writes back the lock it read, whatever it returns. -/
theorem Step.recheck_ptable {m m' : Machine P} {label : Label P} (stepped : Step m label m')
    {slot : Fin NPETERSONLOCKS} {role : Fin 2}
    (waiting : m.frame label.process = some (.waiting slot role)) : m'.ptable = m.ptable := by
  cases stepped with
  | acquireRecheck => simp
  | createBegin idle | acquireRejected idle | acquireEnter idle | release idle
  | destroyRejected idle | destroy idle => simp [idle] at waiting
  | createTake scanning | createSkip scanning | createFull scanning => simp [scanning] at waiting

/-- A test of the wait loop returns `0` only when the wait condition is false. -/
theorem Step.recheck_opens {m m' : Machine P} {label : Label P} (stepped : Step m label m')
    {slot : Fin NPETERSONLOCKS} {role : Fin 2}
    (waiting : m.frame label.process = some (.waiting slot role)) (returned : label.result = some 0) :
    ¬ (m.ptable slot).waitCondition role := by
  cases stepped with
  | @acquireRecheck p slot' role' waiting' =>
      simp only at waiting returned
      rw [waiting, Option.some.injEq, Frame.waiting.injEq] at waiting'
      obtain ⟨rfl, rfl⟩ := waiting'
      intro blocked
      unfold acquireTest at returned
      rw [if_pos blocked] at returned
      split at returned <;> simp [Outcome.result] at returned
  | createBegin idle | acquireRejected idle | acquireEnter idle | release idle
  | destroyRejected idle | destroy idle => simp [idle] at waiting
  | createTake scanning | createSkip scanning | createFull scanning => simp [scanning] at waiting

/-- A `peterson_release` on an active lock returns `0`, and its process stays
in no call. -/
theorem Step.release_active {m m' : Machine P} {label : Label P} (stepped : Step m label m')
    {lockId role : Int} (releasing : label.call = .petersonRelease lockId role)
    {slot : Fin NPETERSONLOCKS} {checked : Fin 2} (valid : checkArgs lockId role = some (slot, checked))
    (active : (m.ptable slot).active ≠ 0) :
    label.result = some 0 ∧ m'.frame label.process = m.frame label.process := by
  cases stepped with
  | release idle =>
      simp only [Syscall.petersonRelease.injEq] at releasing
      obtain ⟨rfl, rfl⟩ := releasing
      simp [sysPetersonRelease_of_checked valid, releaseRegion_of_active active]
  | createBegin | createTake | createSkip | createFull | acquireRejected | acquireEnter
  | acquireRecheck | destroyRejected | destroy => cases releasing

/-- A `peterson_destroy` of an active lock returns `0` and resets its slot;
nothing else of the machine changes. -/
theorem Step.destroy_active {m m' : Machine P} {label : Label P} (stepped : Step m label m')
    {lockId : Int} (destroying : label.call = .petersonDestroy lockId) {slot : Fin NPETERSONLOCKS}
    (named : checkLockId lockId = some slot) (active : (m.ptable slot).active ≠ 0) :
    label.result = some 0 ∧
      m' = { m with ptable := Function.update m.ptable slot ((m.ptable slot).reset 0) } := by
  cases stepped with
  | destroyRejected _ rejected =>
      cases destroying
      rw [named] at rejected
      cases rejected
  | @destroy _ _ slot' _ _ _ named' _ region =>
      cases destroying
      rw [named] at named'
      cases named'
      rw [destroyRegion_of_active active] at region
      cases region
      exact ⟨rfl, rfl⟩
  | createBegin | createTake | createSkip | createFull | acquireRejected | acquireEnter
  | acquireRecheck | release => cases destroying

/-- Only `peterson_create` takes and drops `ptable_lock`: every other call
leaves its holder as it is. -/
theorem Step.ptableLock_of_ne_create {m m' : Machine P} {label : Label P} (stepped : Step m label m')
    (notCreate : label.call ≠ .petersonCreate) : m'.ptableLock = m.ptableLock := by
  cases stepped with
  | createBegin | createTake | createSkip | createFull => exact absurd rfl notCreate
  | acquireEnter | acquireRecheck => exact settle_ptableLock _ _ _ _ _ _
  | acquireRejected | release | destroyRejected | destroy => rfl

/-! ## A create that runs alone -/

open Transition in
/-- The steps of a `peterson_create` of process `p` before it returns: the
table is untouched, and `p` has not begun, or scans a slot that only active
slots precede. -/
theorem createScan_run {m middle : Machine P} {p : P} {labels : List (Label P)}
    (idle : m.frame p = none) (run : Run Step m labels middle)
    (own : forall label, label ∈ labels -> label = ⟨p, .petersonCreate, none⟩) :
    middle.ptable = m.ptable ∧
      (middle.frame p = none ∨ exists slot, middle.frame p = some (.scanning slot) ∧
        forall j : Fin NPETERSONLOCKS, j.val < slot.val -> (m.ptable j).active ≠ 0) := by
  induction run with
  | nil => exact ⟨rfl, Or.inl idle⟩
  | @snoc labels before after label earlier stepped inductionHypothesis =>
      obtain ⟨sameTable, scan⟩ :=
        inductionHypothesis fun other member => own other (List.mem_append_left _ member)
      have named := own label (by simp)
      subst named
      cases stepped with
      | createBegin =>
          exact ⟨sameTable, Or.inr ⟨(0 : Fin NPETERSONLOCKS), by simp, fun j below => by simp at below⟩⟩
      | @createSkip _ slot next scanning active successor =>
          refine ⟨sameTable, Or.inr ⟨next, by simp, fun j below => ?_⟩⟩
          rcases scan with idleNow | ⟨current, scanningNow, passed⟩
          · rw [idleNow] at scanning
            cases scanning
          rw [scanningNow] at scanning
          cases scanning
          -- the slots before `next` are those before `current`, and `current` itself
          rcases Nat.lt_or_ge j.val slot.val with earlierSlot | atCurrent
          · exact passed j earlierSlot
          · have same : j = slot := Fin.ext (by omega)
            rw [same, ← sameTable]
            exact active

open Transition in
/-- A `peterson_create` that runs alone does what `sysPetersonCreate` says:
the scan returns the first inactive slot and allocates it, or returns `-1`
with the table unchanged when every slot is active. -/
theorem createAlone {m m' : Machine P} {p : P} {labels : List (Label P)} {value : Int}
    (idle : m.frame p = none)
    (run : Run Step m (labels ++ [⟨p, .petersonCreate, some value⟩]) m')
    (own : forall label, label ∈ labels -> label = ⟨p, .petersonCreate, none⟩) :
    (m'.ptable, value) = sysPetersonCreate m.ptable := by
  obtain ⟨middle, scanned, last⟩ := Run.last_step run
  obtain ⟨sameTable, scan⟩ := createScan_run idle scanned own
  cases last with
  | @createTake _ slot scanning inactive =>
      rcases scan with idleNow | ⟨current, scanningNow, passed⟩
      · rw [idleNow] at scanning
        cases scanning
      rw [scanningNow] at scanning
      cases scanning
      rw [sameTable] at inactive ⊢
      simp only [sysPetersonCreate, petersonAlloc_of_first inactive passed]
  | @createFull _ slot scanning active lastSlot =>
      rcases scan with idleNow | ⟨current, scanningNow, passed⟩
      · rw [idleNow] at scanning
        cases scanning
      rw [scanningNow] at scanning
      cases scanning
      have full : forall j, (m.ptable j).active ≠ 0 := by
        intro j
        rcases Nat.lt_or_ge j.val slot.val with before | atLast
        · exact passed j before
        · have same : j = slot := Fin.ext (by omega)
          rw [same, ← sameTable]
          exact active
      simp only [sysPetersonCreate, petersonAlloc_of_full full]
      rw [← sameTable]

open Transition in
/-- After boot, process `0` creates a lock: it begins, finds slot `0` free and
takes it. -/
theorem createAlone_afterBoot :
    exists m', Run Step (initial : Machine (Fin 2))
        ([⟨0, .petersonCreate, none⟩] ++ [⟨0, .petersonCreate, some 0⟩]) m' ∧
      (initial : Machine (Fin 2)).frame 0 = none ∧
      (forall label, label ∈ [(⟨0, .petersonCreate, none⟩ : Label (Fin 2))] ->
        label = ⟨0, .petersonCreate, none⟩) ∧
      (m'.ptable, (0 : Int)) = sysPetersonCreate (initial : Machine (Fin 2)).ptable := by
  have begun := Run.single (show Step (initial : Machine (Fin 2)) ⟨0, .petersonCreate, none⟩ _ from
    step_of_next rfl)
  have taken := Run.snoc begun (show Step _ ⟨0, .petersonCreate, some 0⟩ _ from step_of_next rfl)
  have own : forall label, label ∈ [(⟨0, .petersonCreate, none⟩ : Label (Fin 2))] ->
      label = ⟨0, .petersonCreate, none⟩ := fun label member => List.mem_singleton.mp member
  exact ⟨_, taken, rfl, own, createAlone rfl taken own⟩

end Machine

end Kernel
end Xv6Peterson
