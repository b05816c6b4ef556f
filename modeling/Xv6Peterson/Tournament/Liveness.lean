import Xv6Peterson.Tournament.Fairness
import Xv6Peterson.Transition.Fair

namespace Xv6Peterson
namespace Tournament

open Transition Kernel Peterson Word

/-!
# Every process gets the tournament lock under a fair scheduler

A process in the wait loop of `peterson_acquire` yields and stays runnable,
so in the runs of rounds from the state `tournament_create` leaves every
process can always step (`TreeInv.enabled`).  Under a scheduler that passes
over no such process forever, every process enters its critical section again
and again; in particular `tournament_acquire` always returns.

The argument goes by levels, from the root down.  A process waiting at a
level whose wait condition is false passes it at its next step, and the
condition stays false while it waits (`SlotMove.keeps_open`).  A process
whose wait condition holds is blocked by the one process registered with the
other role on that lock (`BlockedBy`).  That process either waits on the same
lock with its own condition false, and passes it, or holds the lock and
stands nearer the root.  By induction it reaches its critical section, and it
then releases the levels of its path one by one until it releases this lock,
which clears the blocked process's condition.  Until then nobody else can
register on the lock, so the blocked process stays blocked by the same
process.
-/

variable {P : Type*}

/-- The other processes keep their phases on every slot. -/
theorem phases_of_stepBy_other [DecidableEq P] {U : Type*} {program : Program P U} {held : U -> Holding}
    {s s' : System P U} {label : Option (Label P)} {z a : P} (stepped : program.StepBy z s label s')
    (other : a ≠ z) (slot : Fin NPETERSONLOCKS) :
    phases held s' slot a = phases held s slot a := by
  simp only [phases, phaseMap, Function.comp, (stepped.other other).1, (stepped.other other).2]

/-- Process `p` is in a round: it has left its remainder section.  The steps
that lead a process to its critical section are all taken by busy processes,
so a scheduler needs to be fair only to them. -/
def Busy (p : P) (s : System P Process) : Prop :=
  (s.user p).point ≠ .remainder

theorem busy_of_point {p : P} {s : System P Process} {point : Point}
    (atPoint : (s.user p).point = point) (busy : point ≠ .remainder) : Busy p s := by
  unfold Busy
  rw [atPoint]
  exact busy

namespace Layout

variable {t : Layout P}

/-! ## The levels as `int`s -/

theorem level_injective {d e : Nat} (dSmall : d ≤ 30) (eSmall : e ≤ 30)
    (same : Int32.ofNat d = Int32.ofNat e) : d = e := by
  have values := congrArg Int32.toInt same
  rw [toInt_ofNat_level dSmall, toInt_ofNat_level eSmall] at values
  omega

theorem level_ne_neg_one {d : Nat} (small : d ≤ 30) : Int32.ofNat d ≠ -1 := by
  intro same
  have values := congrArg Int32.toInt same
  rw [toInt_ofNat_level small, show (-1 : Int32).toInt = -1 by decide] at values
  omega

theorem level_sub_one {e : Nat} (small : e < 30) : Int32.ofNat (e + 1) - 1 = Int32.ofNat e := by
  rw [← ofNat_add_one small]
  simp

/-! ## Where a process stands, by its point -/

/-- At the test of level `depth` of the acquire loop a process is in no call or
waits at that level, and holds the levels below it. -/
theorem Stand.of_acquiring {p : P} {depth : Nat} {frame : Option Frame} {held : Holding}
    (depthLt : depth < t.height) (stand : Stand t p (.acquiring (.ofNat depth)) frame held) :
    (frame = none ∨ frame = some (.waiting (t.slot p depth) (t.role p depth))) ∧
      held = t.heldFrom p (depth + 1) := by
  have small := t.depth_lt_thirty depthLt
  generalize inPoint : Point.acquiring (.ofNat depth) = point at stand
  cases stand with
  | @entering e eLt =>
      injection inPoint with same
      obtain rfl := level_injective (by omega) (Nat.le_of_lt (t.depth_lt_thirty eLt)) same
      exact ⟨Or.inl rfl, rfl⟩
  | @waiting e eLt =>
      injection inPoint with same
      obtain rfl := level_injective (by omega) (Nat.le_of_lt (t.depth_lt_thirty eLt)) same
      exact ⟨Or.inr rfl, rfl⟩
  | acquired =>
      injection inPoint with same
      exact absurd same (level_ne_neg_one (by omega))
  | remainder | critical | releasing => cases inPoint

theorem Stand.of_acquired {p : P} {frame : Option Frame} {held : Holding}
    (stand : Stand t p (.acquiring (-1)) frame held) : frame = none ∧ held = t.heldFrom p 0 := by
  generalize inPoint : Point.acquiring (-1) = point at stand
  cases stand with
  | @entering e eLt | @waiting e eLt =>
      injection inPoint with same
      exact absurd same.symm (level_ne_neg_one (Nat.le_of_lt (t.depth_lt_thirty eLt)))
  | acquired => exact ⟨rfl, rfl⟩
  | remainder | critical | releasing => cases inPoint

/-- At level `depth` of the release loop a process is in no call and holds the
levels from `depth` on. -/
theorem Stand.of_releasing {p : P} {depth : Nat} {frame : Option Frame} {held : Holding}
    (depthLe : depth ≤ t.height) (stand : Stand t p (.releasing (.ofNat depth)) frame held) :
    frame = none ∧ held = t.heldFrom p depth := by
  have small := t.height_le_thirty
  generalize inPoint : Point.releasing (.ofNat depth) = point at stand
  cases stand with
  | @releasing e eLe =>
      injection inPoint with same
      obtain rfl := level_injective (by omega) (by omega) same
      exact ⟨rfl, rfl⟩
  | remainder | entering | waiting | acquired | critical => cases inPoint

/-! ## The predicates of the argument -/

/-- Process `p` waits in the acquire of level `depth`. -/
def Waiting (t : Layout P) (p : P) (depth : Nat) (s : System P Process) : Prop :=
  s.machine.frame p = some (.waiting (t.slot p depth) (t.role p depth))

/-- Process `p` waits at level `depth`, and its wait condition is false. -/
def Open (t : Layout P) (p : P) (depth : Nat) (s : System P Process) : Prop :=
  Waiting t p depth s ∧ ¬ (s.machine.ptable (t.slot p depth)).waitCondition (t.role p depth)

/-- Process `p` waits at level `depth` with its wait condition true, and `q` is
registered on that lock with the other role. -/
def BlockedBy (t : Layout P) (p q : P) (depth : Nat) (s : System P Process) : Prop :=
  Waiting t p depth s ∧ (s.machine.ptable (t.slot p depth)).waitCondition (t.role p depth) ∧
    (phases Process.held s (t.slot p depth) q).role = some (t.role p depth).rev

/-- The other role of a lock, as `BlockedBy` names it. -/
theorem role_rev (r : Fin 2) : r.rev = 1 - r := by
  fin_cases r <;> rfl

/-- Process `p` has passed level `depth` of the acquire loop. -/
def Passed (p : P) (depth : Nat) (s : System P Process) : Prop :=
  (s.user p).point = .acquiring (.ofNat depth - 1)

section States

variable {s : System P Process}

theorem TreeInv.point_of_waiting (inv : TreeInv t s) {p : P} {depth : Nat}
    (depthLt : depth < t.height) (waiting : Waiting t p depth s) :
    (s.user p).point = .acquiring (.ofNat depth) := by
  have stand := inv.stand p
  rw [show s.machine.frame p = _ from waiting] at stand
  obtain ⟨e, eLt, atLevel, same⟩ := stand.of_some
  simp only [Frame.waiting.injEq] at same
  obtain rfl := slot_injective_depth p depthLt eLt same.1
  exact atLevel

/-- Having passed level `depth`, a process holds its lock. -/
theorem TreeInv.holds_of_passed (inv : TreeInv t s) {q : P} {depth : Nat}
    (depthLt : depth < t.height) (passed : Passed q depth s) :
    (s.user q).held (t.slot q depth) = some (t.role q depth) := by
  have stand := inv.stand q
  unfold Passed at passed
  rw [passed] at stand
  cases depth with
  | zero =>
      rw [show Int32.ofNat 0 - 1 = -1 by decide] at stand
      rw [stand.of_acquired.2]
      exact heldFrom_eq_some.mpr ⟨0, le_refl _, depthLt, rfl, rfl⟩
  | succ e =>
      rw [level_sub_one (t.depth_lt_thirty (show e < t.height by omega))] at stand
      rw [(stand.of_acquiring (by omega)).2]
      exact heldFrom_eq_some.mpr ⟨e + 1, le_refl _, depthLt, rfl, rfl⟩

/-- Once it has released level `depth`, a process is no longer registered on
its lock. -/
theorem TreeInv.not_registered_of_released (inv : TreeInv t s) {q : P} {depth : Nat}
    (depthLt : depth < t.height) (released : (s.user q).point = .releasing (.ofNat (depth + 1)))
    (r : Fin 2) : (phases Process.held s (t.slot q depth) q).role ≠ some r := by
  have stand := inv.stand q
  rw [released] at stand
  obtain ⟨idle, heldIs⟩ := stand.of_releasing depthLt
  have free : (s.user q).held (t.slot q depth) = none := by
    rw [heldIs]
    exact heldFrom_eq_none.mpr fun e low eLt same => by
      have := slot_injective_depth q eLt depthLt same
      omega
  simp [phases, phaseMap, idle, free, heldPhase]

/-- A process registered on the lock of `p`'s level `depth` meets it at the same
depth of its own path. -/
theorem TreeInv.registered_depth (inv : TreeInv t s) {p q : P} {depth : Nat} {r : Fin 2}
    (depthLt : depth < t.height) (registered : (phases Process.held s (t.slot p depth) q).role = some r) :
    t.slot q depth = t.slot p depth ∧ t.role q depth = r := by
  obtain ⟨e, eLt, sameSlot, sameRole, -⟩ := (inv.stand q).registered registered
  obtain ⟨rfl, -⟩ :=
    nodeSlot_eq_slot depthLt (Tree.ancestor_lt (t.leaf_lt p) (Nat.le_of_lt depthLt)) eLt sameSlot
  exact ⟨sameSlot.symm, sameRole.symm⟩

end States

/-! ## What a process's own step does -/

variable [DecidableEq P]

section Own

variable {s s' : System P Process} {label : Option (Label P)} {p : P}

theorem internal_enabled {point : Point} (idle : s.machine.frame p = none)
    (advanced : advance (t.globals p) (s.user p).point = some point) :
    Enabled (rounds t.globals).StepBy p s :=
  ⟨none, _, Program.StepBy.internal idle
    (show (rounds t.globals).internal p (s.user p) ⟨point, (s.user p).held⟩ from ⟨advanced, rfl⟩)⟩

/-- Every process can always step: each point it stands at names a user step,
or a call that the locks it holds allow. -/
theorem TreeInv.enabled (inv : TreeInv t s) (p : P) : Enabled (rounds t.globals).StepBy p s := by
  have stand := inv.stand p
  generalize pointIs : (s.user p).point = point at stand
  generalize frameIs : s.machine.frame p = frame at stand
  generalize heldIs : (s.user p).held = held at stand
  cases stand with
  | remainder => exact internal_enabled frameIs (by rw [pointIs]; exact advance_remainder p)
  | acquired => exact internal_enabled frameIs (by rw [pointIs]; exact advance_acquired _)
  | critical => exact internal_enabled frameIs (by rw [pointIs]; exact advance_critical p)
  | @entering depth depthLt =>
      -- the entry region of the acquire of level `depth`, on a slot it does not hold
      have valid := checkArgs_layout p depthLt
      have free : (s.user p).held (t.slot p depth) = none := by
        rw [heldIs]
        exact heldFrom_eq_none.mpr fun e low eLt same => by
          have := slot_injective_depth p eLt depthLt same
          omega
      exact ⟨_, _, Program.StepBy.call (by rfl)
        (fun _ => ⟨by rw [pointIs]; exact callAt_acquiring p depthLt,
          (allowed_acquire_iff valid).mpr free⟩)
        (Machine.Step.acquireEnter frameIs valid)⟩
  | waiting =>
      exact ⟨_, _, Program.StepBy.call (by rfl) (fun idle => by rw [frameIs] at idle; cases idle)
        (Machine.Step.acquireRecheck frameIs)⟩
  | @releasing depth depthLe =>
      by_cases top : depth = t.height
      · subst top
        exact internal_enabled frameIs (by rw [pointIs]; exact advance_releasing_top p)
      -- the release of level `depth`, which it holds
      have depthLt : depth < t.height := by omega
      have valid := checkArgs_layout p depthLt
      have holds : (s.user p).held (t.slot p depth) = some (t.role p depth) := by
        rw [heldIs]
        exact heldFrom_eq_some.mpr ⟨depth, le_refl _, depthLt, rfl, rfl⟩
      exact ⟨_, _, Program.StepBy.call (by rfl)
        (fun _ => ⟨by rw [pointIs]; exact callAt_releasing p depthLt,
          (allowed_release_iff valid).mpr holds⟩)
        (@Machine.Step.release P _ s.machine p (t.lockId p depth).toInt (t.role p depth).val frameIs)⟩

/-- A process in no call at a point without a call takes the user step the
point names. -/
theorem point_of_advance (stepped : (rounds t.globals).StepBy p s label s')
    (idle : s.machine.frame p = none) (noCall : callAt (t.globals p) (s.user p).point = none)
    {point : Point} (advanced : advance (t.globals p) (s.user p).point = some point) :
    (s'.user p).point = point := by
  cases stepped with
  | call _ starts _ =>
      rw [(starts idle).1] at noCall
      cases noCall
  | @internal u _ internal =>
      have advanced' : advance (t.globals p) (s.user p).point = some u.point := internal.1
      rw [advanced, Option.some.injEq] at advanced'
      simp only [Function.update_self]
      exact advanced'.symm

theorem TreeInv.acquired_own (inv : TreeInv t s) (atAcquired : (s.user p).point = .acquiring (-1))
    (stepped : (rounds t.globals).StepBy p s label s') : (s'.user p).point = .critical := by
  have stand := inv.stand p
  rw [atAcquired] at stand
  exact point_of_advance stepped stand.of_acquired.1 (by rw [atAcquired]; exact callAt_acquired _)
    (by rw [atAcquired]; exact advance_acquired _)

theorem TreeInv.critical_own (inv : TreeInv t s) (atCritical : (s.user p).point = .critical)
    (stepped : (rounds t.globals).StepBy p s label s') :
    (s'.user p).point = if t.height = 0 then .remainder else .releasing 0 := by
  have stand := inv.stand p
  rw [atCritical] at stand
  exact point_of_advance stepped stand.of_critical.1 (by rw [atCritical]; rfl)
    (by rw [atCritical]; exact advance_critical p)

theorem TreeInv.remainder_own (inv : TreeInv t s) (atRemainder : (s.user p).point = .remainder)
    (stepped : (rounds t.globals).StepBy p s label s') :
    (s'.user p).point = if t.height = 0 then .critical else .acquiring (.ofNat (t.height - 1)) := by
  have stand := inv.stand p
  rw [atRemainder] at stand
  have idle : s.machine.frame p = none := by
    generalize inFrame : s.machine.frame p = frame at stand ⊢
    generalize (s.user p).held = held at stand
    cases stand
    rfl
  exact point_of_advance stepped idle (by rw [atRemainder]; rfl)
    (by rw [atRemainder]; exact advance_remainder p)

theorem TreeInv.releasedAll_own (inv : TreeInv t s)
    (atTop : (s.user p).point = .releasing (.ofNat t.height))
    (stepped : (rounds t.globals).StepBy p s label s') : (s'.user p).point = .remainder := by
  have stand := inv.stand p
  rw [atTop] at stand
  exact point_of_advance stepped (stand.of_releasing (le_refl _)).1
    (by rw [atTop]; exact callAt_releasing_top p) (by rw [atTop]; exact advance_releasing_top p)

/-- The release of level `depth` returns `0` and moves to the level below. -/
theorem TreeInv.release_own (inv : TreeInv t s) {depth : Nat} (depthLt : depth < t.height)
    (atLevel : (s.user p).point = .releasing (.ofNat depth))
    (stepped : (rounds t.globals).StepBy p s label s') :
    (s'.user p).point = .releasing (.ofNat (depth + 1)) := by
  have stand := inv.stand p
  rw [atLevel] at stand
  have idle := (stand.of_releasing (Nat.le_of_lt depthLt)).1
  cases stepped with
  | @call seen machine mover starts machineStep =>
      subst mover
      have called := (starts idle).1
      rw [atLevel, callAt_releasing _ depthLt, Option.some.injEq] at called
      obtain ⟨returned, -⟩ := machineStep.release_active called.symm (checkArgs_layout _ depthLt)
        (inv.active_slot _ depthLt)
      simp only [Function.update_self, Program.after, returned]
      show resume (s.user seen.process).point 0 = _
      rw [atLevel, resume_releasing_zero, ofNat_add_one (t.depth_lt_thirty depthLt)]
  | internal _ internal =>
      have advanced : advance (t.globals p) (s.user p).point = some _ := internal.1
      rw [atLevel, advance_releasing _ depthLt] at advanced
      cases advanced

/-- A step of a process at the test of level `depth` of the acquire loop: it
waits at the level, changing nothing if it already waited there, which it
does only while its wait condition holds; or it passes the level, which from
the wait loop it does only once the condition is false. -/
theorem TreeInv.acquire_own (inv : TreeInv t s) {depth : Nat} (depthLt : depth < t.height)
    (atLevel : (s.user p).point = .acquiring (.ofNat depth))
    (stepped : (rounds t.globals).StepBy p s label s') :
    (s'.machine.frame p = some (.waiting (t.slot p depth) (t.role p depth)) ∧
        (s.machine.frame p = some (.waiting (t.slot p depth) (t.role p depth)) ->
          s' = s ∧ (s.machine.ptable (t.slot p depth)).waitCondition (t.role p depth))) ∨
      ((s'.user p).point = .acquiring (.ofNat depth - 1) ∧
        (s.machine.frame p = some (.waiting (t.slot p depth) (t.role p depth)) ->
          ¬ (s.machine.ptable (t.slot p depth)).waitCondition (t.role p depth))) := by
  have stand := inv.stand p
  rw [atLevel] at stand
  have frameCases := (stand.of_acquiring depthLt).1
  cases stepped with
  | @call seen machine mover starts machineStep =>
      subst mover
      -- the call is the acquire of level `depth`, in its entry region or its wait loop
      obtain ⟨lockId, role, acquiring, valid⟩ : exists lockId role,
          seen.call = .petersonAcquire lockId role ∧
            checkArgs lockId role = some (t.slot seen.process depth, t.role seen.process depth) := by
        rcases frameCases with idle | waiting
        · have called := (starts idle).1
          rw [atLevel, callAt_acquiring _ depthLt, Option.some.injEq] at called
          exact ⟨_, _, called.symm, checkArgs_layout _ depthLt⟩
        · exact ⟨_, _, machineStep.call_of_frame waiting, checkArgs_slot _ _⟩
      rcases machineStep.acquire_active acquiring valid (inv.active_slot _ depthLt) with
        ⟨yields, waiting'⟩ | ⟨returned, -⟩
      · refine Or.inl ⟨waiting', fun waiting => ?_⟩
        obtain ⟨sameMachine, blocked⟩ := machineStep.recheck_yields waiting yields
        exact ⟨System.ext sameMachine (by simp [Program.after, yields]), blocked⟩
      · refine Or.inr ⟨?_, fun waiting => machineStep.recheck_opens waiting returned⟩
        simp [Program.after, returned, rounds, atLevel, resume_acquiring_zero]
  | internal _ internal =>
      have advanced : advance (t.globals p) (s.user p).point = some _ := internal.1
      rw [atLevel, advance_acquiring _ depthLt] at advanced
      cases advanced

end Own

section Steps

variable {s s' : System P Process} {label : Option (Label P)}

/-- While `p` waits with its wait condition false, the steps of the others keep
it false. -/
theorem TreeInv.keeps_open (inv : TreeInv t s) {p z : P} {depth : Nat} (depthLt : depth < t.height)
    (other : z ≠ p) (opened : Open t p depth s) (stepped : (rounds t.globals).StepBy z s label s') :
    Open t p depth s' := by
  have sameFrame := (stepped.other (Ne.symm other)).2
  have waiting' : Waiting t p depth s' := sameFrame.trans opened.1
  refine ⟨waiting', ?_⟩
  -- the lock of the level stays as it is, or makes one move of Peterson's protocol
  rcases (rounds_disciplined t.globals).slotMove stepped.step (t.slot p depth) with
    ⟨sameLock, -⟩ | moved
  · rw [sameLock]
    exact opened.2
  · exact moved.keeps_open (inv.slotInv p depthLt)
      (show phaseOf (s.machine.frame p) _ _ = _ by rw [opened.1]; simp)
      (show phaseOf (s'.machine.frame p) _ _ = _ by rw [waiting']; simp)
      ((inv.step stepped.step).rolesUnique_slot p depthLt) opened.2

/-- While `p` is blocked by `q`, every step keeps it so, or clears its wait
condition.  Its own re-checks change nothing, and nobody else can register
on the lock while `q` holds the other role; when `q` leaves the lock, nobody
holds that role and its flag is clear. -/
theorem TreeInv.blockedBy_step (inv : TreeInv t s) {p q z : P} {depth : Nat}
    (depthLt : depth < t.height) (blocked : BlockedBy t p q depth s)
    (stepped : (rounds t.globals).StepBy z s label s') :
    BlockedBy t p q depth s' ∨ Open t p depth s' := by
  obtain ⟨waiting, condition, registered⟩ := blocked
  by_cases mover : z = p
  · subst mover
    rcases inv.acquire_own depthLt (inv.point_of_waiting depthLt waiting) stepped with
      ⟨-, yielded⟩ | ⟨-, opened⟩
    · rw [(yielded waiting).1]
      exact Or.inl ⟨waiting, condition, registered⟩
    · exact absurd condition (opened waiting)
  have waiting' : Waiting t p depth s' := (stepped.other (Ne.symm mover)).2.trans waiting
  by_cases condition' : (s'.machine.ptable (t.slot p depth)).waitCondition (t.role p depth)
  · refine Or.inl ⟨waiting', condition', ?_⟩
    -- someone holds the other role after the step, and it can only be `q`
    obtain ⟨a, registered'⟩ :=
      (((inv.step stepped.step).slotInv p depthLt).protocol.flag_iff _).mp condition'.1
    rw [← role_rev] at registered'
    by_cases aMover : a = z
    · subst aMover
      by_cases qMover : q = a
      · subst qMover
        exact registered'
      · rw [phases_of_stepBy_other stepped qMover]
        exact registered
    · rw [phases_of_stepBy_other stepped aMover] at registered'
      rw [← inv.rolesUnique_slot p depthLt a q _ registered' registered, phases_of_stepBy_other stepped aMover]
      exact registered'
  · exact Or.inr ⟨waiting', condition'⟩

end Steps

/-! ## Leads-to along a fair execution -/

section Fair

variable {s₀ : System P Process} {x : Execution (rounds t.globals).StepBy s₀}

/-- A process at `point`, which every step of its own takes to `point'`, gets
there: the others do not move it, and it can always step. -/
theorem own_leadsTo (fair : x.FairFor Busy) (always : forall n, TreeInv t (x.state n)) (p : P)
    {point point' : Point} (busy : point ≠ .remainder)
    (moves : forall s label s', TreeInv t s -> (s.user p).point = point ->
      (rounds t.globals).StepBy p s label s' -> (s'.user p).point = point') :
    x.LeadsTo (fun s => (s.user p).point = point) (fun s => (s.user p).point = point') :=
  fair.leadsTo always p
    (fun _ _ _ _ other _ atPoint stepped => Or.inl ((stepped.other (Ne.symm other)).1 ▸ atPoint))
    moves (fun _ inv atPoint => ⟨busy_of_point atPoint busy, inv.enabled p⟩)

/-- From its remainder section a process enters `tournament_acquire`, when the
scheduler is fair to every process. -/
theorem remainder_leadsTo (fair : x.Fair) (always : forall n, TreeInv t (x.state n)) (p : P) :
    x.LeadsTo (fun s => (s.user p).point = .remainder)
      (fun s => (s.user p).point = if t.height = 0 then .critical else .acquiring (.ofNat (t.height - 1))) :=
  fair.leadsTo always p
    (fun _ _ _ _ other _ atPoint stepped => Or.inl ((stepped.other (Ne.symm other)).1 ▸ atPoint))
    (fun _ _ _ inv atRemainder stepped => inv.remainder_own atRemainder stepped)
    (fun _ inv _ => inv.enabled p)

/-- The release loop runs from level `e` to level `k`. -/
theorem releasing_leadsTo (fair : x.FairFor Busy) (always : forall n, TreeInv t (x.state n)) (p : P)
    {e k : Nat} (low : e ≤ k) (high : k ≤ t.height) :
    x.LeadsTo (fun s => (s.user p).point = .releasing (.ofNat e))
      (fun s => (s.user p).point = .releasing (.ofNat k)) := by
  induction k, low using Nat.le_induction with
  | base => exact fun n holds => ⟨n, le_refl _, holds⟩
  | succ k low inductionHypothesis =>
      exact (inductionHypothesis (by omega)).trans (own_leadsTo fair always p (by simp)
        fun _ _ _ inv atLevel stepped => inv.release_own (by omega) atLevel stepped)

/-- From its critical section a process releases every level up to `k`. -/
theorem critical_leadsTo_released (fair : x.FairFor Busy) (always : forall n, TreeInv t (x.state n))
    (p : P) {k : Nat} (notZero : t.height ≠ 0) (high : k ≤ t.height) :
    x.LeadsTo (fun s => (s.user p).point = .critical)
      (fun s => (s.user p).point = .releasing (.ofNat k)) :=
  (own_leadsTo fair always p (by simp) fun _ _ _ inv atCritical stepped => by
    rw [inv.critical_own atCritical stepped, if_neg notZero]
    rfl).trans (releasing_leadsTo fair always p (Nat.zero_le k) high)

theorem acquired_leadsTo_critical (fair : x.FairFor Busy) (always : forall n, TreeInv t (x.state n))
    (p : P) :
    x.LeadsTo (fun s => (s.user p).point = .acquiring (-1)) (fun s => (s.user p).point = .critical) :=
  own_leadsTo fair always p (by simp) fun _ _ _ inv atAcquired stepped =>
    inv.acquired_own atAcquired stepped

/-- The entry region of the acquire of level `depth` leaves the process waiting
there, or past it. -/
theorem entering_leadsTo (fair : x.FairFor Busy) (always : forall n, TreeInv t (x.state n)) (p : P)
    {depth : Nat} (depthLt : depth < t.height) :
    x.LeadsTo (fun s => (s.user p).point = .acquiring (.ofNat depth) ∧ s.machine.frame p = none)
      (fun s => Waiting t p depth s ∨ Passed p depth s) :=
  fair.leadsTo always p
    (fun _ _ _ _ other _ entering stepped => by
      rw [(stepped.other (Ne.symm other)).1, (stepped.other (Ne.symm other)).2]
      exact Or.inl entering)
    (fun _ _ _ inv entering stepped => by
      rcases inv.acquire_own depthLt entering.1 stepped with ⟨waiting, -⟩ | ⟨passed, -⟩
      · exact Or.inl waiting
      · exact Or.inr passed)
    (fun _ inv entering => ⟨busy_of_point entering.1 (by simp), inv.enabled p⟩)

/-- A process waiting with its wait condition false passes the level. -/
theorem open_leadsTo_passed (fair : x.FairFor Busy) (always : forall n, TreeInv t (x.state n)) (p : P)
    {depth : Nat} (depthLt : depth < t.height) :
    x.LeadsTo (Open t p depth) (Passed p depth) :=
  fair.leadsTo always p
    (fun _ _ _ _ other inv opened stepped => Or.inl (inv.keeps_open depthLt other opened stepped))
    (fun _ _ _ inv opened stepped => by
      rcases inv.acquire_own depthLt (inv.point_of_waiting depthLt opened.1) stepped with
        ⟨-, yielded⟩ | ⟨passed, -⟩
      · exact absurd (yielded opened.1).2 opened.2
      · exact passed)
    (fun _ inv opened => ⟨busy_of_point (inv.point_of_waiting depthLt opened.1) (by simp), inv.enabled p⟩)

/-- A process blocked at level `depth` gets its wait condition cleared, given
that every process holding the lock of level `depth` of its path goes on to
release it. -/
theorem blocked_leadsTo_open (always : forall n, TreeInv t (x.state n)) (fair : x.FairFor Busy)
    {depth : Nat} (depthLt : depth < t.height)
    (releases : forall q, x.LeadsTo (fun s => (s.user q).held (t.slot q depth) ≠ none)
      (fun s => (s.user q).point = .releasing (.ofNat (depth + 1))))
    (p q : P) : x.LeadsTo (BlockedBy t p q depth) (Open t p depth) := by
  intro n blocked
  obtain ⟨sameSlot, sameRole⟩ := (always n).registered_depth depthLt blocked.2.2
  have stable : forall z s label s', TreeInv t s -> BlockedBy t p q depth s ->
      (rounds t.globals).StepBy z s label s' -> BlockedBy t p q depth s' ∨ Open t p depth s' :=
    fun _ _ _ _ inv blocked stepped => inv.blockedBy_step depthLt blocked stepped
  -- the blocker releases the lock while `p` stays blocked by it, unless the lock opens first
  have released : forall m, n ≤ m -> (((x.state m).user q).held (t.slot q depth) ≠ none ∧
      BlockedBy t p q depth (x.state m)) -> exists k, n ≤ k ∧ Open t p depth (x.state k) := by
    intro m later holding
    obtain ⟨k, later', result⟩ := (releases q).carry always stable m holding
    rcases result with ⟨done, stillBlocked⟩ | opened
    · exact absurd (sameSlot ▸ stillBlocked.2.2)
        ((always k).not_registered_of_released depthLt done _)
    · exact ⟨k, by omega, opened⟩
  rcases phaseOf_role_eq_some blocked.2.2 with qWaits | qHolds
  · -- the blocker waits on the lock, where its own wait condition is false
    have qOpen : Open t q depth (x.state n) := by
      refine ⟨by unfold Waiting; rw [sameSlot, sameRole]; exact qWaits, ?_⟩
      rw [sameSlot, sameRole, role_rev]
      exact PetersonLock.not_waitCondition_one_sub _ blocked.2.1
    obtain ⟨m, later, result⟩ :=
      (open_leadsTo_passed fair always q depthLt).carry always stable n ⟨qOpen, blocked⟩
    rcases result with ⟨passed, stillBlocked⟩ | opened
    · exact released m later ⟨by rw [(always m).holds_of_passed depthLt passed]; simp, stillBlocked⟩
    · exact ⟨m, later, opened⟩
  · have holds : ((x.state n).user q).held (t.slot q depth) = some (t.role p depth).rev := by
      rw [sameSlot]
      exact qHolds
    exact released n (le_refl _) ⟨by rw [holds]; simp, blocked⟩

/-- A process at level `depth` of the acquire loop passes it, given that every
process holding the lock there goes on to release it. -/
theorem level_leadsTo_passed (always : forall n, TreeInv t (x.state n)) (fair : x.FairFor Busy)
    {depth : Nat} (depthLt : depth < t.height)
    (releases : forall q, x.LeadsTo (fun s => (s.user q).held (t.slot q depth) ≠ none)
      (fun s => (s.user q).point = .releasing (.ofNat (depth + 1))))
    (p : P) :
    x.LeadsTo (fun s => (s.user p).point = .acquiring (.ofNat depth)) (Passed p depth) := by
  intro n atLevel
  have stand := (always n).stand p
  rw [atLevel] at stand
  -- the process waits at the level, unless its entry passes it at once
  obtain ⟨m, later, waiting | passed⟩ : exists m, n ≤ m ∧
      (Waiting t p depth (x.state m) ∨ Passed p depth (x.state m)) := by
    rcases (stand.of_acquiring depthLt).1 with idle | waiting
    · exact entering_leadsTo fair always p depthLt n ⟨atLevel, idle⟩
    · exact ⟨n, le_refl _, Or.inl waiting⟩
  · -- its wait condition is false, or it is cleared by the blocker
    obtain ⟨k, later', opened⟩ : exists k, m ≤ k ∧ Open t p depth (x.state k) := by
      by_cases condition : ((x.state m).machine.ptable (t.slot p depth)).waitCondition (t.role p depth)
      · obtain ⟨q, registered⟩ :=
          (((always m).slotInv p depthLt).protocol.flag_iff _).mp condition.1
        rw [← role_rev] at registered
        exact blocked_leadsTo_open always fair depthLt releases p q m ⟨waiting, condition, registered⟩
      · exact ⟨m, le_refl _, waiting, condition⟩
    obtain ⟨j, later'', passed⟩ := open_leadsTo_passed fair always p depthLt k opened
    exact ⟨j, by omega, passed⟩
  · exact ⟨m, later, passed⟩

/-- A process holding the lock of level `depth` releases it, given that every
process at a level nearer the root reaches its critical section. -/
theorem holding_leadsTo_released (always : forall n, TreeInv t (x.state n)) (fair : x.FairFor Busy)
    {depth : Nat} (depthLt : depth < t.height)
    (nearer : forall e, e < depth -> forall q, x.LeadsTo
      (fun s => (s.user q).point = .acquiring (.ofNat e)) (fun s => (s.user q).point = .critical))
    (q : P) :
    x.LeadsTo (fun s => (s.user q).held (t.slot q depth) ≠ none)
      (fun s => (s.user q).point = .releasing (.ofNat (depth + 1))) := by
  have toRelease := critical_leadsTo_released fair always q (show t.height ≠ 0 by omega)
    (show depth + 1 ≤ t.height by omega)
  intro n holding
  have stand := (always n).stand q
  generalize pointIs : ((x.state n).user q).point = point at stand
  generalize frameIs : (x.state n).machine.frame q = frame at stand
  generalize heldIs : ((x.state n).user q).held = held at stand
  -- the levels it holds start at most at `depth`
  have holdsFrom : forall k, held = t.heldFrom q k -> k ≤ depth := by
    intro k heldAt
    rw [heldIs, heldAt] at holding
    obtain ⟨r, holds⟩ := Option.ne_none_iff_exists'.mp holding
    exact heldFrom_le_of_holds depthLt holds
  cases stand with
  | remainder => exact absurd (holdsFrom t.height rfl) (by omega)
  | @entering e eLt =>
      exact ((nearer e (by have := holdsFrom (e + 1) rfl; omega) q).trans toRelease) n pointIs
  | @waiting e eLt =>
      exact ((nearer e (by have := holdsFrom (e + 1) rfl; omega) q).trans toRelease) n pointIs
  | acquired => exact ((acquired_leadsTo_critical fair always q).trans toRelease) n pointIs
  | critical => exact toRelease n pointIs
  | @releasing e eLe =>
      exact releasing_leadsTo fair always q (show e ≤ depth + 1 by have := holdsFrom e rfl; omega)
        (by omega) n pointIs

/-- Every process at level `depth` of the acquire loop reaches its critical
section, by induction from the root down. -/
theorem acquiring_leadsTo_critical (always : forall n, TreeInv t (x.state n)) (fair : x.FairFor Busy)
    (depth : Nat) :
    depth < t.height -> forall p, x.LeadsTo (fun s => (s.user p).point = .acquiring (.ofNat depth))
      (fun s => (s.user p).point = .critical) := by
  induction depth using Nat.strong_induction_on with
  | _ depth nearer =>
      intro depthLt p
      have releases := holding_leadsTo_released always fair depthLt
        (fun e eLt q => nearer e eLt (by omega) q)
      refine (level_leadsTo_passed always fair depthLt releases p).trans ?_
      -- past the level, the process is at the next level nearer the root, or past the root
      cases depth with
      | zero =>
          unfold Passed
          rw [show Int32.ofNat 0 - 1 = -1 by decide]
          exact acquired_leadsTo_critical fair always p
      | succ e =>
          unfold Passed
          rw [level_sub_one (t.depth_lt_thirty (show e < t.height by omega))]
          exact nearer e (by omega) (by omega) p

end Fair

end Layout

variable [DecidableEq P]

/-- Starvation freedom of the tournament under a fair scheduler.  Along every
execution of rounds from the state `tournament_create` leaves in which no
process that can step is passed over forever, every process enters its
critical section again and again: from every moment on, it is in its
critical section at some later moment.  In particular every call of
`tournament_acquire` returns. -/
theorem tournament_starvationFree (t : Layout P) {s₀ : System P Process} (start : t.Start s₀)
    (x : Execution (rounds t.globals).StepBy s₀) (fair : x.Fair) (p : P) (n : Nat) :
    exists m, n ≤ m ∧ ((x.state m).user p).point = .critical := by
  have always : forall n, Layout.TreeInv t (x.state n) :=
    x.invariant _ (Layout.TreeInv.start start) fun _ _ _ _ inv stepped => inv.step stepped.step
  -- every step to the critical section is taken by a busy process
  have busyFair := fair.fairFor Busy
  -- from the remainder section the process enters `tournament_acquire`
  have fromRemainder : x.LeadsTo (fun s => (s.user p).point = .remainder)
      (fun s => (s.user p).point = .critical) := by
    refine (Layout.remainder_leadsTo fair always p).trans ?_
    by_cases zero : t.height = 0
    · rw [if_pos zero]
      exact fun n holds => ⟨n, le_refl _, holds⟩
    · rw [if_neg zero]
      exact Layout.acquiring_leadsTo_critical always busyFair _ (by omega) p
  have stand := (always n).stand p
  generalize pointIs : ((x.state n).user p).point = point at stand
  generalize (x.state n).machine.frame p = frame at stand
  generalize ((x.state n).user p).held = held at stand
  cases stand with
  | remainder => exact fromRemainder n pointIs
  | @entering depth depthLt =>
      exact Layout.acquiring_leadsTo_critical always busyFair depth depthLt p n pointIs
  | @waiting depth depthLt =>
      exact Layout.acquiring_leadsTo_critical always busyFair depth depthLt p n pointIs
  | acquired => exact Layout.acquired_leadsTo_critical busyFair always p n pointIs
  | critical => exact ⟨n, le_refl _, pointIs⟩
  | @releasing depth depthLe =>
      -- the process finishes `tournament_release` and starts another round
      have released := (Layout.releasing_leadsTo busyFair always p depthLe (le_refl _)).trans
        (Layout.own_leadsTo busyFair always p (by simp) fun _ _ _ inv atTop stepped =>
          inv.releasedAll_own atTop stepped)
      exact (released.trans fromRemainder) n pointIs

/-- `tournament 4` after boot under the round robin, which is fair. -/
theorem tournament_starvationFree_four :
    exists x : Execution (rounds (bootLayout 2 (by decide)).globals).StepBy (bootStart 2),
      x.Fair ∧ forall p n, exists m, n ≤ m ∧ ((x.state m).user p).point = .critical := by
  obtain ⟨x, fair⟩ := Execution.exists_fair (rounds (bootLayout 2 (by decide)).globals).StepBy
    (bootStart 2)
  exact ⟨x, fair, tournament_starvationFree _ (start_bootStart 2 (by decide)) x fair⟩

end Tournament
end Xv6Peterson
