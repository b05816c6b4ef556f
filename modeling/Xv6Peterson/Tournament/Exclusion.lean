import Xv6Peterson.Tournament.Rounds
import Xv6Peterson.Kernel.Execute
import Xv6Peterson.Transition.Lock

namespace Xv6Peterson
namespace Tournament

open Transition Kernel Peterson Word

/-!
# Mutual exclusion and deadlock freedom of the tournament

From the state `tournament_create` leaves, any processes of the layout run any
number of rounds of the lock routines, interleaved in any way with each other's
kernel steps.  Each process stands at one of a few kinds of points (`Stand`):
outside the routines holding nothing, about to enter or waiting at level `d`
of `tournament_acquire` holding the levels below it, past the root or in its
critical section holding every level, or at level `d` of `tournament_release`
holding the levels from `d` on.  The auxiliary `held` is always the levels the
point says.

The tree invariant (`TreeInv`) adds that every lock of the tree stays active
and keeps the invariant of Peterson's algorithm.  The argument goes by levels,
from the leaves up.  A process registered with role `r` at a node holds the
lock of the child `2k + 1 + r` below it, so two processes registered with the
same role at a node are both in the critical section of that child, which its
own lock forbids; at the bottom level two such processes would have the same
leaf.  Roles are therefore unique at every node, which is the precondition of
the Peterson lock there, and the root lock admits one process at a time.

Seen through the set of processes in their critical sections, every step is
then a move of the abstract lock of `Transition.Lock` or no move at all: the
tree refines a single lock for all its processes.

Deadlock freedom uses the same invariant: a blocked process at the highest
level that has one sees the other role registered there, and that process is
either waiting on the same lock without its wait condition, or holds the lock
and stands at a higher level, where it is not blocked.
-/

variable {P : Type*}

namespace Layout

variable {t : Layout P}

/-! ## The locks a process holds -/

/-- Holding every level from `height` on is holding nothing. -/
theorem heldFrom_height (p : P) : t.heldFrom p t.height = fun _ => none := by
  funext target
  exact heldFrom_eq_none.mpr fun e low eLt => absurd eLt (Nat.not_lt.mpr low)

/-- A return of `0` from the acquire of level `depth` adds that level. -/
theorem heldFrom_acquire (p : P) {depth : Nat} (depthLt : depth < t.height) :
    Function.update (t.heldFrom p (depth + 1)) (t.slot p depth) (some (t.role p depth)) =
      t.heldFrom p depth := by
  funext target
  by_cases same : target = t.slot p depth
  · subst same
    rw [Function.update_self]
    exact (heldFrom_eq_some.mpr ⟨depth, le_refl _, depthLt, rfl, rfl⟩).symm
  · rw [Function.update_of_ne same]
    apply Option.ext
    intro r
    rw [heldFrom_eq_some, heldFrom_eq_some]
    constructor
    · rintro ⟨e, low, eLt, named, roleIs⟩
      exact ⟨e, by omega, eLt, named, roleIs⟩
    · rintro ⟨e, low, eLt, named, roleIs⟩
      -- the level found is not `depth`, whose slot is another
      have other : e ≠ depth := fun equal => same (by rw [← named, equal])
      exact ⟨e, by omega, eLt, named, roleIs⟩

/-- The release of level `depth` gives that level back. -/
theorem heldFrom_release (p : P) {depth : Nat} (depthLt : depth < t.height) :
    Function.update (t.heldFrom p depth) (t.slot p depth) none = t.heldFrom p (depth + 1) := by
  rw [← heldFrom_acquire p depthLt, Function.update_idem, Function.update_eq_self_iff]
  refine (heldFrom_eq_none.mpr fun e low eLt named => ?_).symm
  have same := slot_injective_depth p eLt depthLt named
  omega

/-! ## Where a process stands -/

/-- The points a process of the layout can be at, with its kernel frame and
the locks it holds: outside the routines; about to enter, or waiting at,
level `depth` of the acquire loop; past its last level; in the critical
section; at level `depth` of the release loop. -/
inductive Stand (t : Layout P) (p : P) : Point -> Option Frame -> Holding -> Prop
  | remainder : Stand t p .remainder none (t.heldFrom p t.height)
  | entering {depth : Nat} : depth < t.height ->
      Stand t p (.acquiring (.ofNat depth)) none (t.heldFrom p (depth + 1))
  | waiting {depth : Nat} : depth < t.height ->
      Stand t p (.acquiring (.ofNat depth)) (some (.waiting (t.slot p depth) (t.role p depth)))
        (t.heldFrom p (depth + 1))
  | acquired : Stand t p (.acquiring (-1)) none (t.heldFrom p 0)
  | critical : Stand t p .critical none (t.heldFrom p 0)
  | releasing {depth : Nat} : depth ≤ t.height ->
      Stand t p (.releasing (.ofNat depth)) none (t.heldFrom p depth)

/-- After the acquire of level `depth` returns `0`, the loop goes on to the
level above, or past the root. -/
theorem Stand.acquire_returned (p : P) {depth : Nat} (depthLt : depth < t.height) :
    Stand t p (resume (.acquiring (.ofNat depth)) 0) none
      (Function.update (t.heldFrom p (depth + 1)) (t.slot p depth) (some (t.role p depth))) := by
  rw [resume_acquiring_zero, heldFrom_acquire p depthLt]
  cases depth with
  | zero => exact Stand.acquired
  | succ depth =>
      have down : Int32.ofNat (depth + 1) - 1 = Int32.ofNat depth := by
        rw [← ofNat_add_one (Nat.lt_of_succ_lt (t.depth_lt_thirty depthLt))]
        simp
      rw [down]
      exact Stand.entering (by omega)

/-- A user step keeps a process standing. -/
theorem Stand.advance {p : P} {point point' : Point} {held : Holding}
    (stand : Stand t p point none held) (advanced : advance (t.globals p) point = some point') :
    Stand t p point' none held := by
  cases stand with
  | remainder =>
      rw [advance_remainder] at advanced
      cases advanced
      by_cases zero : t.height = 0
      · rw [if_pos zero, zero]
        exact Stand.critical
      · rw [if_neg zero]
        have entering : Stand t p (.acquiring (.ofNat (t.height - 1))) none
            (t.heldFrom p (t.height - 1 + 1)) := Stand.entering (by omega)
        rwa [show t.height - 1 + 1 = t.height by omega] at entering
  | entering depthLt =>
      rw [advance_acquiring p depthLt] at advanced
      cases advanced
  | acquired =>
      rw [advance_acquired] at advanced
      cases advanced
      exact Stand.critical
  | critical =>
      rw [advance_critical] at advanced
      cases advanced
      by_cases zero : t.height = 0
      · rw [if_pos zero, ← zero]
        exact Stand.remainder
      · rw [if_neg zero]
        show Stand t p (.releasing (.ofNat 0)) none (t.heldFrom p 0)
        exact Stand.releasing (Nat.zero_le _)
  | @releasing depth depthLe =>
      by_cases last : depth = t.height
      · subst last
        rw [advance_releasing_top] at advanced
        cases advanced
        exact Stand.remainder
      · rw [advance_releasing p (by omega)] at advanced
        cases advanced

/-- What standing says about the locks: a process holds every level from
some `depth` on, and waits, if at all, at the level just below it. -/
theorem Stand.shape {p : P} {point : Point} {frame : Option Frame} {held : Holding}
    (stand : Stand t p point frame held) :
    exists depth, held = t.heldFrom p depth ∧
      (frame = none ∨ exists e, depth = e + 1 ∧ e < t.height ∧
        frame = some (.waiting (t.slot p e) (t.role p e))) := by
  cases stand with
  | remainder => exact ⟨_, rfl, Or.inl rfl⟩
  | entering => exact ⟨_, rfl, Or.inl rfl⟩
  | waiting depthLt => exact ⟨_, rfl, Or.inr ⟨_, rfl, depthLt, rfl⟩⟩
  | acquired => exact ⟨_, rfl, Or.inl rfl⟩
  | critical => exact ⟨_, rfl, Or.inl rfl⟩
  | releasing => exact ⟨_, rfl, Or.inl rfl⟩

/-- Holding every level from `depth` on is being critical on each of them. -/
theorem heldPhase_heldFrom (p : P) {depth e : Nat} (low : depth ≤ e) (eLt : e < t.height) :
    heldPhase (t.heldFrom p depth (t.slot p e)) = .critical (t.role p e) := by
  rw [heldFrom_eq_some.mpr ⟨e, low, eLt, rfl, rfl⟩]
  rfl

theorem heldPhase_role_eq_some {held : Option (Fin 2)} {r : Fin 2}
    (registered : (heldPhase held).role = some r) : held = some r := by
  cases held with
  | none => cases registered
  | some r' => cases registered; rfl

/-- A process registered on a slot is registered there with its role at the
level of its path that uses the slot, and it holds every level above that
one.  This is the invariant indexed by levels that the tournament rests on. -/
theorem Stand.registered {p : P} {point : Point} {frame : Option Frame} {held : Holding}
    (stand : Stand t p point frame held) {target : Fin NPETERSONLOCKS} {r : Fin 2}
    (registered : (phaseOf frame held target).role = some r) :
    exists e, e < t.height ∧ target = t.slot p e ∧ r = t.role p e ∧
      forall e', e < e' -> e' < t.height -> phaseOf frame held (t.slot p e') = .critical (t.role p e') := by
  obtain ⟨depth, rfl, frameCase⟩ := stand.shape
  rcases frameCase with rfl | ⟨e₀, rfl, e₀Lt, rfl⟩
  · -- in no call: the process is registered exactly where it holds
    obtain ⟨e, low, eLt, named, roleIs⟩ :=
      heldFrom_eq_some.mp (heldPhase_role_eq_some (by simpa using registered))
    refine ⟨e, eLt, named.symm, roleIs.symm, fun e' above e'Lt => ?_⟩
    simpa using heldPhase_heldFrom p (show depth ≤ e' by omega) e'Lt
  · -- in the wait loop at level `e₀`, holding every level above it
    have criticalAbove : forall e', e₀ < e' -> e' < t.height ->
        phaseOf (some (.waiting (t.slot p e₀) (t.role p e₀))) (t.heldFrom p (e₀ + 1)) (t.slot p e') =
          .critical (t.role p e') := by
      intro e' above e'Lt
      have other : t.slot p e₀ ≠ t.slot p e' := fun same =>
        absurd (slot_injective_depth p e₀Lt e'Lt same) (by omega)
      rw [phaseOf_waiting_ne other]
      exact heldPhase_heldFrom p (by omega) e'Lt
    by_cases same : t.slot p e₀ = target
    · subst same
      simp only [phaseOf_waiting_self, Phase.role_waiting, Option.some.injEq] at registered
      exact ⟨e₀, e₀Lt, rfl, registered.symm, criticalAbove⟩
    · rw [phaseOf_waiting_ne same] at registered
      obtain ⟨e, low, eLt, named, roleIs⟩ := heldFrom_eq_some.mp (heldPhase_role_eq_some registered)
      exact ⟨e, eLt, named.symm, roleIs.symm, fun e' above e'Lt => criticalAbove e' (by omega) e'Lt⟩

/-- A process in a kernel call waits in the acquire of some level. -/
theorem Stand.of_some {p : P} {point : Point} {frame : Frame} {held : Holding}
    (stand : Stand t p point (some frame) held) :
    exists depth, depth < t.height ∧ point = .acquiring (.ofNat depth) ∧
      frame = .waiting (t.slot p depth) (t.role p depth) := by
  cases stand with
  | waiting depthLt => exact ⟨_, depthLt, rfl, rfl⟩

/-- In the critical section a process is in no call and holds every level. -/
theorem Stand.of_critical {p : P} {frame : Option Frame} {held : Holding}
    (stand : Stand t p .critical frame held) : frame = none ∧ held = t.heldFrom p 0 := by
  cases stand
  exact ⟨rfl, rfl⟩

/-- Holding the lock of the node of depth `depth` is holding every level from
one at most `depth` on. -/
theorem heldFrom_le_of_holds {p q : P} {d depth : Nat} {r : Fin 2} (depthLt : depth < t.height)
    (holds : t.heldFrom q d (t.slot p depth) = some r) : d ≤ depth := by
  obtain ⟨e, low, eLt, named, -⟩ := heldFrom_eq_some.mp holds
  have sameDepth :=
    (nodeSlot_eq_slot depthLt (Tree.ancestor_lt (t.leaf_lt p) (Nat.le_of_lt depthLt)) eLt named.symm).1
  omega

/-- A process that holds a lock of the tree while outside the critical section
and the release loop is in the acquire loop above that lock: about to make a
call or to return, or waiting at a level nearer the root. -/
theorem Stand.holding {q : P} {point : Point} {frame : Option Frame} {held : Holding}
    (stand : Stand t q point frame held) {p : P} {depth : Nat} {r : Fin 2}
    (depthLt : depth < t.height) (holds : held (t.slot p depth) = some r)
    (notCritical : point ≠ .critical) (notReleasing : forall l, point ≠ .releasing l) :
    (exists l, point = .acquiring l) ∧
      (frame = none ∨ exists d, d < depth ∧ d < t.height ∧
        frame = some (.waiting (t.slot q d) (t.role q d))) := by
  cases stand with
  | remainder => exact absurd (heldFrom_le_of_holds depthLt holds) (by omega)
  | entering => exact ⟨⟨_, rfl⟩, Or.inl rfl⟩
  | waiting dLt =>
      have above := heldFrom_le_of_holds depthLt holds
      exact ⟨⟨_, rfl⟩, Or.inr ⟨_, by omega, dLt, rfl⟩⟩
  | acquired => exact ⟨⟨_, rfl⟩, Or.inl rfl⟩
  | critical => exact absurd rfl notCritical
  | releasing => exact absurd rfl (notReleasing _)

/-- The auxiliary lock rules never block a call of the routines: at a point
where it is in no call, a process holds exactly the locks that allow the call
the point names. -/
theorem Stand.allowed {p : P} {point : Point} {held : Holding} (stand : Stand t p point none held)
    {call : Syscall} (named : callAt (t.globals p) point = some call) : Allowed held call := by
  cases stand with
  | remainder | critical => simp [callAt] at named
  | acquired =>
      rw [callAt_acquired] at named
      cases named
  | @entering depth depthLt =>
      rw [callAt_acquiring p depthLt, Option.some.injEq] at named
      subst named
      -- the levels from `depth + 1` on do not include the lock of level `depth`
      refine (allowed_acquire_iff (checkArgs_layout p depthLt)).mpr ?_
      exact heldFrom_eq_none.mpr fun e low eLt same => by
        have := slot_injective_depth p eLt depthLt same
        omega
  | @releasing depth depthLe =>
      by_cases top : depth = t.height
      · subst top
        rw [callAt_releasing_top] at named
        cases named
      rw [callAt_releasing p (by omega), Option.some.injEq] at named
      subst named
      exact (allowed_release_iff (checkArgs_layout p (by omega))).mpr
        (heldFrom_eq_some.mpr ⟨depth, le_refl _, by omega, rfl, rfl⟩)

/-! ## The steps of a process -/

section Steps

variable [DecidableEq P]

/-- A step of an acquire of level `depth` on its active lock leaves the process
waiting there, or moves it on with the level held. -/
theorem Stand.acquire_step {m m' : Machine P} {p : P} {lockId role : Int} {result : Option Int}
    (stepped : Machine.Step m ⟨p, .petersonAcquire lockId role, result⟩ m') {depth : Nat}
    (depthLt : depth < t.height)
    (valid : checkArgs lockId role = some (t.slot p depth, t.role p depth))
    (active : (m.ptable (t.slot p depth)).active ≠ 0) :
    Stand t p ((rounds t.globals).after ⟨p, .petersonAcquire lockId role, result⟩
        ⟨.acquiring (.ofNat depth), t.heldFrom p (depth + 1)⟩).point (m'.frame p)
      ((rounds t.globals).after ⟨p, .petersonAcquire lockId role, result⟩
        ⟨.acquiring (.ofNat depth), t.heldFrom p (depth + 1)⟩).held := by
  rcases stepped.acquire_active rfl valid active with ⟨yields, waiting⟩ | ⟨returned, free⟩
  · simp only at yields waiting
    subst yields
    rw [waiting]
    exact Stand.waiting depthLt
  · simp only at returned free
    subst returned
    rw [free]
    simp only [Program.after, rounds, grant_acquire valid]
    exact Stand.acquire_returned p depthLt

/-- A step of a process's own call keeps it standing, as long as the locks of
its path are active. -/
theorem Stand.call {m m' : Machine P} {label : Label P} (stepped : Machine.Step m label m')
    {u : Process} (stand : Stand t label.process u.point (m.frame label.process) u.held)
    (starts : m.frame label.process = none -> (rounds t.globals).starts label.process u label.call)
    (active : forall depth, depth < t.height -> (m.ptable (t.slot label.process depth)).active ≠ 0) :
    Stand t label.process ((rounds t.globals).after label u).point (m'.frame label.process)
      ((rounds t.globals).after label u).held := by
  obtain ⟨p, call, result⟩ := label
  obtain ⟨point, held⟩ := u
  simp only at stand starts active ⊢
  generalize inFrame : m.frame p = frame at stand starts
  cases stand with
  | remainder => exact absurd (starts rfl).1 (by simp [callAt])
  | acquired => exact absurd (starts rfl).1 (by simp [callAt_acquired])
  | critical => exact absurd (starts rfl).1 (by simp [callAt])
  | @entering depth depthLt =>
      -- the entry region of the acquire of this level
      have called := (starts rfl).1
      rw [callAt_acquiring p depthLt, Option.some.injEq] at called
      subst called
      exact Stand.acquire_step stepped depthLt (checkArgs_layout p depthLt) (active depth depthLt)
  | @waiting depth depthLt =>
      -- a re-check of the wait loop, whose call the frame names
      have sameCall := stepped.call_of_frame inFrame
      simp only [Frame.call] at sameCall
      subst sameCall
      exact Stand.acquire_step stepped depthLt (checkArgs_slot _ _) (active depth depthLt)
  | @releasing depth depthLe =>
      have called := (starts rfl).1
      by_cases last : depth = t.height
      · subst last
        rw [callAt_releasing_top] at called
        cases called
      have depthLt : depth < t.height := by omega
      rw [callAt_releasing p depthLt, Option.some.injEq] at called
      subst called
      obtain ⟨returned, sameFrame⟩ :=
        stepped.release_active rfl (checkArgs_layout p depthLt) (active depth depthLt)
      simp only at returned sameFrame
      subst returned
      rw [sameFrame, inFrame]
      simp only [Program.after, rounds, grant_release (checkArgs_layout p depthLt),
        resume_releasing_zero, ofNat_add_one (t.depth_lt_thirty depthLt),
        heldFrom_release p depthLt]
      exact Stand.releasing (by omega)

end Steps

/-! ## The invariant of the tree -/

section Tree

/-- The state that `tournament_create` and its forks leave: every process
outside the routines, holding nothing and in no call, and every lock of the
tree as `peterson_create` allocated it. -/
structure Start (t : Layout P) (s : System P Process) : Prop where
  remainder : forall p, s.user p = ⟨.remainder, fun _ => none⟩
  idle : forall p, s.machine.frame p = none
  fresh : forall k, k < t.ids.length ->
    s.machine.ptable (t.slotOf k) = (s.machine.ptable (t.slotOf k)).reset 1

/-- The invariant of the runs from that state: every process stands, and every
lock of the tree is active and keeps the invariant of Peterson's algorithm. -/
structure TreeInv (t : Layout P) (s : System P Process) : Prop where
  stand : forall p, Stand t p (s.user p).point (s.machine.frame p) (s.user p).held
  active : forall depth offset, depth < t.height -> offset < 2 ^ depth ->
    (s.machine.ptable (t.nodeSlot depth offset)).active ≠ 0
  slots : forall depth offset, depth < t.height -> offset < 2 ^ depth ->
    SlotInv (s.machine.ptable (t.nodeSlot depth offset))
      (phases Process.held s (t.nodeSlot depth offset))

theorem TreeInv.start {s : System P Process} (start : Start t s) : TreeInv t s where
  stand p := by
    rw [start.remainder p, start.idle p, ← heldFrom_height p]
    exact Stand.remainder
  active depth offset depthLt offsetLt := by
    unfold nodeSlot
    rw [start.fresh _ (tree_node_lt_length depthLt offsetLt)]
    simp
  slots depth offset depthLt offsetLt := by
    have fresh := start.fresh _ (tree_node_lt_length depthLt offsetLt)
    have allocated : (s.machine.ptable (t.nodeSlot depth offset)).active = 1 := by
      unfold nodeSlot
      rw [fresh]
      simp
    refine SlotInv.idle (fun p => ?_) ?_
    · simp [phases, phaseMap, start.remainder p, start.idle p, heldPhase]
    · rw [allocated]
      exact fresh

theorem start_startState {ptable : Ptable}
    (fresh : forall k, k < t.ids.length -> ptable (t.slotOf k) = (ptable (t.slotOf k)).reset 1) :
    Start t (startState ptable : System P Process) :=
  ⟨fun _ => rfl, fun _ => rfl, fresh⟩

/-- The invariant at the lock of a process's path at level `depth`. -/
theorem TreeInv.slotInv {s : System P Process} (inv : TreeInv t s) (p : P) {depth : Nat}
    (depthLt : depth < t.height) :
    SlotInv (s.machine.ptable (t.slot p depth)) (phases Process.held s (t.slot p depth)) :=
  inv.slots _ _ depthLt (Tree.ancestor_lt (t.leaf_lt p) (Nat.le_of_lt depthLt))

/-- The lock of a process's path at level `depth` is active. -/
theorem TreeInv.active_slot {s : System P Process} (inv : TreeInv t s) (p : P) {depth : Nat}
    (depthLt : depth < t.height) : (s.machine.ptable (t.slot p depth)).active ≠ 0 :=
  inv.active _ _ depthLt (Tree.ancestor_lt (t.leaf_lt p) (Nat.le_of_lt depthLt))

variable [DecidableEq P]

/-- Two processes registered with the same role at a node are both critical at
the child below it, so the roles at a node are unique once the locks of the
level below exclude. -/
theorem rolesUnique_node {s : System P Process}
    (stand : forall p, Stand t p (s.user p).point (s.machine.frame p) (s.user p).held)
    {depth offset : Nat} (depthLt : depth < t.height) (offsetLt : offset < 2 ^ depth)
    (below : depth + 1 < t.height -> forall offset', offset' < 2 ^ (depth + 1) ->
      Exclusive (phases Process.held s (t.nodeSlot (depth + 1) offset'))) :
    RolesUnique (phases Process.held s (t.nodeSlot depth offset)) := by
  intro a b r registeredA registeredB
  obtain ⟨ea, eaLt, slotA, roleA, aboveA⟩ := (stand a).registered registeredA
  obtain ⟨eb, ebLt, slotB, roleB, aboveB⟩ := (stand b).registered registeredB
  obtain ⟨rfl, offsetA⟩ := nodeSlot_eq_slot depthLt offsetLt eaLt slotA
  obtain ⟨rfl, offsetB⟩ := nodeSlot_eq_slot depthLt offsetLt ebLt slotB
  by_contra different
  have leaves : t.leafOf a ≠ t.leafOf b := fun same => different (t.leaf_injective same)
  have sameNode : Tree.pathNode t.height depth (t.leafOf a) =
      Tree.pathNode t.height depth (t.leafOf b) := by
    unfold Tree.pathNode
    rw [← offsetA, ← offsetB]
  have sameBranch : Tree.branch t.height depth (t.leafOf a) =
      Tree.branch t.height depth (t.leafOf b) :=
    congrArg Fin.val (roleA.symm.trans roleB)
  -- the two leaves go on through the same child, where both are critical
  obtain ⟨next, sameChild⟩ :=
    (Tree.pathNode_branch_eq_iff (t.leaf_lt a) (t.leaf_lt b) leaves depthLt).mp ⟨sameNode, sameBranch⟩
  have criticalA := aboveA (depth + 1) (by omega) next
  have criticalB := aboveB (depth + 1) (by omega) next
  have sameSlot : t.slot b (depth + 1) = t.slot a (depth + 1) := by
    unfold slot node
    rw [sameChild]
  rw [sameSlot] at criticalB
  exact different
    (below next _ (Tree.ancestor_lt (t.leaf_lt a) (Nat.le_of_lt next)) a b _ _ criticalA criticalB)

/-- The roles are unique at every node of the tree. -/
theorem TreeInv.rolesUnique {s : System P Process} (inv : TreeInv t s) {depth offset : Nat}
    (depthLt : depth < t.height) (offsetLt : offset < 2 ^ depth) :
    RolesUnique (phases Process.held s (t.nodeSlot depth offset)) := by
  -- from the leaves up: the locks below exclude because their roles are unique
  have levels := @Tree.levels_from_bottom t.height
    (fun depth => forall offset, offset < 2 ^ depth ->
      RolesUnique (phases Process.held s (t.nodeSlot depth offset)))
    (fun depth depthLt above offset offsetLt =>
      rolesUnique_node inv.stand depthLt offsetLt fun next offset' offsetLt' =>
        (inv.slots _ _ next offsetLt').protocol.exclusive (above next offset' offsetLt'))
  exact levels depth depthLt offset offsetLt

theorem TreeInv.stand_step {s s' : System P Process} {label : Option (Label P)}
    (inv : TreeInv t s) (stepped : (rounds t.globals).Step s label s') :
    forall p, Stand t p (s'.user p).point (s'.machine.frame p) (s'.user p).held := by
  cases stepped with
  | @call seen machine starts machineStep =>
      intro q
      by_cases same : q = seen.process
      · subst same
        simp only [Function.update_self]
        exact Stand.call machineStep (inv.stand _) starts fun _ depthLt => inv.active_slot _ depthLt
      · simp only [Function.update_of_ne same]
        rw [machineStep.frame_of_ne same]
        exact inv.stand q
  | @internal p u idle internal =>
      intro q
      by_cases same : q = p
      · subst same
        simp only [Function.update_self]
        have stand := inv.stand q
        rw [idle] at stand ⊢
        rw [internal.2]
        exact stand.advance internal.1
      · simp only [Function.update_of_ne same]
        exact inv.stand q

/-- Every step keeps the invariant.  The locks of the tree are taken from the
leaves up: at each node the roles stay unique because the locks below still
exclude, and then the lock's own invariant is kept. -/
theorem TreeInv.step {s s' : System P Process} {label : Option (Label P)} (inv : TreeInv t s)
    (stepped : (rounds t.globals).Step s label s') : TreeInv t s' := by
  have stand' := inv.stand_step stepped
  have kept : forall depth offset, depth < t.height -> offset < 2 ^ depth ->
      (s'.machine.ptable (t.nodeSlot depth offset)).active ≠ 0 := fun depth offset depthLt offsetLt =>
    programStep_keeps_active stepped (rounds_not_frees stepped _) (inv.active _ _ depthLt offsetLt)
  have levels := @Tree.levels_from_bottom t.height
    (fun depth => forall offset, offset < 2 ^ depth ->
      SlotInv (s'.machine.ptable (t.nodeSlot depth offset))
          (phases Process.held s' (t.nodeSlot depth offset)) ∧
        RolesUnique (phases Process.held s' (t.nodeSlot depth offset)))
    (fun depth depthLt above offset offsetLt => by
      have unique' := rolesUnique_node stand' depthLt offsetLt fun next offset' offsetLt' =>
        (above next offset' offsetLt').1.protocol.exclusive (above next offset' offsetLt').2
      refine ⟨?_, unique'⟩
      rcases (rounds_disciplined t.globals).slotMove stepped (t.nodeSlot depth offset) with
        ⟨samePtable, samePhases⟩ | moved
      · rw [samePtable, samePhases]
        exact inv.slots _ _ depthLt offsetLt
      · exact (inv.slots _ _ depthLt offsetLt).move (inv.rolesUnique depthLt offsetLt) moved unique'
          (programStep_keeps_active stepped (rounds_not_frees stepped _)))
  exact ⟨stand', kept, fun depth offset depthLt offsetLt => (levels depth depthLt offset offsetLt).1⟩

/-- The invariant holds along every run from the state `tournament_create`
leaves. -/
theorem TreeInv.of_run {s₀ s : System P Process} {labels : List (Option (Label P))}
    (start : Start t s₀) (run : Run (rounds t.globals).Step s₀ labels s) : TreeInv t s :=
  Run.invariant (TreeInv t) (TreeInv.start start) (fun _ _ _ inv stepped => inv.step stepped) run

/-! ## Mutual exclusion -/

/-- At most one process is in the critical section: such a process holds the
root lock, and in a tree of one leaf there is one process. -/
theorem TreeInv.critical_unique {s : System P Process} (inv : TreeInv t s) {p q : P}
    (criticalP : (s.user p).point = .critical) (criticalQ : (s.user q).point = .critical) :
    p = q := by
  by_cases zero : t.height = 0
  · have leafP := t.leaf_lt p
    have leafQ := t.leaf_lt q
    rw [zero] at leafP leafQ
    exact t.leaf_injective (by omega)
  have rootLt : 0 < t.height := Nat.pos_of_ne_zero zero
  have atRoot : forall a, (s.user a).point = .critical ->
      phases Process.held s (t.nodeSlot 0 0) a = .critical (t.role a 0) := by
    intro a critical
    have stand := inv.stand a
    rw [critical] at stand
    obtain ⟨idle, holds⟩ := stand.of_critical
    have root : t.nodeSlot 0 0 = t.slot a 0 := by
      unfold nodeSlot slot node
      rw [Tree.pathNode_root (t.leaf_lt a)]
      rfl
    simp only [phases, phaseMap, Function.comp_apply, idle, holds, root, phaseOf_none]
    exact heldPhase_heldFrom a (le_refl 0) rootLt
  exact (inv.slots 0 0 rootLt (by decide)).protocol.exclusive (inv.rolesUnique rootLt (by decide))
    p q _ _ (atRoot p criticalP) (atRoot q criticalQ)

end Tree

end Layout

/-- The processes of the layout after boot, at the start of their rounds. -/
def bootStart (height : Nat) : System (Fin (2 ^ height)) Process :=
  startState (bootTable height)

theorem start_bootStart (height : Nat) (small : height ≤ 4) :
    (bootLayout height small).Start (bootStart height) := by
  apply Layout.start_startState
  intro k kLt
  have bound : 2 ^ height ≤ 2 ^ 4 := Nat.pow_le_pow_right (by decide) small
  have slots : NPETERSONLOCKS = 16 := rfl
  have inTable : ((bootLayout height small).slotOf k).val < 2 ^ height - 1 := by
    simp only [bootLayout, List.length_map, List.length_range] at kLt ⊢
    rw [Nat.mod_eq_of_lt (by omega)]
    exact kLt
  simp only [bootTable, if_pos inTable]
  rfl

/-- The processes in their critical sections. -/
def insideCritical (s : System P Process) : Set P :=
  {p | (s.user p).point = .critical}

instance (s : System P Process) (p : P) : Decidable (p ∈ insideCritical s) :=
  inferInstanceAs (Decidable ((s.user p).point = .critical))

/-- After boot, with two processes: `a` enters `tournament_acquire` and takes
the lock of the root with role `0`, `b` enters and waits there with role `1`,
and `a` enters its critical section. -/
def firstAtRoot (a b : P) : List (Option (Label P)) :=
  [none, some ⟨a, .petersonAcquire 0 0, some 0⟩, none, some ⟨b, .petersonAcquire 0 1, none⟩, none]

/-- `firstAtRoot`, and then `a` leaves its critical section and releases the
root, which opens the lock for `b`. -/
def releaseAtRoot (a b : P) : List (Option (Label P)) :=
  firstAtRoot a b ++ [none, some ⟨a, .petersonRelease 0 0, some 0⟩]

/-- The states along `releaseAtRoot 0 1`: before process `0` enters its critical
section, both processes are inside `tournament_acquire`; then process `0` is
the one process inside; after its release, process `1` waits on an open lock. -/
theorem releaseAtRoot_trace :
    exists s₄ s₅ s₇, Run (rounds (bootLayout 1 (by decide)).globals).Step (bootStart 1) (List.take 4 (firstAtRoot 0 1)) s₄ ∧
      (rounds (bootLayout 1 (by decide)).globals).Step s₄ none s₅ ∧ Run (rounds (bootLayout 1 (by decide)).globals).Step (bootStart 1) (firstAtRoot 0 1) s₅ ∧
      Run (rounds (bootLayout 1 (by decide)).globals).Step (bootStart 1) (releaseAtRoot 0 1) s₇ ∧
      (exists p l, (s₄.user p).point = .acquiring l) ∧ (forall p, (s₄.user p).point ≠ .critical) ∧
      (forall p l, (s₄.user p).point ≠ .releasing l) ∧
      insideCritical s₄ = ∅ ∧ insideCritical s₅ = {0} ∧
      s₇.machine.frame 1 = some (.waiting 0 1) ∧ ¬ (s₇.machine.ptable 0).waitCondition 1 := by
  have entered₀ := Run.single
    (@Program.Step.internal _ _ _ (rounds (bootLayout 1 (by decide)).globals) (bootStart 1) 0 ⟨.acquiring (.ofNat 0), _⟩ rfl ⟨by decide, rfl⟩)
  have acquired₀ := Run.snoc entered₀
    (show (rounds (bootLayout 1 (by decide)).globals).Step _ (some ⟨0, .petersonAcquire 0 0, some 0⟩) _ from .call (fun _ => ⟨by decide, rfl⟩) (Machine.step_of_next rfl))
  have entered₁ := Run.snoc acquired₀ (@Program.Step.internal _ _ _ (rounds (bootLayout 1 (by decide)).globals) _ 1 ⟨.acquiring (.ofNat 0), _⟩ rfl ⟨by decide, rfl⟩)
  have waits₁ := Run.snoc entered₁
    (show (rounds (bootLayout 1 (by decide)).globals).Step _ (some ⟨1, .petersonAcquire 0 1, none⟩) _ from .call (fun _ => ⟨by decide, rfl⟩) (Machine.step_of_next rfl))
  -- the step into the critical section is stated twice: once on its own, once in the run
  have critical₀ := Run.snoc waits₁ (@Program.Step.internal _ _ _ (rounds (bootLayout 1 (by decide)).globals) _ 0 ⟨.critical, _⟩ rfl ⟨by decide, rfl⟩)
  have leaves₀ := Run.snoc critical₀ (@Program.Step.internal _ _ _ (rounds (bootLayout 1 (by decide)).globals) _ 0 ⟨.releasing 0, _⟩ rfl ⟨by decide, rfl⟩)
  have released₀ := Run.snoc leaves₀
    (show (rounds (bootLayout 1 (by decide)).globals).Step _ (some ⟨0, .petersonRelease 0 0, some 0⟩) _ from .call (fun _ => ⟨by decide, rfl⟩) (Machine.step_of_next rfl))
  exact ⟨_, _, _, waits₁, @Program.Step.internal _ _ _ (rounds (bootLayout 1 (by decide)).globals) _ 0 ⟨.critical, _⟩ rfl ⟨by decide, rfl⟩, critical₀, released₀, ⟨0, _, rfl⟩, by decide,
    fun p l => by fin_cases p <;> nofun, Set.eq_empty_of_forall_notMem fun p => by fin_cases p <;> decide,
    Set.ext fun p => by fin_cases p <;> decide, rfl, by decide⟩

section Guarantees

variable [DecidableEq P]

/-- Mutual exclusion of the tournament.  Along every run of rounds from the
state `tournament_create` leaves, the roles registered at each lock of the
tree are unique, which is what the Peterson lock there needs, and at most one
process is in its critical section. -/
theorem tournamentMutualExclusion (t : Layout P) {s₀ s : System P Process}
    {labels : List (Option (Label P))} (start : t.Start s₀)
    (run : Run (rounds t.globals).Step s₀ labels s) :
    (forall k, k < 2 ^ t.height - 1 -> RolesUnique (phases Process.held s (t.slotOf k))) ∧
      forall p q, (s.user p).point = .critical -> (s.user q).point = .critical -> p = q := by
  have inv := Layout.TreeInv.of_run start run
  refine ⟨fun k kLt => ?_, fun p q criticalP criticalQ => inv.critical_unique criticalP criticalQ⟩
  -- every index below `2 ^ height - 1` is a node of the tree
  obtain ⟨depth, offset, depthLt, offsetLt, rfl⟩ := Tree.exists_node kLt
  exact inv.rolesUnique depthLt offsetLt

/-- After boot, with two processes, along `firstAtRoot 0 1`: process `0` is in
its critical section while process `1` waits at the root. -/
theorem tournamentMutualExclusion_firstAtRoot :
    exists s, Run (rounds (bootLayout 1 (by decide)).globals).Step (bootStart 1) (firstAtRoot 0 1) s ∧ insideCritical s = {0} ∧
      (forall k, k < 2 ^ 1 - 1 ->
          RolesUnique (phases Process.held s ((bootLayout 1 (by decide)).slotOf k))) ∧
        forall p q, (s.user p).point = .critical -> (s.user q).point = .critical -> p = q := by
  obtain ⟨-, s, -, -, -, run, -, -, -, -, -, inside, -, -⟩ := releaseAtRoot_trace
  exact ⟨s, run, inside,
    tournamentMutualExclusion (bootLayout 1 (by decide)) (start_bootStart 1 (by decide)) run⟩

/-- The routines never fail on the layout: along every run from the state
`tournament_create` leaves, neither `tournament_acquire` nor
`tournament_release` returns `-1`, so no process reaches the `exit(1)` that
`main` makes then. -/
theorem tournamentRoutines_succeed (t : Layout P) {s₀ s : System P Process}
    {labels : List (Option (Label P))} (start : t.Start s₀)
    (run : Run (rounds t.globals).Step s₀ labels s) :
    forall p status, (s.user p).point ≠ .exited status := by
  intro p status exited
  have stand := (Layout.TreeInv.of_run start run).stand p
  rw [exited] at stand
  cases stand

theorem tournamentRoutines_succeed_firstAtRoot :
    exists s, Run (rounds (bootLayout 1 (by decide)).globals).Step (bootStart 1) (firstAtRoot 0 1) s ∧ insideCritical s = {0} ∧
      forall p status, (s.user p).point ≠ .exited status := by
  obtain ⟨-, s, -, -, -, run, -, -, -, -, -, inside, -, -⟩ := releaseAtRoot_trace
  exact ⟨s, run, inside,
    tournamentRoutines_succeed (bootLayout 1 (by decide)) (start_bootStart 1 (by decide)) run⟩

/-! ## The tree implements a lock -/

namespace Layout

variable {t : Layout P}

theorem TreeInv.insideCritical_subsingleton {s : System P Process} (inv : TreeInv t s) :
    (insideCritical s).Subsingleton :=
  fun _ criticalP _ criticalQ => inv.critical_unique criticalP criticalQ

/-- Each step, seen on the processes in their critical sections, is a move of
the abstract lock or no move. -/
theorem TreeInv.lockStep {s s' : System P Process} {label : Option (Label P)} (inv : TreeInv t s)
    (stepped : (rounds t.globals).Step s label s') :
    Relation.ReflGen Lock.Step (insideCritical s) (insideCritical s') := by
  obtain ⟨p, others⟩ := stepped.exists_mover
  refine Lock.step_of_mover p (fun q other => ?_) inv.insideCritical_subsingleton
    (inv.step stepped).insideCritical_subsingleton
  show (s'.user q).point = .critical ↔ (s.user q).point = .critical
  rw [others q other]

end Layout

/-- The tournament refines the abstract lock.  From the state
`tournament_create` leaves, the set of processes in their critical sections
starts empty, and each step from a state that the rounds reach leaves it as
it is, lets one process enter while it is empty, or lets the process inside
leave. -/
theorem tournamentTree_refinesLock (t : Layout P) {s₀ : System P Process} (start : t.Start s₀) :
    Refinement (rounds t.globals).Step s₀ Lock.Step ∅ insideCritical := by
  refine Refinement.of_invariant insideCritical (Layout.TreeInv t) (Layout.TreeInv.start start)
    (fun _ _ _ inv stepped => inv.step stepped) ?_ (fun _ _ _ inv stepped => inv.lockStep stepped)
  -- every process starts in its remainder section
  refine Set.eq_empty_of_forall_notMem fun p critical => ?_
  have outside := congrArg Process.point (start.remainder p)
  rw [show (s₀.user p).point = .critical from critical] at outside
  cases outside

/-- After boot, with two processes, the step in which process `0` enters its
critical section moves the abstract lock from empty to holding process `0`. -/
theorem tournamentTree_refinesLock_enter :
    exists s s', Run (rounds (bootLayout 1 (by decide)).globals).Step (bootStart 1) (List.take 4 (firstAtRoot 0 1)) s ∧
      (rounds (bootLayout 1 (by decide)).globals).Step s none s' ∧ insideCritical s = ∅ ∧ insideCritical s' = {0} ∧
      Relation.ReflGen Lock.Step (insideCritical s) (insideCritical s') := by
  obtain ⟨s, s', -, run, stepped, -, -, -, -, -, empty, inside, -, -⟩ := releaseAtRoot_trace
  exact ⟨s, s', run, stepped, empty, inside,
    (tournamentTree_refinesLock (bootLayout 1 (by decide)) (start_bootStart 1 (by decide))).maps_step
      run stepped⟩

/-! ## Every process that is not blocked moves -/

namespace Layout

variable {t : Layout P}

/-- Process `p` can take a step that changes its user state or its frame. -/
def Moves (t : Layout P) (s : System P Process) (p : P) : Prop :=
  exists label s', (rounds t.globals).Step s label s' ∧
    (s'.user p ≠ s.user p ∨ s'.machine.frame p ≠ s.machine.frame p)

/-- A user step to another point moves the process. -/
theorem internal_moves {s : System P Process} {p : P} {point : Point}
    (idle : s.machine.frame p = none) (advanced : advance (t.globals p) (s.user p).point = some point)
    (other : point ≠ (s.user p).point) : t.Moves s p := by
  refine ⟨none, _, .internal idle (show (rounds t.globals).internal p (s.user p)
    ⟨point, (s.user p).held⟩ from ⟨advanced, rfl⟩), Or.inl ?_⟩
  simp only [Function.update_self]
  exact fun same => other (congrArg Process.point same)

/-- A call that changes what the process holds at some slot moves it. -/
theorem held_moves {s s' : System P Process} {label : Option (Label P)} {p : P}
    (stepped : (rounds t.globals).Step s label s') (slot : Fin NPETERSONLOCKS)
    (changed : (s'.user p).held slot ≠ (s.user p).held slot) : t.Moves s p :=
  ⟨label, s', stepped, Or.inl fun same => changed (by rw [same])⟩

/-- A process in no call moves: the checks and loop ends of the routines are
user steps, and the call a point names is always allowed by the locks the
process holds, so the auxiliary holdings never hold it back. -/
theorem TreeInv.idle_moves {s : System P Process} (inv : TreeInv t s) {p : P}
    (idle : s.machine.frame p = none) : t.Moves s p := by
  have stand := inv.stand p
  rw [idle] at stand
  generalize pointIs : (s.user p).point = point at stand
  generalize heldIs : (s.user p).held = held at stand
  cases stand with
  | remainder =>
      refine internal_moves idle (by rw [pointIs]; exact advance_remainder p) ?_
      rw [pointIs]
      split <;> simp
  | acquired =>
      refine internal_moves idle (by rw [pointIs]; exact advance_acquired _) ?_
      rw [pointIs]
      simp
  | critical =>
      refine internal_moves idle (by rw [pointIs]; exact advance_critical p) ?_
      rw [pointIs]
      split <;> simp
  | @entering depth depthLt =>
      -- the entry region of the acquire of level `depth`, on a slot the process does not hold
      have valid := checkArgs_layout p depthLt
      have free : (s.user p).held (t.slot p depth) = none := by
        rw [heldIs]
        exact heldFrom_eq_none.mpr fun e low eLt same => by
          have := slot_injective_depth p eLt depthLt same
          omega
      have allowed : Allowed (s.user p).held
          (.petersonAcquire (t.lockId p depth).toInt (t.role p depth).val) :=
        (allowed_acquire_iff valid).mpr free
      have machineStep := Machine.Step.acquireEnter idle valid
      have stepped : (rounds t.globals).Step s (some _) _ :=
        .call (fun _ => ⟨by rw [pointIs]; exact callAt_acquiring p depthLt, allowed⟩) machineStep
      rcases machineStep.acquire_active rfl valid (inv.active_slot p depthLt) with
        ⟨-, waiting⟩ | ⟨returned, -⟩
      · exact ⟨_, _, stepped, Or.inr (by rw [waiting, idle]; simp)⟩
      · refine held_moves stepped (t.slot p depth) ?_
        simp only at returned
        simp [Program.after, rounds, returned, grant_acquire valid, free]
  | @releasing depth depthLe =>
      by_cases top : depth = t.height
      · subst top
        refine internal_moves idle (by rw [pointIs]; exact advance_releasing_top p) ?_
        rw [pointIs]
        simp
      -- the release of level `depth`, which the process holds
      have depthLt : depth < t.height := by omega
      have valid := checkArgs_layout p depthLt
      have holds : (s.user p).held (t.slot p depth) = some (t.role p depth) := by
        rw [heldIs]
        exact heldFrom_eq_some.mpr ⟨depth, le_refl _, depthLt, rfl, rfl⟩
      have allowed : Allowed (s.user p).held
          (.petersonRelease (t.lockId p depth).toInt (t.role p depth).val) :=
        (allowed_release_iff valid).mpr holds
      have machineStep :=
        @Machine.Step.release P _ s.machine p (t.lockId p depth).toInt (t.role p depth).val idle
      have stepped : (rounds t.globals).Step s (some _) _ :=
        .call (fun _ => ⟨by rw [pointIs]; exact callAt_releasing p depthLt, allowed⟩) machineStep
      refine held_moves stepped (t.slot p depth) ?_
      simp [Program.after, rounds, grant_release valid, holds]

/-- A process in the wait loop of an open lock moves: its re-check returns. -/
theorem TreeInv.recheck_moves {s : System P Process} (inv : TreeInv t s) {p : P}
    {slot : Fin NPETERSONLOCKS} {role : Fin 2}
    (waiting : s.machine.frame p = some (.waiting slot role))
    (opened : ¬ (s.machine.ptable slot).waitCondition role) : t.Moves s p := by
  have stand := inv.stand p
  rw [waiting] at stand
  obtain ⟨depth, depthLt, -, same⟩ := stand.of_some
  cases same
  have machineStep := Machine.Step.acquireRecheck waiting
  refine ⟨_, _, .call (fun idle => absurd (waiting.symm.trans idle) (by simp)) machineStep,
    Or.inr ?_⟩
  show (s.machine.settle _ _ _ _ _).frame p ≠ s.machine.frame p
  rw [Machine.settle_frame, Function.update_self, waiting,
    acquireTest_of_active (inv.active_slot p depthLt), if_neg opened]
  simp

/-- A process that is not waiting on a closed lock moves. -/
theorem TreeInv.unblocked_moves {s : System P Process} (inv : TreeInv t s) {p : P}
    (unblocked : s.machine.frame p = none ∨ exists slot role,
      s.machine.frame p = some (.waiting slot role) ∧ ¬ (s.machine.ptable slot).waitCondition role) :
    t.Moves s p := by
  rcases unblocked with idle | ⟨slot, role, waiting, opened⟩
  · exact inv.idle_moves idle
  · exact inv.recheck_moves waiting opened

end Layout

/-- Progress of each process: along every run from the state
`tournament_create` leaves, a process that is not waiting on a closed lock in
`peterson_acquire` can take a step that changes its state. -/
theorem tournamentProcess_moves (t : Layout P) {s₀ s : System P Process}
    {labels : List (Option (Label P))} (start : t.Start s₀)
    (run : Run (rounds t.globals).Step s₀ labels s) (p : P)
    (unblocked : s.machine.frame p = none ∨ exists slot role,
      s.machine.frame p = some (.waiting slot role) ∧ ¬ (s.machine.ptable slot).waitCondition role) :
    t.Moves s p := by
  exact (Layout.TreeInv.of_run start run).unblocked_moves unblocked

/-- After boot, with two processes, along `releaseAtRoot 0 1`: process `1` waits
on the root after process `0` has released it, and its next test returns. -/
theorem tournamentProcess_moves_released :
    exists s, Run (rounds (bootLayout 1 (by decide)).globals).Step (bootStart 1) (releaseAtRoot 0 1) s ∧
      s.machine.frame 1 = some (.waiting 0 1) ∧ ¬ (s.machine.ptable 0).waitCondition 1 ∧
      (bootLayout 1 (by decide)).Moves s 1 := by
  obtain ⟨-, -, s, -, -, -, run, -, -, -, -, -, waiting, opened⟩ := releaseAtRoot_trace
  exact ⟨s, run, waiting, opened, tournamentProcess_moves (bootLayout 1 (by decide))
    (start_bootStart 1 (by decide)) run 1 (Or.inr ⟨0, 1, waiting, opened⟩)⟩

/-- The auxiliary lock rules never block the rounds: along every run from the
state `tournament_create` leaves, a process in no call is allowed the call its
point names. -/
theorem rounds_allowed (t : Layout P) {s₀ s : System P Process} {labels : List (Option (Label P))}
    (start : t.Start s₀) (run : Run (rounds t.globals).Step s₀ labels s) (p : P)
    (idle : s.machine.frame p = none) {call : Syscall}
    (named : callAt (t.globals p) (s.user p).point = some call) : Allowed (s.user p).held call := by
  have stand := (Layout.TreeInv.of_run start run).stand p
  rw [idle] at stand
  exact stand.allowed named

end Guarantees

/-! ## Deadlock freedom -/

/-- Process `p` is inside `tournament_acquire` and can take a step other than
a blocked re-check: it is in no kernel call, so that it enters
`peterson_acquire` at its next level or returns, or it waits on a lock whose
wait condition is false. -/
def MayProceed (s : System P Process) (p : P) : Prop :=
  (exists l, (s.user p).point = .acquiring l) ∧
    (s.machine.frame p = none ∨ exists slot role,
      s.machine.frame p = some (.waiting slot role) ∧ ¬ (s.machine.ptable slot).waitCondition role)

namespace Layout

variable {t : Layout P}

/-- A process in a kernel call is inside `tournament_acquire`. -/
theorem TreeInv.inside_of_call {s : System P Process} (inv : TreeInv t s) {p : P}
    {frame : Frame} (inCall : s.machine.frame p = some frame) :
    exists l, (s.user p).point = .acquiring l := by
  have stand := inv.stand p
  rw [inCall] at stand
  obtain ⟨depth, -, atLevel, -⟩ := stand.of_some
  exact ⟨_, atLevel⟩

/-- Where the wait condition of a process's lock holds, the other role there
is taken, by a process that waits on the same lock or holds it. -/
theorem TreeInv.blocker {s : System P Process} (inv : TreeInv t s) {p : P} {depth : Nat}
    (depthLt : depth < t.height)
    (blocked : (s.machine.ptable (t.slot p depth)).waitCondition (t.role p depth)) :
    exists q, s.machine.frame q = some (.waiting (t.slot p depth) (1 - t.role p depth)) ∨
      (s.user q).held (t.slot p depth) = some (1 - t.role p depth) := by
  obtain ⟨q, registered⟩ := ((inv.slotInv p depthLt).protocol.flag_iff _).mp blocked.1
  exact ⟨q, phaseOf_role_eq_some registered⟩

/-- The induction of deadlock freedom, on the depth of a waiting process from
the root down.  A process blocked at depth `depth` sees the other role at its
lock taken: by a process that waits on the same lock and is not blocked, as
the turn is not its own, or by a process that holds the lock, which is about
to make a call or waits nearer the root. -/
theorem TreeInv.mayProceed_of_waiting {s : System P Process} (inv : TreeInv t s)
    (noCritical : forall p, (s.user p).point ≠ .critical)
    (noReleasing : forall p l, (s.user p).point ≠ .releasing l) (depth : Nat) :
    forall p, depth < t.height ->
      s.machine.frame p = some (.waiting (t.slot p depth) (t.role p depth)) ->
      exists q, MayProceed s q := by
  refine Nat.strong_induction_on depth ?_
  intro depth nearer p depthLt waiting
  by_cases blocked : (s.machine.ptable (t.slot p depth)).waitCondition (t.role p depth)
  · obtain ⟨q, qWaits | qHolds⟩ := inv.blocker depthLt blocked
    · exact ⟨q, inv.inside_of_call qWaits,
        Or.inr ⟨_, _, qWaits, PetersonLock.not_waitCondition_one_sub _ blocked⟩⟩
    · obtain ⟨inside, idle | ⟨d, dLt, dHeight, qWaits⟩⟩ :=
        (inv.stand q).holding depthLt qHolds (noCritical q) (noReleasing q)
      · exact ⟨q, inside, Or.inl idle⟩
      · exact nearer d dLt q dHeight qWaits
  · exact ⟨p, inv.inside_of_call waiting, Or.inr ⟨_, _, waiting, blocked⟩⟩

end Layout

section Guarantees

variable [DecidableEq P]

/-- Deadlock freedom of the tournament.  In a state reached from the one
`tournament_create` leaves, where some process is inside `tournament_acquire`
and none is in its critical section or inside `tournament_release`, some
process inside `tournament_acquire` is not blocked in a re-check, and it has a
step that changes its state. -/
theorem tournamentDeadlockFree (t : Layout P) {s₀ s : System P Process}
    {labels : List (Option (Label P))} (start : t.Start s₀)
    (run : Run (rounds t.globals).Step s₀ labels s)
    (inside : exists p l, (s.user p).point = .acquiring l)
    (noCritical : forall p, (s.user p).point ≠ .critical)
    (noReleasing : forall p l, (s.user p).point ≠ .releasing l) :
    exists p, MayProceed s p ∧ t.Moves s p := by
  have inv := Layout.TreeInv.of_run start run
  obtain ⟨p, l, acquiring⟩ := inside
  have proceeds : exists q, MayProceed s q := by
    cases inCall : s.machine.frame p with
    | none => exact ⟨p, ⟨l, acquiring⟩, Or.inl inCall⟩
    | some frame =>
        -- a process in a call waits at some level, where the induction starts
        have stand := inv.stand p
        rw [inCall] at stand
        obtain ⟨depth, depthLt, -, rfl⟩ := stand.of_some
        exact inv.mayProceed_of_waiting noCritical noReleasing depth p depthLt inCall
  obtain ⟨q, mayProceed⟩ := proceeds
  exact ⟨q, mayProceed, inv.unblocked_moves mayProceed.2⟩

/-- After boot, with two processes, along the first four steps of
`firstAtRoot 0 1`: process `0` has the lock of the root and process `1` waits
there. -/
theorem tournamentDeadlockFree_atRoot :
    exists s, Run (rounds (bootLayout 1 (by decide)).globals).Step (bootStart 1) (List.take 4 (firstAtRoot 0 1)) s ∧
      (exists p l, (s.user p).point = .acquiring l) ∧ (forall p, (s.user p).point ≠ .critical) ∧
      (forall p l, (s.user p).point ≠ .releasing l) ∧
      exists p, MayProceed s p ∧ (bootLayout 1 (by decide)).Moves s p := by
  obtain ⟨s, -, -, run, -, -, -, inside, noCritical, noReleasing, -⟩ := releaseAtRoot_trace
  exact ⟨s, run, inside, noCritical, noReleasing, tournamentDeadlockFree (bootLayout 1 (by decide))
    (start_bootStart 1 (by decide)) run inside noCritical noReleasing⟩

end Guarantees

end Tournament
end Xv6Peterson
