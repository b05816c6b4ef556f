import Xv6Peterson.Tournament.Library
import Xv6Peterson.Peterson.Client

namespace Xv6Peterson
namespace Tournament

open Kernel Peterson Word

/-!
# The lock routines as a user program

`tournament_acquire` and `tournament_release` run on top of the kernel: each
iteration of their loops computes the lock and the role of one level and makes
one Peterson call.  A process of `user/tournament.c` calls the first, runs
its critical section, and calls the second; `rounds` lets it do so any number
of times, which is the setting of the tournament's guarantees.  The points
between the steps of a process are `Point`s: the loop counters are the `int`s
of the source, and a routine that returns `-1` makes the program `exit(1)`.

A process starts the call its point names.  The locks it holds are an
auxiliary variable (`Process.held`), which the calls' results update through
`grant`: with it the program follows the rules of `Peterson/Client.lean` by
construction, and the per-lock projection of that module applies.  That the
auxiliary variable is what the point says, and that it never holds a process
back, is proved over the runs from the state `tournament_create` leaves
(`Tournament/Exclusion.lean`).

`Layout` is that state's tree: `2 ^ height` leaves, the kernel ids of the
inner nodes' locks in distinct slots, and a leaf for each process.  On it the
routines' `int` arithmetic is the tree arithmetic of `Tree/HeapIndex.lean`
(`levelStep_layout`).
-/

variable {P : Type*}

/-! ## Points and steps -/

/-- Where a process stands between its steps. -/
inductive Point
  /-- Outside the routines: the next thing it does is call `tournament_acquire`. -/
  | remainder
  /-- In `tournament_acquire`, at the test of its loop with level `l`. -/
  | acquiring (l : Int32)
  /-- `tournament_acquire` returned `0` and `tournament_release` is not called yet. -/
  | critical
  /-- In `tournament_release`, at the test of its loop with level `l`. -/
  | releasing (l : Int32)
  /-- The program has called `exit(status)`. -/
  | exited (status : Int32)
  deriving DecidableEq, Repr

/-- The checks that open `tournament_acquire` and `tournament_release`, which
are the same in both: the value the routine returns at once, or `none` when
it goes on to its loop. -/
def routineChecks (g : Globals) : Option Int32 :=
  if g.myId = -1 then some (-1)
  else if g.nProcesses ≤ 0 then some (-1)
  else if g.nProcesses = 1 then some 0
  else if g.numTotalLocks > 0 ∧ g.lockIds = none then some (-1)
  else none

/-- What the body of either loop does at one level before its call. -/
inductive LevelStep
  /-- `array_idx` is out of bounds: the routine returns `-1`. -/
  | outOfBounds
  /-- The call goes to the lock `lockId` with the role `role`. -/
  | lock (lockId role : Int32)
  deriving DecidableEq, Repr

/-- `peterson_lock_ids_array[idx]`, when the array holds that entry. -/
def lockAt (g : Globals) (idx : Int32) : Option Int32 :=
  g.lockIds.bind fun ids => ids[idx.toInt.toNat]?

/-- The body of both loops at level `l` up to its call; `none` where it would
read an entry of the array that was never written. -/
def levelStep (g : Globals) (l : Int32) : Option LevelStep :=
  let idx := arrayIdx g.lLevels g.myId l
  if idx < 0 ∨ idx ≥ g.numTotalLocks then some .outOfBounds
  else (lockAt g idx).map fun lockId => .lock lockId (roleAtLevel g.lLevels g.myId l)

/-- The call a process makes next at `point`, if it is at one. -/
def callAt (g : Globals) : Point -> Option Syscall
  | .acquiring l =>
      if l ≥ 0 then
        match levelStep g l with
        | some (.lock lockId role) => some (.petersonAcquire lockId.toInt role.toInt)
        | _ => none
      else none
  | .releasing l =>
      if l < g.lLevels then
        match levelStep g l with
        | some (.lock lockId role) => some (.petersonRelease lockId.toInt role.toInt)
        | _ => none
      else none
  | _ => none

/-- A routine returning `value` to `main` in `user/tournament.c`: a negative
value ends the program with `exit(1)`, and anything else goes on to `next`. -/
def returnTo (next : Point) (value : Int32) : Point :=
  if value < 0 then .exited 1 else next

/-- Where a process goes on from `point` once its call returns `value`: a
negative value makes the routine return `-1`, and otherwise the loop moves to
its next level. -/
def resume : Point -> Int -> Point
  | .acquiring l, value => if value < 0 then returnTo .critical (-1) else .acquiring (l - 1)
  | .releasing l, value => if value < 0 then returnTo .remainder (-1) else .releasing (l + 1)
  | point, _ => point

/-- The step a process takes at `point` without a call, if it takes one: the
checks that open a routine, an index out of bounds, and the end of a loop. -/
def advance (g : Globals) : Point -> Option Point
  | .remainder =>
      some (match routineChecks g with
        | some value => returnTo .critical value
        | none => .acquiring (g.lLevels - 1))
  | .acquiring l =>
      if l ≥ 0 then
        match levelStep g l with
        | some .outOfBounds => some (returnTo .critical (-1))
        | _ => none
      else some (returnTo .critical 0)
  | .critical =>
      some (match routineChecks g with
        | some value => returnTo .remainder value
        | none => .releasing 0)
  | .releasing l =>
      if l < g.lLevels then
        match levelStep g l with
        | some .outOfBounds => some (returnTo .remainder (-1))
        | _ => none
      else some (returnTo .remainder 0)
  | .exited _ => none

/-! ## The program -/

/-- A process: its point, and the locks it holds, an auxiliary variable that
only the results of its calls change. -/
structure Process where
  point : Point
  held : Holding

/-- Processes that run rounds of the lock routines, each with the globals
`globalsOf p` that `tournament_create` gave it.  A process starts the call its
point names, among the calls the locks it holds allow. -/
def rounds (globalsOf : P -> Globals) : Program P Process where
  starts p u call := callAt (globalsOf p) u.point = some call ∧ Allowed u.held call
  returns _ u call value := ⟨resume u.point value, grant call value u.held⟩
  internal p u u' := advance (globalsOf p) u.point = some u'.point ∧ u'.held = u.held

theorem rounds_disciplined (globalsOf : P -> Globals) :
    Disciplined (rounds globalsOf) Process.held where
  starts_allowed _ _ _ started := started.2
  returns_held _ _ _ _ := rfl
  internal_held _ _ _ internal := internal.2

/-- The state in which the processes begin their rounds over the lock table
`ptable`: each in its remainder section, holding nothing and in no call. -/
def startState (ptable : Ptable) : System P Process :=
  ⟨⟨ptable, none, fun _ => none⟩, fun _ => ⟨.remainder, fun _ => none⟩⟩

/-- The routines make no other calls than `peterson_acquire` and
`peterson_release`. -/
theorem callAt_eq_some {g : Globals} {point : Point} {call : Syscall}
    (called : callAt g point = some call) :
    (exists lockId role, call = .petersonAcquire lockId role) ∨
      exists lockId role, call = .petersonRelease lockId role := by
  unfold callAt at called
  split at called
  · split at called
    · split at called
      · cases called
        exact Or.inl ⟨_, _, rfl⟩
      · cases called
    · cases called
  · split at called
    · split at called
      · cases called
        exact Or.inr ⟨_, _, rfl⟩
      · cases called
    · cases called
  · cases called

/-- No step of the program frees a lock: the routines never call
`peterson_destroy`. -/
theorem rounds_not_frees [DecidableEq P] {globalsOf : P -> Globals} {s s' : System P Process}
    {label : Option (Label P)} (stepped : (rounds globalsOf).Step s label s')
    (slot : Fin NPETERSONLOCKS) : ¬ Frees slot label := by
  cases stepped with
  | @call seen machine starts machineStep =>
      obtain ⟨p, call, result⟩ := seen
      cases inFrame : s.machine.frame p with
      | none =>
          rcases callAt_eq_some (starts inFrame).1 with ⟨lockId, role, rfl⟩ | ⟨lockId, role, rfl⟩ <;>
            simp [Frees]
      | some frame =>
          -- a call in progress is an acquire in its wait loop or a create in its scan
          have sameCall := machineStep.call_of_frame inFrame
          cases frame <;> simp only [Frame.call] at sameCall <;> subst sameCall <;> simp [Frees]
  | internal => simp [Frees]

/-! ## The tree that `tournament_create` leaves -/

/-- A tournament as a successful `tournament_create(2 ^ height)` and its forks
leave it: the kernel ids of the locks at the `2 ^ height - 1` inner nodes,
breadth first, which name distinct slots, and each process at its own leaf. -/
structure Layout (P : Type*) where
  height : Nat
  ids : List Int32
  leafOf : P -> Nat
  slotOf : Nat -> Fin NPETERSONLOCKS
  height_le : height ≤ 4
  ids_length : ids.length = 2 ^ height - 1
  id_slot : forall k, k < ids.length -> (ids.getD k 0).toInt = (slotOf k).val
  slot_injective : forall j k, j < ids.length -> k < ids.length -> slotOf j = slotOf k -> j = k
  leaf_lt : forall p, leafOf p < 2 ^ height
  leaf_injective : Function.Injective leafOf

namespace Layout

variable (t : Layout P)

/-- The globals of process `p`, as `tournament_create` sets them. -/
def globals (p : P) : Globals where
  lockIds := some t.ids
  numTotalLocks := .ofNat (2 ^ t.height) - 1
  nProcesses := .ofNat (2 ^ t.height)
  lLevels := .ofNat t.height
  myId := .ofNat (t.leafOf p)

@[simp] theorem globals_lockIds (p : P) : (t.globals p).lockIds = some t.ids :=
  rfl

@[simp] theorem globals_lLevels (p : P) : (t.globals p).lLevels = .ofNat t.height :=
  rfl

@[simp] theorem globals_myId (p : P) : (t.globals p).myId = .ofNat (t.leafOf p) :=
  rfl

/-- The index of the lock of process `p` at level `depth`. -/
def node (p : P) (depth : Nat) : Nat :=
  Tree.pathNode t.height depth (t.leafOf p)

/-- The kernel id of that lock. -/
def lockId (p : P) (depth : Nat) : Int32 :=
  t.ids.getD (t.node p depth) 0

/-- Its slot. -/
def slot (p : P) (depth : Nat) : Fin NPETERSONLOCKS :=
  t.slotOf (t.node p depth)

/-- The slot of the lock at the node of depth `depth` and position `offset`. -/
def nodeSlot (depth offset : Nat) : Fin NPETERSONLOCKS :=
  t.slotOf (Tree.node depth offset)

/-- The role of `p` at level `depth`. -/
def role (p : P) (depth : Nat) : Fin 2 :=
  ⟨Tree.branch t.height depth (t.leafOf p), Tree.branch_lt_two _ _ _⟩

/-- The locks a process holds when it holds every level from `depth` on. -/
def heldFrom (p : P) (depth : Nat) : Holding := fun target =>
  ((List.range t.height).find? fun e => depth ≤ e ∧ t.slot p e = target).map (t.role p)

variable {t}

theorem node_lt_length (p : P) {depth : Nat} (depthLt : depth < t.height) :
    t.node p depth < t.ids.length := by
  rw [t.ids_length]
  exact Tree.pathNode_lt (t.leaf_lt p) depthLt

theorem tree_node_lt_length {depth offset : Nat} (depthLt : depth < t.height)
    (offsetLt : offset < 2 ^ depth) : Tree.node depth offset < t.ids.length := by
  rw [t.ids_length]
  exact Tree.node_lt offsetLt depthLt

/-- The slot of a node names the node: a process meets it at its depth, on the
path through its position. -/
theorem nodeSlot_eq_slot {p : P} {depth offset e : Nat} (depthLt : depth < t.height)
    (offsetLt : offset < 2 ^ depth) (eLt : e < t.height) (same : t.nodeSlot depth offset = t.slot p e) :
    depth = e ∧ offset = Tree.ancestor t.height e (t.leafOf p) := by
  have sameNode :=
    t.slot_injective _ _ (tree_node_lt_length depthLt offsetLt) (node_lt_length p eLt) same
  exact Tree.node_injective offsetLt (Tree.ancestor_lt (t.leaf_lt p) (Nat.le_of_lt eLt)) sameNode

/-- A process meets each lock of its path at one level only. -/
theorem slot_injective_depth (p : P) {d e : Nat} (dLt : d < t.height) (eLt : e < t.height)
    (same : t.slot p d = t.slot p e) : d = e := by
  have sameNode := t.slot_injective _ _ (node_lt_length p dLt) (node_lt_length p eLt) same
  exact (Tree.node_injective (Tree.ancestor_lt (t.leaf_lt p) (Nat.le_of_lt dLt))
    (Tree.ancestor_lt (t.leaf_lt p) (Nat.le_of_lt eLt)) sameNode).1

theorem heldFrom_eq_some {p : P} {depth : Nat} {target : Fin NPETERSONLOCKS} {r : Fin 2} :
    t.heldFrom p depth target = some r ↔
      exists e, depth ≤ e ∧ e < t.height ∧ t.slot p e = target ∧ t.role p e = r := by
  unfold heldFrom
  constructor
  · intro found
    obtain ⟨e, first, named⟩ := Option.map_eq_some_iff.mp found
    have member := List.mem_of_find?_eq_some first
    have holds := List.find?_some first
    simp only [decide_eq_true_eq] at holds
    exact ⟨e, holds.1, List.mem_range.mp member, holds.2, named⟩
  · rintro ⟨e, low, eLt, named, roleIs⟩
    cases found : (List.range t.height).find? (fun e => decide (depth ≤ e ∧ t.slot p e = target)) with
    | none =>
        have missing := List.find?_eq_none.mp found e (List.mem_range.mpr eLt)
        simp [low, named] at missing
    | some e' =>
        have member := List.mem_of_find?_eq_some found
        have holds := List.find?_some found
        simp only [decide_eq_true_eq] at holds
        -- the level found is `e`, as the slots of a path are distinct
        have same := slot_injective_depth p (List.mem_range.mp member) eLt (holds.2.trans named.symm)
        subst same
        simp [roleIs]

theorem heldFrom_eq_none {p : P} {depth : Nat} {target : Fin NPETERSONLOCKS} :
    t.heldFrom p depth target = none ↔
      forall e, depth ≤ e -> e < t.height -> t.slot p e ≠ target := by
  constructor
  · intro missing e low eLt named
    have held := heldFrom_eq_some.mpr ⟨e, low, eLt, named, rfl⟩
    rw [missing] at held
    cases held
  · intro missing
    cases found : t.heldFrom p depth target with
    | none => rfl
    | some r =>
        obtain ⟨e, low, eLt, named, _⟩ := heldFrom_eq_some.mp found
        exact absurd named (missing e low eLt)

/-! ## The routines on the layout -/

theorem height_le_thirty (t : Layout P) : t.height ≤ 30 :=
  Nat.le_trans t.height_le (by decide)

/-- The levels of a path are small enough that their `int` arithmetic does
not wrap. -/
theorem depth_lt_thirty {depth : Nat} (depthLt : depth < t.height) : depth < 30 :=
  Nat.lt_of_lt_of_le depthLt t.height_le_thirty

theorem leaf_toInt (p : P) : (Int32.ofNat (t.leafOf p)).toInt = t.leafOf p :=
  toInt_ofNat_leaf t.height_le_thirty (t.leaf_lt p)

theorem processes_toInt : (Int32.ofNat (2 ^ t.height)).toInt = (2 ^ t.height : Nat) := by
  have : 2 ^ t.height ≤ 2 ^ 4 := Nat.pow_le_pow_right (by decide) t.height_le
  exact toInt_ofNat_of_lt (by omega)

theorem numTotalLocks_toInt (p : P) :
    (t.globals p).numTotalLocks.toInt = (2 ^ t.height - 1 : Nat) := by
  have positive : 1 ≤ 2 ^ t.height := Nat.one_le_two_pow
  have small : 2 ^ t.height ≤ 2 ^ 4 := Nat.pow_le_pow_right (by decide) t.height_le
  unfold globals
  rw [toInt_sub_of_range (by rw [processes_toInt, Int32.toInt_one]; omega)
    (by rw [processes_toInt, Int32.toInt_one]; omega), processes_toInt, Int32.toInt_one]
  omega

/-- The checks that open both routines pass, except in a tree of one leaf,
where the routines return `0` at once. -/
theorem routineChecks_layout (p : P) :
    routineChecks (t.globals p) = if t.height = 0 then some 0 else none := by
  have positive : 1 ≤ 2 ^ t.height := Nat.one_le_two_pow
  have member : (t.globals p).myId ≠ -1 := by
    intro named
    have value := congrArg Int32.toInt named
    simp only [globals, leaf_toInt] at value
    simp at value
  have someProcesses : ¬ (t.globals p).nProcesses ≤ 0 := by
    simp only [globals, Int32.le_iff_toInt_le, processes_toInt, Int32.toInt_zero]
    omega
  have single : (t.globals p).nProcesses = 1 ↔ t.height = 0 := by
    simp only [globals, ← Int32.toInt_inj, processes_toInt, Int32.toInt_one]
    constructor
    · intro one
      by_contra nonzero
      have : 2 ^ 1 ≤ 2 ^ t.height := Nat.pow_le_pow_right (by decide) (by omega)
      omega
    · intro zero
      simp [zero]
  have allocated : ¬ ((t.globals p).numTotalLocks > 0 ∧ (t.globals p).lockIds = none) := by
    simp [globals]
  unfold routineChecks
  rw [if_neg member, if_neg someProcesses]
  by_cases zero : t.height = 0
  · rw [if_pos (single.mpr zero), if_pos zero]
  · rw [if_neg (fun one => zero (single.mp one)), if_neg allocated, if_neg zero]

/-- At a level of its path, a process's loop bodies find the lock of its node,
in range, with its role there. -/
theorem levelStep_layout (p : P) {depth : Nat} (depthLt : depth < t.height) :
    levelStep (t.globals p) (.ofNat depth) =
      some (.lock (t.lockId p depth) (.ofNat (t.role p depth).val)) := by
  have index := arrayIdx_ofNat t.height_le_thirty (t.leaf_lt p) depthLt
  have inRange := arrayIdx_range t.height_le_thirty (t.leaf_lt p) depthLt
  have nodeLt := node_lt_length p depthLt
  have roleIs : roleAtLevel (.ofNat t.height) (.ofNat (t.leafOf p)) (.ofNat depth) =
      .ofNat (t.role p depth).val := by
    apply Int32.toInt_inj.mp
    rw [roleAtLevel_ofNat t.height_le_thirty (t.leaf_lt p) depthLt,
      toInt_ofNat_level (Nat.le_of_lt (Nat.lt_of_lt_of_le (t.role p depth).isLt (by decide)))]
    rfl
  have inBounds : ¬ (arrayIdx (.ofNat t.height) (.ofNat (t.leafOf p)) (.ofNat depth) < 0 ∨
      arrayIdx (.ofNat t.height) (.ofNat (t.leafOf p)) (.ofNat depth) ≥ (t.globals p).numTotalLocks) := by
    rw [Int32.lt_iff_toInt_lt, ge_iff_le, Int32.le_iff_toInt_le, numTotalLocks_toInt,
      Int32.toInt_zero]
    have positive : 1 ≤ 2 ^ t.height := Nat.one_le_two_pow
    have power : ((2 ^ t.height : Nat) : Int) = 2 ^ t.height := by push_cast; rfl
    omega
  have read : lockAt (t.globals p) (arrayIdx (.ofNat t.height) (.ofNat (t.leafOf p)) (.ofNat depth)) =
      some (t.lockId p depth) := by
    have pathLt : Tree.pathNode t.height depth (t.leafOf p) < t.ids.length := nodeLt
    simp only [lockAt, globals, Option.bind_some, index, Int.toNat_natCast, lockId, node,
      List.getElem?_eq_getElem pathLt, List.getD_eq_getElem _ _ pathLt]
  unfold levelStep
  simp only [globals] at inBounds read ⊢
  simp only [inBounds, if_false, read, roleIs, Option.map_some]

/-- The lock id and role of a level pass the kernel's checks, naming the slot
of the level's node. -/
theorem checkArgs_layout (p : P) {depth : Nat} (depthLt : depth < t.height) :
    checkArgs (t.lockId p depth).toInt (t.role p depth).val = some (t.slot p depth, t.role p depth) :=
  checkArgs_eq_some.mpr ⟨(t.id_slot _ (node_lt_length p depthLt)).symm, rfl⟩

theorem role_toInt (p : P) (depth : Nat) :
    (Int32.ofNat (t.role p depth).val).toInt = (t.role p depth).val :=
  toInt_ofNat_of_lt (Nat.lt_of_lt_of_le (t.role p depth).isLt (by decide))

theorem level_nonneg (depth : Nat) (small : depth ≤ 30) : Int32.ofNat depth ≥ 0 := by
  rw [ge_iff_le, Int32.le_iff_toInt_le, toInt_ofNat_level small, Int32.toInt_zero]
  omega

theorem level_lt_iff {d e : Nat} (dSmall : d ≤ 30) (eSmall : e ≤ 30) :
    Int32.ofNat d < Int32.ofNat e ↔ d < e := by
  rw [Int32.lt_iff_toInt_lt, toInt_ofNat_level dSmall, toInt_ofNat_level eSmall]
  omega

theorem callAt_acquiring (p : P) {depth : Nat} (depthLt : depth < t.height) :
    callAt (t.globals p) (.acquiring (.ofNat depth)) =
      some (.petersonAcquire (t.lockId p depth).toInt (t.role p depth).val) := by
  simp only [callAt]
  rw [if_pos (level_nonneg depth (Nat.le_of_lt (t.depth_lt_thirty depthLt))),
    levelStep_layout p depthLt]
  simp only [role_toInt]

theorem callAt_releasing (p : P) {depth : Nat} (depthLt : depth < t.height) :
    callAt (t.globals p) (.releasing (.ofNat depth)) =
      some (.petersonRelease (t.lockId p depth).toInt (t.role p depth).val) := by
  have small := t.height_le_thirty
  simp only [callAt, globals_lLevels, (level_lt_iff (by omega) small).mpr depthLt, ↓reduceIte,
    levelStep_layout p depthLt, role_toInt]

theorem callAt_releasing_top (p : P) :
    callAt (t.globals p) (.releasing (.ofNat t.height)) = none := by
  have small := t.height_le_thirty
  simp [callAt]

theorem advance_remainder (p : P) :
    advance (t.globals p) .remainder =
      some (if t.height = 0 then .critical else .acquiring (.ofNat (t.height - 1))) := by
  simp only [advance]
  rw [routineChecks_layout]
  by_cases zero : t.height = 0
  · simp [zero, returnTo]
  · have top : Int32.ofNat t.height - 1 = Int32.ofNat (t.height - 1) := by
      have up := ofNat_add_one (t.depth_lt_thirty (show t.height - 1 < t.height by omega))
      rw [show t.height - 1 + 1 = t.height by omega] at up
      rw [← up]
      simp
    simp [zero, globals, top]

theorem advance_acquiring (p : P) {depth : Nat} (depthLt : depth < t.height) :
    advance (t.globals p) (.acquiring (.ofNat depth)) = none := by
  simp only [advance]
  rw [if_pos (level_nonneg depth (Nat.le_of_lt (t.depth_lt_thirty depthLt))),
    levelStep_layout p depthLt]

theorem advance_critical (p : P) :
    advance (t.globals p) .critical = some (if t.height = 0 then .remainder else .releasing 0) := by
  simp only [advance]
  rw [routineChecks_layout]
  by_cases zero : t.height = 0 <;> simp [zero, returnTo]

theorem advance_releasing (p : P) {depth : Nat} (depthLt : depth < t.height) :
    advance (t.globals p) (.releasing (.ofNat depth)) = none := by
  have small := t.height_le_thirty
  simp [advance, (level_lt_iff (by omega) small).mpr depthLt, levelStep_layout p depthLt]

theorem advance_releasing_top (p : P) :
    advance (t.globals p) (.releasing (.ofNat t.height)) = some .remainder := by
  have small := t.height_le_thirty
  simp [advance, returnTo]

end Layout

/-- The layout `tournament_create(2 ^ height)` builds when it runs first after
boot: `peterson_create` hands out the slots in index order, so the lock of
node `k` is slot `k`, and the process with tournament id `i` is leaf `i`. -/
def bootLayout (height : Nat) (small : height ≤ 4) : Layout (Fin (2 ^ height)) where
  height := height
  ids := (List.range (2 ^ height - 1)).map Int32.ofNat
  leafOf := Fin.val
  slotOf k := ⟨k % NPETERSONLOCKS, Nat.mod_lt _ (by decide)⟩
  height_le := small
  ids_length := by simp
  id_slot k kLt := by
    have bound : 2 ^ height ≤ 2 ^ 4 := Nat.pow_le_pow_right (by decide) small
    have slots : NPETERSONLOCKS = 16 := rfl
    simp only [List.length_map, List.length_range] at kLt
    simp only [List.getD_eq_getElem?_getD, List.getElem?_map, List.getElem?_range kLt,
      Option.map_some, Option.getD_some]
    rw [toInt_ofNat_of_lt (by omega), Nat.mod_eq_of_lt (by omega)]
  slot_injective j k jLt kLt same := by
    have bound : 2 ^ height ≤ 2 ^ 4 := Nat.pow_le_pow_right (by decide) small
    have slots : NPETERSONLOCKS = 16 := rfl
    simp only [List.length_map, List.length_range] at jLt kLt
    have values := congrArg Fin.val same
    simp only [Nat.mod_eq_of_lt (show j < NPETERSONLOCKS by omega),
      Nat.mod_eq_of_lt (show k < NPETERSONLOCKS by omega)] at values
    exact values
  leaf_lt := Fin.isLt
  leaf_injective := Fin.val_injective

/-- The lock table that `tournament_create(2 ^ height)` leaves after boot: the
first `2 ^ height - 1` slots allocated, the others as `peterson_init` set them. -/
def bootTable (height : Nat) : Ptable := fun slot =>
  if slot.val < 2 ^ height - 1 then (petersonInit slot).reset 1 else petersonInit slot

/-- The loop of `tournament_acquire` that has passed level `0` returns `0`. -/
theorem advance_acquired (g : Globals) : advance g (.acquiring (-1)) = some .critical := by
  simp only [advance]
  rw [if_neg (by decide)]
  rfl

theorem callAt_acquired (g : Globals) : callAt g (.acquiring (-1)) = none := by
  simp only [callAt]
  rw [if_neg (by decide)]

theorem resume_acquiring_zero (l : Int32) : resume (.acquiring l) 0 = .acquiring (l - 1) := by
  simp [resume]

theorem resume_releasing_zero (l : Int32) : resume (.releasing l) 0 = .releasing (l + 1) := by
  simp [resume]

end Tournament
end Xv6Peterson
