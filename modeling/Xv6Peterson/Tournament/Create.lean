import Xv6Peterson.Tournament.Exclusion
import Xv6Peterson.Kernel.LockTable

namespace Xv6Peterson
namespace Tournament

open Transition Kernel Peterson Word

/-!
# `tournament_create` and the lock table across runs

`tournament_create(processes)` fills `peterson_lock_ids_array` with
`processes - 1` calls of `peterson_create()`, stopping at the first `-1`, and
then forks.  When `main` of `user/tournament.c` calls it, no other process uses
the Peterson locks, as the processes of earlier runs have exited; each create
then runs alone and computes `sysPetersonCreate`.  The routines that follow
only acquire and release, `exit` does not touch `ptable`, and nothing in the
program destroys a lock.

So every run of `tournament N` leaves `N - 1` more slots active, until the
table is full (`mainRun_activeSlots`), and `tournament_create` succeeds
exactly while `N - 1` slots are free (`tournamentCreate_spec`).  Over a
sequence of runs the active slots only accumulate: from a table with no
active slot, a second `tournament 16` or a sixth `tournament 4` already finds
too few free slots.
-/

variable {P : Type*}

/-! ## Active slots -/

/-- The slots in use. -/
def activeSlots (ptable : Ptable) : Finset (Fin NPETERSONLOCKS) :=
  Finset.univ.filter fun slot => (ptable slot).active ≠ 0

theorem mem_activeSlots {ptable : Ptable} {slot : Fin NPETERSONLOCKS} :
    slot ∈ activeSlots ptable ↔ (ptable slot).active ≠ 0 := by
  simp [activeSlots]

theorem card_activeSlots_le (ptable : Ptable) : (activeSlots ptable).card ≤ NPETERSONLOCKS := by
  simpa using Finset.card_le_univ (activeSlots ptable)

theorem exists_free_of_card_lt {ptable : Ptable} (free : (activeSlots ptable).card < NPETERSONLOCKS) :
    exists slot, (ptable slot).active = 0 := by
  by_contra noneFree
  have full : forall slot, (ptable slot).active ≠ 0 := fun slot inactive => noneFree ⟨slot, inactive⟩
  have everything : activeSlots ptable = Finset.univ := by
    ext slot
    simp [mem_activeSlots, full slot]
  rw [everything] at free
  simp at free

theorem active_of_card_eq {ptable : Ptable} (full : (activeSlots ptable).card = NPETERSONLOCKS)
    (slot : Fin NPETERSONLOCKS) : (ptable slot).active ≠ 0 := by
  have everything := Finset.eq_univ_of_card (activeSlots ptable) (by simpa using full)
  exact mem_activeSlots.mp (everything ▸ Finset.mem_univ slot)

/-- Allocating an inactive slot adds it to the active ones. -/
theorem activeSlots_allocate {ptable : Ptable} {slot : Fin NPETERSONLOCKS}
    (inactive : (ptable slot).active = 0) :
    activeSlots (Function.update ptable slot ((ptable slot).reset 1)) =
      insert slot (activeSlots ptable) := by
  ext target
  by_cases same : target = slot
  · subst same
    simp [mem_activeSlots]
  · simp [mem_activeSlots, same]

/-! ## The loop of `tournament_create` -/

/-- The message `tournament_create` prints when `peterson_create()` fails for
lock index `i`. -/
def createFailedMessage (i : Nat) : String :=
  "tournament_create: peterson_create() failed for lock index " ++ toString i ++ ".\n"

/-- The loop of `tournament_create` that fills `peterson_lock_ids_array` from
index `i`, with `remaining` iterations left and the entries `ids` written so
far.  Each `peterson_create()` runs alone, and the first that returns a
negative id ends the loop, and `tournament_create`, with its message. -/
def createLoop : Nat -> Nat -> List Int32 -> Ptable -> Except String (List Int32) × Ptable
  | 0, _, ids, ptable => (.ok ids, ptable)
  | remaining + 1, i, ids, ptable =>
      let created := sysPetersonCreate ptable
      if created.2 < 0 then (.error (createFailedMessage i), created.1)
      else createLoop remaining (i + 1) (ids ++ [Int32.ofInt created.2]) created.1

/-- An iteration that finds a free slot takes one and goes on. -/
theorem createLoop_succ_of_free {remaining i : Nat} {ids : List Int32} {ptable : Ptable}
    (free : (activeSlots ptable).card < NPETERSONLOCKS) :
    exists slot : Fin NPETERSONLOCKS, slot ∉ activeSlots ptable ∧
      createLoop (remaining + 1) i ids ptable =
        createLoop remaining (i + 1) (ids ++ [Int32.ofInt ((slot : Nat) : Int)])
          (Function.update ptable slot ((ptable slot).reset 1)) := by
  obtain ⟨slot, inactive, allocated⟩ := petersonAlloc_of_free (exists_free_of_card_lt free)
  refine ⟨slot, by simpa [mem_activeSlots] using inactive, ?_⟩
  simp only [createLoop, sysPetersonCreate, allocated]
  rw [if_neg (by omega)]

/-- An iteration on a full table fails at its index. -/
theorem createLoop_succ_of_full {remaining i : Nat} {ids : List Int32} {ptable : Ptable}
    (full : (activeSlots ptable).card = NPETERSONLOCKS) :
    createLoop (remaining + 1) i ids ptable = (.error (createFailedMessage i), ptable) := by
  simp only [createLoop, sysPetersonCreate, petersonAlloc_of_full (active_of_card_eq full)]
  rw [if_pos (by decide)]

/-- One iteration of the loop: it takes a free slot and goes on, or finds the
table full and fails at its index. -/
theorem createLoop_succ (remaining i : Nat) (ids : List Int32) (ptable : Ptable) :
    (exists slot : Fin NPETERSONLOCKS, slot ∉ activeSlots ptable ∧
      createLoop (remaining + 1) i ids ptable =
        createLoop remaining (i + 1) (ids ++ [Int32.ofInt ((slot : Nat) : Int)])
          (Function.update ptable slot ((ptable slot).reset 1))) ∨
    ((activeSlots ptable).card = NPETERSONLOCKS ∧
      createLoop (remaining + 1) i ids ptable = (.error (createFailedMessage i), ptable)) := by
  rcases Nat.lt_or_ge (activeSlots ptable).card NPETERSONLOCKS with free | full
  · exact Or.inl (createLoop_succ_of_free free)
  · have noneFree : (activeSlots ptable).card = NPETERSONLOCKS :=
      le_antisymm (card_activeSlots_le ptable) full
    exact Or.inr ⟨noneFree, createLoop_succ_of_full noneFree⟩

/-- What the loop does to the table: it allocates one slot per iteration
until the table is full, succeeds exactly when there are enough free slots,
and otherwise fails at the first index past the free ones. -/
theorem createLoop_spec (remaining : Nat) : forall (i : Nat) (ids : List Int32) (ptable : Ptable),
    activeSlots ptable ⊆ activeSlots (createLoop remaining i ids ptable).2 ∧
      (activeSlots (createLoop remaining i ids ptable).2).card =
        min NPETERSONLOCKS ((activeSlots ptable).card + remaining) ∧
      ((exists ids', (createLoop remaining i ids ptable).1 = .ok ids') ↔
        (activeSlots ptable).card + remaining ≤ NPETERSONLOCKS) ∧
      forall message, (createLoop remaining i ids ptable).1 = .error message ->
        message = createFailedMessage (i + (NPETERSONLOCKS - (activeSlots ptable).card)) := by
  induction remaining with
  | zero =>
      intro i ids ptable
      have bounded := card_activeSlots_le ptable
      simp only [createLoop, Nat.add_zero, Finset.Subset.refl, min_eq_right bounded, true_and]
      exact ⟨⟨fun _ => bounded, fun _ => ⟨ids, rfl⟩⟩, fun _ failed => by cases failed⟩
  | succ remaining inductionHypothesis =>
      intro i ids ptable
      rcases createLoop_succ remaining i ids ptable with ⟨slot, inactive, step⟩ | ⟨noneFree, step⟩
      · -- one more slot taken, and the rest of the loop from the next index
        have grown := activeSlots_allocate (by simpa [mem_activeSlots] using inactive)
        have cardGrown : (activeSlots (Function.update ptable slot ((ptable slot).reset 1))).card =
            (activeSlots ptable).card + 1 := by
          rw [grown, Finset.card_insert_of_notMem inactive]
        have bounded := card_activeSlots_le (Function.update ptable slot ((ptable slot).reset 1))
        rw [cardGrown] at bounded
        obtain ⟨kept, counted, succeeds, named⟩ := inductionHypothesis (i + 1)
          (ids ++ [Int32.ofInt ((slot : Nat) : Int)]) (Function.update ptable slot ((ptable slot).reset 1))
        rw [step]
        refine ⟨?_, ?_, ?_, ?_⟩
        · exact (grown ▸ Finset.subset_insert slot _).trans kept
        · rw [counted, cardGrown]
          omega
        · rw [succeeds, cardGrown]
          omega
        · intro message failed
          rw [named message failed, cardGrown]
          congr 1
          omega
      · -- the table is full: this iteration fails
        rw [step]
        dsimp only
        refine ⟨Finset.Subset.refl _, by omega, ?_, ?_⟩
        · simp only [reduceCtorEq, exists_false, false_iff]
          omega
        · intro message failed
          cases failed
          rw [noneFree, Nat.sub_self, Nat.add_zero]

/-- The loop leaves the slots that are active alone. -/
theorem createLoop_keeps_active (remaining : Nat) : forall (i : Nat) (ids : List Int32)
    (ptable : Ptable) {slot : Fin NPETERSONLOCKS}, (ptable slot).active ≠ 0 ->
    (createLoop remaining i ids ptable).2 slot = ptable slot := by
  induction remaining with
  | zero => intros; rfl
  | succ remaining inductionHypothesis =>
      intro i ids ptable slot active
      rcases createLoop_succ remaining i ids ptable with ⟨taken, inactive, step⟩ | ⟨-, step⟩
      · have other : slot ≠ taken := fun same => inactive (same ▸ mem_activeSlots.mpr active)
        rw [step, inductionHypothesis _ _ _ (by rwa [Function.update_of_ne other]),
          Function.update_of_ne other]
      · rw [step]

/-- A loop that succeeds has written the ids of distinct slots, each inactive
before it and freshly allocated after it. -/
theorem createLoop_allocates (remaining : Nat) : forall (i : Nat) (ids : List Int32)
    (ptable : Ptable) (ids' : List Int32), (createLoop remaining i ids ptable).1 = .ok ids' ->
    exists slots : List (Fin NPETERSONLOCKS), slots.length = remaining ∧ slots.Nodup ∧
      ids' = ids ++ slots.map (fun slot : Fin NPETERSONLOCKS => Int32.ofInt ((slot : Nat) : Int)) ∧
      forall slot, slot ∈ slots -> (ptable slot).active = 0 ∧
        (createLoop remaining i ids ptable).2 slot = (ptable slot).reset 1 := by
  induction remaining with
  | zero =>
      intro i ids ptable ids' made
      cases made
      exact ⟨[], rfl, List.nodup_nil, by simp, by simp⟩
  | succ remaining inductionHypothesis =>
      intro i ids ptable ids' made
      rcases createLoop_succ remaining i ids ptable with ⟨taken, inactive, step⟩ | ⟨-, step⟩
      · rw [step] at made ⊢
        obtain ⟨slots, length, distinct, written, fresh⟩ := inductionHypothesis _ _ _ ids' made
        -- the later slots were inactive once `taken` was allocated, so they are others
        have others : forall slot, slot ∈ slots -> slot ≠ taken := by
          intro slot member same
          have wasFree := (fresh slot member).1
          rw [same, Function.update_self] at wasFree
          simp at wasFree
        refine ⟨taken :: slots, by simp [length],
          List.nodup_cons.mpr ⟨fun member => others taken member rfl, distinct⟩,
          by simp [written], fun slot member => ?_⟩
        rcases List.mem_cons.mp member with rfl | later
        · have allocated :
              (Function.update ptable slot ((ptable slot).reset 1) slot).active ≠ 0 := by simp
          refine ⟨by simpa [mem_activeSlots] using inactive, ?_⟩
          rw [createLoop_keeps_active _ _ _ _ allocated, Function.update_self]
        · obtain ⟨wasFree, allocated⟩ := fresh slot later
          rw [Function.update_of_ne (others slot later)] at wasFree allocated
          exact ⟨wasFree, allocated⟩
      · rw [step] at made
        cases made

/-- `tournament_create(processes)` from the globals `g`, as `main` calls it:
the checks, the loop that allocates the locks, and the globals of the process
with tournament id `0`.  `malloc` and `fork` are taken to succeed. -/
def tournamentCreate (g : Globals) (processes : Int32) (ptable : Ptable) :
    Except String Globals × Ptable :=
  match createValidate g processes with
  | .error message => (.error message, ptable)
  | .ok g =>
      if g.numTotalLocks > 0 then
        match createLoop g.numTotalLocks.toInt.toNat 0 [] ptable with
        | (.ok ids, created) => (.ok { g with lockIds := some ids, myId := 0 }, created)
        | (.error message, created) => (.error message, created)
      else (.ok { g with lockIds := none, myId := 0 }, ptable)

/-- The globals of the process with tournament id `i` once `tournament_create`
has forked: the parent's, with `my_id = i`. -/
def forkedGlobals (g : Globals) (i : Nat) : Globals :=
  { g with myId := .ofNat i }

theorem numTotalLocks_of_power {processes : Int32} {k : Nat} (kLe : k ≤ 4)
    (power : processes.toInt = 2 ^ k) : (processes - 1).toInt = ((2 ^ k - 1 : Nat) : Int) := by
  have powerLe : 2 ^ k ≤ 2 ^ 4 := Nat.pow_le_pow_right (by decide) kLe
  have positive : 1 ≤ 2 ^ k := Nat.one_le_two_pow
  have cast : ((2 ^ k : Nat) : Int) = 2 ^ k := by push_cast; rfl
  rw [toInt_sub_of_range (by rw [power, Int32.toInt_one]; omega)
    (by rw [power, Int32.toInt_one]; omega), power, Int32.toInt_one]
  omega

theorem toNat_toInt_of_power {n : Int32} {k : Nat} (power : n.toInt = 2 ^ k) :
    n.toInt.toNat = 2 ^ k := by
  have cast : ((2 ^ k : Nat) : Int) = 2 ^ k := by push_cast; rfl
  rw [power, ← cast, Int.toNat_natCast]

/-- `tournament_create(1)` makes no lock. -/
theorem tournamentCreate_of_single {processes : Int32} (power : processes.toInt = 2 ^ 0)
    (g : Globals) (ptable : Ptable) :
    tournamentCreate g processes ptable =
      (.ok { g with lLevels := .ofNat 0, nProcesses := processes, numTotalLocks := processes - 1,
                    lockIds := none, myId := 0 }, ptable) := by
  have noLocks : ¬ processes - 1 > 0 := by
    rw [gt_iff_lt, Int32.lt_iff_toInt_lt, numTotalLocks_of_power (by decide) power]
    simp
  unfold tournamentCreate
  rw [(createValidate_ok_iff g processes _).mpr ⟨0, by decide, power, rfl⟩]
  dsimp only
  rw [if_neg noLocks]

/-- `tournament_create(2 ^ k)`, for `k ≥ 1`, runs its loop `2 ^ k - 1` times. -/
theorem tournamentCreate_of_power {processes : Int32} {k : Nat} (kLe : k ≤ 4) (several : 1 ≤ k)
    (power : processes.toInt = 2 ^ k) (g : Globals) (ptable : Ptable) :
    tournamentCreate g processes ptable =
      match createLoop (2 ^ k - 1) 0 [] ptable with
      | (.ok ids, created) =>
          (.ok { g with lLevels := .ofNat k, nProcesses := processes, numTotalLocks := processes - 1,
                        lockIds := some ids, myId := 0 }, created)
      | (.error message, created) => (.error message, created) := by
  have locks := numTotalLocks_of_power kLe power
  have someLocks : processes - 1 > 0 := by
    have atLeastTwo : 2 ^ 1 ≤ 2 ^ k := Nat.pow_le_pow_right (by decide) several
    rw [gt_iff_lt, Int32.lt_iff_toInt_lt, locks]
    simp only [Int32.toInt_zero]
    omega
  unfold tournamentCreate
  rw [(createValidate_ok_iff g processes _).mpr ⟨k, kLe, power, rfl⟩]
  dsimp only
  rw [if_pos someLocks, locks, Int.toNat_natCast]

/-- What `tournament_create(2 ^ k)` does to the table: it allocates
`2 ^ k - 1` slots, or fills the table, and it succeeds exactly when that many
slots are free; when it fails, its message names the first lock index past the
free slots. -/
theorem tournamentCreate_spec {processes : Int32} {k : Nat} (kLe : k ≤ 4)
    (power : processes.toInt = 2 ^ k) (g : Globals) (ptable : Ptable) :
    activeSlots ptable ⊆ activeSlots (tournamentCreate g processes ptable).2 ∧
      (activeSlots (tournamentCreate g processes ptable).2).card =
        min NPETERSONLOCKS ((activeSlots ptable).card + (2 ^ k - 1)) ∧
      ((exists g', (tournamentCreate g processes ptable).1 = .ok g') ↔
        (activeSlots ptable).card + (2 ^ k - 1) ≤ NPETERSONLOCKS) ∧
      forall message, (tournamentCreate g processes ptable).1 = .error message ->
        message = createFailedMessage (NPETERSONLOCKS - (activeSlots ptable).card) := by
  have bounded := card_activeSlots_le ptable
  by_cases single : k = 0
  · -- one process: `num_total_locks` is `0` and no lock is made
    subst single
    rw [tournamentCreate_of_single power]
    simp [bounded]
  rw [tournamentCreate_of_power kLe (by omega) power]
  obtain ⟨kept, counted, succeeds, named⟩ := createLoop_spec (2 ^ k - 1) 0 [] ptable
  rcases looped : createLoop (2 ^ k - 1) 0 [] ptable with ⟨failure | ids, created⟩
  · rw [looped] at kept counted succeeds named
    refine ⟨kept, counted, by rw [← succeeds]; simp, fun message failed => ?_⟩
    cases failed
    simpa using named failure rfl
  · rw [looped] at kept counted succeeds
    exact ⟨kept, counted, by rw [← succeeds]; simp, fun message failed => by cases failed⟩

/-! ## What `tournament_create` leaves -/

/-- The layout of a tree of height `height` whose node `j` has its lock in slot
`slots[j]`, with the process of tournament id `i` at leaf `i`. -/
def Layout.ofSlots {N : Nat} (height : Nat) (small : height ≤ 4) (processes : N = 2 ^ height)
    (slots : List (Fin NPETERSONLOCKS)) (length : slots.length = 2 ^ height - 1)
    (distinct : slots.Nodup) : Layout (Fin N) where
  height := height
  ids := slots.map fun slot : Fin NPETERSONLOCKS => Int32.ofInt ((slot : Nat) : Int)
  leafOf := Fin.val
  slotOf j := ⟨(slots.map Fin.val).getD j 0 % NPETERSONLOCKS, Nat.mod_lt _ (by decide)⟩
  height_le := small
  ids_length := by simp [length]
  id_slot j jLt := by
    simp only [List.length_map] at jLt
    have entryLt : (slots[j] : Nat) < NPETERSONLOCKS := slots[j].isLt
    have slots16 : NPETERSONLOCKS = 16 := rfl
    rw [List.getD_eq_getElem _ _ (by simpa using jLt), List.getD_eq_getElem _ _ (by simpa using jLt),
      List.getElem_map, List.getElem_map, Int32.toInt_ofInt]
    dsimp only
    rw [Nat.mod_eq_of_lt entryLt]
    exact Int.bmod_eq_of_le (by simp only [Int32.size]; omega) (by simp only [Int32.size]; omega)
  slot_injective i j iLt jLt same := by
    simp only [List.length_map] at iLt jLt
    have values := congrArg Fin.val same
    simp only [List.getD_eq_getElem _ _ (show i < (slots.map Fin.val).length by simpa using iLt),
      List.getD_eq_getElem _ _ (show j < (slots.map Fin.val).length by simpa using jLt),
      List.getElem_map, Nat.mod_eq_of_lt slots[i].isLt, Nat.mod_eq_of_lt slots[j].isLt] at values
    exact distinct.getElem_inj_iff.mp (Fin.ext values)
  leaf_lt p := processes ▸ p.isLt
  leaf_injective := Fin.val_injective

theorem Layout.ofSlots_slotOf {N height : Nat} {small : height ≤ 4} {processes : N = 2 ^ height}
    {slots : List (Fin NPETERSONLOCKS)} {length : slots.length = 2 ^ height - 1}
    {distinct : slots.Nodup} {j : Nat} (jLt : j < slots.length) :
    (Layout.ofSlots height small processes slots length distinct).slotOf j = slots[j] := by
  apply Fin.ext
  simp only [Layout.ofSlots,
    List.getD_eq_getElem _ _ (show j < (slots.map Fin.val).length by simpa using jLt),
    List.getElem_map, Nat.mod_eq_of_lt slots[j].isLt]

/-- A successful `tournament_create(2 ^ k)`, for `k ≥ 1`, leaves the state the
guarantees of the tournament start from: a layout of height `k` whose globals
are those the forked processes have, with every lock of the tree freshly
allocated. -/
theorem tournamentCreate_start {numProcesses : Int32} {k : Nat} (kLe : k ≤ 4) (several : 1 ≤ k)
    (power : numProcesses.toInt = 2 ^ k) {ptable created : Ptable} {g : Globals}
    (made : tournamentCreate Globals.initial numProcesses ptable = (.ok g, created)) :
    exists t : Layout (Fin numProcesses.toInt.toNat), t.height = k ∧
      (forall p, t.globals p = forkedGlobals g p.val) ∧ t.Start (startState created) := by
  rw [tournamentCreate_of_power kLe several power] at made
  rcases looped : createLoop (2 ^ k - 1) 0 [] ptable with ⟨failure | ids, table⟩
  · rw [looped] at made
    cases made
  rw [looped] at made
  cases made
  obtain ⟨slots, length, distinct, written, fresh⟩ :=
    createLoop_allocates (2 ^ k - 1) 0 [] ptable ids (by rw [looped])
  rw [looped] at fresh
  have processes : numProcesses.toInt.toNat = 2 ^ k := toNat_toInt_of_power power
  refine ⟨Layout.ofSlots k kLe processes slots length distinct, rfl, fun p => ?_, ?_⟩
  · -- the globals: `numProcesses` is the word of `2 ^ k`
    have powerLt : 2 ^ k < 2 ^ 31 :=
      Nat.lt_of_le_of_lt (Nat.pow_le_pow_right (by decide) kLe) (by decide)
    have word : numProcesses = Int32.ofNat (2 ^ k) := by
      apply Int32.toInt_inj.mp
      rw [toInt_ofNat_of_lt powerLt, power]
      push_cast
      rfl
    simp only [Layout.globals, forkedGlobals, Layout.ofSlots, written, List.nil_append, word]
  · -- the lock of node `j` is the `j`-th slot the loop allocated
    refine Layout.start_startState fun j jLt => ?_
    have jSlots : j < slots.length := by
      simp only [Layout.ofSlots, List.length_map] at jLt
      exact jLt
    have allocated : created slots[j] = (ptable slots[j]).reset 1 :=
      (fresh _ (List.getElem_mem jSlots)).2
    rw [Layout.ofSlots_slotOf jSlots]
    show created slots[j] = (created slots[j]).reset 1
    rw [allocated]
    rfl

/-! ## `main` -/

/-- The checks `main` of `user/tournament.c` makes of `num_processes`: the
message it prints before `exit(1)`, if one fails. -/
def mainChecks (numProcesses : Int32) : Option String :=
  if numProcesses ≤ 0 ∨ numProcesses > 16 then
    some "Number of processes must be between 1 and 16 (inclusive).\n"
  else if numProcesses ≠ 1 ∧ numProcesses &&& (numProcesses - 1) ≠ 0 then
    some "Number of processes must be a power of 2 (e.g., 1, 2, 4, 8, 16).\n"
  else none

theorem exponent_le_four {k : Nat} (small : (2 : Int) ^ k ≤ 16) : k ≤ 4 := by
  by_contra large
  have : (2 : Int) ^ 5 ≤ 2 ^ k := by exact_mod_cast Nat.pow_le_pow_right (by decide) (by omega)
  omega

/-- `main` goes on exactly with the powers of two up to `16`. -/
theorem mainChecks_eq_none_iff (numProcesses : Int32) :
    mainChecks numProcesses = none ↔ exists k : Nat, k ≤ 4 ∧ numProcesses.toInt = 2 ^ k := by
  unfold mainChecks
  have sixteen : (16 : Int32).toInt = 16 := by decide
  by_cases outside : numProcesses ≤ 0 ∨ numProcesses > 16
  · rw [if_pos outside]
    simp only [reduceCtorEq, false_iff, not_exists, not_and]
    intro k kLe power
    have powerLe : (2 : Int) ^ k ≤ 2 ^ 4 := by exact_mod_cast Nat.pow_le_pow_right (by decide) kLe
    have positive : (0 : Int) < 2 ^ k := by positivity
    rw [Int32.le_iff_toInt_le, gt_iff_lt, Int32.lt_iff_toInt_lt, power] at outside
    simp only [Int32.toInt_zero] at outside
    omega
  rw [if_neg outside]
  rw [Int32.le_iff_toInt_le, gt_iff_lt, Int32.lt_iff_toInt_lt] at outside
  simp only [Int32.toInt_zero, sixteen, not_or, not_le, not_lt] at outside
  by_cases notPower : numProcesses ≠ 1 ∧ numProcesses &&& (numProcesses - 1) ≠ 0
  · rw [if_pos notPower]
    simp only [reduceCtorEq, false_iff, not_exists, not_and]
    intro k _ power
    exact notPower.2 ((and_sub_one_eq_zero_iff outside.1).mpr ⟨k, power⟩)
  · rw [if_neg notPower]
    simp only [true_iff]
    have power : exists k : Nat, numProcesses.toInt = 2 ^ k := by
      by_cases one : numProcesses = 1
      · exact ⟨0, by rw [one]; rfl⟩
      · exact (and_sub_one_eq_zero_iff outside.1).mp (by simpa [one] using notPower)
    obtain ⟨k, power⟩ := power
    exact ⟨k, exponent_le_four (power ▸ outside.2), power⟩

/-- The lock tables a run of `tournament` with argument `numProcesses` can
leave behind, from `ptable`.  `main` checks its argument and calls
`tournament_create`, and exits at once when either fails.  Otherwise the
processes with tournament ids `0` to `numProcesses - 1` run the lock
routines, their steps interleaved in any way, and exit, which leaves `ptable`
as it is.  `rounds` lets them run any number of rounds and stop anywhere,
which includes the single round each runs in `main`. -/
inductive MainRun (numProcesses : Int32) : Ptable -> Ptable -> Prop
  | rejected {ptable : Ptable} {message : String} :
      mainChecks numProcesses = some message -> MainRun numProcesses ptable ptable
  | createFailed {ptable created : Ptable} {message : String} :
      mainChecks numProcesses = none ->
      tournamentCreate Globals.initial numProcesses ptable = (.error message, created) ->
      MainRun numProcesses ptable created
  | ran {ptable created : Ptable} {g : Globals} {s : System (Fin numProcesses.toInt.toNat) Process}
      {labels : List (Option (Label (Fin numProcesses.toInt.toNat)))} :
      mainChecks numProcesses = none ->
      tournamentCreate Globals.initial numProcesses ptable = (.ok g, created) ->
      Run (rounds fun p => forkedGlobals g p.val).Step (startState created) labels s ->
      MainRun numProcesses ptable s.machine.ptable

/-- Every argument has a run, from every table. -/
theorem mainRun_exists (numProcesses : Int32) (ptable : Ptable) :
    exists ptable', MainRun numProcesses ptable ptable' := by
  cases checked : mainChecks numProcesses with
  | some message => exact ⟨_, .rejected checked⟩
  | none =>
      rcases created : tournamentCreate Globals.initial numProcesses ptable with ⟨_ | g, table⟩
      · exact ⟨_, .createFailed checked created⟩
      · exact ⟨_, .ran checked created Run.nil⟩

/-! ## The rounds leave the allocation alone -/

/-- No process is in the scan of `peterson_create`. -/
def NoScan (m : Machine P) : Prop :=
  forall p slot, m.frame p ≠ some (.scanning slot)

theorem noScan_startState (ptable : Ptable) : NoScan (startState ptable : System P Process).machine :=
  fun _ _ => by simp [startState]

section Rounds

variable [DecidableEq P] {globalsOf : P -> Globals}

/-- While nobody scans, the rounds make only the calls of the lock routines. -/
theorem rounds_locking {s s' : System P Process} {label : Label P}
    (stepped : (rounds globalsOf).Step s (some label) s') (noScan : NoScan s.machine) :
    label.call.Locking := by
  cases stepped with
  | call starts machineStep =>
      cases inFrame : s.machine.frame label.process with
      | none => exact callAt_eq_some (starts inFrame).1
      | some frame =>
          have sameCall := machineStep.call_of_frame inFrame
          cases frame with
          | waiting slot role => exact Or.inl ⟨_, _, sameCall⟩
          | scanning slot => exact absurd inFrame (noScan _ slot)

/-- A step of the rounds starts no scan and writes no `active` field. -/
theorem rounds_step_active {s s' : System P Process} {label : Option (Label P)}
    (stepped : (rounds globalsOf).Step s label s') (noScan : NoScan s.machine) :
    NoScan s'.machine ∧
      forall slot, (s'.machine.ptable slot).active = (s.machine.ptable slot).active := by
  cases label with
  | none =>
      rw [stepped.machine_eq]
      exact ⟨noScan, fun _ => rfl⟩
  | some seen =>
      have locking := rounds_locking stepped noScan
      have machineStep := stepped.machine_step
      refine ⟨fun q slot => ?_, machineStep.active_of_locking locking⟩
      by_cases same : q = seen.process
      · subst same
        exact machineStep.not_scanning_of_locking locking (noScan _ slot)
      · rw [machineStep.frame_of_ne same]
        exact noScan q slot

/-- Runs of the rounds from a state without scans keep the active slots. -/
theorem rounds_run_active {s₀ s : System P Process} {labels : List (Option (Label P))}
    (noScan : NoScan s₀.machine) (run : Run (rounds globalsOf).Step s₀ labels s) :
    activeSlots s.machine.ptable = activeSlots s₀.machine.ptable := by
  have kept := Run.invariant
    (fun s => NoScan s.machine ∧
      forall slot, (s.machine.ptable slot).active = (s₀.machine.ptable slot).active)
    ⟨noScan, fun _ => rfl⟩
    (fun _ _ _ invariant stepped =>
      ⟨(rounds_step_active stepped invariant.1).1,
        fun slot => ((rounds_step_active stepped invariant.1).2 slot).trans (invariant.2 slot)⟩)
    run
  ext slot
  simp [mem_activeSlots, kept.2 slot]

end Rounds

/-! ## Runs of `tournament` -/

/-- A run of `tournament N`, for `N = 2 ^ k` up to `16`, keeps the slots it
found active and allocates `N - 1` more, until the table is full. -/
theorem mainRun_activeSlots {numProcesses : Int32} {k : Nat} (kLe : k ≤ 4)
    (power : numProcesses.toInt = 2 ^ k) {ptable ptable' : Ptable}
    (run : MainRun numProcesses ptable ptable') :
    activeSlots ptable ⊆ activeSlots ptable' ∧
      (activeSlots ptable').card = min NPETERSONLOCKS ((activeSlots ptable).card + (2 ^ k - 1)) := by
  obtain ⟨kept, counted, -, -⟩ := tournamentCreate_spec kLe power Globals.initial ptable
  cases run with
  | rejected checked =>
      rw [(mainChecks_eq_none_iff numProcesses).mpr ⟨k, kLe, power⟩] at checked
      cases checked
  | createFailed _ created =>
      rw [created] at kept counted
      exact ⟨kept, counted⟩
  | ran _ created roundsRun =>
      rw [created] at kept counted
      rw [rounds_run_active (noScan_startState _) roundsRun]
      exact ⟨kept, counted⟩

/-- The active slots over a sequence of runs, by induction on the runs: each
adds its `N - 1` slots, and `min` keeps the count within the table. -/
theorem accumulated {start ptable : Ptable} {args : List Int32}
    (valid : forall n, n ∈ args -> mainChecks n = none)
    (runs : Run (fun before n after => MainRun n before after) start args ptable) :
    activeSlots start ⊆ activeSlots ptable ∧
      (activeSlots ptable).card =
        min NPETERSONLOCKS ((activeSlots start).card + (args.map fun n => n.toInt.toNat - 1).sum) := by
  induction runs with
  | nil =>
      simp [min_eq_right (card_activeSlots_le start)]
  | @snoc earlier middle last n _ ran inductionHypothesis =>
      obtain ⟨kept, counted⟩ :=
        inductionHypothesis fun m member => valid m (List.mem_append_left _ member)
      obtain ⟨k, kLe, power⟩ := (mainChecks_eq_none_iff n).mp (valid n (by simp))
      obtain ⟨grown, countedLast⟩ := mainRun_activeSlots kLe power ran
      refine ⟨kept.trans grown, ?_⟩
      rw [countedLast, counted, List.map_append, List.sum_append, List.map_singleton,
        List.sum_singleton, toNat_toInt_of_power power]
      omega

/-- The lock table over a sequence of runs of `tournament` with arguments that
pass the checks of `main`: the active slots only accumulate, each run adding
`N - 1` until the table is full, and a next `tournament_create(N)` succeeds
exactly when `N - 1` slots are still free. -/
theorem tournamentRuns_leak {start ptable : Ptable} {args : List Int32}
    (valid : forall n, n ∈ args -> mainChecks n = none)
    (runs : Run (fun before n after => MainRun n before after) start args ptable) :
    activeSlots start ⊆ activeSlots ptable ∧
      (activeSlots ptable).card =
        min NPETERSONLOCKS ((activeSlots start).card + (args.map fun n => n.toInt.toNat - 1).sum) ∧
      forall n, mainChecks n = none ->
        ((exists g created, tournamentCreate Globals.initial n ptable = (.ok g, created)) ↔
          (activeSlots ptable).card + (n.toInt.toNat - 1) ≤ NPETERSONLOCKS) := by
  refine ⟨(accumulated valid runs).1, (accumulated valid runs).2, fun n checked => ?_⟩
  obtain ⟨k, kLe, power⟩ := (mainChecks_eq_none_iff n).mp checked
  obtain ⟨-, -, succeeds, -⟩ := tournamentCreate_spec kLe power Globals.initial ptable
  rw [toNat_toInt_of_power power, ← succeeds]
  constructor
  · rintro ⟨g, created, made⟩
    exact ⟨g, by rw [made]⟩
  · rintro ⟨g, made⟩
    exact ⟨g, _, Prod.ext made rfl⟩

/-- After boot, a run of `tournament 16` leaves fifteen slots active. -/
theorem tournamentRuns_leak_afterBoot :
    exists ptable, Run (fun before n after => MainRun n before after) petersonInit [16] ptable ∧
      (activeSlots petersonInit ⊆ activeSlots ptable ∧
        (activeSlots ptable).card = min NPETERSONLOCKS ((activeSlots petersonInit).card +
          ([(16 : Int32)].map fun n => n.toInt.toNat - 1).sum) ∧
        forall n, mainChecks n = none ->
          ((exists g created, tournamentCreate Globals.initial n ptable = (.ok g, created)) ↔
            (activeSlots ptable).card + (n.toInt.toNat - 1) ≤ NPETERSONLOCKS)) := by
  obtain ⟨first, firstRun⟩ := mainRun_exists 16 petersonInit
  have checked : forall n, n ∈ [(16 : Int32)] -> mainChecks n = none := by
    intro n member
    rw [List.mem_singleton.mp member]
    exact (mainChecks_eq_none_iff 16).mpr ⟨4, le_refl 4, by decide⟩
  exact ⟨first, Run.single firstRun, tournamentRuns_leak checked (Run.single firstRun)⟩

/-- The second of two runs of `tournament 16` after boot: its
`tournament_create` takes the one free slot for lock index `0` and fails at
lock index `1`, whatever the first run did. -/
theorem secondTournament_fails {ptable : Ptable} (first : MainRun 16 petersonInit ptable) :
    (tournamentCreate Globals.initial 16 ptable).1 = .error (createFailedMessage 1) := by
  have sixteen : (16 : Int32).toInt = 2 ^ 4 := by decide
  have empty : (activeSlots petersonInit).card = 0 := by decide
  have fifteen : (activeSlots ptable).card = 15 := by
    rw [(mainRun_activeSlots (by decide) sixteen first).2, empty]
    rfl
  obtain ⟨-, -, succeeds, named⟩ := tournamentCreate_spec (by decide) sixteen Globals.initial ptable
  rw [fifteen] at succeeds named
  cases created : (tournamentCreate Globals.initial 16 ptable).1 with
  | ok g => exact absurd (succeeds.mp ⟨g, created⟩) (by decide)
  | error message =>
      rw [named message created]
      rfl

/-! ## Mutual exclusion in every run of `main` -/

/-- The forked processes run the rounds of the layout `tournament_create`
leaves. -/
theorem rounds_forked {N : Nat} {g : Globals} {t : Layout (Fin N)}
    (globalsAre : forall p, t.globals p = forkedGlobals g p.val) :
    (rounds fun p : Fin N => forkedGlobals g p.val) = rounds t.globals := by
  congr 1
  funext p
  exact (globalsAre p).symm

/-- Mutual exclusion of `tournament N` as `main` runs it, from any lock table:
once `tournament_create` succeeds, however the forked processes' steps are
interleaved, at most one of them is in its critical section. -/
theorem mainRun_mutualExclusion {numProcesses : Int32} {ptable created : Ptable} {g : Globals}
    {s : System (Fin numProcesses.toInt.toNat) Process}
    {labels : List (Option (Label (Fin numProcesses.toInt.toNat)))}
    (checked : mainChecks numProcesses = none)
    (made : tournamentCreate Globals.initial numProcesses ptable = (.ok g, created))
    (run : Run (rounds fun p => forkedGlobals g p.val).Step (startState created) labels s) :
    forall p q, (s.user p).point = .critical -> (s.user q).point = .critical -> p = q := by
  intro p q criticalP criticalQ
  obtain ⟨k, kLe, power⟩ := (mainChecks_eq_none_iff numProcesses).mp checked
  by_cases single : k = 0
  · -- a single process
    have one : numProcesses.toInt.toNat = 1 := by rw [toNat_toInt_of_power power, single]; rfl
    have pLt := p.isLt
    have qLt := q.isLt
    exact Fin.ext (by omega)
  obtain ⟨t, -, globalsAre, start⟩ := tournamentCreate_start kLe (by omega) power made
  rw [rounds_forked globalsAre] at run
  exact (Layout.TreeInv.of_run start run).critical_unique criticalP criticalQ

/-- `tournament 2` after boot: along `firstAtRoot`, the process with tournament
id `0` takes the one lock and enters its critical section while the other
waits. -/
theorem mainRun_mutualExclusion_firstAtRoot :
    exists g created s, mainChecks 2 = none ∧
      tournamentCreate Globals.initial 2 petersonInit = (.ok g, created) ∧
      Run (rounds fun p : Fin (Int32.toInt 2).toNat => forkedGlobals g p.val).Step (startState created)
        (firstAtRoot ⟨0, by decide⟩ ⟨1, by decide⟩) s ∧
      (s.user ⟨0, by decide⟩).point = .critical ∧
      forall p q, (s.user p).point = .critical -> (s.user q).point = .critical -> p = q := by
  have checked : mainChecks 2 = none := (mainChecks_eq_none_iff 2).mpr ⟨1, by decide, by decide⟩
  -- the loop of `tournament_create(2)` makes one lock, in slot `0`
  have made := tournamentCreate_of_power (k := 1) (by decide) le_rfl
    (show (2 : Int32).toInt = 2 ^ 1 by decide) Globals.initial petersonInit
  refine ⟨_, _, ?last, checked, made.trans rfl, ?run, ?critical,
    mainRun_mutualExclusion checked (made.trans rfl) ?run⟩
  case run =>
    -- the steps of `firstAtRoot`, on the globals that `tournament_create` gave the two processes
    apply Run.cons
    · exact .internal (p := ⟨0, Nat.zero_lt_succ 1⟩) (u := ⟨.acquiring 0, _⟩) rfl ⟨by decide, rfl⟩
    apply Run.cons
    · exact .call (fun _ => ⟨by decide, rfl⟩) (Machine.step_of_next rfl)
    apply Run.cons
    · exact .internal (p := ⟨1, Nat.lt_succ_self 1⟩) (u := ⟨.acquiring 0, _⟩) rfl ⟨by decide, rfl⟩
    apply Run.cons
    · exact .call (fun _ => ⟨by decide, rfl⟩) (Machine.step_of_next rfl)
    apply Run.cons
    · exact .internal (p := ⟨0, Nat.zero_lt_succ 1⟩) (u := ⟨.critical, _⟩) rfl ⟨by decide, rfl⟩
    exact Run.nil
  case critical => rfl

end Tournament
end Xv6Peterson
