import Xv6Peterson.Tournament.Main
import Xv6Peterson.Tournament.Create

namespace Xv6Peterson
namespace Tournament

open Transition Kernel Peterson Word

/-!
# The program `tournament N`

`main` of `user/tournament.c` from its argument: the checks of
`num_processes` (`mainChecks`), `tournament_create` (`tournamentCreate`), and
then the processes it forked, with tournament ids `0` to `N - 1`, running the
rest of `main` (`tournamentMain`) with the globals `forkedGlobals` gives each.
When a check or `tournament_create` fails, `main` prints its message and exits
with `1` before any fork.

`tournament_create` leaves a tree that the guarantees of
`Tournament/Main.lean` cover (`tournamentCreate_main`): for `N = 2 ^ k` with
`k ≥ 1` the layout of `Tournament/Create.lean`, whose globals are the forked
processes' own.  For `N = 1` no lock is made and `peterson_lock_ids_array`
stays the null pointer, where the layout of height `0` has an empty array;
neither is ever read, since with `num_total_locks = 0` every level is out of
bounds and the routines return at their check of `N_processes == 1`.
-/

/-! ## Globals without locks -/

section NoLocks

variable {g : Globals}

/-- With `num_total_locks = 0` every index is out of bounds. -/
theorem levelStep_of_noLocks (noLocks : g.numTotalLocks = 0) (l : Int32) :
    levelStep g l = some .outOfBounds := by
  unfold levelStep
  rw [if_pos]
  rw [noLocks, Int32.lt_iff_toInt_lt, ge_iff_le, Int32.le_iff_toInt_le, Int32.toInt_zero]
  omega

theorem routineChecks_lockIds (noLocks : g.numTotalLocks = 0) (ids : Option (List Int32)) :
    routineChecks { g with lockIds := ids } = routineChecks g := by
  have none : ¬ (g.numTotalLocks > 0) := by
    rw [noLocks]
    decide
  unfold routineChecks
  simp only [none, false_and, if_false]

theorem callAt_lockIds (noLocks : g.numTotalLocks = 0) (ids : Option (List Int32)) :
    callAt { g with lockIds := ids } = callAt g := by
  funext point
  cases point <;> simp only [callAt, levelStep_of_noLocks noLocks,
    levelStep_of_noLocks (g := { g with lockIds := ids }) noLocks]

theorem advance_lockIds (noLocks : g.numTotalLocks = 0) (ids : Option (List Int32)) :
    advance { g with lockIds := ids } = advance g := by
  funext point
  cases point <;> simp only [advance, routineChecks_lockIds noLocks, levelStep_of_noLocks noLocks,
    levelStep_of_noLocks (g := { g with lockIds := ids }) noLocks]

/-- Without locks, `main` never reads `peterson_lock_ids_array`. -/
theorem tournamentMain_lockIds {P : Type*} {numProcesses : Int32} {globalsOf : P -> Globals}
    (noLocks : forall p, (globalsOf p).numTotalLocks = 0) (ids : P -> Option (List Int32)) :
    tournamentMain numProcesses (fun p => { globalsOf p with lockIds := ids p }) =
      tournamentMain numProcesses globalsOf := by
  have calls : forall p, mainCallAt { globalsOf p with lockIds := ids p } = mainCallAt (globalsOf p) := by
    intro p
    funext point
    cases point <;> simp only [mainCallAt, callAt_lockIds (noLocks p)]
  -- `endRound` reads `my_id` only
  have resumes : forall p, mainResume { globalsOf p with lockIds := ids p } = mainResume (globalsOf p) :=
    fun p => rfl
  have advances : forall p, mainAdvance numProcesses { globalsOf p with lockIds := ids p } =
      mainAdvance numProcesses (globalsOf p) := by
    intro p
    funext point
    cases point <;> simp only [mainAdvance, advance_lockIds (noLocks p)]
    rfl
  unfold tournamentMain
  simp only [calls, resumes, advances]

end NoLocks

/-! ## What `tournament_create` leaves for `main` -/

/-- `tournament_create(1)` leaves the tree of height `0`, with globals that
differ from the layout's only in the null `peterson_lock_ids_array`. -/
theorem tournamentCreate_single_start {numProcesses : Int32} (power : numProcesses.toInt = 2 ^ 0)
    {ptable created : Ptable} {g : Globals}
    (made : tournamentCreate Globals.initial numProcesses ptable = (.ok g, created)) :
    exists t : Layout (Fin numProcesses.toInt.toNat), t.height = 0 ∧
      (forall p, forkedGlobals g p.val = { t.globals p with lockIds := none }) ∧
      t.Start (startState created) := by
  rw [tournamentCreate_of_single power] at made
  cases made
  have processes : numProcesses.toInt.toNat = 2 ^ 0 := toNat_toInt_of_power power
  have word : numProcesses = Int32.ofNat (2 ^ 0) := by
    apply Int32.toInt_inj.mp
    rw [power]
    rfl
  refine ⟨Layout.ofSlots 0 (by decide) processes [] rfl List.nodup_nil, rfl, fun p => ?_, ?_⟩
  · simp only [Layout.globals, forkedGlobals, Layout.ofSlots, word]
  · -- the tree has no lock to be fresh
    refine Layout.start_startState fun k kLt => absurd kLt ?_
    simp [Layout.ofSlots]

/-- Once the checks of `main` pass and `tournament_create` succeeds, the
forked processes run `main` on a tree that the guarantees of `main` cover:
process `p` has tournament id `p`, every lock of the tree is freshly allocated
in the table `created`, and the processes' program is `main` on the layout. -/
theorem tournamentCreate_main {numProcesses : Int32} {ptable created : Ptable} {g : Globals}
    (checked : mainChecks numProcesses = none)
    (made : tournamentCreate Globals.initial numProcesses ptable = (.ok g, created)) :
    exists t : Layout (Fin numProcesses.toInt.toNat), (forall p, (t.globals p).myId = .ofNat p.val) ∧
      tournamentMain numProcesses (fun p => forkedGlobals g p.val) =
        tournamentMain (.ofNat (2 ^ t.height)) t.globals ∧
      t.Start (startState created) := by
  obtain ⟨k, kLe, power⟩ := (mainChecks_eq_none_iff numProcesses).mp checked
  have powerLt : 2 ^ k < 2 ^ 31 := Nat.lt_of_le_of_lt (Nat.pow_le_pow_right (by decide) kLe) (by decide)
  have word : numProcesses = Int32.ofNat (2 ^ k) := by
    apply Int32.toInt_inj.mp
    rw [toInt_ofNat_of_lt powerLt, power]
    push_cast
    rfl
  by_cases single : k = 0
  · -- one process: the layout's globals up to the null array
    subst single
    obtain ⟨t, height, globalsAre, start⟩ := tournamentCreate_single_start power made
    have noLocks : forall p, (t.globals p).numTotalLocks = 0 := fun p => by
      show Int32.ofNat (2 ^ t.height) - 1 = 0
      rw [height]
      rfl
    refine ⟨t, fun p => by rw [← congrArg Globals.myId (globalsAre p)]; rfl, ?_, start⟩
    rw [funext globalsAre, tournamentMain_lockIds noLocks, height]
    exact congrArg (fun n => tournamentMain n t.globals) word
  · obtain ⟨t, height, globalsAre, start⟩ := tournamentCreate_start kLe (by omega) power made
    refine ⟨t, fun p => by rw [globalsAre p]; rfl, ?_, start⟩
    rw [← funext globalsAre, height]
    exact congrArg (fun n => tournamentMain n t.globals) word

/-! ## Runs of `tournament N` -/

section Runs

variable {P : Type*} [Fintype P] [DecidableEq P] {numProcesses : Int32} {globalsOf : P -> Globals}

/-- `main` allocates and frees no lock: its runs keep the active slots of the
table `tournament_create` left, since seen as runs of `rounds` they make only
the calls of the lock routines. -/
theorem mainRun_keeps_active {ptable : Ptable} {labels : List (Option (Label P))}
    {s : System P MainProcess} (run : Run (MainStep numProcesses globalsOf) (mainStart ptable) labels s) :
    activeSlots s.machine.ptable = activeSlots ptable := by
  obtain ⟨roundLabels, roundsRun⟩ :=
    Run.reaches project (fun _ _ _ stepped => stepped.image_step.imp (fun moved => ⟨_, moved⟩) And.left) run
  exact rounds_run_active (noScan_startState ptable) roundsRun

end Runs

/-- Safety of `tournament N` for every argument that `main` goes on with and
every table on which `tournament_create` succeeds, however the forked
processes' steps are interleaved: at most one process is in its critical
section, every process that has exited did so with `0`, the process with
tournament id `0` exits only after every other, and no lock is allocated or
freed after `tournament_create`. -/
theorem tournamentProgram_safety {numProcesses : Int32} {ptable created : Ptable} {g : Globals}
    (checked : mainChecks numProcesses = none)
    (made : tournamentCreate Globals.initial numProcesses ptable = (.ok g, created))
    {labels : List (Option (Label (Fin numProcesses.toInt.toNat)))}
    {s : System (Fin numProcesses.toInt.toNat) MainProcess}
    (run : Run (MainStep numProcesses fun p => forkedGlobals g p.val) (mainStart created) labels s) :
    (forall p q, (s.user p).point = .round .critical -> (s.user q).point = .round .critical -> p = q) ∧
      (forall p, (s.user p).point.status = none ∨ (s.user p).point.status = some 0) ∧
      (forall p, p.val = 0 -> (s.user p).point = .exited -> forall q, (s.user q).point = .exited) ∧
      activeSlots s.machine.ptable = activeSlots created := by
  obtain ⟨t, ids, same, start⟩ := tournamentCreate_main checked made
  have steps : MainStep numProcesses (fun p => forkedGlobals g p.val) =
      MainStep (.ofNat (2 ^ t.height)) t.globals := by
    unfold MainStep
    rw [same]
  have keeps := mainRun_keeps_active run
  rw [steps] at run
  have inv := MainInv.of_run start.fresh run
  refine ⟨fun p q => inv.critical_unique, inv.status_cases, fun p parent exited q => ?_, keeps⟩
  -- tournament id `0` is the layout's leaf `0`
  have leaf : t.leafOf p = 0 := (t.myId_eq_zero_iff p).mp (by rw [ids p, parent]; rfl)
  exact inv.exits_last leaf exited q

/-- `tournament 4` after boot, along a run to the state where every process has
exited, each after its critical section. -/
theorem tournamentProgram_safety_exited :
    exists g created, mainChecks 4 = none ∧
      tournamentCreate Globals.initial 4 petersonInit = (.ok g, created) ∧
      exists labels s, Run (MainStep 4 fun p : Fin (Int32.toInt 4).toNat => forkedGlobals g p.val)
          (mainStart created) labels s ∧ (forall p, (s.user p).point = .exited) ∧
        ((forall p q, (s.user p).point = .round .critical -> (s.user q).point = .round .critical ->
            p = q) ∧
          (forall p, (s.user p).point.status = none ∨ (s.user p).point.status = some 0) ∧
          (forall p, p.val = 0 -> (s.user p).point = .exited -> forall q, (s.user q).point = .exited) ∧
          activeSlots s.machine.ptable = activeSlots created) := by
  have checked : mainChecks 4 = none := (mainChecks_eq_none_iff 4).mpr ⟨2, by decide, by decide⟩
  obtain ⟨-, -, succeeds, -⟩ :=
    tournamentCreate_spec (by decide) (show (4 : Int32).toInt = 2 ^ 2 by decide) Globals.initial petersonInit
  obtain ⟨g, made⟩ := succeeds.mpr (by decide)
  -- the run of `main` on the layout in which every process exits, seen on the forked globals
  obtain ⟨t, -, same, start⟩ := tournamentCreate_main checked (Prod.ext made rfl)
  have steps : MainStep 4 (fun p : Fin (Int32.toInt 4).toNat => forkedGlobals g p.val) =
      MainStep (.ofNat (2 ^ t.height)) t.globals := by
    unfold MainStep
    rw [same]
  obtain ⟨s, ⟨labels, run⟩, exited⟩ := (MainInv.start start.fresh).reaches_exited
  rw [← steps] at run
  exact ⟨g, _, checked, Prod.ext made rfl, labels, s, run, exited,
    tournamentProgram_safety checked (Prod.ext made rfl) run⟩

/-- Termination of `tournament N` under a fair scheduler, for every argument
that `main` goes on with and every table on which `tournament_create`
succeeds: along every execution of the forked processes in which no process
able to step is passed over forever, there is a moment at which every process
has exited with `0`, and the table then has exactly the active slots that
`tournament_create` left: the `N - 1` locks it allocated are never freed. -/
theorem tournamentProgram_terminates {numProcesses : Int32} {ptable created : Ptable} {g : Globals}
    (checked : mainChecks numProcesses = none)
    (made : tournamentCreate Globals.initial numProcesses ptable = (.ok g, created))
    (x : Execution (MainStepBy numProcesses fun p : Fin numProcesses.toInt.toNat => forkedGlobals g p.val)
      (mainStart created))
    (fair : x.Fair) :
    exists n, (forall p, ((x.state n).user p).point = .exited) ∧
      activeSlots (x.state n).machine.ptable = activeSlots created := by
  obtain ⟨t, -, same, start⟩ := tournamentCreate_main checked made
  have steps : MainStepBy numProcesses (fun p => forkedGlobals g p.val) =
      MainStepBy (.ofNat (2 ^ t.height)) t.globals := by
    unfold MainStepBy
    rw [same]
  -- the execution is one of `main` on the layout
  revert x
  rw [steps]
  intro x fair
  obtain ⟨n, exited⟩ := terminates_from (MainInv.start start.fresh) fair
  obtain ⟨labels, run⟩ := reachable_mainStep x n
  exact ⟨n, exited, mainRun_keeps_active run⟩

/-- `tournament 4` after boot under the round robin, which is fair. -/
theorem tournamentProgram_terminates_four :
    exists g created, mainChecks 4 = none ∧
      tournamentCreate Globals.initial 4 petersonInit = (.ok g, created) ∧
      exists x : Execution (MainStepBy 4 fun p : Fin (Int32.toInt 4).toNat => forkedGlobals g p.val)
          (mainStart created), x.Fair ∧
        exists n, (forall p, ((x.state n).user p).point = .exited) ∧
          activeSlots (x.state n).machine.ptable = activeSlots created := by
  have checked : mainChecks 4 = none := (mainChecks_eq_none_iff 4).mpr ⟨2, by decide, by decide⟩
  obtain ⟨-, -, succeeds, -⟩ :=
    tournamentCreate_spec (by decide) (show (4 : Int32).toInt = 2 ^ 2 by decide) Globals.initial petersonInit
  obtain ⟨g, made⟩ := succeeds.mpr (by decide)
  obtain ⟨x, fair⟩ := Execution.exists_fair
    (MainStepBy 4 fun p : Fin (Int32.toInt 4).toNat => forkedGlobals g p.val)
    (mainStart (tournamentCreate Globals.initial 4 petersonInit).2)
  exact ⟨g, _, checked, Prod.ext made rfl, x, fair,
    tournamentProgram_terminates checked (Prod.ext made rfl) x fair⟩

end Tournament
end Xv6Peterson
