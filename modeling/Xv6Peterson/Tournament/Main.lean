import Xv6Peterson.Tournament.Liveness
import Mathlib.Data.Fintype.Card

namespace Xv6Peterson
namespace Tournament

open Transition Kernel Peterson Word

/-!
# `main` of `user/tournament.c`

Once `tournament_create` has returned, each process of `main` runs one round:
it calls `tournament_acquire`, runs its critical section and calls
`tournament_release`, and a routine that fails makes it `exit(1)`.  After the
round the process with tournament id `0`, which forked the others, calls
`wait(0)` once for each of its `num_processes - 1` children and exits with
`0`; the others exit with `0` at once.  `rounds` (`Tournament/Rounds.lean`)
lets a process repeat its round and never exit; the program here is `main` as
it is written.

`wait(0)` returns once a child has exited that it has not waited for yet, or
at once when no child is left.  Its result only chooses a message, so the
model keeps only when it returns (`Waited`): each of the parent's earlier
waits has reaped one child.

Seen through `MainPoint.toRound`, which puts a process whose round is over back
in its remainder section, every step of `main` is a step of `rounds` or no step
at all (`tournamentMain_project`).  So every state that `main` reaches is one
that `rounds` reaches, and the guarantees of the tournament carry over.  The
image of a fair execution of `main` is fair to the processes in their rounds,
which is all the argument of `Tournament/Liveness.lean` asks: every process
finishes its round, the parent then reaps every child, and every process exits
with `0`.
-/

variable {P : Type*}

/-! ## The program -/

/-- Where a process of `main` stands once `tournament_create` has returned. -/
inductive MainPoint
  /-- In its round, at a point of `rounds`: `.remainder` before the call of
  `tournament_acquire`, and `.exited 1` after a routine failed. -/
  | round (point : Point)
  /-- The parent's loop `for (i = 0; i < num_processes - 1; i++)` at its test. -/
  | joining (i : Int32)
  /-- The `exit(0)` that ends `main`. -/
  | exited
  deriving DecidableEq, Repr

/-- The status a process has exited with, if it has. -/
def MainPoint.status : MainPoint -> Option Int32
  | .round (.exited status) => some status
  | .exited => some 0
  | _ => none

/-- The point of `rounds` a process of `main` is at: once its round is over, the
remainder section, which it never leaves. -/
def MainPoint.toRound : MainPoint -> Point
  | .round point => point
  | _ => .remainder

/-- Where `main` goes on once a step of the round reaches `point`: back in the
remainder section means that `tournament_release` returned `0`, after which
the process with tournament id `0` waits for its children and the others exit. -/
def endRound (g : Globals) : Point -> MainPoint
  | .remainder => if g.myId = 0 then .joining 0 else .exited
  | point => .round point

/-- The call a process of `main` makes next, if it is at one. -/
def mainCallAt (g : Globals) : MainPoint -> Option Syscall
  | .round point => callAt g point
  | _ => none

/-- Where a process of `main` goes on from `point` once its call returns `value`. -/
def mainResume (g : Globals) : MainPoint -> Int -> MainPoint
  | .round point, value => endRound g (resume point value)
  | point, _ => point

/-- The step a process of `main` takes without a call, if it takes one: a step of
its round; in the parent's loop the return of `wait(0)`, or the `exit(0)` once
the test fails. -/
def mainAdvance (numProcesses : Int32) (g : Globals) : MainPoint -> Option MainPoint
  | .round point => (advance g point).map (endRound g)
  | .joining i => some (if i < numProcesses - 1 then .joining (i + 1) else .exited)
  | .exited => none

/-- A process of `main`: its point, and the locks it holds, an auxiliary
variable that only the results of its calls change. -/
structure MainProcess where
  point : MainPoint
  held : Holding

/-- The processes of `main` with `num_processes` equal to `numProcesses`, each
with the globals `globalsOf p` that `tournament_create` gave it. -/
def tournamentMain (numProcesses : Int32) (globalsOf : P -> Globals) : Program P MainProcess where
  starts p u call := mainCallAt (globalsOf p) u.point = some call ∧ Allowed u.held call
  returns p u call value := ⟨mainResume (globalsOf p) u.point value, grant call value u.held⟩
  internal p u u' := mainAdvance numProcesses (globalsOf p) u.point = some u'.point ∧ u'.held = u.held

section Wait

variable [Fintype P] [DecidableEq P]

/-- The processes other than `p` that have exited. -/
def exitedOthers (s : System P MainProcess) (p : P) : Finset P :=
  Finset.univ.filter fun q => q ≠ p ∧ ((s.user q).point.status).isSome

/-- `wait(0)` returns in process `p` only once another process has exited that
`p` has not waited for yet, or once no other is left: each of the `i` waits
before this one has reaped one. -/
def Waited (s s' : System P MainProcess) : Prop :=
  forall p i, (s.user p).point = .joining i -> (s'.user p).point = .joining (i + 1) ->
    i.toInt < (exitedOthers s p).card ∨ ((Finset.univ.erase p).card : Int) ≤ i.toInt

/-- The steps of `main` after `tournament_create`. -/
def MainStep (numProcesses : Int32) (globalsOf : P -> Globals) (s : System P MainProcess)
    (label : Option (Label P)) (s' : System P MainProcess) : Prop :=
  (tournamentMain numProcesses globalsOf).Step s label s' ∧ Waited s s'

/-- The steps of `main` that process `p` takes, over which a scheduler fair to
each process is stated. -/
def MainStepBy (numProcesses : Int32) (globalsOf : P -> Globals) (p : P) (s : System P MainProcess)
    (label : Option (Label P)) (s' : System P MainProcess) : Prop :=
  (tournamentMain numProcesses globalsOf).StepBy p s label s' ∧ Waited s s'

end Wait

/-- Every process right after `tournament_create` returned, with the lock table
it left: before the call of `tournament_acquire`, holding nothing and in no call. -/
def mainStart (ptable : Ptable) : System P MainProcess :=
  ⟨⟨ptable, none, fun _ => none⟩, fun _ => ⟨.round .remainder, fun _ => none⟩⟩

/-! ## `main` runs rounds -/

/-- A process of `main` as a process of `rounds`. -/
def MainProcess.toRound (u : MainProcess) : Process :=
  ⟨u.point.toRound, u.held⟩

/-- A state of `main` as a state of `rounds`. -/
def project (s : System P MainProcess) : System P Process :=
  s.map MainProcess.toRound

@[simp] theorem toRound_endRound (g : Globals) (point : Point) :
    (endRound g point).toRound = point := by
  cases point with
  | remainder =>
      simp only [endRound]
      split <;> rfl
  | _ => rfl

theorem endRound_of_ne {g : Globals} {point : Point} (busy : point ≠ .remainder) :
    endRound g point = .round point := by
  cases point with
  | remainder => exact absurd rfl busy
  | _ => rfl

/-- A point of `main` whose image is not the remainder section is a point of the round. -/
theorem eq_round_of_toRound {point : MainPoint} {roundPoint : Point}
    (image : point.toRound = roundPoint) (busy : roundPoint ≠ .remainder) :
    point = .round roundPoint := by
  cases point with
  | round => exact congrArg MainPoint.round image
  | joining | exited => exact absurd image.symm busy

@[simp] theorem project_mainStart (ptable : Ptable) :
    project (mainStart ptable : System P MainProcess) = startState ptable :=
  rfl

section Steps

variable {numProcesses : Int32} {globalsOf : P -> Globals}

theorem tournamentMain_starts {p : P} {u : MainProcess} {call : Syscall}
    (started : (tournamentMain numProcesses globalsOf).starts p u call) :
    (rounds globalsOf).starts p u.toRound call := by
  obtain ⟨called, allowed⟩ := started
  refine ⟨?_, allowed⟩
  obtain ⟨point, held⟩ := u
  cases point with
  | round point => exact called
  | joining | exited => cases called

theorem tournamentMain_returns (p : P) (u : MainProcess) (call : Syscall) (value : Int) :
    ((tournamentMain numProcesses globalsOf).returns p u call value).toRound =
      (rounds globalsOf).returns p u.toRound call value := by
  obtain ⟨point, held⟩ := u
  cases point with
  | round point =>
      show (⟨(endRound (globalsOf p) (resume point value)).toRound, grant call value held⟩ : Process) =
        ⟨resume point value, grant call value held⟩
      rw [toRound_endRound]
  | joining | exited => rfl

/-- A user step from a point of the round is a step of `advance`, where
`endRound` takes it on. -/
theorem tournamentMain_internal_of_round {p : P} {u u' : MainProcess} {point : Point}
    (atRound : u.point = .round point) (internal : (tournamentMain numProcesses globalsOf).internal p u u') :
    exists next, advance (globalsOf p) point = some next ∧
      u'.point = endRound (globalsOf p) next ∧ u'.held = u.held := by
  obtain ⟨advanced, kept⟩ := internal
  rw [atRound, mainAdvance, Option.map_eq_some_iff] at advanced
  obtain ⟨next, advanced, reached⟩ := advanced
  exact ⟨next, advanced, reached.symm, kept⟩

/-- A user step of the round is a user step of `rounds`. -/
theorem tournamentMain_internal_round {p : P} {u u' : MainProcess} {point : Point}
    (atRound : u.point = .round point) (internal : (tournamentMain numProcesses globalsOf).internal p u u') :
    (rounds globalsOf).internal p u.toRound u'.toRound := by
  obtain ⟨next, advanced, reached, kept⟩ := tournamentMain_internal_of_round atRound internal
  refine ⟨?_, kept⟩
  show advance (globalsOf p) u.point.toRound = some u'.point.toRound
  rw [atRound, reached, toRound_endRound]
  exact advanced

/-- A user step of the parent's loop: `wait(0)` returns and the loop goes on,
or its test fails and the parent exits. -/
theorem tournamentMain_internal_of_joining {p : P} {u u' : MainProcess} {i : Int32}
    (atJoining : u.point = .joining i) (internal : (tournamentMain numProcesses globalsOf).internal p u u') :
    u'.point = (if i < numProcesses - 1 then .joining (i + 1) else .exited) ∧ u'.held = u.held := by
  obtain ⟨advanced, kept⟩ := internal
  rw [atJoining, mainAdvance, Option.some.injEq] at advanced
  exact ⟨advanced.symm, kept⟩

/-- The parent's loop stays at the image of the remainder section. -/
theorem tournamentMain_internal_joining {p : P} {u u' : MainProcess} {i : Int32}
    (atJoining : u.point = .joining i) (internal : (tournamentMain numProcesses globalsOf).internal p u u') :
    u'.toRound = u.toRound := by
  obtain ⟨advanced, kept⟩ := tournamentMain_internal_of_joining atJoining internal
  have image : u'.point.toRound = .remainder := by
    rw [advanced]
    split <;> rfl
  show (⟨u'.point.toRound, u'.held⟩ : Process) = ⟨u.point.toRound, u.held⟩
  rw [image, kept, atJoining]
  rfl

theorem tournamentMain_not_internal_exited {p : P} {u u' : MainProcess} (atExited : u.point = .exited) :
    ¬ (tournamentMain numProcesses globalsOf).internal p u u' := by
  rintro ⟨advanced, -⟩
  rw [atExited, mainAdvance] at advanced
  cases advanced

variable [DecidableEq P]

/-- Every step of `main` is a step of `rounds` on the images, except the steps
of the parent's loop, which leave the image where it was. -/
theorem tournamentMain_project {p : P} {s s' : System P MainProcess} {label : Option (Label P)}
    (stepped : (tournamentMain numProcesses globalsOf).StepBy p s label s') :
    (rounds globalsOf).StepBy p (project s) label (project s') ∨
      ((exists i, (s.user p).point = .joining i) ∧ label = none ∧ project s' = project s) := by
  cases label with
  | some seen =>
      exact Or.inl (stepped.map_call _ (fun _ _ _ started => tournamentMain_starts started)
        tournamentMain_returns)
  | none =>
      cases pointIs : (s.user p).point with
      | round point =>
          exact Or.inl (stepped.map_internal _ fun _ internal =>
            tournamentMain_internal_round pointIs internal)
      | joining i =>
          exact Or.inr ⟨⟨i, rfl⟩, rfl, stepped.map_stutter _ fun _ internal =>
            tournamentMain_internal_joining pointIs internal⟩
      | exited =>
          exact Or.inl (stepped.map_internal _ fun _ internal =>
            absurd internal (tournamentMain_not_internal_exited pointIs))

/-- A step from a point of the round is a step of `rounds` on the images. -/
theorem tournamentMain_project_of_round {p : P} {s s' : System P MainProcess} {label : Option (Label P)}
    {point : Point} (atRound : (s.user p).point = .round point)
    (stepped : (tournamentMain numProcesses globalsOf).StepBy p s label s') :
    (rounds globalsOf).StepBy p (project s) label (project s') := by
  rcases tournamentMain_project stepped with moved | ⟨⟨i, joining⟩, -, -⟩
  · exact moved
  · rw [atRound] at joining
    cases joining

/-- After a step from a point of the round other than the remainder section,
`main` is where `endRound` puts the image. -/
theorem tournamentMain_point_of_round {p : P} {s s' : System P MainProcess} {label : Option (Label P)}
    {point : Point} (atRound : (s.user p).point = .round point) (busy : point ≠ .remainder)
    (stepped : (tournamentMain numProcesses globalsOf).StepBy p s label s') :
    (s'.user p).point = endRound (globalsOf p) (s'.user p).point.toRound := by
  cases stepped with
  | @call seen machine mover starts machineStep =>
      subst mover
      simp only [Function.update_self, Program.after]
      cases seen.result with
      | some value =>
          simp only [tournamentMain, atRound, mainResume, toRound_endRound]
      | none => rw [atRound, MainPoint.toRound, endRound_of_ne busy]
  | @internal u _ internal =>
      simp only [Function.update_self]
      obtain ⟨next, -, reached, -⟩ := tournamentMain_internal_of_round atRound internal
      rw [reached, toRound_endRound]

end Steps

@[simp] theorem project_point (s : System P MainProcess) (p : P) :
    ((project s).user p).point = (s.user p).point.toRound :=
  rfl

@[simp] theorem project_held (s : System P MainProcess) (p : P) :
    ((project s).user p).held = (s.user p).held :=
  rfl

/-- Where a step of the round takes `main`: a point of the round, or the end of
the round. -/
theorem endRound_cases (g : Globals) (point : Point) :
    (exists next, endRound g point = .round next) ∨ endRound g point = endRound g .remainder := by
  cases point with
  | remainder => exact Or.inr rfl
  | _ => exact Or.inl ⟨_, rfl⟩

theorem tournamentMain_round_step [DecidableEq P] {numProcesses : Int32} {globalsOf : P -> Globals}
    {p : P} {s s' : System P MainProcess} {label : Option (Label P)} {point : Point}
    (atRound : (s.user p).point = .round point)
    (stepped : (tournamentMain numProcesses globalsOf).StepBy p s label s') :
    (exists next, (s'.user p).point = .round next) ∨
      (s'.user p).point = endRound (globalsOf p) .remainder := by
  cases stepped with
  | @call seen machine mover starts machineStep =>
      subst mover
      simp only [Function.update_self, Program.after]
      cases seen.result with
      | some value =>
          simp only [tournamentMain, atRound, mainResume]
          exact endRound_cases _ _
      | none => exact Or.inl ⟨point, atRound⟩
  | @internal u _ internal =>
      simp only [Function.update_self]
      obtain ⟨next, -, reached, -⟩ := tournamentMain_internal_of_round atRound internal
      rw [reached]
      exact endRound_cases _ _

theorem endRound_remainder_of_joining {g : Globals} {i : Int32}
    (joining : endRound g .remainder = .joining i) : g.myId = 0 ∧ i = 0 := by
  simp only [endRound] at joining
  split at joining
  · cases joining
    exact ⟨by assumption, rfl⟩
  · cases joining

theorem endRound_remainder_of_exited {g : Globals} (exited : endRound g .remainder = .exited) :
    g.myId ≠ 0 := by
  simp only [endRound] at exited
  split at exited
  · cases exited
  · assumption

section Lift

variable [Fintype P] [DecidableEq P] {numProcesses : Int32} {globalsOf : P -> Globals}

/-- `Waited` asks only of the process that steps, since no other loop counter
moves. -/
theorem waited_of_stepBy {p : P} {s s' : System P MainProcess} {label : Option (Label P)}
    (stepped : (tournamentMain numProcesses globalsOf).StepBy p s label s')
    (returned : forall i, (s.user p).point = .joining i -> (s'.user p).point = .joining (i + 1) ->
      i.toInt < (exitedOthers s p).card ∨ ((Finset.univ.erase p).card : Int) ≤ i.toInt) :
    Waited s s' := by
  intro q i joining joining'
  by_cases mover : q = p
  · subst mover
    exact returned i joining joining'
  · rw [(stepped.other mover).1, joining, MainPoint.joining.injEq] at joining'
    exact absurd joining'.symm (by simp)

/-- A process in its round that `rounds` lets step can step in `main`. -/
theorem tournamentMain_enabled {p : P} {s : System P MainProcess} {point : Point}
    (atRound : (s.user p).point = .round point)
    (enabled : Enabled (rounds globalsOf).StepBy p (project s)) :
    Enabled (MainStepBy numProcesses globalsOf) p s := by
  have notJoining : forall i, (s.user p).point ≠ .joining i := fun i => by
    rw [atRound]
    simp
  obtain ⟨label, target, stepped⟩ := enabled
  cases stepped with
  | @call seen _ mover starts machineStep =>
      have stepped' := @Program.StepBy.call _ _ _ (tournamentMain numProcesses globalsOf) p s _ _ mover
        (fun idle => by
          have started : callAt (globalsOf p) ((project s).user p).point = some seen.call ∧
              Allowed ((project s).user p).held seen.call := starts idle
          rw [project_point, project_held, atRound] at started
          exact ⟨by rw [atRound]; exact started.1, started.2⟩)
        machineStep
      exact ⟨_, _, stepped', waited_of_stepBy stepped' fun i joining => absurd joining (notJoining i)⟩
  | @internal u idle internal =>
      have advanced := internal.1
      rw [project_point, atRound] at advanced
      have stepped' := @Program.StepBy.internal _ _ _ (tournamentMain numProcesses globalsOf) p s
        ⟨endRound (globalsOf p) u.point, (s.user p).held⟩ idle
        ⟨by rw [atRound, mainAdvance, show advance (globalsOf p) point = some u.point from advanced]; rfl,
          rfl⟩
      exact ⟨_, _, stepped', waited_of_stepBy stepped' fun i joining => absurd joining (notJoining i)⟩

end Lift

/-! ## The invariant of `main` -/

/-- The process with tournament id `0` is the one at leaf `0`. -/
theorem Layout.myId_eq_zero_iff (t : Layout P) (p : P) : (t.globals p).myId = 0 ↔ t.leafOf p = 0 := by
  constructor
  · intro zero
    have value := congrArg Int32.toInt zero
    rw [Layout.globals_myId, Layout.leaf_toInt] at value
    simpa using value
  · intro zero
    rw [Layout.globals_myId, zero]
    rfl

/-- The loop bound `num_processes - 1` of the parent, as an `int`. -/
theorem Layout.loopBound_toInt (t : Layout P) (p : P) :
    (Int32.ofNat (2 ^ t.height) - 1).toInt = ((2 ^ t.height - 1 : Nat) : Int) :=
  Layout.numTotalLocks_toInt p

/-- While the test `i < num_processes - 1` of the parent's loop holds, `i++`
does not wrap around. -/
theorem Layout.loopCounter_succ (t : Layout P) (p : P) {i : Int32} (low : 0 ≤ i.toInt)
    (test : i < .ofNat (2 ^ t.height) - 1) :
    i.toInt < ((2 ^ t.height - 1 : Nat) : Int) ∧ (i + 1).toInt = i.toInt + 1 := by
  have bound := Int32.lt_iff_toInt_lt.mp test
  rw [t.loopBound_toInt p] at bound
  have small : 2 ^ t.height ≤ 2 ^ 4 := Nat.pow_le_pow_right (by decide) t.height_le
  exact ⟨bound, Word.toInt_add_of_range (by simp; omega) (by simp; omega)⟩

section Invariant

variable [Fintype P] [DecidableEq P] {t : Layout P}

/-- Fewer processes than leaves are other than one. -/
theorem Layout.card_erase_lt (t : Layout P) (p : P) : (Finset.univ.erase p).card < 2 ^ t.height := by
  have injective : Function.Injective fun q => (⟨t.leafOf q, t.leaf_lt q⟩ : Fin (2 ^ t.height)) :=
    fun _ _ same => t.leaf_injective (congrArg Fin.val same)
  have fewer := Fintype.card_le_of_injective _ injective
  have present : 0 < Fintype.card P := Fintype.card_pos_iff.mpr ⟨p⟩
  rw [Fintype.card_fin] at fewer
  rw [Finset.card_erase_of_mem (Finset.mem_univ p), Finset.card_univ]
  omega

theorem exitedOthers_subset_erase (s : System P MainProcess) (p : P) :
    exitedOthers s p ⊆ Finset.univ.erase p :=
  fun q member => Finset.mem_erase.mpr ⟨(Finset.mem_filter.mp member).2.1, Finset.mem_univ q⟩

/-- Every process other than `p` has exited with `0`. -/
def OthersExited (p : P) (s : System P MainProcess) : Prop :=
  forall q, q ≠ p -> (s.user q).point = .exited

/-- The invariant of the runs of `main` from the state `tournament_create`
leaves.  Seen as a state of `rounds` it has the tree's invariant.  A process in
the parent's loop is the one with tournament id `0`, and its counter is within
the bounds of the loop and has not passed the number of other processes that
have exited, unless it has passed them all.  The parent exits only after
every other process. -/
structure MainInv (t : Layout P) (s : System P MainProcess) : Prop where
  tree : Layout.TreeInv t (project s)
  joining : forall p i, (s.user p).point = .joining i -> t.leafOf p = 0 ∧ 0 ≤ i.toInt ∧
    i.toInt < ((2 ^ t.height : Nat) : Int) ∧
    min i.toInt ((Finset.univ.erase p).card : Int) ≤ (exitedOthers s p).card
  exited : forall p, (s.user p).point = .exited -> t.leafOf p = 0 -> OthersExited p s

theorem MainInv.start {ptable : Ptable}
    (fresh : forall k, k < t.ids.length -> ptable (t.slotOf k) = (ptable (t.slotOf k)).reset 1) :
    MainInv t (mainStart ptable) where
  tree := Layout.TreeInv.start (Layout.start_startState fresh)
  joining _ _ joining := by cases joining
  exited _ exited := by cases exited

variable {s : System P MainProcess}

/-- A process whose round is over stands in the remainder section of `rounds`. -/
theorem MainInv.stand_remainder (inv : MainInv t s) {p : P}
    (remainder : (s.user p).point.toRound = .remainder) :
    Layout.Stand t p .remainder (s.machine.frame p) (s.user p).held := by
  have stand := inv.tree.stand p
  rw [project_point, remainder] at stand
  exact stand

theorem MainInv.idle_of_remainder (inv : MainInv t s) {p : P}
    (remainder : (s.user p).point.toRound = .remainder) : s.machine.frame p = none := by
  have stand := inv.stand_remainder remainder
  generalize s.machine.frame p = frame at stand ⊢
  generalize (s.user p).held = held at stand
  cases stand
  rfl

/-- No routine fails: the round has no `exit(1)`. -/
theorem MainInv.not_round_exited (inv : MainInv t s) (p : P) (status : Int32) :
    (s.user p).point ≠ .round (.exited status) := by
  intro exited
  have stand : Layout.Stand t p (.exited status) ((project s).machine.frame p) ((project s).user p).held := by
    have stand := inv.tree.stand p
    rw [project_point, exited] at stand
    exact stand
  generalize (project s).machine.frame p = frame at stand
  generalize ((project s).user p).held = held at stand
  cases stand

/-- A process that has exited did so with the `exit(0)` that ends `main`. -/
theorem MainInv.exited_of_status (inv : MainInv t s) {q : P} (exited : ((s.user q).point.status).isSome) :
    (s.user q).point = .exited := by
  cases pointIs : (s.user q).point with
  | round point =>
      cases point with
      | exited status => exact absurd pointIs (inv.not_round_exited q status)
      | _ =>
          rw [pointIs] at exited
          cases exited
  | joining i =>
      rw [pointIs] at exited
      cases exited
  | exited => rfl

/-- At most one process is in its critical section. -/
theorem MainInv.critical_unique (inv : MainInv t s) {p q : P}
    (criticalP : (s.user p).point = .round .critical) (criticalQ : (s.user q).point = .round .critical) :
    p = q :=
  inv.tree.critical_unique (by rw [project_point, criticalP]; rfl) (by rw [project_point, criticalQ]; rfl)

/-- Every process that has exited did so with `0`. -/
theorem MainInv.status_cases (inv : MainInv t s) (p : P) :
    (s.user p).point.status = none ∨ (s.user p).point.status = some 0 := by
  cases status : (s.user p).point.status with
  | none => exact Or.inl rfl
  | some value =>
      have exited := inv.exited_of_status (by rw [status]; rfl)
      rw [exited] at status
      exact Or.inr status.symm

/-- The parent exits last. -/
theorem MainInv.exits_last (inv : MainInv t s) {p : P} (leaf : t.leafOf p = 0)
    (exited : (s.user p).point = .exited) (q : P) : (s.user q).point = .exited := by
  by_cases same : q = p
  · rw [same]
    exact exited
  · exact inv.exited p exited leaf q same

variable {numProcesses : Int32} {globalsOf : P -> Globals}

/-- At the image of the remainder section a process makes no call: it is in
none, and neither the remainder section nor the parent's loop nor the end of
`main` calls the kernel, so its steps are user steps. -/
theorem MainInv.internal_of_remainder (inv : MainInv t s) {p : P}
    (remainder : (s.user p).point.toRound = .remainder) {label : Option (Label P)} {s' : System P MainProcess}
    (stepped : (tournamentMain numProcesses globalsOf).StepBy p s label s') :
    exists u, (tournamentMain numProcesses globalsOf).internal p (s.user p) u ∧ s'.user p = u := by
  have idle := inv.idle_of_remainder remainder
  have noCall : mainCallAt (globalsOf p) (s.user p).point = none := by
    cases pointIs : (s.user p).point with
    | round point =>
        rw [pointIs] at remainder
        cases remainder
        rfl
    | joining | exited => rfl
  cases stepped with
  | call _ starts _ =>
      have called := (starts idle).1
      rw [noCall] at called
      cases called
  | @internal u _ internal => exact ⟨u, internal, Function.update_self ..⟩

/-- A process that has exited takes no step. -/
theorem MainInv.not_stepBy_of_exited (inv : MainInv t s) {p : P} (exited : (s.user p).point = .exited)
    {label : Option (Label P)} {s' : System P MainProcess} :
    ¬ (tournamentMain numProcesses globalsOf).StepBy p s label s' := by
  intro stepped
  obtain ⟨u, internal, -⟩ :=
    inv.internal_of_remainder (show (s.user p).point.toRound = .remainder by rw [exited]; rfl) stepped
  exact tournamentMain_not_internal_exited exited internal

/-- The processes that have exited stay so. -/
theorem MainInv.exitedOthers_subset (inv : MainInv t s) {z : P} {label : Option (Label P)}
    {s' : System P MainProcess} (stepped : (tournamentMain numProcesses globalsOf).StepBy z s label s')
    (p : P) : exitedOthers s p ⊆ exitedOthers s' p := by
  intro q member
  simp only [exitedOthers, Finset.mem_filter, Finset.mem_univ, true_and] at member ⊢
  obtain ⟨other, exited⟩ := member
  have mover : q ≠ z := fun same => by
    subst same
    exact inv.not_stepBy_of_exited (inv.exited_of_status exited) stepped
  rw [(stepped.other mover).1]
  exact ⟨other, exited⟩

/-- The parent's own step in its loop. -/
theorem MainInv.joining_own (inv : MainInv t s) {p : P} {i : Int32} (atJoining : (s.user p).point = .joining i)
    {label : Option (Label P)} {s' : System P MainProcess}
    (stepped : (tournamentMain numProcesses globalsOf).StepBy p s label s') :
    (s'.user p).point = if i < numProcesses - 1 then .joining (i + 1) else .exited := by
  obtain ⟨u, internal, reached⟩ :=
    inv.internal_of_remainder (show (s.user p).point.toRound = .remainder by rw [atJoining]; rfl) stepped
  rw [reached]
  exact (tournamentMain_internal_of_joining atJoining internal).1

/-! The invariant is kept by every step of `main` on the layout's tree, where
`num_processes` is the number of leaves. -/

variable {s' : System P MainProcess} {label : Option (Label P)} {z : P}

theorem MainInv.tree_step (inv : MainInv t s)
    (stepped : (tournamentMain (.ofNat (2 ^ t.height)) t.globals).StepBy z s label s') :
    Layout.TreeInv t (project s') := by
  rcases tournamentMain_project stepped with moved | ⟨-, -, same⟩
  · exact inv.tree.step moved.step
  · rw [same]
    exact inv.tree

theorem MainInv.joining_step (inv : MainInv t s)
    (stepped : MainStepBy (.ofNat (2 ^ t.height)) t.globals z s label s') (p : P) (i : Int32)
    (joining' : (s'.user p).point = .joining i) :
    t.leafOf p = 0 ∧ 0 ≤ i.toInt ∧ i.toInt < ((2 ^ t.height : Nat) : Int) ∧
      min i.toInt ((Finset.univ.erase p).card : Int) ≤ (exitedOthers s' p).card := by
  have grows := Finset.card_le_card (inv.exitedOthers_subset stepped.1 p)
  have positive : 1 ≤ 2 ^ t.height := Nat.one_le_two_pow
  by_cases mover : p = z
  · subst mover
    cases pointIs : (s.user p).point with
    | round point =>
        -- the round ends, and the parent enters its loop
        rcases tournamentMain_round_step pointIs stepped.1 with ⟨next, inRound⟩ | ended
        · rw [inRound] at joining'
          cases joining'
        · rw [joining'] at ended
          obtain ⟨myId, rfl⟩ := endRound_remainder_of_joining ended.symm
          refine ⟨(t.myId_eq_zero_iff p).mp myId, by decide, by simp only [Int32.toInt_zero]; omega, ?_⟩
          simp only [Int32.toInt_zero]
          omega
    | joining j =>
        have moved := inv.joining_own pointIs stepped.1
        rw [joining'] at moved
        split at moved
        · -- the loop test held, and `wait(0)` returned
          rename_i test
          cases moved
          obtain ⟨leaf, low, high, counted⟩ := inv.joining p j pointIs
          have guard := stepped.2 p j pointIs joining'
          obtain ⟨bound, next⟩ := t.loopCounter_succ p low test
          refine ⟨leaf, by omega, by omega, ?_⟩
          rw [next]
          omega
        · cases moved
    | exited => exact absurd stepped.1 (inv.not_stepBy_of_exited pointIs)
  · rw [(stepped.1.other mover).1] at joining'
    obtain ⟨leaf, low, high, counted⟩ := inv.joining p i joining'
    exact ⟨leaf, low, high, by omega⟩

theorem MainInv.exited_step (inv : MainInv t s)
    (stepped : MainStepBy (.ofNat (2 ^ t.height)) t.globals z s label s') (p : P)
    (exited' : (s'.user p).point = .exited) (leaf : t.leafOf p = 0) : OthersExited p s' := by
  by_cases mover : p = z
  · subst mover
    cases pointIs : (s.user p).point with
    | round point =>
        -- only a process other than the parent exits at the end of its round
        rcases tournamentMain_round_step pointIs stepped.1 with ⟨next, inRound⟩ | ended
        · rw [inRound] at exited'
          cases exited'
        · rw [exited'] at ended
          exact absurd ((t.myId_eq_zero_iff p).mpr leaf) (endRound_remainder_of_exited ended.symm)
    | joining j =>
        have moved := inv.joining_own pointIs stepped.1
        rw [exited'] at moved
        split at moved
        · cases moved
        · -- the loop is over: the parent has waited for every other process
          rename_i test
          obtain ⟨-, low, high, counted⟩ := inv.joining p j pointIs
          have bound := Int32.not_lt.mp test
          rw [Int32.le_iff_toInt_le, t.loopBound_toInt p] at bound
          have fewer := t.card_erase_lt p
          have all : exitedOthers s p = Finset.univ.erase p :=
            Finset.eq_of_subset_of_card_le (exitedOthers_subset_erase s p) (by omega)
          intro q other
          rw [(stepped.1.other other).1]
          have member : q ∈ exitedOthers s p := by
            rw [all]
            exact Finset.mem_erase.mpr ⟨other, Finset.mem_univ q⟩
          exact inv.exited_of_status (Finset.mem_filter.mp member).2.2
    | exited => exact absurd stepped.1 (inv.not_stepBy_of_exited pointIs)
  · -- once the parent has exited, nobody is left to step
    rw [(stepped.1.other mover).1] at exited'
    exact absurd stepped.1 (inv.not_stepBy_of_exited (inv.exited p exited' leaf z (Ne.symm mover)))

theorem MainInv.step (inv : MainInv t s)
    (stepped : MainStepBy (.ofNat (2 ^ t.height)) t.globals z s label s') : MainInv t s' where
  tree := inv.tree_step stepped.1
  joining := inv.joining_step stepped
  exited := inv.exited_step stepped

end Invariant

/-! ## Runs of `main` -/

section Runs

variable [Fintype P] [DecidableEq P]

theorem MainStep.exists_stepBy {numProcesses : Int32} {globalsOf : P -> Globals}
    {s s' : System P MainProcess} {label : Option (Label P)}
    (stepped : MainStep numProcesses globalsOf s label s') :
    exists p, MainStepBy numProcesses globalsOf p s label s' := by
  obtain ⟨p, steppedBy⟩ := stepped.1.exists_stepBy
  exact ⟨p, steppedBy, stepped.2⟩

/-- Seen through the projection, a step of `main` is the step of `rounds` with
its label, or no step at all and no call. -/
theorem MainStep.image_step {numProcesses : Int32} {globalsOf : P -> Globals}
    {s s' : System P MainProcess} {label : Option (Label P)}
    (stepped : MainStep numProcesses globalsOf s label s') :
    (rounds globalsOf).Step (project s) label (project s') ∨ (project s' = project s ∧ label = none) := by
  obtain ⟨p, steppedBy, -⟩ := stepped.exists_stepBy
  rcases tournamentMain_project steppedBy with moved | ⟨-, none, same⟩
  · exact Or.inl moved.step
  · exact Or.inr ⟨same, none⟩

/-- Every moment of an execution of `main` is a state that its runs reach. -/
theorem reachable_mainStep {numProcesses : Int32} {globalsOf : P -> Globals} {s₀ : System P MainProcess}
    (x : Execution (MainStepBy numProcesses globalsOf) s₀) (n : Nat) :
    Reachable (MainStep numProcesses globalsOf) s₀ (x.state n) := by
  obtain ⟨labels, run⟩ := x.reachable n
  refine ⟨labels, Run.weaken (fun _ => True) trivial (fun _ _ _ _ _ => trivial)
    (fun _ _ _ _ stepped => ?_) run⟩
  obtain ⟨p, steppedBy⟩ := stepped
  exact ⟨steppedBy.1.step, steppedBy.2⟩

theorem MainInv.of_run {t : Layout P} {ptable : Ptable}
    (fresh : forall k, k < t.ids.length -> ptable (t.slotOf k) = (ptable (t.slotOf k)).reset 1)
    {labels : List (Option (Label P))} {s : System P MainProcess}
    (run : Run (MainStep (.ofNat (2 ^ t.height)) t.globals) (mainStart ptable) labels s) :
    MainInv t s :=
  Run.invariant (MainInv t) (MainInv.start fresh) (fun _ _ _ inv stepped => by
    obtain ⟨z, steppedBy⟩ := stepped.exists_stepBy
    exact inv.step steppedBy) run

end Runs

/-! ## `main` under a fair scheduler -/

section Fair

variable [Fintype P] [DecidableEq P] {t : Layout P}

/-- Process `p` has finished its round: it is in the parent's loop or has exited. -/
def Finished (p : P) (s : System P MainProcess) : Prop :=
  forall point, (s.user p).point ≠ .round point

omit [Fintype P] [DecidableEq P] in
theorem finished_of_endRound {g : Globals} {p : P} {s : System P MainProcess}
    (ended : (s.user p).point = endRound g .remainder) : Finished p s := by
  intro point inRound
  rw [inRound, endRound] at ended
  split at ended <;> cases ended

/-- A finished round stays finished. -/
theorem MainInv.finished_step {s s' : System P MainProcess} {label : Option (Label P)} {p z : P}
    (inv : MainInv t s) (finished : Finished p s)
    (stepped : MainStepBy (.ofNat (2 ^ t.height)) t.globals z s label s') : Finished p s' := by
  by_cases mover : p = z
  · subst mover
    cases pointIs : (s.user p).point with
    | round point => exact absurd pointIs (finished point)
    | joining i =>
        intro point inRound
        have moved := inv.joining_own pointIs stepped.1
        rw [inRound] at moved
        split at moved <;> cases moved
    | exited => exact absurd stepped.1 (inv.not_stepBy_of_exited pointIs)
  · rw [Finished, (stepped.1.other mover).1]
    exact finished

/-- Every other process has exited: the parent has waited for each. -/
theorem exitedOthers_of_othersExited {p : P} {s : System P MainProcess} (all : OthersExited p s) :
    exitedOthers s p = Finset.univ.erase p := by
  ext q
  simp only [exitedOthers, Finset.mem_filter, Finset.mem_univ, true_and, Finset.mem_erase, and_true,
    and_iff_left_iff_imp]
  intro other
  rw [all q other]
  rfl

/-- Every step of `main` is a step of `rounds` on the images, or none. -/
theorem mainStepBy_simulates {numProcesses : Int32} {globalsOf : P -> Globals} (p : P)
    (s : System P MainProcess) (label : Option (Label P)) (s' : System P MainProcess)
    (stepped : MainStepBy numProcesses globalsOf p s label s') :
    (rounds globalsOf).StepBy p (project s) label (project s') ∨ project s' = project s :=
  (tournamentMain_project stepped.1).imp_right fun stutter => stutter.2.2

omit [Fintype P] in
/-- A step of `main` from a point of the round lands where `endRound` puts its
image, when it starts or ends outside the remainder section. -/
theorem point_of_image {numProcesses : Int32} {globalsOf : P -> Globals} {p : P}
    {s s' : System P MainProcess} {label : Option (Label P)} {point point' : Point}
    (atRound : (s.user p).point = .round point)
    (stepped : (tournamentMain numProcesses globalsOf).StepBy p s label s')
    (image : (s'.user p).point.toRound = point') (differ : point ≠ .remainder ∨ point' ≠ .remainder) :
    (s'.user p).point = endRound (globalsOf p) point' := by
  rcases differ with busy | busy'
  · rw [tournamentMain_point_of_round atRound busy stepped, image]
  · rw [eq_round_of_toRound image busy', endRound_of_ne busy']

variable {s₀ : System P MainProcess} {x : Execution (MainStepBy (.ofNat (2 ^ t.height)) t.globals) s₀}

/-- The image of a fair execution of `main` is fair to the processes in their
rounds: there a process of `main` can step whenever its image can, and each
of its steps is a step of the image. -/
theorem image_fairFor (fair : x.Fair) : (x.map project mainStepBy_simulates).FairFor Busy :=
  fair.map
    (fun _ _ busy enabled => tournamentMain_enabled (eq_round_of_toRound rfl busy) enabled)
    (fun _ _ _ _ busy stepped => tournamentMain_project_of_round (eq_round_of_toRound rfl busy) stepped.1)

/-- A leads-to of the image between points of the round is one of `main`. -/
theorem image_leadsTo {p : P} {point point' : Point} (busy' : point' ≠ .remainder)
    (leads : (x.map project mainStepBy_simulates).LeadsTo (fun s => (s.user p).point = point)
      (fun s => (s.user p).point = point')) :
    x.LeadsTo (fun s => (s.user p).point = .round point) (fun s => (s.user p).point = .round point') :=
  leads.of_map.mono (fun _ atRound => by rw [project_point, atRound]; rfl)
    (fun _ image => eq_round_of_toRound image busy')

/-- A process at a point of its round, which every step of its own in `rounds`
takes to `point'`, gets to where `endRound` puts `point'`. -/
theorem round_leadsTo (fair : x.Fair) (always : forall n, MainInv t (x.state n)) (p : P)
    {point point' : Point} (differ : point ≠ .remainder ∨ point' ≠ .remainder)
    (moves : forall s label s', Layout.TreeInv t s -> (s.user p).point = point ->
      (rounds t.globals).StepBy p s label s' -> (s'.user p).point = point') :
    x.LeadsTo (fun s => (s.user p).point = .round point)
      (fun s => (s.user p).point = endRound (t.globals p) point') :=
  fair.leadsTo always p
    (fun _ _ _ _ other _ atRound stepped => Or.inl ((stepped.1.other (Ne.symm other)).1 ▸ atRound))
    (fun _ _ _ inv atRound stepped => point_of_image atRound stepped.1
      (moves _ _ _ inv.tree (by rw [project_point, atRound]; rfl)
        (tournamentMain_project_of_round atRound stepped.1)) differ)
    (fun _ inv atRound => tournamentMain_enabled atRound (inv.tree.enabled p))

/-- From its release loop at level `depth` a process finishes its round. -/
theorem releasing_finishes (fair : x.Fair) (always : forall n, MainInv t (x.state n)) (p : P)
    {depth : Nat} (depthLe : depth ≤ t.height) :
    x.LeadsTo (fun s => (s.user p).point = .round (.releasing (.ofNat depth))) (Finished p) := by
  have toTop := image_leadsTo (p := p) (by simp)
    (Layout.releasing_leadsTo (image_fairFor fair) (fun n => (always n).tree) p depthLe (le_refl _))
  have ended := round_leadsTo fair always p (Or.inl (by simp))
    fun _ _ _ inv atTop stepped => inv.releasedAll_own atTop stepped
  exact (toTop.trans ended).mono (fun _ holds => holds) fun _ ended => finished_of_endRound ended

/-- From its critical section a process finishes its round: it releases every
level, or with no lock returns from `tournament_release` at once. -/
theorem critical_finishes (fair : x.Fair) (always : forall n, MainInv t (x.state n)) (p : P) :
    x.LeadsTo (fun s => (s.user p).point = .round .critical) (Finished p) := by
  by_cases zero : t.height = 0
  · refine (round_leadsTo fair always p (Or.inl (by simp))
      fun _ _ _ inv atCritical stepped => inv.critical_own atCritical stepped).mono
        (fun _ holds => holds) fun _ ended => ?_
    rw [if_pos zero] at ended
    exact finished_of_endRound ended
  · exact (image_leadsTo (by simp) (Layout.critical_leadsTo_released (image_fairFor fair)
      (fun n => (always n).tree) p zero (le_refl _))).trans (releasing_finishes fair always p (le_refl _))

/-- From the test of level `depth` of its acquire loop a process finishes its
round: the argument by levels gets it the lock. -/
theorem acquiring_finishes (fair : x.Fair) (always : forall n, MainInv t (x.state n)) (p : P)
    {depth : Nat} (depthLt : depth < t.height) :
    x.LeadsTo (fun s => (s.user p).point = .round (.acquiring (.ofNat depth))) (Finished p) :=
  (image_leadsTo (by simp) (Layout.acquiring_leadsTo_critical (fun n => (always n).tree)
    (image_fairFor fair) depth depthLt p)).trans (critical_finishes fair always p)

/-- Under a fair scheduler every process finishes its round, wherever it is in it. -/
theorem eventually_finished (fair : x.Fair) (always : forall n, MainInv t (x.state n)) (p : P)
    (n : Nat) : exists m, n ≤ m ∧ Finished p (x.state m) := by
  cases pointIs : ((x.state n).user p).point with
  | joining i | exited =>
      refine ⟨n, le_refl _, fun point inRound => ?_⟩
      rw [pointIs] at inRound
      cases inRound
  | round point =>
      -- where the process stands in its round, as the tree's invariant says
      have stand := (always n).tree.stand p
      rw [project_point, pointIs] at stand
      generalize ((project (x.state n)).machine.frame p) = frame at stand
      generalize ((project (x.state n)).user p).held = held at stand
      cases stand with
      | remainder =>
          have entered := round_leadsTo fair always p (Or.inr (by split <;> simp))
            fun _ _ _ inv atRemainder stepped => inv.remainder_own atRemainder stepped
          by_cases zero : t.height = 0
          · rw [if_pos zero, endRound_of_ne (by simp)] at entered
            exact (entered.trans (critical_finishes fair always p)) n pointIs
          · rw [if_neg zero, endRound_of_ne (by simp)] at entered
            exact (entered.trans (acquiring_finishes fair always p (by omega))) n pointIs
      | @entering depth depthLt => exact acquiring_finishes fair always p depthLt n pointIs
      | @waiting depth depthLt => exact acquiring_finishes fair always p depthLt n pointIs
      | acquired =>
          exact ((image_leadsTo (by simp) (Layout.acquired_leadsTo_critical (image_fairFor fair)
            (fun n => (always n).tree) p)).trans (critical_finishes fair always p)) n pointIs
      | critical => exact critical_finishes fair always p n pointIs
      | @releasing depth depthLe => exact releasing_finishes fair always p depthLe n pointIs

/-- The parent `p` is in its loop `k` tests before the test that ends it, and
every other process has exited. -/
def LoopAt (t : Layout P) (p : P) (k : Nat) (s : System P MainProcess) : Prop :=
  (exists i, (s.user p).point = .joining i ∧ (((2 ^ t.height - 1 : Nat) : Int) - i.toInt).toNat = k) ∧
    OthersExited p s

/-- Once every other process has exited, the parent returns from each `wait(0)`
and exits. -/
theorem loop_leadsTo_exited (fair : x.Fair) (always : forall n, MainInv t (x.state n)) (p : P)
    (k : Nat) :
    x.LeadsTo (LoopAt t p k) (fun s => (s.user p).point = .exited ∧ OthersExited p s) := by
  refine Execution.LeadsTo.of_decreasing (fun k => fair.leadsTo always p ?_ ?_ ?_) k
  · -- the others have exited and take no step
    intro q s label s' other inv loop stepped
    exact absurd stepped.1 (inv.not_stepBy_of_exited (loop.2 q other))
  · intro s label s' inv loop stepped
    obtain ⟨⟨i, joining, measured⟩, others⟩ := loop
    have others' : OthersExited p s' := fun q other => by
      rw [(stepped.1.other other).1]
      exact others q other
    have moved := inv.joining_own joining stepped.1
    split at moved
    · -- `wait(0)` returned, and the counter moves one test nearer the end
      rename_i test
      obtain ⟨-, low, -, -⟩ := inv.joining p i joining
      obtain ⟨bound, next⟩ := t.loopCounter_succ p low test
      exact Or.inr ⟨_, by omega, ⟨i + 1, moved, rfl⟩, others'⟩
    · exact Or.inl ⟨moved, others'⟩
  · -- with every other process exited, `wait(0)` can always return
    intro s inv loop
    obtain ⟨⟨i, joining, -⟩, others⟩ := loop
    have idle := inv.idle_of_remainder (show (s.user p).point.toRound = .remainder by rw [joining]; rfl)
    have stepped := @Program.StepBy.internal _ _ _ (tournamentMain (.ofNat (2 ^ t.height)) t.globals) p s
      ⟨if i < .ofNat (2 ^ t.height) - 1 then .joining (i + 1) else .exited, (s.user p).held⟩ idle
      ⟨by rw [joining]; rfl, rfl⟩
    refine ⟨none, _, stepped, waited_of_stepBy stepped fun j _ _ => ?_⟩
    rw [exitedOthers_of_othersExited others]
    omega

/-- A process that has finished its round and is not the parent has exited. -/
theorem MainInv.exited_of_finished {s : System P MainProcess} (inv : MainInv t s) {q : P}
    (finished : Finished q s) (child : t.leafOf q ≠ 0) : (s.user q).point = .exited := by
  cases pointIs : (s.user q).point with
  | round point => exact absurd pointIs (finished point)
  | joining i => exact absurd (inv.joining q i pointIs).1 child
  | exited => rfl

/-- Under a fair scheduler `main` ends from every state with the invariant:
every process finishes its round, the others than the parent exit, and the
parent returns from each of its waits and exits. -/
theorem terminates_from (start : MainInv t s₀) (fair : x.Fair) :
    exists n, forall p, ((x.state n).user p).point = .exited := by
  have always : forall n, MainInv t (x.state n) :=
    x.invariant _ start fun _ _ _ _ inv stepped => inv.step stepped
  -- every process finishes its round, and from some moment on all have
  obtain ⟨n, finished⟩ := x.exists_forall_of_stable
    (fun p n (done : Finished p (x.state n)) => by
      rcases x.next n with same | ⟨z, label, stepped⟩
      · rw [same]
        exact done
      · exact (always n).finished_step done stepped)
    (fun p => by
      obtain ⟨n, -, done⟩ := eventually_finished fair always p 0
      exact ⟨n, done⟩)
  by_cases parent : exists p i, ((x.state n).user p).point = .joining i
  · -- the parent waits for the others, which are children and have exited
    obtain ⟨p, i, joining⟩ := parent
    have leaf := ((always n).joining p i joining).1
    have others : OthersExited p (x.state n) := fun q other =>
      (always n).exited_of_finished (finished q) fun zero => other (t.leaf_injective (zero.trans leaf.symm))
    obtain ⟨m, -, exitedP, othersExited⟩ := loop_leadsTo_exited fair always p _ n ⟨⟨i, joining, rfl⟩, others⟩
    refine ⟨m, fun q => ?_⟩
    by_cases same : q = p
    · rw [same]
      exact exitedP
    · exact othersExited q same
  · -- nobody is left in the parent's loop
    push Not at parent
    refine ⟨n, fun q => ?_⟩
    cases pointIs : ((x.state n).user q).point with
    | round point => exact absurd pointIs (finished q point)
    | joining i => exact absurd pointIs (parent q i)
    | exited => rfl

end Fair

/-- From every state with the invariant, some run of `main` ends with every
process exited: the round robin over the processes is fair. -/
theorem MainInv.reaches_exited [Fintype P] [DecidableEq P] {t : Layout P} {s : System P MainProcess}
    (inv : MainInv t s) :
    exists s', Reachable (MainStep (.ofNat (2 ^ t.height)) t.globals) s s' ∧
      forall p, (s'.user p).point = .exited := by
  obtain ⟨x, fair⟩ := Execution.exists_fair (MainStepBy (.ofNat (2 ^ t.height)) t.globals) s
  obtain ⟨n, exited⟩ := terminates_from inv fair
  exact ⟨x.state n, reachable_mainStep x n, exited⟩

/-! ## The guarantees of `main` -/

section Guarantees

variable [Fintype P] [DecidableEq P]

/-- `main` refines `rounds`: every state that a run of `main` reaches from
where `tournament_create` returned is, seen as a state of `rounds`, one that
`rounds` reaches from there.  The rounds of the processes are steps of
`rounds`, and the parent's loop leaves the image where it is. -/
theorem tournamentMain_refinesRounds (numProcesses : Int32) (globalsOf : P -> Globals)
    (ptable : Ptable) {labels : List (Option (Label P))} {s : System P MainProcess}
    (run : Run (MainStep numProcesses globalsOf) (mainStart ptable) labels s) :
    Reachable (rounds globalsOf).Step (startState ptable) (project s) := by
  rw [← project_mainStart]
  exact Run.reaches project (fun _ _ _ stepped => stepped.image_step.imp (fun moved => ⟨_, moved⟩) And.left) run

/-- `tournament 4` after boot: a run to the state where every process has exited. -/
theorem tournamentMain_refinesRounds_four :
    exists s : System (Fin (2 ^ 2)) MainProcess, (forall p, (s.user p).point = .exited) ∧
      Reachable (rounds (bootLayout 2 (by decide)).globals).Step (startState (bootTable 2)) (project s) := by
  obtain ⟨s, ⟨labels, run⟩, exited⟩ :=
    (MainInv.start (start_bootStart 2 (by decide)).fresh).reaches_exited
  exact ⟨s, exited, tournamentMain_refinesRounds _ _ _ run⟩

/-- Safety of `main` on the tree that `tournament_create` leaves, however the
processes' steps are interleaved: at most one process is in its critical
section, no routine fails, so that the only exit is the `exit(0)` that ends
`main`, and the process with tournament id `0` exits only once every other
process has exited. -/
theorem tournamentMain_safety (t : Layout P) {ptable : Ptable}
    (fresh : forall k, k < t.ids.length -> ptable (t.slotOf k) = (ptable (t.slotOf k)).reset 1)
    {labels : List (Option (Label P))} {s : System P MainProcess}
    (run : Run (MainStep (.ofNat (2 ^ t.height)) t.globals) (mainStart ptable) labels s) :
    (forall p q, (s.user p).point = .round .critical -> (s.user q).point = .round .critical -> p = q) ∧
      (forall p, (s.user p).point.status = none ∨ (s.user p).point.status = some 0) ∧
      forall p, t.leafOf p = 0 -> (s.user p).point = .exited -> forall q, (s.user q).point = .exited := by
  have inv := MainInv.of_run fresh run
  exact ⟨fun p q => inv.critical_unique, inv.status_cases,
    fun p leaf exited q => inv.exits_last leaf exited q⟩

/-- `tournament 4` after boot, at the end of a run where every process has exited. -/
theorem tournamentMain_safety_four :
    exists s : System (Fin (2 ^ 2)) MainProcess, (forall p, (s.user p).point = .exited) ∧
      (forall p q, (s.user p).point = .round .critical -> (s.user q).point = .round .critical -> p = q) ∧
      (forall p, (s.user p).point.status = none ∨ (s.user p).point.status = some 0) ∧
      forall p, (bootLayout 2 (by decide)).leafOf p = 0 -> (s.user p).point = .exited ->
        forall q, (s.user q).point = .exited := by
  have fresh := (start_bootStart 2 (by decide)).fresh
  obtain ⟨s, ⟨labels, run⟩, exited⟩ := (MainInv.start fresh).reaches_exited
  exact ⟨s, exited, tournamentMain_safety (bootLayout 2 (by decide)) fresh run⟩

/-- The auxiliary lock rules never block `main`: along every run from the state
`tournament_create` leaves, a process in no call is allowed the call its point
names. -/
theorem tournamentMain_allowed (t : Layout P) {ptable : Ptable}
    (fresh : forall k, k < t.ids.length -> ptable (t.slotOf k) = (ptable (t.slotOf k)).reset 1)
    {labels : List (Option (Label P))} {s : System P MainProcess}
    (run : Run (MainStep (.ofNat (2 ^ t.height)) t.globals) (mainStart ptable) labels s) (p : P)
    (idle : s.machine.frame p = none) {call : Syscall}
    (named : mainCallAt (t.globals p) (s.user p).point = some call) : Allowed (s.user p).held call := by
  -- the process stands in `rounds` at the point its round is at
  have stand : Layout.Stand t p (s.user p).point.toRound none (s.user p).held := by
    have projected := (MainInv.of_run fresh run).tree.stand p
    rw [show (project s).machine.frame p = none from idle] at projected
    exact projected
  cases pointIs : (s.user p).point with
  | round point =>
      rw [pointIs] at named stand
      exact stand.allowed named
  | joining | exited =>
      rw [pointIs] at named
      cases named

/-- Bounded bypass at every node of the tree as `main` runs it: once a process
`w` waits in its acquire of a lock with role `r`, the kernel returns `0` to
acquires of that lock with role `1 - r` at most once while `w` keeps waiting.
Through the projection the run of `main` is a run of `rounds` with the same
calls, since the steps of the parent's loop make none. -/
theorem tournamentMain_boundedBypass (t : Layout P) {ptable : Ptable}
    (fresh : forall k, k < t.ids.length -> ptable (t.slotOf k) = (ptable (t.slotOf k)).reset 1)
    {labels more : List (Option (Label P))} {s s' : System P MainProcess}
    (before : Run (MainStep (.ofNat (2 ^ t.height)) t.globals) (mainStart ptable) labels s)
    {w : P} {slot : Fin NPETERSONLOCKS} {r : Fin 2} (entered : s.machine.frame w = some (.waiting slot r))
    (after : Run (fun s label s' => MainStep (.ofNat (2 ^ t.height)) t.globals s label s' ∧
      s'.machine.frame w = some (.waiting slot r)) s more s') :
    more.countP (acquiredWith slot (1 - r)) ≤ 1 := by
  have inv := (MainInv.of_run fresh before).tree
  -- the acquires of the run after are those of its image in `rounds`
  obtain ⟨seen, image, counts⟩ : exists seen,
      Run (fun s label s' => (rounds t.globals).Step s label s' ∧ s'.machine.frame w = some (.waiting slot r))
        (project s) seen (project s') ∧
      seen.countP (acquiredWith slot (1 - r)) = more.countP (acquiredWith slot (1 - r)) :=
    Run.reaches_counting project (acquiredWith slot (1 - r))
      (fun _ _ _ stepped => stepped.1.image_step.imp (fun moved => ⟨moved, stepped.2⟩)
        fun stutter => ⟨stutter.1, by rw [stutter.2]; rfl⟩) after
  rw [← counts]
  exact inv.bypass_bounded entered image

omit [Fintype P] [DecidableEq P] in
/-- `tournament 4` after boot: `c` takes its leaf and the root, `a` takes its
leaf and waits at the root, `c` releases both locks and exits, and `d` takes its
leaf, which `c` shared, and waits at the root with the other role of `a`. -/
def rootWaiters (a c d : P) : List (Option (Label P)) :=
  [none, some ⟨c, .petersonAcquire 2 0, some 0⟩, some ⟨c, .petersonAcquire 0 1, some 0⟩,
   none, some ⟨a, .petersonAcquire 1 0, some 0⟩, some ⟨a, .petersonAcquire 0 0, none⟩,
   none, none, some ⟨c, .petersonRelease 0 1, some 0⟩, some ⟨c, .petersonRelease 2 0, some 0⟩, none,
   none, some ⟨d, .petersonAcquire 2 1, some 0⟩, some ⟨d, .petersonAcquire 0 1, none⟩]

omit [Fintype P] [DecidableEq P] in
/-- While `d` waits at the root: the test of `a` passes, and `d` tests again in
vain. -/
def passRootOnce (a d : P) : List (Option (Label P)) :=
  [some ⟨a, .petersonAcquire 0 0, some 0⟩, some ⟨d, .petersonAcquire 0 1, none⟩]

/-- Along `rootWaiters 0 2 3` and then `passRootOnce 0 3`, the acquire of the
root with role `0` returns once while process `3` waits there with role `1`. -/
theorem tournamentMain_boundedBypass_passRoot :
    exists s s', Run (MainStep (.ofNat (2 ^ (bootLayout 2 (by decide)).height)) (bootLayout 2 (by decide)).globals)
        (mainStart (bootTable 2)) (rootWaiters 0 2 3) s ∧
      s.machine.frame 3 = some (.waiting 0 1) ∧
      Run (fun s label s' => MainStep (.ofNat (2 ^ (bootLayout 2 (by decide)).height))
        (bootLayout 2 (by decide)).globals s label s' ∧ s'.machine.frame 3 = some (.waiting 0 1))
        s (passRootOnce 0 3) s' ∧
      (passRootOnce 0 3).countP (acquiredWith 0 (1 - 1)) = 1 ∧
      (passRootOnce 0 3).countP (acquiredWith 0 (1 - 1)) ≤ 1 := by
  -- nobody reaches the parent's loop, so every `wait(0)` guard holds
  have waited : forall s s' : System (Fin (2 ^ 2)) MainProcess,
      (forall q i, (s.user q).point ≠ .joining i) -> Waited s s' :=
    fun _ _ inRound q i joining _ => absurd joining (inRound q i)
  refine ⟨?first, ?last, ?before, ?entered, ?window, by decide,
    tournamentMain_boundedBypass (bootLayout 2 (by decide)) (start_bootStart 2 (by decide)).fresh
      ?before (w := 3) (r := 1) ?entered ?window⟩
  case before =>
    -- process `2` takes its leaf and the root
    apply Run.cons
    · exact ⟨.internal (p := 2) (u := ⟨.round (.acquiring 1), _⟩) rfl ⟨by decide, rfl⟩,
        waited _ _ fun q i => by fin_cases q <;> nofun⟩
    apply Run.cons
    · exact ⟨.call (fun _ => ⟨by decide, rfl⟩) (Machine.step_of_next rfl),
        waited _ _ fun q i => by fin_cases q <;> nofun⟩
    apply Run.cons
    · exact ⟨.call (fun _ => ⟨by decide, rfl⟩) (Machine.step_of_next rfl),
        waited _ _ fun q i => by fin_cases q <;> nofun⟩
    -- process `0` takes its leaf and waits at the root
    apply Run.cons
    · exact ⟨.internal (p := 0) (u := ⟨.round (.acquiring 1), _⟩) rfl ⟨by decide, rfl⟩,
        waited _ _ fun q i => by fin_cases q <;> nofun⟩
    apply Run.cons
    · exact ⟨.call (fun _ => ⟨by decide, rfl⟩) (Machine.step_of_next rfl),
        waited _ _ fun q i => by fin_cases q <;> nofun⟩
    apply Run.cons
    · exact ⟨.call (fun _ => ⟨by decide, rfl⟩) (Machine.step_of_next rfl),
        waited _ _ fun q i => by fin_cases q <;> nofun⟩
    -- process `2` goes through its critical section, releases both locks and exits
    apply Run.cons
    · exact ⟨.internal (p := 2) (u := ⟨.round .critical, _⟩) rfl ⟨by decide, rfl⟩,
        waited _ _ fun q i => by fin_cases q <;> nofun⟩
    apply Run.cons
    · exact ⟨.internal (p := 2) (u := ⟨.round (.releasing 0), _⟩) rfl ⟨by decide, rfl⟩,
        waited _ _ fun q i => by fin_cases q <;> nofun⟩
    apply Run.cons
    · exact ⟨.call (fun _ => ⟨by decide, rfl⟩) (Machine.step_of_next rfl),
        waited _ _ fun q i => by fin_cases q <;> nofun⟩
    apply Run.cons
    · exact ⟨.call (fun _ => ⟨by decide, rfl⟩) (Machine.step_of_next rfl),
        waited _ _ fun q i => by fin_cases q <;> nofun⟩
    apply Run.cons
    · exact ⟨.internal (p := 2) (u := ⟨.exited, _⟩) rfl ⟨by decide, rfl⟩,
        waited _ _ fun q i => by fin_cases q <;> nofun⟩
    -- process `3` takes its leaf and waits at the root, behind the turn it gave to process `0`
    apply Run.cons
    · exact ⟨.internal (p := 3) (u := ⟨.round (.acquiring 1), _⟩) rfl ⟨by decide, rfl⟩,
        waited _ _ fun q i => by fin_cases q <;> nofun⟩
    apply Run.cons
    · exact ⟨.call (fun _ => ⟨by decide, rfl⟩) (Machine.step_of_next rfl),
        waited _ _ fun q i => by fin_cases q <;> nofun⟩
    apply Run.cons
    · exact ⟨.call (fun _ => ⟨by decide, rfl⟩) (Machine.step_of_next rfl),
        waited _ _ fun q i => by fin_cases q <;> nofun⟩
    exact Run.nil
  case window =>
    -- the test of process `0` passes, and process `3` tests again in vain
    apply Run.cons
    · exact ⟨⟨.call (fun idle => by cases idle) (Machine.step_of_next rfl),
        waited _ _ fun q i => by fin_cases q <;> nofun⟩, rfl⟩
    apply Run.cons
    · exact ⟨⟨.call (fun idle => by cases idle) (Machine.step_of_next rfl),
        waited _ _ fun q i => by fin_cases q <;> nofun⟩, rfl⟩
    exact Run.nil
  case entered => rfl

/-- Termination of `main` under a fair scheduler, on the tree that
`tournament_create` leaves: along every execution in which no process able to
step is passed over forever, there is a moment at which every process has
exited with `0`.  Every process gets the lock and releases it, and the parent
then returns from each of its waits.  The locks of the tree are still
allocated at that moment: `main` never destroys them. -/
theorem tournamentMain_terminates (t : Layout P) {ptable : Ptable}
    (fresh : forall k, k < t.ids.length -> ptable (t.slotOf k) = (ptable (t.slotOf k)).reset 1)
    (x : Execution (MainStepBy (.ofNat (2 ^ t.height)) t.globals) (mainStart ptable)) (fair : x.Fair) :
    exists n, (forall p, ((x.state n).user p).point = .exited) ∧
      forall depth offset, depth < t.height -> offset < 2 ^ depth ->
        ((x.state n).machine.ptable (t.nodeSlot depth offset)).active ≠ 0 := by
  have always : forall n, MainInv t (x.state n) :=
    x.invariant _ (MainInv.start fresh) fun _ _ _ _ inv stepped => inv.step stepped
  obtain ⟨n, exited⟩ := terminates_from (MainInv.start fresh) fair
  exact ⟨n, exited, (always n).tree.active⟩

/-- `tournament 4` after boot under the round robin, which is fair. -/
theorem tournamentMain_terminates_four :
    exists x : Execution (MainStepBy (.ofNat (2 ^ (bootLayout 2 (by decide)).height))
        (bootLayout 2 (by decide)).globals) (mainStart (bootTable 2)),
      x.Fair ∧ exists n, (forall p, ((x.state n).user p).point = .exited) ∧
        forall depth offset, depth < (bootLayout 2 (by decide)).height -> offset < 2 ^ depth ->
          ((x.state n).machine.ptable ((bootLayout 2 (by decide)).nodeSlot depth offset)).active ≠ 0 := by
  obtain ⟨x, fair⟩ := Execution.exists_fair
    (MainStepBy (.ofNat (2 ^ (bootLayout 2 (by decide)).height)) (bootLayout 2 (by decide)).globals)
    (mainStart (bootTable 2))
  exact ⟨x, fair, tournamentMain_terminates _ (start_bootStart 2 (by decide)).fresh x fair⟩

/-- `main` cannot get stuck: from every state a run of it reaches, some run
goes on to the state where every process has exited with `0`. -/
theorem tournamentMain_canFinish (t : Layout P) {ptable : Ptable}
    (fresh : forall k, k < t.ids.length -> ptable (t.slotOf k) = (ptable (t.slotOf k)).reset 1)
    {labels : List (Option (Label P))} {s : System P MainProcess}
    (run : Run (MainStep (.ofNat (2 ^ t.height)) t.globals) (mainStart ptable) labels s) :
    exists s', Reachable (MainStep (.ofNat (2 ^ t.height)) t.globals) s s' ∧
      forall p, (s'.user p).point = .exited :=
  (MainInv.of_run fresh run).reaches_exited

/-- `tournament 4` after boot, from the state `tournament_create` leaves. -/
theorem tournamentMain_canFinish_four :
    exists s' : System (Fin (2 ^ 2)) MainProcess,
      Reachable (MainStep (.ofNat (2 ^ (bootLayout 2 (by decide)).height)) (bootLayout 2 (by decide)).globals)
        (mainStart (bootTable 2)) s' ∧ forall p, (s'.user p).point = .exited :=
  tournamentMain_canFinish (bootLayout 2 (by decide)) (start_bootStart 2 (by decide)).fresh Run.nil

end Guarantees

end Tournament
end Xv6Peterson
