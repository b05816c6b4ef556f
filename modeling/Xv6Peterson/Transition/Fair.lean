import Mathlib.Order.Lattice.Nat
import Mathlib.Data.Fintype.Basic
import Xv6Peterson.Transition.Run

namespace Xv6Peterson
namespace Transition

/-!
# Infinite executions under weak fairness

A system of processes `P` has for each process the relation `step p` of the
steps it takes.  An infinite execution is a sequence of states in which, at
each moment, one process takes a step or nothing happens.  The scheduler is
weakly fair when a process that stays able to step from some moment on takes
a step at some later moment: it is not passed over forever.

Termination under fairness follows from two rules.  The variant rule: when
every step from a state with the invariant either returns to the state it
left or raises a bounded rank, every execution settles in one state.  The
loop rule: once a fair execution has settled, every process able to step
there has a step back to the same state.  What remains is a fact about the
system: the states where every process able to step can only loop are final.
Finite runs that end where nobody can step extend, by waiting, to fair
executions, which shows such executions exist.

For executions that do not end, liveness is stated with `LeadsTo`: from every
moment where `A` holds, `B` holds then or later.  The rule of weak fairness
(`FairFor.leadsTo`) gives a leads-to from one process's step, and
`LeadsTo.carry` carries a condition along a leads-to until another one holds.
Fairness may be asked of a process only while it is busy (`FairFor`): that is
what the image of a fair execution under a map of states keeps, when the map
sends the steps of idle processes to no step at all (`Fair.map`).
-/

variable {P S E : Type*}

/-- The infinite executions from `start` of processes with steps `step p`:
at each moment one process takes a step, or nothing happens. -/
structure Execution (step : P -> S -> E -> S -> Prop) (start : S) where
  state : Nat -> S
  initial : state 0 = start
  next : forall n, state (n + 1) = state n ∨ exists p label, step p (state n) label (state (n + 1))

/-- Process `p` can take a step from `s`. -/
def Enabled (step : P -> S -> E -> S -> Prop) (p : P) (s : S) : Prop :=
  exists label s', step p s label s'

namespace Execution

variable {step : P -> S -> E -> S -> Prop} {start : S}

/-- Weak fairness: a process enabled at every moment from `n` on takes a step
at some moment from `n` on. -/
def Fair (x : Execution step start) : Prop :=
  forall p n, (forall m, n ≤ m -> Enabled step p (x.state m)) ->
    exists m, n ≤ m ∧ exists label, step p (x.state m) label (x.state (m + 1))

/-- Weak fairness to the processes while they are `busy`: a process that stays
busy and able to step from `n` on takes a step at some moment from `n` on.  It
is weak fairness for the actions of busy processes; one that is not busy may
be passed over forever. -/
def FairFor (x : Execution step start) (busy : P -> S -> Prop) : Prop :=
  forall p n, (forall m, n ≤ m -> busy p (x.state m) ∧ Enabled step p (x.state m)) ->
    exists m, n ≤ m ∧ exists label, step p (x.state m) label (x.state (m + 1))

theorem Fair.fairFor {x : Execution step start} (fair : x.Fair) (busy : P -> S -> Prop) :
    x.FairFor busy :=
  fun p n enabled => fair p n fun m later => (enabled m later).2

/-- The invariant rule for executions. -/
theorem invariant (x : Execution step start) (inv : S -> Prop) (initial : inv start)
    (keep : forall p s label s', inv s -> step p s label s' -> inv s') (n : Nat) :
    inv (x.state n) := by
  induction n with
  | zero => rw [x.initial]; exact initial
  | succ n inductionHypothesis =>
      rcases x.next n with same | ⟨p, label, stepped⟩
      · rw [same]
        exact inductionHypothesis
      · exact keep _ _ _ _ inductionHypothesis stepped

/-- A monotone sequence of naturals that is bounded is constant from some
moment on: from a moment where it reaches its supremum. -/
theorem exists_settled_of_monotone {f : Nat -> Nat} {bound : Nat} (mono : Monotone f)
    (bounded : forall n, f n ≤ bound) : exists N, forall m, N ≤ m -> f m = f N := by
  have bdd : BddAbove (Set.range f) := ⟨bound, by rintro _ ⟨n, rfl⟩; exact bounded n⟩
  obtain ⟨N, reached⟩ := Nat.sSup_mem (Set.range_nonempty f) bdd
  refine ⟨N, fun m later => le_antisymm ?_ (mono later)⟩
  rw [reached]
  exact le_csSup bdd ⟨m, rfl⟩

/-- The variant rule: when every step from a state with the invariant either
returns to the state it left or raises a bounded rank, the execution settles
in one state. -/
theorem settles (x : Execution step start) (inv : S -> Prop) (initial : inv start)
    (keep : forall p s label s', inv s -> step p s label s' -> inv s') (rank : S -> Nat)
    {bound : Nat} (bounded : forall s, inv s -> rank s ≤ bound)
    (raises : forall p s label s', inv s -> step p s label s' -> s' = s ∨ rank s < rank s') :
    exists N, forall m, N ≤ m -> x.state m = x.state N := by
  -- each moment keeps the state or raises the rank
  have moment : forall n, x.state (n + 1) = x.state n ∨
      rank (x.state n) < rank (x.state (n + 1)) := by
    intro n
    rcases x.next n with same | ⟨p, label, stepped⟩
    · exact Or.inl same
    · exact raises _ _ _ _ (x.invariant inv initial keep n) stepped
  have mono : Monotone (fun n => rank (x.state n)) := by
    refine monotone_nat_of_le_succ fun n => ?_
    rcases moment n with same | raised
    · rw [same]
    · exact Nat.le_of_lt raised
  obtain ⟨N, settled⟩ := exists_settled_of_monotone mono
    (fun n => bounded _ (x.invariant inv initial keep n))
  refine ⟨N, fun m later => ?_⟩
  induction m, later using Nat.le_induction with
  | base => rfl
  | succ m later inductionHypothesis =>
      rcases moment m with same | raised
      · rw [same, inductionHypothesis]
      · have constant := (settled (m + 1) (by omega)).trans (settled m later).symm
        omega

/-- The loop rule: once a fair execution has settled in a state, every process
able to step there has a step from it back to it. -/
theorem Fair.loops {x : Execution step start} (fair : x.Fair) {N : Nat}
    (settled : forall m, N ≤ m -> x.state m = x.state N) {p : P}
    (enabled : Enabled step p (x.state N)) : exists label, step p (x.state N) label (x.state N) := by
  obtain ⟨m, later, label, stepped⟩ := fair p N (fun m later => by rw [settled m later]; exact enabled)
  rw [settled m later, settled (m + 1) (by omega)] at stepped
  exact ⟨label, stepped⟩

/-! ## Leads-to -/

/-- Along `x`, every moment where `A` holds is followed, then or later, by one
where `B` holds. -/
def LeadsTo (x : Execution step start) (A B : S -> Prop) : Prop :=
  forall n, A (x.state n) -> exists m, n ≤ m ∧ B (x.state m)

theorem LeadsTo.trans {x : Execution step start} {A B C : S -> Prop} (first : x.LeadsTo A B)
    (second : x.LeadsTo B C) : x.LeadsTo A C := by
  intro n holds
  obtain ⟨m, later, reached⟩ := first n holds
  obtain ⟨k, later', reached'⟩ := second m reached
  exact ⟨k, Nat.le_trans later later', reached'⟩

theorem LeadsTo.mono {x : Execution step start} {A A' B B' : S -> Prop} (leads : x.LeadsTo A B)
    (stronger : forall s, A' s -> A s) (weaker : forall s, B s -> B' s) : x.LeadsTo A' B' := by
  intro n holds
  obtain ⟨m, later, reached⟩ := leads n (stronger _ holds)
  exact ⟨m, later, weaker _ reached⟩

/-- The rule of a decreasing measure: when from `A k` either `B` or some `A j`
with `j < k` follows, `A k` leads to `B`. -/
theorem LeadsTo.of_decreasing {x : Execution step start} {A : Nat -> S -> Prop} {B : S -> Prop}
    (decreases : forall k, x.LeadsTo (A k) fun s => B s ∨ exists j, j < k ∧ A j s) (k : Nat) :
    x.LeadsTo (A k) B := by
  induction k using Nat.strong_induction_on with
  | _ k smaller =>
      intro n holds
      obtain ⟨m, later, reached | ⟨j, lower, holdsJ⟩⟩ := decreases k n holds
      · exact ⟨m, later, reached⟩
      · obtain ⟨l, later', reachedB⟩ := smaller j lower m holdsJ
        exact ⟨l, Nat.le_trans later later', reachedB⟩

/-- When every step from a state where `C` holds leads to one where `C` or `G`
holds, `C` holds from a moment on until a moment where `G` holds. -/
theorem holds_until (x : Execution step start) {inv C G : S -> Prop}
    (always : forall n, inv (x.state n))
    (stable : forall p s label s', inv s -> C s -> step p s label s' -> C s' ∨ G s')
    {n : Nat} (holds : C (x.state n)) :
    forall m, n ≤ m -> C (x.state m) ∨ exists k, n ≤ k ∧ k ≤ m ∧ G (x.state k) := by
  intro m later
  induction m, later using Nat.le_induction with
  | base => exact Or.inl holds
  | succ m later inductionHypothesis =>
      rcases inductionHypothesis with kept | ⟨k, after, before, reached⟩
      · rcases x.next m with same | ⟨p, label, stepped⟩
        · rw [same]
          exact Or.inl kept
        · rcases stable p _ _ _ (always m) kept stepped with kept' | reached
          · exact Or.inl kept'
          · exact Or.inr ⟨m + 1, by omega, le_refl _, reached⟩
      · exact Or.inr ⟨k, after, by omega, reached⟩

/-- A leads-to carried along a condition `C` that holds unless `G` does: from
`A` and `C`, either `B` is reached with `C` still holding, or `G` is. -/
theorem LeadsTo.carry {x : Execution step start} {inv A B C G : S -> Prop}
    (leads : x.LeadsTo A B) (always : forall n, inv (x.state n))
    (stable : forall p s label s', inv s -> C s -> step p s label s' -> C s' ∨ G s') :
    x.LeadsTo (fun s => A s ∧ C s) (fun s => (B s ∧ C s) ∨ G s) := by
  rintro n ⟨holds, kept⟩
  obtain ⟨m, later, reached⟩ := leads n holds
  rcases x.holds_until always stable kept m later with kept' | ⟨k, after, -, found⟩
  · exact ⟨m, later, Or.inl ⟨reached, kept'⟩⟩
  · exact ⟨k, after, Or.inr found⟩

/-- The rule of weak fairness: when the steps of other processes keep `A`
unless they reach `B`, every step of `p` from `A` reaches `B`, and `p` is busy
and can step wherever `A` holds, then a fair execution leads from `A` to `B`. -/
theorem FairFor.leadsTo {x : Execution step start} {busy : P -> S -> Prop} (fair : x.FairFor busy)
    {inv A B : S -> Prop} (always : forall n, inv (x.state n)) (p : P)
    (stays : forall q s label s', q ≠ p -> inv s -> A s -> step q s label s' -> A s' ∨ B s')
    (leaves : forall s label s', inv s -> A s -> step p s label s' -> B s')
    (enabled : forall s, inv s -> A s -> busy p s ∧ Enabled step p s) : x.LeadsTo A B := by
  intro n holds
  by_contra never
  push Not at never
  -- `A` holds from `n` on, since `B` is never reached
  have stable : forall q s label s', inv s -> A s -> step q s label s' -> A s' ∨ B s' := by
    intro q s label s' kept holdsA stepped
    by_cases mover : q = p
    · subst mover
      exact Or.inr (leaves s label s' kept holdsA stepped)
    · exact stays q s label s' mover kept holdsA stepped
  have stay : forall m, n ≤ m -> A (x.state m) := fun m later =>
    (x.holds_until always stable holds m later).resolve_right
      fun ⟨k, after, _, reached⟩ => never k after reached
  obtain ⟨m, later, label, stepped⟩ := fair p n fun m later => enabled _ (always m) (stay m later)
  exact never (m + 1) (by omega) (leaves _ _ _ (always m) (stay m later) stepped)

/-- The rule of weak fairness for a fair execution, where every process counts. -/
theorem Fair.leadsTo {x : Execution step start} (fair : x.Fair) {inv A B : S -> Prop}
    (always : forall n, inv (x.state n)) (p : P)
    (stays : forall q s label s', q ≠ p -> inv s -> A s -> step q s label s' -> A s' ∨ B s')
    (leaves : forall s label s', inv s -> A s -> step p s label s' -> B s')
    (enabled : forall s, inv s -> A s -> Enabled step p s) : x.LeadsTo A B :=
  (fair.fairFor fun _ _ => True).leadsTo always p stays leaves
    fun s inv holds => ⟨trivial, enabled s inv holds⟩

/-- Once each process has reached a condition it keeps, every process has:
there is a moment at which the condition holds of all of them. -/
theorem exists_forall_of_stable [Fintype P] (x : Execution step start) {B : P -> S -> Prop}
    (keeps : forall p n, B p (x.state n) -> B p (x.state (n + 1)))
    (reaches : forall p, exists n, B p (x.state n)) : exists n, forall p, B p (x.state n) := by
  choose reached holds using reaches
  refine ⟨Finset.univ.sup reached, fun p => ?_⟩
  have later : reached p ≤ Finset.univ.sup reached := Finset.le_sup (Finset.mem_univ p)
  generalize Finset.univ.sup reached = last at later
  induction last, later using Nat.le_induction with
  | base => exact holds p
  | succ m _ inductionHypothesis => exact keeps p m inductionHypothesis

/-! ## Executions seen through a map of states -/

variable {T : Type*} {step' : P -> T -> E -> T -> Prop}

/-- The image of an execution under a map of states that sends each step to a
step of `step'` or leaves the image where it was. -/
def map (x : Execution step start) (f : S -> T)
    (simulates : forall p s label s', step p s label s' -> step' p (f s) label (f s') ∨ f s' = f s) :
    Execution step' (f start) where
  state n := f (x.state n)
  initial := by rw [x.initial]
  next n := by
    rcases x.next n with same | ⟨p, label, stepped⟩
    · exact Or.inl (by rw [same])
    · rcases simulates p _ _ _ stepped with moved | same
      · exact Or.inr ⟨p, label, moved⟩
      · exact Or.inl same

/-- A leads-to along the image is a leads-to along the execution, between the
conditions read through the map. -/
theorem LeadsTo.of_map {x : Execution step start} {f : S -> T}
    {simulates : forall p s label s', step p s label s' -> step' p (f s) label (f s') ∨ f s' = f s}
    {A B : T -> Prop} (leads : (x.map f simulates).LeadsTo A B) :
    x.LeadsTo (fun s => A (f s)) (fun s => B (f s)) :=
  leads

/-- The image of a fair execution is fair to the processes busy in it, when a
busy process able to step in the image can step in the execution, and each of
its steps there is a step of the image. -/
theorem Fair.map {x : Execution step start} (fair : x.Fair) {f : S -> T}
    {simulates : forall p s label s', step p s label s' -> step' p (f s) label (f s') ∨ f s' = f s}
    {busy : P -> T -> Prop}
    (lifts : forall p s, busy p (f s) -> Enabled step' p (f s) -> Enabled step p s)
    (moves : forall p s label s', busy p (f s) -> step p s label s' -> step' p (f s) label (f s')) :
    (x.map f simulates).FairFor busy := by
  intro p n enabled
  obtain ⟨m, later, label, stepped⟩ :=
    fair p n fun m later => lifts p _ (enabled m later).1 (enabled m later).2
  exact ⟨m, later, label, moves p _ _ _ (enabled m later).1 stepped⟩

/-- Every moment of an execution is reached by a run of the steps taken. -/
theorem reachable (x : Execution step start) (n : Nat) :
    Reachable (fun s label s' => exists p, step p s label s') start (x.state n) := by
  induction n with
  | zero =>
      rw [x.initial]
      exact ⟨[], Run.nil⟩
  | succ n inductionHypothesis =>
      rcases x.next n with same | ⟨p, label, stepped⟩
      · rw [same]
        exact inductionHypothesis
      · obtain ⟨labels, run⟩ := inductionHypothesis
        exact ⟨labels ++ [label], Run.snoc run ⟨p, stepped⟩⟩

/-! ## A fair scheduler exists

The scheduler that at moment `n` offers process `turn n` a step, and takes one
of its steps when it has one, is fair as soon as it offers every process a
step again and again.  Over finitely many processes a round robin does. -/

section RoundRobin

variable (turn : Nat -> P)

open Classical in
/-- The states of the scheduler that at moment `n` lets `turn n` take a step of
its choice if it can, and otherwise waits. -/
noncomputable def roundRobin (step : P -> S -> E -> S -> Prop) (start : S) : Nat -> S
  | 0 => start
  | n + 1 =>
      if enabled : Enabled step (turn n) (roundRobin step start n) then
        Classical.choose (Classical.choose_spec enabled)
      else roundRobin step start n

variable (step : P -> S -> E -> S -> Prop) (start : S)

theorem roundRobin_succ_of_enabled {n : Nat} (enabled : Enabled step (turn n) (roundRobin turn step start n)) :
    exists label, step (turn n) (roundRobin turn step start n) label (roundRobin turn step start (n + 1)) := by
  rw [roundRobin, dif_pos enabled]
  exact ⟨_, Classical.choose_spec (Classical.choose_spec enabled)⟩

theorem roundRobin_succ_of_disabled {n : Nat}
    (disabled : ¬ Enabled step (turn n) (roundRobin turn step start n)) :
    roundRobin turn step start (n + 1) = roundRobin turn step start n := by
  rw [roundRobin, dif_neg disabled]

/-- The execution of the scheduler. -/
noncomputable def roundRobinExecution : Execution step start where
  state := roundRobin turn step start
  initial := rfl
  next n := by
    by_cases enabled : Enabled step (turn n) (roundRobin turn step start n)
    · obtain ⟨label, stepped⟩ := roundRobin_succ_of_enabled turn step start enabled
      exact Or.inr ⟨turn n, label, stepped⟩
    · exact Or.inl (roundRobin_succ_of_disabled turn step start enabled)

/-- The scheduler is fair when it offers every process a step again and again. -/
theorem roundRobin_fair (visits : forall p n, exists m, n ≤ m ∧ turn m = p) :
    (roundRobinExecution turn step start).Fair := by
  intro p n enabled
  obtain ⟨m, later, offered⟩ := visits p n
  have stepped := @roundRobin_succ_of_enabled _ _ _ turn step start m
    (by rw [offered]; exact enabled m later)
  rw [offered] at stepped
  exact ⟨m, later, stepped⟩

end RoundRobin

/-- Finitely many processes have a fair execution from every state: the round
robin over them. -/
theorem exists_fair [Fintype P] (step : P -> S -> E -> S -> Prop) (start : S) :
    exists x : Execution step start, x.Fair := by
  by_cases empty : Fintype.card P = 0
  · -- without processes, waiting forever is fair
    exact ⟨⟨fun _ => start, rfl, fun _ => Or.inl rfl⟩,
      fun p => absurd empty (Fintype.card_pos_iff.mpr ⟨p⟩).ne'⟩
  · have positive : 0 < Fintype.card P := Nat.pos_of_ne_zero empty
    let turn : Nat -> P := fun m => (Fintype.equivFin P).symm ⟨m % Fintype.card P, Nat.mod_lt _ positive⟩
    refine ⟨roundRobinExecution turn step start, roundRobin_fair turn step start fun p n => ?_⟩
    -- the turn of `p` comes back every `card P` moments
    refine ⟨n * Fintype.card P + Fintype.equivFin P p, ?_, ?_⟩
    · have := Nat.le_mul_of_pos_right n positive
      omega
    · have index := (Fintype.equivFin P p).isLt
      simp only [turn, Nat.mul_add_mod_self_right, Nat.mod_eq_of_lt index]
      simp

end Execution

/-- A run that ends where no process can step extends, by waiting forever, to
an execution that is fair, since from its end nobody is enabled. -/
theorem Run.exists_fair {start last : S} {labels : List E}
    (run : Run (fun s label s' => exists p, step p s label s') start labels last)
    (dead : forall p, ¬ Enabled step p last) :
    exists x : Execution step start, x.Fair ∧ x.state labels.length = last := by
  -- first an execution that waits at the end of the run
  have waits : exists x : Execution step start, forall m, labels.length ≤ m -> x.state m = last := by
    clear dead
    induction run with
    | nil => exact ⟨⟨fun _ => start, rfl, fun _ => Or.inl rfl⟩, fun _ _ => rfl⟩
    | @snoc labels middle last label earlier stepped inductionHypothesis =>
        obtain ⟨x, atEnd⟩ := inductionHypothesis
        refine ⟨⟨fun n => if n ≤ labels.length then x.state n else last, ?_, fun n => ?_⟩,
          fun m later => ?_⟩
        · simp [x.initial]
        · rcases Nat.lt_trichotomy n labels.length with before | atLast | after
          · simp only [show n ≤ labels.length by omega, show n + 1 ≤ labels.length by omega,
              if_true]
            exact x.next n
          · subst atLast
            simp only [le_refl, if_true, show ¬ labels.length + 1 ≤ labels.length by omega,
              if_false, atEnd labels.length (le_refl _)]
            obtain ⟨p, steppedBy⟩ := stepped
            exact Or.inr ⟨p, label, steppedBy⟩
          · simp [show ¬ n ≤ labels.length by omega, show ¬ n + 1 ≤ labels.length by omega]
        · simp only [List.length_append, List.length_singleton] at later
          simp [show ¬ m ≤ labels.length by omega]
  obtain ⟨x, atEnd⟩ := waits
  refine ⟨x, fun p n enabled => absurd ?_ (dead p), atEnd _ (le_refl _)⟩
  have atLast := enabled (max n labels.length) (le_max_left _ _)
  rwa [atEnd _ (le_max_right _ _)] at atLast

end Transition
end Xv6Peterson
