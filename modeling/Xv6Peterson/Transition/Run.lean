import Mathlib.Logic.Function.Basic
import Mathlib.Logic.Relation

namespace Xv6Peterson
namespace Transition

/-!
# Finite runs of a labelled transition relation

A component with shared state is a relation `step : S -> E -> S -> Prop` in
which each step is one atomic action, labelled by what an observer sees of it.
A run records those labels in order and grows at its end, so that every
property of runs is proved by induction over the last step taken.  When each
step belongs to one process, a statement about every run from the initial
state is a statement about every interleaving of the processes.

Four induction rules are provided.  The first is the plain invariant rule,
and the second bounds the labels a run can show by the steps taken from states
with an invariant.  The third carries a value computed from the labels seen so
far (a history, such as the set of allocated names), and the fourth is its
special case for a counter of chosen labels.  Runs are also transported along
an abstraction that may stutter; `reaches` gives the states so reached with
the labels of their steps.

A stuttering refinement mapping (`Refinement`) is a statement about steps: the
abstraction sends the start to the abstract start, and each step taken from a
reachable state to one abstract step or to none.  It is proved from an
invariant under which every step is so matched.
-/

variable {S E : Type*}

/-- The runs of `step` from `start`: the labels of their steps, in order, and
the state they end in. -/
inductive Run (step : S -> E -> S -> Prop) (start : S) : List E -> S -> Prop
  | nil : Run step start [] start
  | snoc {labels : List E} {middle last : S} {label : E} :
      Run step start labels middle -> step middle label last ->
      Run step start (labels ++ [label]) last

/-- The states that some run of `step` from `start` ends in. -/
def Reachable (step : S -> E -> S -> Prop) (start last : S) : Prop :=
  exists labels, Run step start labels last

namespace Run

variable {step : S -> E -> S -> Prop} {start : S}

theorem single {label : E} {last : S} (stepped : step start label last) :
    Run step start [label] last := by
  simpa using Run.snoc Run.nil stepped

/-- The last step of a run. -/
theorem last_step {labels : List E} {label : E} {last : S}
    (run : Run step start (labels ++ [label]) last) :
    exists middle, Run step start labels middle ∧ step middle label last := by
  generalize named : labels ++ [label] = all at run
  cases run with
  | nil => simp at named
  | snoc earlier stepped =>
      obtain ⟨rfl, same⟩ := List.append_inj' named rfl
      cases same
      exact ⟨_, earlier, stepped⟩

/-- Runs compose: a run followed by a run from its last state. -/
theorem append {labels more : List E} {middle last : S} (first : Run step start labels middle)
    (second : Run step middle more last) : Run step start (labels ++ more) last := by
  induction second with
  | nil => simpa using first
  | snoc _ stepped inductionHypothesis =>
      rw [← List.append_assoc]
      exact Run.snoc inductionHypothesis stepped

/-- A step followed by a run from the state it ends in. -/
theorem cons {label : E} {middle last : S} {labels : List E} (stepped : step start label middle)
    (rest : Run step middle labels last) : Run step start (label :: labels) last := by
  simpa using (single stepped).append rest

/-- The plain invariant rule: a property of the start that every step keeps
holds at the end of every run. -/
theorem invariant (inv : S -> Prop) (initial : inv start)
    (keep : forall s label s', inv s -> step s label s' -> inv s')
    {labels : List E} {last : S} (run : Run step start labels last) : inv last := by
  induction run with
  | nil => exact initial
  | snoc _ stepped inductionHypothesis => exact keep _ _ _ inductionHypothesis stepped

/-- The history rule: `inv h s` relates a state to the value `h` that the
labels leading to it fold to. -/
theorem fold_invariant {H : Type*} (update : H -> E -> H) (inv : H -> S -> Prop) (h₀ : H)
    (initial : inv h₀ start)
    (keep : forall h s label s', inv h s -> step s label s' -> inv (update h label) s')
    {labels : List E} {last : S} (run : Run step start labels last) :
    inv (labels.foldl update h₀) last := by
  induction run with
  | nil => exact initial
  | snoc _ stepped inductionHypothesis =>
      rw [List.foldl_append, List.foldl_cons, List.foldl_nil]
      exact keep _ _ _ _ inductionHypothesis stepped

/-- The label rule: when every step taken from a state with the invariant has
a label with property `good`, so has every label of a run. -/
theorem forall_labels (inv : S -> Prop) (initial : inv start)
    (keep : forall s label s', inv s -> step s label s' -> inv s') {good : E -> Prop}
    (labelled : forall s label s', inv s -> step s label s' -> good label)
    {labels : List E} {last : S} (run : Run step start labels last) :
    forall label, label ∈ labels -> good label := by
  induction run with
  | nil => intro label member; cases member
  | snoc earlier stepped inductionHypothesis =>
      intro label member
      rcases List.mem_append.mp member with before | now
      · exact inductionHypothesis label before
      · rw [List.mem_singleton.mp now]
        exact labelled _ _ _ (Run.invariant inv initial keep earlier) stepped

/-- The counter rule: `inv n s` relates a state to the number `n` of counted
labels among those leading to it. -/
theorem count_invariant (counted : E -> Bool) (inv : Nat -> S -> Prop)
    (initial : inv 0 start)
    (keep : forall n s label s', inv n s -> step s label s' ->
      inv (n + if counted label then 1 else 0) s')
    {labels : List E} {last : S} (run : Run step start labels last) :
    inv (labels.countP counted) last := by
  induction run with
  | nil => exact initial
  | snoc _ stepped inductionHypothesis =>
      rw [List.countP_append, List.countP_singleton]
      exact keep _ _ _ _ inductionHypothesis stepped

/-- Under an invariant kept by every step, a run is a run of any relation that
holds of the steps taken from states with the invariant. -/
theorem weaken {weaker : S -> E -> S -> Prop} (inv : S -> Prop) (initial : inv start)
    (keep : forall s label s', inv s -> step s label s' -> inv s')
    (implies : forall s label s', inv s -> step s label s' -> weaker s label s')
    {labels : List E} {last : S} (run : Run step start labels last) : Run weaker start labels last := by
  induction run with
  | nil => exact Run.nil
  | snoc earlier stepped inductionHypothesis =>
      exact Run.snoc inductionHypothesis
        (implies _ _ _ (Run.invariant inv initial keep earlier) stepped)

/-- The stuttering simulation rule for labelled runs: when every step moves the
image under `abs` by a step of `target` or leaves it where it is, the image of
the end of a run is reachable from the image of its start. -/
theorem reaches {T F : Type*} {target : T -> F -> T -> Prop} (abs : S -> T)
    (matched : forall s label s', step s label s' ->
      (exists seen, target (abs s) seen (abs s')) ∨ abs s' = abs s)
    {labels : List E} {last : S} (run : Run step start labels last) :
    Reachable target (abs start) (abs last) := by
  induction run with
  | nil => exact ⟨[], Run.nil⟩
  | snoc _ stepped inductionHypothesis =>
      obtain ⟨seen, image⟩ := inductionHypothesis
      rcases matched _ _ _ stepped with ⟨label, moved⟩ | same
      · exact ⟨seen ++ [label], Run.snoc image moved⟩
      · rw [same]
        exact ⟨seen, image⟩

/-- Transport along a stuttering simulation that keeps the label of every step
it matches, where every stutter carries a label that is not counted: the image
run counts as many labels. -/
theorem reaches_counting {T : Type*} {target : T -> E -> T -> Prop} (abs : S -> T) (counted : E -> Bool)
    (matched : forall s label s', step s label s' ->
      target (abs s) label (abs s') ∨ (abs s' = abs s ∧ counted label = false))
    {labels : List E} {last : S} (run : Run step start labels last) :
    exists seen, Run target (abs start) seen (abs last) ∧ seen.countP counted = labels.countP counted := by
  induction run with
  | nil => exact ⟨[], Run.nil, rfl⟩
  | @snoc labels middle last label _ stepped inductionHypothesis =>
      obtain ⟨seen, image, counts⟩ := inductionHypothesis
      rcases matched _ _ _ stepped with moved | ⟨same, uncounted⟩
      · exact ⟨seen ++ [label], Run.snoc image moved, by rw [List.countP_append, List.countP_append, counts]⟩
      · rw [same]
        refine ⟨seen, image, ?_⟩
        rw [List.countP_append, List.countP_singleton, uncounted, counts]
        rfl

end Run

/-- A stuttering refinement mapping of the runs of `step` from `start` onto
`target` from `init`: `abs` sends the start to `init`, and every step that a
run can take next to one step of `target` or to no move. -/
structure Refinement {T : Type*} (step : S -> E -> S -> Prop) (start : S) (target : T -> T -> Prop)
    (init : T) (abs : S -> T) : Prop where
  maps_start : abs start = init
  maps_step : forall {labels : List E} {s s' : S} {label : E}, Run step start labels s ->
    step s label s' -> Relation.ReflGen target (abs s) (abs s')

/-- The refinement rule: when every step from a state with the invariant `inv`
moves `abs` by one step of `target` or leaves it where it is, `abs` is a
refinement mapping. -/
theorem Refinement.of_invariant {step : S -> E -> S -> Prop} {start : S} {T : Type*}
    {target : T -> T -> Prop} {init : T} (abs : S -> T) (inv : S -> Prop) (initial : inv start)
    (keep : forall s label s', inv s -> step s label s' -> inv s') (mapsStart : abs start = init)
    (matched : forall s label s', inv s -> step s label s' ->
      Relation.ReflGen target (abs s) (abs s')) :
    Refinement step start target init abs where
  maps_start := mapsStart
  -- the invariant holds where the step is taken
  maps_step run stepped := matched _ _ _ (Run.invariant inv initial keep run) stepped

end Transition
end Xv6Peterson
