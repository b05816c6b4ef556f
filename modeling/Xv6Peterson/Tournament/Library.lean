import Xv6Peterson.Word.Signed
import Xv6Peterson.Tree.HeapIndex

namespace Xv6Peterson
namespace Tournament

open Word

/-!
# The arithmetic of `user/libtournament.c`

The library arranges `N = 2 ^ L` processes as the leaves of a complete binary
tree with a Peterson lock at each of its `N - 1` inner nodes, whose kernel ids
it keeps breadth first in `peterson_lock_ids_array`.  Every value it computes
is a C `int`, modelled as `Int32` with the word operations the compiler emits:
the validation of `tournament_create` through `get_log2_if_power_of_2`, and
the index and role of the lock at each level that the loops of
`tournament_acquire` and `tournament_release` compute from `my_id`.

On the values these functions are called with, the word arithmetic is the
arithmetic of natural numbers in `Tree/HeapIndex.lean`: `arrayIdx` is the
breadth first index of the node at depth `l` on the path to leaf `my_id`, and
`roleAtLevel` says through which child the path leaves it.  The lemmas
`arrayIdx_toInt` and `roleAtLevel_toInt` make that connection, and the facts
about the tree carry over through them.
-/

/-! ## `get_log2_if_power_of_2` -/

/-- One halving of the loop makes the value smaller. -/
theorem shiftRight_one_lt {temp : Int32} (large : 1 < temp.toInt) :
    (temp >>> 1).toInt.toNat < temp.toInt.toNat := by
  have halved := toInt_shiftRight temp (show 0 ≤ (1 : Int32).toInt by decide)
    (show (1 : Int32).toInt < 32 by decide)
  rw [show (1 : Int32).toInt.toNat = 1 by decide] at halved
  omega

/-- The loop `while (temp > 1) { temp >>= 1; log_val++; }`, from the values
`temp` and `log_val` have at its test. -/
def log2Loop (temp logVal : Int32) : Int32 :=
  if temp > 1 then log2Loop (temp >>> 1) (logVal + 1) else logVal
termination_by temp.toInt.toNat
decreasing_by
  have large : (1 : Int32).toInt < temp.toInt := Int32.lt_iff_toInt_lt.mp ‹_›
  exact shiftRight_one_lt (by simpa using large)

/-- `get_log2_if_power_of_2`: `log2 n` for a positive power of two, and `-1`
for every other `int`. -/
def getLog2IfPowerOf2 (n : Int32) : Int32 :=
  if n ≤ 0 then -1
  else if n = 1 then 0
  else if n &&& (n - 1) ≠ 0 then -1
  else log2Loop n 0

/-- The loop halves `2 ^ j` down to `1` in `j` rounds. -/
theorem log2Loop_two_pow (j : Nat) :
    forall {temp logVal : Int32}, temp.toInt = 2 ^ j -> 0 ≤ logVal.toInt ->
      logVal.toInt + j < 2 ^ 31 -> (log2Loop temp logVal).toInt = logVal.toInt + j := by
  induction j with
  | zero =>
      intro temp logVal power _ _
      have one : temp = 1 := Int32.toInt_inj.mp (by simpa using power)
      rw [log2Loop, if_neg (by simp [one])]
      simp
  | succ j induction =>
      intro temp logVal power nonneg fits
      have large : 1 < temp.toInt := by
        rw [power]
        exact_mod_cast Nat.one_lt_two_pow (show j + 1 ≠ 0 by omega)
      have halved : (temp >>> 1).toInt = 2 ^ j := by
        rw [toInt_shiftRight temp (by decide) (by decide), power,
          show (1 : Int32).toInt.toNat = 1 by decide, Int.pow_succ, Int.pow_one,
          Int.mul_ediv_cancel _ (by decide)]
      have counted : (logVal + 1).toInt = logVal.toInt + 1 := by
        rw [toInt_add_of_range] <;> simp <;> omega
      rw [log2Loop, if_pos (Int32.lt_iff_toInt_lt.mpr (by simpa using large)),
        induction halved (by omega) (by omega), counted]
      omega

/-- An `int` that is a power of two has an exponent of at most `30`. -/
theorem exponent_lt_of_toInt {n : Int32} {k : Nat} (power : n.toInt = 2 ^ k) : k < 31 := by
  have below := Int32.toInt_lt n
  by_contra large
  have : (2 : Int) ^ 31 ≤ 2 ^ k := by exact_mod_cast Nat.pow_le_pow_right (by decide) (by omega)
  omega

/-- On a power of two the function returns its exponent. -/
theorem getLog2IfPowerOf2_two_pow {n : Int32} {k : Nat} (power : n.toInt = 2 ^ k) :
    (getLog2IfPowerOf2 n).toInt = k := by
  have positive : 0 < n.toInt := by rw [power]; exact Int.pow_pos (by decide)
  have small := exponent_lt_of_toInt power
  unfold getLog2IfPowerOf2
  rw [if_neg (by simp [Int32.le_iff_toInt_le]; omega)]
  by_cases one : n = 1
  · -- `2 ^ 0` takes the early return
    subst one
    have zero : k = 0 := by
      by_contra nonzero
      have : (2 : Int) ^ 1 ≤ 2 ^ k := by exact_mod_cast Nat.pow_le_pow_right (by decide) (by omega)
      simp at power
      omega
    simp [zero]
  · rw [if_neg one, if_neg (not_not.mpr ((and_sub_one_eq_zero_iff positive).mpr ⟨k, power⟩))]
    rw [log2Loop_two_pow k power (by decide) (by simp; omega)]
    simp

/-- On anything else it returns `-1`. -/
theorem getLog2IfPowerOf2_not_power {n : Int32} (notPower : forall k : Nat, n.toInt ≠ 2 ^ k) :
    getLog2IfPowerOf2 n = -1 := by
  unfold getLog2IfPowerOf2
  by_cases nonpositive : n ≤ 0
  · rw [if_pos nonpositive]
  · have positive : 0 < n.toInt := by simpa [Int32.le_iff_toInt_le] using nonpositive
    have notOne : n ≠ 1 := fun one => notPower 0 (by simp [one])
    have masked : n &&& (n - 1) ≠ 0 := fun cleared =>
      let ⟨k, power⟩ := (and_sub_one_eq_zero_iff positive).mp cleared
      notPower k power
    rw [if_neg nonpositive, if_neg notOne, if_pos masked]

/-- `get_log2_if_power_of_2` returns `k`, with `0 ≤ k ≤ 30`, exactly on `2 ^ k`,
and `-1` on every `int` that is no power of two. -/
theorem getLog2IfPowerOf2_correct (n : Int32) :
    (forall k : Nat, ((getLog2IfPowerOf2 n).toInt = k ∧ k ≤ 30) ↔ n.toInt = 2 ^ k) ∧
      ((forall k : Nat, n.toInt ≠ 2 ^ k) -> getLog2IfPowerOf2 n = -1) := by
  refine ⟨fun k => ⟨?_, ?_⟩, getLog2IfPowerOf2_not_power⟩
  · rintro ⟨returned, _⟩
    by_cases power : exists j : Nat, n.toInt = 2 ^ j
    · obtain ⟨j, power⟩ := power
      rw [getLog2IfPowerOf2_two_pow power] at returned
      rw [power, show j = k by exact_mod_cast returned]
    · rw [getLog2IfPowerOf2_not_power (fun j same => power ⟨j, same⟩)] at returned
      simp at returned
  · intro power
    have small := exponent_lt_of_toInt power
    exact ⟨getLog2IfPowerOf2_two_pow power, by omega⟩

/-! ## The checks of `tournament_create` -/

/-- The static variables of the library, of which every process has its own
copy.  `lockIds` is `peterson_lock_ids_array`: `none` is the null pointer, and
`some ids` holds the entries written so far. -/
structure Globals where
  lockIds : Option (List Int32)
  numTotalLocks : Int32
  nProcesses : Int32
  lLevels : Int32
  myId : Int32
  deriving DecidableEq, Repr

/-- The values the variables start with. -/
def Globals.initial : Globals where
  lockIds := none
  numTotalLocks := 0
  nProcesses := 0
  lLevels := 0
  myId := -1

/-- The checks that open `tournament_create(processes)`: the message a failing
check prints, or the globals with `L_levels`, `N_processes` and
`num_total_locks` set. -/
def createValidate (g : Globals) (processes : Int32) : Except String Globals :=
  if processes > 16 then
    .error ("tournament_create: Number of processes " ++ toString processes ++
      " exceeds maximum of 16.\n")
  else
    let tempLLevels := getLog2IfPowerOf2 processes
    if tempLLevels = -1 then
      .error ("tournament_create: Number of processes " ++ toString processes ++
        " must be a positive power of 2.\n")
    else
      .ok { g with lLevels := tempLLevels, nProcesses := processes,
                   numTotalLocks := processes - 1 }

/-- `tournament_create(p)` passes its checks exactly when `p` is a power of two
of at most `16`, and it then sets `L_levels` to `log2 p` and
`num_total_locks` to `p - 1`. -/
theorem createValidate_ok_iff (g : Globals) (processes : Int32) (g' : Globals) :
    createValidate g processes = .ok g' ↔
      exists k : Nat, k ≤ 4 ∧ processes.toInt = 2 ^ k ∧
        g' = { g with lLevels := Int32.ofNat k, nProcesses := processes,
                      numTotalLocks := processes - 1 } := by
  unfold createValidate
  by_cases tooMany : processes > 16
  · -- every power of two up to `2 ^ 4` passes the first check
    have large : 16 < processes.toInt := by simpa using Int32.lt_iff_toInt_lt.mp tooMany
    rw [if_pos tooMany]
    simp only [reduceCtorEq, false_iff, not_exists, not_and]
    intro k small power
    have : (2 : Int) ^ k ≤ 2 ^ 4 := by exact_mod_cast Nat.pow_le_pow_right (by decide) small
    omega
  rw [if_neg tooMany]
  have atMost : processes.toInt ≤ 16 := by simpa [Int32.lt_iff_toInt_lt] using tooMany
  by_cases power : exists k : Nat, processes.toInt = 2 ^ k
  · obtain ⟨k, power⟩ := power
    have exponent := getLog2IfPowerOf2_two_pow power
    have small : k ≤ 4 := by
      by_contra large
      have : (2 : Int) ^ 5 ≤ 2 ^ k := by exact_mod_cast Nat.pow_le_pow_right (by decide) (by omega)
      omega
    have levels : getLog2IfPowerOf2 processes = Int32.ofNat k := by
      apply Int32.toInt_inj.mp
      rw [exponent, Int32.toInt_ofNat', Int.bmod_eq_of_le (by simp only [Int32.size]; omega)
        (by simp only [Int32.size]; omega)]
    have found : Int32.ofNat k ≠ -1 := by
      intro failed
      rw [levels, failed] at exponent
      simp at exponent
    simp only [levels, if_neg found, Except.ok.injEq]
    constructor
    · intro set
      exact ⟨k, small, power, set.symm⟩
    · rintro ⟨j, -, power', set⟩
      have same : j = k := by
        rw [power] at power'
        exact Nat.pow_right_injective (le_refl 2) (by exact_mod_cast power'.symm)
      rw [set, same]
  · rw [getLog2IfPowerOf2_not_power (fun k same => power ⟨k, same⟩), if_pos rfl]
    simp only [reduceCtorEq, false_iff, not_exists, not_and]
    intro k _ same
    exact (power ⟨k, same⟩).elim

/-! ## The lock of each level -/

/-- `role_at_level` in the loops of `tournament_acquire` and
`tournament_release`: bit `L_levels - 1 - l` of `my_id`. -/
def roleAtLevel (lLevels myId l : Int32) : Int32 :=
  (myId >>> (lLevels - 1 - l)) &&& 1

/-- `array_idx` in the same loops: the index of the lock within its level,
`my_id >> (L_levels - l)`, after the `(1 << l) - 1` locks of the levels above. -/
def arrayIdx (lLevels myId l : Int32) : Int32 :=
  (myId >>> (lLevels - l)) + ((1 <<< l) - 1)

/-- A leaf number of a tree of at most `30` levels is the value of its word. -/
theorem toInt_ofNat_leaf {height leaf : Nat} (levels : height ≤ 30) (leafLt : leaf < 2 ^ height) :
    (Int32.ofNat leaf).toInt = leaf := by
  have : 2 ^ height ≤ 2 ^ 30 := Nat.pow_le_pow_right (by decide) levels
  exact toInt_ofNat_of_lt (by omega)

/-- A level number is the value of its word. -/
theorem toInt_ofNat_level {depth : Nat} (small : depth ≤ 30) : (Int32.ofNat depth).toInt = depth :=
  toInt_ofNat_of_lt (by omega)

section Levels

/- A tree of `height` levels of locks, a leaf `leaf` of it and a level
`depth` of its locks, as `int`s. -/
variable {height leaf depth : Nat} (levels : height ≤ 30) (leafLt : leaf < 2 ^ height)
  (depthLt : depth < height)

include levels leafLt depthLt

/-- `array_idx` is the index of the node at depth `l` on the path to leaf
`my_id`. -/
theorem arrayIdx_ofNat :
    (arrayIdx (.ofNat height) (.ofNat leaf) (.ofNat depth)).toInt =
      Tree.pathNode height depth leaf := by
  have heightWord := toInt_ofNat_level levels
  have depthWord := toInt_ofNat_level (show depth ≤ 30 by omega)
  have leafWord := toInt_ofNat_leaf levels leafLt
  have shift : (Int32.ofNat height - Int32.ofNat depth).toInt = (height - depth : Nat) := by
    rw [toInt_sub_of_range (by omega) (by omega), heightWord, depthWord]
    omega
  have levelBit : (1 <<< Int32.ofNat depth).toInt = (2 ^ depth : Nat) := by
    rw [toInt_one_shiftLeft (by omega) (by omega), depthWord]
    simp
  have positive : 1 ≤ 2 ^ depth := Nat.one_le_two_pow
  have room : 2 ^ (depth + 1) ≤ 2 ^ 31 := Nat.pow_le_pow_right (by decide) (by omega)
  rw [Nat.pow_succ] at room
  have offset : ((1 <<< Int32.ofNat depth) - 1).toInt = (2 ^ depth - 1 : Nat) := by
    rw [toInt_sub_of_range (by rw [levelBit, Int32.toInt_one]; omega)
      (by rw [levelBit, Int32.toInt_one]; omega), levelBit, Int32.toInt_one]
    omega
  have position : (Int32.ofNat leaf >>> (Int32.ofNat height - Int32.ofNat depth)).toInt =
      (Tree.ancestor height depth leaf : Nat) := by
    rw [toInt_shiftRight _ (by omega) (by omega), shift, leafWord, Tree.ancestor]
    simp
  -- the position within the level is below `2 ^ depth`, so the sum does not wrap
  have within := Tree.ancestor_lt leafLt (Nat.le_of_lt depthLt)
  unfold arrayIdx Tree.pathNode Tree.node
  rw [toInt_add_of_range (by rw [position, offset]; omega) (by rw [position, offset]; omega),
    position, offset]
  omega

/-- `role_at_level` is the child of that node through which the path
continues. -/
theorem roleAtLevel_ofNat :
    (roleAtLevel (.ofNat height) (.ofNat leaf) (.ofNat depth)).toInt =
      Tree.branch height depth leaf := by
  have heightWord := toInt_ofNat_level levels
  have depthWord := toInt_ofNat_level (show depth ≤ 30 by omega)
  have leafWord := toInt_ofNat_leaf levels leafLt
  have shift : (Int32.ofNat height - 1 - Int32.ofNat depth).toInt = (height - 1 - depth : Nat) := by
    have decremented : (Int32.ofNat height - 1).toInt = height - 1 := by
      rw [toInt_sub_of_range (by simp [heightWord]; omega) (by simp [heightWord]; omega),
        heightWord, Int32.toInt_one]
    rw [toInt_sub_of_range (by omega) (by omega), decremented, depthWord]
    omega
  have bit : (Int32.ofNat leaf >>> (Int32.ofNat height - 1 - Int32.ofNat depth)).toInt =
      (leaf / 2 ^ (height - 1 - depth) : Nat) := by
    rw [toInt_shiftRight _ (by omega) (by omega), shift, leafWord]
    simp
  unfold roleAtLevel Tree.branch
  rw [toInt_and (by rw [bit]; exact Int.natCast_nonneg _) (by decide), bit, Int32.toInt_one,
    Int.toNat_natCast, show (1 : Int).toNat = 1 from rfl, Nat.and_one_is_mod]

end Levels

/-- The next level's word. -/
theorem ofNat_add_one {depth : Nat} (small : depth < 30) :
    Int32.ofNat depth + 1 = Int32.ofNat (depth + 1) := by
  apply Int32.toInt_inj.mp
  rw [toInt_add_of_range] <;>
    simp only [toInt_ofNat_level (Nat.le_of_lt small), toInt_ofNat_level (Nat.succ_le_of_lt small),
      Int32.toInt_one] <;> omega

section Paths

variable {height leaf depth : Nat} (levels : height ≤ 30) (leafLt : leaf < 2 ^ height)

include levels leafLt

/-- Every index the loops compute is in range, so their out-of-bounds
branches are never taken. -/
theorem arrayIdx_range (depthLt : depth < height) :
    0 ≤ (arrayIdx (.ofNat height) (.ofNat leaf) (.ofNat depth)).toInt ∧
      (arrayIdx (.ofNat height) (.ofNat leaf) (.ofNat depth)).toInt < 2 ^ height - 1 := by
  have inRange := Tree.pathNode_lt leafLt depthLt
  have positive : 1 ≤ 2 ^ height := Nat.one_le_two_pow
  rw [arrayIdx_ofNat levels leafLt depthLt]
  constructor
  · exact Int.natCast_nonneg _
  · have power : ((2 ^ height : Nat) : Int) = 2 ^ height := by push_cast; rfl
    omega

/-- Every process starts at the root lock. -/
theorem arrayIdx_root (nonempty : 0 < height) :
    arrayIdx (.ofNat height) (.ofNat leaf) 0 = 0 := by
  apply Int32.toInt_inj.mp
  rw [show (0 : Int32) = Int32.ofNat 0 from rfl, arrayIdx_ofNat levels leafLt nonempty,
    Tree.pathNode_root leafLt]
  rfl

/-- The lock of the next level is the child that `role_at_level` names. -/
theorem arrayIdx_succ (next : depth + 1 < height) :
    (arrayIdx (.ofNat height) (.ofNat leaf) (.ofNat depth + 1)).toInt =
      2 * (arrayIdx (.ofNat height) (.ofNat leaf) (.ofNat depth)).toInt + 1 +
        (roleAtLevel (.ofNat height) (.ofNat leaf) (.ofNat depth)).toInt := by
  rw [ofNat_add_one (by omega), arrayIdx_ofNat levels leafLt next,
    arrayIdx_ofNat levels leafLt (by omega), roleAtLevel_ofNat levels leafLt (by omega),
    Tree.pathNode_succ leaf (by omega)]
  push_cast
  rfl

/-- Two leaves meet at a lock with the same role exactly when they already
met at the lock of the level below. -/
theorem arrayIdx_roleAtLevel_eq_iff {other : Nat} (otherLt : other < 2 ^ height)
    (different : leaf ≠ other) (depthLt : depth < height) :
    (arrayIdx (.ofNat height) (.ofNat leaf) (.ofNat depth) =
        arrayIdx (.ofNat height) (.ofNat other) (.ofNat depth) ∧
      roleAtLevel (.ofNat height) (.ofNat leaf) (.ofNat depth) =
        roleAtLevel (.ofNat height) (.ofNat other) (.ofNat depth)) ↔
      (depth + 1 < height ∧ arrayIdx (.ofNat height) (.ofNat leaf) (.ofNat depth + 1) =
        arrayIdx (.ofNat height) (.ofNat other) (.ofNat depth + 1)) := by
  rw [← Int32.toInt_inj, ← Int32.toInt_inj, ← Int32.toInt_inj,
    arrayIdx_ofNat levels leafLt depthLt, arrayIdx_ofNat levels otherLt depthLt,
    roleAtLevel_ofNat levels leafLt depthLt, roleAtLevel_ofNat levels otherLt depthLt,
    Int.natCast_inj, Int.natCast_inj, Tree.pathNode_branch_eq_iff leafLt otherLt different depthLt]
  constructor
  · rintro ⟨next, sameChild⟩
    refine ⟨next, ?_⟩
    rw [ofNat_add_one (by omega), arrayIdx_ofNat levels leafLt next,
      arrayIdx_ofNat levels otherLt next, sameChild]
  · rintro ⟨next, sameChild⟩
    refine ⟨next, ?_⟩
    rw [ofNat_add_one (by omega), arrayIdx_ofNat levels leafLt next,
      arrayIdx_ofNat levels otherLt next] at sameChild
    exact_mod_cast sameChild

end Paths

/-! ## The two loops -/

/-- The levels that `for (int l = L_levels - 1; l >= 0; l--)` in
`tournament_acquire` runs through, from the value `l` has at its test on. -/
def acquireLevels (l : Int32) : List Int32 :=
  if l ≥ 0 then l :: acquireLevels (l - 1) else []
termination_by (l.toInt + 1).toNat
decreasing_by
  have nonneg : (0 : Int32).toInt ≤ l.toInt := Int32.le_iff_toInt_le.mp ‹_›
  rw [Int32.toInt_zero] at nonneg
  have below := Int32.toInt_lt l
  rw [toInt_sub_of_range (by simp; omega) (by simp; omega), Int32.toInt_one]
  omega

/-- The levels that `for (int l = 0; l < L_levels; l++)` in
`tournament_release` runs through, from the value `l` has at its test on. -/
def releaseLevels (lLevels l : Int32) : List Int32 :=
  if l < lLevels then l :: releaseLevels lLevels (l + 1) else []
termination_by (lLevels.toInt - l.toInt).toNat
decreasing_by
  have below : l.toInt < lLevels.toInt := Int32.lt_iff_toInt_lt.mp ‹_›
  have top := Int32.toInt_lt lLevels
  have bottom := Int32.le_toInt l
  rw [toInt_add_of_range (by simp; omega) (by simp; omega), Int32.toInt_one]
  omega

/-- The locks `tournament_acquire` takes, as indices into
`peterson_lock_ids_array`, with the role it takes each with. -/
def acquireVisits (lLevels myId : Int32) : List (Int32 × Int32) :=
  (acquireLevels (lLevels - 1)).map fun l => (arrayIdx lLevels myId l, roleAtLevel lLevels myId l)

/-- The locks `tournament_release` gives back, in the same form. -/
def releaseVisits (lLevels myId : Int32) : List (Int32 × Int32) :=
  (releaseLevels lLevels 0).map fun l => (arrayIdx lLevels myId l, roleAtLevel lLevels myId l)

/-- From level `depth`, the acquire loop counts down to `0`. -/
theorem acquireLevels_ofNat (depth : Nat) (small : depth ≤ 30) :
    acquireLevels (.ofNat depth) = (List.range (depth + 1)).reverse.map Int32.ofNat := by
  induction depth with
  | zero =>
      have last : acquireLevels (Int32.ofNat 0 - 1) = [] := by
        rw [acquireLevels, if_neg (by decide)]
      rw [acquireLevels, if_pos (by decide), last]
      rfl
  | succ depth induction =>
      have nonneg : Int32.ofNat (depth + 1) ≥ 0 := by
        rw [ge_iff_le, Int32.le_iff_toInt_le, toInt_ofNat_level small, Int32.toInt_zero]
        omega
      have down : Int32.ofNat (depth + 1) - 1 = Int32.ofNat depth := by
        rw [← ofNat_add_one (by omega)]
        simp
      rw [acquireLevels, if_pos nonneg, down, induction (by omega),
        @List.range_succ (depth + 1), List.reverse_append]
      rfl

/-- From level `depth`, the release loop counts up to `height - 1`. -/
theorem releaseLevels_ofNat {height : Nat} (levels : height ≤ 30) :
    forall count depth, depth + count = height ->
      releaseLevels (.ofNat height) (.ofNat depth) = (List.range' depth count).map Int32.ofNat := by
  intro count
  induction count with
  | zero =>
      intro depth done
      have stop : ¬ Int32.ofNat depth < Int32.ofNat height := by
        simp [Int32.lt_iff_toInt_lt, toInt_ofNat_level levels, toInt_ofNat_level
          (show depth ≤ 30 by omega)]
        omega
      rw [releaseLevels, if_neg stop]
      rfl
  | succ count induction =>
      intro depth remaining
      have continues : Int32.ofNat depth < Int32.ofNat height := by
        simp [Int32.lt_iff_toInt_lt, toInt_ofNat_level levels, toInt_ofNat_level
          (show depth ≤ 30 by omega)]
        omega
      rw [releaseLevels, if_pos continues, ofNat_add_one (by omega), induction (depth + 1) (by omega),
        List.range'_succ]
      rfl

/-- `tournament_release` gives back the locks `tournament_acquire` takes, with
the same roles, in the reverse order. -/
theorem releaseVisits_eq_reverse {height : Nat} (nonempty : 0 < height) (levels : height ≤ 30)
    (myId : Int32) :
    releaseVisits (.ofNat height) myId = (acquireVisits (.ofNat height) myId).reverse := by
  have top : Int32.ofNat height - 1 = Int32.ofNat (height - 1) := by
    have up := ofNat_add_one (show height - 1 < 30 by omega)
    rw [show height - 1 + 1 = height by omega] at up
    rw [← up]
    simp
  unfold acquireVisits releaseVisits
  rw [top, acquireLevels_ofNat (height - 1) (by omega), show (0 : Int32) = Int32.ofNat 0 from rfl,
    releaseLevels_ofNat levels height 0 (by omega), show height - 1 + 1 = height by omega,
    List.map_reverse, List.map_reverse, List.reverse_reverse, List.map_map, List.map_map,
    List.range_eq_range']

/-! ## The index arithmetic on `int`s -/

/-- The arithmetic of the loops of `tournament_acquire` and
`tournament_release`, for every tree of `1` to `30` levels, every leaf
`my_id` of it and every level `l` of its locks: the index is in range, the
top level is the root, the next level's lock is the child that the role
names, two leaves meet at a lock with the same role exactly when they already
met one level further down, and release visits what acquire visits, in the
reverse order. -/
theorem treeIndexArithmetic (lLevels myId l : Int32)
    (levels : 1 ≤ lLevels.toInt ∧ lLevels.toInt ≤ 30)
    (leaf : 0 ≤ myId.toInt ∧ myId.toInt < 2 ^ lLevels.toInt.toNat)
    (level : 0 ≤ l.toInt ∧ l.toInt < lLevels.toInt) :
    (0 ≤ (arrayIdx lLevels myId l).toInt ∧
        (arrayIdx lLevels myId l).toInt < 2 ^ lLevels.toInt.toNat - 1) ∧
      arrayIdx lLevels myId 0 = 0 ∧
      (l.toInt + 1 < lLevels.toInt ->
        (arrayIdx lLevels myId (l + 1)).toInt =
          2 * (arrayIdx lLevels myId l).toInt + 1 + (roleAtLevel lLevels myId l).toInt) ∧
      (forall other : Int32, 0 ≤ other.toInt -> other.toInt < 2 ^ lLevels.toInt.toNat ->
        myId ≠ other ->
        ((arrayIdx lLevels myId l = arrayIdx lLevels other l ∧
            roleAtLevel lLevels myId l = roleAtLevel lLevels other l) ↔
          (l.toInt + 1 < lLevels.toInt ∧
            arrayIdx lLevels myId (l + 1) = arrayIdx lLevels other (l + 1)))) ∧
      releaseVisits lLevels myId = (acquireVisits lLevels myId).reverse := by
  obtain ⟨height, rfl, heightWord⟩ := exists_eq_ofNat (show 0 ≤ lLevels.toInt by omega)
  obtain ⟨leafNat, rfl, leafWord⟩ := exists_eq_ofNat leaf.1
  obtain ⟨depth, rfl, depthWord⟩ := exists_eq_ofNat level.1
  simp only [heightWord, depthWord, Int.toNat_natCast] at levels leaf level ⊢
  have small : height ≤ 30 := by omega
  have leafLt : leafNat < 2 ^ height := by
    rw [leafWord] at leaf
    exact_mod_cast leaf.2
  have depthLt : depth < height := by omega
  refine ⟨arrayIdx_range small leafLt depthLt, arrayIdx_root small leafLt (by omega),
    fun next => arrayIdx_succ small leafLt (by omega), ?_,
    releaseVisits_eq_reverse (by omega) small _⟩
  intro other otherNonneg otherLt different
  obtain ⟨otherNat, rfl, otherWord⟩ := exists_eq_ofNat otherNonneg
  have otherLt' : otherNat < 2 ^ height := by
    rw [otherWord] at otherLt
    exact_mod_cast otherLt
  have differentNat : leafNat ≠ otherNat := fun same => different (by rw [same])
  have next : ((depth : Int) + 1 < height) ↔ depth + 1 < height := by omega
  rw [next]
  exact arrayIdx_roleAtLevel_eq_iff small leafLt otherLt' differentNat depthLt

/-- The case of leaf `5` of a tree of four levels, at level `1`. -/
theorem treeIndexArithmetic_leafFive :
    ((1 ≤ (4 : Int32).toInt ∧ (4 : Int32).toInt ≤ 30) ∧
      (0 ≤ (5 : Int32).toInt ∧ (5 : Int32).toInt < 2 ^ (4 : Int32).toInt.toNat) ∧
      (0 ≤ (1 : Int32).toInt ∧ (1 : Int32).toInt < (4 : Int32).toInt)) ∧
    ((0 ≤ (arrayIdx 4 5 1).toInt ∧ (arrayIdx 4 5 1).toInt < 2 ^ (4 : Int32).toInt.toNat - 1) ∧
      arrayIdx 4 5 0 = 0 ∧
      ((1 : Int32).toInt + 1 < (4 : Int32).toInt ->
        (arrayIdx 4 5 (1 + 1)).toInt = 2 * (arrayIdx 4 5 1).toInt + 1 + (roleAtLevel 4 5 1).toInt) ∧
      (forall other : Int32, 0 ≤ other.toInt -> other.toInt < 2 ^ (4 : Int32).toInt.toNat ->
        (5 : Int32) ≠ other ->
        ((arrayIdx 4 5 1 = arrayIdx 4 other 1 ∧ roleAtLevel 4 5 1 = roleAtLevel 4 other 1) ↔
          ((1 : Int32).toInt + 1 < (4 : Int32).toInt ∧
            arrayIdx 4 5 (1 + 1) = arrayIdx 4 other (1 + 1)))) ∧
      releaseVisits 4 5 = (acquireVisits 4 5).reverse) :=
  ⟨⟨⟨by decide, by decide⟩, ⟨by decide, by decide⟩, ⟨by decide, by decide⟩⟩,
    treeIndexArithmetic 4 5 1 ⟨by decide, by decide⟩ ⟨by decide, by decide⟩ ⟨by decide, by decide⟩⟩

/-! ## The checks of `tournament_create`, on `int`s -/

/-- `get_log2_if_power_of_2` returns `k`, with `0 ≤ k ≤ 30`, exactly on `2 ^ k`
and `-1` on every other `int`; so `tournament_create(processes)` passes its
checks exactly when `processes` is a power of two of at most `16`, and sets
`L_levels` to its logarithm and `num_total_locks` to `processes - 1`. -/
theorem log2Validation (n : Int32) (g : Globals) (processes : Int32) (g' : Globals) :
    ((forall k : Nat, ((getLog2IfPowerOf2 n).toInt = k ∧ k ≤ 30) ↔ n.toInt = 2 ^ k) ∧
      ((forall k : Nat, n.toInt ≠ 2 ^ k) -> getLog2IfPowerOf2 n = -1)) ∧
    (createValidate g processes = .ok g' ↔
      exists k : Nat, k ≤ 4 ∧ processes.toInt = 2 ^ k ∧
        g' = { g with lLevels := Int32.ofNat k, nProcesses := processes,
                      numTotalLocks := processes - 1 }) :=
  ⟨getLog2IfPowerOf2_correct n, createValidate_ok_iff g processes g'⟩

end Tournament
end Xv6Peterson
