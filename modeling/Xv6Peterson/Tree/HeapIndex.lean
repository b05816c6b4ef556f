import Mathlib.Algebra.Order.Group.Nat

namespace Xv6Peterson
namespace Tree

/-!
# Complete binary trees stored level by level

A complete binary tree of height `height` has `2 ^ height - 1` inner nodes and
`2 ^ height` leaves.  Stored breadth first, the inner nodes of depth `depth`
occupy the indices from `2 ^ depth - 1` on, and the children of the node at
index `k` sit at `2 * k + 1` and `2 * k + 2`.  Leaves are numbered from the
left, so the path from the root to leaf `leaf` is read off the binary digits
of `leaf`, most significant first: the ancestor at depth `depth` is the leaf
number with its last `height - depth` digits dropped, and the digit below it
says which child the path continues through.

Everything here is arithmetic on natural numbers.  The facts proved are those
a tree of locks indexed this way relies on: indices stay in range, the root is
index zero, a child's index is computed from its parent's, the depth of an
index is determined, and two paths meet a node through the same child exactly
when they share that child.
-/

/-- The array index of the node at depth `depth` whose position among the
nodes of its level is `offset`. -/
def node (depth offset : Nat) : Nat :=
  offset + (2 ^ depth - 1)

/-- The position within its level of the depth-`depth` ancestor of leaf
`leaf`, in a tree of height `height`. -/
def ancestor (height depth leaf : Nat) : Nat :=
  leaf / 2 ^ (height - depth)

/-- Which child of its depth-`depth` ancestor the path to `leaf` continues
through: `0` for the left child and `1` for the right one. -/
def branch (height depth leaf : Nat) : Nat :=
  leaf / 2 ^ (height - 1 - depth) % 2

/-- The array index of the depth-`depth` ancestor of `leaf`. -/
def pathNode (height depth leaf : Nat) : Nat :=
  node depth (ancestor height depth leaf)

/-! ## Levels -/

theorem level_start_le_node (depth offset : Nat) : 2 ^ depth - 1 ≤ node depth offset := by
  unfold node
  omega

theorem node_lt_level_end {depth offset : Nat} (offsetLt : offset < 2 ^ depth) :
    node depth offset < 2 ^ (depth + 1) - 1 := by
  have doubled : 2 ^ (depth + 1) = 2 * 2 ^ depth := by rw [Nat.pow_succ, Nat.mul_comm]
  unfold node
  omega

theorem node_lt {height depth offset : Nat} (offsetLt : offset < 2 ^ depth)
    (depthLt : depth < height) : node depth offset < 2 ^ height - 1 := by
  have levelEnd := node_lt_level_end offsetLt
  have monotone : 2 ^ (depth + 1) ≤ 2 ^ height := Nat.pow_le_pow_right (by decide) depthLt
  omega

/-- An index determines its node: levels occupy disjoint ranges of indices. -/
theorem node_injective {depth depth' offset offset' : Nat} (offsetLt : offset < 2 ^ depth)
    (offsetLt' : offset' < 2 ^ depth') (same : node depth offset = node depth' offset') :
    depth = depth' ∧ offset = offset' := by
  have sameDepth : depth = depth' := by
    rcases Nat.lt_trichotomy depth depth' with shallower | equal | deeper
    · have below := node_lt_level_end offsetLt
      have above := level_start_le_node depth' offset'
      have monotone : 2 ^ (depth + 1) ≤ 2 ^ depth' := Nat.pow_le_pow_right (by decide) shallower
      omega
    · exact equal
    · have below := node_lt_level_end offsetLt'
      have above := level_start_le_node depth offset
      have monotone : 2 ^ (depth' + 1) ≤ 2 ^ depth := Nat.pow_le_pow_right (by decide) deeper
      omega
  subst sameDepth
  unfold node at same
  exact ⟨rfl, by omega⟩

/-- The left child of node `k` is `2 * k + 1`, the right one `2 * k + 2`. -/
theorem node_child (depth offset child : Nat) :
    node (depth + 1) (2 * offset + child) = 2 * node depth offset + 1 + child := by
  have doubled : 2 ^ (depth + 1) = 2 * 2 ^ depth := by rw [Nat.pow_succ, Nat.mul_comm]
  have positive : 1 ≤ 2 ^ depth := Nat.one_le_two_pow
  unfold node
  omega

/-- Every index below `2 ^ height - 1` is an inner node of some depth. -/
theorem exists_node {height index : Nat} (indexLt : index < 2 ^ height - 1) :
    exists depth offset, depth < height ∧ offset < 2 ^ depth ∧ node depth offset = index := by
  induction height with
  | zero => simp at indexLt
  | succ height induction =>
      have doubled : 2 ^ (height + 1) = 2 * 2 ^ height := by rw [Nat.pow_succ, Nat.mul_comm]
      by_cases upper : index < 2 ^ height - 1
      · obtain ⟨depth, offset, depthLt, offsetLt, named⟩ := induction upper
        exact ⟨depth, offset, by omega, offsetLt, named⟩
      · -- the last level holds the indices from `2 ^ height - 1` on
        refine ⟨height, index - (2 ^ height - 1), by omega, by omega, ?_⟩
        unfold node
        omega

/-- Induction from the leaves up: a property of the levels of a tree that
holds at a level whenever it holds at the level below (if there is one) holds
at every level. -/
theorem levels_from_bottom {height : Nat} {Q : Nat -> Prop}
    (up : forall depth, depth < height -> (depth + 1 < height -> Q (depth + 1)) -> Q depth) :
    forall depth, depth < height -> Q depth := by
  intro depth depthLt
  induction gap : height - 1 - depth generalizing depth with
  | zero => exact up depth depthLt (fun next => absurd next (by omega))
  | succ gap induction => exact up depth depthLt (fun next => induction (depth + 1) next (by omega))

/-! ## Paths from the root -/

theorem ancestor_lt {height depth leaf : Nat} (leafLt : leaf < 2 ^ height)
    (depthLe : depth ≤ height) : ancestor height depth leaf < 2 ^ depth := by
  unfold ancestor
  rw [Nat.div_lt_iff_lt_mul (Nat.two_pow_pos _), ← Nat.pow_add, Nat.add_sub_cancel' depthLe]
  exact leafLt

theorem branch_lt_two (height depth leaf : Nat) : branch height depth leaf < 2 :=
  Nat.mod_lt _ (by decide)

/-- One more digit of the leaf number: the depth-`depth + 1` ancestor is the
chosen child of the depth-`depth` one. -/
theorem ancestor_succ {height depth : Nat} (leaf : Nat) (depthLt : depth < height) :
    ancestor height (depth + 1) leaf =
      2 * ancestor height depth leaf + branch height depth leaf := by
  have shift : height - depth = (height - 1 - depth) + 1 := by omega
  have shift' : height - (depth + 1) = height - 1 - depth := by omega
  unfold ancestor branch
  rw [shift, shift', Nat.pow_succ, ← Nat.div_div_eq_div_mul]
  exact (Nat.div_add_mod _ 2).symm

theorem pathNode_lt {height depth leaf : Nat} (leafLt : leaf < 2 ^ height)
    (depthLt : depth < height) : pathNode height depth leaf < 2 ^ height - 1 :=
  node_lt (ancestor_lt leafLt (Nat.le_of_lt depthLt)) depthLt

theorem pathNode_root {height leaf : Nat} (leafLt : leaf < 2 ^ height) :
    pathNode height 0 leaf = 0 := by
  have atRoot := ancestor_lt leafLt (Nat.zero_le height)
  unfold pathNode node
  omega

/-- The path's next node is a child of its current one. -/
theorem pathNode_succ {height depth : Nat} (leaf : Nat) (depthLt : depth < height) :
    pathNode height (depth + 1) leaf =
      2 * pathNode height depth leaf + 1 + branch height depth leaf := by
  unfold pathNode
  rw [ancestor_succ leaf depthLt]
  exact node_child depth _ _

/-- Two paths pass through the same node at depth `depth` exactly when the
leaf numbers agree once their last `height - depth` digits are dropped. -/
theorem pathNode_eq_iff {height depth a b : Nat} (aLt : a < 2 ^ height) (bLt : b < 2 ^ height)
    (depthLe : depth ≤ height) :
    pathNode height depth a = pathNode height depth b ↔
      ancestor height depth a = ancestor height depth b := by
  constructor
  · intro same
    exact (node_injective (ancestor_lt aLt depthLe) (ancestor_lt bLt depthLe) same).2
  · intro same
    unfold pathNode
    rw [same]

/-- Two different leaves whose paths meet at a node leave it through the same
child exactly when they share that child, which requires it to be an inner
node. -/
theorem pathNode_branch_eq_iff {height depth a b : Nat} (aLt : a < 2 ^ height)
    (bLt : b < 2 ^ height) (different : a ≠ b) (depthLt : depth < height) :
    (pathNode height depth a = pathNode height depth b ∧
        branch height depth a = branch height depth b) ↔
      (depth + 1 < height ∧ pathNode height (depth + 1) a = pathNode height (depth + 1) b) := by
  rw [pathNode_eq_iff aLt bLt (Nat.le_of_lt depthLt),
    pathNode_eq_iff aLt bLt (Nat.succ_le_of_lt depthLt), ancestor_succ a depthLt,
    ancestor_succ b depthLt]
  have aBranch := branch_lt_two height depth a
  have bBranch := branch_lt_two height depth b
  constructor
  · rintro ⟨sameAncestor, sameBranch⟩
    refine ⟨?_, by omega⟩
    by_contra atLeaves
    have lastDepth : height - (depth + 1) = 0 := by omega
    have leafA : ancestor height (depth + 1) a = a := by simp [ancestor, lastDepth]
    have leafB : ancestor height (depth + 1) b = b := by simp [ancestor, lastDepth]
    rw [ancestor_succ a depthLt] at leafA
    rw [ancestor_succ b depthLt] at leafB
    omega
  · rintro ⟨-, sameChild⟩
    omega

end Tree
end Xv6Peterson
