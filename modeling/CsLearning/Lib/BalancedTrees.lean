import Mathlib

/-!
# Balanced trees

A tree in which the two subtrees of every node have about the same number of nodes. Its height is the number of binary digits of the number of its
nodes, which grows by at most one when a node is added, so the heights of the two subtrees of every node are about the same too.
-/

open Nat

namespace CsLearning

variable {α : Type*} {a : α} {l r t : BinaryTree α}

/-- The heights of the two subtrees of every node differ by at most one. -/
def HeightBalanced : BinaryTree α → Prop
  | .nil => True
  | .node _ l r => l.height ≤ r.height + 1 ∧ r.height ≤ l.height + 1 ∧ HeightBalanced l ∧ HeightBalanced r

instance HeightBalanced.decidable : ∀ t : BinaryTree α, Decidable (HeightBalanced t)
  | .nil => .isTrue trivial
  | .node _ l r =>
    have := HeightBalanced.decidable l
    have := HeightBalanced.decidable r
    inferInstanceAs (Decidable (l.height ≤ r.height + 1 ∧ r.height ≤ l.height + 1 ∧ HeightBalanced l ∧ HeightBalanced r))

/-- The numbers of nodes of the two subtrees of every node differ by at most one. -/
def Halved : BinaryTree α → Prop
  | .nil => True
  | .node _ l r => l.numNodes ≤ r.numNodes + 1 ∧ r.numNodes ≤ l.numNodes + 1 ∧ Halved l ∧ Halved r

theorem size_eq_size_half {n : Nat} (h : 0 < n) : n.size = (n / 2).size + 1 := by
  have hbit : bit n.bodd (n / 2) = n := by
    exact bit_bodd_div2 n
  have hs : (bit n.bodd (n / 2)).size = (n / 2).size + 1 := size_bit (by omega)
  rwa [hbit] at hs

theorem size_succ_le (n : Nat) : (n + 1).size ≤ n.size + 1 := by
  have hlt := lt_size_self n
  rw [size_le]
  omega

theorem size_le_size_add_one {m n : Nat} (h : m ≤ n + 1) : m.size ≤ n.size + 1 := (size_le_size h).trans (size_succ_le n)

/-- The height of a tree that is halved depends on the number of nodes only. -/
theorem Halved.height_eq (h : Halved t) : t.height = t.numNodes.size := by
  induction t with
  | nil => rfl
  | node a l r ihl ihr =>
    obtain ⟨hlr, hrl, hl, hr⟩ := h
    have hhalf : (l.numNodes + r.numNodes + 1) / 2 = max l.numNodes r.numNodes := by omega
    have hmono : Monotone size := fun _ _ => size_le_size
    rw [BinaryTree.height, BinaryTree.numNodes, size_eq_size_half (succ_pos _), hhalf, hmono.map_max, ihl hl, ihr hr]

theorem Halved.heightBalanced (h : Halved t) : HeightBalanced t := by
  induction t with
  | nil => exact trivial
  | node a l r ihl ihr =>
    obtain ⟨hlr, hrl, hl, hr⟩ := h
    refine ⟨?_, ?_, ihl hl, ihr hr⟩
    · rw [hl.height_eq, hr.height_eq]
      exact size_le_size_add_one hlr
    · rw [hl.height_eq, hr.height_eq]
      exact size_le_size_add_one hrl

end CsLearning
