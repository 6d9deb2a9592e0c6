import Mathlib

/-!
# Traversals of a binary tree
-/

open List BinaryTree

namespace CsLearning

variable {α : Type*}

def preorder : BinaryTree α → List α
  | .nil => []
  | .node a l r => a :: (preorder l ++ preorder r)

def inorder : BinaryTree α → List α
  | .nil => []
  | .node a l r => inorder l ++ a :: inorder r

def postorder : BinaryTree α → List α
  | .nil => []
  | .node a l r => postorder l ++ (postorder r ++ [a])

/-- The nodes of the right spine, from the root on. -/
def spine : BinaryTree α → List α
  | .nil => []
  | .node a _ r => a :: spine r

@[simp] theorem preorder_nil : preorder (.nil : BinaryTree α) = [] := rfl

@[simp] theorem preorder_node (a : α) (l r : BinaryTree α) : preorder (.node a l r) = a :: (preorder l ++ preorder r) := rfl

@[simp] theorem inorder_nil : inorder (.nil : BinaryTree α) = [] := rfl

@[simp] theorem inorder_node (a : α) (l r : BinaryTree α) : inorder (.node a l r) = inorder l ++ a :: inorder r := rfl

@[simp] theorem postorder_nil : postorder (.nil : BinaryTree α) = [] := rfl

@[simp] theorem postorder_node (a : α) (l r : BinaryTree α) : postorder (.node a l r) = postorder l ++ (postorder r ++ [a]) := rfl

@[simp] theorem spine_nil : spine (.nil : BinaryTree α) = [] := rfl

@[simp] theorem spine_node (a : α) (l r : BinaryTree α) : spine (.node a l r) = a :: spine r := rfl

@[simp] theorem length_preorder (t : BinaryTree α) : (preorder t).length = t.numNodes := by
  induction t with
  | nil => rfl
  | node a l r ihl ihr => simp [ihl, ihr]

@[simp] theorem length_inorder (t : BinaryTree α) : (inorder t).length = t.numNodes := by
  induction t with
  | nil => rfl
  | node a l r ihl ihr =>
    simp only [inorder_node, length_append, length_cons, ihl, ihr, numNodes]
    omega

theorem length_spine_le (t : BinaryTree α) : (spine t).length ≤ t.numNodes := by
  induction t with
  | nil => exact le_refl 0
  | node a l r _ ihr =>
    rw [spine_node, length_cons, numNodes]
    omega

theorem spine_sublist_inorder (t : BinaryTree α) : (spine t).Sublist (inorder t) := by
  induction t with
  | nil => exact Sublist.refl []
  | node a l r _ ihr => exact (ihr.cons_cons a).trans (sublist_append_right _ _)

theorem preorder_map {β : Type*} (f : α → β) (t : BinaryTree α) : preorder (t.map f) = (preorder t).map f := by
  induction t with
  | nil => rfl
  | node a l r ihl ihr => simp only [BinaryTree.map, preorder_node, ihl, ihr, map_append, map_cons]

theorem inorder_map {β : Type*} (f : α → β) (t : BinaryTree α) : inorder (t.map f) = (inorder t).map f := by
  induction t with
  | nil => rfl
  | node a l r ihl ihr => simp [BinaryTree.map, ihl, ihr]

theorem preorder_perm_inorder (t : BinaryTree α) : (preorder t).Perm (inorder t) := by
  induction t with
  | nil => exact Perm.nil
  | node a l r ihl ihr => exact ((ihl.append ihr).cons a).trans perm_middle.symm

/-! ## Subtrees -/

inductive Subtree : BinaryTree α → BinaryTree α → Prop where
  | refl (t : BinaryTree α) : Subtree t t
  | left {s l : BinaryTree α} (a : α) (r : BinaryTree α) : Subtree s l → Subtree s (.node a l r)
  | right {s r : BinaryTree α} (a : α) (l : BinaryTree α) : Subtree s r → Subtree s (.node a l r)

namespace Subtree

variable {s t l r l' r' : BinaryTree α} {a a' : α}

theorem trans {u : BinaryTree α} (h : Subtree s t) (h' : Subtree t u) : Subtree s u := by
  induction h' with
  | refl => exact h
  | left a r _ ih => exact left a r ih
  | right a l _ ih => exact right a l ih

theorem mem_preorder (h : Subtree (.node a l r) t) : a ∈ preorder t := by
  induction t with
  | nil => cases h
  | node b l' r' ihl ihr =>
    rw [preorder_node, mem_cons, mem_append]
    cases h with
    | refl => exact Or.inl rfl
    | left _ _ h => exact Or.inr (Or.inl (ihl h))
    | right _ _ h => exact Or.inr (Or.inr (ihr h))

/-- A subtree is known by the key of its root, when the keys are distinct. -/
theorem unique {κ : Type*} {f : α → κ} (hk : ((preorder t).map f).Nodup) (h : Subtree (.node a l r) t) (h' : Subtree (.node a' l' r') t)
    (heq : f a = f a') : node a l r = .node a' l' r' := by
  induction t with
  | nil => cases h
  | node b u v ihu ihv =>
    rw [preorder_node, map_cons, map_append, nodup_cons, mem_append, not_or, nodup_append] at hk
    obtain ⟨⟨hbu, hbv⟩, hu, hv, huv⟩ := hk
    cases h with
    | refl =>
      cases h' with
      | refl => rfl
      | left _ _ h' => exact absurd (mem_map.2 ⟨a', h'.mem_preorder, heq.symm⟩) hbu
      | right _ _ h' => exact absurd (mem_map.2 ⟨a', h'.mem_preorder, heq.symm⟩) hbv
    | left _ _ h =>
      cases h' with
      | refl => exact absurd (mem_map.2 ⟨a, h.mem_preorder, heq⟩) hbu
      | left _ _ h' => exact ihu hu h h'
      | right _ _ h' => exact absurd heq (huv _ (mem_map_of_mem h.mem_preorder) _ (mem_map_of_mem h'.mem_preorder))
    | right _ _ h =>
      cases h' with
      | refl => exact absurd (mem_map.2 ⟨a, h.mem_preorder, heq⟩) hbv
      | left _ _ h' => exact absurd heq.symm (huv _ (mem_map_of_mem h'.mem_preorder) _ (mem_map_of_mem h.mem_preorder))
      | right _ _ h' => exact ihv hv h h'

end Subtree

end CsLearning
