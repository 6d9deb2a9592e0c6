import CsLearning.Lib.Traversals

/-!
# Enumerating trees

A list enumerates the trees with a given inorder sequence when it holds each of them once and no others. A search tree is determined by its
keys and its shape, so that the search trees with given keys are the trees whose inorder sequence is the ascending list of the keys.
-/

open List BinaryTree

namespace CsLearning

variable {α β : Type*}

/-! ## Search trees -/

/-- The keys to the left of a node are smaller, and those to the right are greater. -/
def IsSearchTree [LT α] : BinaryTree α → Prop
  | .nil => True
  | .node a l r => (∀ x ∈ inorder l, x < a) ∧ (∀ x ∈ inorder r, a < x) ∧ IsSearchTree l ∧ IsSearchTree r

/-- A search tree is a tree whose inorder sequence ascends. -/
theorem isSearchTree_iff [Preorder α] {t : BinaryTree α} : IsSearchTree t ↔ (inorder t).Pairwise (· < ·) := by
  induction t with
  | nil => simp [IsSearchTree]
  | node a l r ihl ihr =>
    simp only [IsSearchTree, inorder_node, pairwise_append, pairwise_cons, ihr]
    constructor
    · grind
    · grind

/-! ## Shapes -/

/-- The shape of a tree. -/
def shape (t : BinaryTree α) : BinaryTree Unit := t.map fun _ => ()

theorem numNodes_shape (t : BinaryTree α) : (shape t).numNodes = t.numNodes := by
  induction t with
  | nil => rfl
  | node a l r ihl ihr =>
    simp only [shape, BinaryTree.map, BinaryTree.numNodes] at ihl ihr ⊢
    rw [ihl, ihr]

theorem shape_map (f : α → β) (t : BinaryTree α) : shape (t.map f) = shape t := by
  induction t with
  | nil => rfl
  | node a l r ihl ihr =>
    simp only [shape, BinaryTree.map] at ihl ihr ⊢
    rw [ihl, ihr]

/-- A tree is determined by its shape and its inorder sequence. -/
theorem eq_of_shape {t t' : BinaryTree α} (hs : shape t = shape t') (h : inorder t = inorder t') : t = t' := by
  induction t generalizing t' with
  | nil =>
    cases t' with
    | nil => rfl
    | node a l r => simp [shape, BinaryTree.map] at hs
  | node a l r ihl ihr =>
    cases t' with
    | nil => simp [shape, BinaryTree.map] at hs
    | node a' l' r' =>
      simp only [shape, BinaryTree.map, BinaryTree.node.injEq, true_and] at hs
      have hlen : (inorder l).length = (inorder l').length := by grind [length_inorder, numNodes_shape, shape]
      obtain ⟨hl, har⟩ := append_inj h hlen
      obtain ⟨rfl, hr⟩ := cons.inj har
      rw [ihl hs.1 hl, ihr hs.2 hr]

/-- Every shape with as many nodes as a sequence is long is that of a tree with this inorder sequence. -/
theorem exists_tree_of_shape (s : BinaryTree Unit) {xs : List α} (h : s.numNodes = xs.length) : ∃ t, shape t = s ∧ inorder t = xs := by
  induction s generalizing xs with
  | nil => exact ⟨.nil, rfl, (length_eq_zero_iff.mp h.symm).symm⟩
  | node u l r ihl ihr =>
    simp only [BinaryTree.numNodes] at h
    have hlt : l.numNodes < xs.length := by omega
    have hl : l.numNodes = (xs.take l.numNodes).length := by rw [length_take]; omega
    have hr : r.numNodes = (xs.drop (l.numNodes + 1)).length := by rw [length_drop]; omega
    obtain ⟨tl, hsl, htl⟩ := ihl hl
    obtain ⟨tr, hsr, htr⟩ := ihr hr
    refine ⟨.node xs[l.numNodes] tl tr, ?_, ?_⟩
    · simp only [shape, BinaryTree.map] at hsl hsr ⊢
      rw [hsl, hsr]
    · rw [inorder_node, htl, htr]
      simp

/-! ## Enumerations -/

/-- The list holds every tree with the given inorder sequence once, and no other tree. -/
structure Enumerates (ts : List (BinaryTree α)) (xs : List α) : Prop where
  nodup : ts.Nodup
  mem_iff : ∀ t, t ∈ ts ↔ inorder t = xs

namespace Enumerates

variable {ts us : List (BinaryTree α)} {xs : List α}

theorem perm (h : Enumerates ts xs) (h' : Enumerates us xs) : ts.Perm us := by
  rw [perm_ext_iff_of_nodup h.nodup h'.nodup]
  intro t
  rw [h.mem_iff, h'.mem_iff]

/-- As many trees as there are shapes with so many nodes. -/
theorem length_eq (h : Enumerates ts xs) : ts.length = catalan xs.length := by
  classical
  have hnd : (ts.map shape).Nodup := by
    apply h.nodup.map_on
    intro t ht t' ht' hs
    exact eq_of_shape hs (((h.mem_iff t).mp ht).trans ((h.mem_iff t').mp ht').symm)
  have hmem : (ts.map shape).toFinset = treesOfNumNodesEq xs.length := by
    ext s
    rw [mem_toFinset, mem_map, mem_treesOfNumNodesEq]
    constructor
    · rintro ⟨t, ht, rfl⟩
      rw [numNodes_shape, ← length_inorder, (h.mem_iff t).mp ht]
    · intro hs
      obtain ⟨t, rfl, ht⟩ := exists_tree_of_shape s hs
      exact ⟨t, (h.mem_iff t).mpr ht, rfl⟩
  rw [← treesOfNumNodesEq_card_eq_catalan, ← hmem, toFinset_card_of_nodup hnd, length_map]

theorem empty : Enumerates [.nil] ([] : List α) where
  nodup := nodup_singleton _
  mem_iff t := by
    cases t with
    | nil => simp
    | node a l r => simp

theorem map (f : α → β) (h : Enumerates ts xs) : Enumerates (ts.map (BinaryTree.map f)) (xs.map f) where
  nodup := by
    apply h.nodup.map_on
    intro t ht t' ht' hmap
    refine eq_of_shape ?_ (((h.mem_iff t).mp ht).trans ((h.mem_iff t').mp ht').symm)
    rw [← shape_map f t, ← shape_map f t', hmap]
  mem_iff t := by
    rw [mem_map]
    constructor
    · rintro ⟨u, hu, rfl⟩
      rw [inorder_map, (h.mem_iff u).mp hu]
    · intro ht
      -- the tree of the same shape over the old labels
      have hlen : (shape t).numNodes = xs.length := by rw [numNodes_shape, ← length_inorder, ht, length_map]
      obtain ⟨u, hs, hu⟩ := exists_tree_of_shape (shape t) hlen
      refine ⟨u, (h.mem_iff u).mpr hu, eq_of_shape ?_ ?_⟩
      · rw [shape_map, hs]
      · rw [inorder_map, hu, ht]

/-- All trees over distinct keys, from those over the keys before and after each possible root. -/
theorem join (hne : xs ≠ []) (hnd : xs.Nodup) {ls rs : α → List (BinaryTree α)}
    (h : ∀ left root right, left ++ root :: right = xs → Enumerates (ls root) left ∧ Enumerates (rs root) right) :
    Enumerates (xs.flatMap fun root => (ls root).flatMap fun l => (rs root).map fun r => .node root l r) xs where
  nodup := by
    rw [nodup_flatMap]
    constructor
    · intro root hroot
      obtain ⟨left, right, rfl⟩ := append_of_mem hroot
      obtain ⟨hl, hr⟩ := h left root right rfl
      rw [nodup_flatMap]
      constructor
      · intro l _
        apply hr.nodup.map
        intro r r' heq
        exact (BinaryTree.node.inj heq).2.2
      · refine hl.nodup.imp fun {l l'} hne t ht ht' => ?_
        obtain ⟨r, -, rfl⟩ := mem_map.mp ht
        obtain ⟨r', -, heq⟩ := mem_map.mp ht'
        exact hne (BinaryTree.node.inj heq).2.1.symm
    · refine hnd.imp fun {a b} hab t ht ht' => ?_
      simp only [mem_flatMap, mem_map] at ht ht'
      obtain ⟨l, -, r, -, rfl⟩ := ht
      obtain ⟨l', -, r', -, heq⟩ := ht'
      exact hab (BinaryTree.node.inj heq).1.symm
  mem_iff t := by
    simp only [mem_flatMap, mem_map]
    constructor
    · rintro ⟨root, hroot, l, hl, r, hr, rfl⟩
      obtain ⟨left, right, hsp⟩ := append_of_mem hroot
      obtain ⟨hleft, hright⟩ := h left root right hsp.symm
      rw [inorder_node, (hleft.mem_iff l).mp hl, (hright.mem_iff r).mp hr, hsp]
    · intro ht
      cases t with
      | nil => exact absurd ht.symm hne
      | node root l r =>
        obtain ⟨hleft, hright⟩ := h _ _ _ ht
        refine ⟨root, ?_, l, (hleft.mem_iff l).mpr rfl, r, (hright.mem_iff r).mpr rfl, rfl⟩
        rw [← ht]
        exact mem_append_cons_self

end Enumerates

end CsLearning
