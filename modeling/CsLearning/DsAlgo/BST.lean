import CsLearning.Lib.Run

/-!
# `BST.cc`: the binary search tree

A `TreeNode *` is the null pointer or a node, and the functions that write through it return the tree they leave. A node that is found
is the tree below it, which names it: a search tree holds a key once. `bst_refines_set` follows the calls of `insert` and
`Delete` on the set of the keys; `Delete` of a node with two children writes the least key of the right subtree over the key, and
then deletes that key from the right subtree.
-/

open List Finset

namespace CsLearning.DsAlgo

/-- A `TreeNode *`. -/
inductive TreeNode where
  | null
  | node (val : Int) (left right : TreeNode)
  deriving DecidableEq, Repr

namespace TreeNode

/-! ## The functions of the source -/

/-- `insert`. -/
protected def insert : TreeNode → Int → TreeNode
  | null, val => node val null null
  | node v l r, val =>
    if val < v then node v (l.insert val) r
    else if v < val then node v l (r.insert val)
    else node v l r

/-- `find_recursion`. -/
def findRecursion : TreeNode → Int → TreeNode
  | null, _ => null
  | node v l r, val =>
    if v < val then r.findRecursion val
    else if val < v then l.findRecursion val
    else node v l r

/-- The loop of `find_iteration`, from the node `current` on. -/
def findIteration : TreeNode → Int → TreeNode
  | null, _ => null
  | node v l r, val =>
    if val < v then l.findIteration val
    else if v < val then r.findIteration val
    else node v l r

/-- `FindMin`. -/
def findMin : TreeNode → TreeNode
  | null => null
  | node v null r => node v null r
  | node _ l _ => l.findMin

/-- `FindMax`: the loop goes to the right as long as it can. -/
def findMax : TreeNode → TreeNode
  | null => null
  | node v l null => node v l null
  | node _ _ r => r.findMax

/-- `Delete`; nothing when it follows a null pointer. -/
protected def delete : TreeNode → Int → Option TreeNode
  | null, _ => some null
  | node v l r, key =>
    if key < v then (l.delete key).map fun l' => node v l' r
    else if v < key then (r.delete key).map fun r' => node v l r'
    else if l ≠ null ∧ r ≠ null then
      match r.findMin with
      | null => none
      | node m _ _ => (r.delete m).map fun r' => node m l r'
    else if l = null then some r
    else if r = null then some l
    else some (node v l r)

/-! ## Search trees -/

/-- The keys of a tree. -/
def keys : TreeNode → Finset Int
  | null => ∅
  | node v l r => insert v (l.keys ∪ r.keys)

/-- The nodes of a tree. -/
def nodes : TreeNode → List TreeNode
  | null => []
  | node v l r => node v l r :: (l.nodes ++ r.nodes)

/-- Strict search order: the keys on the left are less than that of the node, those on the right greater. -/
def Ordered : TreeNode → Prop
  | null => True
  | node v l r => (∀ k ∈ l.keys, k < v) ∧ (∀ k ∈ r.keys, v < k) ∧ l.Ordered ∧ r.Ordered

variable {v k : Int} {l r n t : TreeNode}

@[simp] theorem mem_keys_node : k ∈ (node v l r).keys ↔ k = v ∨ k ∈ l.keys ∨ k ∈ r.keys := by
  simp [keys]

@[simp] theorem notMem_keys_null : k ∉ null.keys := by simp [keys]

theorem mem_nodes_left (h : n ∈ l.nodes) : n ∈ (node v l r).nodes := mem_cons_of_mem _ (mem_append_left _ h)

theorem mem_nodes_right (h : n ∈ r.nodes) : n ∈ (node v l r).nodes := mem_cons_of_mem _ (mem_append_right _ h)

theorem keys_eq_empty : t.keys = ∅ ↔ t = null := by
  cases t with
  | null => simp [keys]
  | node v l r => simp [keys]

/-! ## `insert` -/

theorem keys_insert (t : TreeNode) (val : Int) : (t.insert val).keys = insert val t.keys := by
  induction t with
  | null => simp [TreeNode.insert, keys]
  | node v l r ihl ihr =>
    unfold TreeNode.insert
    split
    · ext k
      simp [ihl, or_left_comm, or_assoc]
    · split
      · ext k
        simp [ihr, or_left_comm]
      · have hv : val = v := by omega
        simp [hv]

theorem Ordered.insert (h : t.Ordered) (val : Int) : (t.insert val).Ordered := by
  induction t with
  | null => exact ⟨by simp, by simp, trivial, trivial⟩
  | node v l r ihl ihr =>
    obtain ⟨hl, hr, hol, hor⟩ := h
    unfold TreeNode.insert
    split
    · rename_i hlt
      refine ⟨fun k hk => ?_, hr, ihl hol, hor⟩
      rw [keys_insert, mem_insert] at hk
      rcases hk with rfl | hk
      · exact hlt
      · exact hl k hk
    · split
      · rename_i hgt
        refine ⟨hl, fun k hk => ?_, hol, ihr hor⟩
        rw [keys_insert, mem_insert] at hk
        rcases hk with rfl | hk
        · exact hgt
        · exact hr k hk
      · exact ⟨hl, hr, hol, hor⟩

/-! ## The searches -/

theorem findIteration_eq (t : TreeNode) (val : Int) : t.findIteration val = t.findRecursion val := by
  induction t with
  | null => rfl
  | node v l r ihl ihr =>
    unfold findIteration findRecursion
    rcases lt_trichotomy val v with h | h | h
    · rw [if_pos h, if_neg (by omega), if_pos h, ihl]
    · grind
    · rw [if_neg (by omega), if_pos h, if_pos h, ihr]

/-- What the search finds: a node of the tree with the key, or null when the key is in no node. -/
theorem findRecursion_spec (h : t.Ordered) (val : Int) : (val ∈ t.keys ∧ ∃ l r, t.findRecursion val = node val l r ∧ node val l r ∈ t.nodes) ∨
    (val ∉ t.keys ∧ t.findRecursion val = null) := by
  induction t with
  | null => exact Or.inr ⟨by simp, rfl⟩
  | node v l r ihl ihr =>
    obtain ⟨hl, hr, hol, hor⟩ := h
    unfold findRecursion
    rcases lt_trichotomy v val with hv | rfl | hv
    · rw [if_pos hv]
      have hleft : val ∉ l.keys := fun hk => absurd (hl val hk) (by omega)
      rcases ihr hor with ⟨hk, a, b, hf, hm⟩ | ⟨hk, hf⟩
      · exact Or.inl ⟨by simp [hk], a, b, hf, by simp [nodes, hm]⟩
      · exact Or.inr ⟨by simp [hk, hleft, hv.ne'], hf⟩
    · rw [if_neg (lt_irrefl v), if_neg (lt_irrefl v)]
      exact Or.inl ⟨by simp, l, r, rfl, by simp [nodes]⟩
    · rw [if_neg (by omega), if_pos hv]
      have hright : val ∉ r.keys := fun hk => absurd (hr val hk) (by omega)
      rcases ihl hol with ⟨hk, a, b, hf, hm⟩ | ⟨hk, hf⟩
      · exact Or.inl ⟨by simp [hk], a, b, hf, by simp [nodes, hm]⟩
      · exact Or.inr ⟨by simp [hk, hright, hv.ne], hf⟩

/-- `FindMin` of a tree that is not empty: a node of the tree, with the least key. -/
theorem findMin_spec (h : t.Ordered) (hne : t ≠ null) :
    ∃ m l r, t.findMin = node m l r ∧ node m l r ∈ t.nodes ∧ m ∈ t.keys ∧ ∀ k ∈ t.keys, m ≤ k := by
  induction t with
  | null => exact absurd rfl hne
  | node v l r ihl _ =>
    obtain ⟨hl, hr, hol, _⟩ := h
    cases l with
    | null =>
      refine ⟨v, null, r, rfl, by simp [nodes], by simp, fun k hk => ?_⟩
      simp only [mem_keys_node, notMem_keys_null, false_or] at hk
      rcases hk with rfl | hk
      · exact le_rfl
      · exact (hr k hk).le
    | node w a b =>
      obtain ⟨m, c, d, hf, hn, hm, hle⟩ := ihl hol (by simp)
      refine ⟨m, c, d, hf, mem_nodes_left hn, by rw [mem_keys_node]; exact Or.inr (Or.inl hm), fun k hk => ?_⟩
      rw [mem_keys_node] at hk
      rcases hk with rfl | hk | hk
      · exact (hl m hm).le
      · exact hle k hk
      · exact ((hl m hm).trans (hr k hk)).le

/-- `FindMax` of a tree that is not empty: a node of the tree, with the greatest key. -/
theorem findMax_spec (h : t.Ordered) (hne : t ≠ null) :
    ∃ m l r, t.findMax = node m l r ∧ node m l r ∈ t.nodes ∧ m ∈ t.keys ∧ ∀ k ∈ t.keys, k ≤ m := by
  induction t with
  | null => exact absurd rfl hne
  | node v l r _ ihr =>
    obtain ⟨hl, hr, _, hor⟩ := h
    cases r with
    | null =>
      refine ⟨v, l, null, rfl, by simp [nodes], by simp, fun k hk => ?_⟩
      simp only [mem_keys_node, notMem_keys_null, or_false] at hk
      rcases hk with rfl | hk
      · exact le_rfl
      · exact (hl k hk).le
    | node w a b =>
      obtain ⟨m, c, d, hf, hn, hm, hle⟩ := ihr hor (by simp)
      refine ⟨m, c, d, hf, mem_nodes_right hn, by rw [mem_keys_node]; exact Or.inr (Or.inr hm), fun k hk => ?_⟩
      rw [mem_keys_node] at hk
      rcases hk with rfl | hk | hk
      · exact (hr m hm).le
      · exact ((hl k hk).trans (hr m hm)).le
      · exact hle k hk

/-! ## `Delete` -/

/-- `Delete` follows no null pointer, keeps the order and takes the key out. -/
theorem delete_spec (h : t.Ordered) (key : Int) : ∃ t', t.delete key = some t' ∧ t'.Ordered ∧ t'.keys = t.keys.erase key := by
  induction t generalizing key with
  | null => exact ⟨null, rfl, trivial, by simp [keys]⟩
  | node v l r ihl ihr =>
    obtain ⟨hl, hr, hol, hor⟩ := h
    have hvl : v ∉ l.keys := fun hk => lt_irrefl v (hl v hk)
    have hvr : v ∉ r.keys := fun hk => lt_irrefl v (hr v hk)
    unfold TreeNode.delete
    split
    · obtain ⟨l', hd, ho, hk⟩ := ihl hol key
      refine ⟨node v l' r, by rw [hd]; rfl, ⟨fun k hm => hl k ?_, hr, ho, hor⟩, ?_⟩
      · rw [hk] at hm
        exact mem_of_mem_erase hm
      · ext k
        simp only [mem_keys_node, mem_erase]
        constructor
        · grind
        · grind
    · split
      · obtain ⟨r', hd, ho, hk⟩ := ihr hor key
        refine ⟨node v l r', by rw [hd]; rfl, ⟨hl, fun k hm => hr k ?_, hol, ho⟩, ?_⟩
        · rw [hk] at hm
          exact mem_of_mem_erase hm
        · ext k
          simp only [mem_keys_node, mem_erase]
          constructor
          · grind
          · grind
      · obtain rfl : key = v := by omega
        have hrest : (node key l r).keys.erase key = l.keys ∪ r.keys := by
          rw [keys, erase_insert (by simp [hvl, hvr])]
        rw [hrest]
        split
        · -- Two children: the least key of the right subtree takes the place of the key, and leaves the right subtree.
          rename_i htwo
          obtain ⟨m, a, b, hf, _, hm, hle⟩ := findMin_spec hor htwo.2
          obtain ⟨r', hd, ho, hk⟩ := ihr hor m
          rw [hf]
          refine ⟨node m l r', by simp only [hd]; rfl, ⟨fun k hkl => (hl k hkl).trans (hr m hm), fun k hkr => ?_, hol, ho⟩, ?_⟩
          · grind
          · ext k
            simp only [mem_keys_node, hk, mem_erase]
            by_cases hkm : k = m
            · subst hkm
              simp [hm]
            · simp [hkm]
        · rename_i hone
          split
          · grind [keys]
          · rename_i hnull
            have hr0 : r = null := by
              by_contra hr0
              exact hone ⟨hnull, hr0⟩
            exact ⟨l, by rw [if_pos hr0], hol, by rw [hr0]; simp [keys]⟩

/-! ## Runs -/

/-- A call that changes the tree. -/
inductive Call where
  | insert (val : Int)
  | delete (key : Int)
  deriving DecidableEq, Repr

/-- One call on the tree. -/
def exec (t : TreeNode) : Call → Option (TreeNode × Call)
  | .insert val => some (t.insert val, .insert val)
  | .delete key => (t.delete key).map fun t' => (t', .delete key)

/-- The same call on a set of keys. -/
def onSet (S : Finset Int) : Call → Finset Int
  | .insert val => insert val S
  | .delete key => S.erase key

/-- One call returns, keeps the order and does to the keys what it does to the set. -/
theorem exec_spec (h : t.Ordered) (c : Call) : ∃ t', t.exec c = some (t', c) ∧ t'.Ordered ∧ t'.keys = onSet t.keys c := by
  cases c with
  | insert val => exact ⟨_, rfl, h.insert val, keys_insert t val⟩
  | delete key =>
    obtain ⟨t', hd, ho, hk⟩ := delete_spec h key
    exact ⟨t', by rw [exec, hd]; rfl, ho, hk⟩

end TreeNode

open TreeNode

/-- The search tree refines the set. After any calls of `insert` and `Delete` from the empty tree, the keys are in strict search order
and are those of the set under the same calls, and the next call returns. The two searches return the same node, which carries the
key, and null exactly when the set does not hold it; `FindMin` and `FindMax` return the nodes with the least and the greatest key,
and null exactly when the set is empty. -/
theorem bst_refines_set {cs : List Call} {t : TreeNode} (h : Run TreeNode.exec null cs t) :
    t.Ordered ∧ t.keys = cs.foldl onSet ∅ ∧ (∀ c, ∃ t', t.exec c = some (t', c)) ∧
    (∀ k, t.findRecursion k = t.findIteration k ∧ (t.findRecursion k ≠ null ↔ k ∈ t.keys) ∧
      (k ∈ t.keys → ∃ l r, t.findRecursion k = node k l r ∧ node k l r ∈ t.nodes)) ∧
    (t.findMin = null ↔ t.keys = ∅) ∧ (t.findMax = null ↔ t.keys = ∅) ∧
    (t.keys.Nonempty → (∃ m l r, t.findMin = node m l r ∧ node m l r ∈ t.nodes ∧ m ∈ t.keys ∧ ∀ k ∈ t.keys, m ≤ k) ∧
      ∃ m l r, t.findMax = node m l r ∧ node m l r ∈ t.nodes ∧ m ∈ t.keys ∧ ∀ k ∈ t.keys, k ≤ m) := by
  have hinv : t.Ordered ∧ t.keys = cs.foldl onSet ∅ := by
    induction h with
    | nil => exact ⟨trivial, rfl⟩
    | @snoc es s s' c e _ _ hx ih =>
      obtain ⟨t', hexec, ho, hk⟩ := exec_spec ih.1 c
      rw [hx, Option.some.injEq] at hexec
      obtain ⟨rfl, rfl⟩ := hexec
      rw [foldl_append, ← ih.2]
      exact ⟨ho, hk⟩
  obtain ⟨ho, hk⟩ := hinv
  refine ⟨ho, hk, fun c => ?_, fun k => ⟨(findIteration_eq t k).symm, ?_, fun hmem => ?_⟩, ?_, ?_, fun hne => ?_⟩
  · obtain ⟨t', hexec, _⟩ := exec_spec ho c
    exact ⟨t', hexec⟩
  · rcases findRecursion_spec ho k with ⟨hm, l, r, hf, _⟩ | ⟨hm, hf⟩
    · simp [hf, hm]
    · simp [hf, hm]
  · rcases findRecursion_spec ho k with ⟨_, hf⟩ | ⟨hm, _⟩
    · exact hf
    · exact absurd hmem hm
  · rw [keys_eq_empty]
    refine ⟨fun hmin => by_contra fun hne => ?_, fun he => by rw [he]; rfl⟩
    obtain ⟨m, l, r, hf, _⟩ := findMin_spec ho hne
    rw [hmin] at hf
    cases hf
  · rw [keys_eq_empty]
    refine ⟨fun hmax => by_contra fun hne => ?_, fun he => by rw [he]; rfl⟩
    obtain ⟨m, l, r, hf, _⟩ := findMax_spec ho hne
    rw [hmax] at hf
    cases hf
  · have ht : t ≠ null := fun he => hne.ne_empty (keys_eq_empty.2 he)
    exact ⟨findMin_spec ho ht, findMax_spec ho ht⟩

/-- A node with two children is deleted: its successor takes its place. -/
theorem bst_refines_set_successor :
    Run TreeNode.exec null [.insert 5, .insert 3, .insert 8, .insert 7, .delete 5] (node 7 (node 3 null null) (node 8 null null)) ∧
    (node 7 (node 3 null null) (node 8 null null)).Ordered ∧
    (node 7 (node 3 null null) (node 8 null null)).keys = {3, 7, 8} := by
  have h : Run TreeNode.exec null [.insert 5, .insert 3, .insert 8, .insert 7, .delete 5]
      (node 7 (node 3 null null) (node 8 null null)) :=
    run_of_execAll [.insert 5, .insert 3, .insert 8, .insert 7, .delete 5] (by decide)
  have hspec := bst_refines_set h
  exact ⟨h, hspec.1, hspec.2.1.trans (by decide)⟩

end CsLearning.DsAlgo
