import CsLearning.Lib.WeightedTree

/-!
# `Huffman.h`: building a Huffman tree

`Huffman<T>::creat` makes a tree of one node of each weight, and then, as often as there are trees but one, sorts the forest by the keys
of the roots, joins the first two trees under a new root and puts it at the end. `creat_optimal` says that it ends with a full tree over
the given weights that no full tree over them beats in weighted path length, in whatever order the sort leaves equal keys.

The type of the keys is any ordered commutative monoid, so the sums are exact. `creat_keys_le` says that no key the construction
computes exceeds the sum of the weights.
-/

open List Option

namespace CsLearning.DsAlgo

/-- A pointer to a node with what it points to: `HuffmanNode<T>*`. -/
inductive HuffmanNode (T : Type) where
  | nullptr
  | node (key : T) (lchild rchild : HuffmanNode T)
  deriving DecidableEq, Repr

namespace HuffmanNode

variable {T : Type}

/-- `p->key`; there is none behind a null pointer. -/
def keyOf : HuffmanNode T → Option T
  | nullptr => none
  | node k _ _ => some k

/-- The comparison `a->key < b->key` the forest is sorted by. -/
def keyLess [LT T] [DecidableLT T] (a b : HuffmanNode T) : Bool :=
  match a.keyOf, b.keyOf with
  | some x, some y => decide (x < y)
  | _, _ => false

/-- Every node has two children, and the sum of their keys as its key, or has none. -/
def Full [Add T] : HuffmanNode T → Prop
  | nullptr => False
  | node _ nullptr nullptr => True
  | node k l r => l.Full ∧ r.Full ∧ ∃ x y, l.keyOf = some x ∧ r.keyOf = some y ∧ k = x + y

/-- The leaves of a tree whose root is at depth `d`: their depths and keys. -/
def leaves : Nat → HuffmanNode T → Multiset (Nat × T)
  | _, nullptr => 0
  | d, node k nullptr nullptr => {(d, k)}
  | d, node _ l r => leaves (d + 1) l + leaves (d + 1) r

/-- The keys of the leaves. -/
def leafKeys (p : HuffmanNode T) : Multiset T := (p.leaves 0).map Prod.snd

/-- The weighted path length: the sum over the leaves of key times depth. -/
def wpl [AddCommMonoid T] (p : HuffmanNode T) : T := cost (p.leaves 0)

/-- The keys of all nodes. -/
def keys : HuffmanNode T → List T
  | nullptr => []
  | node k l r => k :: (keys l ++ keys r)

end HuffmanNode

/-- An object of the class: the root of its tree, and the forest, which is empty between the calls. -/
structure Huffman (T : Type) where
  root : HuffmanNode T
  forest : List (HuffmanNode T)
  cleared : forest = []

section Creat

open HuffmanNode

variable {T : Type} [Add T]

/-- The constructor. -/
def Huffman.new (T : Type) : Huffman T := ⟨nullptr, [], rfl⟩

/-- The body of the second loop behind the sort: join the first two trees, push the new one, pop the two. -/
def joinFirst (forest : List (HuffmanNode T)) : Option (List (HuffmanNode T)) := do
  let a ← forest[0]?
  let b ← forest[1]?
  let x ← a.keyOf
  let y ← b.keyOf
  some (forest ++ [node (x + y) a b]).tail.tail

/-- The second loop, from the iteration `i` on, for `k` iterations. `sort i` is what the sort makes of the forest in the
iteration `i`. -/
def joinLoop (sort : Nat → List (HuffmanNode T) → List (HuffmanNode T)) :
    Nat → Nat → List (HuffmanNode T) → Option (List (HuffmanNode T))
  | 0, _, forest => some forest
  | k + 1, i, forest => (joinFirst (sort i forest)).bind (joinLoop sort k (i + 1))

/-- `creat`, for the weights `a`. The result is nothing when a member of the forest is missing or a null pointer is followed. -/
def creat (sort : Nat → List (HuffmanNode T) → List (HuffmanNode T)) (h : Huffman T) (a : List T) : Option (Huffman T) := do
  let seeded := a.foldl (fun forest w => forest ++ [node w nullptr nullptr]) h.forest
  let joined ← joinLoop sort (a.length - 1) 0 seeded
  let front ← joined.head?
  some ⟨front, [], rfl⟩

end Creat

/-- What `std::sort` promises for a forest without null pointers: the same trees, none behind one with a greater key. -/
structure SortsByKey {T : Type} [LT T] [DecidableLT T] (sort : List (HuffmanNode T) → List (HuffmanNode T)) : Prop where
  perm : ∀ forest, .nullptr ∉ forest → (sort forest).Perm forest
  sorted : ∀ forest, .nullptr ∉ forest → (sort forest).Pairwise fun a b => b.keyLess a = false

/-! ## Full trees -/

namespace HuffmanNode

variable {T : Type}

variable {p l r : HuffmanNode T}

theorem Full.ne_nullptr [Add T] (h : p.Full) : p ≠ nullptr := by
  rintro rfl
  exact h

/-- A node with two children is full when they are, and its key is the sum of theirs. -/
theorem full_node [Add T] {k : T} (hl : l.Full) (hr : r.Full) : (node k l r).Full ↔ ∃ x y, l.keyOf = some x ∧ r.keyOf = some y ∧ k = x + y := by
  cases l with
  | nullptr => cases hl
  | node => exact ⟨fun h => h.2.2, fun h => ⟨hl, hr, h⟩⟩

theorem leaves_node [Add T] {k : T} (hl : l.Full) (d : Nat) : (node k l r).leaves d = l.leaves (d + 1) + r.leaves (d + 1) := by
  cases l with
  | nullptr => cases hl
  | node => rfl

@[elab_as_elim]
theorem Full.induction [Add T] {motive : (p : HuffmanNode T) → p.Full → Prop} (leaf : ∀ k h, motive (node k nullptr nullptr) h)
    (node : ∀ k l r hl hr h, motive l hl → motive r hr → (∃ x y, l.keyOf = some x ∧ r.keyOf = some y ∧ k = x + y) →
      motive (node k l r) h) (p : HuffmanNode T) (h : p.Full) : motive p h := by
  induction p with
  | nullptr => cases h
  | node k l r ihl ihr =>
    cases l with
    | nullptr =>
      cases r with
      | nullptr => exact leaf k h
      | node => exact (h.1 : False).elim
    | node => exact node k _ r h.1 h.2.1 h (ihl h.1) (ihr h.2.1) h.2.2

theorem Full.exists_tree [Add T] (h : p.Full) : ∃ t : WTree T, ∀ d, t.leaves d = p.leaves d := by
  induction p, h using Full.induction with
  | leaf k => exact ⟨.leaf k, fun _ => rfl⟩
  | node k l r hl _ _ ihl ihr _ =>
    obtain ⟨tl, htl⟩ := ihl
    obtain ⟨tr, htr⟩ := ihr
    exact ⟨.node tl tr, fun d => by rw [WTree.leaves, htl, htr, leaves_node hl]⟩

section Sums

variable [AddCommMonoid T]

variable {p l r : HuffmanNode T}

theorem Full.cost_leaves_one (h : p.Full) : cost (p.leaves 1) = p.wpl + p.leafKeys.sum := by
  obtain ⟨t, ht⟩ := h.exists_tree
  rw [wpl, leafKeys, ← ht, ← ht, WTree.leaves_succ, cost_deeper]

theorem leafKeys_node {k : T} (hl : l.Full) (hr : r.Full) : (node k l r).leafKeys = l.leafKeys + r.leafKeys := by
  obtain ⟨tl, htl⟩ := hl.exists_tree
  obtain ⟨tr, htr⟩ := hr.exists_tree
  simp only [leafKeys, leaves_node hl, Multiset.map_add, ← htl, ← htr, WTree.map_snd_leaves]

theorem wpl_node {k : T} (hl : l.Full) (hr : r.Full) : (node k l r).wpl = l.wpl + r.wpl + (l.leafKeys.sum + r.leafKeys.sum) := by
  rw [wpl, leaves_node hl, cost_add, hl.cost_leaves_one, hr.cost_leaves_one]
  abel

theorem Full.keyOf_eq (h : p.Full) : p.keyOf = some p.leafKeys.sum := by
  induction p, h using Full.induction with
  | leaf k => simp [keyOf, leafKeys, leaves]
  | node k l r hl hr _ ihl ihr hk =>
    obtain ⟨x, y, hx, hy, rfl⟩ := hk
    rw [ihl, some.injEq] at hx
    rw [ihr, some.injEq] at hy
    rw [leafKeys_node hl hr, Multiset.sum_add, hx, hy]
    rfl

theorem Full.join (hl : l.Full) (hr : r.Full) : (node (l.leafKeys.sum + r.leafKeys.sum) l r).Full :=
  (full_node hl hr).2 ⟨_, _, hl.keyOf_eq, hr.keyOf_eq, rfl⟩

/-- When the keys of the leaves are not negative, no key exceeds their sum. -/
theorem Full.keys_le [PartialOrder T] [IsOrderedAddMonoid T] (h : p.Full) (hpos : ∀ w ∈ p.leafKeys, 0 ≤ w) : ∀ k ∈ p.keys, k ≤ p.leafKeys.sum := by
  induction p, h using Full.induction with
  | leaf k => simp [keys, leafKeys, leaves]
  | node k l r hl hr h ihl ihr _ =>
    rw [leafKeys_node hl hr] at hpos
    have hposl : ∀ w ∈ l.leafKeys, 0 ≤ w := fun w hw => hpos w (Multiset.mem_add.2 (Or.inl hw))
    have hposr : ∀ w ∈ r.leafKeys, 0 ≤ w := fun w hw => hpos w (Multiset.mem_add.2 (Or.inr hw))
    intro x hx
    rw [keys, mem_cons, mem_append] at hx
    rcases hx with rfl | hx | hx
    · exact le_of_eq (some.inj h.keyOf_eq)
    · rw [leafKeys_node hl hr, Multiset.sum_add]
      exact (ihl hposl x hx).trans (le_add_of_nonneg_right (Multiset.sum_nonneg hposr))
    · rw [leafKeys_node hl hr, Multiset.sum_add]
      exact (ihr hposr x hx).trans (le_add_of_nonneg_left (Multiset.sum_nonneg hposl))

end Sums

end HuffmanNode

/-! ## The loop -/

section Loop

open HuffmanNode

variable {T : Type}

theorem seeded_eq (a : List T) (F : List (HuffmanNode T)) :
    a.foldl (fun forest w => forest ++ [node w nullptr nullptr]) F = F ++ a.map fun w => node w nullptr nullptr := by
  induction a generalizing F with
  | nil => simp
  | cons w a ih => rw [foldl_cons, ih, map_cons, append_assoc, singleton_append]

variable [AddCommMonoid T]

theorem seeded_sums (a : List T) : ((a.map fun w => node w nullptr nullptr).map HuffmanNode.leafKeys).sum = (a : Multiset T) ∧
    ((a.map fun w => node w nullptr nullptr).map HuffmanNode.wpl).sum = 0 := by
  induction a with
  | nil => exact ⟨rfl, rfl⟩
  | cons w a ih =>
    simp only [map_cons, sum_cons, ih.1, ih.2]
    exact ⟨rfl, by simp [HuffmanNode.wpl, leaves, cost]⟩

variable {a b r : HuffmanNode T} {rest F : List (HuffmanNode T)} {sort : Nat → List (HuffmanNode T) → List (HuffmanNode T)}

theorem joinFirst_cons (ha : a.Full) (hb : b.Full) (rest : List (HuffmanNode T)) :
    joinFirst (a :: b :: rest) = some (rest ++ [node (a.leafKeys.sum + b.leafKeys.sum) a b]) := by
  simp [joinFirst, ha.keyOf_eq, hb.keyOf_eq]

/-- The keys of the roots of a forest of full trees. -/
def rootKeys (forest : List (HuffmanNode T)) : Multiset T := (forest.map fun p => p.leafKeys.sum : List T)

variable [LinearOrder T]

/-- What the loop makes of a forest: one full tree over all its leaves, which costs `c` more than the trees of the forest, and no tree
over the roots costs less than `c`. -/
structure Joined (forest : List (HuffmanNode T)) (r : HuffmanNode T) (c : T) : Prop where
  full : r.Full
  leafKeys : r.leafKeys = (forest.map leafKeys).sum
  wpl : r.wpl = (forest.map wpl).sum + c
  least : ∀ t : WTree T, t.weights = rootKeys forest → c ≤ cost (t.leaves 0)

theorem Joined.single (h : r.Full) : Joined [r] r 0 := by
  refine ⟨h, by simp, by simp, fun t ht => ?_⟩
  -- A tree with one leaf costs nothing.
  rcases t.exists_deepest 0 with ⟨w, rfl⟩ | ⟨d, p, q, R, hd⟩
  · simp [WTree.leaves, cost]
  · have := congrArg Multiset.card ht
    simp [WTree.weights, hd.pair, rootKeys] at this

theorem sorted_cons (hf : ∀ p ∈ a :: b :: rest, p.Full) (hs : (a :: b :: rest).Pairwise fun a b => b.keyLess a = false) :
    a.leafKeys.sum ≤ b.leafKeys.sum ∧ ∀ p ∈ rest, b.leafKeys.sum ≤ p.leafKeys.sum := by
  have hle : ∀ {p q : HuffmanNode T}, p.Full → q.Full → q.keyLess p = false → p.leafKeys.sum ≤ q.leafKeys.sum := by
    intro p q hp hq h
    simpa [keyLess, hp.keyOf_eq, hq.keyOf_eq] using h
  obtain ⟨ha, hs⟩ := pairwise_cons.1 hs
  obtain ⟨hb, _⟩ := pairwise_cons.1 hs
  refine ⟨hle (hf a (by simp)) (hf b (by simp)) (ha b (by simp)), fun p hp => ?_⟩
  exact hle (hf b (by simp)) (hf p (by simp [hp])) (hb p hp)

/-- The join does not depend on the order of the forest. -/
theorem Joined.perm {F F' : List (HuffmanNode T)} {c : T} (hp : F'.Perm F) (h : Joined F' r c) : Joined F r c := by
  refine ⟨h.full, ?_, ?_, fun t ht => h.least t ?_⟩
  · rw [h.leafKeys, (hp.map HuffmanNode.leafKeys).sum_eq]
  · rw [h.wpl, (hp.map HuffmanNode.wpl).sum_eq]
  · rw [ht]
    exact (Multiset.coe_eq_coe.2 (hp.map _)).symm

variable [IsOrderedAddMonoid T]

theorem Joined.step {c : T} (ha : a.Full) (hb : b.Full) (hab : a.leafKeys.sum ≤ b.leafKeys.sum) (hr : ∀ p ∈ rest, b.leafKeys.sum ≤ p.leafKeys.sum)
    (h : Joined (rest ++ [node (a.leafKeys.sum + b.leafKeys.sum) a b]) r c) :
    Joined (a :: b :: rest) r (c + (a.leafKeys.sum + b.leafKeys.sum)) := by
  refine ⟨h.full, ?_, ?_, fun t ht => ?_⟩
  · rw [h.leafKeys]
    simp only [map_append, map_cons, sum_append, sum_cons, leafKeys_node ha hb]
    abel
  · rw [h.wpl]
    simp only [map_append, map_cons, map_nil, sum_append, sum_cons, sum_nil, wpl_node ha hb]
    abel
  · have hM : ∀ m ∈ rootKeys rest, b.leafKeys.sum ≤ m := by
      intro m hm
      obtain ⟨p, hp, rfl⟩ := List.mem_map.1 (Multiset.mem_coe.1 hm)
      exact hr p hp
    obtain ⟨t', hw, hc⟩ := t.exists_merged (M := rootKeys rest) ht hab hM
    refine le_trans (add_le_add_left (h.least t' ?_) _) hc
    rw [hw, rootKeys, rootKeys, map_append, map_singleton, leafKeys_node ha hb, Multiset.sum_add, ← Multiset.singleton_add, add_comm]
    rfl

theorem joinLoop_joined (hsort : ∀ i, SortsByKey (sort i)) (k i : Nat) (hlen : F.length = k + 1) (hf : ∀ p ∈ F, p.Full) :
    ∃ r c, joinLoop sort k i F = some [r] ∧ Joined F r c := by
  induction k generalizing i F with
  | zero =>
    obtain ⟨r, rfl⟩ := length_eq_one_iff.1 hlen
    exact ⟨r, 0, rfl, Joined.single (hf r (by simp))⟩
  | succ k ih =>
    have hnull : nullptr ∉ F := fun h => (hf _ h).ne_nullptr rfl
    have hperm := (hsort i).perm F hnull
    have hsorted := (hsort i).sorted F hnull
    have hf' : ∀ p ∈ sort i F, p.Full := fun p hp => hf p (hperm.mem_iff.1 hp)
    have hlen' : (sort i F).length = k + 2 := hperm.length_eq.trans hlen
    rcases hF : sort i F with _ | ⟨a, _ | ⟨b, rest⟩⟩
    · simp [hF] at hlen'
    · simp [hF] at hlen'
    rw [hF] at hperm hsorted hf' hlen'
    have ha : a.Full := hf' a (by simp)
    have hb : b.Full := hf' b (by simp)
    obtain ⟨hab, hr⟩ := sorted_cons hf' hsorted
    have hn : ∀ p ∈ rest ++ [node (a.leafKeys.sum + b.leafKeys.sum) a b], p.Full := by
      intro p hp
      rcases mem_append.1 hp with hp | hp
      · exact hf' p (by simp [hp])
      · rw [mem_singleton.1 hp]
        exact ha.join hb
    obtain ⟨r, c, hl, hj⟩ := ih (i + 1) (by simp at hlen' ⊢; omega) hn
    refine ⟨r, _, ?_, (hj.step ha hb hab hr).perm hperm⟩
    rw [joinLoop, hF, joinFirst_cons ha hb, bind_some, hl]

theorem creat_joined (hsort : ∀ i, SortsByKey (sort i)) (h : Huffman T) {a : List T} (ha : a ≠ []) :
    ∃ r c, creat sort h a = some ⟨r, [], rfl⟩ ∧ Joined (a.map fun w => node w nullptr nullptr) r c := by
  have hlen : (a.map fun w => node w nullptr nullptr).length = a.length - 1 + 1 := by
    have := length_pos_iff.2 ha
    rw [length_map]
    omega
  have hf : ∀ p ∈ a.map (fun w => node w nullptr nullptr), p.Full := by
    intro p hp
    obtain ⟨w, _, rfl⟩ := List.mem_map.1 hp
    trivial
  obtain ⟨r, c, hl, hj⟩ := joinLoop_joined hsort (a.length - 1) 0 hlen hf
  refine ⟨r, c, ?_, hj⟩
  rw [creat, seeded_eq, h.cleared, nil_append, hl]
  rfl

/-- Huffman's construction, for any weights, at least one, and any order the sorts leave equal keys in. It ends with a full tree whose
leaves carry exactly the weights, and no full tree over the same weights has a smaller weighted path length. -/
theorem creat_optimal {sort : Nat → List (HuffmanNode T) → List (HuffmanNode T)} (hsort : ∀ i, SortsByKey (sort i)) (h : Huffman T)
    (a : List T) (ha : a ≠ []) :
    ∃ h', creat sort h a = some h' ∧ h'.root.Full ∧ h'.root.leafKeys = (a : Multiset T) ∧
      ∀ u : HuffmanNode T, u.Full → u.leafKeys = (a : Multiset T) → h'.root.wpl ≤ u.wpl := by
  obtain ⟨r, c, hcreat, hj⟩ := creat_joined hsort h ha
  obtain ⟨hkeys, hwpl⟩ := seeded_sums a
  refine ⟨_, hcreat, hj.full, hj.leafKeys.trans hkeys, fun u hu hua => ?_⟩
  obtain ⟨t, ht⟩ := hu.exists_tree
  have hroots : rootKeys (a.map fun w => node w nullptr nullptr) = (a : Multiset T) := by
    simp [rootKeys, Function.comp_def, HuffmanNode.leafKeys, leaves]
  have hw : t.weights = rootKeys (a.map fun w => node w nullptr nullptr) := by
    rw [hroots, ← hua, WTree.weights, ht, HuffmanNode.leafKeys]
  rw [hj.wpl, hwpl, zero_add, HuffmanNode.wpl, ← ht]
  exact hj.least t hw

/-- No key of the tree exceeds the sum of the weights when these are not negative: with a machine type for the keys no addition of
`creat` overflows as long as that sum fits. -/
theorem creat_keys_le (hsort : ∀ i, SortsByKey (sort i)) {h h' : Huffman T}
    {a : List T} (ha : a ≠ []) (hpos : ∀ w ∈ a, 0 ≤ w) (hcreat : creat sort h a = some h') : ∀ k ∈ h'.root.keys, k ≤ a.sum := by
  obtain ⟨r, c, he, hj⟩ := creat_joined hsort h ha
  rw [hcreat, some.injEq] at he
  have hk : h'.root.leafKeys = (a : Multiset T) := by rw [he]; exact hj.leafKeys.trans (seeded_sums a).1
  have hf : h'.root.Full := by rw [he]; exact hj.full
  rw [← Multiset.sum_coe, ← hk]
  exact hf.keys_le fun w hw => hpos w (by simpa [hk] using hw)

end Loop

/-- The order of the keys. -/
def keyLe (a b : HuffmanNode Nat) : Bool := decide (a.keyOf.getD 0 ≤ b.keyOf.getD 0)

/-- A sort by the keys that keeps the order of equal ones. -/
def stableSort (forest : List (HuffmanNode Nat)) : List (HuffmanNode Nat) := forest.mergeSort keyLe

theorem stableSort_sorts : SortsByKey stableSort := by
  refine ⟨fun forest _ => mergeSort_perm forest keyLe, fun forest _ => ?_⟩
  have hle : (stableSort forest).Pairwise (keyLe · ·) :=
    pairwise_mergeSort (fun a b c hab hbc => by simp [keyLe] at hab hbc ⊢; omega) (fun a b => by simp [keyLe]; omega) forest
  refine hle.imp fun {a b} h => ?_
  cases a with
  | nullptr => cases b <;> rfl
  | node k _ _ =>
    cases b with
    | nullptr => rfl
    | node k' _ _ =>
      have hk : k ≤ k' := of_decide_eq_true h
      simpa [HuffmanNode.keyLess, HuffmanNode.keyOf] using hk

/-- The weights of the source's `main`. -/
theorem creat_optimal_fourWeights : ∃ h', creat (fun _ => stableSort) (Huffman.new Nat) [10, 20, 30, 40] = some h' ∧
    h'.root.leafKeys = {10, 20, 30, 40} ∧ ∀ u : HuffmanNode Nat, u.Full → u.leafKeys = {10, 20, 30, 40} → h'.root.wpl ≤ u.wpl := by
  obtain ⟨h', h1, _, h2, h3⟩ := creat_optimal (fun _ => stableSort_sorts) (Huffman.new Nat) [10, 20, 30, 40] (by decide)
  exact ⟨h', h1, h2, h3⟩

theorem creat_keys_le_fourWeights : ∃ h', creat (fun _ => stableSort) (Huffman.new Nat) [10, 20, 30, 40] = some h' ∧
    ∀ k ∈ h'.root.keys, k ≤ 100 := by
  obtain ⟨r, c, he, -⟩ := creat_joined (fun _ => stableSort_sorts) (Huffman.new Nat) (show [10, 20, 30, 40] ≠ [] by decide)
  exact ⟨_, he, creat_keys_le (fun _ => stableSort_sorts) (by decide) (by simp) he⟩

end CsLearning.DsAlgo
