import Mathlib

/-!
# Weighted binary trees

Full binary trees with a weight at each leaf. A tree is judged by its leaves with their depths, a multiset of pairs; the cost of such a
multiset is the sum of the weights, each as often as its depth says.

`exists_merged` is the step of every greedy construction of a cheapest tree: when `x` and `y` are the two smallest weights of a tree,
some tree over the other weights and `x + y` is cheaper by `x + y` at least. A tree has two deepest leaves that are siblings
(`exists_deepest`), the weights can be dealt to its leaves in any way (`exists_relabel`), and a small weight may change places with one
that is deeper (`exists_exchange`).
-/

open Prod Multiset

namespace CsLearning

/-- A full binary tree with weights at its leaves. -/
inductive WTree (T : Type*) where
  | leaf (w : T)
  | node (l r : WTree T)

variable {T : Type*}

/-- The leaves of a tree whose root is at depth `d`: their depths and weights. -/
def WTree.leaves : Nat → WTree T → Multiset (Nat × T)
  | d, leaf w => {(d, w)}
  | d, node l r => leaves (d + 1) l + leaves (d + 1) r

/-- The weights of the leaves. -/
def WTree.weights (t : WTree T) : Multiset T := (t.leaves 0).map Prod.snd

/-- The sum of the weights, each as often as its depth says. -/
def cost [AddCommMonoid T] (S : Multiset (Nat × T)) : T := (S.map fun a => a.1 • a.2).sum

section Cost

variable [AddCommMonoid T]

@[simp] theorem cost_zero : cost (0 : Multiset (Nat × T)) = 0 := rfl

@[simp] theorem cost_cons (a : Nat × T) (S : Multiset (Nat × T)) : cost (a ::ₘ S) = a.1 • a.2 + cost S := by
  simp [cost]

@[simp] theorem cost_add (S S' : Multiset (Nat × T)) : cost (S + S') = cost S + cost S' := by
  simp only [cost, map_add, sum_add]

theorem cost_deeper (S : Multiset (Nat × T)) : cost (S.map fun a => (a.1 + 1, a.2)) = cost S + (S.map snd).sum := by
  induction S using Multiset.induction with
  | empty => simp
  | cons a S ih =>
    simp only [Multiset.map_cons, cost_cons, Multiset.sum_cons, ih, succ_nsmul]
    abel

end Cost

theorem WTree.leaves_succ (d : Nat) (t : WTree T) : t.leaves (d + 1) = (t.leaves d).map fun a => (a.1 + 1, a.2) := by
  induction t generalizing d with
  | leaf w => rfl
  | node l r ihl ihr => rw [leaves, leaves, map_add, ihl, ihr]

theorem WTree.leaves_node_comm (d : Nat) (l r : WTree T) : (node l r).leaves d = r.leaves (d + 1) + l.leaves (d + 1) := add_comm _ _

/-- The weights do not depend on the depth of the root. -/
theorem WTree.map_snd_leaves (d : Nat) (t : WTree T) : (t.leaves d).map snd = t.weights := by
  induction d with
  | zero => rfl
  | succ d ih => simpa [leaves_succ] using ih

/-! ## Dealing the weights to the leaves -/

/-- A multiset whose image splits is split in the same way. -/
theorem exists_map_split {α β : Type*} (f : α → β) {S : Multiset α} {A B : Multiset β} (h : S.map f = A + B) :
    ∃ S1 S2, S = S1 + S2 ∧ S1.map f = A ∧ S2.map f = B := by
  classical
  induction A using Multiset.induction generalizing S with
  | empty => exact ⟨0, S, by simp, rfl, by simpa using h⟩
  | cons b A ih =>
    rw [Multiset.cons_add, ← Multiset.map_eq_cons] at h
    obtain ⟨a, ha, rfl, h⟩ := h
    obtain ⟨S1, S2, hS, h1, h2⟩ := ih h
    refine ⟨a ::ₘ S1, S2, ?_, by rw [Multiset.map_cons, h1], h2⟩
    rw [Multiset.cons_add, ← hS, Multiset.cons_erase ha]

variable {S R : Multiset (Nat × T)}

theorem WTree.exists_relabel (d : Nat) (t : WTree T) (h : S.map fst = (t.leaves d).map fst) : ∃ t' : WTree T, t'.leaves d = S := by
  induction t generalizing d S with
  | leaf w =>
    obtain ⟨a, rfl, ha⟩ := map_eq_singleton.1 h
    have ha : a.1 = d := ha
    exact ⟨leaf a.2, by rw [leaves, ← ha]⟩
  | node l r ihl ihr =>
    rw [leaves, map_add] at h
    obtain ⟨S1, S2, rfl, h1, h2⟩ := exists_map_split _ h
    obtain ⟨l', rfl⟩ := ihl _ h1
    obtain ⟨r', rfl⟩ := ihr _ h2
    exact ⟨node l' r', rfl⟩

/-! ## The deepest leaves -/

/-- The leaves `S` of a tree whose root is at depth `k` have a pair of siblings below the depth `d`, and no leaf is deeper. With a leaf
in the place of the pair there is a tree too. -/
structure Deepest (k d : Nat) (p q : T) (R S : Multiset (Nat × T)) : Prop where
  le : k ≤ d
  pair : S = (d + 1, p) ::ₘ (d + 1, q) ::ₘ R
  bound : ∀ a ∈ R, a.1 ≤ d + 1
  pruned : ∃ t₀ : WTree T, (t₀.leaves k).map Prod.fst = d ::ₘ R.map Prod.fst

theorem Deepest.all_le {k d : Nat} {p q : T} (h : Deepest k d p q R S) : ∀ a ∈ S, a.1 ≤ d + 1 := by
  intro a ha
  rw [h.pair, mem_cons, mem_cons] at ha
  rcases ha with rfl | rfl | ha
  · exact le_rfl
  · exact le_rfl
  · exact h.bound a ha

/-- A deepest pair of one subtree is one of the tree, when the other subtree is no deeper. -/
theorem Deepest.node {k d : Nat} {p q : T} (h : Deepest (k + 1) d p q R S) (r : WTree T)
    (hr : ∀ a ∈ r.leaves (k + 1), a.1 ≤ d + 1) : Deepest k d p q (R + r.leaves (k + 1)) (S + r.leaves (k + 1)) := by
  obtain ⟨t₀, ht0⟩ := h.pruned
  refine ⟨Nat.le_of_succ_le h.le, by rw [h.pair]; simp, fun a ha => ?_, WTree.node t₀ r, ?_⟩
  · rcases mem_add.1 ha with ha | ha
    · exact h.bound a ha
    · exact hr a ha
  · rw [WTree.leaves, map_add, ht0, map_add, cons_add]

theorem WTree.exists_deepest (k : Nat) (t : WTree T) : (∃ w, t = leaf w) ∨ ∃ d p q R, Deepest k d p q R (t.leaves k) := by
  induction t generalizing k with
  | leaf w => exact Or.inl ⟨w, rfl⟩
  | node l r ihl ihr =>
    right
    rcases ihl (k + 1) with ⟨p, rfl⟩ | ⟨d, p, q, R, hl⟩
    · rcases ihr (k + 1) with ⟨q, rfl⟩ | ⟨d, p', q, R, hr⟩
      · exact ⟨k, p, q, 0, le_rfl, rfl, by simp, leaf p, rfl⟩
      · refine ⟨d, p', q, R + (leaf p).leaves (k + 1), ?_⟩
        rw [leaves_node_comm]
        refine hr.node (leaf p) fun a ha => ?_
        rw [leaves, mem_singleton] at ha
        exact ha ▸ Nat.le_succ_of_le hr.le
    · rcases ihr (k + 1) with ⟨w, rfl⟩ | ⟨d', p', q', R', hr⟩
      · refine ⟨d, p, q, _, hl.node (leaf w) fun a ha => ?_⟩
        rw [leaves, mem_singleton] at ha
        exact ha ▸ Nat.le_succ_of_le hl.le
      · -- The pair of the deeper subtree is the deepest.
        rcases Nat.le_total d' d with hd | hd
        · exact ⟨d, p, q, _, hl.node r fun a ha => le_trans (hr.all_le a ha) (by omega)⟩
        · refine ⟨d', p', q', R' + l.leaves (k + 1), ?_⟩
          rw [leaves_node_comm]
          exact hr.node l fun a ha => le_trans (hl.all_le a ha) (by omega)

/-! ## Exchanging weights -/

section Exchange

variable [AddCommMonoid T] [LinearOrder T] [IsOrderedAddMonoid T]

/-- A smaller weight changes places with one that is no higher, and the cost does not grow. -/
theorem smul_exchange {e D : Nat} {x p : T} (he : e ≤ D) (hx : x ≤ p) : D • x + e • p ≤ D • p + e • x := by
  obtain ⟨k, rfl⟩ := Nat.exists_eq_add_of_le he
  calc (e + k) • x + e • p = e • x + e • p + k • x := by rw [add_nsmul]; abel
    _ ≤ e • x + e • p + k • p := by gcongr
    _ = (e + k) • p + e • x := by rw [add_nsmul]; abel

/-- A weight `p` at the greatest depth `D` changes places with a smaller weight `x`. -/
theorem exists_exchange {S : Multiset (Nat × T)} {D : Nat} {p x : T} (hD : ∀ a ∈ S, a.1 ≤ D) (hx : x ∈ p ::ₘ S.map snd) (hle : x ≤ p) :
    ∃ S', S'.map fst = S.map fst ∧ x ::ₘ S'.map snd = p ::ₘ S.map snd ∧ D • x + cost S' ≤ D • p + cost S := by
  rcases mem_cons.1 hx with rfl | hx
  · exact ⟨S, rfl, rfl, le_rfl⟩
  · obtain ⟨a, ha, rfl⟩ := mem_map.1 hx
    obtain ⟨R, rfl⟩ := exists_cons_of_mem ha
    refine ⟨(a.1, p) ::ₘ R, by simp, by simp [cons_swap], ?_⟩
    rw [cost_cons, cost_cons, ← add_assoc, ← add_assoc]
    exact add_le_add_left (smul_exchange (hD a ha) hle) (cost R)

/-- When `x` and `y` are the smallest weights of a tree, there is a tree over `x + y` and the other weights that is cheaper by `x + y`
at least. -/
theorem WTree.exists_merged (t : WTree T) {x y : T} {M : Multiset T} (ht : t.weights = x ::ₘ y ::ₘ M) (hxy : x ≤ y) (hM : ∀ m ∈ M, y ≤ m) :
    ∃ t' : WTree T, t'.weights = (x + y) ::ₘ M ∧ cost (t'.leaves 0) + (x + y) ≤ cost (t.leaves 0) := by
  rcases t.exists_deepest 0 with ⟨w, rfl⟩ | ⟨d, p, q, R, hdeep⟩
  · have := congrArg card ht
    simp [weights, leaves] at this
  have hall : x ::ₘ y ::ₘ M = p ::ₘ ((d + 1, q) ::ₘ R).map snd := by
    rw [← ht, weights, hdeep.pair, map_cons]
  -- First `x` takes the place of `p`; then a leaf of the same depth is left for `y`.
  have hxp : x ≤ p := by
    have hp : p ∈ x ::ₘ y ::ₘ M := hall ▸ mem_cons_self _ _
    rcases mem_cons.1 hp with rfl | hp
    · exact le_rfl
    · grind
  have hbound : ∀ a ∈ (d + 1, q) ::ₘ R, a.1 ≤ d + 1 := by
    intro a ha
    rcases mem_cons.1 ha with rfl | ha
    · exact le_rfl
    · exact hdeep.bound a ha
  obtain ⟨S1, hfst1, hsnd1, hcost1⟩ := exists_exchange hbound (hall ▸ mem_cons_self x _) hxp
  rw [← hall, cons_inj_right] at hsnd1
  have hd : d + 1 ∈ S1.map fst := by rw [hfst1]; simp
  obtain ⟨⟨d1, q1⟩, hq1, rfl⟩ := mem_map.1 hd
  obtain ⟨R1, rfl⟩ := exists_cons_of_mem hq1
  rw [map_cons, map_cons, cons_inj_right] at hfst1
  rw [map_cons] at hsnd1
  have hyq : y ≤ q1 := by
    have hq : q1 ∈ y ::ₘ M := hsnd1 ▸ mem_cons_self _ _
    rcases mem_cons.1 hq with rfl | hq
    · exact le_rfl
    · exact hM q1 hq
  have hbound1 : ∀ a ∈ R1, a.1 ≤ d + 1 := by
    intro a ha
    obtain ⟨b, hb, hba⟩ := mem_map.1 (hfst1 ▸ mem_map_of_mem fst ha)
    exact hba ▸ hdeep.bound b hb
  obtain ⟨S2, hfst2, hsnd2, hcost2⟩ := exists_exchange hbound1 (hsnd1 ▸ mem_cons_self y M) hyq
  rw [hsnd1, cons_inj_right] at hsnd2
  -- The pair `x`, `y` becomes one leaf.
  obtain ⟨t₀, ht0⟩ := hdeep.pruned
  obtain ⟨t', ht'⟩ := t₀.exists_relabel 0 (S := (d, x + y) ::ₘ S2) (by rw [ht0, map_cons, hfst2, hfst1])
  refine ⟨t', by rw [weights, ht', map_cons, hsnd2], ?_⟩
  rw [ht', hdeep.pair, cost_cons, cost_cons]
  calc d • (x + y) + cost S2 + (x + y) = (d + 1) • x + ((d + 1) • y + cost S2) := by
        rw [nsmul_add, succ_nsmul, succ_nsmul]
        abel
    _ ≤ (d + 1) • x + ((d + 1) • q1 + cost R1) := by gcongr
    _ ≤ (d + 1) • p + cost ((d + 1, q) ::ₘ R) := by
        rw [cost_cons] at hcost1
        exact hcost1

end Exchange

end CsLearning
