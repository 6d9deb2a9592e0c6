import Mathlib

/-!
# Positions in a binary tree

A node of a tree is known by its position, the branches that lead to it from the root. Two positions are adjacent when one is the parent of the
other. A path goes from node to node by adjacent positions and visits none twice; the sums of the paths follow from those of the two subtrees, and so
do the totals of the sets of nodes without adjacent ones.
-/

open List

namespace CsLearning

/-- The branches from the root on; `true` is the right one. -/
abbrev Position := List Bool

variable {α : Type*} {t l r : BinaryTree α} {a : α} {b c : Bool} {p q : Position} {ps : List Position}

def child (b : Bool) (t : BinaryTree α) : BinaryTree α := if b then t.right else t.left

@[simp] theorem child_false (a : α) (l r : BinaryTree α) : child false (.node a l r) = l := rfl

@[simp] theorem child_true (a : α) (l r : BinaryTree α) : child true (.node a l r) = r := rfl

/-- What the tree holds at a position. -/
def valueAt : BinaryTree α → Position → Option α
  | .nil, _ => none
  | .node a _ _, [] => some a
  | .node _ l _, false :: p => valueAt l p
  | .node _ _ r, true :: p => valueAt r p

@[simp] theorem valueAt_root (a : α) (l r : BinaryTree α) : valueAt (.node a l r) [] = some a := rfl

theorem valueAt_cons (t : BinaryTree α) (b : Bool) (p : Position) : valueAt t (b :: p) = valueAt (child b t) p := by
  cases t with
  | nil => cases b <;> rfl
  | node a l r => cases b <;> rfl

/-- One is the parent of the other. -/
def Adjacent (p q : Position) : Prop := (∃ b, q = p ++ [b]) ∨ ∃ b, p = q ++ [b]

theorem Adjacent.symm (h : Adjacent p q) : Adjacent q p := Or.symm h

theorem adjacent_nil : Adjacent [] q ↔ ∃ b, q = [b] := by
  unfold Adjacent
  constructor
  · simp
  · simp

theorem adjacent_cons : Adjacent (b :: p) (c :: q) ↔ b = c ∧ Adjacent p q := by
  unfold Adjacent
  constructor
  · grind
  · grind

/-! ## Paths -/

/-- A path that is not empty and visits no node twice. -/
structure TreePath (t : BinaryTree α) (ps : List Position) : Prop where
  ne_nil : ps ≠ []
  nodes : ∀ p ∈ ps, ∃ a, valueAt t p = some a
  nodup : ps.Nodup
  linked : ps.IsChain Adjacent

theorem treePath_map (b : Bool) : TreePath t (ps.map (b :: ·)) ↔ TreePath (child b t) ps := by
  have hinj : Function.Injective fun p : Position => b :: p := fun p q hpq => (cons.inj hpq).2
  have hlinked : (ps.map (b :: ·)).IsChain Adjacent ↔ ps.IsChain Adjacent := by
    rw [isChain_map]
    exact IsChain.iff fun p q => ⟨fun h => (adjacent_cons.1 h).2, fun h => adjacent_cons.2 ⟨rfl, h⟩⟩
  constructor
  · intro h
    refine ⟨fun hnil => h.ne_nil (by rw [hnil, map_nil]), ?_, Nodup.of_map _ h.nodup, hlinked.1 h.linked⟩
    intro p hp
    rw [← valueAt_cons]
    exact h.nodes _ (mem_map_of_mem hp)
  · intro h
    refine ⟨fun hnil => h.ne_nil (map_eq_nil_iff.1 hnil), ?_, h.nodup.map hinj, hlinked.2 h.linked⟩
    intro p hp
    obtain ⟨q, hq, rfl⟩ := mem_map.1 hp
    rw [valueAt_cons]
    exact h.nodes q hq

theorem TreePath.reverse (h : TreePath t ps) : TreePath t ps.reverse := by
  refine ⟨by simpa using h.ne_nil, fun p hp => h.nodes p (mem_reverse.1 hp), nodup_reverse.2 h.nodup, ?_⟩
  rw [isChain_reverse]
  exact (IsChain.iff fun p q => ⟨Adjacent.symm, Adjacent.symm⟩).1 h.linked

/-- The two parts of a path, from one of its positions on. -/
theorem TreePath.split {us vs : List Position} (h : TreePath t (us ++ p :: vs)) : TreePath t (p :: us.reverse) ∧ TreePath t (p :: vs) := by
  obtain ⟨hup, hdown⟩ := isChain_split.1 h.linked
  obtain ⟨hus, hvs, hdisj⟩ := nodup_append.1 h.nodup
  have hl : TreePath t (us ++ [p]) := by
    refine ⟨by simp, ?_, ?_, hup⟩
    · intro q hq
      refine h.nodes q ?_
      rcases mem_append.1 hq with hq | hq
      · exact mem_append_left _ hq
      · grind
    · grind
  refine ⟨?_, by simp, fun q hq => h.nodes q (mem_append_right _ hq), hvs, hdown⟩
  have hreverse := hl.reverse
  rwa [reverse_append, reverse_singleton] at hreverse

/-- Without the root, adjacent positions stay in one branch. -/
theorem exists_eq_map (h : ps.IsChain Adjacent) (hroot : [] ∉ ps) (hh : ps.head? = some (b :: p)) :
    ∃ qs : List Position, ps = qs.map (b :: ·) ∧ qs.head? = some p := by
  induction ps generalizing p with
  | nil => cases hh
  | cons x ps ih =>
    obtain rfl : x = b :: p := Option.some.inj hh
    obtain ⟨hfst, hr⟩ := isChain_cons.1 h
    rw [mem_cons, not_or] at hroot
    cases hps : ps with
    | nil => exact ⟨[p], rfl, rfl⟩
    | cons y ys =>
      have hadj : Adjacent (b :: p) y := hfst y (by rw [hps]; rfl)
      cases y with
      | nil => exact absurd (by rw [hps]; exact mem_cons_self) hroot.2
      | cons c q =>
        obtain ⟨rfl, -⟩ := adjacent_cons.1 hadj
        obtain ⟨qs, hqs, -⟩ := ih hr hroot.2 (by rw [hps]; rfl)
        refine ⟨p :: qs, ?_, rfl⟩
        rw [← hps, hqs, map_cons]

/-- A path without the root is in one of the subtrees. -/
theorem TreePath.exists_branch (h : TreePath t ps) (hr : [] ∉ ps) : ∃ b qs, ps = qs.map (b :: ·) ∧ TreePath (child b t) qs := by
  cases hps : ps with
  | nil => exact absurd hps h.ne_nil
  | cons x xs =>
    cases x with
    | nil => exact absurd (by rw [hps]; exact mem_cons_self) hr
    | cons b p =>
      obtain ⟨qs, hqs, -⟩ := exists_eq_map (b := b) (p := p) h.linked hr (by rw [hps]; rfl)
      refine ⟨b, qs, by rw [← hps, hqs], (treePath_map b).1 ?_⟩
      rw [← hqs]
      exact h

/-- What follows the root on a path goes down from the root of one of the subtrees. -/
theorem TreePath.exists_down (h : TreePath t ([] :: ps)) (hne : ps ≠ []) :
    ∃ b qs, ps = ([] :: qs).map (b :: ·) ∧ TreePath (child b t) ([] :: qs) := by
  obtain ⟨hroot, hnd⟩ := nodup_cons.1 h.nodup
  obtain ⟨hfst, hr⟩ := isChain_cons.1 h.linked
  cases hps : ps with
  | nil => exact absurd hps hne
  | cons x xs =>
    obtain ⟨b, rfl⟩ := adjacent_nil.1 (hfst x (by rw [hps]; rfl))
    obtain ⟨qs, hqs, hh⟩ := exists_eq_map (b := b) (p := []) hr hroot (by rw [hps]; rfl)
    cases qs with
    | nil => cases hh
    | cons q qs =>
      obtain rfl : q = [] := Option.some.inj hh
      refine ⟨b, qs, by rw [← hps, hqs], (treePath_map b).1 ?_⟩
      rw [← hqs]
      exact ⟨hne, fun p hp => h.nodes p (mem_cons_of_mem _ hp), hnd, hr⟩

/-- The root in front of a path that goes down from the root of a subtree. -/
theorem TreePath.cons_root (h : TreePath (child b (.node a l r)) ([] :: ps)) : TreePath (.node a l r) ([] :: ([] :: ps).map (b :: ·)) := by
  have hmap := (treePath_map b).2 h
  refine ⟨cons_ne_nil _ _, ?_, nodup_cons.2 ⟨by simp, hmap.nodup⟩, ?_⟩
  · intro p hp
    rcases mem_cons.1 hp with rfl | hp
    · exact ⟨a, rfl⟩
    · exact hmap.nodes p hp
  · rw [map_cons, isChain_cons_cons]
    exact ⟨adjacent_nil.2 ⟨b, rfl⟩, hmap.linked⟩

/-- A path that comes up to the root from one of the subtrees and goes down into the other one. -/
theorem treePath_bend {qs : List Position} (h : TreePath (.node a l r) ([] :: ps.map (b :: ·))) (h' : TreePath (.node a l r) ([] :: qs.map (c :: ·)))
    (hbc : b ≠ c) : TreePath (.node a l r) ((ps.map (b :: ·)).reverse ++ [] :: qs.map (c :: ·)) := by
  refine ⟨by simp, ?_, ?_, ?_⟩
  · intro p hp
    rcases mem_append.1 hp with hp | hp
    · exact h.nodes p (mem_cons_of_mem _ (mem_reverse.1 hp))
    · exact h'.nodes p hp
  · rw [nodup_append]
    refine ⟨nodup_reverse.2 (nodup_cons.1 h.nodup).2, h'.nodup, ?_⟩
    intro p hp q hq hpq
    obtain ⟨p, -, rfl⟩ := mem_map.1 (mem_reverse.1 hp)
    rcases mem_cons.1 hq with hq | hq
    · rw [hq] at hpq
      cases hpq
    · grind
  · have hup := h.reverse.linked
    rw [reverse_cons] at hup
    exact isChain_split.2 ⟨hup, h'.linked⟩

/-! ## The sums of the paths -/

section Sums

open Pointwise

theorem isGreatest_add {s u : Set Int} {y z : Int} (hs : IsGreatest s y) (hu : IsGreatest u z) : IsGreatest (s + u) (y + z) := by
  refine ⟨Set.add_mem_add hs.1 hu.1, ?_⟩
  intro w hw
  obtain ⟨a, ha, b, hb, rfl⟩ := Set.mem_add.1 hw
  exact add_le_add (hs.2 ha) (hu.2 hb)

variable {t l r : BinaryTree Int} {a v : Int} {qs : List Position}

/-- The sum of what the tree holds at the positions. -/
def total (t : BinaryTree Int) (ps : List Position) : Int := (ps.map fun p => (valueAt t p).getD 0).sum

@[simp] theorem total_root (a : Int) (l r : BinaryTree Int) (ps : List Position) : total (.node a l r) ([] :: ps) = a + total (.node a l r) ps := by
  simp [total]

@[simp] theorem total_append (t : BinaryTree Int) (ps qs : List Position) : total t (ps ++ qs) = total t ps + total t qs := by simp [total]

@[simp] theorem total_reverse (t : BinaryTree Int) (ps : List Position) : total t ps.reverse = total t ps := by simp [total]

theorem total_map (t : BinaryTree Int) (b : Bool) (ps : List Position) : total t (ps.map (b :: ·)) = total (child b t) ps := by
  simp only [total, map_map, Function.comp_def, valueAt_cons]

/-- The sums of the paths. -/
def PathSums (t : BinaryTree Int) : Set Int := {v | ∃ ps, TreePath t ps ∧ total t ps = v}

/-- The sums of the paths that go down from the root, and zero for none. -/
def Stems (t : BinaryTree Int) : Set Int := {v | v = 0 ∨ ∃ ps, TreePath t ([] :: ps) ∧ total t ([] :: ps) = v}

theorem stems_nil : Stems .nil = {0} := by
  ext v
  constructor
  · intro hv
    rcases hv with hv | ⟨ps, hps, -⟩
    · exact hv
    · obtain ⟨a, ha⟩ := hps.nodes [] mem_cons_self
      cases ha
  · intro hv
    exact .inl hv

theorem pathSums_nil : PathSums .nil = ∅ := by
  rw [Set.eq_empty_iff_forall_notMem]
  intro v hv
  obtain ⟨ps, hps, -⟩ := hv
  obtain ⟨p, hp⟩ := exists_mem_of_ne_nil ps hps.ne_nil
  obtain ⟨a, ha⟩ := hps.nodes p hp
  cases ha

theorem zero_mem_stems (t : BinaryTree Int) : 0 ∈ Stems t := .inl rfl

/-- What stands behind the root on a path begins with one of the children. -/
theorem TreePath.total_mem_stems (h : TreePath (.node a l r) ([] :: ps)) (hne : ps ≠ []) :
    ∃ b, total (.node a l r) ps ∈ Stems (child b (.node a l r)) ∧ [b] ∈ ps := by
  obtain ⟨b, qs, hqs, hpath⟩ := h.exists_down hne
  refine ⟨b, .inr ⟨qs, hpath, by rw [hqs, total_map]⟩, ?_⟩
  rw [hqs]
  exact mem_cons_self

/-- The two sides of the root on a path are in different subtrees. -/
theorem TreePath.total_sides {us vs : List Position} (h : TreePath (.node a l r) (us ++ [] :: vs)) :
    ∃ b, total (.node a l r) us ∈ Stems (child b (.node a l r)) ∧ total (.node a l r) vs ∈ Stems (child (!b) (.node a l r)) := by
  obtain ⟨hup, hdown⟩ := h.split
  by_cases hus : us = []
  · by_cases hvs : vs = []
    · rw [hus, hvs]
      exact ⟨false, zero_mem_stems _, zero_mem_stems _⟩
    · obtain ⟨b, hb, -⟩ := hdown.total_mem_stems hvs
      refine ⟨!b, ?_, by rwa [Bool.not_not]⟩
      rw [hus]
      exact zero_mem_stems _
  · obtain ⟨b, hb, hmem⟩ := hup.total_mem_stems (by simpa using hus)
    rw [total_reverse] at hb
    refine ⟨b, hb, ?_⟩
    by_cases hvs : vs = []
    · rw [hvs]
      exact zero_mem_stems _
    · obtain ⟨c, hc, hmem'⟩ := hdown.total_mem_stems hvs
      have hne : c ≠ b := by
        intro heq
        rw [heq] at hmem'
        exact (nodup_append.1 h.nodup).2.2 [b] (mem_reverse.1 hmem) [b] (mem_cons_of_mem _ hmem') rfl
      rwa [Bool.eq_not.2 hne] at hc

/-- A sum of a path down into a subtree, with the path in the whole tree. -/
theorem exists_treePath_of_stems (a : Int) (l r : BinaryTree Int) (hv : v ∈ Stems (child b (.node a l r))) :
    ∃ ps : List Position, TreePath (.node a l r) ([] :: ps.map (b :: ·)) ∧ total (.node a l r) (ps.map (b :: ·)) = v := by
  rcases hv with hv | ⟨ps, hps, hv⟩
  · refine ⟨[], ⟨by simp, ?_, by simp, isChain_singleton _⟩, by rw [hv]; rfl⟩
    intro p hp
    rw [map_nil, mem_singleton] at hp
    rw [hp]
    exact ⟨a, rfl⟩
  · exact ⟨[] :: ps, hps.cons_root, by rw [total_map, hv]⟩

/-- A path down from the root goes into one of the subtrees. -/
theorem stems_node (a : Int) (l r : BinaryTree Int) : Stems (.node a l r) = {0} ∪ ({a} + (Stems l ∪ Stems r)) := by
  ext v
  rw [Set.mem_union, Set.singleton_add, Set.mem_image]
  constructor
  · intro hv
    rcases hv with hv | ⟨ps, hps, hv⟩
    · exact .inl hv
    · refine .inr ⟨_, ?_, hv⟩
      have hsides : TreePath (.node a l r) ([] ++ [] :: ps) := hps
      obtain ⟨b, -, hmem⟩ := hsides.total_sides
      cases b
      · exact .inr hmem
      · exact .inl hmem
  · intro hv
    rcases hv with hv | ⟨w, hw, hv⟩
    · exact .inl hv
    · obtain ⟨b, hb⟩ : ∃ b, w ∈ Stems (child b (.node a l r)) := by
        rcases hw with hw | hw
        · exact ⟨false, hw⟩
        · exact ⟨true, hw⟩
      obtain ⟨ps, hps, htotal⟩ := exists_treePath_of_stems a l r hb
      exact .inr ⟨_, hps, by rw [total_root, htotal, hv]⟩

/-- A path is in one of the subtrees, or it has the root and goes down from it on both sides. -/
theorem pathSums_node (a : Int) (l r : BinaryTree Int) : PathSums (.node a l r) = PathSums l ∪ PathSums r ∪ ({a} + (Stems l + Stems r)) := by
  ext v
  simp only [Set.mem_union, Set.singleton_add, Set.mem_image, Set.mem_add]
  constructor
  · intro hv
    obtain ⟨ps, hps, hv⟩ := hv
    by_cases hr : [] ∈ ps
    · refine .inr ?_
      obtain ⟨us, vs, rfl⟩ := append_of_mem hr
      obtain ⟨b, hup, hdown⟩ := hps.total_sides
      rw [total_append, total_root] at hv
      cases b
      · exact ⟨_, ⟨_, hup, _, hdown, rfl⟩, by omega⟩
      · exact ⟨_, ⟨_, hdown, _, hup, rfl⟩, by omega⟩
    · obtain ⟨b, qs, rfl, hqs⟩ := hps.exists_branch hr
      rw [total_map] at hv
      refine .inl ?_
      cases b
      · exact .inl ⟨qs, hqs, hv⟩
      · exact .inr ⟨qs, hqs, hv⟩
  · intro hv
    rcases hv with (⟨ps, hps, hv⟩ | ⟨ps, hps, hv⟩) | ⟨_, ⟨x, hx, y, hy, rfl⟩, hv⟩
    · exact ⟨ps.map (false :: ·), (treePath_map false).2 hps, by rw [total_map]; exact hv⟩
    · exact ⟨ps.map (true :: ·), (treePath_map true).2 hps, by rw [total_map]; exact hv⟩
    · obtain ⟨ps, hps, rfl⟩ := exists_treePath_of_stems a l r (b := false) hx
      obtain ⟨qs, hqs, rfl⟩ := exists_treePath_of_stems a l r (b := true) hy
      refine ⟨_, treePath_bend hps hqs (by simp), ?_⟩
      rw [total_append, total_reverse, total_root]
      omega

/-! ## Sets of nodes without adjacent ones -/

/-- Nodes of the tree, no two of which are parent and child. -/
def Independent (t : BinaryTree Int) (s : Finset Position) : Prop :=
  (∀ p ∈ s, ∃ a, valueAt t p = some a) ∧ ∀ p ∈ s, ∀ q ∈ s, ¬Adjacent p q

/-- The sum of what the nodes hold. -/
def gain (t : BinaryTree Int) (s : Finset Position) : Int := ∑ p ∈ s, (valueAt t p).getD 0

variable {s : Finset Position}

theorem cons_injective (b : Bool) : Function.Injective fun p : Position => b :: p := fun _ _ hpq => (cons.inj hpq).2

/-- The nodes of a set in one of the subtrees. -/
noncomputable def branch (b : Bool) (s : Finset Position) : Finset Position := s.preimage (b :: ·) (cons_injective b).injOn

/-- A set of nodes from its parts, with the root or without it. -/
def graft (root : Bool) (s u : Finset Position) : Finset Position :=
  (if root then {[]} else ∅) ∪ (s.map ⟨_, cons_injective false⟩ ∪ u.map ⟨_, cons_injective true⟩)

theorem mem_branch : p ∈ branch b s ↔ b :: p ∈ s := Finset.mem_preimage

theorem nil_mem_graft {root : Bool} {s u : Finset Position} : [] ∈ graft root s u ↔ root = true := by
  unfold graft
  cases root <;> simp

theorem cons_mem_graft {root : Bool} {s u : Finset Position} : b :: p ∈ graft root s u ↔ p ∈ (if b then u else s) := by
  unfold graft
  cases root <;> cases b <;> simp

theorem graft_branch (s : Finset Position) : graft (decide ([] ∈ s)) (branch false s) (branch true s) = s := by
  ext p
  cases p with
  | nil => simp [nil_mem_graft]
  | cons b p =>
    rw [cons_mem_graft]
    cases b <;> simp [mem_branch]

theorem gain_graft (a : Int) (l r : BinaryTree Int) (root : Bool) (s u : Finset Position) :
    gain (.node a l r) (graft root s u) = (if root then a else 0) + (gain l s + gain r u) := by
  have hsides : Disjoint (s.map ⟨_, cons_injective false⟩) (u.map ⟨_, cons_injective true⟩) := by
    rw [Finset.disjoint_left]
    intro p hp hp'
    obtain ⟨q, -, rfl⟩ := Finset.mem_map.1 hp
    obtain ⟨q', -, heq⟩ := Finset.mem_map.1 hp'
    cases heq
  have hr : Disjoint (if root then {[]} else ∅) (s.map ⟨_, cons_injective false⟩ ∪ u.map ⟨_, cons_injective true⟩) := by
    cases root <;> simp
  unfold gain graft
  rw [Finset.sum_union hr, Finset.sum_union hsides, Finset.sum_map]
  cases root <;> simp [valueAt_cons]

theorem independent_graft (a : Int) (l r : BinaryTree Int) (root : Bool) (s u : Finset Position) :
    Independent (.node a l r) (graft root s u) ↔ Independent l s ∧ Independent r u ∧ (root = true → [] ∉ s ∧ [] ∉ u) := by
  have hparts : (∀ b, Independent (child b (.node a l r)) (if b then u else s)) ↔ Independent l s ∧ Independent r u := by
    rw [Bool.forall_bool]
    exact Iff.rfl
  have hroots : (∀ b : Bool, [] ∉ (if b then u else s)) ↔ [] ∉ s ∧ [] ∉ u := by
    rw [Bool.forall_bool]
    exact Iff.rfl
  rw [← and_assoc, ← hparts, ← hroots]
  constructor
  · intro h
    refine ⟨fun b => ⟨?_, ?_⟩, ?_⟩
    · intro p hp
      rw [← valueAt_cons]
      exact h.1 _ (cons_mem_graft.2 hp)
    · intro p hp q hq hadj
      exact h.2 _ (cons_mem_graft.2 hp) _ (cons_mem_graft.2 hq) (adjacent_cons.2 ⟨rfl, hadj⟩)
    · intro hr b hb
      exact h.2 _ (nil_mem_graft.2 hr) _ (cons_mem_graft.2 hb) (adjacent_nil.2 ⟨b, rfl⟩)
  · intro h
    obtain ⟨hch, hr⟩ := h
    -- a child of the root is not in the set together with it
    have hnil : ∀ q, [] ∈ graft root s u → q ∈ graft root s u → ¬Adjacent [] q := by
      intro q hmem hq hadj
      obtain ⟨b, rfl⟩ := adjacent_nil.1 hadj
      exact hr (nil_mem_graft.1 hmem) b (cons_mem_graft.1 hq)
    refine ⟨?_, ?_⟩
    · intro p hp
      cases p with
      | nil => exact ⟨a, rfl⟩
      | cons b p =>
        rw [valueAt_cons]
        exact (hch b).1 p (cons_mem_graft.1 hp)
    · intro p hp q hq hadj
      cases p with
      | nil => exact hnil q hp hq hadj
      | cons b p =>
        cases q with
        | nil => exact hnil _ hq hp hadj.symm
        | cons c q =>
          obtain ⟨rfl, hbelow⟩ := adjacent_cons.1 hadj
          exact (hch b).2 p (cons_mem_graft.1 hp) q (cons_mem_graft.1 hq) hbelow

/-- What the sets of nodes without adjacent ones hold. -/
def Totals (t : BinaryTree Int) : Set Int := {v | ∃ s, Independent t s ∧ gain t s = v}

/-- What those without the root hold. -/
def Skips (t : BinaryTree Int) : Set Int := {v | ∃ s, Independent t s ∧ [] ∉ s ∧ gain t s = v}

theorem skips_subset_totals (t : BinaryTree Int) : Skips t ⊆ Totals t := by
  intro v hv
  obtain ⟨s, hs, -, hv⟩ := hv
  exact ⟨s, hs, hv⟩

theorem independent_empty (t : BinaryTree Int) : Independent t ∅ := ⟨by simp, by simp⟩

theorem zero_mem_skips (t : BinaryTree Int) : 0 ∈ Skips t := ⟨∅, independent_empty t, by simp, rfl⟩

theorem totals_nil : Totals .nil = {0} := by
  ext v
  constructor
  · intro hv
    obtain ⟨s, hs, rfl⟩ := hv
    have hnil : s = ∅ := by
      rw [Finset.eq_empty_iff_forall_notMem]
      intro p hp
      obtain ⟨a, ha⟩ := hs.1 p hp
      cases ha
    rw [hnil]
    rfl
  · intro hv
    rw [Set.mem_singleton_iff.1 hv]
    exact skips_subset_totals _ (zero_mem_skips _)

theorem skips_nil : Skips .nil = {0} := by grind [zero_mem_skips, totals_nil, skips_subset_totals]

/-- Without the root, any two sets for the subtrees will do. -/
theorem skips_node (a : Int) (l r : BinaryTree Int) : Skips (.node a l r) = Totals l + Totals r := by
  ext v
  constructor
  · intro hv
    obtain ⟨s, hs, hr, rfl⟩ := hv
    rw [← graft_branch s, independent_graft] at hs
    rw [← graft_branch s, gain_graft, if_neg (by simpa using hr), zero_add]
    exact ⟨_, ⟨_, hs.1, rfl⟩, _, ⟨_, hs.2.1, rfl⟩, rfl⟩
  · intro hv
    obtain ⟨_, ⟨s, hs, rfl⟩, _, ⟨u, hu, rfl⟩, rfl⟩ := hv
    refine ⟨graft false s u, (independent_graft a l r false s u).2 ⟨hs, hu, by simp⟩, by simp [nil_mem_graft], ?_⟩
    rw [gain_graft, if_neg (by simp), zero_add]

/-- With the root, the sets for the subtrees leave out the children. -/
theorem totals_node (a : Int) (l r : BinaryTree Int) : Totals (.node a l r) = Skips (.node a l r) ∪ ({a} + (Skips l + Skips r)) := by
  ext v
  simp only [Set.singleton_add]
  constructor
  · intro hv
    obtain ⟨s, hs, rfl⟩ := hv
    by_cases hroot : [] ∈ s
    · refine .inr ?_
      rw [← graft_branch s, independent_graft] at hs
      obtain ⟨hl, hr, hchildren⟩ := hs
      obtain ⟨hnl, hnr⟩ := hchildren (by simpa using hroot)
      rw [← graft_branch s, gain_graft, if_pos (by simpa using hroot)]
      exact ⟨_, ⟨_, ⟨_, hl, hnl, rfl⟩, _, ⟨_, hr, hnr, rfl⟩, rfl⟩, rfl⟩
    · exact .inl ⟨s, hs, hroot, rfl⟩
  · intro hv
    rcases hv with hv | ⟨_, ⟨_, ⟨s, hs, hns, rfl⟩, _, ⟨u, hu, hnu, rfl⟩, rfl⟩, rfl⟩
    · exact skips_subset_totals _ hv
    · refine ⟨graft true s u, (independent_graft a l r true s u).2 ⟨hs, hu, fun _ => ⟨hns, hnu⟩⟩, ?_⟩
      rw [gain_graft, if_pos rfl]

end Sums

end CsLearning
