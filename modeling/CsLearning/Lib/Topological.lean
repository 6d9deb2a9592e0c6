import Mathlib

/-!
# Topological orders

A list of vertices in which every vertex comes after all its predecessors. A graph all of whose vertices can be listed in this way has no cycle, and a
finite set of vertices each of which has a predecessor in the set has one.

A graph may be given by a list of pairs, the target of an edge before its source; an edge may occur more than once. `waiting edges P v` is the
number of edges to `v` that do not come from a vertex in `P`.
-/

open List

namespace CsLearning

variable {α : Type*} {R : α → α → Prop} {l : List α} {u v : α}

/-- Every vertex comes once, and after all its predecessors. -/
inductive Topological (R : α → α → Prop) : List α → Prop
  | nil : Topological R []
  | push {l : List α} {v : α} (h : Topological R l) (hnew : v ∉ l) (hpred : ∀ u, R u v → u ∈ l) : Topological R (l ++ [v])

theorem Topological.nodup (h : Topological R l) : l.Nodup := by
  induction h with
  | nil => exact nodup_nil
  | push _ hnew _ ih => grind

/-- There is no way from a vertex back to it. -/
theorem Topological.not_cycle (h : Topological R l) (hv : v ∈ l) : ¬ Relation.TransGen R v v := by
  induction h generalizing v with
  | nil => exact absurd hv not_mem_nil
  | @push l w _ _ hpred ih =>
    rcases mem_append.mp hv with hv | hv
    · exact ih hv
    · -- the way back to the last vertex goes through a vertex before it, which would be on a cycle as well
      obtain rfl := mem_singleton.mp hv
      intro hcycle
      obtain ⟨u, hway, hl⟩ := Relation.TransGen.tail'_iff.mp hcycle
      exact ih (hpred u hl) (Relation.TransGen.head' hl hway)

/-- Going back from predecessor to predecessor in a finite set leads to a cycle. -/
theorem exists_cycle {S : Set α} (hfinite : S.Finite) (hne : S.Nonempty) (hpred : ∀ v ∈ S, ∃ u ∈ S, R u v) : ∃ v, Relation.TransGen R v v := by
  by_contra hacyclic
  rw [not_exists] at hacyclic
  have hfin : Finite S := hfinite
  let before : S → S → Prop := fun x y => Relation.TransGen R x.1 y.1
  have htrans : IsTrans S before := ⟨fun _ _ _ => Relation.TransGen.trans⟩
  have hirrefl : Std.Irrefl before := ⟨fun x => hacyclic x.1⟩
  have hwf : WellFounded before := Finite.wellFounded_of_trans_of_irrefl before
  obtain ⟨w, hw⟩ := hne
  obtain ⟨m, -, hmin⟩ := hwf.has_min Set.univ ⟨⟨w, hw⟩, trivial⟩
  obtain ⟨u, hu, he⟩ := hpred m.1 m.2
  exact hmin ⟨u, hu⟩ trivial (Relation.TransGen.single he)

/-! ## Lists of edges -/

section Edges

variable [DecidableEq α] {edges : List (α × α)} {P : List α}

/-- There is an edge from `u` to `v`. -/
def Edge (edges : List (α × α)) (u v : α) : Prop := (v, u) ∈ edges

/-- The targets of the edges from a vertex, in the order of the list. -/
def targets (edges : List (α × α)) (u : α) : List α := (edges.filter fun e => e.2 = u).map Prod.fst

/-- The number of edges to `v` that come from elsewhere. -/
def waiting (edges : List (α × α)) (P : List α) (v : α) : Nat := edges.countP fun e => e.1 = v ∧ e.2 ∉ P

theorem waiting_cons (e : α × α) (edges : List (α × α)) (P : List α) (v : α) :
    waiting (e :: edges) P v = waiting edges P v + if e.1 = v ∧ e.2 ∉ P then 1 else 0 := by
  rw [waiting, countP_cons, waiting]
  simp only [decide_eq_true_eq]

theorem targets_cons (e : α × α) (edges : List (α × α)) (u : α) :
    targets (e :: edges) u = if e.2 = u then e.1 :: targets edges u else targets edges u := by
  rw [targets, targets]
  split_ifs <;> simp_all

theorem waiting_append_singleton (edges : List (α × α)) (e : α × α) (v : α) :
    waiting (edges ++ [e]) [] v = waiting edges [] v + if v = e.1 then 1 else 0 := by
  rw [waiting, waiting]
  simp [eq_comm]

theorem targets_append_singleton (edges : List (α × α)) (e : α × α) (u : α) :
    targets (edges ++ [e]) u = if u = e.2 then targets edges u ++ [e.1] else targets edges u := by
  rw [targets, targets]
  by_cases hu : u = e.2
  · simp [hu]
  · simp [hu, Ne.symm hu]

theorem waiting_eq_zero_iff : waiting edges P v = 0 ↔ ∀ u, Edge edges u v → u ∈ P := by
  rw [waiting, countP_eq_zero]
  constructor
  · intro h u he
    by_contra hu
    exact h (v, u) he (decide_eq_true ⟨rfl, hu⟩)
  · rintro h ⟨w, u⟩ hmem hboth
    obtain ⟨rfl, hu⟩ := of_decide_eq_true hboth
    exact hu (h u hmem)

theorem waiting_eq_add (hu : u ∉ P) : waiting edges P v = waiting edges (P ++ [u]) v + (targets edges u).count v := by
  induction edges with
  | nil => rfl
  | cons e edges ih =>
    rw [waiting_cons, waiting_cons, targets_cons, ih]
    simp only [mem_append, mem_singleton]
    by_cases hx : e.2 = u
    · grind
    · rw [if_neg hx]
      simp only [hx, or_false]
      omega

end Edges

end CsLearning
