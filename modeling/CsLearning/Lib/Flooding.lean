import Mathlib

/-!
# Searches that mark what they reach

Vertices of a graph are open or not, and a search marks open vertices. `Flooded M M' S` says what a search from the vertices in `S` is to achieve
when those in `M` are marked before it: it marks only what can be reached from an open vertex in `S`, and nothing is left to do next to what it has
marked. When nothing was left to do before, either, exactly what can be reached is marked (`Flooded.eq`).

There are rules for a search that calls itself for each neighbour, and for one that keeps a list of vertices that have to be looked at (`Agenda`).
-/

open List Set

namespace CsLearning

variable {V : Type*} {adj : V → V → Prop} {O M M' M'' S T : Set V} {p q r : V}

/-- There is a way through open vertices. -/
def Reach (adj : V → V → Prop) (O : Set V) : V → V → Prop := Relation.ReflTransGen fun p q => adj p q ∧ q ∈ O

/-- What can be reached from the open vertices in `S`. -/
def reached (adj : V → V → Prop) (O S : Set V) : Set V := {q | ∃ p ∈ S, p ∈ O ∧ Reach adj O p q}

/-- What a search from the vertices in `S` does to the marked vertices. -/
structure Flooded (adj : V → V → Prop) (O M M' S : Set V) : Prop where
  subset : M ⊆ M'
  start : ∀ p ∈ S, p ∈ O → p ∈ M'
  reach : ∀ q ∈ M', q ∉ M → q ∈ reached adj O S
  done : ∀ q ∈ M', q ∉ M → ∀ r, adj q r → r ∈ O → r ∈ M'

theorem Reach.mem (h : Reach adj O p q) (hp : p ∈ O) : q ∈ O := by
  cases h with
  | refl => exact hp
  | tail _ hs => exact hs.2

theorem reached_subset : reached adj O S ⊆ O := by
  rintro q ⟨p, -, hp, hreach⟩
  exact hreach.mem hp

namespace Flooded

theorem refl (adj : V → V → Prop) (O M : Set V) : Flooded adj O M M ∅ :=
  ⟨subset_rfl, fun _ hp => hp.elim, fun _ hq hnot => absurd hq hnot, fun _ hq hnot => absurd hq hnot⟩

/-- A vertex that is not open, or marked already. -/
theorem skip (h : p ∈ O → p ∈ M) : Flooded adj O M M {p} := by
  refine ⟨subset_rfl, ?_, fun _ hq hnot => absurd hq hnot, fun _ hq hnot => absurd hq hnot⟩
  rintro q rfl hq
  exact h hq

theorem of_eq (h : Flooded adj O M M' S) (hST : S = T) : Flooded adj O M M' T := hST ▸ h

theorem trans (h : Flooded adj O M M' S) (h' : Flooded adj O M' M'' T) : Flooded adj O M M'' (S ∪ T) := by
  refine ⟨h.subset.trans h'.subset, fun p hp ho => ?_, fun q hq hnot => ?_, fun q hq hnot r hadj ho => ?_⟩
  · rcases hp with hp | hp
    · exact h'.subset (h.start p hp ho)
    · exact h'.start p hp ho
  · by_cases hmid : q ∈ M'
    · obtain ⟨p, hp, hreach⟩ := h.reach q hmid hnot
      exact ⟨p, Or.inl hp, hreach⟩
    · obtain ⟨p, hp, hreach⟩ := h'.reach q hq hmid
      exact ⟨p, Or.inr hp, hreach⟩
  · by_cases hmid : q ∈ M'
    · exact h'.subset (h.done q hmid hnot r hadj ho)
    · exact h'.done q hq hmid r hadj ho

/-- A vertex is marked, and then its neighbours are searched from. -/
theorem visit (hp : p ∈ O) (h : Flooded adj O (insert p M) M' {q | adj p q}) : Flooded adj O M M' {p} := by
  have hpM : p ∈ M' := h.subset (mem_insert p M)
  refine ⟨(subset_insert p M).trans h.subset, ?_, fun q hq hnot => ⟨p, rfl, hp, ?_⟩, fun q hq hnot r hadj ho => ?_⟩
  · rintro q rfl _
    exact hpM
  · by_cases hqp : q = p
    · rw [hqp]
      exact Relation.ReflTransGen.refl
    · obtain ⟨r, hadj, hr, hreach⟩ := h.reach q hq fun hmem => hmem.elim hqp hnot
      exact Relation.ReflTransGen.head ⟨hadj, hr⟩ hreach
  · by_cases hqp : q = p
    · exact h.start r (hqp ▸ hadj) ho
    · exact h.done q hq (fun hmem => hmem.elim hqp hnot) r hadj ho

theorem eq (h : Flooded adj O ∅ M S) : M = reached adj O S := by
  apply Set.Subset.antisymm
  · exact fun q hq => h.reach q hq (notMem_empty q)
  · rintro q ⟨p, hp, ho, hreach⟩
    induction hreach with
    | refl => exact h.start p hp ho
    | tail _ hs ih => exact h.done _ ih (notMem_empty _) _ hs.1 hs.2

end Flooded

/-! ## A list of vertices to look at -/

/-- Marked vertices that are not in the list have no neighbours that are left to do. -/
structure Agenda (adj : V → V → Prop) (O M M' : Set V) (p : V) (F : List V) : Prop where
  subset : M ⊆ M'
  start : p ∈ M'
  front : ∀ q ∈ F, q ∈ M' ∧ q ∉ M
  reach : ∀ q ∈ M', q ∉ M → Reach adj O p q
  done : ∀ q ∈ M', q ∉ M → q ∈ F ∨ ∀ r, adj q r → r ∈ O → r ∈ M'

namespace Agenda

variable {F F' : List V}

theorem single (adj : V → V → Prop) (O : Set V) (hp : p ∉ M) : Agenda adj O M (insert p M) p [p] := by
  refine ⟨subset_insert p M, mem_insert p M, fun q hq => ?_, fun q hq hnot => ?_, fun q hq hnot => ?_⟩
  · grind
  · rw [hq.resolve_right hnot]
    exact Relation.ReflTransGen.refl
  · exact Or.inl (mem_singleton.mpr (hq.resolve_right hnot))

/-- A neighbour of a vertex in the list is marked and put into the list. -/
theorem push (h : Agenda adj O M M' p F) (hq : q ∈ F) (hadj : adj q r) (hr : r ∈ O) (hnew : r ∉ M') (hF : ∀ v, v ∈ F' ↔ v = r ∨ v ∈ F) :
    Agenda adj O M (insert r M') p F' := by
  refine ⟨h.subset.trans (subset_insert r M'), mem_insert_of_mem r h.start, fun v hv => ?_, fun v hv hnot => ?_, fun v hv hnot => ?_⟩
  · rcases (hF v).mp hv with rfl | hv
    · exact ⟨mem_insert v M', fun hmem => hnew (h.subset hmem)⟩
    · exact ⟨mem_insert_of_mem r (h.front v hv).1, (h.front v hv).2⟩
  · rcases hv with rfl | hv
    · obtain ⟨hqM, hqnot⟩ := h.front q hq
      exact (h.reach q hqM hqnot).tail ⟨hadj, hr⟩
    · exact h.reach v hv hnot
  · rcases hv with rfl | hv
    · exact Or.inl ((hF v).mpr (Or.inl rfl))
    · rcases h.done v hv hnot with hmem | hall
      · exact Or.inl ((hF v).mpr (Or.inr hmem))
      · grind

/-- The first vertex of the list has no neighbour that is left to do. -/
theorem pop (h : Agenda adj O M M' p (q :: F)) (hall : ∀ r, adj q r → r ∈ O → r ∈ M') : Agenda adj O M M' p F := by
  refine ⟨h.subset, h.start, fun v hv => h.front v (mem_cons_of_mem q hv), h.reach, fun v hv hnot => ?_⟩
  rcases h.done v hv hnot with hmem | hdone
  · grind
  · exact Or.inr hdone

theorem flooded (h : Agenda adj O M M' p []) (hp : p ∈ O) : Flooded adj O M M' {p} := by
  refine ⟨h.subset, ?_, fun q hq hnot => ⟨p, rfl, hp, h.reach q hq hnot⟩, fun q hq hnot => ?_⟩
  · rintro q rfl _
    exact h.start
  · exact (h.done q hq hnot).resolve_left not_mem_nil

end Agenda

/-! ## The number of vertices that are left -/

theorem ncard_insert_lt (hO : O.Finite) (hp : p ∈ O) (hM : p ∉ M) : (O \ insert p M).ncard + 1 = (O \ M).ncard := by
  have hdiff : O \ insert p M = (O \ M) \ {p} := by grind
  rw [hdiff]
  exact ncard_sdiff_singleton_add_one ⟨hp, hM⟩ (hO.subset sdiff_subset)

theorem ncard_diff_le (hO : O.Finite) (h : M ⊆ M') : (O \ M').ncard ≤ (O \ M).ncard :=
  ncard_le_ncard (sdiff_subset_sdiff_right h) (hO.subset sdiff_subset)

end CsLearning
