import Mathlib

/-!
# Binary heaps in an array

An array of which the first `n` cells count, as a function on the indices. `IsHeap` says that no cell exceeds its parent. `HeapBelow` is
the invariant of a sift towards the leaves, with the one node whose children may exceed it; `HeapAbove` is that of a sift towards the root,
with the one node that may exceed its parent. `HeapFrom` and `SinkFrom` are the same for a heap that is built from the leaves on, of which
only the nodes from some index on are in order. Each has a rule for the exchange with a child or with the parent, and one for the end.
-/

open Function Nat Multiset

namespace CsLearning

variable {α : Type*}

/-- The index of the parent. -/
def parent (i : Nat) : Nat := (i - 1) / 2

variable {i j n m k c lo : Nat} {f g : Nat → α}

theorem parent_lt (h : 0 < i) : parent i < i := by unfold parent; omega

theorem parent_left (i : Nat) : parent (2 * i + 1) = i := by unfold parent; omega

theorem parent_right (i : Nat) : parent (2 * i + 2) = i := by unfold parent; omega

theorem eq_child (hj : 0 < j) (h : parent j = i) : j = 2 * i + 1 ∨ j = 2 * i + 2 := by
  unfold parent at h
  omega

/-! ## The values in the first cells -/

/-- The values in the first `n` cells. -/
def bag (n : Nat) (f : Nat → α) : Multiset α := (Multiset.range n).map f

theorem bag_succ (n : Nat) (f : Nat → α) : bag (n + 1) f = f n ::ₘ bag n f := by
  rw [bag, range_succ, map_cons, bag]

theorem bag_congr (h : ∀ i, i < n → f i = g i) : bag n f = bag n g := map_congr rfl fun i hi => h i (mem_range.1 hi)

theorem bag_eq_of_le (hmn : m ≤ n) (h : bag m g = bag m f) (hbh : ∀ i, m ≤ i → g i = f i) : bag n g = bag n f := by
  induction n, hmn using le_induction with
  | base => exact h
  | succ n hmn ih => rw [bag_succ, bag_succ, ih, hbh n hmn]

theorem bag_comp_perm (σ : Equiv.Perm Nat) (hσ : ∀ i, σ i < n ↔ i < n) (f : Nat → α) : bag n (f ∘ σ) = bag n f := by
  have hrange : (range n).map σ = range n := by
    refine (Multiset.Nodup.ext ((nodup_range n).map σ.injective) (nodup_range n)).2 fun k => ?_
    simp only [mem_map, mem_range]
    constructor
    · rintro ⟨m, hm, rfl⟩
      exact (hσ m).mpr hm
    · intro hk
      have hb := σ.apply_symm_apply k
      exact ⟨σ.symm k, (hσ _).mp (hb.symm ▸ hk), hb⟩
  rw [bag, ← map_map, hrange, bag]

/-- An exchange among the first cells keeps their values. -/
theorem bag_swap (hi : i < n) (hj : j < n) (f : Nat → α) : bag n (f ∘ Equiv.swap i j) = bag n f := by grind [bag_comp_perm]

theorem perm_of_bag_eq (h : bag n g = bag n f) : ((List.range n).map g).Perm ((List.range n).map f) := coe_eq_coe.mp h

theorem exists_of_bag_eq (h : bag n g = bag n f) (hi : i < n) : ∃ j < n, g i = f j := by
  have hmem : g i ∈ bag n g := mem_map_of_mem g (mem_range.mpr hi)
  rw [h] at hmem
  obtain ⟨j, hj, hgf⟩ := mem_map.mp hmem
  exact ⟨j, mem_range.mp hj, hgf.symm⟩

/-- Exchanging equal values changes nothing. -/
theorem comp_swap_of_eq (h : f i = f j) : f ∘ Equiv.swap i j = f := by grind

/-- Moving the hole and placing the value there is an exchange. -/
theorem update_swap (hkc : k ≠ c) (heap : Nat → α) (x : α) : update (update heap k (heap c)) c x = update heap k x ∘ Equiv.swap k c := by grind

/-! ## Heaps -/

variable [LinearOrder α] {n : Nat} {f : Nat → α}

/-- No cell exceeds its parent. -/
def IsHeap (n : Nat) (f : Nat → α) : Prop := ∀ i, 0 < i → i < n → f i ≤ f (parent i)

theorem IsHeap.le_root (h : IsHeap n f) (hi : i < n) : f i ≤ f 0 := by
  induction i using Nat.strong_induction_on with
  | _ i ih =>
    rcases Nat.eq_zero_or_pos i with rfl | hpos
    · exact le_rfl
    · exact (h i hpos hi).trans (ih _ (parent_lt hpos) ((parent_lt hpos).trans hi))

/-- No child of a node from `lo` on exceeds it. -/
def HeapFrom (lo n : Nat) (f : Nat → α) : Prop := ∀ i, 0 < i → i < n → lo ≤ parent i → f i ≤ f (parent i)

theorem heapFrom_zero : HeapFrom 0 n f ↔ IsHeap n f := by
  constructor
  · intro h i hi hin
    exact h i hi hin (zero_le _)
  · intro h i hi hin _
    exact h i hi hin

/-- The nodes from the middle on have no children. -/
theorem heapFrom_half (n : Nat) (f : Nat → α) : HeapFrom (n / 2) n f := by
  intro i hi hin hlo
  unfold parent at hlo
  omega

/-- `HeapFrom` but for the node `k`, which its children may exceed; they do not exceed its parent. -/
structure SinkFrom (lo n : Nat) (f : Nat → α) (k : Nat) : Prop where
  edges : ∀ j, 0 < j → j < n → lo ≤ parent j → parent j ≠ k → f j ≤ f (parent j)
  grand : 0 < k → lo ≤ parent k → ∀ j, 0 < j → j < n → parent j = k → f j ≤ f (parent k)

theorem SinkFrom.swap (h : SinkFrom lo n f k) (hlo : lo ≤ k) (hc : 0 < c) (hcn : c < n) (hck : parent c = k) (hle : f k ≤ f c)
    (hmax : ∀ j, 0 < j → j < n → parent j = k → f j ≤ f c) : SinkFrom lo n (f ∘ Equiv.swap k c) c := by
  have hkc : k < c := hck ▸ parent_lt hc
  have hk : (f ∘ Equiv.swap k c) k = f c := by simp
  have hoth : ∀ j, j ≠ k → j ≠ c → (f ∘ Equiv.swap k c) j = f j := fun j h1 h2 => by simp [Equiv.swap_apply_of_ne_of_ne h1 h2]
  refine ⟨fun j hj hjn hpl hp => ?_, fun _ _ j hj hjn hp => ?_⟩
  · by_cases hjc : j = c
    · rw [hjc, hck]
      simpa using hle
    · by_cases hjk : j = k
      · subst hjk
        have hpj := parent_lt hj
        rw [hk, hoth _ (by omega) (by omega)]
        exact h.grand hj hpl c hc hcn hck
      · rw [hoth j hjk hjc]
        by_cases hpk : parent j = k
        · rw [hpk, hk]
          exact hmax j hj hjn hpk
        · rw [hoth _ hpk hp]
          exact h.edges j hj hjn hpl hpk
  · have hjc := hp ▸ parent_lt hj
    rw [hoth j (by omega) (by omega), hck, hk, ← hp]
    exact h.edges j hj hjn (by omega) (by omega)

/-- The node's children do not exceed it. -/
theorem SinkFrom.done (h : SinkFrom lo n f k) (hk : ∀ j, 0 < j → j < n → parent j = k → f j ≤ f k) : HeapFrom lo n f := by
  intro j hj hjn hlo
  by_cases hp : parent j = k
  · rw [hp]
    exact hk j hj hjn hp
  · exact h.edges j hj hjn hlo hp

theorem HeapFrom.sink (h : HeapFrom (lo + 1) n f) : SinkFrom lo n f lo := by
  refine ⟨fun j hj hjn hlo hp => h j hj hjn (by omega), fun hpos hlo => ?_⟩
  have hlt := parent_lt hpos
  omega

/-- The last value of a heap goes to the root, and the root behind the heap. -/
theorem IsHeap.swap_last (h : IsHeap (n + 1) f) : SinkFrom 0 n (f ∘ Equiv.swap 0 n) 0 := by
  refine ⟨fun j hj hjn _ hp => ?_, fun hpos => absurd hpos (lt_irrefl 0)⟩
  have hpj := parent_lt hj
  simp only [comp_apply]
  rw [Equiv.swap_apply_of_ne_of_ne (by omega) (by omega), Equiv.swap_apply_of_ne_of_ne hp (by omega)]
  exact h j hj (by omega)

/-- A heap but for the node `k`, which its children may exceed; they do not exceed its parent. -/
structure HeapBelow (n : Nat) (f : Nat → α) (k : Nat) : Prop where
  edges : ∀ j, 0 < j → j < n → parent j ≠ k → f j ≤ f (parent j)
  grand : 0 < k → ∀ j, 0 < j → j < n → parent j = k → f j ≤ f (parent k)

theorem heapBelow_iff : HeapBelow n f k ↔ SinkFrom 0 n f k := by
  constructor
  · intro h
    exact ⟨fun j hj hjn _ hp => h.edges j hj hjn hp, fun hk _ => h.grand hk⟩
  · intro h
    exact ⟨fun j hj hjn hp => h.edges j hj hjn (zero_le _) hp, fun hk => h.grand hk (zero_le _)⟩

theorem HeapBelow.swap (h : HeapBelow n f k) (hc : 0 < c) (hcn : c < n) (hck : parent c = k) (hle : f k ≤ f c)
    (hmax : ∀ j, 0 < j → j < n → parent j = k → f j ≤ f c) : HeapBelow n (f ∘ Equiv.swap k c) c :=
  heapBelow_iff.mpr ((heapBelow_iff.mp h).swap (zero_le k) hc hcn hck hle hmax)

/-- The node's children do not exceed it. -/
theorem HeapBelow.done (h : HeapBelow n f k) (hk : ∀ j, 0 < j → j < n → parent j = k → f j ≤ f k) : IsHeap n f :=
  heapFrom_zero.mp ((heapBelow_iff.mp h).done hk)

/-- A heap with a value in the place of another that does not exceed the parent there. -/
theorem IsHeap.update_below {x : α} (h : IsHeap n f) (hmn : m ≤ n) (hx : k < m → 0 < k → x ≤ f (parent k)) : HeapBelow m (update f k x) k := by
  refine ⟨fun j hj hjn hp => ?_, fun hk j hj hjn hp => ?_⟩
  · rw [update_of_ne hp]
    by_cases hjk : j = k
    · grind
    · rw [update_of_ne hjk]
      exact h j hj (by omega)
  · have hkj := hp ▸ parent_lt hj
    have hpk := parent_lt hk
    rw [update_of_ne (by omega), update_of_ne (by omega)]
    exact (h j hj (by omega)).trans (hp ▸ h k hk (by omega))

/-- A heap but for the node `k`, which may exceed its parent; its children do not. -/
structure HeapAbove (n : Nat) (f : Nat → α) (k : Nat) : Prop where
  edges : ∀ j, 0 < j → j < n → j ≠ k → f j ≤ f (parent j)
  grand : 0 < k → ∀ j, 0 < j → j < n → parent j = k → f j ≤ f (parent k)

theorem HeapAbove.swap (h : HeapAbove n f k) (hk : 0 < k) (hkn : k < n) (hle : f (parent k) ≤ f k) :
    HeapAbove n (f ∘ Equiv.swap k (parent k)) (parent k) := by
  have hpk := parent_lt hk
  have hsk : (f ∘ Equiv.swap k (parent k)) k = f (parent k) := by simp
  have hsp : (f ∘ Equiv.swap k (parent k)) (parent k) = f k := by simp
  have hoth : ∀ j, j ≠ k → j ≠ parent k → (f ∘ Equiv.swap k (parent k)) j = f j := fun j h1 h2 => by simp [Equiv.swap_apply_of_ne_of_ne h1 h2]
  refine ⟨fun j hj hjn hp => ?_, fun hpos j hj hjn hp => ?_⟩
  · by_cases hjk : j = k
    · rw [hjk, hsk, hsp]
      exact hle
    · rw [hoth j hjk hp]
      by_cases hjp : parent j = parent k
      · rw [hjp, hsp]
        exact (hjp ▸ h.edges j hj hjn hjk).trans hle
      · by_cases hjk' : parent j = k
        · rw [hjk', hsk]
          exact h.grand hk j hj hjn hjk'
        · rw [hoth _ hjk' hjp]
          exact h.edges j hj hjn hjk
  · have hpp := parent_lt hpos
    have hup : f (parent k) ≤ f (parent (parent k)) := h.edges _ hpos (by omega) (by omega)
    rw [hoth (parent (parent k)) (by omega) (by omega)]
    by_cases hjk : j = k
    · rw [hjk, hsk]
      exact hup
    · have hjp := parent_lt hj
      rw [hoth j hjk (by omega)]
      exact (hp ▸ h.edges j hj hjn hjk).trans hup

/-- The node does not exceed its parent. -/
theorem HeapAbove.done (h : HeapAbove n f k) (hk : 0 < k → f k ≤ f (parent k)) : IsHeap n f := by
  intro j hj hjn
  by_cases hjk : j = k
  · rw [hjk]
    exact hk (hjk ▸ hj)
  · exact h.edges j hj hjn hjk

theorem IsHeap.update_above (h : IsHeap n f) (x : α) : HeapAbove (n + 1) (update f n x) n := by
  refine ⟨fun j hj hjn hjk => ?_, fun _ j hj hjn hp => ?_⟩
  · have hpj := parent_lt hj
    rw [update_of_ne hjk, update_of_ne (by omega)]
    exact h j hj (by omega)
  · have := hp ▸ parent_lt hj
    omega

end CsLearning
