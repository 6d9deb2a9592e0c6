import Mathlib

/-!
# Ranks in sorted lists and in grids

An element of a sorted list is at most `x` just when the elements up to `x` are more than those before it. The elements up to `x` in a square grid can
be counted column by column, and in a column that ascends they are the first ones.
-/

open List

namespace CsLearning

variable {α : Type*} [LinearOrder α] {n m j : Nat} {x : α}

theorem getElem_le_iff_lt_countP {s : List α} (hs : s.Pairwise (· ≤ ·)) {i : Nat} (hi : i < s.length) (x : α) : s[i] ≤ x ↔ i < s.countP (· ≤ x) := by
  induction s generalizing i with
  | nil => cases hi
  | cons a s ih =>
    rw [pairwise_cons] at hs
    by_cases ha : a ≤ x
    · rw [countP_cons_of_pos (by simpa using ha)]
      cases i with
      | zero => exact ⟨fun _ => Nat.succ_pos _, fun _ => ha⟩
      | succ i =>
        rw [getElem_cons_succ, ih hs.2]
        exact Nat.succ_lt_succ_iff.symm
    · -- nothing comes after `a` that is smaller
      have hall : ∀ b ∈ a :: s, ¬ b ≤ x := by grind
      have h0 : (a :: s).countP (· ≤ x) = 0 := by grind
      rw [h0]
      exact ⟨fun hle => absurd hle (hall _ (getElem_mem hi)), fun hlt => absurd hlt (Nat.not_lt_zero _)⟩

/-- The `k`-th element in ascending order is at most `x` just when there are `k` elements up to `x`. -/
theorem exists_kth {l : List α} {k : Nat} (hk : 1 ≤ k) (hle : k ≤ l.length) :
    ∃ v, (l.mergeSort (· ≤ ·))[k - 1]? = some v ∧ v ∈ l ∧ ∀ x, v ≤ x ↔ k ≤ l.countP (· ≤ x) := by
  have hsort : (l.mergeSort (· ≤ ·)).Pairwise (· ≤ ·) := pairwise_mergeSort' (· ≤ ·) l
  have hidx : k - 1 < (l.mergeSort (· ≤ ·)).length := by
    rw [length_mergeSort]
    omega
  refine ⟨_, getElem?_eq_getElem hidx, mem_mergeSort.mp (getElem_mem hidx), fun x => ?_⟩
  rw [getElem_le_iff_lt_countP hsort hidx, (mergeSort_perm l _).countP_eq]
  omega

/-- The rows of a square grid. -/
def gridRows (n : Nat) (a : Nat → Nat → α) : List (List α) := (List.range n).map fun i => (List.range n).map (a i)

omit [LinearOrder α] in
theorem length_flatten_gridRows (n : Nat) (a : Nat → Nat → α) : (gridRows n a).flatten.length = n * n := by
  rw [gridRows, length_flatten, map_map, map_congr_left (g := fun _ => n) (by simp), map_const', length_range, sum_replicate, smul_eq_mul]

/-- The number of elements up to `x` in a column. -/
def columnRank (n : Nat) (a : Nat → Nat → α) (x : α) (j : Nat) : Nat := (List.range n).countP fun i => a i j ≤ x

theorem countP_range (n : Nat) (p : Nat → Prop) [DecidablePred p] : (range n).countP (fun i => p i) = ∑ i ∈ Finset.range n, if p i then 1 else 0 := by
  induction n with
  | zero => rfl
  | succ n ih =>
    rw [range_succ, countP_append, ih, Finset.sum_range_succ, countP_singleton]
    simp only [decide_eq_true_eq]

theorem sum_map_range (n : Nat) (f : Nat → Nat) : ((range n).map f).sum = ∑ i ∈ Finset.range n, f i := rfl

theorem countP_flatten_gridRows (n : Nat) (a : Nat → Nat → α) (x : α) :
    (gridRows n a).flatten.countP (· ≤ x) = ∑ j ∈ Finset.range n, columnRank n a x j := by
  have hrow : ∀ i, ((range n).map (a i)).countP (· ≤ x) = ∑ j ∈ Finset.range n, if a i j ≤ x then 1 else 0 := by
    intro i
    rw [countP_map, ← countP_range]
    rfl
  simp only [columnRank, countP_range]
  rw [Finset.sum_comm, countP_flatten, gridRows, map_map, sum_map_range]
  exact Finset.sum_congr rfl fun i _ => hrow i

/-- In a column the elements up to `x` are those of the first `m` rows. -/
theorem columnRank_eq {a : Nat → Nat → α} (hm : m ≤ n) (hle : ∀ i < m, a i j ≤ x) (hgt : ∀ i, m ≤ i → i < n → x < a i j) :
    columnRank n a x j = m := by
  obtain ⟨k, rfl⟩ := Nat.exists_eq_add_of_le hm
  have hfst : (range m).countP (fun i => a i j ≤ x) = (range m).length := by grind [countP_eq_length]
  have hr : ((range k).map (m + ·)).countP (fun i => a i j ≤ x) = 0 := by grind
  rw [columnRank, range_add, countP_append, hfst, hr, length_range, Nat.add_zero]

theorem columnRank_le (n : Nat) (a : Nat → Nat → α) (x : α) (j : Nat) : columnRank n a x j ≤ n := by
  have hle : columnRank n a x j ≤ (range n).length := countP_le_length
  rwa [length_range] at hle

end CsLearning
