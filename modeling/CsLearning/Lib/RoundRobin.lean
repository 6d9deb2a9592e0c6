import Mathlib

/-!
# Dealing in turn

A sequence dealt to `K` lanes in turn: the element at position `k` goes to the lane `k % K`. `lane K i k xs` is what the lane `i`
gets of the list `xs`, whose first element is at position `k`; the number of positions below `n` that belong to the lane `i` is
`Nat.count (· % K = i) n`.
-/

open Nat Finset

namespace CsLearning

variable {α : Type*} {K i : Nat}

/-- What the lane `i` of `K` gets of a list that starts at position `k`. -/
def lane (K i : Nat) : Nat → List α → List α
  | _, [] => []
  | k, x :: xs => if k % K = i then x :: lane K i (k + 1) xs else lane K i (k + 1) xs

theorem lane_cons_self (k : Nat) (x : α) (xs : List α) (h : k % K = i) : lane K i k (x :: xs) = x :: lane K i (k + 1) xs := by
  rw [lane, if_pos h]

theorem lane_cons_ne (k : Nat) (x : α) (xs : List α) (h : k % K ≠ i) : lane K i k (x :: xs) = lane K i (k + 1) xs := by
  rw [lane, if_neg h]

theorem lane_append (k : Nat) (xs : List α) (x : α) : lane K i k (xs ++ [x]) = lane K i k xs ++ if (k + xs.length) % K = i then [x] else [] := by
  induction xs generalizing k with
  | nil => simp [lane]
  | cons y ys ih =>
    have hlen : k + 1 + ys.length = k + (y :: ys).length := by rw [List.length_cons]; omega
    rw [List.cons_append, lane, lane, ih, hlen]
    split <;> rfl

theorem lane_one (k : Nat) (xs : List α) : lane 1 0 k xs = xs := by
  induction xs generalizing k with
  | nil => rfl
  | cons x xs ih => rw [lane_cons_self k x xs (mod_one k), ih]

/-- A sequence that fills the lane of its next position as far as another does is at least as long as the other. -/
theorem le_of_count_le {n m : Nat} (h : count (fun k => k % K = n % K) m ≤ count (fun k => k % K = n % K) n) : m ≤ n := by
  by_contra hlt
  have := count_strict_mono (p := fun k => k % K = n % K) (m := n) rfl (not_le.mp hlt)
  omega

theorem sum_count (hK : 0 < K) (n : Nat) : ∑ i ∈ range K, count (fun k => k % K = i) n = n := by
  induction n with
  | zero => simp
  | succ n ih =>
    have hone : (∑ i ∈ range K, if n % K = i then 1 else 0) = 1 := by
      rw [sum_ite_eq, if_pos (mem_range.2 (mod_lt n hK))]
    simp only [count_succ, sum_add_distrib, ih, hone]

/-- Positions counted in each lane, `c i`, of which the last `d` are missing: what is left are the first positions. The missing ones
are given by a position `r` of the lane of the first of them. -/
theorem exists_count_of_last {n d r : Nat} {c m : Nat → Nat} (hK : 0 < K)
    (hall : ∀ i, i < K → c i + m i = Nat.count (fun k => k % K = i) n) (hd : d = ∑ i ∈ range K, m i)
    (hr : (r + d) % K = n % K) (hm : ∀ i, i < K → m i = Nat.count (fun k => (r + k) % K = i) d) :
    ∃ n', ∀ i, i < K → c i = Nat.count (fun k => k % K = i) n' := by
  have hdn : d ≤ n := by
    rw [hd, ← sum_count hK n]
    refine sum_le_sum fun i hi => ?_
    have := hall i (mem_range.1 hi)
    omega
  obtain ⟨n', rfl⟩ := Nat.exists_eq_add_of_le' hdn
  have hmod : r % K = n' % K := Nat.ModEq.add_right_cancel' d hr
  refine ⟨n', fun i hi => ?_⟩
  have hcnt := hall i hi
  have hsh : Nat.count (fun k => (r + k) % K = i) d = Nat.count (fun k => (n' + k) % K = i) d := by
    simp only [Nat.add_mod r, Nat.add_mod n', hmod]
  rw [Nat.count_add, hm i hi] at hcnt
  omega

end CsLearning
