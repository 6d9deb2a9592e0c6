import CsLearning.Lib.Loop

/-!
# Tables that are filled row by row

A table has nothing outside of its cells, so that reading or writing there has no outcome. `Filled` says which cells hold the value they are meant
to hold, and there is a rule for each of the loops that fill a table with a first row and a first column: over the first column, over the first row,
and over the cells that depend on their neighbours to the left and above.
-/

open Nat List

namespace CsLearning

abbrev Table (α : Type*) := Nat → Nat → Option α

namespace Table

variable {α : Type*} {m n i j : Nat} {val : Nat → Nat → α} {t : Table α} {P Q : Nat → Nat → Prop}

/-- The rows up to `m` and the columns up to `n`, with the same value everywhere. -/
def const (m n : Nat) (v : α) : Table α := fun i j => if i ≤ m ∧ j ≤ n then some v else none

/-- The table with another value in one of its cells. -/
def put (t : Table α) (i j : Nat) (v : α) : Table α := fun i' j' => if i' = i ∧ j' = j then some v else t i' j'

/-- `t[i][j] = v`. -/
def set (t : Table α) (i j : Nat) (v : α) : Option (Table α) := (t i j).map fun _ => t.put i j v

theorem put_self (t : Table α) (i j : Nat) (v : α) : t.put i j v i j = some v := if_pos ⟨rfl, rfl⟩

theorem put_of_ne {i' j' : Nat} (h : ¬ (i' = i ∧ j' = j)) (v : α) : t.put i j v i' j' = t i' j' := if_neg h

theorem set_eq {w : α} (h : t i j = some w) (v : α) : t.set i j v = some (t.put i j v) := by
  rw [set, h, Option.map_some]

/-- All cells are there, and those in `P` hold their value. -/
structure Filled (m n : Nat) (val : Nat → Nat → α) (t : Table α) (P : Nat → Nat → Prop) : Prop where
  full : ∀ i j, i ≤ m → j ≤ n → ∃ v, t i j = some v
  right : ∀ i j, i ≤ m → j ≤ n → P i j → t i j = some (val i j)

theorem filled_const (m n : Nat) (v : α) (val : Nat → Nat → α) : Filled m n val (const m n v) fun _ _ => False :=
  ⟨fun _ _ hi hj => ⟨v, if_pos ⟨hi, hj⟩⟩, fun _ _ _ _ hP => hP.elim⟩

namespace Filled

theorem mono (h : Filled m n val t P) (hPQ : ∀ i j, i ≤ m → j ≤ n → Q i j → P i j) : Filled m n val t Q :=
  ⟨h.full, fun i j hi hj hQ => h.right i j hi hj (hPQ i j hi hj hQ)⟩

theorem set (h : Filled m n val t P) (hi : i ≤ m) (hj : j ≤ n) {v : α} (hv : v = val i j) :
    ∃ t', t.set i j v = some t' ∧ Filled m n val t' fun i' j' => P i' j' ∨ i' = i ∧ j' = j := by
  obtain ⟨w, hw⟩ := h.full i j hi hj
  refine ⟨_, set_eq hw v, fun i' j' hi' hj' => ?_, fun i' j' hi' hj' hP => ?_⟩
  · by_cases hc : i' = i ∧ j' = j
    · grind [put_self]
    · rw [put_of_ne hc]
      exact h.full i' j' hi' hj'
  · by_cases hc : i' = i ∧ j' = j
    · rw [hc.1, hc.2, put_self, hv]
    · rw [put_of_ne hc]
      exact h.right i' j' hi' hj' (hP.resolve_right hc)

variable {f : Table α → Nat → Option (Table α)}

theorem column (h : Filled m n val t fun i j => i = 0 ∧ j = 0)
    (hstep : ∀ k t P, k < m → Filled m n val t P → P k 0 → ∃ t', f t (k + 1) = some t' ∧ Filled m n val t' fun i j => P i j ∨ i = k + 1 ∧ j = 0) :
    ∃ t', (range' 1 m).foldlM f t = some t' ∧ Filled m n val t' fun _ j => j = 0 := by
  have hst : Filled m n val t fun i j => i < 1 ∧ j = 0 := h.mono fun i j _ _ hP => ⟨Nat.lt_one_iff.mp hP.1, hP.2⟩
  have hrd : ∀ k t, 1 ≤ k → k < 1 + m → (Filled m n val t fun i j => i < k ∧ j = 0) →
      ∃ t', f t k = some t' ∧ Filled m n val t' fun i j => i < k + 1 ∧ j = 0 := by
    intro k t hk hkm h
    obtain ⟨k, rfl⟩ := Nat.exists_eq_succ_of_ne_zero (Nat.one_le_iff_ne_zero.mp hk)
    obtain ⟨t', hrun, hfill⟩ := hstep k t _ (by omega) h ⟨Nat.lt_succ_self k, rfl⟩
    refine ⟨t', hrun, hfill.mono ?_⟩
    rintro i j - - ⟨hi, hj⟩
    rcases Nat.lt_succ_iff_lt_or_eq.mp hi with hi | hi
    · exact .inl ⟨hi, hj⟩
    · exact .inr ⟨hi, hj⟩
  obtain ⟨t', hrun, hfill⟩ := foldlM_up hrd hst
  exact ⟨t', hrun, hfill.mono fun i j hi _ hj => ⟨by omega, hj⟩⟩

theorem row (h : Filled m n val t fun _ j => j = 0)
    (hstep : ∀ k t P, k < n → Filled m n val t P → P 0 k → ∃ t', f t (k + 1) = some t' ∧ Filled m n val t' fun i j => P i j ∨ i = 0 ∧ j = k + 1) :
    ∃ t', (range' 1 n).foldlM f t = some t' ∧ Filled m n val t' fun i j => i = 0 ∨ j = 0 := by
  have hst : Filled m n val t fun i j => i = 0 ∧ j < 1 ∨ j = 0 := h.mono fun i j _ _ hP => hP.elim (fun hP => lt_one_iff.mp hP.2) id
  have hrd : ∀ k t, 1 ≤ k → k < 1 + n → (Filled m n val t fun i j => i = 0 ∧ j < k ∨ j = 0) →
      ∃ t', f t k = some t' ∧ Filled m n val t' fun i j => i = 0 ∧ j < k + 1 ∨ j = 0 := by
    intro k t hk hkn h
    obtain ⟨k, rfl⟩ := exists_eq_succ_of_ne_zero (one_le_iff_ne_zero.mp hk)
    obtain ⟨t', hrun, hfill⟩ := hstep k t _ (by omega) h (.inl ⟨rfl, lt_succ_self k⟩)
    refine ⟨t', hrun, hfill.mono ?_⟩
    rintro i j - - (⟨hi, hj⟩ | hj)
    · omega
    · exact .inl (.inr hj)
  obtain ⟨t', hrun, hfill⟩ := foldlM_up hrd hst
  exact ⟨t', hrun, hfill.mono fun i j _ hj hP => hP.imp_left fun hi => ⟨hi, by omega⟩⟩

section Rows

variable {f : Nat → Table α → Nat → Option (Table α)}
  (hstep : ∀ i j t P, i < m → j < n → Filled m n val t P → P i j → P i (j + 1) → P (i + 1) j →
    ∃ t', f (i + 1) t (j + 1) = some t' ∧ Filled m n val t' fun i' j' => P i' j' ∨ i' = i + 1 ∧ j' = j + 1)

include hstep

theorem nextRow (h : Filled m n val t fun i' j' => i' ≤ i ∨ j' = 0) (hi : i < m) :
    ∃ t', (range' 1 n).foldlM (f (i + 1)) t = some t' ∧ Filled m n val t' fun i' j' => i' ≤ i + 1 ∨ j' = 0 := by
  have hst : Filled m n val t fun i' j' => (i' ≤ i ∨ j' = 0) ∨ i' = i + 1 ∧ j' < 1 :=
    h.mono fun i' j' _ _ hP => hP.elim id fun hP => .inr (lt_one_iff.mp hP.2)
  have hrd : ∀ k t, 1 ≤ k → k < 1 + n → (Filled m n val t fun i' j' => (i' ≤ i ∨ j' = 0) ∨ i' = i + 1 ∧ j' < k) →
      ∃ t', f (i + 1) t k = some t' ∧ Filled m n val t' fun i' j' => (i' ≤ i ∨ j' = 0) ∨ i' = i + 1 ∧ j' < k + 1 := by
    intro k t hk hkn h
    obtain ⟨j, rfl⟩ := exists_eq_succ_of_ne_zero (one_le_iff_ne_zero.mp hk)
    obtain ⟨t', hrun, hfill⟩ := hstep i j t _ hi (by omega) h (.inl (.inl le_rfl)) (.inl (.inl le_rfl)) (.inr ⟨rfl, lt_succ_self j⟩)
    refine ⟨t', hrun, hfill.mono ?_⟩
    rintro i' j' - - (hP | ⟨hi', hj'⟩)
    · exact .inl (.inl hP)
    · omega
  obtain ⟨t', hrun, hfill⟩ := foldlM_up hrd hst
  refine ⟨t', hrun, hfill.mono ?_⟩
  rintro i' j' - hj (hi' | hj')
  · omega
  · exact .inl (.inr hj')

theorem rows (h : Filled m n val t fun i j => i = 0 ∨ j = 0) :
    ∃ t', (range' 1 m).foldlM (fun t i => (range' 1 n).foldlM (f i) t) t = some t' ∧ Filled m n val t' fun _ _ => True := by
  have hst : Filled m n val t fun i j => i < 1 ∨ j = 0 := h.mono fun i j _ _ hP => hP.imp_left lt_one_iff.mp
  have hrd : ∀ k t, 1 ≤ k → k < 1 + m → (Filled m n val t fun i j => i < k ∨ j = 0) →
      ∃ t', (range' 1 n).foldlM (f k) t = some t' ∧ Filled m n val t' fun i j => i < k + 1 ∨ j = 0 := by
    intro k t hk hkm h
    obtain ⟨i, rfl⟩ := exists_eq_succ_of_ne_zero (one_le_iff_ne_zero.mp hk)
    obtain ⟨t', hrow, hfill⟩ := nextRow hstep (h.mono fun i' j' _ _ hP => hP.imp_left lt_succ_of_le) (show i < m by omega)
    exact ⟨t', hrow, hfill.mono fun i' j' _ _ hP => hP.imp_left le_of_lt_succ⟩
  obtain ⟨t', hrun, hfill⟩ := foldlM_up hrd hst
  exact ⟨t', hrun, hfill.mono fun i j hi _ _ => .inl (by omega)⟩

end Rows

end Filled

end Table

end CsLearning
