import CsLearning.Lib.Cells
import CsLearning.Lib.Loop
import CsLearning.Lib.Ranks
import CsLearning.Lib.Word

/-!
# The k-th smallest element of a sorted matrix

Problem 378: bisection between the smallest and the greatest entry. `check` counts the entries up to `mid` on a way from the lower left corner to the
upper right one.

The number it counts is an `int`. The entries of a matrix with at most 46340 rows can all be counted; with one row more there are more entries than
the greatest `int`, and `num` overflows when nearly all of them are counted.
-/

open List Option Nat

namespace CsLearning.LeetCode.KthSmallest

open Word

open Cells

/-! ## The code -/

/-- `matrix[i][j]`. -/
def entry (matrix : List (List Int)) (i j : Int) : Option Int := do
  let row ← (Cells.ofList matrix).get i
  (Cells.ofList row).get j

/-- One round of the loop of `check`, in which `i`, `j` and `num` are the variables, and the expression after it. -/
def checkRound (matrix : List (List Int)) (mid k n : Int) : Int × Int × Int → Option (Round (Int × Int × Int) Bool)
  | (i, j, num) =>
    if i ≥ 0 ∧ j < n then do
      let v ← entry matrix i j
      if v ≤ mid then
        let num ← Word.addInt num (i + 1)
        return .again (i, j + 1, num)
      else return .again (i - 1, j, num)
    else return .stop (decide (num ≥ k))

/-- `check(matrix, mid, k, n)`, with at most `f` rounds. -/
def check (f : Nat) (matrix : List (List Int)) (mid k n : Int) : Option Bool := loop (checkRound matrix mid k n) f (n - 1, 0, 0)

/-- One round of the loop of `kthSmallest`, in which `left` and `right` are the variables. -/
def selectRound (f : Nat) (matrix : List (List Int)) (k n : Int) : Int × Int → Option (Round (Int × Int) Int)
  | (left, right) =>
    if left < right then do
      let sum ← Word.addInt left right
      let mid := sum >>> (1 : Nat)
      let enough ← check f matrix mid k n
      return .again (if enough then (left, mid) else (mid + 1, right))
    else return .stop left

/-- `matrix.size()` as an `int`. -/
def size (matrix : List (List Int)) : Int := Word.toInt matrix.length

/-- `kthSmallest(matrix, k)`, with at most `f` rounds of each loop. -/
def kthSmallest (f : Nat) (matrix : List (List Int)) (k : Int) : Option Int := do
  let n := size matrix
  let left ← entry matrix 0 0
  let right ← entry matrix (n - 1) (n - 1)
  loop (selectRound f matrix k n) f (left, right)

/-! ## What it is for -/

/-- A matrix with `n` rows and `n` columns, all of them ascending. -/
structure Sorted (n : Nat) (matrix : List (List Int)) : Prop where
  length_eq : matrix.length = n
  row_length : ∀ row ∈ matrix, row.length = n
  row_le : ∀ (i j j' : Nat) v v', j ≤ j' → entry matrix i j = some v → entry matrix i j' = some v' → v ≤ v'
  column_le : ∀ (i i' j : Nat) v v', i ≤ i' → entry matrix i j = some v → entry matrix i' j = some v' → v ≤ v'

/-- `left + right` fits in an `int` whenever the loop of `kthSmallest` computes it. -/
def SumsFit (matrix : List (List Int)) (k : Int) : Prop :=
  ∀ f first last left right, entry matrix 0 0 = some first → entry matrix (size matrix - 1) (size matrix - 1) = some last →
    Leads (selectRound f matrix k (size matrix)) (first, last) (left, right) → left < right → -2 ^ 31 ≤ left + right ∧ left + right < 2 ^ 31

/-- `kthSmallest` comes to an end with the `k`-th entry in ascending order. -/
def Selects (matrix : List (List Int)) (k : Nat) : Prop :=
  ∃ f v, kthSmallest f matrix k = some v ∧ (matrix.flatten.mergeSort (· ≤ ·))[k - 1]? = some v ∧ v ∈ matrix.flatten

/-- `check` comes to an end and says whether at least `k` entries are at most `mid`. -/
def Decides (n : Nat) (matrix : List (List Int)) (mid : Int) (k : Nat) : Prop :=
  ∃ f b, check f matrix mid k n = some b ∧ (b = true ↔ k ≤ matrix.flatten.countP (· ≤ mid))

/-! ## Entries -/

variable {n m j k f num : Nat} {matrix : List (List Int)} {a : Nat → Nat → Int} {mid : Int}

/-- The matrix holds the values of `a`, which do not decrease downwards or to the right. -/
structure Grid (n : Nat) (matrix : List (List Int)) (a : Nat → Nat → Int) : Prop where
  eq : matrix = gridRows n a
  le : ∀ i i' j j', i ≤ i' → i' < n → j ≤ j' → j' < n → a i j ≤ a i' j'

theorem entry_gridRows {i : Nat} (hi : i < n) (hj : j < n) : entry (gridRows n a) i j = some (a i j) := by
  have hrow : (ofList (gridRows n a)).get i = some ((range n).map (a i)) := by
    rw [get_natCast, ofList, gridRows, getElem?_map, getElem?_range hi, map_some]
  rw [entry, hrow, bind_eq_bind, bind_some, get_natCast, ofList, getElem?_map, getElem?_range hj, map_some]

theorem Grid.entry_eq (h : Grid n matrix a) {i : Nat} (hi : i < n) (hj : j < n) : entry matrix i j = some (a i j) := by
  rw [h.eq, entry_gridRows hi hj]

theorem Sorted.exists_grid (h : Sorted n matrix) : ∃ a, Grid n matrix a := by
  have hrow : ∀ i (hi : i < matrix.length), matrix[i].length = n := fun i hi => h.row_length _ (getElem_mem hi)
  have heq : matrix = gridRows n fun i j => (entry matrix i j).getD 0 := by
    refine ext_getElem (by rw [gridRows, length_map, length_range, h.length_eq]) fun i hi hi' => ?_
    simp only [gridRows, getElem_map, getElem_range]
    refine ext_getElem (by rw [length_map, length_range, hrow i hi]) fun j hj hj' => ?_
    rw [getElem_map, getElem_range, entry, get_ofList hi, bind_eq_bind, bind_some, get_ofList hj, getD_some]
  refine ⟨_, heq, fun i i' j j' hi hi' hj hj' => ?_⟩
  have hread : ∀ {i j : Nat}, i < n → j < n → entry matrix i j = some ((entry matrix i j).getD 0) := by
    intro i j hi hj
    rw [heq, entry_gridRows hi hj, getD_some]
  have hdown := h.column_le i i' j _ _ hi (hread (by omega) (by omega)) (hread hi' (by omega))
  have hr := h.row_le i' j j' _ _ hj (hread hi' (by omega)) (hread hi' hj')
  exact hdown.trans hr

/-! ## Counting -/

/-- The loop of `check` is in column `j` with the first `m` rows before it: the columns before are counted, and the rows below have nothing up to
`mid` in the others. -/
structure Stair (n : Nat) (a : Nat → Nat → Int) (mid : Int) (m j num : Nat) : Prop where
  rows : m ≤ n
  columns : j ≤ n
  below : ∀ i j', m ≤ i → i < n → j ≤ j' → j' < n → mid < a i j'
  counted : num = ∑ j' ∈ Finset.range j, columnRank n a mid j'

theorem Stair.num_le (h : Stair n a mid m j num) : num ≤ j * n := by
  rw [h.counted]
  calc ∑ j' ∈ Finset.range j, columnRank n a mid j' ≤ ∑ _ ∈ Finset.range j, n := Finset.sum_le_sum fun j' _ => columnRank_le n a mid j'
    _ = j * n := by rw [Finset.sum_const, Finset.card_range, smul_eq_mul]

theorem Stair.right (h : Stair n a mid m j num) (ha : ∀ i i' j j', i ≤ i' → i' < n → j ≤ j' → j' < n → a i j ≤ a i' j') (hm : 0 < m) (hj : j < n)
    (hle : a (m - 1) j ≤ mid) : Stair n a mid m (j + 1) (num + m) := by
  have hr := h.rows
  refine ⟨hr, hj, fun i j' hi hi' hj' hj'' => h.below i j' hi hi' (by omega) hj'', ?_⟩
  have hrank : columnRank n a mid j = m := by
    refine columnRank_eq hr (fun i hi => ?_) fun i hi hi' => h.below i j hi hi' le_rfl hj
    exact (ha i (m - 1) j j (by omega) (by omega) le_rfl hj).trans hle
  rw [Finset.sum_range_succ, ← h.counted, hrank]

/-- The last row before the column has nothing up to `mid` from here on. -/
theorem Stair.up (h : Stair n a mid (m + 1) j num) (ha : ∀ i i' j j', i ≤ i' → i' < n → j ≤ j' → j' < n → a i j ≤ a i' j') (hgt : mid < a m j) :
    Stair n a mid m j num := by
  have hr := h.rows
  refine ⟨by omega, h.columns, fun i j' hi hi' hj hj' => ?_, h.counted⟩
  rcases eq_or_lt_of_le hi with rfl | hlt
  · exact hgt.trans_le (ha m m j j' le_rfl hi' hj hj')
  · exact h.below i j' hlt hi' hj hj'

theorem Stair.total (h : Stair n a mid m j num) (hend : m = 0 ∨ j = n) : num = (gridRows n a).flatten.countP (· ≤ mid) := by
  rw [countP_flatten_gridRows, h.counted]
  rcases hend with rfl | rfl
  · refine Finset.sum_subset (Finset.range_subset_range.mpr h.columns) fun j' hj' hnot => ?_
    rw [Finset.mem_range] at hj' hnot
    exact columnRank_eq (zero_le n) (fun i hi => absurd hi (not_lt_zero i)) fun i _ hi => h.below i j' (zero_le i) hi (by omega) hj'
  · rfl

/-- `check` counts right in a matrix whose entries are not too many. -/
theorem Grid.check_eq (h : Grid n matrix a) (hfits : n * n < 2 ^ 31) (mid : Int) (k : Nat) (hf : 2 * n < f) :
    check f matrix mid k n = some (decide (k ≤ matrix.flatten.countP (· ≤ mid))) := by
  have hrd : ∀ s, (∃ m j num : Nat, s = ((m : Int) - 1, (j : Int), (num : Int)) ∧ Stair n a mid m j num) →
      (∃ b, checkRound matrix mid k n s = some (.stop b) ∧ b = decide (k ≤ matrix.flatten.countP (· ≤ mid))) ∨
        ∃ s', checkRound matrix mid k n s = some (.again s') ∧
          (∃ m j num : Nat, s' = ((m : Int) - 1, (j : Int), (num : Int)) ∧ Stair n a mid m j num) ∧
          (s'.1 + 1 + (n - s'.2.1)).toNat < (s.1 + 1 + (n - s.2.1)).toNat := by
    rintro _ ⟨m, j, num, rfl, hs⟩
    have hcolumns := hs.columns
    rw [checkRound]
    by_cases hend : m = 0 ∨ j = n
    · refine Or.inl ⟨_, by rw [if_neg (by omega)]; rfl, ?_⟩
      have htotal := hs.total hend
      rw [← h.eq] at htotal
      rw [← htotal]
      simp only [cast_le]
    · obtain ⟨m, rfl⟩ := exists_eq_succ_of_ne_zero fun hm => hend (Or.inl hm)
      have hrows := hs.rows
      have hj : j < n := by omega
      have hidx : ((m + 1 : Nat) : Int) - 1 = m := by omega
      right
      rw [if_pos (by omega), hidx, h.entry_eq (by omega) hj]
      simp only [bind_eq_bind, bind_some]
      by_cases hle : a m j ≤ mid
      · have hr := hs.right h.le (succ_pos m) hj hle
        have hmax : (j + 1) * n ≤ n * n := mul_le_mul_right n hj
        have hnum := hr.num_le
        rw [if_pos hle, addInt_of_fits (by omega) (by omega)]
        exact ⟨_, rfl, ⟨m + 1, j + 1, num + (m + 1), by simp, hr⟩, by simp only; omega⟩
      · rw [if_neg hle]
        exact ⟨_, rfl, ⟨m, j, num, rfl, hs.up h.le (not_le.mp hle)⟩, by simp only; omega⟩
  have hst : Stair n a mid n 0 0 := ⟨le_rfl, zero_le n, fun i j' hi hi' => by omega, rfl⟩
  obtain ⟨b, hrun, hb⟩ := loop_of_invariant (n := f) (s := ((n : Int) - 1, 0, 0)) hrd ⟨n, 0, 0, by simp, hst⟩ (by simp only; omega)
  rw [check, hrun, hb]

/-! ## Bisection -/

theorem size_eq (h : Grid n matrix a) (hn : n < 2 ^ 31) : size matrix = n := by
  have hlen : matrix.length = n := by rw [h.eq, gridRows, length_map, length_range]
  rw [size, hlen]
  exact toInt_of_fits (by omega) (by omega)

theorem Grid.between (h : Grid n matrix a) {v : Int} (hv : v ∈ matrix.flatten) : a 0 0 ≤ v ∧ v ≤ a (n - 1) (n - 1) := by
  rw [h.eq, mem_flatten] at hv
  obtain ⟨row, hrow, hv⟩ := hv
  obtain ⟨i, hi, rfl⟩ := mem_map.mp hrow
  obtain ⟨j, hj, rfl⟩ := mem_map.mp hv
  rw [mem_range] at hi hj
  exact ⟨h.le 0 i 0 j (zero_le i) hi (zero_le j) hj, h.le i (n - 1) j (n - 1) (by omega) (by omega) (by omega) (by omega)⟩

theorem selectRound_spec (h : Grid n matrix a) (hfits : n * n < 2 ^ 31) (hf : 2 * n < f) {v left right : Int}
    (hv : ∀ x, v ≤ x ↔ k ≤ matrix.flatten.countP (· ≤ x)) (hlr : left < right) (hl : left ≤ v) (hr : v ≤ right) (hlow : -2 ^ 31 ≤ left + right)
    (hhigh : left + right < 2 ^ 31) :
    ∃ left' right', selectRound f matrix k n (left, right) = some (.again (left', right')) ∧ left' ≤ v ∧ v ≤ right' ∧
      (right' - left').toNat < (right - left).toNat := by
  rw [selectRound, if_pos hlr, Word.addInt_of_fits hlow hhigh]
  simp only [bind_eq_bind, bind_some, Word.shiftRight_one, h.check_eq hfits _ k hf]
  by_cases hmid : v ≤ (left + right) / 2
  · have henough := decide_eq_true ((hv _).mp hmid)
    rw [henough]
    exact ⟨left, (left + right) / 2, rfl, hl, hmid, by omega⟩
  · have hfew := decide_eq_false (mt (hv _).mpr hmid)
    rw [hfew]
    exact ⟨(left + right) / 2 + 1, right, rfl, by omega, hr, by omega⟩

theorem Grid.selects (h : Grid n matrix a) (hpos : 0 < n) (hf : n * n < 2 ^ 31) (hk : 1 ≤ k) (hk' : k ≤ n * n) (hsums : SumsFit matrix k) :
    Selects matrix k := by
  have hlen : matrix.flatten.length = n * n := by rw [h.eq, length_flatten_gridRows]
  obtain ⟨v, hv, hmem, hrank⟩ := exists_kth hk (hlen ▸ hk')
  have hn : n < 2 ^ 31 := (le_mul_self n).trans_lt hf
  have hs := size_eq h hn
  have hfst : entry matrix 0 0 = some (a 0 0) := h.entry_eq hpos hpos
  have hlast : entry matrix (size matrix - 1) (size matrix - 1) = some (a (n - 1) (n - 1)) := by
    have hcast : (n : Int) - 1 = (n - 1 : Nat) := by omega
    rw [hs, hcast]
    exact h.entry_eq (by omega) (by omega)
  let f := 2 * n + (a (n - 1) (n - 1) - a 0 0).toNat + 1
  have hrd : ∀ s : Int × Int, (Leads (selectRound f matrix k (size matrix)) (a 0 0, a (n - 1) (n - 1)) s ∧ s.1 ≤ v ∧ v ≤ s.2) →
      (∃ w, selectRound f matrix k (size matrix) s = some (.stop w) ∧ w = v) ∨ ∃ s', selectRound f matrix k (size matrix) s = some (.again s') ∧
          (Leads (selectRound f matrix k (size matrix)) (a 0 0, a (n - 1) (n - 1)) s' ∧ s'.1 ≤ v ∧ v ≤ s'.2) ∧
          (s'.2 - s'.1).toNat < (s.2 - s.1).toNat := by
    rintro ⟨left, right⟩ ⟨hleads, hl, hr⟩
    by_cases hlr : left < right
    · obtain ⟨hlow, hhigh⟩ := hsums f _ _ left right hfst hlast hleads hlr
      obtain ⟨left', right', hagain, hl', hr', hlt⟩ := selectRound_spec h hf (show 2 * n < f by omega) hrank hlr hl hr hlow hhigh
      rw [← hs] at hagain
      exact Or.inr ⟨_, hagain, ⟨hleads.tail hagain, hl', hr'⟩, hlt⟩
    · refine Or.inl ⟨left, by rw [selectRound, if_neg hlr]; rfl, ?_⟩
      omega
  obtain ⟨hmin, hmax⟩ := h.between hmem
  obtain ⟨w, hrun, rfl⟩ := loop_of_invariant (n := f) hrd ⟨Relation.ReflTransGen.refl, hmin, hmax⟩ (by simp only; omega)
  refine ⟨f, w, ?_, hv, hmem⟩
  rw [kthSmallest, hfst]
  simp only [bind_eq_bind, bind_some, hlast, hrun]

/-! ## The matrices that are too large -/

/-- When the entries of the first `m` rows are all counted and are too many, the loop comes to a number that does not fit. -/
theorem loop_overflows (h : Grid n matrix a) (hm : 0 < m) (hmn : m ≤ n) (hmany : 2 ^ 31 ≤ n * m) (hle : ∀ i < m, ∀ j < n, a i j ≤ mid) (hj : j < n) :
    loop (checkRound matrix mid k n) f ((m : Int) - 1, j, (j * m : Nat)) = none := by
  induction f generalizing j with
  | zero => rfl
  | succ f ih =>
    have hidx : (m : Int) - 1 = (m - 1 : Nat) := by omega
    have hentry : entry matrix ((m : Int) - 1) j = some (a (m - 1) j) := by rw [hidx, h.entry_eq (by omega) hj]
    have hn : (j * m : Nat) + ((m : Int) - 1 + 1) = ((j + 1) * m : Nat) := by
      push_cast
      ring
    rcases lt_or_ge ((j + 1) * m) (2 ^ 31) with hf | hlarge
    · have hrd : checkRound matrix mid k n ((m : Int) - 1, j, (j * m : Nat)) =
          some (.again ((m : Int) - 1, ((j + 1 : Nat) : Int), ((j + 1) * m : Nat))) := by
        rw [checkRound, if_pos (by omega), hentry]
        simp only [bind_eq_bind, bind_some]
        rw [if_pos (hle (m - 1) (by omega) j hj), addInt_of_fits (by omega) (by omega), hn]
        rfl
      have hlt : j + 1 < n := by grind
      rw [loop_of_again hrd]
      exact ih hlt
    · have hrd : checkRound matrix mid k n ((m : Int) - 1, j, (j * m : Nat)) = none := by
        rw [checkRound, if_pos (by omega), hentry]
        simp only [bind_eq_bind, bind_some]
        rw [if_pos (hle (m - 1) (by omega) j hj), addInt_of_large (by omega)]
        rfl
      rw [loop, hrd]

theorem Grid.check_overflows (h : Grid n matrix a) (hpos : 0 < n) (hmany : 2 ^ 31 ≤ n * n) (f k : Nat) :
    check f matrix (a (n - 1) (n - 1)) k n = none := by
  have hle : ∀ i < n, ∀ j < n, a i j ≤ a (n - 1) (n - 1) := fun i hi j hj => h.le i (n - 1) j (n - 1) (by omega) (by omega) (by omega) (by omega)
  have hl := loop_overflows (f := f) (k := k) h hpos le_rfl hmany hle hpos
  rwa [zero_mul] at hl

theorem entry_gridRows_eq_some {i j : Nat} {v : Int} (h : entry (gridRows n a) i j = some v) : i < n ∧ j < n ∧ v = a i j := by
  rw [entry, bind_eq_bind, bind_eq_some_iff] at h
  obtain ⟨row, hrow, hv⟩ := h
  rw [get_natCast, ofList, gridRows, getElem?_map, map_eq_some_iff] at hrow
  obtain ⟨i', hi', rfl⟩ := hrow
  rw [get_natCast, ofList, getElem?_map, map_eq_some_iff] at hv
  obtain ⟨j', hj', rfl⟩ := hv
  rw [getElem?_eq_some_iff] at hi' hj'
  obtain ⟨hi, rfl⟩ := hi'
  obtain ⟨hj, rfl⟩ := hj'
  rw [getElem_range, getElem_range]
  rw [length_range] at hi hj
  exact ⟨hi, hj, rfl⟩

theorem sorted_gridRows (ha : ∀ i i' j j', i ≤ i' → i' < n → j ≤ j' → j' < n → a i j ≤ a i' j') : Sorted n (gridRows n a) := by
  refine ⟨by rw [gridRows, length_map, length_range], ?_, ?_, ?_⟩
  · intro row hrow
    obtain ⟨i, -, rfl⟩ := mem_map.mp hrow
    rw [length_map, length_range]
  · intro i j j' v v' hj hv hv'
    obtain ⟨hi, -, rfl⟩ := entry_gridRows_eq_some hv
    obtain ⟨-, hj', rfl⟩ := entry_gridRows_eq_some hv'
    exact ha i i j j' le_rfl hi hj hj'
  · intro i i' j v v' hi hv hv'
    obtain ⟨-, hj, rfl⟩ := entry_gridRows_eq_some hv
    obtain ⟨hi', -, rfl⟩ := entry_gridRows_eq_some hv'
    exact ha i i' j j hi hi' le_rfl hj

/-- Zeros, with a last row of ones. -/
def onesBelow (n : Nat) : Nat → Nat → Int := fun i _ => if i + 1 < n then 0 else 1

theorem onesBelow_le (n : Nat) : ∀ i i' j j', i ≤ i' → i' < n → j ≤ j' → j' < n → onesBelow n i j ≤ onesBelow n i' j' := by
  grind [onesBelow]

theorem check_onesBelow (hn : 1 < n) (hmany : 2 ^ 31 ≤ n * (n - 1)) (f k : Nat) : check f (gridRows n (onesBelow n)) 0 k n = none := by
  have hgrid : Grid n (gridRows n (onesBelow n)) (onesBelow n) := ⟨rfl, onesBelow_le n⟩
  have hcast : (n : Int) - 1 = (n - 1 : Nat) := by omega
  cases f with
  | zero => rfl
  | succ f =>
    have hrd : checkRound (gridRows n (onesBelow n)) 0 k n ((n : Int) - 1, 0, 0) = some (.again (((n - 1 : Nat) : Int) - 1, 0, 0)) := by
      have hentry : entry (gridRows n (onesBelow n)) ((n : Int) - 1) 0 = some 1 := by
        have hone : onesBelow n (n - 1) 0 = 1 := if_neg (by omega)
        rw [hcast, ← hone]
        exact hgrid.entry_eq (i := n - 1) (j := 0) (by omega) (by omega)
      rw [checkRound, if_pos (by omega), hentry]
      rw [hcast]
      rfl
    have h0 : ∀ i < n - 1, ∀ j < n, onesBelow n i j ≤ 0 := fun i hi j _ => (if_pos (by omega)).le
    have hl := loop_overflows (f := f) (k := k) (m := n - 1) hgrid (by omega) (by omega) hmany h0 (show 0 < n by omega)
    rw [check, loop_of_again hrd]
    rwa [zero_mul] at hl

/-! ## The result -/

/-- `kthSmallest` does not find the smallest of the zeros and ones in a matrix with 46342 rows, although `left + right` is never more than one. -/
theorem kthSmallest_overflows :
    Sorted 46342 (gridRows 46342 (onesBelow 46342)) ∧ SumsFit (gridRows 46342 (onesBelow 46342)) (1 : Nat) ∧
      ¬ Selects (gridRows 46342 (onesBelow 46342)) 1 := by
  have hgrid : Grid 46342 (gridRows 46342 (onesBelow 46342)) (onesBelow 46342) := ⟨rfl, onesBelow_le _⟩
  have hsize := size_eq hgrid (by decide)
  have hfirst : entry (gridRows 46342 (onesBelow 46342)) 0 0 = some 0 := hgrid.entry_eq (i := 0) (j := 0) (by decide) (by decide)
  have hlast : entry (gridRows 46342 (onesBelow 46342)) (size (gridRows 46342 (onesBelow 46342)) - 1) (size (gridRows 46342 (onesBelow 46342)) - 1) =
      some 1 := by
    rw [hsize]
    exact hgrid.entry_eq (i := 46341) (j := 46341) (by decide) (by decide)
  have hround : ∀ f, selectRound f (gridRows 46342 (onesBelow 46342)) (1 : Nat) (size (gridRows 46342 (onesBelow 46342))) (0, 1) = none := by
    intro f
    have hsum : Word.addInt 0 1 = some 1 := rfl
    rw [selectRound, hsum, bind_eq_bind, bind_some, Word.shiftRight_one, hsize]
    simp only [show (1 : Int) / 2 = 0 by decide, check_onesBelow (n := 46342) (by decide) (by decide)]
    rfl
  refine ⟨sorted_gridRows (onesBelow_le _), ?_, ?_⟩
  · intro f first last left right hfirst' hlast' hleads _
    rw [hfirst, some.injEq] at hfirst'
    rw [hlast, some.injEq] at hlast'
    subst hfirst' hlast'
    rcases Relation.ReflTransGen.cases_head hleads with heq | ⟨s, hstep, -⟩
    · simp only [Prod.mk.injEq] at heq
      omega
    · rw [hround f] at hstep
      cases hstep
  · rintro ⟨f, v, hrun, -⟩
    rw [kthSmallest, hfirst] at hrun
    simp only [bind_eq_bind, bind_some, hlast] at hrun
    cases f with
    | zero => cases hrun
    | succ f =>
      rw [loop, hround] at hrun
      cases hrun

/-- The sorted matrices in which `kthSmallest` and `check` are right, for every `k`. -/
theorem kthSmallest_selects_iff (h : Sorted n matrix) (hpos : 1 ≤ n) (hn : n < 2 ^ 31) :
    (∀ k : Nat, 1 ≤ k → k ≤ n * n → k < 2 ^ 31 → (SumsFit matrix k → Selects matrix k) ∧ ∀ mid, Decides n matrix mid k) ↔ n ≤ 46340 := by
  obtain ⟨a, hgrid⟩ := h.exists_grid
  constructor
  · intro hright
    by_contra hlarge
    have hmany : 46341 * 46341 ≤ n * n := Nat.mul_le_mul (by omega) (by omega)
    obtain ⟨f, b, hrun, -⟩ := (hright 1 le_rfl (by omega) (by decide)).2 (a (n - 1) (n - 1))
    rw [hgrid.check_overflows hpos (by omega)] at hrun
    cases hrun
  · intro hsmall k hk hk' _
    have hfew : n * n ≤ 46340 * 46340 := Nat.mul_le_mul hsmall hsmall
    refine ⟨fun hsums => hgrid.selects hpos (by omega) hk hk' hsums, fun mid => ?_⟩
    exact ⟨2 * n + 1, _, hgrid.check_eq (by omega) mid k (Nat.lt_succ_self _), decide_eq_true_iff⟩

/-- The matrix of the rows `0, 1` and `2, 3`. -/
theorem kthSmallest_selects_two :
    Sorted 2 (gridRows 2 fun i j => (2 * i + j : Nat)) ∧
      ((∀ k : Nat, 1 ≤ k → k ≤ 2 * 2 → k < 2 ^ 31 →
        (SumsFit (gridRows 2 fun i j => (2 * i + j : Nat)) k → Selects (gridRows 2 fun i j => (2 * i + j : Nat)) k) ∧
          ∀ mid, Decides 2 (gridRows 2 fun i j => (2 * i + j : Nat)) mid k) ↔ 2 ≤ 46340) := by
  have hsorted : Sorted 2 (gridRows 2 fun i j => (2 * i + j : Nat)) := sorted_gridRows fun i i' j j' hi _ hj _ => by omega
  exact ⟨hsorted, kthSmallest_selects_iff hsorted (by decide) (by decide)⟩

end CsLearning.LeetCode.KthSmallest
