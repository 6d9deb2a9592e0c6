import CsLearning.Lib.Edits
import CsLearning.Lib.Tables
import CsLearning.Lib.Text

/-!
# Edit distance

Problem 72: the recursive function, and the tables of the Python and of the C++ solution. All of them compare the last characters of two prefixes, so
the number for two prefixes is `lev` of the prefixes read backwards, and edits can be read backwards, too.
-/

open List Option Nat

namespace CsLearning.LeetCode.EditDistance

/-! ## The code -/

/-- `dp(i - 1, j - 1)` of the recursive function. -/
def dp (s1 s2 : Text) : Nat → Nat → Option Nat
  | 0, j => some j
  | i + 1, 0 => some (i + 1)
  | i + 1, j + 1 => do
    let a ← s1[i]?
    let b ← s2[j]?
    if a = b then dp s1 s2 i j
    else
      let insert ← dp s1 s2 (i + 1) j
      let delete ← dp s1 s2 i (j + 1)
      let replace ← dp s1 s2 i j
      return min (min (insert + 1) (delete + 1)) (replace + 1)
termination_by i j => i + j

/-- `minDistance(s1, s2)` by recursion. -/
def minDistance (s1 s2 : Text) : Option Nat := dp s1 s2 s1.length s2.length

/-- The table of the other solutions: nothing outside of it. -/
abbrev Table := Nat → Nat → Option Nat

/-- A table of zeros with the rows up to `m` and the columns up to `n`. -/
def Table.zeros (m n : Nat) : Table := fun i j => if i ≤ m ∧ j ≤ n then some 0 else none

/-- `dp[i][j] = v`. -/
def Table.set (t : Table) (i j v : Nat) : Option Table := (t i j).map fun _ => fun i' j' => if i' = i ∧ j' = j then some v else t i' j'

/-- The loops over the first column and over the first row. -/
def fillBorders (m n : Nat) (t : Table) : Option Table := do
  let t ← (List.range' 1 m).foldlM (fun t i => Table.set t i 0 i) t
  (List.range' 1 n).foldlM (fun t j => Table.set t 0 j j) t

/-- The body of the loops over the other cells. -/
def fillCell (word1 word2 : Text) (i : Nat) (t : Table) (j : Nat) : Option Table := do
  let a ← word1[i - 1]?
  let b ← word2[j - 1]?
  if a = b then
    let v ← t (i - 1) (j - 1)
    t.set i j v
  else
    let delete ← t (i - 1) j
    let insert ← t i (j - 1)
    let replace ← t (i - 1) (j - 1)
    t.set i j (min (min (delete + 1) (insert + 1)) (replace + 1))

/-- The loops over the other cells. -/
def fillRows (word1 word2 : Text) (t : Table) : Option Table :=
  (List.range' 1 word1.length).foldlM (fun t i => (List.range' 1 word2.length).foldlM (fillCell word1 word2 i) t) t

/-- `minDistance` of the Python solution. -/
def Py.minDistance (word1 word2 : Text) : Option Nat := do
  let t ← fillBorders word1.length word2.length (Table.zeros word1.length word2.length)
  let t ← fillRows word1 word2 t
  t word1.length word2.length

/-- `minDistance` of the C++ solution. -/
def Cpp.minDistance (word1 word2 : Text) : Option Nat := do
  let t ← (Table.zeros word1.length word2.length).set 0 0 0
  let t ← fillBorders word1.length word2.length t
  let t ← fillRows word1 word2 t
  t word1.length word2.length

/-! ## Prefixes -/

variable {s1 s2 : Text} {i j m n : Nat} {t : Table}

/-- The least number of edits for two prefixes. -/
def dist (s1 s2 : Text) (i j : Nat) : Nat := lev (s1.take i).reverse (s2.take j).reverse

theorem dist_zero_left (hj : j ≤ s2.length) : dist s1 s2 0 j = j := by
  rw [dist, take_zero, reverse_nil, lev_nil_left, length_reverse, length_take_of_le hj]

theorem dist_zero_right (hi : i ≤ s1.length) : dist s1 s2 i 0 = i := by
  rw [dist, take_zero, reverse_nil, lev_nil_right, length_reverse, length_take_of_le hi]

theorem reverse_take_succ {s : Text} {c : Char} (h : s[i]? = some c) : (s.take (i + 1)).reverse = c :: (s.take i).reverse := by
  rw [take_add_one, h, toList_some, reverse_append, reverse_singleton, singleton_append]

theorem dist_succ_of_eq {a : Char} (ha : s1[i]? = some a) (hb : s2[j]? = some a) : dist s1 s2 (i + 1) (j + 1) = dist s1 s2 i j := by
  rw [dist, reverse_take_succ ha, reverse_take_succ hb, lev_cons_self, dist]

theorem dist_succ_of_ne {a b : Char} (ha : s1[i]? = some a) (hb : s2[j]? = some b) (hab : a ≠ b) :
    dist s1 s2 (i + 1) (j + 1) = min (min (dist s1 s2 i (j + 1)) (dist s1 s2 (i + 1) j)) (dist s1 s2 i j) + 1 := by
  simp only [dist]
  rw [reverse_take_succ ha, reverse_take_succ hb, lev_cons_of_ne hab]

theorem dist_isLeast (s1 s2 : Text) : IsLeast {n | Edits n s1 s2} (dist s1 s2 s1.length s2.length) := by
  grind [lev_isLeast, edits_reverse, dist]

/-! ## The recursive function -/

theorem dp_eq (hi : i ≤ s1.length) (hj : j ≤ s2.length) : dp s1 s2 i j = some (dist s1 s2 i j) := by
  induction hn : i + j using Nat.strong_induction_on generalizing i j with
  | _ n ih =>
    cases i with
    | zero => rw [dp, dist_zero_left hj]
    | succ i =>
      cases j with
      | zero => rw [dp, dist_zero_right hi]
      | succ j =>
        have ha : s1[i]? = some s1[i] := getElem?_eq_getElem hi
        have hb : s2[j]? = some s2[j] := getElem?_eq_getElem hj
        have hboth : dp s1 s2 i j = some (dist s1 s2 i j) := ih (i + j) (by omega) (by omega) (by omega) rfl
        rw [dp, ha, hb]
        simp only [bind_eq_bind, bind_some]
        by_cases hab : s1[i] = s2[j]
        · rw [if_pos hab, hboth, dist_succ_of_eq ha (hab ▸ hb)]
        · have hfst : dp s1 s2 i (j + 1) = some (dist s1 s2 i (j + 1)) := ih (i + (j + 1)) (by omega) (by omega) hj rfl
          have hsnd : dp s1 s2 (i + 1) j = some (dist s1 s2 (i + 1) j) := ih (i + 1 + j) (by omega) hi (by omega) rfl
          rw [if_neg hab, hsnd, hfst, hboth, dist_succ_of_ne ha hb hab]
          simp only [bind_some, Option.pure_def]
          rw [← min_add_add_right, ← min_add_add_right, min_comm (dist s1 s2 (i + 1) j + 1)]

/-! ## The tables -/

/-- The table has all its cells, and those in `P` hold the number for their prefixes. -/
structure Filled (s1 s2 : Text) (t : Table) (P : Nat → Nat → Prop) : Prop where
  full : ∀ i j, i ≤ s1.length → j ≤ s2.length → ∃ v, t i j = some v
  right : ∀ i j, i ≤ s1.length → j ≤ s2.length → P i j → t i j = some (dist s1 s2 i j)

variable {P : Nat → Nat → Prop}

theorem filled_iff : Filled s1 s2 t P ↔ Table.Filled s1.length s2.length (dist s1 s2) t P := ⟨fun h => ⟨h.full, h.right⟩, fun h => ⟨h.full, h.right⟩⟩

theorem filled_zeros (s1 s2 : Text) : Filled s1 s2 (Table.zeros s1.length s2.length) fun i j => i = 0 ∧ j = 0 := by
  refine ⟨fun i j hi hj => ⟨0, if_pos ⟨hi, hj⟩⟩, ?_⟩
  rintro i j hi hj ⟨rfl, rfl⟩
  rw [dist_zero_left hj]
  exact if_pos ⟨hi, hj⟩

theorem fillBorders_spec (h : Filled s1 s2 t fun i j => i = 0 ∧ j = 0) :
    ∃ t', fillBorders s1.length s2.length t = some t' ∧ Filled s1 s2 t' fun i j => i = 0 ∨ j = 0 := by
  obtain ⟨t1, hcolumn, h1⟩ := (filled_iff.mp h).column (f := fun t i => Table.set t i 0 i) fun k t P hk h _ =>
    h.set hk (zero_le _) (dist_zero_right hk).symm
  obtain ⟨t2, hrow, h2⟩ := h1.row (f := fun t j => Table.set t 0 j j) fun k t P hk h _ =>
    h.set (zero_le _) hk (dist_zero_left hk).symm
  refine ⟨t2, ?_, filled_iff.mpr h2⟩
  rw [fillBorders, hcolumn]
  exact hrow

theorem fillCell_spec (h : Table.Filled s1.length s2.length (dist s1 s2) t P) (hi : i < s1.length) (hj : j < s2.length) (hboth : P i j)
    (hfst : P i (j + 1)) (hsnd : P (i + 1) j) :
    ∃ t', fillCell s1 s2 (i + 1) t (j + 1) = some t' ∧
      Table.Filled s1.length s2.length (dist s1 s2) t' fun i' j' => P i' j' ∨ i' = i + 1 ∧ j' = j + 1 := by
  have ha : s1[i]? = some s1[i] := getElem?_eq_getElem hi
  have hb : s2[j]? = some s2[j] := getElem?_eq_getElem hj
  rw [fillCell, Nat.add_sub_cancel, Nat.add_sub_cancel, ha, hb, h.right i j hi.le hj.le hboth]
  simp only [bind_eq_bind, bind_some]
  by_cases hab : s1[i] = s2[j]
  · rw [if_pos hab]
    exact h.set hi hj (dist_succ_of_eq ha (hab ▸ hb)).symm
  · rw [if_neg hab, h.right i (j + 1) hi.le hj hfst, h.right (i + 1) j hi hj.le hsnd]
    refine h.set hi hj ?_
    rw [dist_succ_of_ne ha hb hab, ← min_add_add_right, ← min_add_add_right]

theorem fillRows_spec (h : Filled s1 s2 t fun i j => i = 0 ∨ j = 0) : ∃ t', fillRows s1 s2 t = some t' ∧ Filled s1 s2 t' fun _ _ => True := by
  obtain ⟨t', hr, h'⟩ := (filled_iff.mp h).rows fun i j t P hi hj h hboth hfst hsnd => fillCell_spec h hi hj hboth hfst hsnd
  exact ⟨t', hr, filled_iff.mpr h'⟩

theorem fill_spec (h : Filled s1 s2 t fun i j => i = 0 ∧ j = 0) : ∃ t1 t2, fillBorders s1.length s2.length t = some t1 ∧ fillRows s1 s2 t1 = some t2 ∧
      t2 s1.length s2.length = some (dist s1 s2 s1.length s2.length) := by
  obtain ⟨t1, hborder, h1⟩ := fillBorders_spec h
  obtain ⟨t2, hr, h2⟩ := fillRows_spec h1
  exact ⟨t1, t2, hborder, hr, h2.right _ _ le_rfl le_rfl trivial⟩

theorem Py.minDistance_eq (s1 s2 : Text) : Py.minDistance s1 s2 = some (dist s1 s2 s1.length s2.length) := by
  obtain ⟨t1, t2, hborder, hr, hl⟩ := fill_spec (filled_zeros s1 s2)
  rw [Py.minDistance, hborder]
  simp only [bind_eq_bind, bind_some, hr, hl]

theorem Cpp.minDistance_eq (s1 s2 : Text) : Cpp.minDistance s1 s2 = some (dist s1 s2 s1.length s2.length) := by
  obtain ⟨t, hset, hfill⟩ := (filled_iff.mp (filled_zeros s1 s2)).set (zero_le _) (zero_le _) (dist_zero_left (zero_le _)).symm
  obtain ⟨t1, t2, hborder, hr, hl⟩ := fill_spec (filled_iff.mpr (hfill.mono fun i j _ _ hP => Or.inl hP))
  change Table.set _ _ _ _ = _ at hset
  rw [Cpp.minDistance, hset]
  simp only [bind_eq_bind, bind_some, hborder, hr, hl]

/-! ## The result -/

/-- All three return the least number of edits that lead from the first text to the second. -/
theorem minDistance_least (s1 s2 : Text) :
    ∃ v, minDistance s1 s2 = some v ∧ Py.minDistance s1 s2 = some v ∧ Cpp.minDistance s1 s2 = some v ∧ IsLeast {n | Edits n s1 s2} v :=
  ⟨dist s1 s2 s1.length s2.length, dp_eq le_rfl le_rfl, Py.minDistance_eq s1 s2, Cpp.minDistance_eq s1 s2, dist_isLeast s1 s2⟩

/-- What all three return is a metric on the texts: zero between equal ones only, the same in both directions, and no greater than the way over a
third text. -/
theorem minDistance_metric : ∃ d : Text → Text → Nat,
    (∀ a b, minDistance a b = some (d a b) ∧ Py.minDistance a b = some (d a b) ∧ Cpp.minDistance a b = some (d a b)) ∧
    (∀ a b, d a b = 0 ↔ a = b) ∧ (∀ a b, d a b = d b a) ∧ ∀ a b c, d a c ≤ d a b + d b c := by
  let d := fun a b : Text => dist a b a.length b.length
  have hd : ∀ a b, IsLeast {n | Edits n a b} (d a b) := dist_isLeast
  have hle : ∀ a b, d a b ≤ d b a := fun a b => (hd a b).2 (hd b a).1.symm
  refine ⟨d, fun a b => ⟨dp_eq le_rfl le_rfl, Py.minDistance_eq a b, Cpp.minDistance_eq a b⟩, fun a b => ⟨fun h0 => ?_, ?_⟩,
    fun a b => le_antisymm (hle a b) (hle b a), fun a b c => (hd a c).2 ((hd a b).1.trans (hd b c).1)⟩
  · have hedits : Edits (d a b) a b := (hd a b).1
    rw [h0] at hedits
    cases hedits
    rfl
  · rintro rfl
    exact Nat.le_zero.mp ((hd a a).2 (.refl a))

end CsLearning.LeetCode.EditDistance
