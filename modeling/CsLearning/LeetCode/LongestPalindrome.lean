import CsLearning.Lib.Cells
import CsLearning.Lib.Cpp
import CsLearning.Lib.Palindromes
import CsLearning.Lib.Tables

/-!
# The longest palindromic substring

Problem 5: all substrings are tried, or they are decided in a table, or every centre is spread out, with a function for it or with two loops.

The table is not initialised: reading a cell before it is written has no outcome. The two loops leave out the first centre and the last one.
-/

open List Option Nat

namespace CsLearning.LeetCode.LongestPalindrome

/-- `s.substr(start, count)`: a `start` behind the end throws, and a negative number is converted to one that is larger than any size. -/
def substr (s : Text) (start count : Int) : Option Text :=
  if 0 ≤ start then Text.cut s start.toNat (if 0 ≤ count then count.toNat else s.length) else none

/-! ## All substrings -/

/-- `valid(s, left, right)`. -/
def valid (s : Text) (left right : Nat) : Option Bool :=
  if left < right then do
    let a ← s[left]?
    let b ← s[right]?
    if a ≠ b then return false else valid s (left + 1) (right - 1)
  else some true
termination_by right - left

/-- `j - i + 1 > maxLen && valid(s, i, j)`. -/
def longer (s : Text) (i j maxLen : Nat) : Option Bool := if j - i + 1 > maxLen then valid s i j else some false

/-- The body of the inner loop, for `maxLen` and `res`. -/
def Brute.body (s : Text) (i : Nat) (x : Nat × Text) (j : Nat) : Option (Nat × Text) := do
  let found ← longer s i j x.1
  if found then
    let res ← substr s i (j - i + 1 : Nat)
    return (j - i + 1, res)
  else return x

def Brute.longestPalindrome (s : Text) : Option Text :=
  if s.length < 2 then some s
  else do
    let res ← substr s 0 1
    let x ← (List.range' 0 (s.length - 1)).foldlM
      (fun x i => (List.range' (i + 1) (s.length - (i + 1))).foldlM (Brute.body s i) x) (1, res)
    return x.2

/-! ## The table -/

/-- The local variables `dp`, `max_len` and `start`. -/
structure Dp.State where
  dp : Table (Option Bool)
  maxLen : Nat
  start : Nat

/-- What is assigned to `dp[i][j]`. -/
def Dp.cell (s : Text) (dp : Table (Option Bool)) (i j : Nat) : Option Bool := do
  let a ← s[i]?
  let b ← s[j]?
  if a = b then
    if j - i < 3 then return true else (dp (i + 1) (j - 1)).join
  else return false

/-- The body of the inner loop. -/
def Dp.body (s : Text) (j : Nat) (x : Dp.State) (i : Nat) : Option Dp.State := do
  let v ← Dp.cell s x.dp i j
  let dp ← x.dp.set i j (some v)
  let here ← (dp i j).join
  if here = true ∧ j - i + 1 > x.maxLen then return ⟨dp, j - i + 1, i⟩ else return { x with dp := dp }

def Dp.longestPalindrome (s : Text) : Option Text :=
  if s.length < 2 then some s
  else do
    let x ← (List.range' 1 (s.length - 1)).foldlM (fun x j => (List.range' 0 j).foldlM (Dp.body s j) x)
      ⟨Table.const (s.length - 1) (s.length - 1) none, 1, 0⟩
    substr s x.start x.maxLen

/-! ## The centres -/

/-- The loop that goes outwards, for `i` and `j`. -/
def spread (s : Text) (i j : Int) : Option (Int × Int) :=
  if 0 ≤ i ∧ j < s.length then do
    let a ← (Cells.ofList s).get i
    let b ← (Cells.ofList s).get j
    if a = b then spread s (i - 1) (j + 1) else return (i, j)
  else some (i, j)
termination_by (s.length - j).toNat

/-- `centerSpread(s, left, right)`. -/
def centerSpread (s : Text) (left right : Int) : Option Text := do
  let x ← spread s left right
  substr s (x.1 + 1) (x.2 - x.1 - 1)

/-- The body of the loop over the centres, for `maxLen` and `res`. -/
def Center.body (s : Text) (x : Nat × Text) (i : Nat) : Option (Nat × Text) := do
  let oddStr ← centerSpread s i i
  let evenStr ← centerSpread s i (i + 1 : Nat)
  let maxLenStr := if oddStr.length > evenStr.length then oddStr else evenStr
  if maxLenStr.length > x.1 then return (maxLenStr.length, maxLenStr) else return x

def Center.longestPalindrome (s : Text) : Option Text :=
  if s.length < 2 then some s
  else do
    let res ← substr s 0 1
    let x ← (List.range' 0 (s.length - 1)).foldlM (Center.body s) (1, res)
    return x.2

/-- The body of both loops, which start from other places, for `res_left` and `res_right`. -/
def TwoLoops.body (s : Text) (left right : Int) (x : Int × Int) : Option (Int × Int) := do
  let y ← spread s left right
  let left := y.1 + 1
  let right := y.2 - 1
  if right - left > x.2 - x.1 then return (left, right) else return x

def TwoLoops.longestPalindrome (s : Text) : Option Text := do
  let x ← (List.range' 1 (s.length - 2)).foldlM (fun x (i : Nat) => TwoLoops.body s i i x) (0, 0)
  let x ← (List.range' 0 (s.length - 1)).foldlM (fun x (i : Nat) => TwoLoops.body s i (i + 1 : Nat) x) x
  substr s x.1 (x.2 - x.1 + 1)

/-! ## The longest substring so far -/

variable {s : Text} {i j n : Nat} {C : Nat → Nat → Prop}

theorem substr_eq (h : i ≤ s.length) (n : Nat) : substr s i n = some (Text.substr s i n) := by
  rw [substr, if_pos (Int.natCast_nonneg i), if_pos (Int.natCast_nonneg n), Int.toNat_natCast, Int.toNat_natCast, Text.cut_eq h]

/-- What the first and the third version keep: the best one so far and its length. -/
def Keeps (s : Text) (C : Nat → Nat → Prop) (x : Nat × Text) : Prop := ∃ i n, Best s C i n ∧ x = (n, Text.substr s i n)

variable {D : Nat → Nat → Prop} {x : Nat × Text}

theorem Keeps.mono (h : Keeps s C x) (hCD : ∀ i' n', PalAt s i' n' → D i' n' → C i' n') : Keeps s D x := by
  obtain ⟨i, n, hbest, hx⟩ := h
  exact ⟨i, n, hbest.mono hCD, hx⟩

theorem keeps_start (h : 0 < s.length) : Keeps s (fun _ n => n ≤ 1) (1, Text.substr s 0 1) := ⟨0, 1, best_start h, rfl⟩

theorem Keeps.longest (h : Keeps s (fun _ _ => True) x) : LongestPalindrome s x.2 := by
  obtain ⟨i, n, hbest, rfl⟩ := h
  exact hbest.longest

theorem keeps_offer {a p : Nat} (h : Best s C i n) (hpal : PalAt s a p) (hnew : ∀ i' n', D i' n' → PalAt s i' n' → n' ≤ p) :
    ∃ x, (if p > n then some (p, Text.substr s a p) else some (n, Text.substr s i n)) = some x ∧ Keeps s (fun i' n' => C i' n' ∨ D i' n') x := by
  split_ifs with hlonger
  · exact ⟨_, rfl, a, p, h.replace hpal hlonger hnew, rfl⟩
  · exact ⟨_, rfl, i, n, h.keep fun i' n' hD hpal' => (hnew i' n' hD hpal').trans (not_lt.mp hlonger), rfl⟩

theorem exists_longest {run : Text → Option (Nat × Text)} (h : 2 ≤ s.length → ∃ x, run (Text.substr s 0 1) = some x ∧ Keeps s (fun _ _ => True) x) :
    ∃ r, (if s.length < 2 then some s
      else do
        let res ← substr s 0 1
        let x ← run res
        return x.2) = some r ∧ LongestPalindrome s r := by
  by_cases hs : s.length < 2
  · rw [if_pos hs]
    exact ⟨s, rfl, longestPalindrome_self hs⟩
  · obtain ⟨x, hrun, hx⟩ := h (not_lt.mp hs)
    have hfst : substr s 0 1 = some (Text.substr s 0 1) := substr_eq (zero_le _) 1
    rw [if_neg hs, hfst]
    simp only [bind_eq_bind, bind_some, hrun]
    exact ⟨x.2, rfl, hx.longest⟩

/-! ## All substrings -/

theorem valid_spec (h : i + n ≤ s.length) : valid s i (i + n - 1) = some (decide (PalAt s i n)) := by
  induction n using Nat.twoStepInduction generalizing i with
  | zero =>
    rw [valid, if_neg (by omega), decide_eq_true (palAt_zero (i := i) h)]
  | one =>
    rw [valid, if_neg (by omega), decide_eq_true (palAt_one h)]
  | more n ih _ =>
    have hfst : i < s.length := by omega
    have hl : i + n + 1 < s.length := by omega
    have hidx : i + (n + 2) - 1 = i + n + 1 := by omega
    rw [hidx, valid, getElem?_eq_getElem hfst, getElem?_eq_getElem hl]
    simp only [bind_eq_bind, bind_some]
    have hiff := palAt_add_two_of_lt hl
    by_cases hs : s[i] = s[i + n + 1]
    · grind
    · grind

theorem longer_spec (hij : i < j) (hj : j < s.length) (maxLen : Nat) :
    longer s i j maxLen = some (decide (maxLen < j - i + 1 ∧ PalAt s i (j - i + 1))) := by
  rw [longer]
  by_cases hlt : maxLen < j - i + 1
  · have hvalid := valid_spec (s := s) (i := i) (n := j - i + 1) (by omega)
    rw [show i + (j - i + 1) - 1 = j by omega] at hvalid
    rw [if_pos hlt, hvalid]
    simp only [hlt, true_and]
  · rw [if_neg hlt, decide_eq_false fun hboth => hlt hboth.1]

theorem Brute.body_spec (h : Keeps s C x) (hij : i < j) (hj : j < s.length) :
    ∃ x', Brute.body s i x j = some x' ∧ Keeps s (fun i' n' => C i' n' ∨ i' = i ∧ n' = j - i + 1) x' := by
  obtain ⟨k, n, hbest, rfl⟩ := h
  rw [Brute.body, longer_spec hij hj, substr_eq (by omega)]
  by_cases hf : n < j - i + 1 ∧ PalAt s i (j - i + 1)
  · rw [decide_eq_true hf]
    exact ⟨_, rfl, i, j - i + 1, hbest.take hf.2 hf.1, rfl⟩
  · rw [decide_eq_false hf]
    refine ⟨_, rfl, k, n, hbest.skip fun hpal => ?_, rfl⟩
    exact not_lt.mp fun hlt => hf ⟨hlt, hpal⟩

/-- The palindromes that were tried: those that start before `i`, and those that start at `i` and end before `j`. -/
def Brute.Tried (i j : Nat) (i' n' : Nat) : Prop := n' ≤ 1 ∨ i' < i ∨ i' = i ∧ i' + n' ≤ j

theorem Brute.row_spec (h : Keeps s (Brute.Tried i (i + 1)) x) (hi : i + 1 ≤ s.length) :
    ∃ x', (range' (i + 1) (s.length - (i + 1))).foldlM (Brute.body s i) x = some x' ∧ Keeps s (Brute.Tried i s.length) x' := by
  have hs : ∀ j x, i + 1 ≤ j → j < i + 1 + (s.length - (i + 1)) → Keeps s (Brute.Tried i j) x →
      ∃ x', Brute.body s i x j = some x' ∧ Keeps s (Brute.Tried i (j + 1)) x' := by
    intro j x hij hj hx
    obtain ⟨x', hrun, hx'⟩ := Brute.body_spec hx (i := i) (j := j) (by omega) (by omega)
    refine ⟨x', hrun, hx'.mono fun i' n' _ htried => ?_⟩
    unfold Brute.Tried at htried ⊢
    omega
  have hrow := foldlM_up (P := fun j => Keeps s (Brute.Tried i j)) hs h
  rwa [Nat.add_sub_cancel' hi] at hrow

theorem Brute.longestPalindrome_spec (s : Text) : ∃ r, Brute.longestPalindrome s = some r ∧ LongestPalindrome s r := by
  refine exists_longest fun hsize => ?_
  have hst : Keeps s (Brute.Tried 0 1) (1, Text.substr s 0 1) := by
    refine (keeps_start (by omega)).mono fun i' n' _ htried => ?_
    unfold Brute.Tried at htried
    omega
  have hs : ∀ i x, 0 ≤ i → i < 0 + (s.length - 1) → Keeps s (Brute.Tried i (i + 1)) x →
      ∃ x', (range' (i + 1) (s.length - (i + 1))).foldlM (Brute.body s i) x = some x' ∧ Keeps s (Brute.Tried (i + 1) (i + 1 + 1)) x' := by
    intro i x _ hi hx
    obtain ⟨x', hrun, hx'⟩ := Brute.row_spec hx (by omega)
    refine ⟨x', hrun, hx'.mono fun i' n' hpal htried => ?_⟩
    have hend := hpal.1
    unfold Brute.Tried at htried ⊢
    omega
  obtain ⟨x, hrun, hx⟩ := foldlM_up (P := fun i => Keeps s (Brute.Tried i (i + 1))) hs hst
  refine ⟨x, hrun, hx.mono fun i' n' hpal _ => ?_⟩
  have hend := hpal.1
  unfold Brute.Tried
  omega

/-! ## The table -/

/-- What the cells are meant to hold. -/
def Dp.val (s : Text) (i j : Nat) : Option Bool := some (decide (PalAt s i (j - i + 1)))

theorem Dp.cell_spec {dp : Table (Option Bool)} (hij : i < j) (hj : j < s.length)
    (hinner : i + 1 < j - 1 → dp (i + 1) (j - 1) = some (Dp.val s (i + 1) (j - 1))) : Dp.cell s dp i j = Dp.val s i j := by
  obtain ⟨n, rfl⟩ : ∃ n, j = i + n + 1 := ⟨j - i - 1, by omega⟩
  have hfst : i < s.length := by omega
  have hsub : i + n + 1 - i = n + 1 := by omega
  rw [Dp.cell, Dp.val, getElem?_eq_getElem hfst, getElem?_eq_getElem hj, hsub]
  simp only [bind_eq_bind, bind_some]
  have hiff : PalAt s i (n + 1 + 1) ↔ s[i] = s[i + n + 1] ∧ PalAt s (i + 1) n := palAt_add_two_of_lt hj
  by_cases hs : s[i] = s[i + n + 1]
  · rw [if_pos hs]
    simp only [hiff, hs, true_and]
    split_ifs with hshort
    · -- nothing or one character is left between the two
      have hpal : PalAt s (i + 1) n := by
        match n, hshort with
        | 0, _ => exact palAt_zero (by omega)
        | 1, _ => exact palAt_one (by omega)
      rw [decide_eq_true hpal]
      rfl
    · grind [Dp.val]
  · grind

/-- The cells that were written, and the palindromes that were tried: those that end before `j`, and those that end at `j` and start before `i`. -/
structure Dp.Upto (s : Text) (j i : Nat) (x : Dp.State) : Prop where
  table : Table.Filled (s.length - 1) (s.length - 1) (Dp.val s) x.dp fun i' j' => i' < j' ∧ (j' < j ∨ j' = j ∧ i' < i)
  best : Best s (fun i' n' => n' ≤ 1 ∨ i' + n' ≤ j ∨ i' + n' = j + 1 ∧ i' < i) x.start x.maxLen

theorem Dp.body_spec {x : Dp.State} (h : Dp.Upto s j i x) (hij : i < j) (hj : j < s.length) :
    ∃ x', Dp.body s j x i = some x' ∧ Dp.Upto s j (i + 1) x' := by
  have hc : Dp.cell s x.dp i j = Dp.val s i j := by
    refine Dp.cell_spec hij hj fun hinner => h.table.right _ _ (by omega) (by omega) ⟨hinner, ?_⟩
    omega
  obtain ⟨dp, hset, hfill⟩ := h.table.set (i := i) (j := j) (by omega) (by omega) rfl
  have htab : Table.Filled (s.length - 1) (s.length - 1) (Dp.val s) dp fun i' j' => i' < j' ∧ (j' < j ∨ j' = j ∧ i' < i + 1) :=
    hfill.mono fun i' j' _ _ hP => by omega
  have hhere := htab.right i j (by omega) (by omega) ⟨hij, .inr ⟨rfl, lt_succ_self i⟩⟩
  have htried : ∀ i' n', PalAt s i' n' → n' ≤ 1 ∨ i' + n' ≤ j ∨ i' + n' = j + 1 ∧ i' < i + 1 →
      (n' ≤ 1 ∨ i' + n' ≤ j ∨ i' + n' = j + 1 ∧ i' < i) ∨ i' = i ∧ n' = j - i + 1 := by
    omega
  rw [Dp.val] at hset hhere hc
  rw [Dp.body, hc]
  simp only [bind_eq_bind, bind_some, hset, hhere, join_some, decide_eq_true_eq]
  split_ifs with hlonger
  · exact ⟨_, rfl, htab, (h.best.take hlonger.1 hlonger.2).mono htried⟩
  · refine ⟨_, rfl, htab, (h.best.skip fun hpal => ?_).mono htried⟩
    exact not_lt.mp fun hlt => hlonger ⟨hpal, hlt⟩

theorem Dp.longestPalindrome_spec (s : Text) : ∃ r, Dp.longestPalindrome s = some r ∧ LongestPalindrome s r := by
  rw [Dp.longestPalindrome]
  by_cases hsize : s.length < 2
  · rw [if_pos hsize]
    exact ⟨s, rfl, longestPalindrome_self hsize⟩
  · have hst : Dp.Upto s 1 0 ⟨Table.const (s.length - 1) (s.length - 1) none, 1, 0⟩ := by
      refine ⟨(Table.filled_const _ _ none (Dp.val s)).mono ?_, (best_start (by omega)).mono ?_⟩
      · omega
      · omega
    have hs : ∀ j x, 1 ≤ j → j < 1 + (s.length - 1) → Dp.Upto s j 0 x →
        ∃ x', (range' 0 j).foldlM (Dp.body s j) x = some x' ∧ Dp.Upto s (j + 1) 0 x' := by
      intro j x _ hj hx
      have hcs : ∀ i x, 0 ≤ i → i < 0 + j → Dp.Upto s j i x → ∃ x', Dp.body s j x i = some x' ∧ Dp.Upto s j (i + 1) x' := by
        grind [Dp.body_spec]
      obtain ⟨x', hrun, hx'⟩ := foldlM_up (P := fun i => Dp.Upto s j i) hcs hx
      refine ⟨x', hrun, hx'.table.mono ?_, hx'.best.mono ?_⟩
      · omega
      · omega
    obtain ⟨x, hrun, hx⟩ := foldlM_up (P := fun j => Dp.Upto s j 0) hs hst
    have hall : Best s (fun _ _ => True) x.start x.maxLen := by
      refine hx.best.mono fun i' n' hpal _ => ?_
      have hend := hpal.1
      omega
    have hin := hall.pal.1
    rw [if_neg hsize]
    simp only [hrun]
    exact ⟨_, substr_eq (by omega) _, hall.longest⟩

/-! ## The centres -/

/-- The places before and behind a part of the string. -/
def around (i n : Nat) : Int × Int := ((i : Int) - 1, ((i + n : Nat) : Int))

/-- The loop has come to the ends of a palindrome; it stops at the longest one with the same centre. -/
theorem spread_of_palAt (h : PalAt s i n) : ∃ i' n', spread s ((i : Int) - 1) (i + n : Nat) = some (around i' n') ∧ Widest s (2 * i + n) i' n' := by
  induction i generalizing n with
  | zero =>
    refine ⟨0, n, ?_, h.widest (.inl rfl)⟩
    rw [spread]
    rfl
  | succ i ih =>
    have hidx : ((i + 1 : Nat) : Int) - 1 = i := by omega
    rw [hidx, spread]
    by_cases hin : i + 1 + n < s.length
    · have hfst : i < s.length := by omega
      rw [if_pos (by omega), Cells.get_ofList hfst, Cells.get_ofList hin]
      simp only [bind_eq_bind, bind_some]
      by_cases hs : s[i] = s[i + 1 + n]
      · have hn : PalAt s i (n + 2) := by
          have hget : s[i]? = s[i + n + 1]? := by grind
          exact palAt_add_two.mpr ⟨by omega, hget, h⟩
        obtain ⟨i', n', hrun, hwidest⟩ := ih hn
        refine ⟨i', n', ?_, ?_⟩
        · grind
        · rwa [show 2 * (i + 1) + n = 2 * i + (n + 2) by omega]
      · refine ⟨i + 1, n, ?_, h.widest (.inr (.inr ?_))⟩
        · rw [if_neg hs, around, hidx]
          rfl
        · grind
    · refine ⟨i + 1, n, ?_, h.widest (.inr (.inl ?_))⟩
      · rw [if_neg (by omega), around, hidx]
      · have hend := h.1
        omega

theorem spread_odd (h : i < s.length) : ∃ a n, spread s i i = some (around a n) ∧ Widest s (2 * i + 1) a n := by
  obtain ⟨a, n, hrun, hwidest⟩ := spread_of_palAt (palAt_one h)
  refine ⟨a, n, ?_, hwidest⟩
  rw [spread, if_pos ⟨by omega, by omega⟩, Cells.get_ofList h]
  simp only [bind_eq_bind, bind_some]
  exact hrun

theorem spread_even (h : i < s.length) : ∃ a n, spread s i (i + 1 : Nat) = some (around a n) ∧ Widest s (2 * i + 2) a n := by
  obtain ⟨a, n, hrun, hwidest⟩ := spread_of_palAt (palAt_zero (s := s) (i := i + 1) h)
  rw [show ((i + 1 : Nat) : Int) - 1 = i by omega] at hrun
  exact ⟨a, n, hrun, hwidest⟩

theorem centerSpread_eq {left right : Int} {a c : Nat} (hrun : spread s left right = some (around a n))
    (hwidest : Widest s c a n) : centerSpread s left right = some (Text.substr s a n) ∧ (Text.substr s a n).length = n := by
  have hin := hwidest.pal.1
  constructor
  · rw [centerSpread, hrun, ← substr_eq (by omega)]
    simp only [bind_eq_bind, bind_some, around]
    congr 1 <;> omega
  · exact Text.length_substr hin

/-- The palindromes that are not longer than one character or have one of the first centres. -/
def Center.Tried (c : Nat) (i' n' : Nat) : Prop := n' ≤ 1 ∨ 2 * i' + n' ≤ c

theorem Center.body_spec (h : Keeps s (Center.Tried (2 * i)) x) (hi : i < s.length) :
    ∃ x', Center.body s x i = some x' ∧ Keeps s (Center.Tried (2 * (i + 1))) x' := by
  obtain ⟨k, n, hbest, rfl⟩ := h
  obtain ⟨a, p, hodd, hoddWidest⟩ := spread_odd hi
  obtain ⟨b, q, heven, hevenWidest⟩ := spread_even hi
  obtain ⟨hoddStr, hoddLength⟩ := centerSpread_eq hodd hoddWidest
  obtain ⟨hevenStr, hevenLength⟩ := centerSpread_eq heven hevenWidest
  rw [Center.body, hoddStr, hevenStr]
  simp only [bind_eq_bind, bind_some, hoddLength, hevenLength]
  -- the longer one of the two, with both centres
  have hnew : ∀ i' n', 2 * i' + n' = 2 * i + 1 ∨ 2 * i' + n' = 2 * i + 2 → PalAt s i' n' → n' ≤ max p q := by
    rintro i' n' (hc | hc) hpal
    · exact (hoddWidest.le i' n' hc hpal).trans (le_max_left p q)
    · exact (hevenWidest.le i' n' hc hpal).trans (le_max_right p q)
  have htried : ∀ i' n', PalAt s i' n' → Center.Tried (2 * (i + 1)) i' n' →
      Center.Tried (2 * i) i' n' ∨ (2 * i' + n' = 2 * i + 1 ∨ 2 * i' + n' = 2 * i + 2) := by
    intro i' n' _ hP
    unfold Center.Tried at hP ⊢
    omega
  by_cases hpq : p > q
  · simp only [if_pos hpq, hoddLength]
    rw [max_eq_left hpq.le] at hnew
    obtain ⟨x', hrun, hx'⟩ := keeps_offer hbest hoddWidest.pal hnew
    exact ⟨x', hrun, hx'.mono htried⟩
  · simp only [if_neg hpq, hevenLength]
    rw [max_eq_right (not_lt.mp hpq)] at hnew
    obtain ⟨x', hrun, hx'⟩ := keeps_offer hbest hevenWidest.pal hnew
    exact ⟨x', hrun, hx'.mono htried⟩

theorem Center.longestPalindrome_spec (s : Text) : ∃ r, Center.longestPalindrome s = some r ∧ LongestPalindrome s r := by
  refine exists_longest fun hsize => ?_
  have hst : Keeps s (Center.Tried (2 * 0)) (1, Text.substr s 0 1) := by
    refine (keeps_start (by omega)).mono fun i' n' _ htried => ?_
    unfold Center.Tried at htried
    omega
  have hs : ∀ i x, 0 ≤ i → i < 0 + (s.length - 1) → Keeps s (Center.Tried (2 * i)) x →
      ∃ x', Center.body s x i = some x' ∧ Keeps s (Center.Tried (2 * (i + 1))) x' := by
    intro i x _ hi hx
    exact Center.body_spec hx (by omega)
  obtain ⟨x, hrun, hx⟩ := foldlM_up (P := fun i => Keeps s (Center.Tried (2 * i))) hs hst
  refine ⟨x, hrun, hx.mono fun i' n' hpal _ => ?_⟩
  have hend := hpal.1
  unfold Center.Tried
  omega

/-! ## The two loops -/

/-- The places of the first and the last character of the best one so far. -/
def TwoLoops.Marks (s : Text) (C : Nat → Nat → Prop) (x : Int × Int) : Prop :=
  ∃ i n : Nat, Best s C i n ∧ x = ((i : Int), (i : Int) + n - 1)

theorem TwoLoops.body_spec {x : Int × Int} {left right : Int} {a c : Nat} (h : TwoLoops.Marks s C x)
    (hrun : spread s left right = some (around a n)) (hwidest : Widest s c a n) :
    ∃ x', TwoLoops.body s left right x = some x' ∧ TwoLoops.Marks s (fun i' n' => C i' n' ∨ 2 * i' + n' = c) x' := by
  obtain ⟨k, m, hbest, rfl⟩ := h
  rw [TwoLoops.body, hrun]
  simp only [bind_eq_bind, bind_some, around]
  split_ifs with hlonger
  · refine ⟨_, rfl, a, n, hbest.replace hwidest.pal (by omega) hwidest.le, ?_⟩
    simp only [Prod.mk.injEq]
    omega
  · refine ⟨_, rfl, k, m, hbest.keep fun i' n' hc hpal => ?_, rfl⟩
    have hle := hwidest.le i' n' hc hpal
    omega

theorem TwoLoops.Marks.mono {x : Int × Int} (h : TwoLoops.Marks s C x) (hCD : ∀ i' n', PalAt s i' n' → D i' n' → C i' n') : TwoLoops.Marks s D x := by
  obtain ⟨i, n, hbest, hx⟩ := h
  exact ⟨i, n, hbest.mono hCD, hx⟩

/-- The palindromes up to one character, those around the characters before `i`, and those after the characters before `j`. -/
def TwoLoops.Tried (i j : Nat) (i' n' : Nat) : Prop := n' ≤ 1 ∨ (∃ p < i, 2 * i' + n' = 2 * p + 1) ∨ ∃ p < j, 2 * i' + n' = 2 * p + 2

theorem TwoLoops.longestPalindrome_spec (s : Text) : ∃ r, TwoLoops.longestPalindrome s = some r ∧ LongestPalindrome s r := by
  rcases Nat.eq_zero_or_pos s.length with hnil | hpos
  · obtain rfl := length_eq_zero_iff.mp hnil
    exact ⟨[], rfl, longestPalindrome_self (Nat.zero_lt_succ 1)⟩
  · have hst : TwoLoops.Marks s (TwoLoops.Tried 1 0) (0, 0) := by
      refine ⟨0, 1, (best_start hpos).mono ?_, rfl⟩
      rintro i' n' - (hn | ⟨p, hp, hc⟩ | ⟨p, hp, hc⟩) <;> omega
    have hodd : ∀ i x, 1 ≤ i → i < 1 + (s.length - 2) → TwoLoops.Marks s (TwoLoops.Tried i 0) x →
        ∃ x', TwoLoops.body s i i x = some x' ∧ TwoLoops.Marks s (TwoLoops.Tried (i + 1) 0) x' := by
      intro i x _ hi hx
      obtain ⟨a, n, hrun, hwidest⟩ := spread_odd (s := s) (i := i) (by omega)
      obtain ⟨x', hbody, hx'⟩ := TwoLoops.body_spec hx hrun hwidest
      refine ⟨x', hbody, hx'.mono ?_⟩
      rintro i' n' - (hn | ⟨p, hp, hc⟩ | hj)
      · exact .inl (.inl hn)
      · rcases Nat.lt_succ_iff_lt_or_eq.mp hp with hp | rfl
        · exact .inl (.inr (.inl ⟨p, hp, hc⟩))
        · exact .inr hc
      · exact .inl (.inr (.inr hj))
    have heven : ∀ i x, 0 ≤ i → i < 0 + (s.length - 1) → TwoLoops.Marks s (TwoLoops.Tried (1 + (s.length - 2)) i) x →
        ∃ x', TwoLoops.body s i (i + 1 : Nat) x = some x' ∧ TwoLoops.Marks s (TwoLoops.Tried (1 + (s.length - 2)) (i + 1)) x' := by
      intro i x _ hi hx
      obtain ⟨a, n, hrun, hwidest⟩ := spread_even (s := s) (i := i) (by omega)
      obtain ⟨x', hbody, hx'⟩ := TwoLoops.body_spec hx hrun hwidest
      refine ⟨x', hbody, hx'.mono ?_⟩
      rintro i' n' - (hn | hi | ⟨p, hp, hc⟩)
      · exact .inl (.inl hn)
      · exact .inl (.inr (.inl hi))
      · rcases Nat.lt_succ_iff_lt_or_eq.mp hp with hp | rfl
        · exact .inl (.inr (.inr ⟨p, hp, hc⟩))
        · exact .inr hc
    obtain ⟨x, hrunOdd, hx⟩ := foldlM_up (P := fun i => TwoLoops.Marks s (TwoLoops.Tried i 0)) hodd hst
    obtain ⟨y, hrunEven, hy⟩ := foldlM_up (P := fun i => TwoLoops.Marks s (TwoLoops.Tried (1 + (s.length - 2)) i)) heven hx
    -- a palindrome of two characters or more has its centre neither at the first nor at the last one
    have hall : TwoLoops.Marks s (fun _ _ => True) y := by
      refine hy.mono fun i' n' hpal _ => ?_
      have hend := hpal.1
      by_cases hshort : n' ≤ 1
      · exact .inl hshort
      · rcases Nat.even_or_odd' n' with ⟨m, rfl | rfl⟩
        · exact .inr (.inr ⟨i' + m - 1, by omega, by omega⟩)
        · exact .inr (.inl ⟨i' + m, by omega, by omega⟩)
    obtain ⟨k, n, hbest, rfl⟩ := hall
    have hin := hbest.pal.1
    refine ⟨Text.substr s k n, ?_, hbest.longest⟩
    rw [TwoLoops.longestPalindrome, ← substr_eq (by omega)]
    simp only [bind_eq_bind, bind_some, hrunOdd, hrunEven]
    congr 1
    omega

/-- All four versions return a palindrome that is a part of the string, and none is longer; so their lengths are equal. -/
theorem longestPalindrome_agree (s : Text) : ∃ r₁ r₂ r₃ r₄,
    Brute.longestPalindrome s = some r₁ ∧ Dp.longestPalindrome s = some r₂ ∧ Center.longestPalindrome s = some r₃ ∧
    TwoLoops.longestPalindrome s = some r₄ ∧
    LongestPalindrome s r₁ ∧ LongestPalindrome s r₂ ∧ LongestPalindrome s r₃ ∧ LongestPalindrome s r₄ ∧
    r₁.length = r₂.length ∧ r₂.length = r₃.length ∧ r₃.length = r₄.length := by
  obtain ⟨r₁, h1, hr1⟩ := Brute.longestPalindrome_spec s
  obtain ⟨r₂, h2, hr2⟩ := Dp.longestPalindrome_spec s
  obtain ⟨r₃, h3, hr3⟩ := Center.longestPalindrome_spec s
  obtain ⟨r₄, h4, hr4⟩ := TwoLoops.longestPalindrome_spec s
  exact ⟨r₁, r₂, r₃, r₄, h1, h2, h3, h4, hr1, hr2, hr3, hr4, hr1.length_eq hr2, hr2.length_eq hr3, hr3.length_eq hr4⟩

end CsLearning.LeetCode.LongestPalindrome
