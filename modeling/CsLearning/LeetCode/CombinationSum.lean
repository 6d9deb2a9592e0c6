import CsLearning.Lib.Backtracking
import CsLearning.Lib.Choices
import CsLearning.Lib.Word

/-!
# Combinations with a sum

Problem 39: the candidates are sorted, and a search chooses them in ascending order, each as often as it likes. It stops a loop at the first
candidate that is larger than what is left of the target.
-/

open List Option

namespace CsLearning.LeetCode.CombinationSum

/-- The members `path_` and `res_`. -/
structure State where
  path : List Int
  res : List (List Int)

/-- The loop of `DFS` from `i` on, where `left` candidates are left and `next` is the recursive call. -/
def tryFrom (next : Nat → Int → State → Option State) (candidates : List Int) (target : Int) : (left i : Nat) → State → Option State
  | 0, _, s => some s
  | left + 1, i, s => do
    let c ← candidates[i]?
    let rest ← Word.addInt target (-c)
    if 0 ≤ rest then
      let s ← next i rest { s with path := s.path ++ [c] }
      let path ← popBack s.path
      tryFrom next candidates target left (i + 1) { s with path := path }
    else return s

/-- `DFS(start, target)`, with calls of a depth less than `fuel`. -/
def dfs (candidates : List Int) : (fuel start : Nat) → Int → State → Option State
  | 0, _, _, _ => none
  | fuel + 1, start, target, s =>
    if target = 0 then some { s with res := s.res ++ [s.path] }
    else tryFrom (dfs candidates fuel) candidates target (candidates.length - start) start s

/-- `combinationSum(candidates, target)` on a fresh `Solution`. -/
def combinationSum (fuel : Nat) (candidates : List Int) (target : Int) : Option (List (List Int)) := do
  let s ← dfs (candidates.insertionSort (· ≤ ·)) fuel 0 target ⟨[], []⟩
  return s.res

/-! ## Ascending lists with a sum -/

/-- An ascending list of elements of `l` with the sum `t`. -/
def Sums (l : List Int) (t : Int) (x : List Int) : Prop := x.Pairwise (· ≤ ·) ∧ (∀ a ∈ x, a ∈ l) ∧ x.sum = t

variable {l x : List Int} {t c : Int}

/-- Such a list begins with the least element, or is without it. -/
theorem sums_cons_iff (h : (c :: l).Pairwise (· < ·)) : Sums (c :: l) t x ↔ (∃ y, x = c :: y ∧ Sums (c :: l) (t - c) y) ∨ Sums l t x := by
  obtain ⟨hc, -⟩ := pairwise_cons.1 h
  unfold Sums
  constructor
  · intro hx
    obtain ⟨hasc, hmem, hsum⟩ := hx
    cases x with
    | nil => exact Or.inr ⟨hasc, by simp, hsum⟩
    | cons a y =>
      obtain ⟨ha, hy⟩ := pairwise_cons.1 hasc
      rw [sum_cons] at hsum
      rcases mem_cons.1 (hmem a mem_cons_self) with heq | hal
      · grind
      · -- the others are not smaller than the first
        refine Or.inr ⟨hasc, ?_, by rw [sum_cons, hsum]⟩
        intro b hb
        rcases mem_cons.1 hb with heq | hby
        · rw [heq]
          exact hal
        · grind
  · intro hx
    rcases hx with ⟨y, heq, hasc, hmem, hsum⟩ | ⟨hasc, hmem, hsum⟩
    · rw [heq]
      refine ⟨pairwise_cons.2 ⟨?_, hasc⟩, ?_, by rw [sum_cons, hsum, add_sub_cancel]⟩
      · grind
      · grind
    · grind

theorem Sums.sum_nonneg (hpos : ∀ a ∈ l, 0 < a) (h : Sums l t x) : 0 ≤ t := by
  rw [← h.2.2]
  exact List.sum_nonneg fun a ha => (hpos a (h.2.1 a ha)).le

theorem Sums.tail {a : Int} {y : List Int} (h : Sums l t (a :: y)) : Sums l (t - a) y := by
  obtain ⟨hasc, hmem, hsum⟩ := h
  rw [sum_cons] at hsum
  exact ⟨(pairwise_cons.1 hasc).2, fun b hb => hmem b (mem_cons_of_mem a hb), by rw [← hsum, add_sub_cancel_left]⟩

theorem sums_zero_iff (hpos : ∀ a ∈ l, 0 < a) : Sums l 0 x ↔ x = [] := by
  constructor
  · intro h
    cases x with
    | nil => rfl
    | cons a y =>
      have ha := hpos a (h.2.1 a mem_cons_self)
      have hr := h.tail.sum_nonneg hpos
      omega
  · intro h
    rw [h]
    exact ⟨Pairwise.nil, by simp, rfl⟩

/-- Elements that are larger than a positive sum are of no use for it. -/
theorem not_sums_of_large (hpos : ∀ a ∈ l, 0 < a) (ht : 0 < t) (hlarge : ∀ a ∈ l, t < a) : ¬Sums l t x := by
  intro h
  cases x with
  | nil => exact ht.ne h.2.2
  | cons a y =>
    have ha := hlarge a (h.2.1 a mem_cons_self)
    have hr := h.tail.sum_nonneg hpos
    omega

/-! ## The search -/

variable {candidates : List Int}

/-- What a call finds, and that it leaves the path as it was. -/
def Finds (run : State → Option State) (P : List Int → Prop) : Prop :=
  ∀ path res, ∃ out, run ⟨path, res⟩ = some ⟨path, res ++ out.map (path ++ ·)⟩ ∧ Lists P out

theorem finds_nothing {run : State → Option State} {P : List Int → Prop} (hrun : ∀ s, run s = some s) (hP : ∀ x, ¬P x) : Finds run P := by
  intro path res
  refine ⟨[], ?_, nodup_nil, ?_⟩
  · rw [hrun, map_nil, append_nil]
  · intro x
    exact iff_of_false not_mem_nil (hP x)

/-- The loop finds the lists of candidates from `i` on, when the calls do for smaller targets. -/
theorem tryFrom_finds {next : Nat → Int → State → Option State} (hsort : candidates.Pairwise (· < ·))
    (hint : ∀ a ∈ candidates, 0 < a ∧ a < 2 ^ 31) (ht : 0 < t) (ht' : t < 2 ^ 31)
    (hn : ∀ i u, i ≤ candidates.length → 0 ≤ u → u < t → Finds (next i u) (Sums (candidates.drop i) u)) (left i : Nat)
    (hi : i + left = candidates.length) : Finds (tryFrom next candidates t left i) (Sums (candidates.drop i) t) := by
  induction left generalizing i with
  | zero =>
    refine finds_nothing (fun s => rfl) ?_
    intro x
    have hend : candidates.drop i = [] := drop_eq_nil_of_le hi.ge
    rw [hend]
    exact not_sums_of_large (by simp) ht (by simp)
  | succ left ih =>
    have hlt : i < candidates.length := by omega
    obtain ⟨c, hc⟩ : ∃ c, candidates[i]? = some c := ⟨_, getElem?_eq_getElem hlt⟩
    have hd : candidates.drop i = c :: candidates.drop (i + 1) := by grind [drop_eq_getElem_cons]
    have hasc : (c :: candidates.drop (i + 1)).Pairwise (· < ·) := hd ▸ hsort.sublist (drop_sublist i candidates)
    obtain ⟨hpos, hmax⟩ := hint c (mem_of_getElem? hc)
    have hr : Word.addInt t (-c) = some (t - c) := Word.addInt_of_fits (by omega) (by omega)
    by_cases hle : 0 ≤ t - c
    · intro path res
      obtain ⟨out, hcall, hout⟩ := hn i (t - c) hlt.le hle (by omega) (path ++ [c]) res
      obtain ⟨more, hl, hmore⟩ := ih (i + 1) (by omega) path (res ++ out.map ((path ++ [c]) ++ ·))
      refine ⟨out.map (c :: ·) ++ more, ?_, ?_⟩
      · rw [tryFrom, hc]
        simp only [bind_eq_bind, bind_some, hr, if_pos hle, hcall, popBack_concat, hl]
        simp
      · rw [hd] at hout ⊢
        refine (hout.cons_or hmore ?_).congr fun x => (sums_cons_iff hasc).symm
        intro y hy
        exact lt_irrefl c ((pairwise_cons.1 hasc).1 c (hy.2.1 c mem_cons_self))
    · refine finds_nothing ?_ ?_
      · intro s
        rw [tryFrom, hc]
        simp only [bind_eq_bind, bind_some, hr, if_neg hle]
        rfl
      · intro x
        refine not_sums_of_large (fun a ha => (hint a (mem_of_mem_drop ha)).1) ht ?_
        intro a ha
        rw [hd] at ha
        rcases mem_cons.1 ha with heq | hmem
        · omega
        · have := (pairwise_cons.1 hasc).1 a hmem
          omega

theorem dfs_finds (hsort : candidates.Pairwise (· < ·)) (hint : ∀ a ∈ candidates, 0 < a ∧ a < 2 ^ 31) (fuel i : Nat) (t : Int) (ht : 0 ≤ t)
    (ht' : t < 2 ^ 31) (hfuel : t < fuel) (hi : i ≤ candidates.length) : Finds (dfs candidates fuel i t) (Sums (candidates.drop i) t) := by
  induction fuel generalizing i t with
  | zero => omega
  | succ fuel ih =>
    by_cases h0 : t = 0
    · intro path res
      refine ⟨[[]], ?_, nodup_singleton _, ?_⟩
      · rw [dfs, if_pos h0]
        simp
      · grind [sums_zero_iff, mem_of_mem_drop]
    · have hrun : dfs candidates (fuel + 1) i t = tryFrom (dfs candidates fuel) candidates t (candidates.length - i) i := by
        funext s
        rw [dfs, if_neg h0]
      rw [hrun]
      refine tryFrom_finds hsort hint (by omega) ht' ?_ _ i (by omega)
      intro j u hj hu hut
      exact ih j u hu (by omega) (by omega) hj

/-- For distinct positive candidates and a positive target. -/
theorem combinationSum_lists {candidates : List Int} {target : Int} (hdistinct : candidates.Nodup) (hint : ∀ c ∈ candidates, 0 < c ∧ c < 2 ^ 31)
    (ht : 0 < target) (ht' : target < 2 ^ 31) : ∃ res, combinationSum (target.toNat + 1) candidates target = some res ∧
      res.Nodup ∧ ∀ x, x ∈ res ↔ x.Pairwise (· ≤ ·) ∧ (∀ a ∈ x, a ∈ candidates) ∧ x.sum = target := by
  have hperm : (candidates.insertionSort (· ≤ ·)).Perm candidates := perm_insertionSort _ candidates
  have hsorted : (candidates.insertionSort (· ≤ ·)).Pairwise (· < ·) := by
    have hle : (candidates.insertionSort (· ≤ ·)).Pairwise (· ≤ ·) := pairwise_insertionSort _ candidates
    exact hle.imp₂ (fun a b hab hne => lt_of_le_of_ne hab hne) (hperm.nodup_iff.2 hdistinct)
  have hint' : ∀ c ∈ candidates.insertionSort (· ≤ ·), 0 < c ∧ c < 2 ^ 31 := fun c hc => hint c (hperm.mem_iff.1 hc)
  obtain ⟨out, hrun, hout⟩ := dfs_finds hsorted hint' (target.toNat + 1) 0 target ht.le ht' (by omega) (Nat.zero_le _) [] []
  refine ⟨out, ?_, hout.nodup, ?_⟩
  · unfold combinationSum
    rw [hrun]
    simp
  · intro x
    rw [hout.mem_iff, drop_zero, Sums]
    simp only [hperm.mem_iff]

theorem combinationSum_lists_seven : ∃ res, combinationSum 8 [2, 3, 6, 7] 7 = some res ∧
    res.Nodup ∧ ∀ x, x ∈ res ↔ x.Pairwise (· ≤ ·) ∧ (∀ a ∈ x, a ∈ [2, 3, 6, 7]) ∧ x.sum = 7 :=
  combinationSum_lists (by decide) (by decide) (by decide) (by decide)

end CsLearning.LeetCode.CombinationSum
