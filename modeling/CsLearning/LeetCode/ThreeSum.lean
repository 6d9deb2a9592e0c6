import CsLearning.LeetCode.PairSweep
import CsLearning.Lib.Word

/-!
# Three numbers with the sum zero

Problem 15: a loop chooses the first element of the sorted vector, and a sweep the other two. The sum is converted to `long long` only after it was
computed, so it wraps around.

A sum that is too large does no harm: the sweep then moves the wrong end, but there is no triple left in the window. Nor does a sum that is too
small, if it is not the first one of the sweep. But when the first sum is below the range, all that follow are, too (`sweep_low`), and the sweep
looks for the sum `-2 ^ 32`: it finds triples with that sum and none with the sum zero.
-/

open List Option Nat

namespace CsLearning.LeetCode.ThreeSum

open PairSweep

/-! ## The code -/

/-- `nums[i] + nums[left] + nums[right]`. -/
def sum (a x y : Int) : Int := Word.toInt (Word.toInt (a + x) + y)

/-- One round of the loop over `i`, in which `i` and `res` are the variables. -/
def threeSumRound (n : Nat) (nums : List Int) : Nat × List (List Int) → Option (Round (Nat × List (List Int)) (List (List Int)))
  | (i, res) =>
    if (i : Int) < nums.length - 2 then do
      let a ← nums[i]?
      if a > 0 then return .stop res
      else if (← repeats nums 0 i) then return .again (i + 1, res)
      else
        let res ← loop (sweepRound n nums (sum a) 0 [a]) n (i + 1, nums.length - 1, res)
        return .again (i + 1, res)
    else return .stop res

/-- `threeSum(nums)`, with at most `n` rounds of each loop. -/
def threeSum (n : Nat) (nums : List Int) : Option (List (List Int)) :=
  let nums := nums.insertionSort (· ≤ ·)
  loop (threeSumRound n nums) n (0, [])

/-- A vector of `int`s. -/
def Ints (nums : List Int) : Prop := ∀ v ∈ nums, -2 ^ 31 ≤ v ∧ v < 2 ^ 31

/-- Three elements at different positions, in ascending order. -/
def Triple (nums t : List Int) : Prop := t.length = 3 ∧ t.Pairwise (· ≤ ·) ∧ t.Subperm nums

/-- With more rounds than elements `threeSum` comes to an end with the triples whose sum is zero, each once. -/
def FindsTriples (nums : List Int) : Prop :=
  ∀ n, nums.length < n → ∃ R, threeSum n nums = some R ∧ Lists (fun t => Triple nums t ∧ t.sum = 0) R

/-- With `a` and another element that is not smaller, every third element gives a sum below the range. -/
def Low (nums : List Int) (a : Int) : Prop := ∃ l, a ≤ l ∧ List.Subperm [a, l] nums ∧ ∀ x ∈ nums, a + l + x < -2 ^ 31

/-! ## The sweep for one head -/

variable {s : List Int} {n i : Nat} {a : Int}

theorem sum_eq (a x y : Int) : sum a x y = (a + x + y + 2 ^ 31) % 2 ^ 32 - 2 ^ 31 := by
  rw [sum, Word.toInt_toInt_add, Word.toInt]

section

variable (hs : s.Pairwise (· ≤ ·)) (hint : Ints s) (hn : s.length < n) (hi : i + 2 < s.length) (ha : s[i]? = some a)

include hs hint hn hi ha

/-- When the first sum is below the range, the sweep finds the pairs that make the sum `-2 ^ 32`. -/
theorem sweep_low
    (hlow : ∀ x y, s[i + 1]? = some x → s[s.length - 1]? = some y → a + x + y < -2 ^ 31) (res : List (List Int)) :
    ∃ R, loop (sweepRound n s (sum a) 0 [a]) n (i + 1, s.length - 1, res) = some (res ++ R.map ([a] ++ ·)) ∧
      Lists (Pairs s (fun x y => x + y = -2 ^ 32 - a) (i + 1) (s.length - 1)) R := by
  have hbnd : ∀ {p : Nat} {v : Int}, s[p]? = some v → -2 ^ 31 ≤ v ∧ v < 2 ^ 31 := fun hv => hint _ (mem_of_getElem? hv)
  have hab := hbnd ha
  have hguides : Guides s (sum a) 0 (fun x y => x + y = -2 ^ 32 - a)
      fun left right => ∀ x y, s[left]? = some x → s[right]? = some y → a + x + y < -2 ^ 31 := by
    refine guides_add hs ?_ ?_ ?_ ?_
    · intro left right x y hI _ hx hy
      have hx' := hbnd hx
      have hy' := hbnd hy
      have hsum := hI x y hx hy
      rw [sum_eq]
      constructor <;> omega
    · intro left right x y hI _ hx hy _ x' y' hx' hy'
      have hle := le_of_getElem? hs (sub_le right 1) hy' hy
      have hsum := hI x' y hx' hy
      omega
    · intro left right x y hI hlr hx hy hlt x' y' hx' hy'
      have hle := le_of_getElem? hs hlr.le hx' hy'
      rw [hy, some.injEq] at hy'
      have hxb := hbnd hx
      omega
    · intro left right x y left' right' x' y' hI _ hx hy heq _ hlr _ hx' hy' _ hlt x'' y'' hx'' hy''
      rw [hx', some.injEq] at hx''
      rw [hy', some.injEq] at hy''
      have hle := le_of_getElem? hs hlr.le hx' hy'
      have hxb := hbnd hx
      omega
  exact sweep_spec hs hguides (by omega) (fun _ => hlow) hn res [a]

theorem sweep_zero (hneg : a ≤ 0)
    (hlow : ∀ x y, s[i + 1]? = some x → s[s.length - 1]? = some y → -2 ^ 31 ≤ a + x + y) (res : List (List Int)) :
    ∃ R, loop (sweepRound n s (sum a) 0 [a]) n (i + 1, s.length - 1, res) = some (res ++ R.map ([a] ++ ·)) ∧
      Lists (Pairs s (fun x y => x + y = -a) (i + 1) (s.length - 1)) R := by
  have hbnd : ∀ {p : Nat} {v : Int}, s[p]? = some v → -2 ^ 31 ≤ v ∧ v < 2 ^ 31 := fun hv => hint _ (mem_of_getElem? hv)
  have hab := hbnd ha
  -- as long as the right end did not move the sum is not below the range, and when it moves the left end is large enough
  have hguides : Guides s (sum a) 0 (fun x y => x + y = -a)
      fun left right => ∀ x y, s[left]? = some x → s[right]? = some y → -2 ^ 31 < a + x ∨ -2 ^ 31 ≤ a + x + y := by
    constructor
    · intro left right x y hI hlr hx hy hgt
      have hyb := hbnd hy
      have hcase := hI x y hx hy
      rw [sum_eq] at hgt
      constructor
      · intro j z hj hjr hz hE
        have hxz := le_of_getElem? hs hj hx hz
        have hzy := le_of_getElem? hs hjr.le hz hy
        omega
      · grind
    · intro left right x y hI hlr hx hy hlt
      have hyb := hbnd hy
      have hcase := hI x y hx hy
      rw [sum_eq] at hlt
      constructor
      · intro k z hk hkr hz hE
        have hxz := le_of_getElem? hs hk.le hx hz
        have hzy := le_of_getElem? hs hkr hz hy
        omega
      · intro _ x' y' hx' hy'
        have hxx := le_of_getElem? hs (le_succ left) hx hx'
        rw [hy, some.injEq] at hy'
        omega
    · intro left right x y hI hlr hx hy heq
      have hxb := hbnd hx
      have hyb := hbnd hy
      have hcase := hI x y hx hy
      rw [sum_eq] at heq
      refine ⟨by omega, fun z hz => by omega, fun z hz => by omega, ?_⟩
      intro left' right' x' y' _ _ _ hx' _ hlt _ x'' y'' hx'' _
      rw [hx', some.injEq] at hx''
      omega
  exact sweep_spec hs hguides (by omega) (fun _ x y hx hy => Or.inr (hlow x y hx hy)) hn res [a]

end

/-- What is found: for a head that is low a triple with the sum `-2 ^ 32`, for the others one with the sum zero. -/
def Found (s t : List Int) : Prop := ∃ a x y, t = [a, x, y] ∧ (Low s a ∧ a + x + y = -2 ^ 32 ∨ ¬ Low s a ∧ a + x + y = 0)

theorem found_cons_iff {x y : Int} : Found s [a, x, y] ↔ Low s a ∧ a + x + y = -2 ^ 32 ∨ ¬ Low s a ∧ a + x + y = 0 := by
  constructor
  · rintro ⟨a', x', y', heq, hf⟩
    obtain ⟨rfl, rfl, rfl⟩ := heq
    exact hf
  · intro hf
    exact ⟨a, x, y, rfl, hf⟩

theorem low_iff (hs : s.Pairwise (· ≤ ·)) (hi : i + 2 < s.length) (ha : s[i]? = some a) (hfst : ∀ p, 0 ≤ p → p < i → s[p]? ≠ some a) :
    Low s a ↔ a + s[i + 1] + s[s.length - 1] < -2 ^ 31 := by
  have hx : s[i + 1]? = some s[i + 1] := getElem?_eq_getElem (by omega)
  have hy : s[s.length - 1]? = some s[s.length - 1] := getElem?_eq_getElem (by omega)
  constructor
  · rintro ⟨l, hal, hsub, hall⟩
    have hsort : List.Pairwise (· ≤ ·) [a, l] := by simpa using hal
    have hpair : List.Sublist [a, l] (s.drop 0) := sublist_of_subperm_of_pairwise hsub hsort hs
    rw [cons_sublist_drop_iff_of_first (zero_le i) ha hfst, cons_sublist_drop_iff] at hpair
    obtain ⟨p, hp, hl, -⟩ := hpair
    have hle := le_of_getElem? hs hp hx hl
    have hlt := hall _ (mem_of_getElem? hy)
    omega
  · intro hlow
    refine ⟨s[i + 1], le_of_getElem? hs (le_succ i) ha hx, ?_, fun x hmem => ?_⟩
    · have hpair : List.Sublist [a, s[i + 1]] (s.drop 0) :=
        cons_sublist_drop_iff.mpr ⟨i, zero_le i, ha, cons_sublist_drop_iff.mpr ⟨i + 1, le_rfl, hx, nil_sublist _⟩⟩
      exact hpair.subperm
    · obtain ⟨p, hp⟩ := getElem?_of_mem hmem
      have hplt := (List.getElem?_eq_some_iff.mp hp).1
      have hle := le_of_getElem? hs (show p ≤ s.length - 1 by omega) hp hy
      omega

theorem sweep_found (hs : s.Pairwise (· ≤ ·)) (hint : Ints s) (hn : s.length < n) (hi : i + 2 < s.length) (ha : s[i]? = some a) (hneg : a ≤ 0)
    (hfst : ∀ p, 0 ≤ p → p < i → s[p]? ≠ some a) (res : List (List Int)) :
    ∃ R, loop (sweepRound n s (sum a) 0 [a]) n (i + 1, s.length - 1, res) = some (res ++ R.map ([a] ++ ·)) ∧
      Lists (fun u => List.Sublist u (s.drop (i + 1)) ∧ Found s (a :: u)) R := by
  have hends : ∀ x y, s[i + 1]? = some x → s[s.length - 1]? = some y → x = s[i + 1] ∧ y = s[s.length - 1] := by grind
  have hpairs : ∀ {c : Int}, (∀ x y, x + y = c ↔ (Low s a ∧ a + x + y = -2 ^ 32 ∨ ¬ Low s a ∧ a + x + y = 0)) → ∀ t,
      Pairs s (fun x y => x + y = c) (i + 1) (s.length - 1) t ↔ List.Sublist t (s.drop (i + 1)) ∧ Found s (a :: t) := by
    intro c hc t
    rw [pairs_iff_sublist (by omega)]
    refine and_congr_right fun _ => ⟨?_, ?_⟩
    · rintro ⟨x, y, rfl, hE⟩
      exact found_cons_iff.mpr ((hc x y).mp hE)
    · rintro ⟨a', x, y, heq, hf⟩
      obtain ⟨rfl, rfl⟩ := cons.inj heq
      exact ⟨x, y, rfl, (hc x y).mpr hf⟩
  by_cases hlow : Low s a
  · have hsum := (low_iff hs hi ha hfst).mp hlow
    obtain ⟨R, hrun, hR⟩ := sweep_low hs hint hn hi ha (fun x y hx hy => by obtain ⟨rfl, rfl⟩ := hends x y hx hy; exact hsum) res
    refine ⟨R, hrun, hR.congr (hpairs fun x y => ⟨fun hE => Or.inl ⟨hlow, by omega⟩, ?_⟩)⟩
    rintro (⟨-, hE⟩ | ⟨hnot, -⟩)
    · omega
    · exact absurd hlow hnot
  · have hsum := mt (low_iff hs hi ha hfst).mpr hlow
    obtain ⟨R, hrun, hR⟩ := sweep_zero hs hint hn hi ha hneg (fun x y hx hy => by obtain ⟨rfl, rfl⟩ := hends x y hx hy; exact not_lt.mp hsum) res
    refine ⟨R, hrun, hR.congr (hpairs fun x y => ⟨fun hE => Or.inr ⟨hlow, by omega⟩, ?_⟩)⟩
    rintro (⟨hyes, -⟩ | ⟨-, hE⟩)
    · exact absurd hyes hlow
    · omega

/-! ## The loop over the heads -/

/-- Positive elements have no sum that is looked for. -/
theorem not_found_of_pos {x y : Int} (ha : 0 < a) (hx : 0 < x) (hy : 0 < y) : ¬ Found s [a, x, y] := by
  rw [found_cons_iff]
  omega

theorem threeSum_found (hs : s.Pairwise (· ≤ ·)) (hint : Ints s) (hn : s.length < n) :
    ∃ R, loop (threeSumRound n s) n (0, []) = some R ∧ Lists (fun t => List.Sublist t (s.drop 0) ∧ Found s t) R := by
  have hrd : ∀ st : Nat × List (List Int), Lists (Heads s (Found s) 0 st.1) st.2 →
      (∃ R, threeSumRound n s st = some (.stop R) ∧ Lists (fun t => List.Sublist t (s.drop 0) ∧ Found s t) R) ∨
      ∃ st', threeSumRound n s st = some (.again st') ∧ Lists (Heads s (Found s) 0 st'.1) st'.2 ∧ s.length - st'.1 < s.length - st.1 := by
    rintro ⟨i, R⟩ hR
    have hnil : ¬ Found s [] := by
      rintro ⟨a, x, y, heq, -⟩
      cases heq
    rw [threeSumRound]
    by_cases hi : i + 2 < s.length
    · have ha : s[i]? = some s[i] := getElem?_eq_getElem (by omega)
      rw [if_pos (by omega), ha]
      simp only [bind_eq_bind, bind_some]
      by_cases hpos : s[i] > 0
      · rw [if_pos hpos]
        refine Or.inl ⟨R, rfl, hR.heads_end hnil fun p a u hp ha' hu hf => ?_⟩
        obtain ⟨a', x, y, heq, -⟩ := id hf
        obtain ⟨rfl, rfl⟩ := cons.inj heq
        have hr : ∀ v, v ∈ s.drop (p + 1) → 0 < v := by
          intro v hv
          obtain ⟨q, hq⟩ := getElem?_of_mem hv
          rw [getElem?_drop] at hq
          exact hpos.trans_le (le_of_getElem? hs (by omega) ha hq)
        have hx := hr x (hu.subset mem_cons_self)
        have hy := hr y (hu.subset (mem_cons_of_mem x mem_cons_self))
        exact not_found_of_pos (hpos.trans_le (le_of_getElem? hs hp ha ha')) hx hy hf
      · rw [if_neg hpos]
        right
        rcases repeats_spec hs (zero_le i) ha with ⟨hrep, hdi, hsame⟩ | ⟨hrep, hfst⟩
        · rw [hrep]
          exact ⟨_, rfl, hR.heads_again hdi hsame, by omega⟩
        · obtain ⟨T, hrun, hT⟩ := sweep_found hs hint hn hi ha (not_lt.mp hpos) hfst R
          rw [hrep]
          simp only [hrun]
          exact ⟨_, rfl, hR.heads_new (zero_le i) ha hfst hT, by omega⟩
    · rw [if_neg (by omega)]
      refine Or.inl ⟨R, rfl, hR.heads_end hnil fun p a u hp ha hu hf => ?_⟩
      obtain ⟨a', x, y, heq, -⟩ := hf
      obtain ⟨rfl, rfl⟩ := cons.inj heq
      have hlt : p + 2 < s.length := add_length_lt ha hu
      omega
  exact loop_of_invariant (n := n) (s := (0, [])) hrd (lists_heads_start s (Found s) 0) (by omega)

/-! ## The result -/

theorem threeSum_eq {nums : List Int} (hint : Ints nums) (hn : nums.length < n) :
    ∃ R, threeSum n nums = some R ∧ Lists (fun t => Triple nums t ∧ Found nums t) R := by
  have hp := perm_insertionSort (· ≤ ·) nums
  have hsort : (nums.insertionSort (· ≤ ·)).Pairwise (· ≤ ·) := pairwise_insertionSort _ nums
  have hint' : Ints (nums.insertionSort (· ≤ ·)) := fun v hv => hint v (hp.mem_iff.mp hv)
  have hlow : ∀ a, Low (nums.insertionSort (· ≤ ·)) a ↔ Low nums a := by
    intro a
    unfold Low
    simp only [hp.subperm_left, hp.mem_iff]
  obtain ⟨R, hrun, hR⟩ := threeSum_found hsort hint' (by rwa [hp.length_eq])
  refine ⟨R, hrun, hR.congr fun t => ?_⟩
  rw [sublist_insertionSort_iff]
  constructor
  · rintro ⟨⟨hasc, hsub⟩, a, x, y, rfl, hf⟩
    simp only [hlow] at hf
    exact ⟨⟨rfl, hasc, hsub⟩, a, x, y, rfl, hf⟩
  · rintro ⟨⟨-, hasc, hsub⟩, a, x, y, rfl, hf⟩
    simp only [← hlow] at hf
    exact ⟨⟨hasc, hsub⟩, a, x, y, rfl, hf⟩

/-- A triple with another sum is found in `-2 ^ 31, -2 ^ 31, 0`, and none in `-2 ^ 31, -2 ^ 31, 2 ^ 30, 2 ^ 30`. -/
theorem threeSum_wraps :
    (Ints [-2 ^ 31, -2 ^ 31, 0] ∧ ¬ FindsTriples [-2 ^ 31, -2 ^ 31, 0]) ∧
      Ints [-2 ^ 31, -2 ^ 31, 2 ^ 30, 2 ^ 30] ∧ ¬ FindsTriples [-2 ^ 31, -2 ^ 31, 2 ^ 30, 2 ^ 30] := by
  refine ⟨⟨by unfold Ints; decide, fun h => ?_⟩, by unfold Ints; decide, fun h => ?_⟩
  · obtain ⟨R, hrun, hR⟩ := h 4 (by decide)
    have hout : threeSum 4 [-2 ^ 31, -2 ^ 31, 0] = some [[-2 ^ 31, -2 ^ 31, 0]] := by decide
    rw [hout, some.injEq] at hrun
    subst hrun
    exact absurd ((hR.mem_iff _).mp mem_cons_self).2 (by decide)
  · obtain ⟨R, hrun, hR⟩ := h 5 (by decide)
    have hout : threeSum 5 [-2 ^ 31, -2 ^ 31, 2 ^ 30, 2 ^ 30] = some [] := by decide
    rw [hout, some.injEq] at hrun
    subst hrun
    have hsub : List.Sublist [-2 ^ 31, 2 ^ 30, 2 ^ 30] [(-2 ^ 31 : Int), -2 ^ 31, 2 ^ 30, 2 ^ 30] := by decide
    exact absurd ((hR.mem_iff [-2 ^ 31, 2 ^ 30, 2 ^ 30]).mpr ⟨⟨rfl, by decide, hsub.subperm⟩, by decide⟩) not_mem_nil

/-- The vectors of `int`s for which `threeSum` is right. -/
theorem threeSum_finds_iff {nums : List Int} (hint : Ints nums) :
    FindsTriples nums ↔ ∀ a x y, Triple nums [a, x, y] → (a + x + y = 0 ∨ a + x + y = -2 ^ 32) → ¬ Low nums a := by
  have hsum : ∀ a x y : Int, [a, x, y].sum = a + x + y := by
    intro a x y
    simp only [sum_cons, sum_nil]
    ring
  constructor
  · intro hfinds a x y htriple hcase hlow
    obtain ⟨R, hrun, hR⟩ := threeSum_eq hint (lt_succ_self nums.length)
    obtain ⟨R', hrun', hR'⟩ := hfinds _ (lt_succ_self nums.length)
    rw [hrun, some.injEq] at hrun'
    subst hrun'
    have hiff := hR.iff hR' [a, x, y]
    rw [found_cons_iff, hsum] at hiff
    rcases hcase with hzero | hwrap
    · rcases (hiff.mpr ⟨htriple, hzero⟩).2 with ⟨-, hsum'⟩ | ⟨hnot, -⟩
      · omega
      · exact hnot hlow
    · have hzero := (hiff.mp ⟨htriple, Or.inl ⟨hlow, hwrap⟩⟩).2
      omega
  · intro hnone n hn
    obtain ⟨R, hrun, hR⟩ := threeSum_eq hint hn
    refine ⟨R, hrun, hR.congr fun t => and_congr_right fun htriple => ?_⟩
    obtain ⟨a, x, y, rfl⟩ := length_eq_three.mp htriple.1
    rw [found_cons_iff, hsum]
    constructor
    · rintro (⟨hlow, hwrap⟩ | ⟨-, hzero⟩)
      · exact absurd hlow (hnone a x y htriple (Or.inr hwrap))
      · exact hzero
    · intro hzero
      exact Or.inr ⟨hnone a x y htriple (Or.inl hzero), hzero⟩

/-- The vector of the problem. -/
theorem threeSum_finds_sample :
    Ints [-1, 0, 1, 2, -1, -4] ∧ (FindsTriples [-1, 0, 1, 2, -1, -4] ↔
      ∀ a x y, Triple [-1, 0, 1, 2, -1, -4] [a, x, y] → (a + x + y = 0 ∨ a + x + y = -2 ^ 32) → ¬ Low [-1, 0, 1, 2, -1, -4] a) := by
  have hint : Ints [-1, 0, 1, 2, -1, -4] := by
    unfold Ints
    decide
  exact ⟨hint, threeSum_finds_iff hint⟩

end CsLearning.LeetCode.ThreeSum
