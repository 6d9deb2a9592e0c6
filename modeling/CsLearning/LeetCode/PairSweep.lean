import CsLearning.Lib.Choices
import CsLearning.Lib.Loop

/-!
# Pairs in a sorted vector

The loops that problems 15 and 18 have in common, on a vector that is already sorted: two positions move towards each other, by a sum that is
compared with the target, and pass over elements that are equal to the ones of a pair that was found. In the conditions of these loops the left
operand of `==` is evaluated first.

`Guides` says what the comparisons have to be like on the windows that the loop comes to.
-/

open List Option

namespace CsLearning.LeetCode.PairSweep

/-! ## The code -/

/-- One round of `while (left < right && nums[left] == nums[++left]);`. -/
def skipLeftRound (nums : List Int) (right left : Nat) : Option (Round Nat Nat) :=
  if left < right then do
    let a ← nums[left]?
    let b ← nums[left + 1]?
    return if a = b then .again (left + 1) else .stop (left + 1)
  else some (.stop left)

/-- One round of `while (left < right && nums[right] == nums[--right]);`. -/
def skipRightRound (nums : List Int) (left right : Nat) : Option (Round Nat Nat) :=
  if left < right then do
    let a ← nums[right]?
    let b ← nums[right - 1]?
    return if a = b then .again (right - 1) else .stop (right - 1)
  else some (.stop right)

/-- One round of `while (left < right)`, in which `left`, `right` and `res` are the variables: `sum` is computed from the elements at both ends, and
`front` is pushed before them. -/
def sweepRound (n : Nat) (nums : List Int) (sum : Int → Int → Int) (target : Int) (front : List Int) :
    Nat × Nat × List (List Int) → Option (Round (Nat × Nat × List (List Int)) (List (List Int)))
  | (left, right, res) =>
    if left < right then do
      let x ← nums[left]?
      let y ← nums[right]?
      let s := sum x y
      if s > target then return .again (left, right - 1, res)
      else if s < target then return .again (left + 1, right, res)
      else
        let left' ← loop (skipLeftRound nums right) n left
        let right' ← loop (skipRightRound nums left') n right
        return .again (left', right', res ++ [front ++ [x, y]])
    else return .stop res

/-- `i > first && nums[i] == nums[i - 1]`. -/
def repeats (nums : List Int) (first i : Nat) : Option Bool :=
  if i > first then do
    let a ← nums[i]?
    let b ← nums[i - 1]?
    return decide (a = b)
  else some false

/-! ## Equal elements -/

variable {s : List Int} {left right n : Nat} {x y : Int}

theorem skipLeft_spec (hs : s.Pairwise (· ≤ ·)) (hlr : left < right) (hr : right < s.length) (hx : s[left]? = some x) (hn : s.length < n) :
    ∃ left', loop (skipLeftRound s right) n left = some left' ∧ left < left' ∧ left' ≤ right ∧ (∀ j, left ≤ j → j < left' → s[j]? = some x) ∧
      (left' < right → ∀ z, s[left']? = some z → x < z) := by
  have hrd : ∀ p, (left ≤ p ∧ p ≤ right ∧ ∀ j, left ≤ j → j ≤ p → s[j]? = some x) →
      (∃ left', skipLeftRound s right p = some (.stop left') ∧ left < left' ∧ left' ≤ right ∧ (∀ j, left ≤ j → j < left' → s[j]? = some x) ∧
        (left' < right → ∀ z, s[left']? = some z → x < z)) ∨
      ∃ p', skipLeftRound s right p = some (.again p') ∧ (left ≤ p' ∧ p' ≤ right ∧ ∀ j, left ≤ j → j ≤ p' → s[j]? = some x) ∧
        right - p' < right - p := by
    rintro p ⟨hlp, hpr, hsame⟩
    rw [skipLeftRound]
    by_cases hp : p < right
    · have hnext : s[p + 1]? = some s[p + 1] := getElem?_eq_getElem (by omega)
      rw [if_pos hp, hsame p hlp le_rfl, hnext]
      simp only [bind_eq_bind, bind_some]
      by_cases heq : x = s[p + 1]
      · grind
      · refine Or.inl ⟨p + 1, by rw [if_neg heq]; rfl, by omega, hp, fun j hj hjp => hsame j hj (by omega), fun _ z hz => ?_⟩
        rw [hnext, some.injEq] at hz
        subst hz
        exact lt_of_le_of_ne (le_of_getElem? hs (Nat.le_succ p) (hsame p hlp le_rfl) hnext) heq
    · grind
  refine loop_of_invariant (μ := fun p => right - p) hrd ⟨le_rfl, hlr.le, fun j hj hjl => ?_⟩ (by omega)
  rw [Nat.le_antisymm hjl hj, hx]

theorem skipRight_spec (hs : s.Pairwise (· ≤ ·)) (hlr : left ≤ right) (hr : right < s.length) (hy : s[right]? = some y) (hn : s.length < n) :
    ∃ right', loop (skipRightRound s left) n right = some right' ∧ left ≤ right' ∧ right' ≤ right ∧ (left < right → right' < right) ∧
      (∀ k, right' < k → k ≤ right → s[k]? = some y) ∧ (left < right' → ∀ z, s[right']? = some z → z < y) := by
  have hrd : ∀ p, (left ≤ p ∧ p ≤ right ∧ ∀ k, p ≤ k → k ≤ right → s[k]? = some y) →
      (∃ right', skipRightRound s left p = some (.stop right') ∧ left ≤ right' ∧ right' ≤ right ∧ (left < right → right' < right) ∧
        (∀ k, right' < k → k ≤ right → s[k]? = some y) ∧ (left < right' → ∀ z, s[right']? = some z → z < y)) ∨
      ∃ p', skipRightRound s left p = some (.again p') ∧ (left ≤ p' ∧ p' ≤ right ∧ ∀ k, p' ≤ k → k ≤ right → s[k]? = some y) ∧
        p' - left < p - left := by
    rintro p ⟨hlp, hpr, hsame⟩
    rw [skipRightRound]
    by_cases hp : left < p
    · have hnext : s[p - 1]? = some s[p - 1] := getElem?_eq_getElem (by omega)
      rw [if_pos hp, hsame p le_rfl hpr, hnext]
      simp only [bind_eq_bind, bind_some]
      by_cases heq : y = s[p - 1]
      · grind
      · refine Or.inl ⟨p - 1, by rw [if_neg heq]; rfl, by omega, by omega, fun _ => by omega, fun k hk hkr => hsame k (by omega) hkr,
          fun _ z hz => ?_⟩
        rw [hnext, some.injEq] at hz
        subst hz
        exact lt_of_le_of_ne (le_of_getElem? hs (Nat.sub_le p 1) hnext (hsame p le_rfl hpr)) (Ne.symm heq)
    · grind
  refine loop_of_invariant (μ := fun p => p - left) hrd ⟨hlr, le_rfl, fun k hk hkr => ?_⟩ (by omega)
  rw [Nat.le_antisymm hkr hk, hy]

/-! ## The sweep -/

variable {sum : Int → Int → Int} {target : Int} {E : Int → Int → Prop} {I : Nat → Nat → Prop}

/-- On the windows with the invariant the comparison drops only elements that are in no wanted pair, and finds only wanted ones. -/
structure Guides (s : List Int) (sum : Int → Int → Int) (target : Int) (E : Int → Int → Prop) (I : Nat → Nat → Prop) : Prop where
  gt : ∀ left right x y, I left right → left < right → s[left]? = some x → s[right]? = some y → sum x y > target →
    (∀ j z, left ≤ j → j < right → s[j]? = some z → ¬ E z y) ∧ (left < right - 1 → I left (right - 1))
  lt : ∀ left right x y, I left right → left < right → s[left]? = some x → s[right]? = some y → sum x y < target →
    (∀ k z, left < k → k ≤ right → s[k]? = some z → ¬ E x z) ∧ (left + 1 < right → I (left + 1) right)
  eq : ∀ left right x y, I left right → left < right → s[left]? = some x → s[right]? = some y → sum x y = target →
    E x y ∧ (∀ z, E x z → z = y) ∧ (∀ z, E z y → z = x) ∧
      ∀ left' right' x' y', left < left' → left' < right' → right' < right → s[left']? = some x' → s[right']? = some y' → x < x' → y' < y →
        I left' right'

/-- The pairs that were found, together with those of the window that is left, are those of the first window. -/
structure Swept (s : List Int) (E : Int → Int → Prop) (I : Nat → Nat → Prop) (left right : Nat) (done : List (List Int)) (l r : Nat) : Prop where
  lt : r < s.length
  guided : l < r → I l r
  rest : ∀ R, Lists (Pairs s E l r) R → Lists (Pairs s E left right) (done ++ R)

variable {l r : Nat} {done front res : List (List Int)} {head : List Int}

theorem Swept.round (h : Swept s E I left right done l r) (hs : s.Pairwise (· ≤ ·)) (hguides : Guides s sum target E I) (hn : s.length < n)
    (hlr : l < r) (head : List Int) (res : List (List Int)) :
    ∃ l' r' found, sweepRound n s sum target head (l, r, res) = some (.again (l', r', res ++ found.map (head ++ ·))) ∧
      Swept s E I left right (done ++ found) l' r' ∧ r' - l' < r - l := by
  have hr := h.lt
  have hx : s[l]? = some s[l] := getElem?_eq_getElem (by omega)
  have hy : s[r]? = some s[r] := getElem?_eq_getElem hr
  have hI := h.guided hlr
  simp only [sweepRound, if_pos hlr, hx, hy, bind_eq_bind, bind_some]
  by_cases hgt : sum s[l] s[r] > target
  · obtain ⟨hnone, hnext⟩ := hguides.gt l r _ _ hI hlr hx hy hgt
    rw [if_pos hgt]
    refine ⟨l, r - 1, [], by simp, ⟨by omega, hnext, fun R hR => ?_⟩, by omega⟩
    rw [append_nil]
    exact h.rest R (hR.pairs_drop_right hy hnone)
  · rw [if_neg hgt]
    by_cases hlt : sum s[l] s[r] < target
    · obtain ⟨hnone, hnext⟩ := hguides.lt l r _ _ hI hlr hx hy hlt
      rw [if_pos hlt]
      refine ⟨l + 1, r, [], by simp, ⟨hr, hnext, fun R hR => ?_⟩, by omega⟩
      rw [append_nil]
      exact h.rest R (hR.pairs_drop_left hx hnone)
    · obtain ⟨hE, huniq, huniq', hnext⟩ := hguides.eq l r _ _ hI hlr hx hy (le_antisymm (not_lt.mp hgt) (not_lt.mp hlt))
      obtain ⟨l', hskip, hl, hlr', hsame, hnew⟩ := skipLeft_spec hs hlr hr hx hn
      obtain ⟨r', hskip', hlr'', hr', hb, hsame', hnew'⟩ := skipRight_spec hs hlr' hr hy hn
      rw [if_neg hlt]
      refine ⟨l', r', [[s[l], s[r]]], by simp [hskip, hskip'], ⟨by omega, fun hlt' => ?_, fun R hR => ?_⟩, by omega⟩
      · grind
      · rw [append_assoc]
        exact h.rest _ (hR.pairs_match hs hlr hx hy hE huniq huniq' hl.le hr' hsame hsame' fun hlt' => hnew (by omega))

/-- The sweep pushes the wanted pairs of the window, each once, behind what is given. -/
theorem sweep_spec (hs : s.Pairwise (· ≤ ·)) (hguides : Guides s sum target E I) (hr : right < s.length) (hI : left < right → I left right)
    (hn : s.length < n) (res : List (List Int)) (head : List Int) :
    ∃ R, loop (sweepRound n s sum target head) n (left, right, res) = some (res ++ R.map (head ++ ·)) ∧ Lists (Pairs s E left right) R := by
  have hrd : ∀ st : Nat × Nat × List (List Int), (∃ done, st.2.2 = res ++ done.map (head ++ ·) ∧ Swept s E I left right done st.1 st.2.1) →
      (∃ out, sweepRound n s sum target head st = some (.stop out) ∧ ∃ R, out = res ++ R.map (head ++ ·) ∧ Lists (Pairs s E left right) R) ∨
        ∃ st', sweepRound n s sum target head st = some (.again st') ∧
          (∃ done, st'.2.2 = res ++ done.map (head ++ ·) ∧ Swept s E I left right done st'.1 st'.2.1) ∧ st'.2.1 - st'.1 < st.2.1 - st.1 := by
    rintro ⟨l, r, out⟩ ⟨done, hout, hswept⟩
    simp only at hout hswept
    by_cases hlr : l < r
    · obtain ⟨l', r', found, hagain, hswept', hlt⟩ := hswept.round hs hguides hn hlr head out
      refine Or.inr ⟨_, hagain, ⟨done ++ found, ?_, hswept'⟩, hlt⟩
      simp only [hout, map_append, append_assoc]
    · refine Or.inl ⟨out, by rw [sweepRound, if_neg hlr]; rfl, done, hout, ?_⟩
      have hrest := hswept.rest [] (lists_pairs_nil (not_lt.mp hlr))
      rwa [append_nil] at hrest
  have hst : ∃ done, res = res ++ done.map (head ++ ·) ∧ Swept s E I left right done left right := ⟨[], by simp, ⟨hr, hI, fun R hR => hR⟩⟩
  obtain ⟨out, hrun, R, rfl, hR⟩ := loop_of_invariant (n := n) (s := (left, right, res)) hrd hst (by simp only; omega)
  exact ⟨R, hrun, hR⟩

theorem guides_add (hs : s.Pairwise (· ≤ ·)) {c : Int}
    (hcompare : ∀ left right x y, I left right → left < right → s[left]? = some x → s[right]? = some y →
      (sum x y > target ↔ x + y > c) ∧ (sum x y < target ↔ x + y < c))
    (hgt : ∀ left right x y, I left right → left < right - 1 → s[left]? = some x → s[right]? = some y → x + y > c → I left (right - 1))
    (hlt : ∀ left right x y, I left right → left + 1 < right → s[left]? = some x → s[right]? = some y → x + y < c → I (left + 1) right)
    (heq : ∀ left right x y left' right' x' y', I left right → left < right → s[left]? = some x → s[right]? = some y → x + y = c →
      left < left' → left' < right' → right' < right → s[left']? = some x' → s[right']? = some y' → x < x' → y' < y → I left' right') :
    Guides s sum target (fun x y => x + y = c) I := by
  constructor
  · intro left right x y hI hlr hx hy hsum
    have hgreater := (hcompare left right x y hI hlr hx hy).1.mp hsum
    refine ⟨fun j z hj _ hz hE => ?_, fun hlr' => hgt left right x y hI hlr' hx hy hgreater⟩
    have hle := le_of_getElem? hs hj hx hz
    omega
  · intro left right x y hI hlr hx hy hsum
    have hless := (hcompare left right x y hI hlr hx hy).2.mp hsum
    refine ⟨fun k z _ hk hz hE => ?_, fun hlr' => hlt left right x y hI hlr' hx hy hless⟩
    have hle := le_of_getElem? hs hk hz hy
    omega
  · intro left right x y hI hlr hx hy hsum
    obtain ⟨hmore, hless⟩ := hcompare left right x y hI hlr hx hy
    have hequal : x + y = c := by omega
    refine ⟨hequal, fun z hz => by omega, fun z hz => by omega, ?_⟩
    intro left' right' x' y'
    exact heq left right x y left' right' x' y' hI hlr hx hy hequal

/-! ## Repeated heads -/

variable {d i : Nat} {a : Int}

/-- Whether the element is that of the position before, within the part that is gone through. -/
theorem repeats_spec (hs : s.Pairwise (· ≤ ·)) (hi : d ≤ i) (ha : s[i]? = some a) :
    (repeats s d i = some true ∧ d < i ∧ s[i]? = s[i - 1]?) ∨ (repeats s d i = some false ∧ ∀ p, d ≤ p → p < i → s[p]? ≠ some a) := by
  rw [repeats]
  by_cases hgt : i > d
  · have hlt := (List.getElem?_eq_some_iff.mp ha).1
    have hb : s[i - 1]? = some s[i - 1] := getElem?_eq_getElem (by omega)
    rw [if_pos hgt, ha, hb]
    simp only [bind_eq_bind, bind_some]
    by_cases heq : a = s[i - 1]
    · grind
    · refine Or.inr ⟨by rw [decide_eq_false heq]; rfl, fun p hp hpi hpa => heq ?_⟩
      exact le_antisymm (le_of_getElem? hs (by omega) hpa hb) (le_of_getElem? hs (Nat.sub_le i 1) hb ha)
  · rw [if_neg hgt]
    exact Or.inr ⟨rfl, fun p hp hpi => by omega⟩

/-! ## Sorting -/

theorem sublist_insertionSort_iff (nums t : List Int) :
    List.Sublist t ((nums.insertionSort (· ≤ ·)).drop 0) ↔ t.Pairwise (· ≤ ·) ∧ t.Subperm nums := by
  have hp := perm_insertionSort (· ≤ ·) nums
  have hsort : (nums.insertionSort (· ≤ ·)).Pairwise (· ≤ ·) := pairwise_insertionSort _ nums
  constructor
  · intro h
    exact ⟨hsort.sublist h, h.subperm.trans hp.subperm⟩
  · rintro ⟨hasc, hsub⟩
    exact sublist_of_subperm_of_pairwise (hsub.trans hp.symm.subperm) hasc hsort

end CsLearning.LeetCode.PairSweep
