import CsLearning.Lib.Loop
import CsLearning.Lib.Successors

/-!
# Next permutation

Problem 31, with the search from the front and with `upper_bound` of the standard library, which halves the part that is left. The part behind
`pos - 1` is reversed before the exchange, so both searches go through an ascending part, and the exchange leaves it ascending.
-/

open List Option Nat

namespace CsLearning.LeetCode.NextPermutation

/-! ## The code -/

/-- The first loop, which begins at `pos`. -/
def findPos (nums : List Int) : Nat → Option Nat
  | 0 => some 0
  | pos + 1 => do
    let a ← nums[pos]?
    let b ← nums[pos + 1]?
    if a ≥ b then findPos nums pos else return pos + 1

/-- `reverse(nums.begin() + pos, nums.end())`. -/
def reverseFrom (nums : List Int) (pos : Nat) : List Int := nums.take pos ++ (nums.drop pos).reverse

/-- `swap(nums[i], nums[j])`. -/
def swap (nums : List Int) (i j : Nat) : Option (List Int) := do
  let a ← nums[i]?
  let b ← nums[j]?
  return (nums.set i b).set j a

/-- What the two solutions have in common: for the empty vector `pos` is -1, and there is nothing to reverse from. -/
def nextBy (exchange : List Int → Nat → Option (List Int)) (nums : List Int) : Option (List Int) :=
  match nums.length with
  | 0 => none
  | n + 1 => do
    let pos ← findPos nums n
    let nums := reverseFrom nums pos
    if pos > 0 then exchange nums pos else return nums

/-- The second loop, over the indices that are left. -/
def swapFirst (nums : List Int) (pos : Nat) : List Nat → Option (List Int)
  | [] => some nums
  | i :: is => do
    let x ← nums[i]?
    let p ← nums[pos - 1]?
    if x > p then swap nums (pos - 1) i else swapFirst nums pos is

/-- `nextPermutation(nums)`. -/
def nextPermutation : List Int → Option (List Int) := nextBy fun nums pos => swapFirst nums pos (List.range' pos (nums.length - pos))

/-- A round of `upper_bound`. -/
def upperBoundRound (nums : List Int) (val : Int) : Nat × Nat → Option (Round (Nat × Nat) Nat)
  | (first, len) =>
    if len = 0 then some (.stop first)
    else do
      let half := len / 2
      let middle ← nums[first + half]?
      return .again (if val < middle then (first, half) else (first + half + 1, len - half - 1))

/-- `upper_bound(nums.begin() + first, nums.begin() + last, val)`. -/
def upperBound (nums : List Int) (first last : Nat) (val : Int) : Option Nat :=
  loop (upperBoundRound nums val) (last - first + 1) (first, last - first)

/-- `nextPermutation(nums)` with `upper_bound`. -/
def V2.nextPermutation : List Int → Option (List Int) := nextBy fun nums pos => do
  let p ← nums[pos - 1]?
  let iter ← upperBound nums pos nums.length p
  swap nums iter (pos - 1)

/-! ## The searches -/

variable {nums pre suf lo hi : List Int} {pos t : Nat} {p x val : Int}

/-- Behind `pos`, the elements greater than `val` are those from `t` on. -/
structure Cut (nums : List Int) (pos t : Nat) (val : Int) : Prop where
  le : pos ≤ t
  lt_length : t < nums.length
  greater : ∀ i x, pos ≤ i → nums[i]? = some x → (val < x ↔ t ≤ i)

theorem swapFirst_eq (h : Cut nums pos t p) (hp : nums[pos - 1]? = some p) (i n : Nat) (hi : pos ≤ i) (hit : i ≤ t) (ht : t < i + n) :
    swapFirst nums pos (range' i n) = swap nums (pos - 1) t := by
  induction n generalizing i with
  | zero => omega
  | succ n ih =>
    obtain ⟨x, hx⟩ : ∃ x, nums[i]? = some x := ⟨_, getElem?_eq_getElem (hit.trans_lt h.lt_length)⟩
    rw [range'_succ, swapFirst]
    simp only [hx, hp, bind_eq_bind, bind_some]
    have hcut := h.greater i x hi hx
    rcases hit.eq_or_lt with rfl | hlt
    · rw [if_pos (hcut.mpr le_rfl)]
    · grind

/-- The part that is left has the cut in it. -/
def Encloses (nums : List Int) (pos t : Nat) (s : Nat × Nat) : Prop := pos ≤ s.1 ∧ s.1 ≤ t ∧ t ≤ s.1 + s.2 ∧ s.1 + s.2 ≤ nums.length

theorem upperBoundRound_eq {first len : Nat} (hlen : len ≠ 0) (hx : nums[first + len / 2]? = some x) : upperBoundRound nums val (first, len) =
    some (.again (if val < x then (first, len / 2) else (first + len / 2 + 1, len - len / 2 - 1))) := by
  simp only [upperBoundRound, if_neg hlen, hx, bind_eq_bind, bind_some, Option.pure_def]

theorem upperBoundRound_spec (h : Cut nums pos t val) (s : Nat × Nat) (hs : Encloses nums pos t s) :
    (∃ r, upperBoundRound nums val s = some (.stop r) ∧ r = t) ∨
      ∃ s', upperBoundRound nums val s = some (.again s') ∧ Encloses nums pos t s' ∧ s'.2 < s.2 := by
  obtain ⟨first, len⟩ := s
  obtain ⟨hpos, hfst, hl, hlen⟩ := hs
  by_cases h0 : len = 0
  · exact Or.inl ⟨first, if_pos h0, by omega⟩
  · have hhalf : len / 2 < len := Nat.div_lt_self (Nat.pos_of_ne_zero h0) (by decide)
    have hmiddle : first + len / 2 < nums.length := (Nat.add_lt_add_left hhalf first).trans_le hlen
    have hget := getElem?_eq_getElem hmiddle
    have hcut := h.greater _ _ (hpos.trans (Nat.le_add_right _ _)) hget
    refine Or.inr ⟨_, upperBoundRound_eq h0 hget, ?_⟩
    by_cases hlt : val < nums[first + len / 2]
    · have ht := hcut.mp hlt
      rw [if_pos hlt]
      exact ⟨⟨hpos, hfst, ht, hmiddle.le⟩, hhalf⟩
    · have ht := not_le.mp (mt hcut.mpr hlt)
      have hr : first + len / 2 + 1 + (len - len / 2 - 1) = first + len := by omega
      rw [if_neg hlt]
      refine ⟨⟨?_, ht, ?_, ?_⟩, ?_⟩
      · omega
      · exact hl.trans_eq hr.symm
      · exact hr.trans_le hlen
      · omega

theorem upperBound_eq (h : Cut nums pos t val) : upperBound nums pos nums.length val = some t := by
  have hlen : pos + (nums.length - pos) = nums.length := add_sub_of_le (h.le.trans h.lt_length.le)
  have hinit : Encloses nums pos t (pos, nums.length - pos) := ⟨le_rfl, h.le, h.lt_length.le.trans_eq hlen.symm, hlen.le⟩
  obtain ⟨r, hr, rfl⟩ := loop_of_invariant (μ := Prod.snd) (upperBoundRound_spec h) hinit (lt_succ_self _)
  exact hr

/-! ## The exchange -/

theorem swap_comm {i j : Nat} (hij : i ≠ j) (nums : List Int) : swap nums i j = swap nums j i := by
  rw [swap, swap]
  cases hi : nums[i]? with
  | none => cases nums[j]? <;> rfl
  | some a =>
    cases hj : nums[j]? with
    | none => rfl
    | some b =>
      simp only [bind_eq_bind, bind_some]
      rw [set_comm _ _ hij]

theorem swap_eq (pre lo hi : List Int) (p x : Int) :
    swap (pre ++ p :: (lo ++ x :: hi)) pre.length (pre.length + 1 + lo.length) = some (pre ++ x :: (lo ++ p :: hi)) := by
  have hfront : (pre ++ p :: (lo ++ x :: hi))[pre.length]? = some p := by simp
  have hb : ∀ y : Int, (pre ++ y :: (lo ++ x :: hi))[pre.length + 1 + lo.length]? = some x := by grind
  have hset : (pre ++ p :: (lo ++ x :: hi)).set pre.length x = pre ++ x :: (lo ++ x :: hi) := by simp
  have hset' : (pre ++ x :: (lo ++ x :: hi)).set (pre.length + 1 + lo.length) p = pre ++ x :: (lo ++ p :: hi) := by grind
  simp only [swap, hfront, hb, bind_eq_bind, bind_some, hset, hset', Option.pure_def]

theorem cut_of_sorted (pre hi lo : List Int) (hlo : ∀ a ∈ lo, a ≤ p) (hhi : ∀ a ∈ x :: hi, p < a) :
    Cut (pre ++ p :: (lo ++ x :: hi)) (pre.length + 1) (pre.length + 1 + lo.length) p := by
  refine ⟨Nat.le_add_right _ _, by simp; omega, fun i y hle hy => ?_⟩
  obtain ⟨k, rfl⟩ := Nat.exists_eq_add_of_le hle
  rw [Nat.add_assoc, getElem?_append_right (Nat.le_add_right _ _), Nat.add_sub_cancel_left, Nat.add_comm 1 k, getElem?_cons_succ] at hy
  rw [Nat.add_le_add_iff_left]
  rcases Nat.lt_or_ge k lo.length with hk | hk
  · rw [getElem?_append_left hk] at hy
    have hle := hlo y (mem_of_getElem? hy)
    exact iff_of_false (not_lt.mpr hle) (not_le.mpr hk)
  · grind

/-! ## The position -/

/-- The loop goes to the beginning of a descending rest, and behind an element that is smaller than the first one of the rest. -/
theorem findPos_spec (done rest : List Int) (hr : rest.Pairwise (· ≥ ·)) (hne : rest ≠ []) :
    (findPos (done ++ rest) done.length = some 0 ∧ (done ++ rest).Pairwise (· ≥ ·)) ∨
      ∃ pre p y suf, done ++ rest = pre ++ p :: y :: suf ∧ findPos (done ++ rest) done.length = some (pre.length + 1) ∧
        (y :: suf).Pairwise (· ≥ ·) ∧ p < y := by
  induction done using List.reverseRecOn generalizing rest with
  | nil => exact Or.inl ⟨rfl, hr⟩
  | append_singleton done a ih =>
    obtain ⟨b, tail, rfl⟩ := exists_cons_of_ne_nil hne
    have ha : (done ++ a :: b :: tail)[done.length]? = some a := by simp
    have hb : (done ++ a :: b :: tail)[done.length + 1]? = some b := by simp
    have hrd : findPos (done ++ a :: b :: tail) (done.length + 1) =
        if a ≥ b then findPos (done ++ a :: b :: tail) done.length else some (done.length + 1) := by
      simp only [findPos, ha, hb, bind_eq_bind, bind_some, Option.pure_def]
    rw [append_assoc, singleton_append, length_append, length_singleton, hrd]
    by_cases hab : a ≥ b
    · rw [if_pos hab]
      refine ih (a :: b :: tail) (pairwise_cons.mpr ⟨fun c hc => ?_, hr⟩) (cons_ne_nil _ _)
      rcases mem_cons.mp hc with rfl | hc
      · exact hab
      · exact ((pairwise_cons.mp hr).1 c hc).trans hab
    · grind

/-! ## The next permutation -/

theorem reverseFrom_append (pre suf : List Int) (p : Int) : reverseFrom (pre ++ p :: suf) (pre.length + 1) = pre ++ p :: suf.reverse := by
  have hlen : pre.length + 1 = (pre ++ [p]).length := by simp
  rw [reverseFrom, append_cons, hlen, take_left, drop_left, ← append_cons]

variable {l : List Int}

theorem exists_cut (hl : l.Pairwise (· ≤ ·)) (hex : ∃ y ∈ l, p < y) : ∃ lo x hi, l = lo ++ x :: hi ∧ (∀ a ∈ lo, a ≤ p) ∧ ∀ a ∈ x :: hi, p < a := by
  obtain ⟨y, hy, hpy⟩ := hex
  induction l with
  | nil => exact absurd hy not_mem_nil
  | cons b l ih =>
    obtain ⟨hb, hl⟩ := pairwise_cons.mp hl
    by_cases hpb : p < b
    · refine ⟨[], b, l, rfl, fun a ha => absurd ha not_mem_nil, fun a ha => ?_⟩
      rcases mem_cons.mp ha with rfl | ha
      · exact hpb
      · exact hpb.trans_le (hb a ha)
    · have hyl : y ∈ l := by grind
      obtain ⟨lo, x, hi, rfl, hlo, hhi⟩ := ih hl hyl
      refine ⟨b :: lo, x, hi, rfl, fun a ha => ?_, hhi⟩
      rcases mem_cons.mp ha with rfl | ha
      · exact not_lt.mp hpb
      · exact hlo a ha

/-- Where the first loop ends is known: there is no element before the descending rest, or a smaller one. -/
theorem nextBy_cases (hne : nums ≠ []) : ((∀ exchange, nextBy exchange nums = some nums.reverse) ∧ nums.Pairwise (· ≥ ·)) ∨
    ∃ pre p lo x hi, nums = pre ++ p :: (lo ++ x :: hi).reverse ∧ (lo ++ x :: hi).Pairwise (· ≤ ·) ∧ (∀ a ∈ lo, a ≤ p) ∧ (∀ a ∈ x :: hi, p < a) ∧
      ∀ exchange, nextBy exchange nums = exchange (pre ++ p :: (lo ++ x :: hi)) (pre.length + 1) := by
  obtain ⟨done, z, rfl⟩ : ∃ done z, nums = done ++ [z] := ⟨nums.dropLast, nums.getLast hne, (dropLast_append_getLast hne).symm⟩
  have hrun : ∀ exchange, nextBy exchange (done ++ [z]) = (findPos (done ++ [z]) done.length).bind fun pos =>
      if pos > 0 then exchange (reverseFrom (done ++ [z]) pos) pos else some (reverseFrom (done ++ [z]) pos) := by
    intro exchange
    rw [nextBy, length_append]
    rfl
  rcases findPos_spec done [z] (pairwise_singleton _ _) (cons_ne_nil _ _) with ⟨hpos, hdesc⟩ | ⟨pre, p, y, suf, heq, hpos, hdesc, hpy⟩
  · refine Or.inl ⟨fun exchange => ?_, hdesc⟩
    rw [hrun, hpos]
    rfl
  · have hasc : (y :: suf).reverse.Pairwise (· ≤ ·) := pairwise_reverse.mpr hdesc
    obtain ⟨lo, x, hi, hcut, hlo, hhi⟩ := exists_cut hasc ⟨y, mem_reverse.mpr mem_cons_self, hpy⟩
    have hb : (lo ++ x :: hi).reverse = y :: suf := by rw [← hcut, reverse_reverse]
    refine Or.inr ⟨pre, p, lo, x, hi, by rw [heq, hb], by rwa [← hcut], hlo, hhi, fun exchange => ?_⟩
    rw [hrun, hpos, bind_some, if_pos (succ_pos _), heq, reverseFrom_append, hcut]

theorem exchange_eq (pre lo hi : List Int) (hlo : ∀ a ∈ lo, a ≤ p) (hhi : ∀ a ∈ x :: hi, p < a)
    (hn : ∀ exchange, nextBy exchange nums = exchange (pre ++ p :: (lo ++ x :: hi)) (pre.length + 1)) :
    nextPermutation nums = some (pre ++ x :: (lo ++ p :: hi)) ∧ V2.nextPermutation nums = some (pre ++ x :: (lo ++ p :: hi)) := by
  have hcut := cut_of_sorted pre hi lo hlo hhi
  have hp : (pre ++ p :: (lo ++ x :: hi))[pre.length]? = some p := by simp
  constructor
  · rw [nextPermutation, hn, swapFirst_eq hcut hp _ _ le_rfl hcut.le (by simp; omega)]
    exact swap_eq pre lo hi p x
  · rw [V2.nextPermutation, hn]
    simp only [Nat.add_sub_cancel, hp, upperBound_eq hcut, bind_eq_bind, bind_some]
    rw [swap_comm (by omega)]
    exact swap_eq pre lo hi p x

/-- The two solutions leave the same permutation: the least greater one, or, when there is none, the ascending one. -/
theorem next_spec (hne : nums ≠ []) : ∃ ys, nextPermutation nums = some ys ∧ V2.nextPermutation nums = some ys ∧ ys.Perm nums ∧
    ((Greater nums).Nonempty → IsLeast (Greater nums) ys) ∧ (¬(Greater nums).Nonempty → ys.Pairwise (· ≤ ·)) := by
  rcases nextBy_cases hne with ⟨hn, hdesc⟩ | ⟨pre, p, lo, x, hi, heq, hsort, hlo, hhi, hn⟩
  · refine ⟨nums.reverse, hn _, hn _, reverse_perm nums, fun hex => ?_, fun _ => pairwise_reverse.mpr hdesc⟩
    rw [greater_descending hdesc] at hex
    exact absurd hex Set.not_nonempty_empty
  · obtain ⟨hrun, hrun'⟩ := exchange_eq pre lo hi hlo hhi hn
    have hle : IsLeast (Greater nums) (pre ++ x :: (lo ++ p :: hi)) := by
      rw [heq]
      exact greater_append (isLeast_greater hsort hlo (hhi x mem_cons_self)) pre
    exact ⟨_, hrun, hrun', hle.1.1, fun _ => hle, fun hno => absurd ⟨_, hle.1⟩ hno⟩

/-- The vector after `nextPermutation(nums)`. -/
def after (nums : List Int) : List Int := (nextPermutation nums).getD nums

theorem mem_permutations : l ∈ nums.permutations.toFinset ↔ l.Perm nums := by
  rw [List.mem_toFinset, List.mem_permutations]

theorem after_spec (hne : nums ≠ []) (hl : l.Perm nums) : nextPermutation l = some (after l) ∧ V2.nextPermutation l = some (after l) ∧
    (after l).Perm nums ∧ ((Greater l).Nonempty → IsLeast (Greater l) (after l)) ∧ (¬(Greater l).Nonempty → (after l).Pairwise (· ≤ ·)) := by
  have hlne : l ≠ [] := fun hnil => hne (nil_perm.mp (hnil ▸ hl))
  obtain ⟨ys, hrun, hrun', hp, hle, hasc⟩ := next_spec hlne
  rw [after, hrun]
  exact ⟨rfl, hrun', hp.trans hl, hle, hasc⟩

theorem goesRound (hne : nums ≠ []) : GoesRound nums.permutations.toFinset after := by
  have hgreater : ∀ l, l.Perm nums → {y | y ∈ nums.permutations.toFinset ∧ l < y} = Greater l := by
    intro l hl
    ext y
    exact and_congr_left fun _ => mem_permutations.trans ⟨fun hy => hy.trans hl.symm, fun hy => hy.trans hl⟩
  constructor
  · rintro l hl ⟨y, hy, hlt⟩
    have hl := mem_permutations.mp hl
    obtain ⟨-, -, -, hle, -⟩ := after_spec hne hl
    rw [hgreater l hl]
    exact hle ⟨y, (mem_permutations.mp hy).trans hl.symm, hlt⟩
  · intro l hl hno
    have hl := mem_permutations.mp hl
    obtain ⟨-, -, hp, -, hasc⟩ := after_spec hne hl
    have hasc := hasc fun ⟨y, hy, hlt⟩ => hno ⟨y, mem_permutations.mpr (hy.trans hl), hlt⟩
    refine ⟨mem_permutations.mpr hp, fun y hy => ascending_le hasc ?_⟩
    exact (mem_permutations.mp hy).trans hp.symm

/-- Both solutions leave the least greater permutation, or the ascending one when there is none. From the ascending one they come to every permutation
once before they are back. -/
theorem nextPermutation_successor (nums : List Int) (hne : nums ≠ []) :
    (∃ ys, nextPermutation nums = some ys ∧ V2.nextPermutation nums = some ys ∧ ys.Perm nums ∧
      ((∃ zs, zs.Perm nums ∧ nums < zs) → IsLeast {zs | zs.Perm nums ∧ nums < zs} ys) ∧
      ((¬∃ zs, zs.Perm nums ∧ nums < zs) → ys.Pairwise (· ≤ ·))) ∧
    (nums.Pairwise (· ≤ ·) → ∃ (v : Nat → List Int) (N : Nat), v 0 = nums ∧
      (∀ k, nextPermutation (v k) = some (v (k + 1)) ∧ V2.nextPermutation (v k) = some (v (k + 1))) ∧ (∀ k, (v k).Perm nums) ∧
      (∀ zs, zs.Perm nums → ∃! k, k < N ∧ v k = zs) ∧ v N = nums) := by
  refine ⟨next_spec hne, fun hasc => ?_⟩
  have hleast : IsLeast (↑nums.permutations.toFinset) nums :=
    ⟨mem_permutations.mpr (List.Perm.refl nums), fun y hy => ascending_le hasc (mem_permutations.mp hy)⟩
  obtain ⟨hvisits, hback⟩ := (goesRound hne).visits hleast
  have hperm : ∀ k, (after^[k] nums).Perm nums := by
    intro k
    induction k with
    | zero => exact List.Perm.refl nums
    | succ k ih =>
      obtain ⟨-, -, hperm, -⟩ := after_spec hne ih
      rwa [Function.iterate_succ_apply']
  refine ⟨fun k => after^[k] nums, _, rfl, fun k => ?_, hperm, fun zs hzs => hvisits zs (mem_permutations.mpr hzs), hback⟩
  obtain ⟨hrun, hrun', -⟩ := after_spec hne (hperm k)
  dsimp only
  rw [Function.iterate_succ_apply']
  exact ⟨hrun, hrun'⟩

/-- A vector with equal elements. -/
theorem nextPermutation_successor_sample :
    (∃ ys, nextPermutation [1, 1, 5] = some ys ∧ V2.nextPermutation [1, 1, 5] = some ys ∧ ys.Perm [1, 1, 5] ∧
      ((∃ zs : List Int, zs.Perm [1, 1, 5] ∧ [1, 1, 5] < zs) → IsLeast {zs | zs.Perm [1, 1, 5] ∧ [1, 1, 5] < zs} ys) ∧
      ((¬∃ zs : List Int, zs.Perm [1, 1, 5] ∧ [1, 1, 5] < zs) → ys.Pairwise (· ≤ ·))) ∧
    ∃ (v : Nat → List Int) (N : Nat), v 0 = [1, 1, 5] ∧
      (∀ k, nextPermutation (v k) = some (v (k + 1)) ∧ V2.nextPermutation (v k) = some (v (k + 1))) ∧ (∀ k, (v k).Perm [1, 1, 5]) ∧
      (∀ zs, zs.Perm [1, 1, 5] → ∃! k, k < N ∧ v k = zs) ∧ v N = [1, 1, 5] :=
  ⟨(nextPermutation_successor [1, 1, 5] (by simp)).1, (nextPermutation_successor [1, 1, 5] (by simp)).2 (by decide)⟩

end CsLearning.LeetCode.NextPermutation
