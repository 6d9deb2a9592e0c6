import CsLearning.Lib.Cells
import CsLearning.Lib.Cpp
import CsLearning.Lib.Loop
import CsLearning.Lib.Word

/-!
# Search in a rotated array

Problem 33: bisection of an ascending vector that was rotated. Which half to keep is the exclusive or of three comparisons.

`left + right` is an `int`. It fits as long as the vector has at most `2 ^ 30 + 1` elements; in every longer one the search for the last element comes
to a window whose sum does not, or the size itself does not fit.
-/

open List Option Nat

namespace CsLearning.LeetCode.SearchRotated

open Word

variable {T : Type} [LinearOrder T]

/-! ## The code -/

/-- `(nums[left] > target) ^ (nums[left] > nums[mid]) ^ (target > nums[mid])`. -/
def goesRight (first middle target : T) : Bool := (decide (first > target) ^^ decide (first > middle)) ^^ decide (target > middle)

/-- One round of the loop, in which `left` and `right` are the variables, and the expression after it. -/
def searchRound (nums : List T) (target : T) : Int × Int → Option (Round (Int × Int) Int)
  | (left, right) =>
    if left < right then do
      let sum ← Word.addInt left right
      let mid := sum >>> (1 : Nat)
      let first ← (Cells.ofList nums).get left
      let middle ← (Cells.ofList nums).get mid
      return .again (if goesRight first middle target then (mid + 1, right) else (left, mid))
    else if left = right then do
      let first ← (Cells.ofList nums).get left
      return .stop (if first = target then left else -1)
    else return .stop (-1)

/-- `nums.size() - 1` as an `int`. -/
def lastIndex (nums : List T) : Int := Word.toInt (Word.sub 64 nums.length 1)

/-- `search(nums, target)`, with at most `n` rounds. -/
def search (n : Nat) (nums : List T) (target : T) : Option Int := loop (searchRound nums target) n (0, lastIndex nums)

/-- A strictly ascending vector that was rotated. -/
def Rotated (nums : List T) : Prop := ∃ (xs : List T) (k : Nat), xs.Pairwise (· < ·) ∧ nums = xs.rotate k

/-- The only index that holds the target, or `-1` when there is none. -/
def Found (nums : List T) (target : T) (v : Int) : Prop :=
  (∃ p : Nat, v = p ∧ nums[p]? = some target ∧ ∀ q, nums[q]? = some target → q = p) ∨ v = -1 ∧ target ∉ nums

/-- `search` comes to an end with the right result. -/
def Finds (nums : List T) (target : T) : Prop :=
  ∃ n v, search n nums target = some v ∧ Found nums target v

/-! ## The order of a rotated vector -/

variable {nums : List T} {target a b : T} {d l m p r : Nat}

/-- The elements from `d` on are the ones that stood in front. -/
def CutAt (nums : List T) (d : Nat) : Prop :=
  ∀ i j a b, i < j → nums[i]? = some a → nums[j]? = some b → if i < d ∧ d ≤ j then b < a else a < b

theorem Rotated.exists_cutAt (h : Rotated nums) : ∃ d, CutAt nums d := by
  obtain ⟨xs, k, hxs, rfl⟩ := h
  have hsp : xs.Pairwise (· < ·) := hxs
  rw [← take_append_drop (k % xs.length) xs, pairwise_append] at hsp
  rw [rotate_eq_drop_append_take_mod]
  generalize xs.take (k % xs.length) = front at *
  generalize xs.drop (k % xs.length) = back at *
  have hlt : ∀ {ys : List T}, ys.Pairwise (· < ·) → ∀ (i j : Nat) (a b : T), i < j → ys[i]? = some a → ys[j]? = some b → a < b := by
    intro ys hys i j a b hij ha hb
    obtain ⟨hi, rfl⟩ := List.getElem?_eq_some_iff.mp ha
    obtain ⟨hj, rfl⟩ := List.getElem?_eq_some_iff.mp hb
    exact pairwise_iff_getElem.mp hys i j hi hj hij
  refine ⟨back.length, fun i j a b hij ha hb => ?_⟩
  split_ifs with hd
  · grind
  · rcases lt_or_ge i back.length with hi | hi
    · grind
    · grind

theorem CutAt.gt_iff (h : CutAt nums d) {i j : Nat} (hij : i ≤ j) (ha : nums[i]? = some a) (hb : nums[j]? = some b) : a > b ↔ i < d ∧ d ≤ j := by
  rcases eq_or_lt_of_le hij with rfl | hlt
  · grind
  · have horder := h i j a b hlt ha hb
    split_ifs at horder with hd
    · exact ⟨fun _ => hd, fun _ => horder⟩
    · grind

theorem CutAt.ne (h : CutAt nums d) {i j : Nat} (hij : i < j) (ha : nums[i]? = some a) (hb : nums[j]? = some b) : a ≠ b := by
  have horder := h i j a b hij ha hb
  split_ifs at horder
  · exact horder.ne'
  · exact horder.ne

theorem goesRight_iff (h : CutAt nums d) (hlm : l ≤ m) (hlp : l ≤ p) (ha : nums[l]? = some a) (hb : nums[m]? = some b)
    (ht : nums[p]? = some target) : goesRight a b target ↔ m < p := by
  have hfst : decide (a > target) = decide (l < d ∧ d ≤ p) := decide_eq_decide.mpr (h.gt_iff hlp ha ht)
  have hmiddle : decide (a > b) = decide (l < d ∧ d ≤ m) := decide_eq_decide.mpr (h.gt_iff hlm ha hb)
  have htarget : decide (target > b) = if m < p then !decide (m < d ∧ d ≤ p) else decide (p < d ∧ d ≤ m) := by
    split_ifs with hmp
    · have hgt := h.gt_iff hmp.le hb ht
      have hne := h.ne hmp hb ht
      rw [← decide_eq_decide.mpr hgt, ← decide_not]
      exact decide_eq_decide.mpr ⟨fun hlt => not_lt.mpr hlt.le, fun hle => lt_of_le_of_ne (not_lt.mp hle) hne⟩
    · exact decide_eq_decide.mpr (h.gt_iff (not_lt.mp hmp) ht hb)
  rw [goesRight, htarget]
  split_ifs with hmp <;> grind

/-! ## The loop -/

theorem searchRound_of_lt (target : T) (hlr : l < r) (hr : r < nums.length) (hf : l + r < 2 ^ 31) :
    ∃ m b, m = (l + r) / 2 ∧ nums[m]? = some b ∧ ∃ a, nums[l]? = some a ∧
      searchRound nums target (l, r) = some (.again (if goesRight a b target then ((m + 1 : Nat), (r : Int)) else ((l : Int), (m : Int)))) := by
  have hm : (l + r) / 2 < nums.length := by omega
  have hmid : ((l : Int) + r) >>> (1 : Nat) = ((l + r) / 2 : Nat) := by
    rw [Word.shiftRight_one]
    omega
  refine ⟨(l + r) / 2, nums[(l + r) / 2], rfl, getElem?_eq_getElem hm, nums[l], getElem?_eq_getElem (by omega), ?_⟩
  rw [searchRound, if_pos (by omega), Word.addInt_of_fits (by omega) (by omega)]
  simp only [bind_eq_bind, bind_some, hmid, Cells.get_ofList hm, Cells.get_ofList (show l < nums.length by omega)]
  rfl

/-- The window ends at the last index and holds the target if it is there at all. -/
structure Window (nums : List T) (target : T) (l r : Nat) : Prop where
  le : l ≤ r
  lt : r < nums.length
  holds : ∀ p, nums[p]? = some target → l ≤ p ∧ p ≤ r

theorem Window.again (h : Window nums target l r) (hcut : CutAt nums d) (hlr : l < r) (hf : l + r < 2 ^ 31) :
    ∃ l' r' : Nat, searchRound nums target (l, r) = some (.again (l', r')) ∧ Window nums target l' r' ∧ r' - l' < r - l := by
  have hr := h.lt
  obtain ⟨m, b, rfl, hb, a, ha, hrd⟩ := searchRound_of_lt target hlr hr hf
  by_cases hright : goesRight a b target
  · rw [if_pos hright] at hrd
    refine ⟨(l + r) / 2 + 1, r, hrd, ⟨by omega, hr, fun p hp => ?_⟩, by omega⟩
    have hlt := (goesRight_iff hcut (by omega) (h.holds p hp).1 ha hb hp).mp hright
    exact ⟨hlt, (h.holds p hp).2⟩
  · rw [if_neg hright] at hrd
    refine ⟨l, (l + r) / 2, hrd, ⟨by omega, by omega, fun p hp => ⟨(h.holds p hp).1, ?_⟩⟩, by omega⟩
    by_contra hgt
    exact hright ((goesRight_iff hcut (by omega) (h.holds p hp).1 ha hb hp).mpr (by omega))

theorem Window.stop (h : Window nums target l l) : ∃ v, searchRound nums target (l, l) = some (.stop v) ∧ Found nums target v := by
  have hlt := h.lt
  have hl : nums[l]? = some nums[l] := getElem?_eq_getElem hlt
  rw [searchRound, Cells.get_ofList hlt]
  by_cases heq : nums[l] = target
  · refine ⟨l, by simp [heq], Or.inl ⟨l, rfl, heq ▸ hl, fun q hq => ?_⟩⟩
    have hq := h.holds q hq
    omega
  · refine ⟨-1, by simp [heq], Or.inr ⟨rfl, fun hmem => heq ?_⟩⟩
    obtain ⟨q, hq⟩ := getElem?_of_mem hmem
    have hq' : q = l := by
      have hq' := h.holds q hq
      omega
    rw [hq', hl] at hq
    exact some.inj hq

theorem Window.found (h : Window nums target l r) (hcut : CutAt nums d) (hlen : nums.length ≤ 2 ^ 30 + 1) :
    ∃ n v, loop (searchRound nums target) n (l, r) = some v ∧ Found nums target v := by
  have hrd : ∀ s, (∃ l r : Nat, s = ((l : Int), (r : Int)) ∧ Window nums target l r) →
      (∃ v, searchRound nums target s = some (.stop v) ∧ Found nums target v) ∨
        ∃ s', searchRound nums target s = some (.again s') ∧ (∃ l r : Nat, s' = ((l : Int), (r : Int)) ∧ Window nums target l r) ∧
          (s'.2 - s'.1).toNat < (s.2 - s.1).toNat := by
    rintro _ ⟨l, r, rfl, h⟩
    rcases eq_or_lt_of_le h.le with rfl | hlr
    · exact Or.inl h.stop
    · have hr := h.lt
      obtain ⟨l', r', hagain, h', hlt⟩ := h.again hcut hlr (by omega)
      exact Or.inr ⟨_, hagain, ⟨l', r', rfl, h'⟩, by omega⟩
  exact ⟨_, loop_of_invariant hrd ⟨l, r, rfl, h⟩ (lt_succ_self _)⟩

omit [LinearOrder T] in
theorem lastIndex_eq (hpos : 0 < nums.length) (hle : nums.length ≤ 2 ^ 31) : lastIndex nums = (nums.length - 1 : Nat) := by
  rw [lastIndex, toInt_sub_one hle]
  omega

theorem finds_of_length_le (h : Rotated nums) (hlen : nums.length ≤ 2 ^ 30 + 1) (target : T) : Finds nums target := by
  rcases Nat.eq_zero_or_pos nums.length with h0 | hpos
  · rw [length_eq_zero_iff] at h0
    subst h0
    have hl : lastIndex ([] : List T) = -1 := toInt_sub_one (Nat.zero_le _)
    exact ⟨1, -1, by rw [search, hl]; rfl, Or.inr ⟨rfl, not_mem_nil⟩⟩
  · obtain ⟨d, hcut⟩ := h.exists_cutAt
    have hwindow : Window nums target 0 (nums.length - 1) := by
      refine ⟨Nat.zero_le _, by omega, fun p hp => ⟨Nat.zero_le p, ?_⟩⟩
      obtain ⟨hlt, -⟩ := List.getElem?_eq_some_iff.mp hp
      omega
    obtain ⟨n, v, hrun, hv⟩ := hwindow.found hcut hlen
    refine ⟨n, v, ?_, hv⟩
    rwa [search, lastIndex_eq hpos (by omega)]

/-! ## The vectors that are too long -/

/-- The search for the last element goes on until the sum does not fit. -/
theorem loop_last (hcut : CutAt nums d) (hlong : 2 ^ 30 + 2 ≤ nums.length) (ht : nums[nums.length - 1]? = some target) (n : Nat)
    (hl : l < nums.length - 1) : loop (searchRound nums target) n (l, (nums.length - 1 : Nat)) = none := by
  induction n generalizing l with
  | zero => rfl
  | succ n ih =>
    rcases lt_or_ge (l + (nums.length - 1)) (2 ^ 31) with hf | hlarge
    · have hlast : nums.length - 1 < nums.length := by omega
      obtain ⟨m, b, rfl, hb, a, ha, hrd⟩ := searchRound_of_lt target hl hlast hf
      rw [if_pos ((goesRight_iff hcut (by omega) (by omega) ha hb ht).mpr (by omega))] at hrd
      rw [loop_of_again hrd]
      exact ih (by omega)
    · have hrd : searchRound nums target (l, (nums.length - 1 : Nat)) = none := by
        rw [searchRound, if_pos (by omega), addInt_of_large (by omega)]
        rfl
      rw [loop, hrd]

/-- There are only so many `int`s. -/
theorem Rotated.length_le {nums : List CInt} (h : Rotated nums) : nums.length ≤ 2 ^ 32 := by
  obtain ⟨xs, k, hxs, rfl⟩ := h
  rw [length_rotate]
  exact CInt.length_le_of_nodup (hxs.imp fun hlt => hlt.ne)

theorem not_finds_last (h : Rotated nums) (hlong : 2 ^ 30 + 2 ≤ nums.length) (hf : nums.length ≤ 2 ^ 31)
    (ht : nums[nums.length - 1]? = some target) : ¬ Finds nums target := by
  rintro ⟨n, v, hrun, -⟩
  obtain ⟨d, hcut⟩ := h.exists_cutAt
  have hn := loop_last hcut hlong ht n (l := 0) (by omega)
  rw [search, lastIndex_eq (by omega) hf] at hrun
  rw [cast_zero, hrun] at hn
  cases hn

/-- When the last index does not fit it is negative, and the loop ends before it has begun. -/
theorem not_finds_first (hlong : 2 ^ 31 < nums.length) (hmax : nums.length ≤ 2 ^ 32) (ht : nums[0]? = some target) : ¬ Finds nums target := by
  rintro ⟨n, v, hrun, hv⟩
  have hneg : lastIndex nums < 0 := toInt_sub_one_neg hlong hmax
  have hrd : searchRound nums target (0, lastIndex nums) = some (.stop (-1)) := by
    rw [searchRound, if_neg (by omega), if_neg (by omega)]
    rfl
  have hs : v = -1 := by
    cases n with
    | zero => cases hrun
    | succ n =>
      rw [search, loop_of_stop hrd] at hrun
      exact (some.inj hrun).symm
  rcases hv with ⟨p, hp, -⟩ | ⟨-, hmem⟩
  · omega
  · exact hmem (mem_of_getElem? ht)

/-! ## The result -/

/-- The numbers below `N` in ascending order. -/
def firstInts (N : Nat) : List CInt := (List.range N).map fun i : Nat => CInt.clamp i

theorem rotated_firstInts {N : Nat} (hN : N ≤ 2 ^ 31) : Rotated (firstInts N) := by
  exact ⟨firstInts N, 0, CInt.pairwise_clamp_range hN, (rotate_zero _).symm⟩

end CsLearning.LeetCode.SearchRotated
