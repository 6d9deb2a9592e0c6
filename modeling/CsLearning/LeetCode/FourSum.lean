import CsLearning.LeetCode.PairSweep
import CsLearning.Lib.Word

/-!
# Four numbers with a given sum

Problem 18: two loops choose the first two elements of the sorted vector, and a sweep the other two. Sums of `int`s wrap around, so it is only the
sum of all four that has to fit.
-/

open List

namespace CsLearning.LeetCode.FourSum

open PairSweep

/-! ## The code -/

/-- One round of a loop over the positions before the last `room`, in which `i` and `res` are the variables: repeated elements are passed over. -/
def headsRound (nums : List Int) (first room : Nat) (body : Nat → Int → List (List Int) → Option (List (List Int))) :
    Nat × List (List Int) → Option (Round (Nat × List (List Int)) (List (List Int)))
  | (i, res) =>
    if (i : Int) < nums.length - room then do
      if (← repeats nums first i) then return .again (i + 1, res)
      else
        let a ← nums[i]?
        let res ← body i a res
        return .again (i + 1, res)
    else return .stop res

/-- `nums[i] + nums[j] + nums[left] + nums[right]`. -/
def sum (a b x y : Int) : Int := Word.toInt (Word.toInt (Word.toInt (a + b) + x) + y)

/-- The body of the loop over `j`. -/
def sweepFrom (n : Nat) (nums : List Int) (target a : Int) (j : Nat) (b : Int) (res : List (List Int)) : Option (List (List Int)) :=
  loop (sweepRound n nums (sum a b) target [a, b]) n (j + 1, nums.length - 1, res)

/-- The body of the loop over `i`. -/
def chooseFrom (n : Nat) (nums : List Int) (target : Int) (i : Nat) (a : Int) (res : List (List Int)) : Option (List (List Int)) :=
  loop (headsRound nums (i + 1) 2 (sweepFrom n nums target a)) n (i + 1, res)

/-- `fourSum(nums, target)`, with at most `n` rounds of each loop. -/
def fourSum (n : Nat) (nums : List Int) (target : Int) : Option (List (List Int)) :=
  let nums := nums.insertionSort (· ≤ ·)
  loop (headsRound nums 0 3 (chooseFrom n nums target)) n (0, [])

/-! ## The loops over the heads -/

variable {s : List Int} {n d i j room : Nat} {a b target : Int} {P : List Int → Prop} {head : List Int}
  {body : Nat → Int → List (List Int) → Option (List (List Int))}

/-- If the body pushes the wanted choices with a given head, the loop pushes all of them. -/
theorem heads_spec (room : Nat) (head : List Int) (hs : s.Pairwise (· ≤ ·)) (hP : ∀ t, P t → t.length = room + 1)
    (hbody : ∀ i a res, d ≤ i → i + room < s.length → s[i]? = some a →
      ∃ T, body i a res = some (res ++ T.map ((head ++ [a]) ++ ·)) ∧ Lists (fun u => List.Sublist u (s.drop (i + 1)) ∧ P (a :: u)) T)
    (hn : s.length < n) (res : List (List Int)) :
    ∃ R, loop (headsRound s d room body) n (d, res) = some (res ++ R.map (head ++ ·)) ∧ Lists (fun t => List.Sublist t (s.drop d) ∧ P t) R := by
  have hrd : ∀ st : Nat × List (List Int), (d ≤ st.1 ∧ ∃ R, st.2 = res ++ R.map (head ++ ·) ∧ Lists (Heads s P d st.1) R) →
      (∃ out, headsRound s d room body st = some (.stop out) ∧
        ∃ R, out = res ++ R.map (head ++ ·) ∧ Lists (fun t => List.Sublist t (s.drop d) ∧ P t) R) ∨
      ∃ st', headsRound s d room body st = some (.again st') ∧
        (d ≤ st'.1 ∧ ∃ R, st'.2 = res ++ R.map (head ++ ·) ∧ Lists (Heads s P d st'.1) R) ∧ s.length - st'.1 < s.length - st.1 := by
    rintro ⟨i, out⟩ ⟨hi, R, hout, hR⟩
    simp only at hi hout hR
    rw [headsRound]
    by_cases hlt : i + room < s.length
    · have ha : s[i]? = some s[i] := getElem?_eq_getElem (by omega)
      rw [if_pos (by omega)]
      right
      rcases repeats_spec hs hi ha with ⟨hrep, hdi, hsame⟩ | ⟨hrep, hfst⟩
      · rw [hrep]
        exact ⟨_, rfl, ⟨by omega, R, hout, hR.heads_again hdi hsame⟩, by omega⟩
      · obtain ⟨T, hrun, hT⟩ := hbody i _ out hi hlt ha
        rw [hrep]
        simp only [Option.bind_eq_bind, Option.bind_some, ha, hrun]
        refine ⟨_, rfl, ⟨by omega, _, ?_, hR.heads_new hi ha hfst hT⟩, by omega⟩
        simp only [hout, map_append, map_map, append_assoc]
        rfl
    · rw [if_neg (by omega)]
      refine Or.inl ⟨out, rfl, R, hout, hR.heads_end (fun hnil => by have := hP _ hnil; simp at this) fun p a u hp ha hu hPau => ?_⟩
      have hlen := hP _ hPau
      rw [length_cons] at hlen
      have hlt := add_length_lt ha hu
      omega
  obtain ⟨out, hrun, R, rfl, hR⟩ := loop_of_invariant (n := n) (s := (d, res)) hrd ⟨le_rfl, [], by simp, lists_heads_start s P d⟩ (by omega)
  exact ⟨R, hrun, hR⟩

/-! ## The choice of four -/

theorem sum_eq {a b x y : Int} (hlow : -2 ^ 31 ≤ a + b + x + y) (hhigh : a + b + x + y < 2 ^ 31) : sum a b x y = a + b + x + y := by
  rw [sum, Word.toInt_toInt_add, add_assoc (Word.toInt (a + b)), Word.toInt_toInt_add, ← add_assoc, Word.toInt_of_fits hlow hhigh]

/-- All sums of four elements fit in an `int`. -/
def SumsFit (s : List Int) : Prop := ∀ t : List Int, t.Subperm s → t.length = 4 → -2 ^ 31 ≤ t.sum ∧ t.sum < 2 ^ 31

theorem SumsFit.sum_eq (h : SumsFit s) {x y : Int} {left right : Nat} (hij : i < j) (hjl : j < left) (hlr : left < right) (ha : s[i]? = some a)
    (hb : s[j]? = some b) (hx : s[left]? = some x) (hy : s[right]? = some y) : sum a b x y = a + b + x + y := by
  have hsub : List.Sublist [a, b, x, y] (s.drop 0) :=
    cons_sublist_drop_iff.mpr ⟨i, Nat.zero_le i, ha, cons_sublist_drop_iff.mpr ⟨j, hij, hb, cons_sublist_drop_iff.mpr ⟨left, hjl, hx,
      cons_sublist_drop_iff.mpr ⟨right, hlr, hy, nil_sublist _⟩⟩⟩⟩
  obtain ⟨hlow, hhigh⟩ := h [a, b, x, y] hsub.subperm rfl
  simp only [sum_cons, sum_nil] at hlow hhigh
  exact FourSum.sum_eq (by omega) (by omega)

theorem sweepFrom_spec (hs : s.Pairwise (· ≤ ·)) (hf : SumsFit s) (hn : s.length < n) (hij : i < j) (hj : j + 2 < s.length) (ha : s[i]? = some a)
    (hb : s[j]? = some b) (res : List (List Int)) :
    ∃ T, sweepFrom n s target a j b res = some (res ++ T.map (([a] ++ [b]) ++ ·)) ∧
      Lists (fun u => List.Sublist u (s.drop (j + 1)) ∧ (b :: u).length = 3 ∧ a + (b :: u).sum = target) T := by
  have hguides : Guides s (sum a b) target (fun x y => x + y = target - a - b) fun left _ => j < left := by
    refine guides_add hs (fun left right x y hI hlr hx hy => ?_) (fun left right x y hI _ _ _ _ => hI) (fun left right x y hI _ _ _ _ => by omega)
      fun left right x y left' right' x' y' hI _ _ _ _ hl _ _ _ _ _ _ => by omega
    rw [hf.sum_eq hij hI hlr ha hb hx hy]
    constructor <;> omega
  obtain ⟨R, hrun, hR⟩ := sweep_spec hs hguides (show s.length - 1 < s.length by omega) (fun _ => Nat.lt_succ_self j) hn res [a, b]
  refine ⟨R, hrun, hR.congr fun t => ?_⟩
  rw [pairs_iff_sublist (by omega)]
  refine and_congr_right fun _ => ⟨?_, ?_⟩
  · grind
  · rintro ⟨hlen, hsum⟩
    obtain ⟨x, y, rfl⟩ := length_eq_two.mp (Nat.succ.inj hlen)
    simp only [sum_cons, sum_nil] at hsum
    exact ⟨x, y, rfl, by omega⟩

theorem chooseFrom_spec (hs : s.Pairwise (· ≤ ·)) (hf : SumsFit s) (hn : s.length < n) (ha : s[i]? = some a) (res : List (List Int)) :
    ∃ T, chooseFrom n s target i a res = some (res ++ T.map (([] ++ [a]) ++ ·)) ∧
      Lists (fun u => List.Sublist u (s.drop (i + 1)) ∧ (a :: u).length = 4 ∧ (a :: u).sum = target) T := by
  obtain ⟨R, hrun, hR⟩ := heads_spec (P := fun u => u.length = 3 ∧ a + u.sum = target) 2 [a] hs (fun t ht => ht.1)
    (fun j b res hj hlt hb => sweepFrom_spec hs hf hn hj hlt ha hb res) hn res
  refine ⟨R, hrun, hR.congr fun t => and_congr_right fun _ => ?_⟩
  rw [length_cons, sum_cons, Nat.succ_inj]

/-- `fourSum` comes to an end with the ascending quadruples of elements at different positions that have the sum, each once. -/
theorem fourSum_lists {nums : List Int} (hfits : SumsFit nums) (target : Int) :
    ∃ n R, fourSum n nums target = some R ∧ Lists (fun t => t.length = 4 ∧ t.Pairwise (· ≤ ·) ∧ t.Subperm nums ∧ t.sum = target) R := by
  have hsorted : (nums.insertionSort (· ≤ ·)).Pairwise (· ≤ ·) := pairwise_insertionSort _ nums
  have hfits' : SumsFit (nums.insertionSort (· ≤ ·)) := fun t ht => hfits t (ht.trans (perm_insertionSort _ nums).subperm)
  have hn := Nat.lt_succ_self (nums.insertionSort (· ≤ ·)).length
  obtain ⟨R, hrun, hR⟩ := heads_spec (P := fun t => t.length = 4 ∧ t.sum = target) (d := 0) 3 [] hsorted (fun t ht => ht.1)
    (fun i a res _ _ ha => chooseFrom_spec hsorted hfits' hn ha res) hn []
  refine ⟨(nums.insertionSort (· ≤ ·)).length + 1, R, ?_, hR.congr fun t => ?_⟩
  · rw [map_id'' (fun t => nil_append t)] at hrun
    exact hrun
  · rw [sublist_insertionSort_iff]
    tauto

/-- The vector of the problem. -/
theorem fourSum_lists_sample :
    SumsFit [1, 0, -1, 0, -2, 2] ∧
      ∃ n R, fourSum n [1, 0, -1, 0, -2, 2] 0 = some R ∧
        Lists (fun t => t.length = 4 ∧ t.Pairwise (· ≤ ·) ∧ t.Subperm [1, 0, -1, 0, -2, 2] ∧ t.sum = 0) R := by
  have hfits : SumsFit [1, 0, -1, 0, -2, 2] := by
    intro t ht hlength
    have hmem : ∀ v ∈ t, -2 ≤ v ∧ v ≤ 2 := by
      intro v hv
      have hv' := ht.subset hv
      simp only [mem_cons, not_mem_nil, or_false] at hv'
      omega
    have hlow := card_nsmul_le_sum t (-2) fun v hv => (hmem v hv).1
    have hhigh := sum_le_card_nsmul t 2 fun v hv => (hmem v hv).2
    rw [hlength] at hlow hhigh
    simp only [nsmul_eq_mul] at hlow hhigh
    omega
  exact ⟨hfits, fourSum_lists hfits 0⟩

end CsLearning.LeetCode.FourSum
