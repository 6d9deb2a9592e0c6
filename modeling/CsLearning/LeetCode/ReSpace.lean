import CsLearning.Lib.Cpp
import CsLearning.Lib.Loop
import CsLearning.Lib.Segmentations

/-!
# Re-spacing a sentence

Problem 17.13: a table for the prefixes of the sentence, where `dp[i]` is the number of characters of the first `i` that are not recognised. The
last of them is not recognised, or a word of the dictionary ends there.
-/

open List Nat

namespace CsLearning.LeetCode.ReSpace

open Text

/-- The body of the loop over the dictionary. -/
def tryWord (sentence : Text) (i : Nat) (dp : List Nat) (x : Text) : Option (List Nat) :=
  if x.length ≤ i then do
    let part ← Text.cut sentence (i - x.length) x.length
    if x = part then
      let a ← dp[i]?
      let b ← dp[i - x.length]?
      return dp.set i (min a b)
    else some dp
  else some dp

/-- The body of the loop over the sentence. -/
def fill (dictionary : List Text) (sentence : Text) (dp : List Nat) (i : Nat) : Option (List Nat) := do
  let before ← dp[i - 1]?
  dictionary.foldlM (tryWord sentence i) (dp.set i (before + 1))

/-- `respace(dictionary, sentence)`. -/
def respace (dictionary : List Text) (sentence : Text) : Option Nat := do
  let dp ← (List.range' 1 sentence.length).foldlM (fill dictionary sentence) (List.replicate (sentence.length + 1) 0)
  dp[sentence.length]?

/-! ## The last part of a prefix -/

variable {dictionary xs : List Text} {sentence t x : Text} {dp : List Nat} {i v : Nat}

theorem substr_eq_iff (hx : x.length ≤ i) : x = substr sentence (i - x.length) x.length ↔ sentence.take i = sentence.take (i - x.length) ++ x := by
  have hsp : sentence.take i = sentence.take (i - x.length) ++ substr sentence (i - x.length) x.length := by
    rw [substr, ← take_add, Nat.sub_add_cancel hx]
  rw [hsp, append_cancel_left_eq]
  exact eq_comm

theorem eq_take_of_append (hi : i ≤ sentence.length) (h : sentence.take i = t ++ x) : x.length ≤ i ∧ t = sentence.take (i - x.length) := by
  have hlen : i = t.length + x.length := by
    rw [← length_append, ← h, length_take, Nat.min_eq_left hi]
  have hle : x.length ≤ i := hlen ▸ Nat.le_add_left _ _
  refine ⟨hle, ?_⟩
  calc t = (t ++ x).take t.length := take_left.symm
    _ = (sentence.take i).take (i - x.length) := by rw [h, hlen, Nat.add_sub_cancel]
    _ = sentence.take (i - x.length) := by rw [take_take, Nat.min_eq_left (Nat.sub_le _ _)]

/-! ## The loop over the dictionary -/

/-- The table for the prefixes that are shorter than `i`. -/
def Filled (dictionary : List Text) (sentence : Text) (i : Nat) (dp : List Nat) : Prop :=
  dp.length = sentence.length + 1 ∧ ∀ j < i, ∃ n, dp[j]? = some n ∧ IsLeast (Costs dictionary (sentence.take j)) n

/-- The value that the loop over the dictionary has after the words `xs`: some covering has this cost, and none that ends with a letter or with one
of these words has a smaller one. -/
structure Bounds (dictionary : List Text) (sentence : Text) (i : Nat) (xs : List Text) (v : Nat) : Prop where
  mem : v ∈ Costs dictionary (sentence.take i)
  letter : ∀ m ∈ Costs dictionary (sentence.take (i - 1)), v ≤ m + 1
  word : ∀ x ∈ xs, x ≠ [] → ∀ t, sentence.take i = t ++ x → ∀ m ∈ Costs dictionary t, v ≤ m

theorem Filled.set (h : Filled dictionary sentence i dp) (v : Nat) : Filled dictionary sentence i (dp.set i v) := by
  refine ⟨by rw [length_set, h.1], ?_⟩
  intro j hj
  obtain ⟨n, hn, hle⟩ := h.2 j hj
  exact ⟨n, by rw [getElem?_set_ne hj.ne', hn], hle⟩

theorem Filled.getElem?_set (h : Filled dictionary sentence i dp) (hi : i ≤ sentence.length) (v : Nat) : (dp.set i v)[i]? = some v := by
  rw [getElem?_set_self]
  rw [h.1]
  exact lt_succ_of_le hi

theorem Bounds.isLeast (h : Bounds dictionary sentence i dictionary v) (hi : 1 ≤ i) (hle : i ≤ sentence.length) :
    IsLeast (Costs dictionary (sentence.take i)) v := by
  refine ⟨h.mem, ?_⟩
  intro n hn
  have hne : sentence.take i ≠ [] := by grind [length_nil]
  rcases Costs.exists_last hn hne with ⟨t, c, m, heq, hm, hn⟩ | ⟨x, hx, hxne, t, heq, hm⟩
  · rw [hn]
    rw [(eq_take_of_append hle heq).2] at hm
    exact h.letter m hm
  · exact h.word x hx hxne t heq n hm

/-- A word that ends elsewhere changes nothing. -/
theorem Bounds.skip (h : Bounds dictionary sentence i xs v) (hx : ∀ t, sentence.take i ≠ t ++ x) : Bounds dictionary sentence i (xs ++ [x]) v := by
  refine ⟨h.mem, h.letter, ?_⟩
  intro y hy hne t ht
  rcases mem_append.1 hy with hmem | hl
  · exact h.word y hmem hne t ht
  · grind

/-- A word that ends at the end of the prefix, with the least cost of what stands before it. -/
theorem Bounds.take (h : Bounds dictionary sentence i xs v) (hx : x ∈ dictionary) (hi : i ≤ sentence.length) (heq : sentence.take i = t ++ x)
    {n : Nat} (hn : x ≠ [] → IsLeast (Costs dictionary t) n) (he : x = [] → n = v) : Bounds dictionary sentence i (xs ++ [x]) (min v n) := by
  refine ⟨?_, fun m hm => (min_le_left v n).trans (h.letter m hm), ?_⟩
  · by_cases hnil : x = []
    · rw [he hnil, min_self]
      exact h.mem
    · rcases min_choice v n with hv | hv
      · rw [hv]
        exact h.mem
      · rw [hv, heq]
        exact Costs.word (hn hnil).1 hx
  · intro y hy hne u hu m hm
    rcases mem_append.1 hy with hmem | hl
    · exact (min_le_left v n).trans (h.word y hmem hne u hu m hm)
    · rw [mem_singleton.1 hl] at hu hne
      rw [(eq_take_of_append hi hu).2, ← (eq_take_of_append hi heq).2] at hm
      exact (min_le_right v n).trans ((hn hne).2 hm)

/-- What holds in the loop over the dictionary after the words `xs`. -/
def Tried (dictionary : List Text) (sentence : Text) (i : Nat) (xs : List Text) (dp : List Nat) : Prop :=
  Filled dictionary sentence i dp ∧ ∃ v, dp[i]? = some v ∧ Bounds dictionary sentence i xs v

theorem tryWord_tried (h : Tried dictionary sentence i xs dp) (hx : x ∈ dictionary) (hi : i ≤ sentence.length) :
    ∃ dp', tryWord sentence i dp x = some dp' ∧ Tried dictionary sentence i (xs ++ [x]) dp' := by
  obtain ⟨hfill, v, hv, hbnd⟩ := h
  unfold tryWord
  by_cases hlen : x.length ≤ i
  swap
  · rw [if_neg hlen]
    exact ⟨dp, rfl, hfill, v, hv, hbnd.skip fun t ht => hlen (eq_take_of_append hi ht).1⟩
  rw [if_pos hlen, cut_eq ((sub_le _ _).trans hi), Option.bind_eq_bind, Option.bind_some]
  by_cases heq : x = substr sentence (i - x.length) x.length
  swap
  · rw [if_neg heq]
    refine ⟨dp, rfl, hfill, v, hv, hbnd.skip ?_⟩
    intro t ht
    rw [substr_eq_iff hlen, ht, (eq_take_of_append hi ht).2] at heq
    exact heq rfl
  rw [if_pos heq, hv]
  -- The empty word compares the cell with itself.
  have hc : ∃ n, dp[i - x.length]? = some n ∧ (x ≠ [] → IsLeast (Costs dictionary (sentence.take (i - x.length))) n) ∧ (x = [] → n = v) := by
    by_cases hnil : x = []
    · grind
    · have hpos := length_pos_of_ne_nil hnil
      obtain ⟨n, hn, hle⟩ := hfill.2 (i - x.length) (by omega)
      exact ⟨n, hn, fun _ => hle, fun he => absurd he hnil⟩
  obtain ⟨n, hn, hle, he⟩ := hc
  rw [hn]
  exact ⟨_, rfl, hfill.set _, min v n, hfill.getElem?_set hi _, hbnd.take hx hi ((substr_eq_iff hlen).1 heq) hle he⟩

/-! ## The loop over the sentence -/

theorem fill_filled (hdp : Filled dictionary sentence i dp) (hi : 1 ≤ i) (hle : i ≤ sentence.length) :
    ∃ dp', fill dictionary sentence dp i = some dp' ∧ Filled dictionary sentence (i + 1) dp' := by
  obtain ⟨n, hn, hleast⟩ := hdp.2 (i - 1) (by omega)
  have hl : ∃ c, sentence.take i = sentence.take (i - 1) ++ [c] := by
    refine ⟨sentence.get ⟨i - 1, by omega⟩, ?_⟩
    rw [get_eq_getElem, take_append_getElem, Nat.sub_add_cancel hi]
  obtain ⟨c, hc⟩ := hl
  have hst : Tried dictionary sentence i [] (dp.set i (n + 1)) := by
    refine ⟨hdp.set _, n + 1, hdp.getElem?_set hle _, ?_, ?_, by simp⟩
    · rw [hc]
      exact Costs.letter hleast.1 c
    · intro m hm
      exact Nat.succ_le_succ (hleast.2 hm)
  obtain ⟨dp', hrun, hfill, v, hv, hbnd⟩ := foldlM_of_steps (fun xs x b hx hb => tryWord_tried hb hx hle) hst
  refine ⟨dp', ?_, hfill.1, ?_⟩
  · unfold fill
    rw [hn]
    exact hrun
  · intro j hj
    rcases Nat.lt_succ_iff_lt_or_eq.1 hj with hlt | heq
    · exact hfill.2 j hlt
    · rw [heq]
      exact ⟨v, hv, hbnd.isLeast hi hle⟩

/-- For every dictionary, with empty words and words that overlap. -/
theorem respace_isLeast (dictionary : List Text) (sentence : Text) : ∃ n, respace dictionary sentence = some n ∧
    IsLeast {n | ∃ ps : List (Segment Char), Covers dictionary ps sentence ∧ letters ps = n} n := by
  have hstart : Filled dictionary sentence 1 (List.replicate (sentence.length + 1) 0) := by
    refine ⟨length_replicate, ?_⟩
    intro j hj
    have hzero : j = 0 := by omega
    refine ⟨0, ?_, ?_, fun m _ => zero_le m⟩
    · rw [hzero]
      rfl
    · rw [hzero]
      exact Costs.nil dictionary
  have hstep : ∀ i dp, 1 ≤ i → i < 1 + sentence.length → Filled dictionary sentence i dp →
      ∃ dp', fill dictionary sentence dp i = some dp' ∧ Filled dictionary sentence (i + 1) dp' :=
    fun i dp hi hlt hdp => fill_filled hdp hi (by omega)
  obtain ⟨dp, hrun, hfilled⟩ := foldlM_up hstep hstart
  obtain ⟨n, hn, hleast⟩ := hfilled.2 sentence.length (by omega)
  rw [take_length] at hleast
  refine ⟨n, ?_, hleast⟩
  unfold respace
  rw [hrun]
  exact hn

end CsLearning.LeetCode.ReSpace
