import CsLearning.Lib.Cpp
import CsLearning.Lib.Segmentations

/-!
# Word break

Problem 139: a search that tries every word at the front of the string and goes on with the rest. The member `store` keeps the lengths of the
rests that were looked at, and the search skips a rest whose length it finds there.

A length is stored before its rest is searched, and the empty word leaves the string as it is. So `store` also holds lengths of searches that
have not ended yet; those are not smaller than the length of the current string, and only smaller ones are trusted.
-/

open List Option

namespace CsLearning.LeetCode.WordBreak

open Text

/-- The loop of `wordBreak` over the words, where `next` is the recursive call: what is returned, and `store`. -/
def tryWords (next : Text → List Nat → Option (Bool × List Nat)) (s : Text) : List Text → List Nat → Option (Bool × List Nat)
  | [], store => some (false, store)
  | x :: xs, store =>
    if s.length < x.length then tryWords next s xs store
    else do
      let front ← Text.cut s 0 x.length
      if front = x then
        if s.length - x.length ∈ store then tryWords next s xs store
        else
          let tmp_s ← Text.cut s x.length (s.length - x.length)
          let (found, store) ← next tmp_s (store ++ [s.length - x.length])
          if found then return (true, store) else tryWords next s xs store
      else tryWords next s xs store

/-- `wordBreak(s, wordDict)`, with at most `depth` calls inside each other: what is returned, and `store`. -/
def wordBreak : Nat → List Text → Text → List Nat → Option (Bool × List Nat)
  | 0, _, _, _ => none
  | depth + 1, wordDict, s, store => if s.isEmpty then some (true, store) else tryWords (wordBreak depth wordDict) s wordDict store

/-! ## One word -/

variable {next : Text → List Nat → Option (Bool × List Nat)} {wordDict xs : List Text} {s t x : Text} {store store' : List Nat}

theorem tryWords_other (h : ¬x <+: s) : tryWords next s (x :: xs) store = tryWords next s xs store := by
  rw [tryWords]
  by_cases hlen : s.length < x.length
  · rw [if_pos hlen]
  · have hfront : substr s 0 x.length ≠ x := by
      intro heq
      exact h (prefix_iff_eq_take.2 heq.symm)
    rw [if_neg hlen, cut_eq (Nat.zero_le _), bind_eq_bind, bind_some, if_neg hfront]

theorem tryWords_front (h : s = x ++ t) : tryWords next s (x :: xs) store = if t.length ∈ store then tryWords next s xs store
    else (next t (store ++ [t.length])).bind fun r => if r.1 then some (true, r.2) else tryWords next s xs r.2 := by
  have hlen : ¬s.length < x.length := by simp [h]
  have hr : s.length - x.length = t.length := by simp [h]
  have hfront : substr s 0 x.length = x := by simp [substr, h]
  have htmp : substr s x.length t.length = t := by simp [substr, h]
  rw [tryWords, if_neg hlen, cut_eq (Nat.zero_le _), bind_eq_bind, bind_some, if_pos hfront, hr, cut_eq (Nat.le_of_not_lt hlen), htmp]
  rfl

/-! ## The lengths in the store -/

/-- The suffixes whose length is stored and that are shorter than the string are not built from words. -/
def Refuted (wordDict : List Text) (s : Text) (store : List Nat) : Prop :=
  ∀ t, t <:+ s → t.length ∈ store → t.length < s.length → ¬Built wordDict t

/-- What a search that fails does to the store: the lengths it adds are lengths of suffixes that are not built from words. -/
def Failed (wordDict : List Text) (s : Text) (store store' : List Nat) : Prop :=
  store ⊆ store' ∧ ∀ n ∈ store', n ∈ store ∨ n ≤ s.length ∧ ∀ t, t <:+ s → t.length = n → ¬Built wordDict t

theorem Failed.refl (wordDict : List Text) (s : Text) (store : List Nat) : Failed wordDict s store store := ⟨Subset.refl _, fun _ hn => .inl hn⟩

theorem Failed.trans {store'' : List Nat} (h : Failed wordDict s store store') (h' : Failed wordDict s store' store'') :
    Failed wordDict s store store'' := by
  refine ⟨Subset.trans h.1 h'.1, ?_⟩
  intro n hn
  rcases h'.2 n hn with hmem | hnew
  · exact h.2 n hmem
  · exact .inr hnew

theorem Refuted.of_failed (h : Refuted wordDict s store) (hf : Failed wordDict s store store') : Refuted wordDict s store' := by
  intro t ht hmem hlt
  rcases hf.2 _ hmem with hold | ⟨-, hnew⟩
  · exact h t ht hold hlt
  · exact hnew t ht rfl

theorem Refuted.suffix (h : Refuted wordDict s store) (ht : t <:+ s) : Refuted wordDict t (store ++ [t.length]) := by
  intro u hu hmem hlt
  rcases mem_append.1 hmem with hold | hl
  · exact h u (hu.trans ht) hold (hlt.trans_le ht.length_le)
  · rw [mem_singleton.1 hl] at hlt
    exact absurd hlt (lt_irrefl _)

theorem Failed.of_suffix (ht : t <:+ s) (hbuilt : ¬Built wordDict t) (hf : Failed wordDict t (store ++ [t.length]) store') :
    Failed wordDict s store store' := by
  refine ⟨fun n hn => hf.1 (mem_append_left _ hn), ?_⟩
  intro n hn
  rcases hf.2 n hn with hmem | ⟨hle, hnew⟩
  · rcases mem_append.1 hmem with hold | hl
    · exact .inl hold
    · refine .inr ⟨?_, ?_⟩
      · rw [mem_singleton.1 hl]
        exact ht.length_le
      · intro u hu hlen
        have heq : u = t := by
          rw [mem_singleton.1 hl] at hlen
          exact (suffix_of_suffix_length_le hu ht hlen.le).eq_of_length hlen
        rw [heq]
        exact hbuilt
  · refine .inr ⟨hle.trans ht.length_le, ?_⟩
    intro u hu hlen
    exact hnew u (suffix_of_suffix_length_le hu ht (hlen.trans_le hle)) hlen

/-! ## The search -/

/-- What a search for a string comes to. -/
def Decides (wordDict : List Text) (s : Text) (store : List Nat) (r : Option (Bool × List Nat)) : Prop :=
  (∃ store', r = some (true, store') ∧ Built wordDict s) ∨ ∃ store', r = some (false, store') ∧ ¬Built wordDict s ∧ Failed wordDict s store store'

/-- The calls that a search for the string may need inside each other. While the length of the string is not in the store, one of them can be
for the same string, by the empty word. -/
def depthFor (s : Text) (store : List Nat) : Nat := 2 * s.length + if s.length ∈ store then 1 else 2

/-- The loop over the words ends, and when it returns false then no word in front leaves a rest that is built from words. -/
theorem tryWords_spec {depth : Nat}
    (hnext : ∀ t store, Refuted wordDict t store → depthFor t store ≤ depth → Decides wordDict t store (wordBreak depth wordDict t store))
    (hsub : xs ⊆ wordDict) (href : Refuted wordDict s store) (hdep : depthFor s store ≤ depth + 1) :
    (∃ store', tryWords (wordBreak depth wordDict) s xs store = some (true, store') ∧ Built wordDict s) ∨
      ∃ store', tryWords (wordBreak depth wordDict) s xs store = some (false, store') ∧
        (∀ x ∈ xs, x ≠ [] → ∀ t, s = x ++ t → ¬Built wordDict t) ∧ Failed wordDict s store store' := by
  induction xs generalizing store with
  | nil => exact .inr ⟨store, rfl, by simp, Failed.refl wordDict s store⟩
  | cons x xs ih =>
    have hx : x ∈ wordDict := hsub mem_cons_self
    have hxs : xs ⊆ wordDict := fun y hy => hsub (mem_cons_of_mem x hy)
    by_cases hpre : x <+: s
    swap
    · rw [tryWords_other hpre]
      rcases ih hxs href hdep with hyes | ⟨store', hrun, hrest, hf⟩
      · exact .inl hyes
      · refine .inr ⟨store', hrun, ?_, hf⟩
        intro y hy hne t ht
        rcases mem_cons.1 hy with heq | hmem
        · exact absurd ⟨t, by rw [← heq, ht]⟩ hpre
        · exact hrest y hmem hne t ht
    · obtain ⟨t, ht⟩ := hpre
      have hsuff : t <:+ s := ⟨x, ht⟩
      have hlen : s.length = x.length + t.length := by rw [← ht, length_append]
      rw [tryWords_front ht.symm]
      -- Either way the rest `t` is refuted, when the word is not empty, before the loop goes on.
      have hgo : ∀ store1, Failed wordDict s store store1 → (x ≠ [] → ¬Built wordDict t) →
          (∃ store', tryWords (wordBreak depth wordDict) s xs store1 = some (true, store') ∧ Built wordDict s) ∨
            ∃ store', tryWords (wordBreak depth wordDict) s xs store1 = some (false, store') ∧
              (∀ y ∈ x :: xs, y ≠ [] → ∀ u, s = y ++ u → ¬Built wordDict u) ∧ Failed wordDict s store store' := by
        intro store1 hf1 hno
        have hdep1 : depthFor s store1 ≤ depth + 1 := by
          unfold depthFor at hdep ⊢
          by_cases hmem : s.length ∈ store
          · rw [if_pos (hf1.1 hmem)]
            rwa [if_pos hmem] at hdep
          · rw [if_neg hmem] at hdep
            split <;> omega
        rcases ih hxs (href.of_failed hf1) hdep1 with hyes | ⟨store', hrun, hrest, hf⟩
        · exact .inl hyes
        · refine .inr ⟨store', hrun, ?_, hf1.trans hf⟩
          intro y hy hne u hu
          rcases mem_cons.1 hy with heq | hmem
          · subst heq
            rw [append_cancel_left (hu.symm.trans ht.symm)]
            exact hno hne
          · exact hrest y hmem hne u hu
      by_cases hst : t.length ∈ store
      · rw [if_pos hst]
        apply hgo store (Failed.refl wordDict s store)
        intro hne
        have hpos := length_pos_of_ne_nil hne
        exact href t hsuff hst (by omega)
      · rw [if_neg hst]
        have hdep1 : depthFor t (store ++ [t.length]) ≤ depth := by
          unfold depthFor at hdep ⊢
          rw [if_pos (by simp)]
          by_cases hnil : x = []
          · have heq : s.length = t.length := by simp [hlen, hnil]
            rw [heq, if_neg hst] at hdep
            omega
          · have hpos := length_pos_of_ne_nil hnil
            split at hdep <;> omega
        rcases hnext t _ (href.suffix hsuff) hdep1 with ⟨store1, hrun, hbuilt⟩ | ⟨store1, hrun, hbuilt, hf1⟩
        · rw [hrun, bind_some]
          refine .inl ⟨store1, rfl, ?_⟩
          rw [← ht]
          exact hbuilt.append hx
        · rw [hrun, bind_some]
          exact hgo store1 (hf1.of_suffix hsuff hbuilt) fun _ => hbuilt

theorem wordBreak_spec (wordDict : List Text) (depth : Nat) (s : Text) (store : List Nat) (href : Refuted wordDict s store)
    (hdep : depthFor s store ≤ depth) : Decides wordDict s store (wordBreak depth wordDict s store) := by
  induction depth generalizing s store with
  | zero =>
    unfold depthFor at hdep
    split at hdep <;> omega
  | succ depth ih =>
    unfold wordBreak
    by_cases hs : s = []
    · rw [if_pos (by simp [hs])]
      refine .inl ⟨store, rfl, ?_⟩
      rw [hs]
      exact built_nil wordDict
    · rw [if_neg (by simpa using hs)]
      rcases tryWords_spec ih (Subset.refl wordDict) href hdep with hyes | ⟨store', hrun, hr, hf⟩
      · exact .inl hyes
      · refine .inr ⟨store', hrun, ?_, hf⟩
        intro hbuilt
        obtain ⟨x, hx, hne, t, ht, hrestBuilt⟩ := hbuilt.exists_word hs
        exact hr x hx hne t ht hrestBuilt

/-- On a fresh `Solution`, with any words. -/
theorem wordBreak_returns (wordDict : List Text) (s : Text) : ∃ found store, wordBreak (2 * s.length + 2) wordDict s [] = some (found, store) ∧
    (found = true ↔ ∃ ws : List Text, (∀ w ∈ ws, w ∈ wordDict) ∧ ws.flatten = s) := by
  have href : Refuted wordDict s [] := fun t _ hmem => absurd hmem not_mem_nil
  have hdepth : depthFor s [] ≤ 2 * s.length + 2 := by
    unfold depthFor
    rw [if_neg not_mem_nil]
  rcases wordBreak_spec wordDict _ s [] href hdepth with ⟨store, hrun, hbuilt⟩ | ⟨store, hrun, hbuilt, -⟩
  · exact ⟨true, store, hrun, by simpa [Built] using hbuilt⟩
  · exact ⟨false, store, hrun, by simpa [Built] using hbuilt⟩

end CsLearning.LeetCode.WordBreak
