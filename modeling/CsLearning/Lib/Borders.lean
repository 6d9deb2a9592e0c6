import Mathlib

/-!
# Prefixes that end a list

`Ends P W k` says that the first `k` elements of `P` end `W`, and `Border P j k` that they end the first `j` elements of `P` and are not all of
them. Of the prefixes that end a list, the shorter ones are the borders of the longer ones.

A search for `P` reads a text element by element and keeps the length `j` of a prefix that ends what it read. It is a `Frontier` before the element
`x` when no longer prefix that ends the text goes on with `x`. If the prefix goes on with `x`, one more element gives the longest prefix that ends
the text; if it does not, the search falls back to `v`, and `Admissible P j v` says which values keep it at a frontier: -1 or a border, where every
longer border goes on with the same element as the prefix of length `j`, which is known to be wrong.
-/

open List Nat

namespace CsLearning

variable {α : Type*} {P S W : List α} {i j k t : Nat} {x : α}

/-- The first `k` elements of `P` end the list `W`. -/
def Ends (P W : List α) (k : Nat) : Prop := k ≤ P.length ∧ P.take k <:+ W

/-- The first `k` elements of `P` end its first `j` elements, and are not all of them. -/
def Border (P : List α) (j k : Nat) : Prop := k < j ∧ Ends P (P.take j) k

instance [DecidableEq α] : Decidable (Ends P W k) := inferInstanceAs (Decidable (k ≤ P.length ∧ P.take k <:+ W))

instance [DecidableEq α] : Decidable (Border P j k) := inferInstanceAs (Decidable (k < j ∧ Ends P (P.take j) k))

theorem ends_zero (P W : List α) : Ends P W 0 := ⟨zero_le _, nil_suffix⟩

theorem border_zero (P : List α) (j : Nat) : Border P (j + 1) 0 := ⟨succ_pos j, ends_zero P _⟩

theorem Ends.le_length (h : Ends P W k) : k ≤ W.length := by
  have hlen := h.2.length_le
  rwa [length_take, min_eq_left h.1] at hlen

theorem concat_suffix_concat_iff {xs ys : List α} {a b : α} : xs ++ [a] <:+ ys ++ [b] ↔ xs <:+ ys ∧ a = b := by
  rw [suffix_concat_iff]
  constructor
  · rintro (hnil | ⟨t, ht, hys⟩)
    · simp at hnil
    · obtain ⟨rfl, hab⟩ := append_inj' ht rfl
      exact ⟨hys, singleton_inj.mp hab⟩
  · rintro ⟨hys, rfl⟩
    exact Or.inr ⟨xs, rfl, hys⟩

/-- A prefix that ends a text with one more element is a prefix that ends the text, with one more element. -/
theorem ends_succ_iff (hx : S[i]? = some x) : Ends P (S.take (i + 1)) (k + 1) ↔ Ends P (S.take i) k ∧ P[k]? = some x := by
  have hS : S.take (i + 1) = S.take i ++ [x] := by rw [take_add_one, hx, Option.toList_some]
  unfold Ends
  by_cases hk : k < P.length
  · have hP : P.take (k + 1) = P.take k ++ [P[k]] := by rw [take_add_one, getElem?_eq_getElem hk, Option.toList_some]
    rw [hS, hP, concat_suffix_concat_iff, getElem?_eq_getElem hk, Option.some.injEq, and_assoc]
    exact and_congr_left fun _ => by omega
  · rw [getElem?_eq_none (by omega)]
    constructor
    · omega
    · rintro ⟨-, hn⟩
      cases hn

theorem border_succ_iff (hx : P[j]? = some x) : Border P (j + 1) (k + 1) ↔ Border P j k ∧ P[k]? = some x := by
  rw [Border, Border, ends_succ_iff hx, and_assoc, add_lt_add_iff_right]

/-- The shorter ones of the prefixes that end a list are the borders of the longer ones. -/
theorem ends_iff_border (h : Ends P W j) (hk : k < j) : Ends P W k ↔ Border P j k := by
  have hle : k ≤ P.length := by
    have := h.1
    omega
  constructor
  · intro hends
    refine ⟨hk, hle, suffix_of_suffix_length_le hends.2 h.2 ?_⟩
    rw [length_take, length_take]
    omega
  · intro hborder
    exact ⟨hle, hborder.2.2.trans h.2⟩

/-- All of `P` ends the first elements of a text when it occurs before. -/
theorem ends_length_iff (hi : i ≤ S.length) : Ends P (S.take i) P.length ↔ ∃ p, p + P.length = i ∧ P <+: S.drop p := by
  rw [Ends, take_length]
  constructor
  · rintro ⟨-, W, hW⟩
    have hlen : W.length + P.length = i := by
      rw [← length_append, hW, length_take, min_eq_left hi]
    refine ⟨W.length, hlen, S.drop i, ?_⟩
    have hS : W ++ (P ++ S.drop i) = S := by rw [← append_assoc, hW, take_append_drop]
    calc P ++ S.drop i = (W ++ (P ++ S.drop i)).drop W.length := drop_left.symm
      _ = S.drop W.length := by rw [hS]
  · rintro ⟨p, rfl, W, hW⟩
    refine ⟨le_refl _, S.take p, ?_⟩
    rw [take_add, ← hW, take_left]

/-! ## Falling back -/

/-- Lengths of prefixes, where the shorter ones are the borders of the longer ones. -/
def Nested (P : List α) (M : Nat → Prop) : Prop := ∀ j, M j → ∀ k < j, (M k ↔ Border P j k)

theorem nested_ends (P W : List α) : Nested P (Ends P W) := fun _ h _ hk => ends_iff_border h hk

theorem nested_border (P : List α) (j : Nat) : Nested P (Border P j) := by
  intro t ht k hk
  rw [Border, ends_iff_border ht.2 hk]
  exact and_iff_right (hk.trans ht.1)

/-- No prefix with a length in `M` that is longer than `j` goes on with `x`; `j` is one of these lengths, or -1. -/
structure Frontier (P : List α) (M : Nat → Prop) (x : α) (j : Int) : Prop where
  lower : -1 ≤ j
  mem : 0 ≤ j → M j.toNat
  above : ∀ k, M k → j < k → P[k]? ≠ some x

/-- A search that found the first `j` elements and not the next one may fall back to `v`. -/
structure Admissible (P : List α) (j : Nat) (v : Int) : Prop where
  lower : -1 ≤ v
  border : 0 ≤ v → Border P j v.toNat
  above : ∀ k, Border P j k → v < k → P[k]? = P[j]?

variable {M M' : Nat → Prop} {v l : Int}

theorem Frontier.of_isGreatest (h : IsGreatest {k | M k} t) : Frontier P M x t where
  lower := by omega
  mem _ := h.1
  above k hk hlt := by
    have hle := h.2 hk
    omega

/-- The next element of the text goes on with the prefix. -/
theorem Frontier.succ (h : Frontier P M x l) (h0 : M' 0) (hsucc : ∀ k, M' (k + 1) ↔ M k ∧ P[k]? = some x)
    (hx : 0 ≤ l → P[l.toNat]? = some x) : IsGreatest {k | M' k} (l + 1).toNat := by
  constructor
  · by_cases hl : 0 ≤ l
    · have hn : (l + 1).toNat = l.toNat + 1 := by omega
      rw [hn]
      exact (hsucc l.toNat).mpr ⟨h.mem hl, hx hl⟩
    · grind
  · intro k hk
    cases k with
    | zero => exact zero_le _
    | succ k =>
      obtain ⟨hM, hkx⟩ := (hsucc k).mp hk
      by_contra hgt
      exact h.above k hM (by omega) hkx

/-- The next element of the text does not go on with the prefix. -/
theorem Frontier.fall (hM : Nested P M) (h : Frontier P M x l) (hl : 0 ≤ l) (hx : P[l.toNat]? ≠ some x) (hv : Admissible P l.toNat v) :
    Frontier P M x v where
  lower := hv.lower
  mem hpos := (hM _ (h.mem hl) _ (hv.border hpos).1).mpr (hv.border hpos)
  above k hk hlt := by
    rcases lt_trichotomy k l.toNat with hkl | rfl | hkl
    · have hborder := (hM _ (h.mem hl) k hkl).mp hk
      rw [hv.above k hborder hlt]
      exact hx
    · exact hx
    · exact h.above k hk (by omega)

theorem Admissible.lt (h : Admissible P j v) : v < j := by
  by_cases hv : 0 ≤ v
  · have hlt := (h.border hv).1
    omega
  · omega

theorem admissible_zero (P : List α) : Admissible P 0 (-1) where
  lower := le_refl _
  border h := absurd h (by omega)
  above _ h _ := absurd h.1 (not_lt_zero _)

theorem Admissible.of_isGreatest (h : IsGreatest {k | Border P j k} t) : Admissible P j t where
  lower := by omega
  border _ := h.1
  above k hk hlt := by
    have hle := h.2 hk
    omega

/-- The longest border goes on with the same element, so that the search would fall back again. -/
theorem Admissible.skip (h : IsGreatest {k | Border P j k} t) (heq : P[t]? = P[j]?) (hv : Admissible P t v) : Admissible P j v where
  lower := hv.lower
  border hpos := (nested_border P j t h.1 _ (hv.border hpos).1).mpr (hv.border hpos)
  above k hk hlt := by
    rcases lt_or_eq_of_le (h.2 hk) with hkt | rfl
    · rw [hv.above k ((nested_border P j t h.1 k hkt).mp hk) hlt, heq]
    · exact heq

end CsLearning
