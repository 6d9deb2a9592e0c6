import Mathlib

/-!
# Palindromes in a list

`PalAt s i n`: the `n` elements of `s` from position `i` on are a palindrome. One that is longer by two has the same element at both ends, so a
palindrome that cannot be extended is the longest one with its centre (`PalAt.le_of_stuck`). `Best s C i n` says that this one is at least as long
as all those in `C`, and its rules say how a search takes one more candidate, or the longest of a group of them.
-/

open List

namespace CsLearning

variable {α : Type*} {s : List α} {i n i' n' : Nat}

/-- The `n` elements from `i` on are a palindrome. -/
def PalAt (s : List α) (i n : Nat) : Prop := i + n ≤ s.length ∧ ((s.drop i).take n).Palindrome

theorem palindrome_cons_concat_iff {a b : α} {l : List α} : (a :: (l ++ [b])).Palindrome ↔ a = b ∧ l.Palindrome := by
  rw [Palindrome.iff_reverse_eq, Palindrome.iff_reverse_eq, reverse_cons, reverse_append, reverse_singleton, singleton_append, cons_append]
  constructor
  · grind [append_inj']
  · rintro ⟨rfl, hl⟩
    rw [hl]

theorem palAt_zero (h : i ≤ s.length) : PalAt s i 0 := by
  refine ⟨h, ?_⟩
  exact Palindrome.nil

theorem palAt_one (h : i < s.length) : PalAt s i 1 := by
  refine ⟨h, ?_⟩
  rw [drop_eq_getElem_cons h, take_succ_cons]
  exact Palindrome.singleton _

instance [DecidableEq α] : Decidable (PalAt s i n) := inferInstanceAs (Decidable (_ ∧ _))

theorem palAt_add_two : PalAt s i (n + 2) ↔ i + n + 2 ≤ s.length ∧ s[i]? = s[i + n + 1]? ∧ PalAt s (i + 1) n := by
  by_cases hlen : i + n + 2 ≤ s.length
  · have hfst : i < s.length := by omega
    have hsp : (s.drop i).take (n + 2) = s[i] :: ((s.drop (i + 1)).take n ++ [s[i + n + 1]]) := by
      have hget : (s.drop (i + 1))[n]? = some s[i + n + 1] := by
        rw [getElem?_drop, Nat.add_right_comm, getElem?_eq_getElem]
      rw [drop_eq_getElem_cons hfst, take_succ_cons, take_add_one, hget, Option.toList_some]
    rw [PalAt, hsp, palindrome_cons_concat_iff, PalAt, getElem?_eq_getElem hfst, getElem?_eq_getElem (by omega)]
    constructor
    · grind
    · grind
  · constructor
    · intro h
      exact absurd h.1 (by omega)
    · intro h
      exact absurd h.1 hlen

theorem palAt_add_two_of_lt (h : i + n + 1 < s.length) : PalAt s i (n + 2) ↔ s[i] = s[i + n + 1] ∧ PalAt s (i + 1) n := by
  rw [palAt_add_two, getElem?_eq_getElem (show i < s.length by omega), getElem?_eq_getElem h, Option.some.injEq]
  exact and_iff_right h

theorem PalAt.inner {k : Nat} (h : PalAt s i (n + 2 * k)) : PalAt s (i + k) n := by
  induction k generalizing i with
  | zero => exact h
  | succ k ih =>
    have hn := (palAt_add_two.mp (show PalAt s i (n + 2 * k + 2) from h)).2.2
    rw [Nat.add_comm k 1, ← Nat.add_assoc]
    exact ih hn

/-- A palindrome that cannot be extended is the longest one with its centre. -/
theorem PalAt.le_of_stuck (hstuck : i = 0 ∨ i + n = s.length ∨ s[i - 1]? ≠ s[i + n]?) (h : PalAt s i' n') (hcentre : 2 * i' + n' = 2 * i + n) :
    n' ≤ n := by
  by_contra hlt
  obtain ⟨k, hk⟩ : ∃ k, n' = n + 2 + 2 * k := ⟨(n' - n - 2) / 2, by omega⟩
  have hinner := (show PalAt s i' (n + 2 + 2 * k) from hk ▸ h).inner
  have hi : i' + k = i - 1 := by omega
  rw [hi, palAt_add_two] at hinner
  obtain ⟨hlen, hs, -⟩ := hinner
  have hidx : i - 1 + n + 1 = i + n := by omega
  rw [hidx] at hs
  rcases hstuck with h0 | hend | hne
  · omega
  · omega
  · exact hne hs

/-- The longest palindrome with the centre `c`, which is twice the place of its middle. -/
structure Widest (s : List α) (c i n : Nat) : Prop where
  pal : PalAt s i n
  centre : 2 * i + n = c
  le : ∀ i' n', 2 * i' + n' = c → PalAt s i' n' → n' ≤ n

theorem PalAt.widest (h : PalAt s i n) (hstuck : i = 0 ∨ i + n = s.length ∨ s[i - 1]? ≠ s[i + n]?) : Widest s (2 * i + n) i n :=
  ⟨h, rfl, fun _ _ hcentre h' => h'.le_of_stuck hstuck hcentre⟩

/-! ## The longest one -/

/-- A part of the list that is a palindrome, and none is longer. -/
def LongestPalindrome (s r : List α) : Prop := r <:+: s ∧ r.Palindrome ∧ ∀ t, t <:+: s → t.Palindrome → t.length ≤ r.length

/-- At least as long as the palindromes in `C`. -/
structure Best (s : List α) (C : Nat → Nat → Prop) (i n : Nat) : Prop where
  pal : PalAt s i n
  le : ∀ i' n', C i' n' → PalAt s i' n' → n' ≤ n

variable {C D : Nat → Nat → Prop}

theorem best_start (h : 0 < s.length) : Best s (fun _ n => n ≤ 1) 0 1 := ⟨palAt_one h, fun _ _ hn _ => hn⟩

theorem Best.mono (h : Best s C i n) (hCD : ∀ i' n', PalAt s i' n' → D i' n' → C i' n') : Best s D i n :=
  ⟨h.pal, fun i' n' hD hpal => h.le i' n' (hCD i' n' hpal hD) hpal⟩

/-- There is nothing new that is longer. -/
theorem Best.keep (h : Best s C i n) (hD : ∀ i' n', D i' n' → PalAt s i' n' → n' ≤ n) : Best s (fun i' n' => C i' n' ∨ D i' n') i n :=
  ⟨h.pal, fun i' n' hCD hpal => hCD.elim (fun hC => h.le i' n' hC hpal) fun hD' => hD i' n' hD' hpal⟩

theorem Best.replace (h : Best s C i n) (hpal : PalAt s i' n') (hlt : n < n') (hD : ∀ i'' n'', D i'' n'' → PalAt s i'' n'' → n'' ≤ n') :
    Best s (fun i'' n'' => C i'' n'' ∨ D i'' n'') i' n' :=
  ⟨hpal, fun i'' n'' hCD hpal' => hCD.elim (fun hC => (h.le i'' n'' hC hpal').trans hlt.le) fun hD' => hD i'' n'' hD' hpal'⟩

theorem Best.take (h : Best s C i n) (hpal : PalAt s i' n') (hlt : n < n') : Best s (fun i'' n'' => C i'' n'' ∨ i'' = i' ∧ n'' = n') i' n' :=
  h.replace hpal hlt fun _ _ hD _ => hD.2.le

/-- One candidate that is not longer, or no palindrome. -/
theorem Best.skip (h : Best s C i n) (hnot : PalAt s i' n' → n' ≤ n) : Best s (fun i'' n'' => C i'' n'' ∨ i'' = i' ∧ n'' = n') i n := by
  refine h.keep ?_
  rintro _ _ ⟨rfl, rfl⟩ hpal
  exact hnot hpal

theorem infix_iff {t : List α} : t <:+: s ↔ ∃ i n, i + n ≤ s.length ∧ t = (s.drop i).take n := by
  constructor
  · rintro ⟨u, v, rfl⟩
    refine ⟨u.length, t.length, ?_, ?_⟩
    · rw [length_append, length_append]
      omega
    · rw [append_assoc, drop_left, take_left]
  · grind [ take_prefix, drop_suffix]

theorem Best.longest (h : Best s (fun _ _ => True) i n) : LongestPalindrome s ((s.drop i).take n) := by
  obtain ⟨hlen, hpal⟩ := h.pal
  refine ⟨infix_iff.mpr ⟨i, n, hlen, rfl⟩, hpal, fun t ht hpal' => ?_⟩
  obtain ⟨i', n', hlen', rfl⟩ := infix_iff.mp ht
  have hle := h.le i' n' trivial ⟨hlen', hpal'⟩
  rw [length_take, length_take, length_drop, length_drop]
  omega

theorem longestPalindrome_self (h : s.length < 2) : LongestPalindrome s s := by
  refine ⟨infix_rfl, ?_, fun t ht _ => ht.length_le⟩
  match s, h with
  | [], _ => exact Palindrome.nil
  | [a], _ => exact Palindrome.singleton a

theorem LongestPalindrome.length_eq {r r' : List α} (h : LongestPalindrome s r) (h' : LongestPalindrome s r') : r.length = r'.length :=
  le_antisymm (h'.2.2 r h.1 h.2.1) (h.2.2 r' h'.1 h'.2.1)

end CsLearning
