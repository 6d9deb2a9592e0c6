import CsLearning.Lib.Cpp
import CsLearning.Lib.Loop

/-!
# Wildcard matching

Problem 44. The first matcher fills a table of which prefixes of the text match which prefixes of the pattern. The second one has two
pointers and comes back to the last star only: a match that begins with an earlier choice for an earlier star leaves at least as much of
the text to the later star, which takes any text.
-/

open List Option Nat

namespace CsLearning.LeetCode.WildcardMatching

/-! ## The language of a pattern -/

/-- What one character of a pattern stands for: a star for any text, a question mark for any character, and a letter for itself. -/
def symbol (c : Char) : Language Char := {w | c = '*' ∨ ∃ d, w = [d] ∧ (d = c ∨ c = '?')}

/-- The texts that match a pattern. -/
def language (p : Text) : Language Char := (p.map symbol).prod

/-! ## The table -/

/-- `dp`. -/
abbrev Table := Nat → Nat → Bool

/-- `dp[i][j] = b`. -/
def Table.set (dp : Table) (i j : Nat) (b : Bool) : Table := fun i' j' => if i' = i ∧ j' = j then b else dp i' j'

/-- The loop over the first row, after `j` rounds. -/
def firstRow (p : Text) : Nat → Table → Table
  | 0, dp => dp
  | j + 1, dp =>
    let dp := firstRow p j dp
    dp.set 0 (j + 1) (p[j]? = some '*' && dp 0 j)

/-- The body of the loops for the cell after `i` and `j`. -/
def fillCell (s p : Text) (i j : Nat) (dp : Table) : Table :=
  let dp := if p[j]? = some '?' ∨ s[i]? = p[j]? then dp.set (i + 1) (j + 1) (dp i j) else dp
  if p[j]? = some '*' then dp.set (i + 1) (j + 1) (dp (i + 1) j || dp i (j + 1)) else dp

/-- The inner loop, after `j` rounds. -/
def fillRow (s p : Text) (i : Nat) : Nat → Table → Table
  | 0, dp => dp
  | j + 1, dp => fillCell s p i j (fillRow s p i j dp)

/-- The outer loop, after `i` rounds. -/
def fillRows (s p : Text) : Nat → Table → Table
  | 0, dp => dp
  | i + 1, dp => fillRow s p i p.length (fillRows s p i dp)

/-- `isMatch` with the table. -/
def isMatchTable (s p : Text) : Bool :=
  let dp : Table := Table.set (fun _ _ => false) 0 0 true
  fillRows s p s.length (firstRow p p.length dp) s.length p.length

/-! ## Two pointers -/

/-- The variables of `isMatch` with two pointers. -/
structure Pointers where
  i : Nat
  j : Nat
  iStar : Int
  jStar : Int

/-- The first loop, and after it the loop over the stars that are left. -/
def greedyRound (s p : Text) (x : Pointers) : Option (Round Pointers Bool) :=
  if x.i < s.length then
    if x.j < p.length ∧ (s[x.i]? = p[x.j]? ∨ p[x.j]? = some '?') then some (.again { x with i := x.i + 1, j := x.j + 1 })
    else if x.j < p.length ∧ p[x.j]? = some '*' then some (.again { x with iStar := x.i, jStar := x.j, j := x.j + 1 })
    else if x.iStar ≥ 0 then
      some (.again ⟨(x.iStar + 1).toNat, (x.jStar + 1).toNat, x.iStar + 1, x.jStar⟩)
    else some (.stop false)
  else some (.stop (Text.skip (· == '*') p x.j = p.length))

/-- `isMatch` with two pointers, in at most `n` rounds of its first loop. -/
def isMatchGreedy (s p : Text) (n : Nat) : Option Bool := loop (greedyRound s p) n ⟨0, 0, -1, -1⟩

/-! ## Texts and patterns -/

variable {s p q w : Text} {c : Char}

theorem mem_language_nil : s ∈ language [] ↔ s = [] := by
  simp [language]

theorem language_append (p q : Text) : language (p ++ q) = language p * language q := by
  simp [language]

theorem language_cons (c : Char) (p : Text) : language (c :: p) = symbol c * language p := by
  simp [language]

/-- One character of the text may stand for `c`. -/
def Fits (c d : Char) : Prop := c ≠ '*' ∧ (d = c ∨ c = '?')

theorem mem_symbol_star : w ∈ symbol '*' := Or.inl rfl

theorem mem_symbol (h : c ≠ '*') : w ∈ symbol c ↔ ∃ d, w = [d] ∧ Fits c d := by
  constructor
  · rintro (hc | ⟨d, rfl, hd⟩)
    · exact absurd hc h
    · exact ⟨d, rfl, h, hd⟩
  · rintro ⟨d, rfl, -, hd⟩
    exact Or.inr ⟨d, rfl, hd⟩

theorem mem_language_star : s ∈ language ('*' :: p) ↔ ∃ k, s.drop k ∈ language p := by
  constructor
  · rintro ⟨u, -, v, hv, rfl⟩
    exact ⟨u.length, by rwa [drop_left]⟩
  · rintro ⟨k, hk⟩
    exact ⟨s.take k, mem_symbol_star, s.drop k, hk, take_append_drop k s⟩

theorem mem_language_cons (h : c ≠ '*') : s ∈ language (c :: p) ↔ ∃ d s', s = d :: s' ∧ Fits c d ∧ s' ∈ language p := by
  rw [language_cons, Language.mem_mul]
  constructor
  · grind [mem_symbol]
  · rintro ⟨d, s', rfl, hd, hs'⟩
    exact ⟨[d], (mem_symbol h).mpr ⟨d, rfl, hd⟩, s', hs', rfl⟩

theorem mem_language_snoc : s ∈ language (p ++ [c]) ↔ ∃ u v, u ∈ language p ∧ v ∈ symbol c ∧ u ++ v = s := by
  rw [language_append, Language.mem_mul]
  simp [language]

/-- The empty text matches stars only. -/
theorem nil_mem_language : [] ∈ language p ↔ ∀ c ∈ p, c = '*' := by
  induction p with
  | nil => simp [mem_language_nil]
  | cons c p ih =>
    by_cases hc : c = '*'
    · subst hc
      simp [mem_language_star, ih]
    · simp [mem_language_cons hc, hc]

/-! ## The table is right -/

variable {i j : Nat} {dp : Table}

/-- The prefixes of the lengths `i` and `j` match. -/
def Prefixes (s p : Text) (i j : Nat) : Prop := s.take i ∈ language (p.take j)

theorem prefixes_zero (hi : i ≤ s.length) : Prefixes s p i 0 ↔ i = 0 := by
  unfold Prefixes
  rw [take_zero, mem_language_nil, take_eq_nil_iff]
  constructor
  · rintro (h | h)
    · exact h
    · simpa [h] using hi
  · exact Or.inl

theorem prefixes_first_row (hj : p[j]? = some c) : Prefixes s p 0 (j + 1) ↔ c = '*' ∧ Prefixes s p 0 j := by
  unfold Prefixes
  rw [take_add_one, hj, take_zero, nil_mem_language, nil_mem_language]
  simp only [Option.toList, mem_append, mem_singleton]
  constructor
  · intro h
    exact ⟨h c (.inr rfl), fun d hd => h d (.inl hd)⟩
  · grind

/-- Under a star, the last character of the text is taken by the star or nothing is. -/
theorem prefixes_star (hj : p[j]? = some '*') : Prefixes s p (i + 1) (j + 1) ↔ Prefixes s p (i + 1) j ∨ Prefixes s p i (j + 1) := by
  have hsnoc : ∀ i, Prefixes s p i (j + 1) ↔ ∃ k, k ≤ i ∧ Prefixes s p k j := by
    intro i
    unfold Prefixes
    rw [take_add_one, hj, Option.toList, mem_language_snoc]
    constructor
    · rintro ⟨u, v, hu, -, huv⟩
      have ht : s.take (min u.length i) = u := by
        rw [← take_take, ← huv, take_left]
      exact ⟨min u.length i, min_le_right .., by rwa [ht]⟩
    · rintro ⟨k, hk, hmem⟩
      refine ⟨s.take k, (s.take i).drop k, hmem, mem_symbol_star, ?_⟩
      have hsp := take_append_drop k (s.take i)
      rwa [take_take, min_eq_left hk] at hsp
  constructor
  · grind
  · grind

theorem prefixes_other {d : Char} (hi : s[i]? = some d) (hj : p[j]? = some c) (hc : c ≠ '*') :
    Prefixes s p (i + 1) (j + 1) ↔ Fits c d ∧ Prefixes s p i j := by
  unfold Prefixes
  rw [take_add_one, take_add_one, hi, hj, Option.toList, Option.toList, mem_language_snoc]
  constructor
  · grind [mem_symbol, append_inj']
  · grind [mem_symbol]

/-- The cells that have been filled say which prefixes match, and the others are false: the rows before `i`, and the row `i` up
to the column `j`. -/
def Filled (s p : Text) (i j : Nat) (dp : Table) : Prop :=
  ∀ i' j', i' ≤ s.length → j' ≤ p.length →
    (dp i' j' = true ↔ (j' = 0 ∨ i' < i ∨ (i' = i ∧ j' ≤ j)) ∧ Prefixes s p i' j')

theorem Filled.next {b : Bool} (h : Filled s p i j dp) (hb : b = true ↔ Prefixes s p i (j + 1)) : Filled s p i (j + 1) (dp.set i (j + 1) b) := by
  intro i' j' hi' hj'
  unfold Table.set
  by_cases hc : i' = i ∧ j' = j + 1
  · grind
  · rw [if_neg hc, h i' j' hi' hj']
    have hdone : (j' = 0 ∨ i' < i ∨ (i' = i ∧ j' ≤ j)) ↔ (j' = 0 ∨ i' < i ∨ (i' = i ∧ j' ≤ j + 1)) := by omega
    rw [hdone]

theorem Filled.row (h : Filled s p i p.length dp) : Filled s p (i + 1) 0 dp := by
  intro i' j' hi' hj'
  have hdone : (j' = 0 ∨ i' < i ∨ (i' = i ∧ j' ≤ p.length)) ↔ (j' = 0 ∨ i' < i + 1 ∨ (i' = i + 1 ∧ j' ≤ 0)) := by omega
  rw [h i' j' hi' hj', hdone]

theorem filled_start : Filled s p 0 0 (Table.set (fun _ _ => false) 0 0 true) := by
  intro i' j' hi' hj'
  unfold Table.set
  by_cases hc : i' = 0 ∧ j' = 0
  · obtain ⟨rfl, rfl⟩ := hc
    simp [prefixes_zero]
  · rw [if_neg hc]
    constructor
    · intro h
      cases h
    · grind [prefixes_zero]

theorem filled_firstRow (h : Filled s p 0 0 dp) (hj : j ≤ p.length) : Filled s p 0 j (firstRow p j dp) := by
  induction j with
  | zero => exact h
  | succ j ih =>
    have hfill := ih (by omega)
    have hget : p[j]? = some p[j] := getElem?_eq_getElem hj
    apply hfill.next
    rw [prefixes_first_row hget, Bool.and_eq_true, hget, hfill 0 j (by omega) (by omega)]
    simp

theorem fillCell_eq (s p : Text) (i j : Nat) (dp : Table) : fillCell s p i j dp = dp.set (i + 1) (j + 1)
    (if p[j]? = some '*' then dp (i + 1) j || dp i (j + 1)
      else if p[j]? = some '?' ∨ s[i]? = p[j]? then dp i j else dp (i + 1) (j + 1)) := by
  funext i' j'
  unfold fillCell Table.set
  by_cases hc : i' = i + 1 ∧ j' = j + 1
  · obtain ⟨rfl, rfl⟩ := hc
    by_cases hfit : p[j]? = some '?' ∨ s[i]? = p[j]?
    · grind
    · simp only [if_neg hfit]
      by_cases hstar : p[j]? = some '*'
      · simp only [if_pos hstar]
      · simp only [if_neg hstar]
        simp
  · split_ifs <;> simp [hc]

theorem filled_fillRow (h : Filled s p (i + 1) 0 dp) (hi : i < s.length) (hj : j ≤ p.length) : Filled s p (i + 1) j (fillRow s p i j dp) := by
  induction j with
  | zero => exact h
  | succ j ih =>
    have hfill := ih (by omega)
    have hgets : s[i]? = some s[i] := getElem?_eq_getElem hi
    have hgetp : p[j]? = some p[j] := getElem?_eq_getElem hj
    rw [fillRow, fillCell_eq]
    apply hfill.next
    by_cases hstar : p[j]? = some '*'
    · rw [if_pos hstar, prefixes_star hstar, Bool.or_eq_true, hfill (i + 1) j hi (by omega), hfill i (j + 1) (by omega) hj]
      simp
    · have hc : p[j] ≠ '*' := fun hc => hstar (by rw [hgetp, hc])
      rw [if_neg hstar, prefixes_other hgets hgetp hc]
      by_cases hfit : p[j]? = some '?' ∨ s[i]? = p[j]?
      · have hfits : Fits p[j] s[i] := ⟨hc, by simpa [hgets, hgetp, or_comm] using hfit⟩
        rw [if_pos hfit, hfill i j (by omega) (by omega)]
        simp [hfits]
      · have hfits : ¬Fits p[j] s[i] := fun hf => hfit (by simpa [hgets, hgetp, or_comm] using hf.2)
        rw [if_neg hfit, hfill (i + 1) (j + 1) hi hj]
        simp [hfits]

theorem filled_fillRows (h : Filled s p 0 p.length dp) (hi : i ≤ s.length) : Filled s p i p.length (fillRows s p i dp) := by
  induction i with
  | zero => exact h
  | succ i ih => exact filled_fillRow (ih (by omega)).row hi (le_refl _)

theorem isMatchTable_iff (s p : Text) : isMatchTable s p = true ↔ s ∈ language p := by
  have hfill : Filled s p s.length p.length (fillRows s p s.length (firstRow p p.length (Table.set (fun _ _ => false) 0 0 true))) :=
    filled_fillRows (filled_firstRow filled_start (le_refl _)) (le_refl _)
  unfold isMatchTable
  rw [hfill s.length p.length (le_refl _) (le_refl _)]
  simp [Prefixes]

/-! ## The last star is enough -/

theorem star_of_drop {k : Nat} (h : s.drop k ∈ language ('*' :: p)) : s ∈ language ('*' :: p) := by grind [mem_language_star, drop_drop]

/-- A part of the text that fits a part of the pattern without stars. -/
theorem append_mem_language (hq : List.Forall₂ Fits q w) (h : s ∈ language p) : w ++ s ∈ language (q ++ p) := by
  induction hq with
  | nil => exact h
  | cons hcd _ ih => exact (mem_language_cons hcd.1).mpr ⟨_, _, rfl, hcd, ih⟩

/-- A part of the pattern without stars takes as much of the text as it is long. -/
theorem drop_mem_language (hq : ∀ c ∈ q, c ≠ '*') (h : s ∈ language (q ++ p)) : s.drop q.length ∈ language p := by
  induction q generalizing s with
  | nil => exact h
  | cons c q ih => grind [mem_language_cons]

theorem ne_star_of_fits (hq : List.Forall₂ Fits q w) : ∀ c ∈ q, c ≠ '*' := by
  induction hq with
  | nil => simp
  | cons hcd _ ih =>
    intro c hc
    rcases mem_cons.mp hc with rfl | hc
    · exact hcd.1
    · exact ih c hc

/-- A text that begins with a part `w` that fits what comes after the star: if it matches at all, then a part of the rest matches the rest
of the pattern, and it is the whole rest unless the star can take the first character. -/
theorem exists_drop_of_star (hq : List.Forall₂ Fits q w) (h : w ++ s ∈ language ('*' :: (q ++ p))) :
    ∃ k, s.drop k ∈ language p ∧ (k = 0 ∨ (w ++ s).drop 1 ∈ language ('*' :: (q ++ p))) := by
  obtain ⟨k, hk⟩ := mem_language_star.mp h
  have hr := drop_mem_language (ne_star_of_fits hq) hk
  refine ⟨k, ?_, ?_⟩
  · rw [drop_drop, Nat.add_comm, ← drop_drop, hq.length_eq, drop_left] at hr
    exact hr
  · rcases Nat.eq_zero_or_pos k with h0 | hpos
    · exact .inl h0
    · refine .inr (mem_language_star.mpr ⟨k - 1, ?_⟩)
      rw [drop_drop, Nat.add_sub_cancel' hpos]
      exact hk

/-! ## The two pointers -/

variable {x : Pointers}

/-- What is known when the last star has been at `a` in the text and at `b` in the pattern: the parts between the stars and the
pointers fit, and the text matches if the rest of it from `a` matches the rest of the pattern from the star. -/
structure AtStar (s p : Text) (x : Pointers) (a b : Nat) : Prop where
  iStar : x.iStar = a
  jStar : x.jStar = b
  le_i : a ≤ x.i
  lt_j : b < x.j
  fits : ∃ q w, List.Forall₂ Fits q w ∧ p.drop b = '*' :: (q ++ p.drop x.j) ∧ s.drop a = w ++ s.drop x.i
  iff : s ∈ language p ↔ s.drop a ∈ language (p.drop b)

/-- What is known before the first star. -/
structure NoStar (s p : Text) (x : Pointers) : Prop where
  iStar : x.iStar = -1
  jStar : x.jStar = -1
  iff : s ∈ language p ↔ s.drop x.i ∈ language (p.drop x.j)

/-- The invariant of the first loop. -/
structure Invariant (s p : Text) (x : Pointers) : Prop where
  i_le : x.i ≤ s.length
  j_le : x.j ≤ p.length
  stars : NoStar s p x ∨ ∃ a b, AtStar s p x a b

variable {b a : Nat}

theorem AtStar.switch (h : AtStar s p x a b) {p' : Text} (hp : p.drop x.j = '*' :: p') :
    s ∈ language p ↔ s.drop x.i ∈ language (p.drop x.j) := by
  obtain ⟨q, w, hq, hb, ha⟩ := h.fits
  rw [h.iff, ha, hb]
  constructor
  · grind [exists_drop_of_star, star_of_drop]
  · intro hmem
    exact mem_language_star.mpr ⟨0, append_mem_language hq hmem⟩

theorem AtStar.finish (h : AtStar s p x a b) (hi : s.length ≤ x.i) : s ∈ language p ↔ [] ∈ language (p.drop x.j) := by
  obtain ⟨q, w, hq, hb, ha⟩ := h.fits
  have hnil : s.drop x.i = [] := drop_eq_nil_of_le hi
  rw [h.iff, ha, hb, hnil]
  constructor
  · intro hmem
    obtain ⟨k, hk, -⟩ := exists_drop_of_star hq hmem
    rwa [drop_nil] at hk
  · intro hmem
    exact mem_language_star.mpr ⟨0, append_mem_language hq hmem⟩

/-- When the rest of the text does not match the rest of the pattern, the star takes one character more. -/
theorem AtStar.advance (h : AtStar s p x a b) (hne : s.drop x.i ∉ language (p.drop x.j)) : s ∈ language p ↔ s.drop (a + 1) ∈ language (p.drop b) := by
  obtain ⟨q, w, hq, hb, ha⟩ := h.fits
  rw [h.iff, ← drop_drop, hb]
  constructor
  · grind [exists_drop_of_star]
  · exact star_of_drop

theorem not_mem_of_mismatch (hi : x.i < s.length) (hfit : ¬(x.j < p.length ∧ (s[x.i]? = p[x.j]? ∨ p[x.j]? = some '?')))
    (hstar : ¬(x.j < p.length ∧ p[x.j]? = some '*')) : s.drop x.i ∉ language (p.drop x.j) := by
  have hs : s.drop x.i = s[x.i] :: s.drop (x.i + 1) := drop_eq_getElem_cons hi
  rw [hs]
  by_cases hj : x.j < p.length
  · have hp : p.drop x.j = p[x.j] :: p.drop (x.j + 1) := drop_eq_getElem_cons hj
    have hc : p[x.j] ≠ '*' := fun hc => hstar ⟨hj, by rw [getElem?_eq_getElem hj, hc]⟩
    rw [hp, mem_language_cons hc]
    rintro ⟨d, s', hd, hf, -⟩
    obtain ⟨rfl, -⟩ := cons.inj hd
    apply hfit
    refine ⟨hj, ?_⟩
    rw [getElem?_eq_getElem hi, getElem?_eq_getElem hj]
    simpa using hf.2
  · have hp : p.drop x.j = [] := drop_eq_nil_of_le (Nat.le_of_not_lt hj)
    rw [hp]
    exact cons_ne_nil _ _

theorem Invariant.fit (h : Invariant s p x) (hi : x.i < s.length) (hj : x.j < p.length) (hf : Fits p[x.j] s[x.i]) :
    Invariant s p { x with i := x.i + 1, j := x.j + 1 } := by
  have hs : s.drop x.i = s[x.i] :: s.drop (x.i + 1) := drop_eq_getElem_cons hi
  have hp : p.drop x.j = p[x.j] :: p.drop (x.j + 1) := drop_eq_getElem_cons hj
  refine ⟨hi, hj, ?_⟩
  rcases h.stars with hno | ⟨a, b, hstar⟩
  · refine .inl ⟨hno.iStar, hno.jStar, ?_⟩
    rw [hno.iff, hs, hp, mem_language_cons hf.1]
    constructor
    · grind
    · intro hs'
      exact ⟨_, _, rfl, hf, hs'⟩
  · obtain ⟨q, w, hq, hb, ha⟩ := hstar.fits
    refine .inr ⟨a, b, hstar.iStar, hstar.jStar, le_succ_of_le hstar.le_i, lt_succ_of_lt hstar.lt_j, ?_, hstar.iff⟩
    refine ⟨q ++ [p[x.j]], w ++ [s[x.i]], rel_append hq (.cons hf .nil), ?_, ?_⟩
    · rw [hb]
      simp
    · rw [ha]
      simp

theorem Invariant.star (h : Invariant s p x) (hj : x.j < p.length) (hc : p[x.j]? = some '*') :
    Invariant s p { x with iStar := x.i, jStar := x.j, j := x.j + 1 } := by
  have hp : p.drop x.j = '*' :: p.drop (x.j + 1) := by
    rw [getElem?_eq_getElem hj] at hc
    rw [drop_eq_getElem_cons hj, some.inj hc]
  refine ⟨h.i_le, hj, .inr ⟨x.i, x.j, rfl, rfl, le_refl _, lt_succ_self _, ⟨[], [], .nil, hp, rfl⟩, ?_⟩⟩
  rcases h.stars with hno | ⟨a, b, hstar⟩
  · exact hno.iff
  · exact hstar.switch hp

theorem AtStar.retry (h : AtStar s p x a b) (hi : x.i < s.length) (hj : x.j ≤ p.length)
    (hne : s.drop x.i ∉ language (p.drop x.j)) : Invariant s p ⟨a + 1, b + 1, a + 1, b⟩ := by
  have hle := h.le_i
  have hlt := h.lt_j
  refine ⟨by simp only; omega, by simp only; omega, .inr ⟨a + 1, b, by simp, rfl, le_refl _, lt_succ_self _, ?_, h.advance hne⟩⟩
  obtain ⟨q, w, -, hb, -⟩ := h.fits
  refine ⟨[], [], .nil, ?_, rfl⟩
  have hlen : b < p.length := by omega
  have hd := drop_eq_getElem_cons hlen
  rw [hb] at hd
  rw [hb]
  exact congrArg _ (cons.inj hd).2

theorem skip_stars_iff (hj : j ≤ p.length) : Text.skip (· == '*') p j = p.length ↔ [] ∈ language (p.drop j) := by
  have hlen : (p.drop j).length = p.length - j := length_drop
  have hself : ((p.drop j).takeWhile (· == '*')).length = (p.drop j).length ↔ (p.drop j).takeWhile (· == '*') = p.drop j :=
    ⟨fun h => ( takeWhile_prefix _).eq_of_length h, fun h => by rw [h]⟩
  rw [nil_mem_language]
  unfold Text.skip
  constructor
  · grind [mem_takeWhile_imp]
  · intro h
    have hall : (p.drop j).takeWhile (· == '*') = p.drop j := by
      rw [takeWhile_eq_self_iff]
      intro c hc
      simp [h c hc]
    rw [hall]
    omega

/-- The order in which the rounds go down: a later star, or the same star with more text, or both pointers further on. -/
def Smaller (s p : Text) (x' x : Pointers) : Prop :=
  Prod.Lex (· < ·) (Prod.Lex (· < ·) (· < ·))
    ((p.length - x'.jStar).toNat, (s.length - x'.iStar).toNat, s.length - x'.i)
    ((p.length - x.jStar).toNat, (s.length - x.iStar).toNat, s.length - x.i)

theorem smaller_wf (s p : Text) : WellFounded (Smaller s p) :=
  InvImage.wf (fun x : Pointers => ((p.length - x.jStar).toNat, (s.length - x.iStar).toNat, s.length - x.i))
    (WellFounded.prod_lex lt_wfRel.wf (WellFounded.prod_lex lt_wfRel.wf lt_wfRel.wf))

theorem Invariant.round (h : Invariant s p x) (hs : '*' ∉ s) :
    (∃ r, greedyRound s p x = some (.stop r) ∧ (r = true ↔ s ∈ language p)) ∨
      ∃ x', greedyRound s p x = some (.again x') ∧ Invariant s p x' ∧ Smaller s p x' x := by
  unfold greedyRound
  by_cases hi : x.i < s.length
  · rw [if_pos hi]
    by_cases hfit : x.j < p.length ∧ (s[x.i]? = p[x.j]? ∨ p[x.j]? = some '?')
    · rw [if_pos hfit]
      obtain ⟨hj, hfit⟩ := hfit
      rw [getElem?_eq_getElem hi, getElem?_eq_getElem hj, some_inj, some_inj] at hfit
      have hc : p[x.j] ≠ '*' := by grind
      refine .inr ⟨_, rfl, h.fit hi hj ⟨hc, hfit⟩, ?_⟩
      exact Prod.Lex.right _ (Prod.Lex.right _ (by simp only; omega))
    · rw [if_neg hfit]
      by_cases hstar : x.j < p.length ∧ p[x.j]? = some '*'
      · rw [if_pos hstar]
        refine .inr ⟨_, rfl, h.star hstar.1 hstar.2, Prod.Lex.left _ _ ?_⟩
        rcases h.stars with hno | ⟨a, b, hat⟩
        · rw [hno.jStar]
          simp only
          omega
        · have hlt := hat.lt_j
          rw [hat.jStar]
          simp only
          omega
      · rw [if_neg hstar]
        have hne := not_mem_of_mismatch hi hfit hstar
        rcases h.stars with hno | ⟨a, b, hat⟩
        · -- no star to go back to
          rw [if_neg (by rw [hno.iStar]; decide)]
          exact .inl ⟨false, rfl, by simp [hno.iff, hne]⟩
        · have hle := hat.le_i
          rw [hat.iStar, hat.jStar]
          refine .inr ⟨_, rfl, hat.retry hi h.j_le hne, ?_⟩
          unfold Smaller
          rw [hat.iStar, hat.jStar]
          exact Prod.Lex.right _ (Prod.Lex.left _ _ (by simp only; omega))
  · rw [if_neg hi]
    refine .inl ⟨_, rfl, ?_⟩
    rw [decide_eq_true_iff, skip_stars_iff h.j_le]
    rcases h.stars with hno | ⟨a, b, hstar⟩
    · rw [hno.iff, drop_eq_nil_of_le (Nat.le_of_not_lt hi)]
    · exact (hstar.finish (Nat.le_of_not_lt hi)).symm

/-- The matcher with two pointers returns, and it accepts the texts of the pattern's language. -/
theorem isMatchGreedy_iff (p : Text) (hs : '*' ∉ s) : ∃ n r, isMatchGreedy s p n = some r ∧ (r = true ↔ s ∈ language p) := by
  have hst : Invariant s p ⟨0, 0, -1, -1⟩ := ⟨zero_le _, zero_le _, .inl ⟨rfl, rfl, by simp⟩⟩
  obtain ⟨r, ⟨n, hn⟩, hr⟩ := Returns.of_invariant (smaller_wf s p) (fun x hx => Invariant.round hx hs) hst
  exact ⟨n, r, hn, hr⟩

/-- Both matchers accept exactly the texts of the pattern's language, if the text holds no star, as one of letters does not. -/
theorem matchers_agree (s p : Text) (hs : '*' ∉ s) :
    (∃ n, isMatchGreedy s p n = some (isMatchTable s p)) ∧ (isMatchTable s p = true ↔ s ∈ language p) := by
  obtain ⟨n, r, hn, hr⟩ := isMatchGreedy_iff p hs
  have htable := isMatchTable_iff s p
  refine ⟨⟨n, ?_⟩, htable⟩
  rw [hn, Bool.eq_iff_iff.mpr (hr.trans htable.symm)]

/-- The fifth example of the problem's statement. -/
theorem matchers_agree_example : '*' ∉ "acdcb".toList ∧ isMatchTable "acdcb".toList "a*c?b".toList = false ∧
    ∃ n, isMatchGreedy "acdcb".toList "a*c?b".toList n = some (isMatchTable "acdcb".toList "a*c?b".toList) :=
  ⟨by decide, by decide, (matchers_agree "acdcb".toList "a*c?b".toList (by decide)).1⟩

end CsLearning.LeetCode.WildcardMatching
