import Mathlib

/-!
# Lists of digits

Digits are listed from the lowest one on, as `Nat.ofDigits` reads them, and `Denotes b l v` says that the digits of `l` are below the base and stand
for `v`. A list without a zero at its end is the numeral of its number, read backwards; a bound for the length tells when there is no such zero.
-/

open List Nat

namespace CsLearning

open Nat (ofDigits)

variable {b v w n : Nat} {l l' : List Nat}

/-- The digits of `l` stand for `v`. -/
structure Denotes (b : Nat) (l : List Nat) (v : Nat) : Prop where
  lt : ∀ d ∈ l, d < b
  value : ofDigits b l = v

namespace Denotes

theorem nil (b : Nat) : Denotes b [] 0 := ⟨fun _ hd => absurd hd not_mem_nil, rfl⟩

theorem cons {d : Nat} (hd : d < b) (h : Denotes b l v) : Denotes b (d :: l) (d + b * v) := by
  refine ⟨fun e he => ?_, by rw [ofDigits_cons, h.value]⟩
  rcases mem_cons.mp he with rfl | he
  · exact hd
  · exact h.lt e he

theorem append (h : Denotes b l v) (h' : Denotes b l' w) : Denotes b (l ++ l') (v + b ^ l.length * w) := by
  refine ⟨fun e he => ?_, by rw [ofDigits_append, h.value, h'.value]⟩
  rcases mem_append.mp he with he | he
  · exact h.lt e he
  · exact h'.lt e he

theorem lt_pow (h : Denotes b l v) (hb : 1 < b) : v < b ^ l.length := by
  rw [← h.value]
  exact ofDigits_lt_base_pow_length hb h.lt

end Denotes

/-- At most `n` digits, or one more that is not zero. -/
def Fits (b n : Nat) (l : List Nat) : Prop := l.length ≤ n ∨ l.length = n + 1 ∧ b ^ n ≤ ofDigits b l

theorem Fits.length_le (h : Fits b n l) : l.length ≤ n + 1 := by
  rcases h with h | ⟨h, -⟩
  · exact h.trans (le_succ n)
  · exact h.le

theorem Fits.mono {m : Nat} (h : Fits b n l) (hnm : n ≤ m) : Fits b m l := by
  rcases hnm.eq_or_lt with rfl | hlt
  · exact h
  · exact Or.inl (h.length_le.trans hlt)

theorem Fits.cons (h : Fits b n l) (d : Nat) : Fits b (n + 1) (d :: l) := by
  rcases h with h | ⟨h, hle⟩
  · exact Or.inl (succ_le_succ h)
  · refine Or.inr ⟨congrArg (· + 1) h, ?_⟩
    rw [pow_succ, mul_comm]
    exact (mul_le_mul_left b hle).trans (le_add_left _ _)

/-- A number that is large enough leaves no place for a zero at the end. -/
theorem Fits.pow_le (h : Fits b n l) (hb : 0 < b) (hn : b ^ (n - 1) ≤ ofDigits b l) : b ^ (l.length - 1) ≤ ofDigits b l := by
  rcases h with h | ⟨h, hle⟩
  · exact (Nat.pow_le_pow_right hb (Nat.sub_le_sub_right h 1)).trans hn
  · rwa [h]

/-! ## Numerals -/

/-- Digits without a zero at the end, from the highest on, are the numeral of their number. -/
theorem toDigits_ofDigits (hb : 1 < b) (hne : l ≠ []) (hlt : ∀ d ∈ l, d < b) (hpow : b ^ (l.length - 1) ≤ ofDigits b l ∨ l.length = 1) :
    Nat.toDigits b (ofDigits b l) = l.reverse.map Nat.digitChar := by
  induction l with
  | nil => exact absurd rfl hne
  | cons d l ih =>
    have hd := hlt d mem_cons_self
    by_cases hnil : l = []
    · rw [hnil, Nat.ofDigits_singleton, Nat.toDigits_of_lt_base hd]
      rfl
    · obtain ⟨e, l, rfl⟩ := exists_cons_of_ne_nil hnil
      rw [Nat.ofDigits_cons] at hpow ⊢
      have hhigh : b ^ l.length ≤ ofDigits b (e :: l) := by
        rcases hpow with hpow | hone
        · rw [length_cons, length_cons, Nat.add_sub_cancel, pow_succ] at hpow
          nlinarith
        · exact absurd hone (by simp)
      have hpos : 0 < ofDigits b (e :: l) := (Nat.pow_pos (Nat.zero_lt_of_lt hb)).trans_le hhigh
      have hr := ih (cons_ne_nil _ _) (fun x hx => hlt x (mem_cons_of_mem d hx)) (Or.inl hhigh)
      rw [Nat.add_comm, ← Nat.toDigits_append_toDigits hb hpos hd, hr, Nat.toDigits_of_lt_base hd, reverse_cons (a := d), map_append]
      rfl

/-- The number of a list of decimal digits, read as a numeral. -/
theorem ofDigitChars_map (h : Denotes 10 l v) : ofDigitChars 10 (l.reverse.map digitChar) 0 = v := by
  rw [← h.value]
  have hlt := h.lt
  clear h
  induction l with
  | nil => rfl
  | cons d l ih =>
    rw [reverse_cons, map_append, ofDigitChars_append, ih fun x hx => hlt x (mem_cons_of_mem d hx), map_singleton,
      ofDigitChars_cons_digitChar_of_lt_ten (hlt d mem_cons_self), ofDigitChars_nil, ofDigits_cons, add_comm]

theorem exists_digitChar {c : Char} (h : c.isDigit) : ∃ d < 10, c = digitChar d := by
  simp only [Char.isDigit, Bool.and_eq_true, decide_eq_true_eq, ge_iff_le] at h
  obtain ⟨hlow, hhigh⟩ : 48 ≤ c.toNat ∧ c.toNat ≤ 57 := h
  have hchar : ∀ d < 10, Char.ofNat (48 + d) = digitChar d := by decide
  refine ⟨c.toNat - 48, by omega, ?_⟩
  rw [← hchar _ (by omega), add_sub_of_le hlow, Char.ofNat_toNat]

theorem exists_digits {s : List Char} (h : ∀ c ∈ s, c.isDigit) : ∃ l v, Denotes 10 l v ∧ s = l.reverse.map digitChar := by
  induction s with
  | nil => exact ⟨[], 0, Denotes.nil 10, rfl⟩
  | cons c s ih =>
    obtain ⟨l, v, hl, rfl⟩ := ih fun x hx => h x (mem_cons_of_mem c hx)
    obtain ⟨d, hd, rfl⟩ := exists_digitChar (h c mem_cons_self)
    refine ⟨l ++ [d], _, hl.append ((Denotes.nil 10).cons hd), ?_⟩
    rw [reverse_append]
    rfl

end CsLearning
