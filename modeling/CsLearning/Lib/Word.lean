import CsLearning.Lib.Run

/-!
# Machine words

Addition and subtraction of unsigned `w`-bit integers, modulo `2 ^ w`, and when they are those of the natural numbers; the increment
and the sum of signed 32-bit integers, which have no outcome when they overflow; and the conversion to them, which wraps around.
-/

open Nat

namespace CsLearning.Word

/-- Unsigned addition. -/
def add (w a b : Nat) : Nat := (a + b) % 2 ^ w

/-- Unsigned subtraction of a word. -/
def sub (w a b : Nat) : Nat := (a + 2 ^ w - b) % 2 ^ w

variable {w a b c : Nat}

theorem add_of_lt (h : a + b < 2 ^ w) : add w a b = a + b := mod_eq_of_lt h

theorem sub_of_le (hb : b ≤ a) (ha : a < 2 ^ w) : sub w a b = a - b := by
  have e : a + 2 ^ w - b = (a - b) + 2 ^ w := by omega
  rw [sub, e, add_mod_right, mod_eq_of_lt (by omega)]

/-- A sum that may wrap, less a word that brings it back in range. -/
theorem sub_add (hc : c ≤ a + b) (hlt : a + b - c < 2 ^ w) (hcw : c ≤ 2 ^ w) : sub w (add w a b) c = a + b - c := by
  have e : (a + b) % 2 ^ w + 2 ^ w - c = (a + b) % 2 ^ w + (2 ^ w - c) := by omega
  have e' : a + b + (2 ^ w - c) = (a + b - c) + 2 ^ w := by omega
  rw [sub, add, e, mod_add_mod, e', add_mod_right, mod_eq_of_lt hlt]

theorem iterate_add_one (ha : a < 2 ^ w) (m : Nat) : (fun k => add w k 1)^[m] a = add w a m := by
  induction m with
  | zero => exact (add_of_lt (b := 0) ha).symm
  | succ m ih => rw [Function.iterate_succ_apply', ih, add, add, mod_add_mod, add_assoc, ← add]

/-- `i++` on an `int`. -/
def incr (i : Int) : Option Int := if i + 1 < 2 ^ 31 then some (i + 1) else none

theorem incr_of_lt {i : Int} (h : i + 1 < 2 ^ 31) : incr i = some (i + 1) := if_pos h

theorem incr_outcome (i : Int) : Outcome (incr i) (i + 1 < 2 ^ 31) (· = i + 1) := by
  unfold incr
  split
  · exact Outcome.of_eq rfl rfl
  · rename_i h
    exact Outcome.of_none rfl h

/-- `a + b` on `int`s. -/
def addInt (a b : Int) : Option Int := if -2 ^ 31 ≤ a + b ∧ a + b < 2 ^ 31 then some (a + b) else none

section Signed

variable {a b : Int}

theorem addInt_of_fits (h : -2 ^ 31 ≤ a + b) (h' : a + b < 2 ^ 31) : addInt a b = some (a + b) := if_pos ⟨h, h'⟩

theorem addInt_of_large (h : 2 ^ 31 ≤ a + b) : addInt a b = none := if_neg fun hf => absurd hf.2 (not_lt.mpr h)

theorem eq_add_of_addInt {c : Int} (h : addInt a b = some c) : c = a + b ∧ -2 ^ 31 ≤ c ∧ c < 2 ^ 31 := by
  unfold addInt at h
  split at h
  · rename_i hf
    cases h
    exact ⟨rfl, hf⟩
  · cases h

/-- The conversion to `int`. -/
def toInt (v : Int) : Int := (v + 2 ^ 31) % 2 ^ 32 - 2 ^ 31

theorem toInt_of_fits (h : -2 ^ 31 ≤ a) (h' : a < 2 ^ 31) : toInt a = a := by
  unfold toInt
  omega

theorem toInt_sub_one {n : Nat} (h : n ≤ 2 ^ 31) : toInt (sub 64 n 1) = n - 1 := by
  unfold toInt sub
  omega

/-- A size that does not fit gives a negative one. -/
theorem toInt_sub_one_neg {n : Nat} (h : 2 ^ 31 < n) (hmax : n ≤ 2 ^ 32) : toInt (sub 64 n 1) < 0 := by
  unfold toInt sub
  omega

/-- A sum of several terms that wraps at each step wraps once. -/
theorem toInt_toInt_add (a b : Int) : toInt (toInt a + b) = toInt (a + b) := by
  unfold toInt
  omega

theorem shiftRight_one (v : Int) : v >>> (1 : Nat) = v / 2 := by
  rw [Int.shiftRight_eq_div_pow]
  rfl

end Signed

end CsLearning.Word
