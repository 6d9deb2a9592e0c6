import Mathlib

/-!
# Edits of lists

An edit inserts, deletes or replaces one element, at any place. `Edits n xs ys` says that `n` edits, one after another, lead from `xs` to `ys`, and
`lev xs ys` is the least number of edits. It is computed from the front of the lists, and tries nothing but going on when the first elements are
equal. That loses nothing: one edit changes `lev` by at most one, wherever it is made.
-/

open List

namespace CsLearning

variable {α : Type*}

/-- One element is inserted, deleted or replaced. -/
inductive Edit : List α → List α → Prop where
  | insert (xs ys : List α) (a : α) : Edit (xs ++ ys) (xs ++ a :: ys)
  | delete (xs ys : List α) (a : α) : Edit (xs ++ a :: ys) (xs ++ ys)
  | replace (xs ys : List α) (a b : α) : Edit (xs ++ a :: ys) (xs ++ b :: ys)

/-- A sequence of `n` edits. -/
inductive Edits : Nat → List α → List α → Prop where
  | refl (xs : List α) : Edits 0 xs xs
  | step {n : Nat} {xs ys zs : List α} : Edit xs ys → Edits n ys zs → Edits (n + 1) xs zs

variable {xs ys zs : List α} {a b x y : α} {m n : Nat}

/-! ## Sequences of edits -/

theorem Edit.cons (h : Edit xs ys) (a : α) : Edit (a :: xs) (a :: ys) := by
  cases h with
  | insert xs ys b => exact .insert (a :: xs) ys b
  | delete xs ys b => exact .delete (a :: xs) ys b
  | replace xs ys b c => exact .replace (a :: xs) ys b c

theorem Edits.cons (h : Edits n xs ys) (a : α) : Edits n (a :: xs) (a :: ys) := by
  induction h with
  | refl xs => exact .refl _
  | step hedit _ ih => exact .step (hedit.cons a) ih

theorem Edit.symm (h : Edit xs ys) : Edit ys xs := by
  cases h with
  | insert xs ys a => exact .delete xs ys a
  | delete xs ys a => exact .insert xs ys a
  | replace xs ys a b => exact .replace xs ys b a

theorem Edits.trans (h : Edits m xs ys) (h' : Edits n ys zs) : Edits (m + n) xs zs := by
  induction h with
  | refl xs => rwa [Nat.zero_add]
  | step hedit _ ih =>
    rw [Nat.succ_add]
    exact .step hedit (ih h')

theorem Edits.symm (h : Edits n xs ys) : Edits n ys xs := by
  induction h with
  | refl xs => exact .refl xs
  | step hedit _ ih => exact ih.trans (.step hedit.symm (.refl _))

theorem Edit.reverse (h : Edit xs ys) : Edit xs.reverse ys.reverse := by
  cases h with
  | insert xs ys a =>
    rw [reverse_append, reverse_append, reverse_cons, append_assoc]
    exact .insert _ _ a
  | delete xs ys a =>
    rw [reverse_append, reverse_append, reverse_cons, append_assoc]
    exact .delete _ _ a
  | replace xs ys a b =>
    rw [reverse_append, reverse_append, reverse_cons, reverse_cons, append_assoc, append_assoc, singleton_append]
    exact .replace _ _ a b

theorem Edits.reverse (h : Edits n xs ys) : Edits n xs.reverse ys.reverse := by
  induction h with
  | refl xs => exact .refl _
  | step hedit _ ih => exact .step hedit.reverse ih

theorem edits_reverse : Edits n xs.reverse ys.reverse ↔ Edits n xs ys := by grind [reverse_reverse, Edits.reverse]

theorem edits_nil_left (ys : List α) : Edits ys.length [] ys := by
  induction ys with
  | nil => exact .refl []
  | cons y ys ih => exact .step (.insert [] [] y) (ih.cons y)

theorem edits_nil_right (xs : List α) : Edits xs.length xs [] := by
  induction xs with
  | nil => exact .refl []
  | cons x xs ih => exact .step (.delete [] xs x) ih

/-! ## The least number of edits -/

variable [DecidableEq α]

/-- The least number of edits, from the front on. -/
def lev : List α → List α → Nat
  | [], ys => ys.length
  | x :: xs, [] => (x :: xs).length
  | x :: xs, y :: ys => if x = y then lev xs ys else min (min (lev xs (y :: ys)) (lev (x :: xs) ys)) (lev xs ys) + 1
termination_by xs ys => xs.length + ys.length

theorem lev_nil_left (ys : List α) : lev [] ys = ys.length := by rw [lev]

theorem lev_nil_right (xs : List α) : lev xs [] = xs.length := by
  cases xs with
  | nil => rw [lev]
  | cons x xs => rw [lev]

theorem lev_cons_self (x : α) (xs ys : List α) : lev (x :: xs) (x :: ys) = lev xs ys := by rw [lev, if_pos rfl]

theorem lev_cons_of_ne (h : x ≠ y) (xs ys : List α) : lev (x :: xs) (y :: ys) = min (min (lev xs (y :: ys)) (lev (x :: xs) ys)) (lev xs ys) + 1 := by
  rw [lev, if_neg h]

theorem lev_self (xs : List α) : lev xs xs = 0 := by
  induction xs with
  | nil => rw [lev_nil_left, length_nil]
  | cons x xs ih => rw [lev_cons_self, ih]

theorem lev_comm (xs ys : List α) : lev xs ys = lev ys xs := by
  induction xs generalizing ys with
  | nil => rw [lev_nil_left, lev_nil_right]
  | cons x xs ihx =>
    induction ys with
    | nil => rw [lev_nil_left, lev_nil_right]
    | cons y ys ihy =>
      by_cases hxy : x = y
      · rw [hxy, lev_cons_self, lev_cons_self, ihx]
      · grind [lev_cons_of_ne, min_comm]

theorem edits_lev (xs ys : List α) : Edits (lev xs ys) xs ys := by
  induction xs generalizing ys with
  | nil =>
    rw [lev_nil_left]
    exact edits_nil_left ys
  | cons x xs ihx =>
    induction ys with
    | nil =>
      rw [lev_nil_right]
      exact edits_nil_right (x :: xs)
    | cons y ys ihy =>
      by_cases hxy : x = y
      · rw [hxy, lev_cons_self]
        exact (ihx ys).cons y
      · rw [lev_cons_of_ne hxy]
        rcases min_choice (min (lev xs (y :: ys)) (lev (x :: xs) ys)) (lev xs ys) with hmin | hmin
        · rw [hmin]
          rcases min_choice (lev xs (y :: ys)) (lev (x :: xs) ys) with hmin | hmin
          · rw [hmin]
            exact .step (.delete [] xs x) (ihx (y :: ys))
          · rw [hmin]
            exact .step (.insert [] (x :: xs) y) (ihy.cons y)
        · rw [hmin]
          exact .step (.replace [] xs x y) ((ihx ys).cons y)

/-- One element more or less at the front, for lists up to some length. -/
theorem lev_cons_bounds (n : Nat) (x : α) (xs ys : List α) (hn : xs.length + ys.length ≤ n) :
    lev (x :: xs) ys ≤ lev xs ys + 1 ∧ lev xs ys ≤ lev (x :: xs) ys + 1 := by
  induction n generalizing x xs ys with
  | zero =>
    obtain rfl : xs = [] := length_eq_zero_iff.mp (by omega)
    obtain rfl : ys = [] := length_eq_zero_iff.mp (by omega)
    rw [lev_nil_right, lev_nil_right]
    simp
  | succ n ih =>
    cases ys with
    | nil => grind [lev_nil_right]
    | cons y ys =>
      rw [length_cons] at hn
      -- the same for the other list
      obtain ⟨hadd, hd⟩ := ih y ys xs (by omega)
      rw [lev_comm (y :: ys), lev_comm ys] at hadd hd
      by_cases hxy : x = y
      · grind [lev_cons_self]
      · have hx := (ih x xs ys (by omega)).2
        rw [lev_cons_of_ne hxy]
        constructor
        · omega
        · omega

theorem lev_cons_le (x : α) (xs ys : List α) : lev (x :: xs) ys ≤ lev xs ys + 1 := (lev_cons_bounds _ x xs ys le_rfl).1

theorem lev_le_cons (x : α) (xs ys : List α) : lev xs ys ≤ lev (x :: xs) ys + 1 := (lev_cons_bounds _ x xs ys le_rfl).2

theorem lev_replace_le (x y : α) (xs zs : List α) : lev (x :: xs) zs ≤ lev (y :: xs) zs + 1 := by
  induction zs with
  | nil =>
    rw [lev_nil_right, lev_nil_right, length_cons]
    exact Nat.le_succ _
  | cons z zs ih =>
    have hy := lev_le_cons y xs zs
    have hz := lev_le_cons z zs xs
    rw [lev_comm zs, lev_comm (z :: zs)] at hz
    by_cases hxz : x = z
    · by_cases hyz : y = z
      · rw [hxz, hyz]
        exact Nat.le_succ _
      · rw [hxz, lev_cons_self, lev_cons_of_ne hyz]
        omega
    · by_cases hyz : y = z
      · rw [hyz, lev_cons_self, lev_cons_of_ne hxz]
        omega
      · rw [lev_cons_of_ne hxz, lev_cons_of_ne hyz]
        omega

/-- What holds at the front holds behind a common element. -/
theorem lev_cons_mono (h : ∀ zs, lev xs zs ≤ lev ys zs + 1) (a : α) (zs : List α) : lev (a :: xs) zs ≤ lev (a :: ys) zs + 1 := by
  induction zs with
  | nil =>
    have hlen := h []
    rw [lev_nil_right, lev_nil_right] at hlen ⊢
    rw [length_cons, length_cons]
    omega
  | cons z zs ih =>
    by_cases haz : a = z
    · rw [haz, lev_cons_self, lev_cons_self]
      exact h zs
    · grind [lev_cons_of_ne]

theorem lev_append_mono (h : ∀ zs, lev xs zs ≤ lev ys zs + 1) (as zs : List α) : lev (as ++ xs) zs ≤ lev (as ++ ys) zs + 1 := by
  induction as generalizing zs with
  | nil => exact h zs
  | cons a as ih => exact lev_cons_mono ih a zs

theorem Edit.lev_le (h : Edit xs ys) (zs : List α) : lev xs zs ≤ lev ys zs + 1 := by
  cases h with
  | insert xs ys a => exact lev_append_mono (lev_le_cons a ys) xs zs
  | delete xs ys a => exact lev_append_mono (lev_cons_le a ys) xs zs
  | replace xs ys a b => exact lev_append_mono (lev_replace_le a b ys) xs zs

/-- Fewer edits are not enough. -/
theorem Edits.lev_le (h : Edits n xs ys) : lev xs ys ≤ n := by
  induction h with
  | refl xs => rw [lev_self]
  | step hedit _ ih => exact (hedit.lev_le _).trans (Nat.add_le_add_right ih 1)

theorem lev_isLeast (xs ys : List α) : IsLeast {n | Edits n xs ys} (lev xs ys) := ⟨edits_lev xs ys, fun _ h => h.lev_le⟩

end CsLearning
