import Mathlib

/-!
# Successors

A function that gives the next element of a finite set in a linear order, and the first one after the last, comes to every element once before it is
back. Among the permutations of a list, in lexicographic order, the ascending one is the least and the descending one the greatest, and the next one
is found behind the elements that stay in place.
-/

open List Finset

namespace CsLearning

/-! ## Going round a finite set -/

section Round

variable {α : Type*} [LinearOrder α] {S : Finset α} {f : α → α} {a x : α}

/-- `f` gives the next element of `S`, and the first one after the last. -/
structure GoesRound (S : Finset α) (f : α → α) : Prop where
  next : ∀ x ∈ S, (∃ y ∈ S, x < y) → IsLeast {y | y ∈ S ∧ x < y} (f x)
  wrap : ∀ x ∈ S, (¬∃ y ∈ S, x < y) → IsLeast ↑S (f x)

/-- From the first element, `k` steps lead to the element with the number `k`. -/
theorem GoesRound.iterate (h : GoesRound S f) (ha : IsLeast (↑S) a) (k : Nat) (hk : k < S.card) : f^[k] a = S.orderEmbOfFin rfl ⟨k, hk⟩ := by
  induction k with
  | zero =>
    rw [orderEmbOfFin_zero rfl hk]
    exact ha.unique (S.isLeast_min' _)
  | succ k ih =>
    have hk' : k < S.card := Nat.lt_of_succ_lt hk
    rw [Function.iterate_succ_apply', ih hk']
    have hmem := orderEmbOfFin_mem S rfl
    have hlt : S.orderEmbOfFin rfl ⟨k, hk'⟩ < S.orderEmbOfFin rfl ⟨k + 1, hk⟩ := (OrderEmbedding.lt_iff_lt _).mpr (Nat.lt_succ_self k)
    refine (h.next _ (hmem _) ⟨_, hmem _, hlt⟩).unique ⟨⟨hmem _, hlt⟩, ?_⟩
    rintro y ⟨hy, hky⟩
    obtain ⟨j, rfl⟩ : y ∈ Set.range (S.orderEmbOfFin rfl) := by rwa [range_orderEmbOfFin]
    exact (OrderEmbedding.le_iff_le _).mpr ((OrderEmbedding.lt_iff_lt _).mp hky)

/-- It comes to every element once and is back after as many steps as there are elements. -/
theorem GoesRound.visits (h : GoesRound S f) (ha : IsLeast (↑S) a) : (∀ x ∈ S, ∃! k, k < S.card ∧ f^[k] a = x) ∧ f^[S.card] a = a := by
  constructor
  · intro x hx
    obtain ⟨⟨k, hk⟩, rfl⟩ : x ∈ Set.range (S.orderEmbOfFin rfl) := by rwa [range_orderEmbOfFin]
    refine ⟨k, ⟨hk, h.iterate ha k hk⟩, ?_⟩
    rintro j ⟨hj, hjk⟩
    rw [h.iterate ha j hj] at hjk
    exact congrArg Fin.val ((S.orderEmbOfFin rfl).injective hjk)
  · obtain ⟨n, hn⟩ := Nat.exists_eq_succ_of_ne_zero (card_pos.mpr ⟨a, ha.1⟩).ne'
    have hlt : n < S.card := hn ▸ Nat.lt_succ_self n
    rw [hn, Function.iterate_succ_apply', h.iterate ha n hlt]
    refine (h.wrap _ (orderEmbOfFin_mem S rfl _) ?_).unique ha
    rintro ⟨y, hy, hny⟩
    obtain ⟨⟨j, hj⟩, rfl⟩ : y ∈ Set.range (S.orderEmbOfFin rfl) := by rwa [range_orderEmbOfFin]
    have hnj : (⟨n, hlt⟩ : Fin S.card) < ⟨j, hj⟩ := (OrderEmbedding.lt_iff_lt _).mp hny
    rw [Fin.mk_lt_mk] at hnj
    omega

end Round

/-! ## Permutations in lexicographic order -/

section Permutations

variable {α : Type*} {a p x : α} {xs ys zs lo hi : List α}

/-- A permutation of a list that is not empty has a first element, too. -/
theorem exists_cons_of_perm (h : zs.Perm (a :: xs)) : ∃ b ws, zs = b :: ws ∧ b ∈ a :: xs := by
  cases zs with
  | nil => exact absurd h.length_eq (by simp)
  | cons b ws => exact ⟨b, ws, rfl, h.subset mem_cons_self⟩

variable [LinearOrder α]

/-- The permutations of a list that are greater. -/
def Greater (xs : List α) : Set (List α) := {zs | zs.Perm xs ∧ xs < zs}

theorem ascending_le (hxs : xs.Pairwise (· ≤ ·)) (h : zs.Perm xs) : xs ≤ zs := by
  induction xs generalizing zs with
  | nil => rw [perm_nil.mp h]
  | cons a xs ih =>
    obtain ⟨b, ws, rfl, hb⟩ := exists_cons_of_perm h
    obtain ⟨ha, hr⟩ := pairwise_cons.mp hxs
    have hab : a ≤ b := by grind
    rcases hab.lt_or_eq with hlt | rfl
    · exact le_of_lt (Lex.rel hlt)
    · exact cons_le_cons a (ih hr (perm_cons a |>.mp h))

theorem le_descending (hxs : xs.Pairwise (· ≥ ·)) (h : zs.Perm xs) : zs ≤ xs := by
  induction xs generalizing zs with
  | nil => rw [perm_nil.mp h]
  | cons a xs ih =>
    obtain ⟨b, ws, rfl, hb⟩ := exists_cons_of_perm h
    obtain ⟨ha, hr⟩ := pairwise_cons.mp hxs
    have hba : b ≤ a := by grind
    rcases hba.lt_or_eq with hlt | rfl
    · exact le_of_lt (Lex.rel hlt)
    · exact cons_le_cons b (ih hr (perm_cons b |>.mp h))

theorem greater_descending (hxs : xs.Pairwise (· ≥ ·)) : Greater xs = ∅ := by
  refine Set.eq_empty_of_forall_notMem ?_
  rintro zs ⟨hp, hlt⟩
  exact absurd (le_descending hxs hp) (not_le.mpr hlt)

/-- A list with one more element in front has its successor there, too. -/
theorem greater_cons (h : IsLeast (Greater xs) ys) (a : α) : IsLeast (Greater (a :: xs)) (a :: ys) := by
  obtain ⟨⟨hp, hlt⟩, hle⟩ := h
  refine ⟨⟨hp.cons a, Lex.cons hlt⟩, ?_⟩
  rintro zs ⟨hzs, hlt'⟩
  obtain ⟨b, ws, rfl, -⟩ := exists_cons_of_perm hzs
  rcases cons_lt_cons_iff.mp hlt' with hab | ⟨rfl, hws⟩
  · exact le_of_lt (Lex.rel hab)
  · exact cons_le_cons a (hle ⟨perm_cons a |>.mp hzs, hws⟩)

theorem greater_append (h : IsLeast (Greater xs) ys) (pre : List α) : IsLeast (Greater (pre ++ xs)) (pre ++ ys) := by
  induction pre with
  | nil => exact h
  | cons a pre ih => exact greater_cons ih a

/-- Before a descending rest, the element in front changes for the least greater one of the rest, and the others follow in ascending order. -/
theorem isLeast_greater (hsort : (lo ++ x :: hi).Pairwise (· ≤ ·)) (hlo : ∀ a ∈ lo, a ≤ p) (hx : p < x) :
    IsLeast (Greater (p :: (lo ++ x :: hi).reverse)) (x :: (lo ++ p :: hi)) := by
  have hr : (p :: (lo ++ x :: hi).reverse).Perm (x :: (lo ++ p :: hi)) := by
    have hfront : (p :: (lo ++ x :: hi).reverse).Perm (p :: x :: (lo ++ hi)) := ((reverse_perm _).trans perm_middle).cons p
    have hback : (x :: p :: (lo ++ hi)).Perm (x :: (lo ++ p :: hi)) := perm_middle.symm.cons x
    exact (hfront.trans (Perm.swap x p _)).trans hback
  obtain ⟨hlosorted, hxhi, hlohi⟩ := pairwise_append.mp hsort
  obtain ⟨hxle, hhi⟩ := pairwise_cons.mp hxhi
  have hasc : (lo ++ p :: hi).Pairwise (· ≤ ·) := by
    refine pairwise_append.mpr ⟨hlosorted, pairwise_cons.mpr ⟨fun b hb => hx.le.trans (hxle b hb), hhi⟩, fun a ha b hb => ?_⟩
    rcases mem_cons.mp hb with rfl | hb
    · exact hlo a ha
    · exact hlohi a ha b (mem_cons_of_mem x hb)
  refine ⟨⟨hr.symm, Lex.rel hx⟩, ?_⟩
  rintro zs ⟨hzs, hlt⟩
  obtain ⟨q, ws, rfl, hq⟩ := exists_cons_of_perm hzs
  rcases cons_lt_cons_iff.mp hlt with hpq | ⟨rfl, hws⟩
  · have hxq : x ≤ q := by
      rcases mem_cons.mp hq with rfl | hq
      · exact absurd hpq (lt_irrefl q)
      · grind
    rcases hxq.lt_or_eq with hlt | rfl
    · exact le_of_lt (Lex.rel hlt)
    · grind [cons_le_cons, ascending_le, perm_cons]
  · -- the rest is the greatest permutation of itself
    have hdesc : (lo ++ x :: hi).reverse.Pairwise (· ≥ ·) := pairwise_reverse.mpr hsort
    exact absurd (le_descending hdesc (perm_cons p |>.mp hzs)) (not_le.mpr hws)

end Permutations

end CsLearning
