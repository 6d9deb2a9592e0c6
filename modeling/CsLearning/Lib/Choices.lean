import Mathlib

/-!
# Choosing elements of a sorted list

A choice of elements at increasing positions is a sublist. `Lists P R` says that `R` lists all that have the property, each of them once. The choices
from a sorted list are listed head by head, where a value that was the head before is passed over (`Heads`), and the choices of two elements by two
positions that move towards each other (`Pairs`): elements are dropped at either end that are in no pair that is wanted.
-/

open List Option Nat

namespace CsLearning

/-- A list of all that have the property, each once. -/
structure Lists {β : Type*} (P : β → Prop) (R : List β) : Prop where
  nodup : R.Nodup
  mem_iff : ∀ t, t ∈ R ↔ P t

theorem Lists.congr {β : Type*} {P Q : β → Prop} {R : List β} (h : Lists P R) (hPQ : ∀ t, P t ↔ Q t) : Lists Q R :=
  ⟨h.nodup, fun t => (h.mem_iff t).trans (hPQ t)⟩

theorem Lists.iff {β : Type*} {P Q : β → Prop} {R : List β} (h : Lists P R) (h' : Lists Q R) (t : β) : P t ↔ Q t :=
  (h.mem_iff t).symm.trans (h'.mem_iff t)

variable {α : Type*}

variable {a : α} {s t : List α}

theorem Lists.cons_or {P Q : List α → Prop} {T R : List (List α)} (hT : Lists P T) (hR : Lists Q R) (hQ : ∀ u, ¬Q (a :: u)) :
    Lists (fun x => (∃ u, x = a :: u ∧ P u) ∨ Q x) (T.map (a :: ·) ++ R) := by
  constructor
  · rw [nodup_append]
    refine ⟨hT.nodup.map fun u v huv => (cons.inj huv).2, hR.nodup, ?_⟩
    intro x hx y hy heq
    obtain ⟨u, -, hu⟩ := List.mem_map.1 hx
    rw [← heq, ← hu] at hy
    exact hQ u ((hR.mem_iff _).1 hy)
  · intro x
    rw [mem_append, hR.mem_iff, List.mem_map]
    refine or_congr_left ?_
    constructor
    · intro hx
      obtain ⟨u, hu, heq⟩ := hx
      exact ⟨u, heq.symm, (hT.mem_iff u).1 hu⟩
    · intro hx
      obtain ⟨u, heq, hu⟩ := hx
      exact ⟨u, (hT.mem_iff u).2 hu, heq.symm⟩

/-! ## Sublists by positions -/

theorem cons_sublist_drop_iff {d : Nat} : List.Sublist (a :: t) (s.drop d) ↔ ∃ i, d ≤ i ∧ s[i]? = some a ∧ List.Sublist t (s.drop (i + 1)) := by
  constructor
  · intro h
    induction hn : s.length - d generalizing d with
    | zero =>
      rw [drop_eq_nil_of_le (by omega)] at h
      cases h
    | succ n ih =>
      have hd : d < s.length := by omega
      rw [drop_eq_getElem_cons hd] at h
      cases h with
      | cons _ h => grind
      | cons_cons _ h => exact ⟨d, le_rfl, getElem?_eq_getElem hd, h⟩
  · rintro ⟨i, hi, ha, ht⟩
    obtain ⟨hlt, rfl⟩ := List.getElem?_eq_some_iff.mp ha
    have hdrop : List.Sublist (s.drop i) (s.drop d) := drop_sublist_drop_left s hi
    rw [drop_eq_getElem_cons hlt] at hdrop
    exact (ht.cons_cons _).trans hdrop

/-- After the first place of its head a choice has the most left to choose from. -/
theorem cons_sublist_drop_iff_of_first {d i : Nat} (hi : d ≤ i) (ha : s[i]? = some a)
    (hfst : ∀ p, d ≤ p → p < i → s[p]? ≠ some a) : List.Sublist (a :: t) (s.drop d) ↔ List.Sublist t (s.drop (i + 1)) := by
  rw [cons_sublist_drop_iff]
  constructor
  · rintro ⟨p, hp, hpa, ht⟩
    have hip : i ≤ p := by
      by_contra hlt
      exact hfst p hp (not_le.mp hlt) hpa
    exact ht.trans (drop_sublist_drop_left s (by omega))
  · intro ht
    exact ⟨i, hi, ha, ht⟩

theorem add_length_lt {s u : List α} {p : Nat} (ha : s[p]? = some a) (hu : List.Sublist u (s.drop (p + 1))) : p + u.length < s.length := by
  grind

theorem le_of_getElem? [LinearOrder α] (hs : s.Pairwise (· ≤ ·)) {i j : Nat} {a b : α} (hij : i ≤ j) (ha : s[i]? = some a)
    (hb : s[j]? = some b) : a ≤ b := by
  obtain ⟨hi, rfl⟩ := List.getElem?_eq_some_iff.mp ha
  obtain ⟨hj, rfl⟩ := List.getElem?_eq_some_iff.mp hb
  rcases eq_or_lt_of_le hij with rfl | hlt
  · exact le_rfl
  · exact pairwise_iff_getElem.mp hs i j hi hj hlt

/-! ## Head by head -/

section Heads

variable {s : List α} {P : List α → Prop} {d i : Nat} {a : α} {R T : List (List α)}

/-- A choice from position `d` on that has the property and whose head is at a position before `i`, too. -/
def Heads (s : List α) (P : List α → Prop) (d i : Nat) (t : List α) : Prop :=
  ∃ a u, t = a :: u ∧ (∃ p, d ≤ p ∧ p < i ∧ s[p]? = some a) ∧ List.Sublist t (s.drop d) ∧ P t

theorem lists_heads_start (s : List α) (P : List α → Prop) (d : Nat) : Lists (Heads s P d d) [] := by
  refine ⟨nodup_nil, fun t => ⟨fun ht => absurd ht not_mem_nil, ?_⟩⟩
  rintro ⟨a, u, rfl, ⟨p, hp, hpd, -⟩, -⟩
  omega

theorem Lists.heads_again (h : Lists (Heads s P d i) R) (hi : d < i) (hs : s[i]? = s[i - 1]?) : Lists (Heads s P d (i + 1)) R := by
  refine h.congr fun t => ?_
  constructor
  · rintro ⟨a, u, rfl, ⟨p, hp, hpi, ha⟩, ht⟩
    exact ⟨a, u, rfl, ⟨p, hp, by omega, ha⟩, ht⟩
  · rintro ⟨a, u, rfl, ⟨p, hp, hpi, ha⟩, ht⟩
    rcases Nat.lt_succ_iff_lt_or_eq.mp hpi with hlt | rfl
    · exact ⟨a, u, rfl, ⟨p, hp, hlt, ha⟩, ht⟩
    · exact ⟨a, u, rfl, ⟨p - 1, by omega, by omega, hs ▸ ha⟩, ht⟩

/-- The value is new: the choices that it heads are added. -/
theorem Lists.heads_new (h : Lists (Heads s P d i) R) (hi : d ≤ i) (ha : s[i]? = some a) (hfst : ∀ p, d ≤ p → p < i → s[p]? ≠ some a)
    (hT : Lists (fun u => List.Sublist u (s.drop (i + 1)) ∧ P (a :: u)) T) : Lists (Heads s P d (i + 1)) (R ++ T.map (a :: ·)) := by
  have hh : ∀ t, t ∈ T.map (a :: ·) ↔ ∃ u, t = a :: u ∧ List.Sublist t (s.drop d) ∧ P t := by
    intro t
    rw [List.mem_map]
    constructor
    · rintro ⟨u, hu, rfl⟩
      obtain ⟨hsub, hP⟩ := (hT.mem_iff u).mp hu
      exact ⟨u, rfl, (cons_sublist_drop_iff_of_first hi ha hfst).mpr hsub, hP⟩
    · rintro ⟨u, rfl, hsub, hP⟩
      exact ⟨u, (hT.mem_iff u).mpr ⟨(cons_sublist_drop_iff_of_first hi ha hfst).mp hsub, hP⟩, rfl⟩
  constructor
  · rw [nodup_append]
    refine ⟨h.nodup, hT.nodup.map fun u v huv => (cons.inj huv).2, ?_⟩
    rintro t ht _ ht' rfl
    obtain ⟨b, u, rfl, ⟨p, hp, hpi, hb⟩, -⟩ := (h.mem_iff t).mp ht
    obtain ⟨v, heq, -⟩ := (hh _).mp ht'
    rw [(cons.inj heq).1] at hb
    exact hfst p hp hpi hb
  · intro t
    rw [mem_append, h.mem_iff, hh]
    constructor
    · rintro (⟨b, u, rfl, ⟨p, hp, hpi, hb⟩, ht⟩ | ⟨u, rfl, ht⟩)
      · exact ⟨b, u, rfl, ⟨p, hp, by omega, hb⟩, ht⟩
      · exact ⟨a, u, rfl, ⟨i, hi, Nat.lt_succ_self i, ha⟩, ht⟩
    · rintro ⟨b, u, rfl, ⟨p, hp, hpi, hb⟩, ht⟩
      rcases Nat.lt_succ_iff_lt_or_eq.mp hpi with hlt | rfl
      · exact Or.inl ⟨b, u, rfl, ⟨p, hp, hlt, hb⟩, ht⟩
      · rw [ha, some.injEq] at hb
        subst hb
        exact Or.inr ⟨u, rfl, ht⟩

/-- No choice with the property has its head from `i` on. -/
theorem Lists.heads_end (h : Lists (Heads s P d i) R) (hnil : ¬ P [])
    (hr : ∀ p a u, i ≤ p → s[p]? = some a → List.Sublist u (s.drop (p + 1)) → ¬ P (a :: u)) :
    Lists (fun t => List.Sublist t (s.drop d) ∧ P t) R := by
  refine h.congr fun t => ⟨fun ⟨a, u, _, _, ht⟩ => ht, fun ⟨ht, hP⟩ => ?_⟩
  cases t with
  | nil => exact absurd hP hnil
  | cons a u =>
    obtain ⟨p, hp, ha, hu⟩ := cons_sublist_drop_iff.mp ht
    refine ⟨a, u, rfl, ⟨p, hp, ?_, ha⟩, ht, hP⟩
    by_contra hge
    exact hr p a u (not_lt.mp hge) ha hu hP

end Heads

/-! ## Pairs between two positions -/

section Pairs

variable {s : List α} {E : α → α → Prop} {left right left' right' : Nat} {x y : α} {R : List (List α)}

/-- Two elements at positions from `left` to `right` that are wanted. -/
def Pairs (s : List α) (E : α → α → Prop) (left right : Nat) (t : List α) : Prop :=
  ∃ x y j k, t = [x, y] ∧ left ≤ j ∧ j < k ∧ k ≤ right ∧ s[j]? = some x ∧ s[k]? = some y ∧ E x y

theorem lists_pairs_nil (h : right ≤ left) : Lists (Pairs s E left right) [] := by
  refine ⟨nodup_nil, fun t => ⟨fun ht => absurd ht not_mem_nil, ?_⟩⟩
  rintro ⟨x, y, j, k, -, hj, hjk, hk, -⟩
  omega

theorem Lists.pairs_drop_right (h : Lists (Pairs s E left (right - 1)) R) (hy : s[right]? = some y)
    (hn : ∀ j x, left ≤ j → j < right → s[j]? = some x → ¬ E x y) : Lists (Pairs s E left right) R := by
  refine h.congr fun t => ⟨?_, ?_⟩
  · rintro ⟨x, y, j, k, rfl, hj, hjk, hk, ht⟩
    exact ⟨x, y, j, k, rfl, hj, hjk, by omega, ht⟩
  · rintro ⟨x, z, j, k, rfl, hj, hjk, hk, hx, hz, hE⟩
    rcases eq_or_lt_of_le hk with rfl | hlt
    · grind
    · exact ⟨x, z, j, k, rfl, hj, hjk, by omega, hx, hz, hE⟩

theorem Lists.pairs_drop_left (h : Lists (Pairs s E (left + 1) right) R) (hx : s[left]? = some x)
    (hn : ∀ k y, left < k → k ≤ right → s[k]? = some y → ¬ E x y) : Lists (Pairs s E left right) R := by
  refine h.congr fun t => ⟨?_, ?_⟩
  · rintro ⟨x, y, j, k, rfl, hj, ht⟩
    exact ⟨x, y, j, k, rfl, by omega, ht⟩
  · rintro ⟨z, y, j, k, rfl, hj, hjk, hk, hz, hy, hE⟩
    rcases eq_or_lt_of_le hj with rfl | hlt
    · grind
    · exact ⟨z, y, j, k, rfl, hlt, hjk, hk, hz, hy, hE⟩

/-- A wanted pair at the ends: it is listed, and the ends go on past the elements that are equal to them. -/
theorem Lists.pairs_match [LinearOrder α] (hs : s.Pairwise (· ≤ ·)) (h : Lists (Pairs s E left' right') R) (hlr : left < right)
    (hx : s[left]? = some x) (hy : s[right]? = some y) (hE : E x y) (hright : ∀ z, E x z → z = y) (hleft : ∀ z, E z y → z = x)
    (hl : left ≤ left') (hr : right' ≤ right) (hsame : ∀ j, left ≤ j → j < left' → s[j]? = some x)
    (hsame' : ∀ k, right' < k → k ≤ right → s[k]? = some y) (hnew : left' < right' → ∀ z, s[left']? = some z → x < z) :
    Lists (Pairs s E left right) ([x, y] :: R) := by
  constructor
  · rw [nodup_cons]
    refine ⟨fun hmem => ?_, h.nodup⟩
    obtain ⟨x', y', j, k, heq, hj, hjk, hk, hx', -⟩ := (h.mem_iff _).mp hmem
    rw [← (cons.inj heq).1] at hx'
    have hlt : left' < s.length := hj.trans_lt (List.getElem?_eq_some_iff.mp hx').1
    have hgt := hnew (by omega) _ (getElem?_eq_getElem hlt)
    exact absurd (le_of_getElem? hs hj (getElem?_eq_getElem hlt) hx') (not_le.mpr hgt)
  · intro t
    rw [mem_cons, h.mem_iff]
    constructor
    · rintro (rfl | ⟨x', y', j, k, rfl, hj, hjk, hk, ht⟩)
      · exact ⟨x, y, left, right, rfl, le_rfl, hlr, le_rfl, hx, hy, hE⟩
      · exact ⟨x', y', j, k, rfl, by omega, hjk, by omega, ht⟩
    · rintro ⟨x', y', j, k, rfl, hj, hjk, hk, hx', hy', hE'⟩
      rcases lt_or_ge j left' with hjl | hjl
      · -- the first element is the one at the left end
        rw [hsame j hj hjl, some.injEq] at hx'
        subst hx'
        exact Or.inl (by rw [hright y' hE'])
      · rcases lt_or_ge right' k with hkr | hkr
        · grind
        · exact Or.inr ⟨x', y', j, k, rfl, hjl, hjk, hkr, hx', hy', hE'⟩

/-- From `left` to the end of the list the pairs are the choices of two elements. -/
theorem pairs_iff_sublist {t : List α} (hr : right + 1 = s.length) :
    Pairs s E left right t ↔ List.Sublist t (s.drop left) ∧ ∃ x y, t = [x, y] ∧ E x y := by
  constructor
  · rintro ⟨x, y, j, k, rfl, hj, hjk, hk, hx, hy, hE⟩
    refine ⟨?_, x, y, rfl, hE⟩
    rw [cons_sublist_drop_iff]
    refine ⟨j, hj, hx, cons_sublist_drop_iff.mpr ⟨k, hjk, hy, nil_sublist _⟩⟩
  · rintro ⟨ht, x, y, rfl, hE⟩
    obtain ⟨j, hj, hx, ht⟩ := cons_sublist_drop_iff.mp ht
    obtain ⟨k, hk, hy, -⟩ := cons_sublist_drop_iff.mp ht
    have hlt := (List.getElem?_eq_some_iff.mp hy).1
    exact ⟨x, y, j, k, rfl, hj, by omega, by omega, hx, hy, hE⟩

end Pairs

end CsLearning
