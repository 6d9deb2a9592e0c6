import Mathlib

/-!
# Interleavings

`Interleaves u v w`: the elements of `w` are those of `u` and of `v`, each in their order. The relation is read from the front by its constructors,
and from the back as well, since it can be reversed.
-/

open List Option

namespace CsLearning

variable {α : Type*} {u v w : List α} {a c : α}

inductive Interleaves : List α → List α → List α → Prop
  | nil : Interleaves [] [] []
  | left {a : α} {u v w : List α} : Interleaves u v w → Interleaves (a :: u) v (a :: w)
  | right {a : α} {u v w : List α} : Interleaves u v w → Interleaves u (a :: v) (a :: w)

namespace Interleaves

theorem length_eq (h : Interleaves u v w) : w.length = u.length + v.length := by
  induction h with
  | nil => rfl
  | left _ ih =>
    rw [length_cons, length_cons, ih]
    omega
  | right _ ih =>
    rw [length_cons, length_cons, ih]
    omega

theorem cons_iff : Interleaves u v (c :: w) ↔ (∃ u', u = c :: u' ∧ Interleaves u' v w) ∨ ∃ v', v = c :: v' ∧ Interleaves u v' w := by
  constructor
  · intro h
    cases h with
    | left h => exact Or.inl ⟨_, rfl, h⟩
    | right h => exact Or.inr ⟨_, rfl, h⟩
  · rintro (⟨u', rfl, h⟩ | ⟨v', rfl, h⟩)
    · exact h.left
    · exact h.right

theorem concat_left (h : Interleaves u v w) (a : α) : Interleaves (u ++ [a]) v (w ++ [a]) := by
  induction h with
  | nil => exact nil.left
  | left _ ih => exact ih.left
  | right _ ih => exact ih.right

theorem concat_right (h : Interleaves u v w) (a : α) : Interleaves u (v ++ [a]) (w ++ [a]) := by
  induction h with
  | nil => exact nil.right
  | left _ ih => exact ih.left
  | right _ ih => exact ih.right

theorem reverse (h : Interleaves u v w) : Interleaves u.reverse v.reverse w.reverse := by
  induction h with
  | nil => exact nil
  | left _ ih =>
    rw [reverse_cons, reverse_cons]
    exact ih.concat_left _
  | right _ ih =>
    rw [reverse_cons, reverse_cons]
    exact ih.concat_right _

theorem concat_iff : Interleaves u v (w ++ [c]) ↔ (∃ u', u = u' ++ [c] ∧ Interleaves u' v w) ∨ ∃ v', v = v' ++ [c] ∧ Interleaves u v' w := by
  constructor
  · intro h
    have hrev := h.reverse
    rw [reverse_append, reverse_singleton, singleton_append, cons_iff] at hrev
    rcases hrev with ⟨u', hu, h'⟩ | ⟨v', hv, h'⟩
    · have hb := h'.reverse
      rw [reverse_reverse, reverse_reverse] at hb
      exact Or.inl ⟨u'.reverse, by rw [← reverse_reverse u, hu, reverse_cons], hb⟩
    · have hb := h'.reverse
      rw [reverse_reverse, reverse_reverse] at hb
      exact Or.inr ⟨v'.reverse, by rw [← reverse_reverse v, hv, reverse_cons], hb⟩
  · rintro (⟨u', rfl, h⟩ | ⟨v', rfl, h⟩)
    · exact h.concat_left c
    · exact h.concat_right c

end Interleaves

/-! ## Positions -/

variable {i j k : Nat}

/-- What follows two positions, by the element at the front. -/
theorem interleaves_drop_iff (hc : w[k]? = some c) : Interleaves (u.drop i) (v.drop j) (w.drop k) ↔
      u[i]? = some c ∧ Interleaves (u.drop (i + 1)) (v.drop j) (w.drop (k + 1)) ∨
        v[j]? = some c ∧ Interleaves (u.drop i) (v.drop (j + 1)) (w.drop (k + 1)) := by
  have hfront : ∀ {l : List α} {p : Nat} {l' : List α}, l.drop p = c :: l' ↔ l[p]? = some c ∧ l' = l.drop (p + 1) := by
    intro l p l'
    rw [List.getElem?_eq_some_iff]
    constructor
    · intro h
      have hlt : p < l.length := by
        by_contra hge
        rw [drop_eq_nil_of_le (not_lt.mp hge)] at h
        cases h
      rw [drop_eq_getElem_cons hlt] at h
      exact ⟨⟨hlt, (cons.inj h).1⟩, (cons.inj h).2.symm⟩
    · grind [drop_eq_getElem_cons]
  rw [hfront.mpr ⟨hc, rfl⟩, Interleaves.cons_iff]
  simp only [hfront]
  constructor
  · simp
  · simp

/-- What precedes two positions in both lists, by the last element. -/
theorem interleaves_take_iff (hi : i < u.length) (hj : j < v.length) (hc : w[k]? = some c) :
    Interleaves (u.take (i + 1)) (v.take (j + 1)) (w.take (k + 1)) ↔
      u[i]? = some c ∧ Interleaves (u.take i) (v.take (j + 1)) (w.take k) ∨ v[j]? = some c ∧ Interleaves (u.take (i + 1)) (v.take j) (w.take k) := by
  have hb : ∀ {l l' : List α} {p : Nat}, p < l.length → (l.take (p + 1) = l' ++ [c] ↔ l[p]? = some c ∧ l' = l.take p) := by
    intro l l' p hp
    rw [take_add_one, getElem?_eq_getElem hp, some.injEq]
    constructor
    · intro h
      obtain ⟨ht, hl⟩ := append_inj' h rfl
      exact ⟨(cons.inj hl).1, ht.symm⟩
    · rintro ⟨rfl, rfl⟩
      rfl
  rw [(hb (List.getElem?_eq_some_iff.mp hc).1).mpr ⟨hc, rfl⟩, Interleaves.concat_iff]
  simp only [hb hi, hb hj]
  constructor
  · simp
  · simp

theorem interleaves_nil_right_iff : Interleaves u [] w ↔ w = u := by
  constructor
  · intro h
    induction u generalizing w with
    | nil =>
      cases h
      rfl
    | cons a u ih =>
      cases h with
      | left h => rw [ih h]
  · rintro rfl
    induction w with
    | nil => exact Interleaves.nil
    | cons a w ih => exact ih.left

theorem interleaves_swap : Interleaves u v w ↔ Interleaves v u w := by
  have hone : ∀ {u v w : List α}, Interleaves u v w → Interleaves v u w := by
    intro u v w h
    induction h with
    | nil => exact Interleaves.nil
    | left _ ih => exact ih.right
    | right _ ih => exact ih.left
  exact ⟨hone, hone⟩

theorem interleaves_take_nil_iff (hi : i < u.length) (hc : w[i]? = some c) :
    Interleaves (u.take (i + 1)) [] (w.take (i + 1)) ↔ u[i]? = some c ∧ Interleaves (u.take i) [] (w.take i) := by
  rw [interleaves_nil_right_iff, interleaves_nil_right_iff, take_add_one, take_add_one, hc, getElem?_eq_getElem hi,
    toList_some, toList_some, some.injEq]
  constructor
  · grind [append_inj']
  · rintro ⟨hl, ht⟩
    rw [ht, hl]

end CsLearning
