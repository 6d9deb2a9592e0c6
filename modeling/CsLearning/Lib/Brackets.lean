import Mathlib

/-!
# Balanced brackets

A list is read with one element `o` as the opening bracket. `height o s k` counts the brackets that the first `k` elements open, less the others, and
`Level o s i j` says that the stretch from `i` to `j` ends at the height where it begins and never goes below. For lists of an opening and a closing
bracket these are the stretches with a balanced list in them.
-/

open List

namespace CsLearning

/-- The lists in which the brackets `o` and `c` match. -/
inductive Balanced {α : Type} (o c : α) : List α → Prop where
  | nil : Balanced o c []
  | nest {w : List α} : Balanced o c w → Balanced o c (o :: (w ++ [c]))
  | append {u v : List α} : Balanced o c u → Balanced o c v → Balanced o c (u ++ v)

variable {α : Type} [DecidableEq α] {o c x : α} {s w : List α} {i j k l : Nat}

/-- The height of a list after its first `k` elements. -/
def height (o : α) (s : List α) (k : Nat) : Int := ((s.take k).map fun x => if x = o then 1 else -1).sum

@[simp] theorem height_zero (o : α) (s : List α) : height o s 0 = 0 := rfl

theorem height_add (o : α) (s : List α) (i k : Nat) : height o s (i + k) = height o s i + height o (s.drop i) k := by
  rw [height, height, height, take_add, map_append, sum_append]

theorem height_succ (h : s[k]? = some x) : height o s (k + 1) = height o s k + if x = o then 1 else -1 := by
  rw [height, height, take_add_one, h, Option.toList_some, map_append, sum_append, map_singleton, sum_singleton]

theorem height_open (h : s[k]? = some o) : height o s (k + 1) = height o s k + 1 := by
  rw [height_succ h, if_pos rfl]

theorem height_close (h : s[k]? = some x) (hx : x ≠ o) : height o s (k + 1) = height o s k - 1 := by
  rw [height_succ h, if_neg hx, Int.sub_eq_add_neg]

theorem height_succ_cases (hk : k < s.length) : height o s (k + 1) = height o s k + 1 ∨ height o s (k + 1) = height o s k - 1 := by
  by_cases hx : s[k] = o
  · grind [height_open]
  · exact Or.inr (height_close (getElem?_eq_getElem hk) hx)

theorem height_part (pre post : List α) (hk : k ≤ w.length) :
    height o (pre ++ (w ++ post)) (pre.length + k) = height o (pre ++ (w ++ post)) pre.length + height o w k := by
  rw [height_add, drop_left, height, height, height, take_append_of_le_length hk]

/-! ## Level stretches -/

/-- The stretch from `i` to `j` ends at the height where it begins, and never goes below. -/
structure Level (o : α) (s : List α) (i j : Nat) : Prop where
  le : i ≤ j
  le_length : j ≤ s.length
  eq : height o s i = height o s j
  above : ∀ k, i ≤ k → k ≤ j → height o s i ≤ height o s k

theorem Level.refl (hi : i ≤ s.length) : Level o s i i := by
  refine ⟨le_rfl, hi, rfl, fun k hik hki => ?_⟩
  rw [le_antisymm hik hki]

theorem Level.trans (h : Level o s i j) (h' : Level o s j k) : Level o s i k := by
  refine ⟨h.le.trans h'.le, h'.le_length, h.eq.trans h'.eq, fun m him hmk => ?_⟩
  rcases le_total m j with hm | hm
  · exact h.above m him hm
  · exact h.eq.trans_le (h'.above m hm hmk)

/-- A level stretch with a bracket that opens before and one that closes after it. -/
theorem Level.nest (h : Level o s (i + 1) j) (hi : s[i]? = some o) (hj : s[j]? = some x) (hx : x ≠ o) : Level o s i (j + 1) := by
  have ho := height_open hi
  have hclose := height_close hj hx
  have heq := h.eq
  refine ⟨(Nat.le_succ i).trans (h.le.trans (Nat.le_succ j)), (List.getElem?_eq_some_iff.mp hj).1, by linarith, fun k hik hkj => ?_⟩
  rcases hik.eq_or_lt with rfl | hik
  · exact le_rfl
  · rcases hkj.eq_or_lt with rfl | hkj
    · linarith
    · linarith [h.above k hik (Nat.lt_succ_iff.mp hkj)]

/-- The heights are known up to a constant in a part of a list, and that is all that matters. -/
theorem level_part (pre post : List α) : Level o (pre ++ (w ++ post)) pre.length (pre.length + w.length) ↔ Level o w 0 w.length := by
  constructor
  · intro h
    have heq := h.eq
    rw [height_part pre post le_rfl] at heq
    refine ⟨Nat.zero_le _, le_rfl, by rw [height_zero]; linarith, fun k _ hk => ?_⟩
    have habove := h.above (pre.length + k) (Nat.le_add_right _ _) (Nat.add_le_add_left hk _)
    rw [height_part pre post hk] at habove
    rw [height_zero]
    linarith
  · intro h
    have heq := h.eq
    rw [height_zero] at heq
    refine ⟨Nat.le_add_right _ _, by simp, by rw [height_part pre post le_rfl, ← heq, add_zero], fun k hk hkw => ?_⟩
    obtain ⟨m, rfl⟩ := Nat.exists_eq_add_of_le hk
    have hm := Nat.le_of_add_le_add_left hkw
    have habove := h.above m (Nat.zero_le m) hm
    rw [height_zero] at habove
    rw [height_part pre post hm]
    linarith

/-! ## Balanced lists -/

theorem Balanced.level (hoc : c ≠ o) (h : Balanced o c w) : Level o w 0 w.length := by
  induction h with
  | nil => exact Level.refl le_rfl
  | @nest w _ ih =>
    have hin : Level o (o :: (w ++ [c])) 1 (1 + w.length) := (level_part [o] [c]).mpr ih
    have hclose : (o :: (w ++ [c]))[1 + w.length]? = some c := by grind
    have hout := hin.nest getElem?_cons_zero hclose hoc
    rwa [show (o :: (w ++ [c])).length = 1 + w.length + 1 by simp [Nat.add_comm]]
  | @append u v _ _ ihu ihv =>
    have hu : Level o (u ++ v) 0 u.length := by simpa using (level_part [] v).mpr ihu
    have hv : Level o (u ++ v) u.length (u.length + v.length) := by simpa using (level_part u []).mpr ihv
    rw [length_append]
    exact hu.trans hv

theorem Level.exists_return (h : Level o s 0 s.length) (hne : s ≠ []) :
    ∃ m, m < s.length ∧ height o s (m + 1) = 0 ∧ ∀ k, 0 < k → k ≤ m → 0 < height o s k := by
  have hex : ∃ m, m < s.length ∧ height o s (m + 1) = 0 := by
    obtain ⟨m, hm⟩ := Nat.exists_eq_succ_of_ne_zero (length_pos_iff.mpr hne).ne'
    exact ⟨m, hm ▸ Nat.lt_succ_self m, by rw [← Nat.succ_eq_add_one, ← hm, ← h.eq, height_zero]⟩
  refine ⟨Nat.find hex, (Nat.find_spec hex).1, (Nat.find_spec hex).2, fun k hk hkm => ?_⟩
  obtain ⟨k, rfl⟩ := Nat.exists_eq_succ_of_ne_zero hk.ne'
  have hlt : k < s.length := (Nat.lt_of_succ_le hkm).trans (Nat.find_spec hex).1
  have hne : height o s (k + 1) ≠ 0 := fun h0 => Nat.find_min hex (Nat.lt_of_succ_le hkm) ⟨hlt, h0⟩
  have habove := h.above (k + 1) (Nat.zero_le _) hlt
  exact lt_of_le_of_ne habove hne.symm

/-- A level list that is not empty begins with a bracket, what is between it and the one that closes it is level, and so is what comes after. -/
theorem Level.split (h : Level o s 0 s.length) (hne : s ≠ []) :
    ∃ u x v, s = o :: (u ++ x :: v) ∧ x ≠ o ∧ Level o u 0 u.length ∧ Level o v 0 v.length := by
  obtain ⟨m, hm, h0, hpos⟩ := h.exists_return hne
  obtain ⟨a, t, rfl⟩ := exists_cons_of_ne_nil hne
  obtain rfl : a = o := by
    by_contra ha
    have hone := height_close (o := o) (getElem?_cons_zero (l := t)) ha
    have habove := h.above 1 (Nat.zero_le 1) (by simp)
    linarith
  have hone := height_open (getElem?_cons_zero (a := a) (l := t))
  rw [height_zero] at hone
  obtain ⟨n, rfl⟩ : ∃ n, m = n + 1 := by
    refine Nat.exists_eq_succ_of_ne_zero ?_
    rintro rfl
    rw [hone] at h0
    exact one_ne_zero h0
  have hn : n < t.length := Nat.lt_of_succ_lt_succ hm
  have hget : (a :: t)[n + 1]? = some t[n] := by rw [getElem?_cons_succ, getElem?_eq_getElem hn]
  have hlow := hpos (n + 1) (Nat.succ_pos n) le_rfl
  have hx : t[n] ≠ a := by grind [height_open]
  have hclose := height_close hget hx
  refine ⟨t.take n, t[n], t.drop (n + 1), ?_, hx, ?_, ?_⟩
  · rw [← drop_eq_getElem_cons hn, take_append_drop]
  · have hin : Level a (a :: t) 1 (1 + n) := by
      refine ⟨Nat.le_add_right 1 n, by rw [length_cons]; omega, ?_, fun k hk hkn => ?_⟩
      · rw [Nat.add_comm 1 n]
        linarith
      · have hk := hpos k hk (by omega)
        linarith
    have hlen : (t.take n).length = n := length_take_of_le hn.le
    have hpart := level_part (w := t.take n) (o := a) [a] (t.drop n)
    rw [take_append_drop, hlen] at hpart
    rw [hlen]
    exact hpart.mp hin
  · have hend := h.eq
    have hafter : Level a (a :: t) (n + 2) (n + 2 + (t.drop (n + 1)).length) := by
      have hlen : n + 2 + (t.drop (n + 1)).length = (a :: t).length := by rw [length_drop, length_cons]; omega
      rw [hlen]
      refine ⟨by omega, le_rfl, h0.trans hend, fun k _ hk => ?_⟩
      have habove := h.above k (Nat.zero_le k) hk
      exact h0.trans_le habove
    have hpart := level_part (w := t.drop (n + 1)) (o := a) (a :: t.take (n + 1)) []
    rw [append_nil, cons_append, take_append_drop, length_cons, length_take_of_le hn] at hpart
    exact hpart.mp hafter

/-- A level list of opening and closing brackets is balanced. -/
theorem Level.balanced (h : Level o w 0 w.length) (hw : ∀ x ∈ w, x = o ∨ x = c) : Balanced o c w := by
  induction hn : w.length using Nat.strong_induction_on generalizing w with
  | _ n ih =>
    by_cases hne : w = []
    · rw [hne]
      exact Balanced.nil
    · obtain ⟨u, x, v, rfl, hx, hu, hv⟩ := h.split hne
      obtain rfl : x = c := (hw x (by simp)).resolve_left hx
      simp only [length_cons, length_append] at hn
      have hu' := ih u.length (by omega) hu (fun y hy => hw y (by simp [hy])) rfl
      have hv' := ih v.length (by omega) hv (fun y hy => hw y (by simp [hy])) rfl
      simpa using hu'.nest.append hv'

/-- The lengths of the balanced parts of a list of brackets are the lengths of its level stretches. -/
theorem exists_balanced_iff (hoc : c ≠ o) (hs : ∀ x ∈ s, x = o ∨ x = c) (n : Nat) :
    (∃ w, w <:+: s ∧ Balanced o c w ∧ w.length = n) ↔ ∃ i, Level o s i (i + n) := by
  constructor
  · rintro ⟨w, ⟨pre, post, rfl⟩, hw, rfl⟩
    rw [append_assoc]
    exact ⟨pre.length, (level_part pre post).mpr (hw.level hoc)⟩
  · rintro ⟨i, h⟩
    have hsp : s.take i ++ ((s.drop i).take n ++ s.drop (i + n)) = s := by
      rw [← drop_drop, take_append_drop, take_append_drop]
    have hi : (s.take i).length = i := length_take_of_le (h.le.trans h.le_length)
    have hn : ((s.drop i).take n).length = n := by
      have hlen := h.le_length
      rw [length_take, length_drop]
      omega
    have hpart := level_part (w := (s.drop i).take n) (o := o) (s.take i) (s.drop (i + n))
    rw [hsp, hi] at hpart
    refine ⟨(s.drop i).take n, ⟨s.take i, s.drop (i + n), by rw [append_assoc, hsp]⟩, ?_, hn⟩
    refine (hpart.mp ?_).balanced fun x hx => hs x (mem_of_mem_drop (mem_of_mem_take hx))
    rw [hn]
    exact h

/-! ## The longest stretch -/

/-- The last place before `i` that is lower is lower by one. -/
theorem exists_last_below (hi : i ≤ s.length) (hki : k < i) (hk : height o s k < height o s i) :
    ∃ m < i, height o s m = height o s i - 1 ∧ ∀ n, m < n → n ≤ i → height o s i ≤ height o s n := by
  have hlow : height o s (Nat.findGreatest (fun m => height o s m < height o s i) i) < height o s i :=
    Nat.findGreatest_spec (P := fun m => height o s m < height o s i) hki.le hk
  have hle := Nat.findGreatest_le (P := fun m => height o s m < height o s i) i
  have hhigh : ∀ n, Nat.findGreatest (fun m => height o s m < height o s i) i < n → n ≤ i → height o s i ≤ height o s n :=
    fun n hn hni => not_lt.mp (Nat.findGreatest_is_greatest hn hni)
  generalize Nat.findGreatest (fun m => height o s m < height o s i) i = m at hlow hle hhigh
  have hmi : m < i := by grind
  refine ⟨m, hmi, ?_, hhigh⟩
  have hnext := hhigh (m + 1) (Nat.lt_succ_self m) hmi
  rcases height_succ_cases (o := o) (hmi.trans_le hi) with hs | hs
  · linarith
  · linarith

/-- The first place after `j` that is lower is lower by one. -/
theorem exists_first_below (hl : l ≤ s.length) (hjl : j < l) (hlow : height o s l < height o s j) :
    ∃ m, j < m ∧ m ≤ s.length ∧ height o s m = height o s j - 1 ∧ ∀ n, j ≤ n → n < m → height o s j ≤ height o s n := by
  have hex : ∃ m, j ≤ m ∧ height o s (m + 1) < height o s j := by
    obtain ⟨m, rfl⟩ := Nat.exists_eq_succ_of_ne_zero (Nat.zero_lt_of_lt hjl).ne'
    exact ⟨m, Nat.lt_succ_iff.mp hjl, hlow⟩
  obtain ⟨hjm, hbelow⟩ := Nat.find_spec hex
  have hml : Nat.find hex < s.length := by
    obtain ⟨m, rfl⟩ := Nat.exists_eq_succ_of_ne_zero (Nat.zero_lt_of_lt hjl).ne'
    exact (Nat.find_min' hex ⟨Nat.lt_succ_iff.mp hjl, hlow⟩).trans_lt hl
  have hhigh : ∀ n, j ≤ n → n < Nat.find hex + 1 → height o s j ≤ height o s n := by
    intro n hjn hn
    rcases hjn.eq_or_lt with rfl | hjn
    · exact le_rfl
    · obtain ⟨n, rfl⟩ := Nat.exists_eq_succ_of_ne_zero (Nat.zero_lt_of_lt hjn).ne'
      exact not_lt.mp fun hlow => Nat.find_min hex (Nat.lt_of_succ_lt_succ hn) ⟨Nat.lt_succ_iff.mp hjn, hlow⟩
  refine ⟨Nat.find hex + 1, Nat.lt_succ_of_le hjm, hml, ?_, hhigh⟩
  have hbef := hhigh (Nat.find hex) hjm (Nat.lt_succ_self _)
  rcases height_succ_cases (o := o) hml with hs | hs
  · linarith
  · linarith

/-- Where the height is below that of a level stretch on both sides of it, the stretch is part of a longer one. -/
theorem Level.extend (h : Level o s i j) (hki : k < i) (hk : height o s k < height o s i) (hl : l ≤ s.length) (hjl : j < l)
    (hlow : height o s l < height o s j) : ∃ i' j', i' < i ∧ j < j' ∧ Level o s i' j' := by
  obtain ⟨i', hi', hheight, hleft⟩ := exists_last_below (h.le.trans h.le_length) hki hk
  obtain ⟨j', hj', hlen, hheight', hr⟩ := exists_first_below hl hjl hlow
  have heq := h.eq
  refine ⟨i', j', hi', hj', (hi'.le.trans h.le).trans hj'.le, hlen, by linarith, fun m hm hm' => ?_⟩
  rcases hm.eq_or_lt with rfl | hm
  · exact le_rfl
  · rcases hm'.eq_or_lt with rfl | hm'
    · linarith
    · -- between the two places nothing is lower than the stretch
      have habove : height o s i ≤ height o s m := by
        rcases le_total m i with hmi | him
        · exact hleft m hm hmi
        · rcases le_total m j with hmj | hjm
          · exact h.above m him hmj
          · exact heq.trans_le (hr m hjm hm')
      linarith

/-- When a number bounds the level stretches that end lower than everything before, and those that begin lower than everything after, it bounds all of
them: a longest one is of one of the two kinds. -/
theorem Level.length_le {b : Nat} (hend : ∀ i j, Level o s i j → (∀ k ≤ j, height o s j ≤ height o s k) → j - i ≤ b)
    (hbegin : ∀ i j, Level o s i j → (∀ k, i ≤ k → k ≤ s.length → height o s i ≤ height o s k) → j - i ≤ b) (h : Level o s i j) : j - i ≤ b := by
  -- by induction on what the stretch leaves of the list
  induction hn : s.length - (j - i) using Nat.strong_induction_on generalizing i j with
  | _ n ih =>
    by_cases hleft : ∀ k ≤ j, height o s j ≤ height o s k
    · exact hend i j h hleft
    by_cases hr : ∀ k, i ≤ k → k ≤ s.length → height o s i ≤ height o s k
    · exact hbegin i j h hr
    push Not at hleft hr
    obtain ⟨k, hkj, hk⟩ := hleft
    obtain ⟨l, hil, hl, hlow⟩ := hr
    have hki : k < i := not_le.mp fun hik => absurd (h.above k hik hkj) (not_le.mpr (hk.trans_eq h.eq.symm))
    have hjl : j < l := not_le.mp fun hlj => absurd (h.above l hil hlj) (not_le.mpr hlow)
    obtain ⟨i', j', hi', hj', h'⟩ := h.extend hki (hk.trans_eq h.eq.symm) hl hjl (hlow.trans_eq h.eq)
    have hle := h.le
    have hlen := h'.le_length
    have hlonger := ih (s.length - (j' - i')) (by omega) h' rfl
    omega

/-! ## Reading from the end -/

/-- The list read from its end, with the brackets exchanged. -/
def mirrored (o c : α) (s : List α) : List α := (s.map fun x => if x = o then c else o).reverse

theorem length_mirrored (o c : α) (s : List α) : (mirrored o c s).length = s.length := by
  rw [mirrored, length_reverse, length_map]

theorem height_mirrored (hoc : c ≠ o) (hk : k ≤ s.length) : height o (mirrored o c s) k = height o s (s.length - k) - height o s s.length := by
  have hrise : ∀ x : α, (if (if x = o then c else o) = o then (1 : Int) else -1) = -(if x = o then 1 else -1) := by grind
  have hl : height o (mirrored o c s) k = -height o (s.drop (s.length - k)) k := by
    have hd : (s.drop (s.length - k)).length ≤ k := by rw [length_drop]; omega
    rw [height, height, mirrored, take_reverse, map_reverse, sum_reverse, length_map, ← map_drop, map_map, take_of_length_le hd, sum_neg, map_map]
    exact congrArg List.sum (map_congr_left fun x _ => hrise x)
  have hsum := height_add o s (s.length - k) k
  rw [Nat.sub_add_cancel hk] at hsum
  linarith

/-- A level stretch of a list is one of every list that has the same heights from its end, up to a constant. -/
theorem Level.reflect {t : List α} (d : Int) (hlen : t.length = s.length) (hheight : ∀ k ≤ s.length, height o t k = height o s (s.length - k) + d)
    (h : Level o s i j) : Level o t (s.length - j) (s.length - i) := by
  have hij := h.le
  have hj := h.le_length
  refine ⟨Nat.sub_le_sub_left hij _, hlen.symm ▸ Nat.sub_le _ _, ?_, fun k hk hk' => ?_⟩
  · rw [hheight _ (Nat.sub_le _ _), hheight _ (Nat.sub_le _ _), Nat.sub_sub_self hj, Nat.sub_sub_self (hij.trans hj), h.eq]
  · rw [hheight _ (Nat.sub_le _ _), hheight k (hk'.trans (Nat.sub_le _ _)), Nat.sub_sub_self hj, ← h.eq]
    have habove := h.above (s.length - k) (by omega) (by omega)
    linarith

theorem Level.mirror (hoc : c ≠ o) (h : Level o s i j) : Level o (mirrored o c s) (s.length - j) (s.length - i) :=
  h.reflect (-height o s s.length) (length_mirrored o c s) fun _ hk => height_mirrored hoc hk

theorem Level.of_mirror (hoc : c ≠ o) (h : Level o (mirrored o c s) i j) : Level o s (s.length - j) (s.length - i) := by
  have hlen := length_mirrored o c s
  have hheight : ∀ k ≤ (mirrored o c s).length, height o s k = height o (mirrored o c s) ((mirrored o c s).length - k) + height o s s.length := by
    intro k hk
    rw [hlen] at hk ⊢
    rw [height_mirrored hoc (Nat.sub_le _ _), Nat.sub_sub_self hk]
    ring
  have hreflect := h.reflect _ hlen.symm hheight
  rwa [hlen] at hreflect

end CsLearning
