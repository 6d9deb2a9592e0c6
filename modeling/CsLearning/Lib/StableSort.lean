import Mathlib

/-!
# Stable sorting

A list sorted by a key is stable when the elements of each key keep their order: for every key, the output has the same elements with that key as the
input, in the same order. Merging two lists that are sorted so gives a list sorted so, when the first list wins where the keys are equal. For a key
that is compared by a first digit and then by a rest, sorting by the rest and then by the digit sorts by the key, and so does sorting the elements of
each digit by the rest.
-/

open List

namespace CsLearning

variable {T K : Type*} [LinearOrder K] {key : T → K} {xs ys : List T}

/-- `ys` is the list `xs` in ascending order of the keys, where elements with equal keys stay in their order. -/
structure StableSort (key : T → K) (xs ys : List T) : Prop where
  perm : ys.Perm xs
  sorted : ys.Pairwise fun a b => key a ≤ key b
  stable : ∀ k, (ys.filter fun a => key a = k) = xs.filter fun a => key a = k

namespace StableSort

theorem of_length_le_one (h : xs.length ≤ 1) : StableSort key xs xs := by
  refine ⟨List.Perm.refl xs, ?_, fun _ => rfl⟩
  rcases xs with _ | ⟨x, _ | ⟨y, xs⟩⟩
  · exact Pairwise.nil
  · exact pairwise_singleton _ _
  · simp at h

theorem length_eq (h : StableSort key xs ys) : ys.length = xs.length := h.perm.length_eq

section Merge

variable [LE T] [DecidableLE T]

section

variable (hkey : ∀ a b : T, a ≤ b ↔ key a ≤ key b) (hxs : xs.Pairwise fun a b => key a ≤ key b)

include hkey hxs

/-- The elements of one key in a merge: first those of the first list. -/
theorem filter_merge (k : K) :
    ((xs.merge ys).filter fun a => key a = k) = (xs.filter fun a => key a = k) ++ ys.filter fun a => key a = k := by
  induction xs generalizing ys with
  | nil => rw [nil_merge, filter_nil, nil_append]
  | cons x xs ihx =>
    induction ys with
    | nil => rw [merge_right, filter_nil, append_nil]
    | cons y ys ihy =>
      rw [cons_merge_cons]
      by_cases hxy : x ≤ y
      · grind
      · rw [if_neg (by simpa using hxy), filter_cons, ihy, @filter_cons _ _ ys]
        split_ifs with hk
        · -- the first list has no element of this key, since all its keys are greater
          have hlt : k < key x := by grind
          have hn : ((x :: xs).filter fun a => key a = k) = [] := by
            rw [filter_eq_nil_iff]
            intro a ha
            have hle : key x ≤ key a := by grind [rel_of_pairwise_cons]
            simpa using (hlt.trans_le hle).ne'
          rw [hn, nil_append, nil_append]
        · rfl

theorem pairwise_merge
    (hys : ys.Pairwise fun a b => key a ≤ key b) : (xs.merge ys).Pairwise fun a b => key a ≤ key b := by
  have hle : ∀ a b : T, decide (a ≤ b) = true ↔ key a ≤ key b := by
    intro a b
    rw [decide_eq_true_iff, hkey]
  have htrans : ∀ a b c : T, decide (a ≤ b) = true → decide (b ≤ c) = true → decide (a ≤ c) = true := by grind
  have htotal : ∀ a b : T, (decide (a ≤ b) || decide (b ≤ a)) = true := by grind
  have h := List.pairwise_merge htrans htotal xs ys (hxs.imp (hle _ _).mpr) (hys.imp (hle _ _).mpr)
  exact h.imp (hle _ _).mp

end

theorem merge {xs1 xs2 ys1 ys2 : List T} (hkey : ∀ a b : T, a ≤ b ↔ key a ≤ key b) (h1 : StableSort key xs1 ys1) (h2 : StableSort key xs2 ys2) :
    StableSort key (xs1 ++ xs2) (ys1.merge ys2) where
  perm := (merge_perm_append _).trans (h1.perm.append h2.perm)
  sorted := pairwise_merge hkey h1.sorted h2.sorted
  stable k := by rw [filter_merge hkey h1.sorted, h1.stable, h2.stable, filter_append]

end Merge

theorem map {S : Type*} {f : S → T} {xs ys : List S} (h : StableSort (key ∘ f) xs ys) : StableSort key (xs.map f) (ys.map f) where
  perm := h.perm.map f
  sorted := pairwise_map.mpr h.sorted
  stable k := by
    rw [filter_map, filter_map]
    exact congrArg (List.map f) (h.stable k)

theorem of_forall_eq {k : K} (h : ∀ x ∈ xs, key x = k) : StableSort key xs xs := by
  refine ⟨List.Perm.refl xs, ?_, fun _ => rfl⟩
  refine pairwise_of_forall_mem_list fun a ha b hb => ?_
  rw [h a ha, h b hb]

/-! ## Keys of a digit and a rest -/

section Digits

variable {D R : Type*} [LinearOrder D] [LinearOrder R] {digit : T → D} {rest : T → R}

/-- The key is compared by the digit first, then by the rest. -/
def Splits (key : T → K) (digit : T → D) (rest : T → R) (xs : List T) : Prop :=
  ∀ a ∈ xs, ∀ b ∈ xs, key a ≤ key b ↔ digit a < digit b ∨ digit a = digit b ∧ rest a ≤ rest b

theorem Splits.key_eq_iff {a b : T} (hkey : Splits key digit rest xs) (ha : a ∈ xs) (hb : b ∈ xs) :
    key a = key b ↔ digit a = digit b ∧ rest a = rest b := by
  rw [le_antisymm_iff, hkey a ha b hb, hkey b hb a ha]
  constructor
  · grind
  · grind

variable {zs : List T}

/-- The elements of one key have the same digit, and among these they are the ones of one rest. -/
theorem Splits.filter_eq (hkey : Splits key digit rest xs) (hzs : ∀ z ∈ zs, z ∈ xs) {a : T} (ha : a ∈ xs) :
    (zs.filter fun z => key z = key a) = (zs.filter fun z => digit z = digit a).filter fun z => rest z = rest a := by
  rw [filter_filter]
  refine filter_congr fun z hz => ?_
  rw [Bool.eq_iff_iff, Bool.and_eq_true, decide_eq_true_iff, decide_eq_true_iff, decide_eq_true_iff, hkey.key_eq_iff (hzs z hz) ha, and_comm]

/-- The elements of one key keep their order, if this holds for the keys that occur. -/
theorem stable_of_mem (hp : zs.Perm xs) (h : ∀ a ∈ xs, (zs.filter fun z => key z = key a) = xs.filter fun z => key z = key a) (k : K) :
    (zs.filter fun z => key z = k) = xs.filter fun z => key z = k := by
  by_cases hk : ∃ a ∈ xs, key a = k
  · obtain ⟨a, ha, rfl⟩ := hk
    exact h a ha
  · have hn : ∀ l : List T, (∀ z ∈ l, z ∈ xs) → (l.filter fun z => key z = k) = [] := by
      intro l hl
      rw [filter_eq_nil_iff]
      intro z hz hzk
      exact hk ⟨z, hl z hz, of_decide_eq_true hzk⟩
    rw [hn zs fun z hz => hp.subset hz, hn xs fun z hz => hz]

/-- Pairs in a list that is sorted by the digit, when the elements of each digit are in some order. -/
theorem pairwise_of_filters {r : T → T → Prop} (hxs : xs.Pairwise fun a b => digit a ≤ digit b)
    (h : ∀ d, (xs.filter fun x => digit x = d).Pairwise r) : xs.Pairwise fun a b => digit a < digit b ∨ digit a = digit b ∧ r a b := by
  induction xs with
  | nil => exact Pairwise.nil
  | cons x xs ih =>
    obtain ⟨hx, hxs'⟩ := pairwise_cons.mp hxs
    refine pairwise_cons.mpr ⟨fun y hy => ?_, ih hxs' fun d => (h d).sublist (List.Sublist.filter _ (sublist_cons_self x xs))⟩
    rcases (hx y hy).lt_or_eq with hlt | heq
    · exact Or.inl hlt
    · have hs := h (digit x)
      rw [filter_cons_of_pos (by simp), pairwise_cons] at hs
      exact Or.inr ⟨heq, hs.1 y (mem_filter.mpr ⟨hy, decide_eq_true heq.symm⟩)⟩

theorem trans_digit (hkey : Splits key digit rest xs) (h1 : StableSort rest xs ys) (h2 : StableSort digit ys zs) : StableSort key xs zs := by
  have hp : zs.Perm xs := h2.perm.trans h1.perm
  refine ⟨hp, ?_, stable_of_mem hp fun a ha => ?_⟩
  · -- the elements of a digit are still in the order of the rest
    have hr : ∀ d, (zs.filter fun z => digit z = d).Pairwise fun a b => rest a ≤ rest b := by
      intro d
      rw [h2.stable d]
      exact h1.sorted.filter _
    have hlex : zs.Pairwise fun a b => digit a < digit b ∨ digit a = digit b ∧ rest a ≤ rest b := pairwise_of_filters h2.sorted hr
    refine hlex.imp_of_mem fun ha hb hab => ?_
    exact (hkey _ (hp.subset ha) _ (hp.subset hb)).mpr hab
  · rw [hkey.filter_eq (fun z hz => hp.subset hz) ha, hkey.filter_eq (fun z hz => hz) ha, h2.stable, filter_comm, h1.stable, filter_comm]

variable {ds : List D} {yss : D → List T}

/-- The elements of each digit, one digit after the other. -/
theorem perm_filters (hds : ds.Nodup) (hmem : ∀ x ∈ xs, digit x ∈ ds) : (ds.flatMap fun d => xs.filter fun x => digit x = d).Perm xs := by
  induction ds generalizing xs with
  | nil =>
    cases xs with
    | nil => exact List.Perm.refl []
    | cons x xs => cases hmem x mem_cons_self
  | cons d ds ih =>
    obtain ⟨hd, hds'⟩ := nodup_cons.mp hds
    have hr : (ds.flatMap fun e => xs.filter fun x => digit x = e) =
        ds.flatMap fun e => (xs.filter fun x => !decide (digit x = d)).filter fun x => digit x = e := by
      refine flatMap_congr fun e he => ?_
      rw [filter_filter]
      refine filter_congr fun x _ => ?_
      by_cases hxe : digit x = e
      · grind
      · simp [hxe]
    have hmem' : ∀ x ∈ xs.filter fun x => !decide (digit x = d), digit x ∈ ds := by
      intro x hx
      obtain ⟨hx, hne⟩ := mem_filter.mp hx
      rcases mem_cons.mp (hmem x hx) with heq | h
      · rw [heq] at hne
        simp at hne
      · exact h
    rw [flatMap_cons, hr]
    exact ((ih hds' hmem').append_left _).trans (filter_append_perm _ xs)

/-- The elements of one digit, when each list has the elements of its digit. -/
theorem filter_flatMap_digit (hds : ds.Nodup) (hyss : ∀ d ∈ ds, ∀ y ∈ yss d, digit y = d) {d : D} (hd : d ∈ ds) :
    ((ds.flatMap yss).filter fun y => digit y = d) = yss d := by
  have hself : ∀ e ∈ ds, ((yss e).filter fun y => digit y = d) = if e = d then yss d else [] := by
    intro e he
    split_ifs with hed
    · subst hed
      exact filter_eq_self.mpr fun y hy => decide_eq_true (hyss e he y hy)
    · rw [filter_eq_nil_iff]
      intro y hy hyd
      exact hed ((hyss e he y hy).symm.trans (of_decide_eq_true hyd))
  rw [filter_flatMap, flatMap_congr hself]
  clear hself hyss
  induction ds with
  | nil => cases hd
  | cons e ds ih =>
    obtain ⟨he, hds'⟩ := nodup_cons.mp hds
    rw [flatMap_cons]
    by_cases hed : e = d
    · have hn : (ds.flatMap fun e' => if e' = d then yss d else []) = [] := by
        rw [flatMap_eq_nil_iff]
        intro e' he'
        refine if_neg ?_
        rintro rfl
        exact he (hed ▸ he')
      rw [if_pos hed, hn, append_nil]
    · grind

/-- The elements of each digit sorted by the rest, one digit after the other. -/
theorem of_buckets (hkey : Splits key digit rest xs) (hds : ds.Pairwise (· < ·)) (hmem : ∀ x ∈ xs, digit x ∈ ds)
    (h : ∀ d ∈ ds, StableSort rest (xs.filter fun x => digit x = d) (yss d)) : StableSort key xs (ds.flatMap yss) := by
  have hnd : ds.Nodup := hds.imp fun hlt => hlt.ne
  have hfrom : ∀ d ∈ ds, ∀ y ∈ yss d, y ∈ xs ∧ digit y = d := by
    intro d hd y hy
    obtain ⟨hyx, hyd⟩ := mem_filter.mp ((h d hd).perm.subset hy)
    exact ⟨hyx, of_decide_eq_true hyd⟩
  have hp : (ds.flatMap yss).Perm xs := (Perm.flatMap_left ds fun d hd => (h d hd).perm).trans (perm_filters hnd hmem)
  refine ⟨hp, ?_, stable_of_mem hp fun a ha => ?_⟩
  · rw [pairwise_flatMap]
    refine ⟨fun d hd => ?_, hds.imp_of_mem fun hd he hlt a ha b hb => ?_⟩
    · refine (h d hd).sorted.imp_of_mem fun ha hb hab => ?_
      obtain ⟨hax, had⟩ := hfrom d hd _ ha
      obtain ⟨hbx, hbd⟩ := hfrom d hd _ hb
      exact (hkey _ hax _ hbx).mpr (Or.inr ⟨had.trans hbd.symm, hab⟩)
    · obtain ⟨hax, had⟩ := hfrom _ hd a ha
      obtain ⟨hbx, hbd⟩ := hfrom _ he b hb
      exact (hkey a hax b hbx).mpr (Or.inl (had ▸ hbd ▸ hlt))
  · rw [hkey.filter_eq (fun z hz => hp.subset hz) ha, hkey.filter_eq (fun z hz => hz) ha,
      filter_flatMap_digit hnd (fun d hd y hy => (hfrom d hd y hy).2) (hmem a ha), (h _ (hmem a ha)).stable]

/-- The elements of each digit, one digit after the other, are sorted by the digit. -/
theorem of_filters (hds : ds.Pairwise (· < ·)) (hmem : ∀ x ∈ xs, digit x ∈ ds) :
    StableSort digit xs (ds.flatMap fun d => xs.filter fun x => digit x = d) := by
  have hkey : Splits digit digit (fun _ => (0 : Nat)) xs := by
    intro a _ b _
    rw [le_iff_lt_or_eq]
    simp
  exact of_buckets hkey hds hmem fun d _ => of_forall_eq fun _ _ => rfl

end Digits

end StableSort

end CsLearning
