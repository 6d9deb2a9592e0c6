import CsLearning.Lib.Loop

/-!
# Grids

A vector of vectors. Reading or writing outside of it has no outcome. Places may be given by two natural numbers or by two integers, of which
negative ones are outside. There is a rule for the two nested loops that pass over all cells of a grid.
-/

open List Option Int

namespace CsLearning

abbrev Grid (α : Type*) := List (List α)

namespace Grid

variable {α B : Type*} {m n r c : Nat} {g : Grid α}

/-- `g[r][c]`. -/
def cell (g : Grid α) (r c : Nat) : Option α := g[r]?.bind fun row => row[c]?

/-- `g[r][c] = x`. -/
def put (g : Grid α) (r c : Nat) (x : α) : Option (Grid α) := do
  let row ← g[r]?
  let _ ← row[c]?
  return g.set r (row.set c x)

/-- `g[p.1][p.2]`, for integers. -/
def look (g : Grid α) (p : Int × Int) : Option α := if 0 ≤ p.1 ∧ 0 ≤ p.2 then cell g p.1.toNat p.2.toNat else none

/-- `g[p.1][p.2] = x`, for integers. -/
def mark (g : Grid α) (p : Int × Int) (x : α) : Option (Grid α) := if 0 ≤ p.1 ∧ 0 ≤ p.2 then put g p.1.toNat p.2.toNat x else none

/-- There are `m` rows of `n` elements. -/
structure Rect (m n : Nat) (g : Grid α) : Prop where
  length : g.length = m
  rows : ∀ row ∈ g, row.length = n

/-- The places of a grid. -/
def Inside (m n : Nat) (p : Int × Int) : Prop := (0 ≤ p.1 ∧ p.1 < m) ∧ 0 ≤ p.2 ∧ p.2 < n

/-! ## Reading and writing -/

theorem put_append {x : α} {row : List α} (above below : Grid α) (hc : c < row.length) :
    put (above ++ row :: below) above.length c x = some (above ++ row.set c x :: below) := by
  rw [put, getElem?_append_right (Nat.le_refl _), Nat.sub_self]
  simp only [getElem?_cons_zero, bind_eq_bind, bind_some, getElem?_eq_getElem hc]
  rw [set_append_right _ _ (Nat.le_refl _), Nat.sub_self]
  rfl

theorem cell_eq_some_iff (h : Rect m n g) : (∃ x, cell g r c = some x) ↔ r < m ∧ c < n := by
  rw [cell]
  constructor
  · rintro ⟨x, hx⟩
    obtain ⟨row, hrow, hget⟩ := bind_eq_some_iff.mp hx
    have hr := (List.getElem?_eq_some_iff.mp hrow).1
    have hc := (List.getElem?_eq_some_iff.mp hget).1
    rw [h.rows row (mem_of_getElem? hrow)] at hc
    exact ⟨h.length ▸ hr, hc⟩
  · rintro ⟨hr, hc⟩
    have hr' : r < g.length := h.length ▸ hr
    have hc' : c < g[r].length := by rwa [h.rows _ (getElem_mem hr')]
    exact ⟨g[r][c], by rw [getElem?_eq_getElem hr', bind_some, getElem?_eq_getElem hc']⟩

theorem put_spec (h : Rect m n g) (hr : r < m) (hc : c < n) (x : α) :
    ∃ g', put g r c x = some g' ∧ Rect m n g' ∧ ∀ r' c', cell g' r' c' = if r' = r ∧ c' = c then some x else cell g r' c' := by
  have hr' : r < g.length := h.length ▸ hr
  have hlen : g[r].length = n := h.rows _ (getElem_mem hr')
  have hc' : c < g[r].length := by rwa [hlen]
  refine ⟨g.set r (g[r].set c x), ?_, ⟨by rw [length_set, h.length], fun row hrow => ?_⟩, fun r' c' => ?_⟩
  · rw [put, getElem?_eq_getElem hr']
    simp only [bind_eq_bind, bind_some, getElem?_eq_getElem hc']
    rfl
  · rcases mem_or_eq_of_mem_set hrow with hrow | rfl
    · exact h.rows row hrow
    · rw [length_set, hlen]
  · rw [cell, cell, getElem?_set]
    by_cases hrow : r = r'
    · subst hrow
      rw [if_pos rfl, if_pos hr', bind_some, getElem?_eq_getElem hr', bind_some, getElem?_set]
      by_cases hcol : c = c'
      · grind
      · rw [if_neg hcol, if_neg fun hboth => hcol hboth.2.symm]
    · rw [if_neg hrow, if_neg fun hboth => hrow hboth.1.symm]

theorem look_natCast (g : Grid α) (r c : Nat) : look g (r, c) = cell g r c := by
  rw [look, if_pos ⟨natCast_nonneg r, natCast_nonneg c⟩, toNat_natCast, toNat_natCast]

theorem mark_natCast (g : Grid α) (r c : Nat) (x : α) : mark g (r, c) x = put g r c x := by
  rw [mark, if_pos ⟨natCast_nonneg r, natCast_nonneg c⟩, toNat_natCast, toNat_natCast]

variable {p : Int × Int}

theorem Inside.exists_natCast (h : Inside m n p) : ∃ r c : Nat, p = ((r : Int), (c : Int)) ∧ r < m ∧ c < n := by
  obtain ⟨⟨hr, hrm⟩, hc, hcn⟩ := h
  refine ⟨p.1.toNat, p.2.toNat, ?_, by omega, by omega⟩
  rw [toNat_of_nonneg hr, toNat_of_nonneg hc]

theorem inside_natCast (hr : r < m) (hc : c < n) : Inside m n ((r : Int), (c : Int)) :=
  ⟨⟨natCast_nonneg r, ofNat_lt.mpr hr⟩, natCast_nonneg c, ofNat_lt.mpr hc⟩

theorem look_eq_some_iff (h : Rect m n g) : (∃ x, look g p = some x) ↔ Inside m n p := by
  constructor
  · rintro ⟨x, hx⟩
    rw [look] at hx
    split_ifs at hx with hp
    have hcell := (cell_eq_some_iff h).mp ⟨x, hx⟩
    unfold Inside
    omega
  · intro hp
    obtain ⟨r, c, rfl, hr, hc⟩ := hp.exists_natCast
    exact (cell_eq_some_iff h).mpr ⟨hr, hc⟩

theorem look_eq_none (h : Rect m n g) (hp : ¬ Inside m n p) : look g p = none := by
  rw [eq_none_iff_forall_not_mem]
  exact fun x hx => hp ((look_eq_some_iff h).mp ⟨x, hx⟩)

theorem mark_spec (h : Rect m n g) (hp : Inside m n p) (x : α) :
    ∃ g', mark g p x = some g' ∧ Rect m n g' ∧ ∀ q, look g' q = if q = p then some x else look g q := by
  obtain ⟨r, c, rfl, hr, hc⟩ := hp.exists_natCast
  obtain ⟨g', hput, hrect, hcell⟩ := put_spec h hr hc x
  refine ⟨g', by rw [mark_natCast, hput], hrect, fun q => ?_⟩
  by_cases hq : Inside m n q
  · obtain ⟨r', c', rfl, -, -⟩ := hq.exists_natCast
    rw [look_natCast, look_natCast, hcell]
    simp only [Prod.mk.injEq, natCast_inj]
  · have hne : q ≠ ((r : Int), (c : Int)) := by
      rintro rfl
      exact hq hp
    rw [look_eq_none hrect hq, if_neg hne, look_eq_none h hq]

theorem ext {g' : Grid α} (h : Rect m n g) (h' : Rect m n g') (hlook : ∀ p, Inside m n p → look g p = look g' p) : g = g' := by
  refine ext_getElem (h.length.trans h'.length.symm) fun r hr hr' => ext_getElem ?_ fun c hc hc' => ?_
  · rw [h.rows _ (getElem_mem hr), h'.rows _ (getElem_mem hr')]
  · rw [h.rows _ (getElem_mem hr)] at hc
    have hcell := hlook (r, c) (inside_natCast (h.length ▸ hr) hc)
    rw [look_natCast, look_natCast, cell, cell, getElem?_eq_getElem hr, getElem?_eq_getElem hr', bind_some, bind_some,
      getElem?_eq_getElem, getElem?_eq_getElem, some.injEq] at hcell
    exact hcell

/-! ## All cells -/

/-- The rule for loops over the rows and the columns, in any order: every cell is passed once. -/
theorem foldlM_cells {rows cols : List Nat} (hr : rows.Perm (range m)) (hcols : cols.Perm (range n))
    {f : Nat → B → Nat → Option B} {P : Set (Nat × Nat) → B → Prop} {b : B}
    (hs : ∀ i j S b, i < m → j < n → (i, j) ∉ S → P S b → ∃ b', f i b j = some b' ∧ P (insert (i, j) S) b') (hb : P ∅ b) :
    ∃ b', rows.foldlM (fun b i => cols.foldlM (f i) b) b = some b' ∧ P {q | q.1 < m ∧ q.2 < n} b' := by
  have hmem : ∀ q : Nat × Nat, q ∈ rows ×ˢ cols ↔ q.1 < m ∧ q.2 < n := by
    intro q
    rw [mem_product, hr.mem_iff, hcols.mem_iff, mem_range, mem_range]
  have hnd : (rows ×ˢ cols).Nodup := (hr.nodup_iff.mpr nodup_range).product (hcols.nodup_iff.mpr nodup_range)
  have hflat : ∀ b, rows.foldlM (fun b i => cols.foldlM (f i) b) b = (rows ×ˢ cols).foldlM (fun b q => f q.1 b q.2) b := by
    clear hr hmem hnd
    induction rows with
    | nil => exact fun _ => rfl
    | cons i rows ih =>
      intro b
      rw [product_cons, foldlM_append, foldlM_map]
      exact bind_congr fun b' => ih b'
  have hrun : ∀ l : List (Nat × Nat), l.Nodup → (∀ q ∈ l, q.1 < m ∧ q.2 < n) →
      ∃ b', l.foldlM (fun b q => f q.1 b q.2) b = some b' ∧ P {q | q ∈ l} b' := by
    intro l hl hin
    induction l using reverseRecOn with
    | nil => exact ⟨b, rfl, by simpa using hb⟩
    | append_singleton l q ih =>
      obtain ⟨hl, -, hnew⟩ := nodup_append.mp hl
      obtain ⟨b₁, hrun, hb₁⟩ := ih hl fun p hp => hin p (mem_append_left _ hp)
      have hq := hin q (mem_append_right _ (mem_singleton_self q))
      obtain ⟨b₂, hlast, hb₂⟩ := hs q.1 q.2 _ b₁ hq.1 hq.2 (fun hmem => hnew q hmem q (mem_singleton_self q) rfl) hb₁
      refine ⟨b₂, by simpa [hrun] using hlast, ?_⟩
      have hset : {p | p ∈ l ++ [q]} = insert q {p | p ∈ l} := by
        ext p
        simp [or_comm]
      exact hset ▸ hb₂
  obtain ⟨b', hb', hP⟩ := hrun _ hnd fun q hq => (hmem q).mp hq
  refine ⟨b', (hflat b).trans hb', ?_⟩
  simpa only [hmem] using hP

end Grid

end CsLearning
