import Mathlib

/-!
# Searching a table from a start cell

A table of `N` cells is searched from a start cell to its end and then from its beginning to the start cell. `probe` is such a search for a cell
with a property. `probeLoops` is the same pair of loops with a body that may return from the function or have no outcome.

`Since p q` is what a history of calls leaves behind: a call with `p`, and no call with `q` since.
-/

open List

namespace CsLearning

/-! ## Searches -/

/-- `key % N`, the cell where the search for a key starts. -/
def home (N : Nat) (key : Int) : Nat := (key.tmod N).toNat

variable {N i a b start : Nat} {p : Nat → Bool}

theorem home_lt (hN : 0 < N) (key : Int) : home N key < N := by
  have h := Int.tmod_lt_of_pos key (by exact_mod_cast hN : (0 : Int) < N)
  unfold home
  omega

theorem home_natCast (hi : i < N) : home N i = i := by
  rw [home, Int.tmod_eq_of_lt (by omega) (by omega), Int.toNat_natCast]

/-- The first `i` with `p` in `for (i = a; i < b; ++i)`. -/
def firstFrom (p : Nat → Bool) (a b : Nat) : Option Nat := (List.range' a (b - a)).find? p

theorem firstFrom_eq_some : firstFrom p a b = some i ↔ p i = true ∧ a ≤ i ∧ i < b ∧ ∀ j, a ≤ j → j < i → p j = false := by
  simp only [firstFrom, find?_range'_eq_some, Bool.not_eq_true']
  constructor
  · grind
  · grind

theorem firstFrom_eq_none : firstFrom p a b = none ↔ ∀ i, a ≤ i → i < b → p i = false := by
  simp only [firstFrom, find?_range'_eq_none, Bool.not_eq_true']
  constructor
  · intro h i ha hb
    exact h i ha (by omega)
  · intro h i ha hb
    exact h i ha (by omega)

/-- The first cell with `p`, from `start` to the end of the table and then from its beginning. -/
def probe (p : Nat → Bool) (start N : Nat) : Option Nat := (firstFrom p start N).or (firstFrom p 0 start)

theorem of_probe_eq_some (hs : start ≤ N) (h : probe p start N = some i) : p i = true ∧ i < N := by
  rcases Option.or_eq_some_iff.mp h with h | ⟨-, h⟩
  · obtain ⟨hp, -, hi, -⟩ := firstFrom_eq_some.mp h
    exact ⟨hp, hi⟩
  · obtain ⟨hp, -, hi, -⟩ := firstFrom_eq_some.mp h
    exact ⟨hp, by omega⟩

theorem probe_eq_none (hs : start ≤ N) : probe p start N = none ↔ ∀ i < N, p i = false := by
  rw [probe, Option.or_eq_none_iff, firstFrom_eq_none, firstFrom_eq_none]
  constructor
  · grind
  · grind

/-! ## Loops that may return or have no outcome -/

section Loops

variable {R : Type*} {body : Nat → Option (Option R)}

/-- A loop over the indices: `body i` is none where it has no outcome, `some (some r)` where it returns `r` from the function, and `some none` where
the loop goes on. -/
def search (body : Nat → Option (Option R)) : List Nat → Option (Option R)
  | [] => some none
  | i :: is =>
    match body i with
    | some none => search body is
    | returned => returned

/-- The loop from `start` to the end of the table, and then the loop from its beginning to `start`. -/
def probeLoops (body : Nat → Option (Option R)) (start N : Nat) : Option (Option R) :=
  match search body (List.range' start (N - start)) with
  | some none => search body (List.range' 0 start)
  | returned => returned

theorem search_none {is : List Nat} (h : ∀ i ∈ is, body i = some none) : search body is = some none := by
  induction is with
  | nil => rfl
  | cons i is ih =>
    rw [search, h i mem_cons_self]
    exact ih fun j hj => h j (mem_cons_of_mem i hj)

theorem probeLoops_none {start N : Nat} (hs : start ≤ N) (h : ∀ i < N, body i = some none) : probeLoops body start N = some none := by
  have h1 : search body (range' start (N - start)) = some none := by
    apply search_none
    intro i hi
    rw [mem_range'_1] at hi
    exact h i (by omega)
  have h2 : search body (range' 0 start) = some none := by
    apply search_none
    intro i hi
    rw [mem_range'_1] at hi
    exact h i (by omega)
  rw [probeLoops, h1]
  exact h2

theorem probeLoops_first {start N : Nat} (hs : start < N) {o : Option (Option R)} (h : body start = o) (ho : o ≠ some none) :
    probeLoops body start N = o := by
  obtain ⟨len, hlen⟩ : ∃ len, N - start = len + 1 := ⟨N - start - 1, by omega⟩
  have hfst : search body (range' start (N - start)) = o := by
    rw [hlen, range'_succ]
    unfold search
    rw [h]
    split
    · exact absurd rfl ho
    · rfl
  rw [probeLoops, hfst]
  split
  · exact absurd rfl ho
  · rfl

end Loops

/-! ## Histories -/

section Histories

variable {C : Type*}

/-- Some call has `p`, and none after it has `q`. -/
def Since (p q : C → Prop) (calls : List C) : Prop :=
  ∃ before c after, calls = before ++ c :: after ∧ p c ∧ ∀ c' ∈ after, ¬q c'

theorem not_since_nil (p q : C → Prop) : ¬Since p q [] := by
  rintro ⟨before, c, after, h, -⟩
  simp at h

variable {calls : List C}

theorem since_snoc {p q : C → Prop} {c : C} : Since p q (calls ++ [c]) ↔ p c ∨ (Since p q calls ∧ ¬q c) := by
  constructor
  · rintro ⟨before, d, after, h, hp, hq⟩
    rcases eq_nil_or_concat after with rfl | ⟨after', e, rfl⟩
    · grind [append_inj']
    · rw [concat_eq_append] at h hq
      have hcat : calls ++ [c] = (before ++ d :: after') ++ [e] := by simpa using h
      obtain ⟨rfl, hce⟩ := append_inj' hcat rfl
      obtain rfl : c = e := by simpa using hce
      refine .inr ⟨⟨before, d, after', rfl, hp, fun c' hc' => hq c' (mem_append_left _ hc')⟩, ?_⟩
      exact hq c (mem_append_right _ mem_cons_self)
  · rintro (hp | ⟨⟨before, d, after, rfl, hp, hq⟩, hc⟩)
    · exact ⟨calls, c, [], rfl, hp, by simp⟩
    · refine ⟨before, d, after ++ [c], by simp, hp, ?_⟩
      intro c' hc'
      rcases mem_append.mp hc' with hc' | hc'
      · exact hq c' hc'
      · obtain rfl : c' = c := by simpa using hc'
        exact hc

theorem Since.exists_mem {p q : C → Prop} (h : Since p q calls) : ∃ c ∈ calls, p c := by
  obtain ⟨before, c, after, rfl, hp, -⟩ := h
  exact ⟨c, mem_append_cons_self, hp⟩

/-- A set of keys that all occur in a history is no greater than the history is long. -/
theorem encard_le_length {K : Type*} (key : C → K) {S : Set K} {N : Nat} (hlen : calls.length ≤ N) (h : ∀ k ∈ S, ∃ c ∈ calls, key c = k) :
    S.encard ≤ N := by
  classical
  have hsub : S ⊆ ((calls.map key).toFinset : Set K) := by
    intro k hk
    rw [Finset.mem_coe, mem_toFinset, mem_map]
    exact h k hk
  refine (Set.encard_le_encard hsub).trans ?_
  rw [Set.encard_coe_eq_coe_finsetCard, Nat.cast_le]
  exact (toFinset_card_le _).trans (length_map key ▸ hlen)

end Histories

end CsLearning
