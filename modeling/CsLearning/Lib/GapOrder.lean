import CsLearning.Lib.Heap

/-!
# Order at a distance

An array of which the first `n` cells count, as a function on the indices. `GapOrdered h n` says that no value exceeds the one `h` cells behind it,
and `SameClasses k n` that the values were rearranged within the classes of indices modulo `k`. The main result is that order at one distance survives
sorting at another one: `GapOrdered.of_sameClasses`. `Rising` is the invariant of an insertion at a distance.
-/

open Finset

namespace CsLearning

variable {α : Type*} {f g : Nat → α} {h k n : Nat}

/-! ## Rearranging within classes -/

/-- The first `n` values, rearranged within the classes of indices modulo `k`. -/
def SameClasses (k n : Nat) (f g : Nat → α) : Prop := ∃ σ : Equiv.Perm Nat, (∀ i, σ i ≡ i [MOD k]) ∧ (∀ i, σ i < n ↔ i < n) ∧ g = f ∘ σ

theorem SameClasses.refl (k n : Nat) (f : Nat → α) : SameClasses k n f f := ⟨Equiv.refl _, fun _ => rfl, fun _ => Iff.rfl, rfl⟩

theorem SameClasses.trans {e : Nat → α} (h₁ : SameClasses k n e f) (h₂ : SameClasses k n f g) : SameClasses k n e g := by
  obtain ⟨σ, hσ, hσn, rfl⟩ := h₁
  obtain ⟨τ, hτ, hτn, rfl⟩ := h₂
  refine ⟨τ.trans σ, fun i => ?_, fun i => ?_, rfl⟩
  · exact (hσ (τ i)).trans (hτ i)
  · exact (hσn (τ i)).trans (hτn i)

variable {i j r s : Nat}

theorem SameClasses.swap (hi : i < n) (hj : j < n) (hij : i ≡ j [MOD k]) (f : Nat → α) : SameClasses k n f (f ∘ Equiv.swap i j) := by
  refine ⟨Equiv.swap i j, fun l => ?_, fun l => ?_, rfl⟩
  · rw [Equiv.swap_apply_def]
    split_ifs with hli hlj
    · rw [hli]
      exact hij.symm
    · rw [hlj]
      exact hij
    · exact Nat.ModEq.refl l
  · rw [Equiv.swap_apply_def]
    split_ifs with hli hlj
    · rw [hli]
      exact iff_of_true hj hi
    · rw [hlj]
      exact iff_of_true hi hj
    · exact Iff.rfl

theorem SameClasses.bag_eq (hc : SameClasses k n f g) : bag n g = bag n f := by
  obtain ⟨σ, -, hσn, rfl⟩ := hc
  exact bag_comp_perm σ hσn f

/-- The first `m` cells in the class of `r`. -/
def classCells (k m r : Nat) : Finset Nat := (Finset.range m).filter fun s => s ≡ r [MOD k]

theorem mem_classCells {m r s : Nat} : s ∈ classCells k m r ↔ s < m ∧ s ≡ r [MOD k] := by
  rw [classCells, mem_filter, mem_range]

/-! ## Order at a distance -/

variable [LinearOrder α]

/-- No value exceeds the one `h` cells behind it. -/
def GapOrdered (h n : Nat) (f : Nat → α) : Prop := ∀ i, i + h < n → f i ≤ f (i + h)

theorem GapOrdered.le_of_modEq (hf : GapOrdered h n f) (hij : i ≤ j) (hj : j < n) (hclass : i ≡ j [MOD h]) : f i ≤ f j := by
  obtain ⟨q, hq⟩ := (Nat.modEq_iff_dvd' hij).mp hclass
  have hjq : j = i + h * q := by omega
  subst hjq
  clear hij hclass hq
  induction q with
  | zero => exact le_rfl
  | succ q ih =>
    rw [Nat.mul_succ, ← Nat.add_assoc] at hj ⊢
    exact (ih (by omega)).trans (hf _ hj)

/-- The cells in the class of `r` with values up to `v`. -/
def smallCells (k n : Nat) (f : Nat → α) (v : α) (r : Nat) : Finset Nat := (classCells k n r).filter fun s => f s ≤ v

theorem mem_smallCells {v : α} : s ∈ smallCells k n f v r ↔ (s < n ∧ s ≡ r [MOD k]) ∧ f s ≤ v := by
  rw [smallCells, mem_filter, mem_classCells]

/-- Rearranging within the classes does not change how many of their values are small. -/
theorem SameClasses.card_smallCells (hc : SameClasses k n f g) (v : α) (r : Nat) : (smallCells k n g v r).card = (smallCells k n f v r).card := by
  obtain ⟨σ, hσ, hσn, rfl⟩ := hc
  refine card_bij (fun i _ => σ i) ?_ (fun i _ j _ hij => σ.injective hij) ?_
  · intro i hi
    rw [mem_smallCells] at hi ⊢
    exact ⟨⟨(hσn i).mpr hi.1.1, (hσ i).trans hi.1.2⟩, hi.2⟩
  · intro j hj
    rw [mem_smallCells] at hj
    have hb : σ (σ.symm j) = j := σ.apply_symm_apply j
    have hclass := hσ (σ.symm j)
    rw [hb] at hclass
    refine ⟨σ.symm j, ?_, hb⟩
    rw [mem_smallCells, Function.comp_apply, hb]
    exact ⟨⟨(hσn _).mp (hb.symm ▸ hj.1.1), hclass.symm.trans hj.1.2⟩, hj.2⟩

/-- A small value stands in one of the first `h` cells, or `h` cells before it is another small value. -/
theorem GapOrdered.card_smallCells_le (hf : GapOrdered h n f) (k : Nat) (v : α) (i : Nat) :
    (smallCells k n f v (i + h)).card ≤ (classCells k h (i + h)).card + (smallCells k n f v i).card := by
  have hsub : smallCells k n f v (i + h) ⊆ classCells k h (i + h) ∪ (smallCells k n f v i).image (· + h) := by
    intro s hs
    rw [mem_union, mem_image, mem_classCells]
    obtain ⟨⟨hsn, hclass⟩, hle⟩ := mem_smallCells.mp hs
    by_cases hsh : s < h
    · exact Or.inl ⟨hsh, hclass⟩
    · have hb : s - h + h = s := by omega
      have hstep := hf (s - h) (by omega)
      rw [hb] at hstep
      refine Or.inr ⟨s - h, mem_smallCells.mpr ⟨⟨by omega, ?_⟩, hstep.trans hle⟩, hb⟩
      refine Nat.ModEq.add_right_cancel' h ?_
      rwa [hb]
  calc (smallCells k n f v (i + h)).card
      ≤ (classCells k h (i + h) ∪ (smallCells k n f v i).image (· + h)).card := card_le_card hsub
    _ ≤ (classCells k h (i + h)).card + ((smallCells k n f v i).image (· + h)).card := card_union_le _ _
    _ ≤ (classCells k h (i + h)).card + (smallCells k n f v i).card := Nat.add_le_add_left card_image_le _

/-- The cells of a class up to `i + h` are those before `h` and those that stand `h` cells behind one up to `i`. -/
theorem card_classCells_add (k h i : Nat) :
    (classCells k h (i + h)).card + (classCells k (i + 1) i).card ≤ (classCells k (i + h + 1) (i + h)).card := by
  have hdisj : Disjoint (classCells k h (i + h)) ((classCells k (i + 1) i).image (· + h)) := by
    rw [disjoint_left]
    intro s hs hs'
    obtain ⟨t, -, rfl⟩ := mem_image.mp hs'
    have hlt := (mem_classCells.mp hs).1
    omega
  have hsub : classCells k h (i + h) ∪ (classCells k (i + 1) i).image (· + h) ⊆ classCells k (i + h + 1) (i + h) := by
    intro s hs
    rw [mem_classCells]
    rcases mem_union.mp hs with hs | hs
    · obtain ⟨hsh, hclass⟩ := mem_classCells.mp hs
      exact ⟨by omega, hclass⟩
    · obtain ⟨t, ht, rfl⟩ := mem_image.mp hs
      obtain ⟨hti, hclass⟩ := mem_classCells.mp ht
      exact ⟨by omega, hclass.add_right h⟩
  have himage : ((classCells k (i + 1) i).image (· + h)).card = (classCells k (i + 1) i).card := card_image_of_injective _ (add_left_injective h)
  rw [← himage, ← card_union_of_disjoint hdisj]
  exact card_le_card hsub

/-- In a sorted class the values up to some place are small when the one there is. -/
theorem GapOrdered.classCells_subset (hg : GapOrdered k n g) (hj : j < n) : classCells k (j + 1) j ⊆ smallCells k n g (g j) j := by
  intro s hs
  obtain ⟨hsj, hclass⟩ := mem_classCells.mp hs
  exact mem_smallCells.mpr ⟨⟨by omega, hclass⟩, hg.le_of_modEq (by omega) hj hclass⟩

/-- In a sorted class only values before some place are small when the one there is not. -/
theorem GapOrdered.smallCells_ssubset (hg : GapOrdered k n g) {v : α} (hi : v < g i) : smallCells k n g v i ⊂ classCells k (i + 1) i := by
  rw [ssubset_iff_of_subset]
  · refine ⟨i, mem_classCells.mpr ⟨Nat.lt_succ_self i, Nat.ModEq.refl i⟩, fun hmem => ?_⟩
    exact absurd (mem_smallCells.mp hmem).2 (not_le.mpr hi)
  · intro s hs
    obtain ⟨⟨hsn, hclass⟩, hle⟩ := mem_smallCells.mp hs
    refine mem_classCells.mpr ⟨?_, hclass⟩
    by_contra hsi
    exact absurd (hg.le_of_modEq (by omega) hsn hclass.symm) (not_le.mpr (hle.trans_lt hi))

/-- Sorting at one distance keeps the order at another one. If a value were greater than the one `h` cells behind it, there would be more values up to
that one in the class of the second than places for them. -/
theorem GapOrdered.of_sameClasses (hf : GapOrdered h n f) (hg : GapOrdered k n g) (hc : SameClasses k n f g) : GapOrdered h n g := by
  intro i hi
  by_contra hlt
  rw [not_le] at hlt
  have hcs := card_classCells_add k h i
  have hall := card_le_card (hg.classCells_subset hi)
  have hs := hc.card_smallCells (g (i + h)) (i + h)
  have hupper := hf.card_smallCells_le k (g (i + h)) i
  have hs' := hc.card_smallCells (g (i + h)) i
  have hfew := card_lt_card (hg.smallCells_ssubset hlt)
  omega

/-! ## Insertion at a distance -/

/-- Order at the distance `h`, but that the value at `j` may be less than the one before it. -/
structure Rising (h n : Nat) (f : Nat → α) (j : Nat) : Prop where
  edges : ∀ i, i + h < n → i + h ≠ j → f i ≤ f (i + h)
  around : h ≤ j → j + h < n → f (j - h) ≤ f (j + h)

theorem GapOrdered.rising (hf : GapOrdered h n f) : Rising h (n + 1) f n := by
  refine ⟨fun i hi hne => hf i (by omega), fun _ hlt => ?_⟩
  have : h = 0 := by omega
  subst this
  exact le_rfl

theorem Rising.swap (hf : Rising h n f j) (hh : 0 < h) (hj : h ≤ j) (hlt : f j ≤ f (j - h)) : Rising h n (f ∘ Equiv.swap j (j - h)) (j - h) := by
  have hat : (f ∘ Equiv.swap j (j - h)) j = f (j - h) := by simp
  have hoth : ∀ i, i ≠ j → i ≠ j - h → (f ∘ Equiv.swap j (j - h)) i = f i := fun i h₁ h₂ => by simp [Equiv.swap_apply_of_ne_of_ne h₁ h₂]
  refine ⟨fun i hi hne => ?_, fun hj' hjn => ?_⟩
  · by_cases hij : i + h = j
    · grind
    · rw [hoth (i + h) hij hne]
      by_cases hi' : i = j
      · subst hi'
        rw [hat]
        exact hf.around hj hi
      · by_cases hi'' : i = j - h
        · omega
        · rw [hoth i hi' hi'']
          exact hf.edges i hi hij
  · have hb : j - h + h = j := by omega
    have hb' : j - h - h + h = j - h := by omega
    rw [hb, hat, hoth _ (by omega) (by omega)]
    have hs := hf.edges (j - h - h) (by omega) (by omega)
    rwa [hb'] at hs

theorem Rising.done (hf : Rising h n f j) (hj : h ≤ j → f (j - h) ≤ f j) : GapOrdered h n f := by
  intro i hi
  by_cases hij : i + h = j
  · grind
  · exact hf.edges i hi hij

end CsLearning
