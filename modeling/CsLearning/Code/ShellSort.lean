import CsLearning.Lib.Cells
import CsLearning.Lib.GapOrder

/-!
# Shell sort

`Shell_sort` of `shell_sort.cc`: for each gap of the sequence `N / 2`, `N / 4`, …, `1` the array is sorted by insertion at the distance of the gap.

A pass moves values only within the classes of indices modulo its gap, so what `Lib/GapOrder` says about such rearrangements applies: the array is
ordered at the distance of every gap that had its pass.
-/

open List Option Function Nat

namespace CsLearning.Code.ShellSort

open Cells

variable {T : Type} [LinearOrder T]

/-! ## The code -/

/-- `for (j = i; j >= D && A[j - D] > tmp; j -= D) A[j] = A[j - D];`, which is only entered with a positive `D`: the array and `j` at its end. -/
def shift (D : Nat) (tmp : T) (A : Cells T) (j : Nat) : Option (Cells T × Nat) :=
  if _h : 0 < D ∧ D ≤ j then do
    let a ← A (j - D)
    if a > tmp then
      let A ← A.set j a
      shift D tmp A (j - D)
    else some (A, j)
  else some (A, j)
termination_by j

/-- The body of the loop over `i`. -/
def insertNext (D : Nat) (A : Cells T) (i : Nat) : Option (Cells T) := do
  let tmp ← A i
  let (A, j) ← shift D tmp A i
  A.set j tmp

/-- The pass with the gap `D`. -/
def pass (N : Nat) (A : Cells T) (D : Nat) : Option (Cells T) := (List.range' D (N - D)).foldlM (insertNext D) A

/-- The gaps of `for (int D = ..; D > 0; D /= 2)`. -/
def gaps (D : Nat) : List Nat := if _h : 0 < D then D :: gaps (D / 2) else []
termination_by D

/-- `Shell_sort(A, N)`. -/
def shellSort (A : Cells T) (N : Nat) : Option (Cells T) := (gaps (N / 2)).foldlM (pass N) A

/-! ## One pass -/

variable {D N n i j : Nat} {f g : Nat → T} {tmp : T}

/-- The inner loop. With `tmp` at `j` its rounds are exchanges within the class of `i`. -/
theorem shift_spec (hD : 0 < D) (hj : j ≤ i) (hi : i < N) (h : Rising D (i + 1) (update f j tmp) j) :
    ∃ g j', shift D tmp (ofFn N f) j = some (ofFn N g, j') ∧ j' < N ∧ GapOrdered D (i + 1) (update g j' tmp) ∧
      SameClasses D N (update f j tmp) (update g j' tmp) := by
  induction j using Nat.strong_induction_on generalizing f with
  | _ j ih =>
    rw [shift]
    by_cases hb : D ≤ j
    · have hr : ofFn N f (j - D) = some (f (j - D)) := ofFn_of_lt (by omega)
      rw [dif_pos ⟨hD, hb⟩, hr]
      simp only [bind_eq_bind, bind_some]
      by_cases hgt : f (j - D) > tmp
      · have hwrite : set (ofFn N f) j (f (j - D)) = some (ofFn N (update f j (f (j - D)))) := by
          rw [set_natCast (ofFn_of_lt (by omega)), update_ofFn (by omega)]
        rw [if_pos hgt, hwrite]
        have hexch := update_swap (show j ≠ j - D by omega) f tmp
        have hrising : Rising D (i + 1) (update (update f j (f (j - D))) (j - D) tmp) (j - D) := by
          rw [hexch]
          refine h.swap hD hb ?_
          rw [update_self, update_of_ne (by omega)]
          exact hgt.le
        obtain ⟨g, j', hrun, hj', hord, hcls⟩ := ih (j - D) (by omega) (by omega) hrising
        refine ⟨g, j', hrun, hj', hord, SameClasses.trans ?_ hcls⟩
        rw [hexch]
        refine SameClasses.swap (by omega) (by omega) ?_ _
        exact (Nat.modEq_iff_dvd' (Nat.sub_le j D)).mpr ⟨1, by omega⟩ |>.symm
      · rw [if_neg hgt]
        refine ⟨f, j, rfl, by omega, h.done fun _ => ?_, SameClasses.refl _ _ _⟩
        rw [update_self, update_of_ne (by omega)]
        exact not_lt.mp hgt
    · rw [dif_neg (by omega)]
      exact ⟨f, j, rfl, by omega, h.done fun hle => absurd hle hb, SameClasses.refl _ _ _⟩

theorem insertNext_spec (hD : 0 < D) (hi : i < N) (h : GapOrdered D i f) :
    ∃ g, insertNext D (ofFn N f) i = some (ofFn N g) ∧ GapOrdered D (i + 1) g ∧ SameClasses D N f g := by
  have hst : Rising D (i + 1) (update f i (f i)) i := by
    rw [update_eq_self]
    exact h.rising
  obtain ⟨g, j, hrun, hj, hord, hcls⟩ := shift_spec hD le_rfl hi hst
  rw [update_eq_self] at hcls
  refine ⟨update g j (f i), ?_, hord, hcls⟩
  rw [insertNext, ofFn_of_lt hi]
  simp only [bind_eq_bind, bind_some, hrun]
  rw [set_natCast (ofFn_of_lt hj), update_ofFn hj]

theorem insertAll_spec (hD : 0 < D) (h : GapOrdered D i f) (hi : i + n ≤ N) :
    ∃ g, (range' i n).foldlM (insertNext D) (ofFn N f) = some (ofFn N g) ∧ GapOrdered D (i + n) g ∧ SameClasses D N f g := by
  induction n generalizing i f with
  | zero => exact ⟨f, rfl, h, SameClasses.refl _ _ _⟩
  | succ n ih =>
    obtain ⟨g, hrun, hord, hcls⟩ := insertNext_spec hD (show i < N by omega) h
    obtain ⟨g', hrun', hord', hcls'⟩ := ih hord (by omega)
    refine ⟨g', ?_, ?_, hcls.trans hcls'⟩
    · rw [range'_succ, foldlM_cons, hrun]
      exact hrun'
    · rwa [add_assoc, add_comm 1 n] at hord'

/-- A pass orders the array at the distance of its gap, and moves values only within their classes. -/
theorem pass_spec (hD : 0 < D) (hDN : D ≤ N) (f : Nat → T) : ∃ g, pass N (ofFn N f) D = some (ofFn N g) ∧ GapOrdered D N g ∧ SameClasses D N f g := by
  have hst : GapOrdered D D f := by
    intro i hi
    omega
  obtain ⟨g, hrun, hord, hcls⟩ := insertAll_spec hD hst (show D + (N - D) ≤ N by omega)
  rw [Nat.add_sub_cancel' hDN] at hord
  exact ⟨g, hrun, hord, hcls⟩

/-! ## All passes -/

theorem mem_gaps_le {d : Nat} (h : d ∈ gaps D) : 0 < d ∧ d ≤ D := by
  induction D using Nat.strong_induction_on with
  | _ D ih =>
    rw [gaps] at h
    split_ifs at h with hD
    · rcases mem_cons.mp h with rfl | h
      · exact ⟨hD, le_rfl⟩
      · obtain ⟨hd, hle⟩ := ih (D / 2) (by omega) h
        exact ⟨hd, by omega⟩
    · cases h

theorem one_mem_gaps (h : 0 < D) : 1 ∈ gaps D := by
  induction D using Nat.strong_induction_on with
  | _ D ih =>
    rw [gaps, dif_pos h, mem_cons]
    by_cases hD : D = 1
    · exact Or.inl hD.symm
    · exact Or.inr (ih (D / 2) (by omega) (by omega))

/-- After some passes the array is ordered at the distance of the gap of each of them. -/
theorem passes_spec {ds : List Nat} (hds : ∀ d ∈ ds, 0 < d ∧ d ≤ N) (f : Nat → T) :
    ∃ g, ds.foldlM (pass N) (ofFn N f) = some (ofFn N g) ∧ bag N g = bag N f ∧ ∀ d ∈ ds, GapOrdered d N g := by
  induction ds using reverseRecOn with
  | nil => exact ⟨f, rfl, rfl, by simp⟩
  | append_singleton ds d ih =>
    obtain ⟨g, hrun, hbag, hord⟩ := ih fun e he => hds e (mem_append_left _ he)
    obtain ⟨hd, hdN⟩ := hds d (mem_append_right _ (mem_singleton_self d))
    obtain ⟨g', hrun', hord', hcls⟩ := pass_spec hd hdN g
    refine ⟨g', ?_, hcls.bag_eq.trans hbag, fun e he => ?_⟩
    · rw [foldlM_append, hrun]
      simp only [foldlM_cons, bind_eq_bind, bind_some, hrun']
      rfl
    · rcases mem_append.mp he with he | he
      · exact (hord e he).of_sameClasses hord' hcls
      · rw [mem_singleton.mp he]
        exact hord'

/-- A list is ordered at the distance `D`. -/
def OrderedAt (D : Nat) (xs : List T) : Prop := ∀ i a b, xs[i]? = some a → xs[i + D]? = some b → a ≤ b

theorem orderedAt_range_map (h : GapOrdered D N f) : OrderedAt D ((List.range N).map f) := by
  intro i a b ha hb
  obtain ⟨l, hl, rfl⟩ := getElem?_map .. ▸ ha |> map_eq_some_iff.mp
  obtain ⟨m, hm, rfl⟩ := getElem?_map .. ▸ hb |> map_eq_some_iff.mp
  obtain ⟨-, rfl⟩ := List.getElem?_eq_some_iff.mp hl
  obtain ⟨hlt, rfl⟩ := List.getElem?_eq_some_iff.mp hm
  rw [length_range] at hlt
  rw [getElem_range, getElem_range]
  exact h i hlt

theorem passes_ofList (xs : List T) {made rest : List Nat} (h : gaps (xs.length / 2) = made ++ rest) :
    ∃ zs, made.foldlM (pass xs.length) (ofList xs) = some (ofList zs) ∧ zs.Perm xs ∧ ∀ D ∈ made, OrderedAt D zs := by
  cases xs with
  | nil =>
    have hgaps : gaps (([] : List T).length / 2) = [] := by simp [gaps]
    obtain ⟨rfl, -⟩ := append_eq_nil_iff.mp (h.symm.trans hgaps)
    exact ⟨[], rfl, List.Perm.refl [], by simp⟩
  | cons x xs =>
    have : Inhabited T := ⟨x⟩
    obtain ⟨f, hf⟩ := exists_range_map (x :: xs)
    have hmade : ∀ d ∈ made, 0 < d ∧ d ≤ (x :: xs).length := by
      intro d hd
      obtain ⟨hpos, hle⟩ := mem_gaps_le (h ▸ mem_append_left rest hd)
      exact ⟨hpos, hle.trans (div_le_self _ 2)⟩
    obtain ⟨g, hrun, hbag, hord⟩ := passes_spec hmade f
    refine ⟨(range (x :: xs).length).map g, ?_, ?_, fun D hD => orderedAt_range_map (hord D hD)⟩
    · grind [ofFn_eq_ofList, length_map]
    · have hp := perm_of_bag_eq hbag
      rwa [hf] at hp

theorem OrderedAt.pairwise {xs : List T} (h : OrderedAt 1 xs) : xs.Pairwise (· ≤ ·) := by
  induction xs with
  | nil => exact Pairwise.nil
  | cons x xs ih =>
    have ht : xs.Pairwise (· ≤ ·) := ih fun i a b ha hb => h (i + 1) a b ha hb
    cases xs with
    | nil => exact pairwise_singleton _ x
    | cons y ys =>
      have hxy : x ≤ y := h 0 x y rfl rfl
      refine pairwise_cons.mpr ⟨fun z hz => ?_, ht⟩
      rcases mem_cons.mp hz with rfl | hz
      · exact hxy
      · exact hxy.trans ((pairwise_cons.mp ht).1 z hz)

/-- `Shell_sort` sorts every array. After the passes of any first part of the sequence of gaps the array is ordered at the distance of each of these
gaps: at that of the last one when its pass ends, and at those of the passes before still. -/
theorem shellSort_sorts (xs : List T) :
    (∃ ys, shellSort (Cells.ofList xs) xs.length = some (Cells.ofList ys) ∧ ys.Perm xs ∧ ys.Pairwise (· ≤ ·)) ∧
      ∀ made rest, gaps (xs.length / 2) = made ++ rest →
        ∃ zs, made.foldlM (pass xs.length) (Cells.ofList xs) = some (Cells.ofList zs) ∧ zs.Perm xs ∧ ∀ D ∈ made, OrderedAt D zs := by
  refine ⟨?_, fun made rest h => passes_ofList xs h⟩
  obtain ⟨ys, hrun, hperm, hordered⟩ := passes_ofList xs (append_nil _).symm
  refine ⟨ys, hrun, hperm, ?_⟩
  by_cases hlen : xs.length / 2 = 0
  · -- at most one element
    have hshort : ys.length ≤ 1 := by
      rw [hperm.length_eq]
      omega
    match ys, hshort with
    | [], _ => exact Pairwise.nil
    | [y], _ => exact pairwise_singleton _ y
  · exact (hordered 1 (one_mem_gaps (pos_of_ne_zero hlen))).pairwise

end CsLearning.Code.ShellSort
