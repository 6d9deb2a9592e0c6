import CsLearning.Lib.Cells
import CsLearning.Lib.Word

/-!
# The greatest sum of a part of an array

`MaxSubseqSum` of `最大子列和问题.c`. `ThisSum` is set to zero only in the branch where it is not greater than `MaxSum`; since `MaxSum` is never negative,
a negative `ThisSum` always comes to that branch. So after every round `ThisSum` is the greatest sum of the elements from some place on, or zero, and
before that it was the sum of a part of the array. Sums that do not fit in an `int` have no outcome.
-/

open List

namespace CsLearning.Code.MaxSubseqSum

open Cells

/-- The body of the loop, in which `ThisSum` and `MaxSum` are the variables. -/
def sumStep (A : Cells Int) : Int × Int → Nat → Option (Int × Int)
  | (ThisSum, MaxSum), i => do
    let a ← A i
    let ThisSum ← Word.addInt ThisSum a
    return if ThisSum > MaxSum then (ThisSum, ThisSum) else if ThisSum < 0 then (0, MaxSum) else (ThisSum, MaxSum)

/-- `MaxSubseqSum(A, N)`. -/
def maxSubseqSum (A : Cells Int) (N : Nat) : Option Int := do
  let (_, MaxSum) ← (List.range N).foldlM (sumStep A) (0, 0)
  return MaxSum

/-- The sums of the parts of an array. -/
def partSums (xs : List Int) : Set Int := {s | ∃ ys, ys <:+: xs ∧ ys.sum = s}

/-- The sums of the elements from some place on. -/
def lastSums (xs : List Int) : Set Int := {s | ∃ ys, ys <:+ xs ∧ ys.sum = s}

/-- The sums fit in an `int`. -/
def SumsFit (xs : List Int) : Prop := ∀ s ∈ partSums xs, -2 ^ 31 ≤ s ∧ s < 2 ^ 31

variable {xs : List Int} {this max a : Int}

/-- What the variables are after some rounds. -/
structure Best (xs : List Int) (this max : Int) : Prop where
  last : IsGreatest (lastSums xs) this
  part : IsGreatest (partSums xs) max

theorem Best.nil : Best [] 0 0 := by
  refine ⟨⟨⟨[], suffix_refl [], rfl⟩, ?_⟩, ⟨[], nil_infix, rfl⟩, ?_⟩
  · rintro s ⟨ys, hys, rfl⟩
    rw [suffix_nil.mp hys, sum_nil]
  · rintro s ⟨ys, hys, rfl⟩
    rw [infix_nil.mp hys, sum_nil]

theorem Best.max_nonneg (h : Best xs this max) : 0 ≤ max := h.part.2 ⟨[], nil_infix, rfl⟩

theorem Best.add_mem (h : Best xs this max) (a : Int) : this + a ∈ lastSums (xs ++ [a]) := by
  obtain ⟨ys, hys, hsum⟩ := h.last.1
  refine ⟨ys ++ [a], suffix_concat_iff.mpr (Or.inr ⟨ys, rfl, hys⟩), ?_⟩
  rw [sum_append, sum_singleton, hsum]

theorem Best.lastSums_le (h : Best xs this max) {s : Int} (hs : s ∈ lastSums (xs ++ [a])) : s = 0 ∨ s ≤ this + a := by
  obtain ⟨ys, hys, rfl⟩ := hs
  rcases suffix_concat_iff.mp hys with rfl | ⟨zs, rfl, hzs⟩
  · exact Or.inl sum_nil
  · rw [sum_append, sum_singleton]
    exact Or.inr (Int.add_le_add_right (h.last.2 ⟨zs, hzs, rfl⟩) a)

/-- A part of the elements up to the next one ends there, or is a part of the elements before. -/
theorem Best.partSums_cases (h : Best xs this max) {s : Int} (hs : s ∈ partSums (xs ++ [a])) : s ∈ lastSums (xs ++ [a]) ∨ s ≤ max := by
  obtain ⟨ys, hys, rfl⟩ := hs
  rcases infix_concat_iff.mp hys with hys | hys
  · exact Or.inl ⟨ys, hys, rfl⟩
  · exact Or.inr (h.part.2 ⟨ys, hys, rfl⟩)

theorem lastSums_subset (xs : List Int) : lastSums xs ⊆ partSums xs := by
  rintro s ⟨ys, hys, rfl⟩
  exact ⟨ys, hys.isInfix, rfl⟩

theorem partSums_mono (xs : List Int) (a : Int) : partSums xs ⊆ partSums (xs ++ [a]) := by
  rintro s ⟨ys, hys, rfl⟩
  exact ⟨ys, infix_concat_iff.mpr (Or.inr hys), rfl⟩

theorem Best.step (h : Best xs this max) (a : Int) :
    Best (xs ++ [a]) (if this + a > max then this + a else if this + a < 0 then 0 else this + a) (if this + a > max then this + a else max) := by
  have hmax := h.max_nonneg
  have h0 : (0 : Int) ∈ lastSums (xs ++ [a]) := ⟨[], nil_suffix, rfl⟩
  have hadd := h.add_mem a
  by_cases hgt : this + a > max
  · -- a sum greater than `max` is not negative
    rw [if_pos hgt, if_pos hgt]
    have hl : ∀ s ∈ lastSums (xs ++ [a]), s ≤ this + a := by
      intro s hs
      rcases h.lastSums_le hs with rfl | hle
      · exact hmax.trans hgt.le
      · exact hle
    refine ⟨⟨hadd, hl⟩, lastSums_subset _ hadd, fun s hs => ?_⟩
    rcases h.partSums_cases hs with hs | hle
    · exact hl s hs
    · exact hle.trans hgt.le
  · rw [if_neg hgt, if_neg hgt]
    rw [not_lt] at hgt
    have hpart : IsGreatest (partSums (xs ++ [a])) max := by
      refine ⟨partSums_mono xs a h.part.1, fun s hs => ?_⟩
      rcases h.partSums_cases hs with hs | hle
      · rcases h.lastSums_le hs with rfl | hle
        · exact hmax
        · exact hle.trans hgt
      · exact hle
    by_cases hneg : this + a < 0
    · rw [if_pos hneg]
      refine ⟨⟨h0, fun s hs => ?_⟩, hpart⟩
      rcases h.lastSums_le hs with rfl | hle
      · exact le_rfl
      · exact hle.trans hneg.le
    · rw [if_neg hneg]
      refine ⟨⟨hadd, fun s hs => ?_⟩, hpart⟩
      rcases h.lastSums_le hs with rfl | hle
      · exact not_lt.mp hneg
      · exact hle

theorem loop_spec (A : Cells Int) (hA : A.Holds 0 xs) (hfit : SumsFit xs) :
    ∃ this max, (List.range xs.length).foldlM (sumStep A) (0, 0) = some (this, max) ∧ Best xs this max := by
  induction xs using List.reverseRecOn with
  | nil => exact ⟨0, 0, rfl, Best.nil⟩
  | append_singleton xs a ih =>
    obtain ⟨hxs, ha, -⟩ := holds_append.mp hA
    obtain ⟨this, max, hrun, hbest⟩ := ih hxs fun s hs => hfit s (partSums_mono xs a hs)
    have hadd : Word.addInt this a = some (this + a) := if_pos (hfit _ (lastSums_subset _ (hbest.add_mem a)))
    refine ⟨_, _, ?_, hbest.step a⟩
    rw [length_append, length_singleton, range_succ, List.foldlM_append, hrun]
    rw [Nat.zero_add] at ha
    simp only [foldlM_cons, Option.bind_eq_bind, Option.bind_some, sumStep, ha, hadd, Option.pure_def]
    split_ifs <;> rfl

/-- When all sums of parts fit in an `int`, `MaxSubseqSum` comes to an end without an overflow, and returns the greatest of them. -/
theorem maxSubseqSum_greatest (hfit : SumsFit xs) : ∃ v, maxSubseqSum (Cells.ofList xs) xs.length = some v ∧ IsGreatest (partSums xs) v := by
  obtain ⟨this, max, hrun, hbest⟩ := loop_spec (ofList xs) (holds_ofList xs) hfit
  refine ⟨max, ?_, hbest.part⟩
  rw [maxSubseqSum, hrun]
  rfl

theorem sumsFit_iff : SumsFit xs ↔ ∀ zs ∈ xs.tails, ∀ ys ∈ zs.inits, -2 ^ 31 ≤ ys.sum ∧ ys.sum < 2 ^ 31 := by
  constructor
  · intro h zs hzs ys hys
    exact h ys.sum ⟨ys, infix_iff_prefix_suffix.mpr ⟨zs, (mem_inits _ _).mp hys, (mem_tails _ _).mp hzs⟩, rfl⟩
  · rintro h s ⟨ys, hys, rfl⟩
    obtain ⟨zs, hfront, hb⟩ := infix_iff_prefix_suffix.mp hys
    exact h zs ((mem_tails _ _).mpr hb) ys ((mem_inits _ _).mpr hfront)

/-- The sample of the source. -/
theorem maxSubseqSum_greatest_sample :
    ∃ v, maxSubseqSum (Cells.ofList [-2, 11, -4, 13, -5, -2]) 6 = some v ∧ IsGreatest (partSums [-2, 11, -4, 13, -5, -2]) v :=
  maxSubseqSum_greatest (sumsFit_iff.mpr (by decide))

end CsLearning.Code.MaxSubseqSum
