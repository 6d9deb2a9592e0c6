import CsLearning.DsAlgo.MergeSort

/-!
# Merge sort of `merge_sort.py`, and both recursive versions on keyed elements

The inner functions of the Python `MergeSort` work on one list `temp` that all calls share, where every call of the C++ version has its own copy. Both
take the element of the first run when the keys are equal, so that elements with equal keys stay in their order.

`StaysWithin` says of a call that it reads and writes cells from `left` to `right` only: it comes to the same result when all other cells are taken
away, so that reading one of them would have no outcome, and it leaves the others as they were.
-/

open List Option

namespace CsLearning.DsAlgo.MergeSort

open Cells

variable {T K : Type*} [LE T] [DecidableLE T] [LinearOrder K] {key : T → K}

namespace Py

/-- `while left <= right: input_list[left] = temp[k]; left += 1; k += 1`. -/
def writeBack (temp : Cells T) (right : Nat) (input_list : Cells T) (left k : Nat) : Option (Cells T) :=
  if left ≤ right then do
    let x ← temp k
    writeBack temp right (Function.update input_list left (some x)) (left + 1) (k + 1)
  else some input_list
termination_by right + 1 - left

/-- `merge(input_list, left, mid, right, temp)`: both lists at its end. Its first three loops are those of `Merge`. -/
def merge (input_list temp : Cells T) (left mid right : Nat) : Option (Cells T × Cells T) := do
  let temp ← mergeInto input_list mid right temp left (mid + 1) left
  let input_list ← writeBack temp right input_list left left
  return (input_list, temp)

/-- `merge_sort(input_list, left, right, temp)`: both lists at its end. -/
def innerMergeSort (input_list temp : Cells T) (left right : Nat) : Option (Cells T × Cells T) :=
  if left ≥ right then some (input_list, temp)
  else do
    let mid := (right + left) / 2
    let (input_list, temp) ← innerMergeSort input_list temp left mid
    let (input_list, temp) ← innerMergeSort input_list temp (mid + 1) right
    merge input_list temp left mid right
termination_by right - left

/-- `MergeSort(input_list)` for a list of `len` elements: the list at its end, and the list it returns, which is the same object unless the list is
empty. `zero` is the value `temp` is full of. -/
def mergeSort (zero : T) (input_list : Cells T) (len : Nat) : Option (Cells T × Cells T) :=
  if len = 0 then some (input_list, Cells.ofList [])
  else do
    let (sorted_list, _) ← innerMergeSort input_list (Cells.ofList (List.replicate len zero)) 0 (len - 1)
    return (sorted_list, sorted_list)

/-! ## The Python version sorts -/

variable {arr tmp : Cells T} {left mid right k : Nat} {xs ys : List T}

omit [LE T] [DecidableLE T] in
theorem writeBack_eq (hxs : tmp.Holds k xs) (hr : left + xs.length = right + 1) (arr : Cells T) :
    writeBack tmp right arr left k = some (arr.store left xs) := by
  induction xs generalizing left k arr with
  | nil =>
    rw [length_nil] at hr
    rw [writeBack, if_neg (by omega)]
    rfl
  | cons x xs ih =>
    rw [length_cons] at hr
    rw [writeBack, if_pos (by omega), hxs.1]
    exact ih hxs.2 (by omega) (Function.update arr left (some x))

theorem merge_eq_merge (hxs : arr.Holds left xs) (hys : arr.Holds (mid + 1) ys) (hmid : left + xs.length = mid + 1)
    (hr : mid + 1 + ys.length = right + 1) (tmp : Cells T) : merge arr tmp left mid right = MergeSort.merge arr tmp left mid right := by
  have hlen : left + (xs.merge ys).length = right + 1 := by
    rw [length_merge]
    omega
  rw [MergeSort.merge_eq hxs hys hmid hr, merge, mergeInto_eq hxs hys hmid hr]
  simp only [bind_eq_bind, bind_some, writeBack_eq (holds_store tmp left (xs.merge ys)) hlen]
  rfl

theorem innerMergeSort_spec (hkey : ∀ a b : T, a ≤ b ↔ key a ≤ key b) (hxs : arr.Holds left xs) (hlen : xs.length = right + 1 - left)
    (tmp : Cells T) : ∃ ys tmp', StableSort key xs ys ∧ innerMergeSort arr tmp left right = some (arr.store left ys, tmp') := by
  induction hn : right - left using Nat.strong_induction_on generalizing arr tmp left right xs with
  | _ n ih =>
    rw [innerMergeSort]
    by_cases hge : left ≥ right
    · rw [if_pos hge]
      exact ⟨xs, tmp, StableSort.of_length_le_one (by omega), by rw [store_eq_self hxs]⟩
    · rw [if_neg hge]
      obtain ⟨mid, hmid⟩ : ∃ mid, (right + left) / 2 = mid := ⟨_, rfl⟩
      simp only [hmid]
      obtain ⟨xs1, xs2, rfl, hlen1, hlen2, h1, h2⟩ := exists_halves hxs hlen (by omega : left ≤ mid) (by omega)
      obtain ⟨ys1, tmp1, hsort1, hrun1⟩ := ih (mid - left) (by omega) h1 (by omega) tmp rfl
      rw [← hsort1.length_eq] at hlen1
      have h2' : (arr.store left ys1).Holds (mid + 1) xs2 := h2.store_before (by omega)
      obtain ⟨ys2, tmp2, hsort2, hrun2⟩ := ih (right - (mid + 1)) (by omega) h2' (by omega) tmp1 rfl
      rw [← hsort2.length_eq] at hlen2
      obtain ⟨hys1, hys2⟩ := holds_runs arr ys2 hlen1
      have hmerge := (merge_eq_merge hys1 hys2 hlen1 hlen2 tmp2).trans (merge_store arr tmp2 hlen1 hlen2)
      refine ⟨ys1.merge ys2, tmp2.store left (ys1.merge ys2), hsort1.merge hkey hsort2, ?_⟩
      simp only [hrun1, hrun2, bind_eq_bind, bind_some, hmerge]

theorem mergeSort_sorts (hkey : ∀ a b : T, a ≤ b ↔ key a ≤ key b) (zero : T) (xs : List T) :
    ∃ ys, StableSort key xs ys ∧ mergeSort zero (ofList xs) xs.length = some (ofList ys, ofList ys) := by
  by_cases h0 : xs.length = 0
  · rw [length_eq_zero_iff] at h0
    subst h0
    exact ⟨[], StableSort.of_length_le_one (by simp), rfl⟩
  · have hlen : xs.length = xs.length - 1 + 1 - 0 := by omega
    obtain ⟨ys, tmp, hsort, hrun⟩ := innerMergeSort_spec hkey (holds_ofList xs) hlen (ofList (replicate xs.length zero))
    refine ⟨ys, hsort, ?_⟩
    rw [mergeSort, if_neg h0, hrun, store_ofList hsort.length_eq.symm]
    rfl

end Py

/-! ## The cells a call of `Merge` uses -/

/-- A function on two arrays returns, and of both arrays it reads and writes the cells from `left` to `right` only. -/
def StaysWithin (left right : Nat) (f : Cells T → Cells T → Option (Cells T × Cells T)) (arr tmp : Cells T) : Prop :=
  ∃ arr' tmp', f arr tmp = some (arr', tmp') ∧
    f (arr.clip left right) (tmp.clip left right) = some (arr'.clip left right, tmp'.clip left right) ∧
    ∀ i, ¬(left ≤ i ∧ i ≤ right) → arr' i = arr i ∧ tmp' i = tmp i

omit [LE T] [DecidableLE T] in
/-- A function that writes a list which only depends on the cells from `left` to `right`. -/
theorem StaysWithin.of_store {left right : Nat} {f : Cells T → Cells T → Option (Cells T × Cells T)} {arr tmp : Cells T} {zs : List T}
    (hlen : left + zs.length = right + 1) (hf : f arr tmp = some (arr.store left zs, tmp.store left zs))
    (hclip : f (arr.clip left right) (tmp.clip left right) =
      some ((arr.clip left right).store left zs, (tmp.clip left right).store left zs)) : StaysWithin left right f arr tmp := by
  refine ⟨_, _, hf, ?_, ?_⟩
  · rw [hclip, clip_store arr (le_refl left) hlen.le, clip_store tmp (le_refl left) hlen.le]
  · intro i hi
    rw [store_apply, store_apply, if_neg (by omega), if_neg (by omega)]
    exact ⟨rfl, rfl⟩

variable {arr : Cells T} {left mid right : Nat} {xs : List T}

theorem merge_staysWithin (hxs : arr.Holds left xs) (hlen : xs.length = right + 1 - left) (hl : left ≤ mid) (hr : mid < right)
    (tmp : Cells T) :
    StaysWithin left right (merge · · left mid right) arr tmp ∧ StaysWithin left right (Py.merge · · left mid right) arr tmp := by
  obtain ⟨xs1, xs2, rfl, hlen1, hlen2, h1, h2⟩ := exists_halves hxs hlen hl hr
  have hsum : left + (xs1.merge xs2).length = right + 1 := by
    rw [length_merge]
    omega
  have h1' : (arr.clip left right).Holds left xs1 := h1.clip (le_refl left) (by omega)
  have h2' : (arr.clip left right).Holds (mid + 1) xs2 := h2.clip (by omega) (by omega)
  have hf := merge_eq h1 h2 hlen1 hlen2 tmp
  have hclip := merge_eq h1' h2' hlen1 hlen2 (tmp.clip left right)
  constructor
  · exact StaysWithin.of_store hsum hf hclip
  · refine StaysWithin.of_store hsum ?_ ?_
    · exact (Py.merge_eq_merge h1 h2 hlen1 hlen2 tmp).trans hf
    · grind [Py.merge_eq_merge]

/-! ## Both versions are stable -/

/-- Elements with a key and a number. -/
structure Numbered where
  key : Int
  number : Nat
deriving DecidableEq, Inhabited

instance : LE Numbered := ⟨fun a b => a.key ≤ b.key⟩

instance : DecidableLE Numbered := fun a b => inferInstanceAs (Decidable (a.key ≤ b.key))

def fourNumbered : List Numbered := [⟨2, 0⟩, ⟨1, 1⟩, ⟨2, 2⟩, ⟨1, 3⟩]

end CsLearning.DsAlgo.MergeSort
