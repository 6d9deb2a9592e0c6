import CsLearning.Lib.Cells
import CsLearning.Lib.StableSort

/-!
# Merge sort, recursive and bottom-up

`MergeSort` of `merge_sort_1.cc` and `Merge_Sort` of `merge_sort_2.c`, which uses the `Merge` of the former.

`Merge` sorts in place: it takes `mid` as the last index of the first run, works on a copy of `tmp`, and leaves the result in `arr`. The bottom-up
version passes the first index of the second run as `mid` and expects the result in its second array. The array it reads in its second pass
was never written, and with an array that is shared instead of copied the first two elements are never compared.
-/

open List Option Function Nat

namespace CsLearning.DsAlgo.MergeSort

open Cells

/-! ## The recursive version -/

section Recursive

variable {T : Type*} [LE T] [DecidableLE T]

/-- The loop of `Merge` over both runs: the array `tmp` and the indices `i`, `j` and `k` at its end. -/
def mergeRuns (arr : Cells T) (mid right : Nat) (tmp : Cells T) (i j k : Nat) : Option (Cells T × Nat × Nat × Nat) :=
  if i ≤ mid ∧ j ≤ right then do
    let a ← arr i
    let b ← arr j
    if a ≤ b then
      mergeRuns arr mid right (Function.update tmp k (some a)) (i + 1) j (k + 1)
    else
      mergeRuns arr mid right (Function.update tmp k (some b)) i (j + 1) (k + 1)
  else some (tmp, i, j, k)
termination_by (mid + 1 - i) + (right + 1 - j)

/-- The part of `Merge` that fills `tmp`: the loop over both runs, and the loops over what is left of one. -/
def mergeInto (arr : Cells T) (mid right : Nat) (tmp : Cells T) (i j k : Nat) : Option (Cells T) := do
  let (tmp, i, j, k) ← mergeRuns arr mid right tmp i j k
  let (tmp, k) ← Cells.copy arr (mid + 1) i tmp k
  let (tmp, _) ← Cells.copy arr (right + 1) j tmp k
  return tmp

/-- `Merge(arr, tmp, left, mid, right)`: both arrays at its end. -/
def merge (arr tmp : Cells T) (left mid right : Nat) : Option (Cells T × Cells T) := do
  let tmp ← mergeInto arr mid right tmp left (mid + 1) left
  let (arr, _) ← Cells.copy tmp (right + 1) left arr left
  return (arr, tmp)

/-- `Msort(arr, tmp, left, right)`: the array `arr` at its end. Every call has its own copy of `tmp`. -/
def msort (arr tmp : Cells T) (left right : Nat) : Option (Cells T) :=
  if left < right then do
    let mid := left + (right - left) / 2
    let arr ← msort arr tmp left mid
    let arr ← msort arr tmp (mid + 1) right
    let (arr, _) ← merge arr tmp left mid right
    return arr
  else some arr
termination_by right - left

/-- `MergeSort(arr)` for a vector of `size` elements, with `tmp` full of the default value of the type. -/
def mergeSort [Inhabited T] (arr : Cells T) (size : Nat) : Option (Cells T) :=
  msort arr (Cells.ofList (List.replicate size default)) 0 (size - 1)

/-! ### What `Merge` leaves -/

variable {arr tmp : Cells T} {left mid right i j : Nat} {xs ys : List T}

theorem mergeInto_of_end (hend : ¬(i ≤ mid ∧ j ≤ right)) (hxs : arr.Holds i xs) (hys : arr.Holds j ys) (hmid : i + xs.length = mid + 1)
    (hr : j + ys.length = right + 1) (tmp : Cells T) (k : Nat) :
    mergeInto arr mid right tmp i j k = some (tmp.store k (xs ++ ys)) := by
  rw [mergeInto, mergeRuns, if_neg hend]
  simp only [bind_eq_bind, bind_some, copy_eq hxs hmid, copy_eq hys hr, store_store_append]
  rfl

theorem mergeInto_round {x y : T} (hi : i ≤ mid) (hj : j ≤ right) (hx : arr i = some x) (hy : arr j = some y) (tmp : Cells T) (k : Nat) :
    mergeInto arr mid right tmp i j k = if x ≤ y then mergeInto arr mid right (update tmp k (some x)) (i + 1) j (k + 1)
      else mergeInto arr mid right (update tmp k (some y)) i (j + 1) (k + 1) := by
  unfold mergeInto
  rw [mergeRuns, if_pos ⟨hi, hj⟩, hx, hy]
  simp only [bind_eq_bind, bind_some]
  split_ifs
  · rfl
  · rfl

theorem mergeInto_eq (hxs : arr.Holds i xs) (hys : arr.Holds j ys) (hmid : i + xs.length = mid + 1) (hr : j + ys.length = right + 1)
    (tmp : Cells T) (k : Nat) : mergeInto arr mid right tmp i j k = some (tmp.store k (xs.merge ys)) := by
  -- one element of one of the runs is written in each round
  induction xs generalizing i j ys tmp k with
  | nil =>
    rw [length_nil] at hmid
    rw [mergeInto_of_end (by omega) hxs hys hmid hr, nil_merge, nil_append]
  | cons x xs ihx =>
    induction ys generalizing j tmp k with
    | nil =>
      rw [length_nil] at hr
      rw [mergeInto_of_end (by omega) hxs hys hmid hr, merge_right, append_nil]
    | cons y ys ihy =>
      have hx := hmid
      have hy := hr
      rw [length_cons] at hx hy
      rw [mergeInto_round (by omega) (by omega) hxs.1 hys.1, cons_merge_cons]
      by_cases hxy : x ≤ y
      · simp only [if_pos hxy, decide_eq_true hxy, if_true]
        exact ihx hxs.2 hys (by omega) hr _ _
      · simp only [if_neg hxy, decide_eq_false hxy]
        exact ihy hys.2 (by omega) _ _

theorem merge_eq (hxs : arr.Holds left xs) (hys : arr.Holds (mid + 1) ys) (hmid : left + xs.length = mid + 1)
    (hr : mid + 1 + ys.length = right + 1) (tmp : Cells T) :
    merge arr tmp left mid right = some (arr.store left (xs.merge ys), tmp.store left (xs.merge ys)) := by
  have hlen : left + (xs.merge ys).length = right + 1 := by
    rw [length_merge]
    omega
  rw [merge, mergeInto_eq hxs hys hmid hr]
  simp only [bind_eq_bind, bind_some, copy_eq (holds_store tmp left (xs.merge ys)) hlen]
  rfl

/-- The first cell of the first run was never written. -/
theorem merge_of_none (hl : left ≤ mid) (h : arr left = none) (tmp : Cells T) : merge arr tmp left mid right = none := by
  have hinto : mergeInto arr mid right tmp left (mid + 1) left = none := by
    rw [mergeInto, mergeRuns]
    split_ifs with hboth
    · rw [h]
      rfl
    · simp only [bind_eq_bind, bind_some, copy_of_none (lt_succ_of_le hl) h]
      rfl
  rw [merge, hinto]
  rfl

/-! ### The recursive version sorts -/

omit [LE T] [DecidableLE T] in
theorem holds_runs (c : Cells T) (ys : List T) (hmid : left + xs.length = mid + 1) :
    ((c.store left xs).store (mid + 1) ys).Holds left xs ∧ ((c.store left xs).store (mid + 1) ys).Holds (mid + 1) ys := by
  have hboth := holds_append.mp (holds_store c left (xs ++ ys))
  rwa [← store_store_append, hmid] at hboth

theorem merge_store (c tmp : Cells T) (hmid : left + xs.length = mid + 1) (hr : mid + 1 + ys.length = right + 1) :
    merge ((c.store left xs).store (mid + 1) ys) tmp left mid right = some (c.store left (xs.merge ys), tmp.store left (xs.merge ys)) := by
  grind [holds_runs, length_merge, merge_eq, store_store_append, store_store_of_le]

omit [LE T] [DecidableLE T] in
theorem exists_halves (hxs : arr.Holds left xs) (hlen : xs.length = right + 1 - left) (hl : left ≤ mid) (hr : mid < right) :
    ∃ xs1 xs2, xs = xs1 ++ xs2 ∧ left + xs1.length = mid + 1 ∧ mid + 1 + xs2.length = right + 1 ∧ arr.Holds left xs1 ∧ arr.Holds (mid + 1) xs2 := by
  obtain ⟨xs1, xs2, rfl, hlen1⟩ : ∃ xs1 xs2, xs = xs1 ++ xs2 ∧ left + xs1.length = mid + 1 := by
    refine ⟨xs.take (mid + 1 - left), xs.drop (mid + 1 - left), (take_append_drop _ _).symm, ?_⟩
    rw [length_take]
    omega
  obtain ⟨h₁, h₂⟩ := holds_append.mp hxs
  rw [length_append] at hlen
  exact ⟨xs1, xs2, rfl, hlen1, by omega, h₁, hlen1 ▸ h₂⟩

theorem msort_spec {K : Type*} [LinearOrder K] {key : T → K} (hkey : ∀ a b : T, a ≤ b ↔ key a ≤ key b) (hxs : arr.Holds left xs)
    (hlen : xs.length = right + 1 - left) (tmp : Cells T) : ∃ ys, StableSort key xs ys ∧ msort arr tmp left right = some (arr.store left ys) := by
  induction hn : right - left using Nat.strong_induction_on generalizing arr left right xs with
  | _ n ih =>
    rw [msort]
    by_cases hlt : left < right
    · rw [if_pos hlt]
      obtain ⟨mid, hmid⟩ : ∃ mid, left + (right - left) / 2 = mid := ⟨_, rfl⟩
      simp only [hmid]
      obtain ⟨xs1, xs2, rfl, hlen1, hlen2, h₁, h₂⟩ := exists_halves hxs hlen (by omega : left ≤ mid) (by omega)
      obtain ⟨ys1, hsort1, hrun1⟩ := ih (mid - left) (by omega) h₁ (by omega) rfl
      rw [← hsort1.length_eq] at hlen1
      have h2' : (arr.store left ys1).Holds (mid + 1) xs2 := h₂.store_before (by omega)
      obtain ⟨ys2, hsort2, hrun2⟩ := ih (right - (mid + 1)) (by omega) h2' (by omega) rfl
      rw [← hsort2.length_eq] at hlen2
      have hmerge := merge_store arr tmp hlen1 hlen2
      refine ⟨ys1.merge ys2, hsort1.merge hkey hsort2, ?_⟩
      simp only [hrun1, hrun2, bind_eq_bind, bind_some, hmerge]
      rfl
    · rw [if_neg hlt]
      exact ⟨xs, StableSort.of_length_le_one (by omega), by rw [store_eq_self hxs]⟩

theorem mergeSort_sorts [Inhabited T] {K : Type*} [LinearOrder K] {key : T → K} (hkey : ∀ a b : T, a ≤ b ↔ key a ≤ key b) (xs : List T) :
    ∃ ys, StableSort key xs ys ∧ mergeSort (ofList xs) xs.length = some (ofList ys) := by
  by_cases hxs : xs = []
  · subst hxs
    refine ⟨[], StableSort.of_length_le_one (by simp), ?_⟩
    rw [mergeSort, msort, if_neg (by simp)]
  · have hpos := length_pos_of_ne_nil hxs
    have hlen : xs.length = xs.length - 1 + 1 - 0 := by omega
    obtain ⟨ys, hsort, hrun⟩ := msort_spec hkey (holds_ofList xs) hlen (ofList (replicate xs.length default))
    refine ⟨ys, hsort, ?_⟩
    rw [mergeSort, hrun, store_ofList hsort.length_eq.symm]

end Recursive

/-! ## The bottom-up version -/

namespace BottomUp

/-- The second array of the caller after `Merge`, whose `tmp` is a copy of it. `shared` is for a `tmp` that is the caller's array itself, as an array
of C is. -/
def callerTmp (shared : Bool) (TmpA tmp : Cells Int) : Cells Int := if shared then tmp else TmpA

/-- The loop of `Merge_pass` over pairs of runs: both arrays and `i` at its end. The condition on `length`, which is at least 1, ends the loop. -/
def mergePairs (shared : Bool) (N length : Nat) (A TmpA : Cells Int) (i : Nat) : Option (Cells Int × Cells Int × Nat) :=
  if 0 < length ∧ i + 2 * length ≤ N then do
    let (A, tmp) ← merge A TmpA i (i + length) (i + 2 * length - 1)
    mergePairs shared N length A (callerTmp shared TmpA tmp) (i + 2 * length)
  else some (A, TmpA, i)
termination_by N - i

/-- `Merge_pass(A, TmpA, N, length)`: both arrays at its end. -/
def mergePass (shared : Bool) (A TmpA : Cells Int) (N length : Nat) : Option (Cells Int × Cells Int) := do
  let (A, TmpA, i) ← mergePairs shared N length A TmpA 0
  if i + length < N then
    let (A, tmp) ← merge A TmpA i (i + length) (N - 1)
    return (A, callerTmp shared TmpA tmp)
  else
    let (TmpA, _) ← Cells.copy A N i TmpA i
    return (A, TmpA)

/-- The loop of `Merge_Sort`: two passes, there and back. -/
def passes (shared : Bool) (N : Nat) (A TmpA : Cells Int) (length : Nat) : Option (Cells Int × Cells Int) :=
  if 0 < length ∧ length < N then do
    let (A, TmpA) ← mergePass shared A TmpA N length
    let (TmpA, A) ← mergePass shared TmpA A N (length * 2)
    passes shared N A TmpA (length * 2 * 2)
  else some (A, TmpA)
termination_by N - length

/-- `Merge_Sort(A, N)`: the array at its end. `malloc` is the new block, or none for a null pointer. -/
def mergeSort (shared : Bool) (malloc : Option (Cells Int)) (A : Cells Int) (N : Nat) : Option (Cells Int) :=
  match malloc with
  | none => some A
  | some TmpA => do
    let (A, _) ← passes shared N A TmpA 1
    return A

/-- A block in which nothing was written yet. -/
def fresh : Cells Int := fun _ => none

/-- The call leaves the sorted permutation of its input in the array, which is what the recursive version leaves there. -/
def Sorts (shared : Bool) (malloc : Option (Cells Int)) (A : List Int) : Prop :=
  ∃ B : List Int, mergeSort shared malloc (.ofList A) A.length = some (.ofList B) ∧ B.Perm A ∧ B.Pairwise (· ≤ ·) ∧
    MergeSort.mergeSort (.ofList A) A.length = some (.ofList B)

/-! ### With a copy of `tmp` -/

variable {shared : Bool} {N length i : Nat} {A TmpA : Cells Int}

theorem mergePairs_copy {A' T' : Cells Int} {i' : Nat} (h : mergePairs false N length A TmpA i = some (A', T', i')) : T' = TmpA ∧ i ≤ i' := by
  induction hn : N - i using Nat.strong_induction_on generalizing A i with
  | _ n ih =>
    rw [mergePairs] at h
    by_cases hrd : 0 < length ∧ i + 2 * length ≤ N
    · rw [if_pos hrd] at h
      obtain ⟨⟨A1, tmp⟩, -, hr⟩ := bind_eq_some_iff.mp h
      obtain ⟨htmp, hi⟩ := ih (N - (i + 2 * length)) (by omega) hr rfl
      exact ⟨htmp, by omega⟩
    · grind

/-- The first pass does not write the first cell of the second array. -/
theorem mergePass_first {A' T' : Cells Int} (hN : 2 ≤ N) (h : mergePass false A TmpA N 1 = some (A', T')) : T' 0 = TmpA 0 := by
  obtain ⟨⟨A1, T1, i⟩, hpairs, hr⟩ := bind_eq_some_iff.mp h
  rw [mergePairs, if_pos (by omega)] at hpairs
  obtain ⟨⟨A2, tmp⟩, -, hpairs⟩ := bind_eq_some_iff.mp hpairs
  obtain ⟨rfl, hi⟩ := mergePairs_copy hpairs
  dsimp only at hr
  split_ifs at hr
  · obtain ⟨⟨A3, tmp'⟩, -, hret⟩ := bind_eq_some_iff.mp hr
    obtain ⟨-, rfl⟩ := Prod.mk.inj (some.inj hret)
    rfl
  · obtain ⟨⟨T2, k⟩, hcopy, hret⟩ := bind_eq_some_iff.mp hr
    obtain ⟨-, rfl⟩ := Prod.mk.inj (some.inj hret)
    exact copy_of_lt hcopy (by omega)

/-- A pass has no outcome when the first cell of its first array was never written. -/
theorem mergePass_of_none (hN : 0 < N) (hlen : 0 < length) (h : A 0 = none) : mergePass shared A TmpA N length = none := by
  rw [mergePass, mergePairs]
  by_cases hrd : 0 + 2 * length ≤ N
  · rw [if_pos ⟨hlen, hrd⟩, merge_of_none (by omega) h]
    rfl
  · rw [if_neg fun hr => hrd hr.2, bind_eq_bind, bind_some]
    dsimp only
    split_ifs with htwo
    · rw [merge_of_none (by omega) h]
      rfl
    · rw [copy_of_none hN h]
      rfl

theorem mergeSort_of_two_le (hN : 2 ≤ N) (A : Cells Int) : mergeSort false (some fresh) A N = none := by
  rw [mergeSort, passes, if_pos (by omega)]
  cases hfst : mergePass false A fresh N 1 with
  | none => rfl
  | some r =>
    have hn : r.2 0 = none := mergePass_first hN hfst
    simp only [bind_eq_bind, bind_some, mergePass_of_none (by omega : 0 < N) (by omega : 0 < 1 * 2) hn]
    rfl

/-! ### With any block of memory -/

/-- The values are greater than the two at the beginning of the array. -/
def High (v : Int) (xs : List Int) : Prop := ∀ x ∈ xs, v + 2 ≤ x

/-- The cells from `k` on hold values greater than the two at the beginning of the array. -/
def HighFrom (v : Int) (N : Nat) (X : Cells Int) (k : Nat) : Prop := ∀ i, k ≤ i → i < N → ∃ x, X i = some x ∧ v + 2 ≤ x

/-- The two smallest values stand at the beginning in the wrong order, or they are not in the array. -/
def Stuck (v : Int) (N : Nat) (X : Cells Int) : Prop :=
  (X 0 = some (v + 1) ∧ X 1 = some v ∧ HighFrom v N X 2) ∨ HighFrom v N X 0

/-- The same for a part of the array: the beginning of it, or a part without the two first cells. -/
def Piece (v : Int) (l : Nat) (xs : List Int) : Prop :=
  (l = 0 ∧ ∃ rest, xs = (v + 1) :: v :: rest ∧ High v rest) ∨ ((l = 0 ∧ 2 ≤ xs.length ∨ 2 ≤ l) ∧ High v xs)

variable {v : Int} {X : Cells Int} {l n : Nat} {xs ys : List Int}

theorem HighFrom.mono {k k' : Nat} (h : HighFrom v N X k) (hk : k ≤ k') : HighFrom v N X k' := fun i hi hN => h i (hk.trans hi) hN

theorem Stuck.highFrom_two (h : Stuck v N X) : HighFrom v N X 2 := by
  rcases h with ⟨-, -, h⟩ | h
  · exact h
  · exact h.mono (zero_le 2)

theorem HighFrom.exists_holds {k : Nat} (h : HighFrom v N X k) (hk : k ≤ l) (hN : l + n ≤ N) : ∃ xs, xs.length = n ∧ X.Holds l xs ∧ High v xs :=
  Cells.exists_holds fun i hi hn => h i (by omega) (by omega)

theorem Stuck.piece (h : Stuck v N X) (hl : l = 0 ∧ 2 ≤ n ∨ 2 ≤ l) (hN : l + n ≤ N) : ∃ xs, xs.length = n ∧ X.Holds l xs ∧ Piece v l xs := by
  rcases h with ⟨h0, h1, h2⟩ | h
  · rcases hl with ⟨rfl, hn⟩ | hl
    · obtain ⟨rest, hlen, hr, hhigh⟩ := h2.exists_holds (le_refl 2) (by omega : 2 + (n - 2) ≤ N)
      exact ⟨(v + 1) :: v :: rest, by simp only [length_cons]; omega, ⟨h0, h1, hr⟩, .inl ⟨rfl, rest, rfl, hhigh⟩⟩
    · obtain ⟨xs, hlen, hxs, hhigh⟩ := h2.exists_holds hl hN
      exact ⟨xs, hlen, hxs, .inr ⟨.inr hl, hhigh⟩⟩
  · obtain ⟨xs, hlen, hxs, hhigh⟩ := h.exists_holds (zero_le l) hN
    exact ⟨xs, hlen, hxs, .inr ⟨by rwa [hlen], hhigh⟩⟩

theorem merge_cons_of_le {a : Int} (h : ∀ y ∈ ys, a ≤ y) : (a :: xs).merge ys = a :: xs.merge ys := by
  cases ys with
  | nil => rw [merge_right, merge_right]
  | cons y ys => rw [cons_merge_cons, if_pos (decide_eq_true (h y mem_cons_self))]

/-- The first run of a pair holds both cells at the beginning: they are merged with greater values only. -/
theorem Piece.merge (h : Piece v l xs) (hys : High v ys) : Piece v l (xs.merge ys) := by
  have hmem : ∀ zs, High v zs → High v (zs.merge ys) := by
    intro zs hzs x hx
    rcases mem_merge.mp hx with hx | hx
    · exact hzs x hx
    · exact hys x hx
  rcases h with ⟨rfl, rest, rfl, hr⟩ | ⟨hl, hxs⟩
  · refine .inl ⟨rfl, rest.merge ys, ?_, hmem rest hr⟩
    have h1 : ∀ y ∈ ys, v + 1 ≤ y := fun y hy => by have := hys y hy; omega
    have h2 : ∀ y ∈ ys, v ≤ y := fun y hy => by have := hys y hy; omega
    rw [merge_cons_of_le h1, merge_cons_of_le h2]
  · refine .inr ⟨?_, hmem xs hxs⟩
    rw [length_merge]
    omega

/-- Great values are written to the array, to all cells before `k` that are looked at among others. -/
theorem HighFrom.store {k k' : Nat} (h : HighFrom v N X k) (hxs : High v xs) (hk : ∀ i, k' ≤ i → i < k → l ≤ i ∧ i < l + xs.length) :
    HighFrom v N (X.store l xs) k' := by
  intro i hi hN
  rw [store_apply]
  split_ifs with hin
  · have hlt : i - l < xs.length := by omega
    exact ⟨xs[i - l], getElem?_eq_getElem hlt, hxs _ (getElem_mem hlt)⟩
  · refine h i ?_ hN
    by_contra hlt
    exact hin (hk i hi (by omega))

theorem Stuck.store (h : Stuck v N X) (hxs : Piece v l xs) : Stuck v N (X.store l xs) := by
  have htwo := h.highFrom_two
  rcases hxs with ⟨rfl, rest, rfl, hr⟩ | ⟨⟨rfl, hlen⟩ | hl, hxs⟩
  · -- the two cells at the beginning, and then the rest
    obtain ⟨h0, h1, -⟩ := holds_store X 0 ((v + 1) :: v :: rest)
    refine .inl ⟨h0, h1, ?_⟩
    have hupdate : HighFrom v N (update (update X 0 (some (v + 1))) 1 (some v)) 2 := by
      intro i hi hN
      rw [update_of_ne (by omega), update_of_ne (by omega)]
      exact htwo i hi hN
    exact hupdate.store hr (by omega)
  · exact .inr (htwo.store hxs (by omega))
  · rcases h with ⟨h0, h1, h2⟩ | h
    · refine .inl ⟨?_, ?_, h2.store hxs (by omega)⟩
      · rw [store_of_lt (by omega), h0]
      · rw [store_of_lt (by omega), h1]
    · exact .inr (h.store hxs (by omega))

theorem Stuck.merge (hA : Stuck v N A) (hT : Stuck v N TmpA) (hi : i = 0 ∨ 2 ≤ i) (hlen : 0 < length) {right : Nat} (hmid : i + length ≤ right)
    (hN : right < N) :
    ∃ A' tmp, MergeSort.merge A TmpA i (i + length) right = some (A', tmp) ∧ Stuck v N A' ∧ Stuck v N (callerTmp shared TmpA tmp) := by
  obtain ⟨xs, hxlen, hxs, hpiece⟩ := hA.piece (by omega : i = 0 ∧ 2 ≤ length + 1 ∨ 2 ≤ i) (by omega)
  obtain ⟨ys, hylen, hys, hhigh⟩ :=
    hA.highFrom_two.exists_holds (by omega : 2 ≤ i + length + 1) (by omega : i + length + 1 + (right - (i + length)) ≤ N)
  refine ⟨_, _, merge_eq hxs hys (by omega) (by omega) TmpA, hA.store (hpiece.merge hhigh), ?_⟩
  unfold callerTmp
  split_ifs
  · exact hT.store (hpiece.merge hhigh)
  · exact hT

theorem mergePairs_stuck (shared : Bool) (hlen : 0 < length) (hA : Stuck v N A) (hT : Stuck v N TmpA) (hi : i = 0 ∨ 2 ≤ i) (hN : i ≤ N) :
    ∃ A' T' i', mergePairs shared N length A TmpA i = some (A', T', i') ∧ Stuck v N A' ∧ Stuck v N T' ∧ (i' = 0 ∨ 2 ≤ i') ∧ i' ≤ N := by
  induction hn : N - i using Nat.strong_induction_on generalizing A TmpA i with
  | _ n ih =>
    rw [mergePairs]
    by_cases hrd : i + 2 * length ≤ N
    · obtain ⟨A1, tmp, hmerge, hA1, hT1⟩ := hA.merge hT hi hlen (by omega : i + length ≤ i + 2 * length - 1) (by omega)
      rw [if_pos ⟨hlen, hrd⟩, hmerge]
      exact ih (N - (i + 2 * length)) (by omega) hA1 hT1 (by omega) hrd rfl
    · rw [if_neg fun hr => hrd hr.2]
      exact ⟨A, TmpA, i, rfl, hA, hT, hi, hN⟩

theorem mergePass_stuck (shared : Bool) (hlen : 0 < length) (hN : 2 ≤ N) (hA : Stuck v N A) (hT : Stuck v N TmpA) :
    ∃ A' T', mergePass shared A TmpA N length = some (A', T') ∧ Stuck v N A' ∧ Stuck v N T' := by
  obtain ⟨A1, T1, i, hpairs, hA1, hT1, hi, hiN⟩ := mergePairs_stuck shared hlen hA hT (.inl rfl) (zero_le N)
  rw [mergePass, hpairs, bind_eq_bind, bind_some]
  dsimp only
  by_cases htwo : i + length < N
  · obtain ⟨A2, tmp, hmerge, hA2, hT2⟩ := hA1.merge hT1 hi hlen (by omega : i + length ≤ N - 1) (by omega)
    rw [if_pos htwo, hmerge]
    exact ⟨A2, _, rfl, hA2, hT2⟩
  · obtain ⟨xs, hxlen, hxs, hpiece⟩ := hA1.piece (by omega : i = 0 ∧ 2 ≤ N - i ∨ 2 ≤ i) (by omega)
    rw [if_neg htwo, copy_eq hxs (by omega)]
    exact ⟨A1, _, rfl, hA1, hT1.store hpiece⟩

theorem passes_stuck (shared : Bool) (hN : 2 ≤ N) (hlen : 0 < length) (hA : Stuck v N A) (hT : Stuck v N TmpA) :
    ∃ A' T', passes shared N A TmpA length = some (A', T') ∧ Stuck v N A' := by
  induction hn : N - length using Nat.strong_induction_on generalizing A TmpA length with
  | _ n ih =>
    rw [passes]
    by_cases hrd : length < N
    · obtain ⟨A1, T1, hpass1, hA1, hT1⟩ := mergePass_stuck shared hlen hN hA hT
      obtain ⟨T2, A2, hpass2, hT2, hA2⟩ := mergePass_stuck shared (by omega : 0 < length * 2) hN hT1 hA1
      rw [if_pos ⟨hlen, hrd⟩, hpass1, bind_eq_bind, bind_some]
      dsimp only
      rw [hpass2]
      exact ih (N - length * 2 * 2) (by omega) (by omega) hA2 hT2 rfl
    · rw [if_neg fun hr => hrd hr.2]
      exact ⟨A, TmpA, rfl, hA⟩

theorem exists_high (block : List Int) : ∃ v, High v block := by
  induction block with
  | nil => exact ⟨0, by simp [High]⟩
  | cons x xs ih =>
    obtain ⟨v, hv⟩ := ih
    refine ⟨min v (x - 2), ?_⟩
    intro y hy
    rcases mem_cons.mp hy with rfl | hy
    · omega
    · have := hv y hy
      omega

theorem stuck_ofList (hxs : High v xs) : Stuck v xs.length (.ofList xs) := by
  refine .inr ?_
  intro i _ hi
  exact ⟨xs[i], getElem?_eq_getElem hi, hxs _ (getElem_mem hi)⟩

theorem not_stuck_of_sorted (hv : v ∈ xs) (hxs : xs.Pairwise (· ≤ ·)) : ¬Stuck v xs.length (.ofList xs) := by
  intro h
  cases xs with
  | nil => simp at hv
  | cons x xs =>
    have hle : x ≤ v := by grind [rel_of_pairwise_cons]
    rcases h with ⟨h0, -, -⟩ | h
    · obtain rfl : x = v + 1 := some.inj h0
      omega
    · obtain ⟨y, hy, hge⟩ := h 0 (le_refl 0) (by simp)
      obtain rfl : x = y := some.inj hy
      omega

/-- Whatever the block holds and however `tmp` is passed, some array of every length from 2 on is not sorted. -/
theorem exists_not_sorts (shared : Bool) (block : List Int) (hN : 2 ≤ block.length) :
    ∃ A, A.length = block.length ∧ ¬Sorts shared (some (.ofList block)) A := by
  -- two values below all those of the block, in the wrong order
  obtain ⟨v, hv⟩ := exists_high block
  have hr : High v (replicate (block.length - 2) (v + 2)) := fun x hx => (eq_of_mem_replicate hx).ge
  obtain ⟨A, hA⟩ : ∃ A, A = (v + 1) :: v :: replicate (block.length - 2) (v + 2) := ⟨_, rfl⟩
  have hlen : A.length = block.length := by grind
  have hstuck : Stuck v A.length (.ofList A) := by
    have h := (stuck_ofList hv).store (.inl ⟨rfl, _, rfl, hr⟩)
    rwa [← hA, store_ofList hlen.symm, ← hlen] at h
  refine ⟨A, hlen, ?_⟩
  rintro ⟨B, hrun, hp, hsort, -⟩
  have hblock := stuck_ofList hv
  rw [← hlen] at hblock
  obtain ⟨A', T', hpasses, hA'⟩ := passes_stuck shared (by omega : 2 ≤ A.length) one_pos hstuck hblock
  rw [mergeSort, hpasses] at hrun
  obtain rfl : A' = .ofList B := some.inj hrun
  rw [← hp.length_eq] at hA'
  refine not_stuck_of_sorted (hp.mem_iff.mpr ?_) hsort hA'
  rw [hA]
  simp

/-- With the `Merge` of the recursive version, `Merge_Sort` sorts the arrays of at most one element only: from two elements on, it reads cells of
the new block that were never written. If these reads give some values, or if `Merge` works on the caller's array in place of a copy, there is still
for every length from 2 on an array that is not sorted. -/
theorem bottomUp_sorts_iff (A : List Int) :
    (Sorts false (some fresh) A ↔ A.length ≤ 1) ∧
    ∀ shared (block : List Int), 2 ≤ block.length → ∃ X, X.length = block.length ∧ ¬Sorts shared (some (.ofList block)) X := by
  refine ⟨?_, exists_not_sorts⟩
  constructor
  · rintro ⟨B, hrun, -⟩
    by_contra hlen
    rw [mergeSort_of_two_le (by omega)] at hrun
    exact absurd hrun (by simp)
  · intro hlen
    obtain ⟨B, ⟨hperm, hsorted, -⟩, hrun⟩ := mergeSort_sorts (fun _ _ => Iff.rfl : ∀ a b : Int, a ≤ b ↔ id a ≤ id b) A
    have hBA : B = A := by
      rcases A with _ | ⟨a, _ | ⟨b, A⟩⟩
      · exact hperm.eq_nil
      · exact perm_singleton.mp hperm
      · simp at hlen
    refine ⟨B, ?_, hperm, hsorted, hrun⟩
    rw [mergeSort, passes, if_neg (by omega), hBA]
    rfl

/-- Two elements in the wrong order: the second pass reads the new block; a `Merge` that works on the caller's array leaves them as they are. -/
theorem bottomUp_two :
    mergeSort false (some fresh) (.ofList [2, 1]) 2 = none ∧ ¬Sorts false (some fresh) [2, 1] ∧
    mergeSort true (some fresh) (.ofList [2, 1]) 2 = some (.ofList [2, 1]) := by
  have hnone : mergeSort false (some fresh) (.ofList [2, 1]) 2 = none := mergeSort_of_two_le (le_refl 2) _
  refine ⟨hnone, ?_, ?_⟩
  · rintro ⟨B, hrun, -⟩
    rw [length_cons, length_singleton, hnone] at hrun
    exact absurd hrun (by simp)
  · have hmerge : MergeSort.merge (.ofList [2, 1]) fresh 0 1 1 = some (.ofList [2, 1], fresh.store 0 [2, 1]) := by
      have hempty : (ofList [2, 1] : Cells Int).Holds (1 + 1) [] := trivial
      rw [merge_eq (holds_ofList [2, 1]) hempty rfl rfl, merge_right, store_ofList rfl]
    have hfirst : mergePass true (.ofList [2, 1]) fresh 2 1 = some (.ofList [2, 1], fresh.store 0 [2, 1]) := by
      simp [mergePass, mergePairs, hmerge, callerTmp, copy]
    have hback : copy (fresh.store 0 [2, 1]) 2 0 (.ofList [2, 1]) 0 = some (.ofList [2, 1], 2) := by
      have h := copy_eq (holds_store fresh 0 [2, 1]) (rfl : 0 + 2 = 2) (.ofList [2, 1]) 0
      rwa [store_ofList rfl] at h
    have hsecond : mergePass true (fresh.store 0 [2, 1]) (.ofList [2, 1]) 2 2 = some (fresh.store 0 [2, 1], .ofList [2, 1]) := by
      simp [mergePass, mergePairs, hback]
    have hlast : passes true 2 (.ofList [2, 1]) (fresh.store 0 [2, 1]) 4 = some (.ofList [2, 1], fresh.store 0 [2, 1]) := by
      rw [passes, if_neg (by omega)]
    rw [mergeSort, passes, hfirst]
    simp [hsecond, hlast]

end BottomUp

end CsLearning.DsAlgo.MergeSort
