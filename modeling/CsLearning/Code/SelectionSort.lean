import CsLearning.Code.QuickSort

/-!
# Selection sort in three languages

`selection_sort.cpp` exchanges each element with the smallest one from there on. `selection_sort.go` and `selection_sort.py` move the smallest element
to a new list until none is left; the Go version removes it from a slice with `append(arr[:k], arr[k+1:]...)`, which shifts the elements behind it in
the array the slice is a part of.

`Selected xs ys` says that `ys` are the elements of `xs` in an order in which each is a smallest one of those that are left. Each version does so.
-/

open List Option Nat

namespace CsLearning.Code.SelectionSort

open Cells

variable {T : Type} [LinearOrder T]

/-! ## The code -/

/-- The body of the loop of `findSmallest`, in which `smallest` and `smallest_index` are the variables. -/
def scanStep (read : Nat → Option T) : T × Nat → Nat → Option (T × Nat)
  | (smallest, smallest_index), i => do
    let a ← read i
    return if a < smallest then (a, i) else (smallest, smallest_index)

/-- `findSmallest` of a sequence with `len` elements: the index of the smallest one. The first one must exist. -/
def findSmallestOf (read : Nat → Option T) (len : Nat) : Option Nat := do
  let smallest ← read 0
  let (_, smallest_index) ← (List.range' 1 (len - 1)).foldlM (scanStep read) (smallest, 0)
  return smallest_index

namespace Cpp

/-- The body of the inner loop of `selection_sort`. -/
def scanStep (arr : Cells T) (smallest_index j : Nat) : Option Nat := do
  let a ← arr j
  let b ← arr smallest_index
  return if a < b then j else smallest_index

/-- The body of the outer loop of `selection_sort`. -/
def sortStep (N : Nat) (arr : Cells T) (i : Nat) : Option (Cells T) := do
  let smallest_index ← (List.range' (i + 1) (N - (i + 1))).foldlM (scanStep arr) i
  QuickSort.swap arr i smallest_index

/-- `selection_sort(arr, N)`. -/
def selectionSort (arr : Cells T) (N : Nat) : Option (Cells T) := (List.range (N - 1)).foldlM (sortStep N) arr

end Cpp

namespace Go

/-- A slice: a part of an array, which may grow up to its capacity. -/
structure Slice where
  start : Nat
  len : Nat
  cap : Nat
  len_le : len ≤ cap

/-- `s[i]`. -/
def Slice.read (s : Slice) (array : Cells T) (i : Nat) : Option T := if i < s.len then array (s.start + i) else none

/-- `s[:k]`. -/
def Slice.upTo (s : Slice) (k : Nat) : Option Slice := if h : k ≤ s.cap then some ⟨s.start, k, s.cap, h⟩ else none

/-- `s[k:]`. -/
def Slice.from (s : Slice) (k : Nat) : Option Slice :=
  if k ≤ s.len then some ⟨s.start + k, s.len - k, s.cap - k, Nat.sub_le_sub_right s.len_le k⟩ else none

/-- `append(dst, src...)` for slices of one array. All elements are read before the first is written. A result that exceeds the capacity goes to a new
array, which is not modelled. -/
def append (array : Cells T) (dst src : Slice) : Option (Cells T × Slice) :=
  if h : dst.len + src.len ≤ dst.cap then do
    let xs ← (List.range src.len).mapM fun i => src.read array i
    return (array.store (dst.start + dst.len) xs, ⟨dst.start, dst.len + src.len, dst.cap, h⟩)
  else none

/-- `findSmallest(arr)`. -/
def findSmallest (array : Cells Int) (arr : Slice) : Option Nat := findSmallestOf (arr.read array) arr.len

/-- The body of the loop of `selectionSort`, in which the array of `arr`, `arr` and `newArr` are the variables. -/
def sortStep : Cells Int × Slice × Cells Int → Nat → Option (Cells Int × Slice × Cells Int)
  | (array, arr, newArr), i => do
    let smallest ← findSmallest array arr
    let x ← arr.read array smallest
    let newArr ← newArr.set i x
    let front ← arr.upTo smallest
    let back ← arr.from (smallest + 1)
    let (array, arr) ← append array front back
    return (array, arr, newArr)

/-- `selectionSort(arr)`: the slice that is returned, and the array of `arr` at the end. -/
def selectionSort (array : Cells Int) (arr : Slice) : Option (Cells Int × Cells Int) := do
  let (array, _, newArr) ← (List.range arr.len).foldlM sortStep (array, arr, Cells.ofList (List.replicate arr.len 0))
  return (newArr, array)

end Go

namespace Py

/-- `findSmallest(arr)`. -/
def findSmallest (arr : List T) : Option Nat := findSmallestOf (fun i => arr[i]?) arr.length

/-- The body of the loop of `selectionSort`, in which `arr` and `newArr` are the variables. -/
def sortStep : List T × List T → Nat → Option (List T × List T)
  | (arr, newArr), _ => do
    let smallest ← findSmallest arr
    let x ← arr[smallest]?
    return (arr.eraseIdx smallest, newArr ++ [x])

/-- `selectionSort(arr)`. -/
def selectionSort (arr : List T) : Option (List T) := do
  let (_, newArr) ← (List.range arr.length).foldlM sortStep (arr, [])
  return newArr

end Py

/-! ## Taking the smallest element -/

/-- The elements of a list, each a smallest one of those that are left. -/
inductive Selected : List T → List T → Prop where
  | nil : Selected [] []
  | cons {xs rest ys : List T} {x : T} (hperm : (x :: rest).Perm xs) (hle : ∀ y ∈ rest, x ≤ y) (hrest : Selected rest ys) : Selected xs (x :: ys)

variable {xs ys zs : List T} {read : Nat → Option T} {len k : Nat} {s x : T}

theorem Selected.perm (h : Selected xs ys) : ys.Perm xs := by
  induction h with
  | nil => exact List.Perm.refl []
  | cons hperm _ _ ih => exact (ih.cons _).trans hperm

theorem Selected.sorted (h : Selected xs ys) : ys.Pairwise (· ≤ ·) := by
  induction h with
  | nil => exact Pairwise.nil
  | cons _ hle hrest ih => exact pairwise_cons.mpr ⟨fun y hy => hle y (hrest.perm.subset hy), ih⟩

theorem Selected.length_eq (h : Selected xs ys) : ys.length = xs.length := h.perm.length_eq

/-- There is only one such order. -/
theorem Selected.unique (h : Selected xs ys) (h' : Selected xs zs) : ys = zs := (h.perm.trans h'.perm.symm).eq_of_pairwise' h.sorted h'.sorted

/-- The loop of `findSmallest`: the element it ends with is one of those it came past, and none of them is smaller. -/
theorem scan_spec {is : List Nat} (his : ∀ i ∈ is, ∃ a, read i = some a) (hk : read k = some s) :
    ∃ s' k', is.foldlM (scanStep read) (s, k) = some (s', k') ∧ read k' = some s' ∧ (k' = k ∨ k' ∈ is) ∧ s' ≤ s ∧
      ∀ i ∈ is, ∀ a, read i = some a → s' ≤ a := by
  induction is generalizing s k with
  | nil => exact ⟨s, k, rfl, hk, Or.inl rfl, le_rfl, by simp⟩
  | cons i is ih =>
    obtain ⟨a, ha⟩ := his i mem_cons_self
    have his' : ∀ j ∈ is, ∃ b, read j = some b := fun j hj => his j (mem_cons_of_mem i hj)
    rw [foldlM_cons, scanStep, ha]
    simp only [bind_eq_bind, bind_some]
    by_cases hlt : a < s
    · rw [if_pos hlt]
      obtain ⟨s', k', hrun, hr, hmem, hle, hall⟩ := ih his' ha
      refine ⟨s', k', hrun, hr, Or.inr ?_, hle.trans hlt.le, fun j hj b hb => ?_⟩
      · grind
      · grind
    · rw [if_neg hlt]
      obtain ⟨s', k', hrun, hr, hmem, hle, hall⟩ := ih his' hk
      refine ⟨s', k', hrun, hr, hmem.imp_right (mem_cons_of_mem i), hle, fun j hj b hb => ?_⟩
      rcases mem_cons.mp hj with rfl | hj
      · grind
      · exact hall j hj b hb

/-- `findSmallest` of a list that is not empty. -/
theorem findSmallestOf_spec (hr : ∀ i, i < xs.length → read i = xs[i]?) (hne : xs ≠ []) :
    ∃ k x, findSmallestOf read xs.length = some k ∧ read k = some x ∧ k < xs.length ∧ xs[k]? = some x ∧ ∀ y ∈ xs, x ≤ y := by
  have hpos : 0 < xs.length := length_pos_iff.mpr hne
  have hsome : ∀ i (hi : i < xs.length), read i = some xs[i] := by
    intro i hi
    rw [hr i hi, getElem?_eq_getElem hi]
  have his : ∀ i ∈ range' 1 (xs.length - 1), ∃ a, read i = some a := by grind
  obtain ⟨x, k, hrun, hk, hmem, hle, hall⟩ := scan_spec his (hsome 0 hpos)
  have hlt : k < xs.length := by grind
  refine ⟨k, x, ?_, hk, hlt, (hr k hlt).symm.trans hk, fun y hy => ?_⟩
  · rw [findSmallestOf, hsome 0 hpos]
    simp only [bind_eq_bind, bind_some, hrun]
    rfl
  · obtain ⟨i, hi, rfl⟩ := mem_iff_getElem.mp hy
    rcases Nat.eq_zero_or_pos i with rfl | hi'
    · exact hle
    · grind

theorem Selected.erase (hk : xs[k]? = some x) (hle : ∀ y ∈ xs, x ≤ y) (h : Selected (xs.eraseIdx k) ys) : Selected xs (x :: ys) := by
  obtain ⟨hlt, rfl⟩ := List.getElem?_eq_some_iff.mp hk
  exact .cons (getElem_cons_eraseIdx_perm hlt) (fun y hy => hle y (mem_of_mem_eraseIdx hy)) h

omit [LinearOrder T] in
theorem length_eraseIdx_of_some (hk : xs[k]? = some x) {n : Nat} (hn : xs.length = n + 1) : (xs.eraseIdx k).length = n := by grind

/-! ## Python -/

theorem Py.loop_spec {is : List Nat} (his : is.length = xs.length) (new : List T) :
    ∃ ys, is.foldlM Py.sortStep (xs, new) = some ([], new ++ ys) ∧ Selected xs ys := by
  induction is generalizing xs new with
  | nil =>
    obtain rfl := length_eq_zero_iff.mp his.symm
    exact ⟨[], by rw [append_nil]; rfl, .nil⟩
  | cons i is ih =>
    have hne : xs ≠ [] := by
      rintro rfl
      cases his
    have hr : ∀ i, i < xs.length → (fun i => xs[i]?) i = xs[i]? := fun _ _ => rfl
    obtain ⟨k, x, hfind, -, -, hk, hle⟩ := findSmallestOf_spec hr hne
    obtain ⟨ys, hrun, hys⟩ := ih (length_eraseIdx_of_some hk his.symm).symm (new ++ [x])
    refine ⟨x :: ys, ?_, Selected.erase hk hle hys⟩
    rw [foldlM_cons, Py.sortStep, Py.findSmallest, hfind]
    simp only [bind_eq_bind, bind_some, hk, Option.pure_def]
    rw [hrun, append_assoc, singleton_append]

theorem Py.selectionSort_spec (xs : List T) : ∃ ys, Py.selectionSort xs = some ys ∧ Selected xs ys := by
  obtain ⟨ys, hrun, hys⟩ := Py.loop_spec (length_range (n := xs.length)) []
  refine ⟨ys, ?_, hys⟩
  rw [Py.selectionSort, hrun]
  rfl

/-! ## Go -/

omit [LinearOrder T] in
theorem mapM_range_eq {f : Nat → Option T} (h : ∀ i, i < zs.length → f i = zs[i]?) : (List.range zs.length).mapM f = some zs := by
  induction zs using List.reverseRecOn with
  | nil => rfl
  | append_singleton zs z ih =>
    have hfront : (List.range zs.length).mapM f = some zs := by grind
    have hl : f zs.length = some z := by grind
    rw [length_append, length_singleton, range_succ, mapM_append, hfront]
    simp [hl]

variable {arr : Go.Slice}

theorem Go.append_remove {array : Cells Int} {xs : List Int} (hxs : array.Holds arr.start xs) (hlen : arr.len = xs.length) (hk : k < xs.length) :
    ∃ front back array' arr', arr.upTo k = some front ∧ arr.from (k + 1) = some back ∧ Go.append array front back = some (array', arr') ∧
      array'.Holds arr'.start (xs.eraseIdx k) ∧ arr'.len = (xs.eraseIdx k).length := by
  have hcap := arr.len_le
  have hd : (xs.drop (k + 1)).length = arr.len - (k + 1) := by rw [length_drop, hlen]
  have hxs' : xs = xs.take k ++ xs.drop k := (take_append_drop k xs).symm
  have ht : (xs.take k).length = k := length_take_of_le hk.le
  have hr : ∀ i, i < (xs.drop (k + 1)).length →
      Go.Slice.read ⟨arr.start + (k + 1), arr.len - (k + 1), arr.cap - (k + 1), Nat.sub_le_sub_right hcap (k + 1)⟩ array i =
        (xs.drop (k + 1))[i]? := by
    intro i hi
    rw [Go.Slice.read, if_pos (hi.trans_eq hd), getElem?_drop, Nat.add_assoc]
    refine holds_iff.mp hxs (k + 1 + i) ?_
    omega
  refine ⟨_, _, array.store (arr.start + k) (xs.drop (k + 1)), ⟨arr.start, k + (arr.len - (k + 1)), arr.cap, by omega⟩, dif_pos (by omega),
    if_pos (by omega), ?_, ?_, ?_⟩
  · have hmap := mapM_range_eq hr
    rw [hd] at hmap
    rw [Go.append, dif_pos (by dsimp only; omega)]
    simp only [hmap, bind_eq_bind]
    rfl
  · rw [eraseIdx_eq_take_drop_succ, holds_append, ht]
    refine ⟨?_, holds_store _ _ _⟩
    rw [hxs'] at hxs
    have hfront := (holds_append.mp hxs).1
    rw [holds_iff] at hfront ⊢
    intro i hi
    rw [store_of_lt (Nat.add_lt_add_left (ht ▸ hi) _), hfront i hi]
  · rw [length_eraseIdx_of_lt hk]
    dsimp only
    omega

theorem Go.loop_spec {array newArr : Cells Int} {xs ws : List Int} {j n : Nat} (hxs : array.Holds arr.start xs)
    (hlen : arr.len = xs.length) (hn : xs.length = n) (hws : newArr.Holds j ws) (hws' : ws.length = n) :
    ∃ array' arr' ys, (range' j n).foldlM Go.sortStep (array, arr, newArr) = some (array', arr', newArr.store j ys) ∧ Selected xs ys := by
  induction n generalizing array newArr arr xs ws j with
  | zero =>
    obtain rfl := length_eq_zero_iff.mp hn
    exact ⟨array, arr, [], rfl, .nil⟩
  | succ n ih =>
    have hne : xs ≠ [] := by
      rintro rfl
      cases hn
    cases ws with
    | nil => cases hws'
    | cons w ws =>
      have hr : ∀ i, i < xs.length → arr.read array i = xs[i]? := by
        intro i hi
        rw [Go.Slice.read, if_pos (hlen ▸ hi), holds_iff.mp hxs i hi]
      obtain ⟨k, x, hfind, hx, hlt, hk, hle⟩ := findSmallestOf_spec hr hne
      obtain ⟨front, back, array', arr', hfront, hb, happend, hxs', hlen'⟩ := Go.append_remove hxs hlen hlt
      obtain ⟨array'', arr'', ys, hrun, hys⟩ := ih hxs' hlen' (length_eraseIdx_of_some hk hn) (hws.update_before x) (succ.inj hws')
      refine ⟨array'', arr'', x :: ys, ?_, Selected.erase hk hle hys⟩
      rw [range'_succ, foldlM_cons, Go.sortStep, Go.findSmallest, hlen, hfind]
      simp only [bind_eq_bind, bind_some, hx, set_natCast hws.1, hfront, hb, happend]
      exact hrun

theorem Go.selectionSort_spec {array : Cells Int} {xs : List Int} (hxs : array.Holds arr.start xs) (hlen : arr.len = xs.length) :
    ∃ ys array', Go.selectionSort array arr = some (ofList ys, array') ∧ Selected xs ys := by
  have hzeros : (replicate xs.length (0 : Int)).length = xs.length := length_replicate
  obtain ⟨array', arr', ys, hrun, hys⟩ := Go.loop_spec hxs hlen rfl (holds_ofList _) hzeros
  refine ⟨ys, array', ?_, hys⟩
  rw [Go.selectionSort, hlen, range_eq_range', hrun, store_ofList (by rw [hzeros, hys.length_eq])]
  rfl

/-! ## C++ -/

theorem Cpp.foldlM_scanStep {arr : Cells T} (is : List Nat) (hk : arr k = some s) :
    is.foldlM (Cpp.scanStep arr) k = (is.foldlM (SelectionSort.scanStep arr) (s, k)).map Prod.snd := by
  induction is generalizing s k with
  | nil => rfl
  | cons i is ih =>
    rw [foldlM_cons, foldlM_cons, Cpp.scanStep, SelectionSort.scanStep]
    cases ha : arr i with
    | none => rfl
    | some a => grind

omit [LinearOrder T] in
theorem swap_ofList {p q : Nat} (hp : p < xs.length) (hq : q < xs.length) : QuickSort.swap (ofList xs) p q = some (ofList (exchange xs p q)) := by
  have hswap := QuickSort.swap_store (c := ofList xs) (l := 0) hp hq
  rwa [zero_add, zero_add, store_ofList rfl, store_ofList (exchange_perm hp hq).length_eq.symm] at hswap

theorem Cpp.sortStep_spec (hne : xs ≠ []) (zs : List T) :
    ∃ x rest, Cpp.sortStep (zs.length + xs.length) (ofList (zs ++ xs)) zs.length = some (ofList (zs ++ x :: rest)) ∧
      (x :: rest).Perm xs ∧ ∀ y ∈ rest, x ≤ y := by
  have hpos : 0 < xs.length := length_pos_iff.mpr hne
  have hr : ∀ p (hp : p < xs.length), ofList (zs ++ xs) (zs.length + p) = some xs[p] := by
    intro p hp
    rw [ofList, getElem?_append_right (Nat.le_add_right _ _), Nat.add_sub_cancel_left, getElem?_eq_getElem hp]
  have hoffset : ∀ i ∈ range' (zs.length + 1) (zs.length + xs.length - (zs.length + 1)), ∃ p, p < xs.length ∧ i = zs.length + p := by
    intro i hi
    obtain ⟨hle, hlt⟩ := mem_range'_1.mp hi
    exact ⟨i - zs.length, by omega, by omega⟩
  have his : ∀ i ∈ range' (zs.length + 1) (zs.length + xs.length - (zs.length + 1)), ∃ a, ofList (zs ++ xs) i = some a := by grind
  obtain ⟨x, k, hrun, hk, hmem, hle, hall⟩ := scan_spec his (hr 0 hpos)
  obtain ⟨p, hp, rfl⟩ : ∃ p, p < xs.length ∧ k = zs.length + p := by
    rcases hmem with rfl | hmem
    · exact ⟨0, hpos, rfl⟩
    · exact hoffset k hmem
  have hp' : xs[p]? = some x := by rw [getElem?_eq_getElem hp, ← hr p hp, hk]
  have hmin : ∀ y ∈ xs, x ≤ y := by
    intro y hy
    obtain ⟨i, hi, rfl⟩ := mem_iff_getElem.mp hy
    rcases Nat.eq_zero_or_pos i with rfl | hi'
    · exact hle
    · grind
  obtain ⟨rest, hrest⟩ := exchange_zero hp'
  have hperm : (x :: rest).Perm xs := hrest ▸ exchange_perm hpos hp
  refine ⟨x, rest, ?_, hperm, fun y hy => hmin y (hperm.subset (mem_cons_of_mem x hy))⟩
  have hscan := Cpp.foldlM_scanStep (range' (zs.length + 1) (zs.length + xs.length - (zs.length + 1))) (hr 0 hpos)
  rw [hrun, Nat.add_zero, map_some] at hscan
  rw [Cpp.sortStep, hscan]
  simp only [bind_eq_bind, bind_some]
  rw [swap_ofList (by rw [length_append]; omega) (by rw [length_append]; omega), ← hrest]
  have hexch := exchange_append zs hpos hp
  rw [Nat.add_zero] at hexch
  rw [hexch]

theorem Cpp.loop_spec {n : Nat} (hn : xs.length ≤ n + 1) (zs : List T) :
    ∃ ys, (range' zs.length (xs.length - 1)).foldlM (Cpp.sortStep (zs.length + xs.length)) (ofList (zs ++ xs)) =
      some (ofList (zs ++ ys)) ∧ Selected xs ys := by
  induction n generalizing xs zs with
  | zero =>
    rcases xs with _ | ⟨x, _ | ⟨y, xs⟩⟩
    · exact ⟨[], rfl, .nil⟩
    · exact ⟨[x], rfl, .cons (List.Perm.refl _) (by simp) .nil⟩
    · simp at hn
  | succ n ih =>
    by_cases hshort : xs.length ≤ n + 1
    · exact ih hshort zs
    · have hlen : xs.length = n + 2 := by omega
      have hne : xs ≠ [] := by
        rintro rfl
        cases hlen
      obtain ⟨x, rest, hrun, hperm, hle⟩ := Cpp.sortStep_spec hne zs
      have hrest : rest.length + 1 = xs.length := hperm.length_eq
      obtain ⟨ys, hrun', hys⟩ := ih (show rest.length ≤ n + 1 by omega) (zs ++ [x])
      refine ⟨x :: ys, ?_, .cons hperm hle hys⟩
      have hcnt : xs.length - 1 = (rest.length - 1) + 1 := by omega
      have htotal : (zs ++ [x]).length + rest.length = zs.length + xs.length := by
        rw [length_append, length_singleton]
        omega
      rw [htotal, append_assoc, append_assoc, length_append] at hrun'
      rw [hcnt, range'_succ, foldlM_cons, hrun]
      exact hrun'

theorem Cpp.selectionSort_spec (xs : List T) : ∃ ys, Cpp.selectionSort (ofList xs) xs.length = some (ofList ys) ∧ Selected xs ys := by
  obtain ⟨ys, hrun, hys⟩ := Cpp.loop_spec (le_succ xs.length) []
  refine ⟨ys, ?_, hys⟩
  rw [length_nil, zero_add, ← range_eq_range'] at hrun
  exact hrun

/-! ## The three versions agree -/

/-- All versions come to the sorted list: the array that `selection_sort` leaves, the slice that the Go function returns for a slice of any array that
holds the list, and the list that the Python function returns. -/
theorem selectionSorts_agree (xs : List Int) :
    ∃ ys, ys.Perm xs ∧ ys.Pairwise (· ≤ ·) ∧ Cpp.selectionSort (Cells.ofList xs) xs.length = some (Cells.ofList ys) ∧
      (∀ (array : Cells Int) (arr : Go.Slice), array.Holds arr.start xs → arr.len = xs.length →
        ∃ array', Go.selectionSort array arr = some (Cells.ofList ys, array')) ∧
      Py.selectionSort xs = some ys := by
  obtain ⟨ys, hcpp, hys⟩ := Cpp.selectionSort_spec xs
  obtain ⟨ys', hpy, hys'⟩ := Py.selectionSort_spec xs
  refine ⟨ys, hys.perm, hys.sorted, hcpp, fun array arr hxs hlen => ?_, hys.unique hys' ▸ hpy⟩
  obtain ⟨ys'', array', hgo, hys''⟩ := Go.selectionSort_spec hxs hlen
  exact ⟨array', hys.unique hys'' ▸ hgo⟩

end CsLearning.Code.SelectionSort
