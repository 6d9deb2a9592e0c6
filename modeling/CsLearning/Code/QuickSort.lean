import CsLearning.Lib.Cells
import CsLearning.Lib.Loop
import CsLearning.Lib.Word

/-!
# Quick sort

`QuickSort` of `quick_sort.c`: parts of more than `Cutoff` elements are partitioned around the median of three of them, which is hidden before the
last element during the scans; smaller parts are sorted by insertion.

The scans have no test of bounds. They stop at an element that is not on their side of the pivot, and there always is one: for the first round the
pivot itself and the first element of the part, later the two elements that were swapped before.
-/

open List Function Nat

namespace CsLearning.Code.QuickSort

open Cells

variable {T : Type} [LinearOrder T]

/-! ## The code -/

/-- The inner loop of `InsertionSort` on the array that starts at `base`, from `i` on: the array and `i` at its end. -/
def shift (A : Cells T) (base : Int) (Tmp : T) : Nat → Option (Cells T × Nat)
  | 0 => some (A, 0)
  | i + 1 => do
    let a ← A.get (base + i)
    if a > Tmp then
      let A ← A.set (base + (i + 1 : Nat)) a
      shift A base Tmp i
    else some (A, i + 1)

/-- The body of the loop of `InsertionSort`. -/
def insertNext (base : Int) (A : Cells T) (P : Nat) : Option (Cells T) := do
  let Tmp ← A.get (base + P)
  let (A, i) ← shift A base Tmp P
  A.set (base + i) Tmp

/-- `InsertionSort(A + base, N)`. -/
def insertionSort (A : Cells T) (base N : Int) : Option (Cells T) := (List.range' 1 (N.toNat - 1)).foldlM (insertNext base) A

/-- `Swap(&A[i], &A[j])`. -/
def swap (A : Cells T) (i j : Int) : Option (Cells T) := do
  let a ← A.get i
  let b ← A.get j
  let A ← A.set i b
  A.set j a

/-- `if (A[i] > A[j]) Swap(&A[i], &A[j]);`. -/
def order (A : Cells T) (i j : Int) : Option (Cells T) := do
  let a ← A.get i
  let b ← A.get j
  if a > b then swap A i j else some A

/-- `Median3(A, Left, Right)`: the array at its end and the pivot. -/
def median3 (A : Cells T) (Left Right : Int) : Option (Cells T × T) := do
  let sum ← Word.addInt Left Right
  let Center := sum.tdiv 2
  let A ← order A Left Center
  let A ← order A Left Right
  let A ← order A Center Right
  let A ← swap A Center (Right - 1)
  let Pivot ← A.get (Right - 1)
  return (A, Pivot)

/-- `while (A[++Low] < Pivot);`, with at most `n` rounds: `Low` at its end. -/
def scanUp (n : Nat) (A : Cells T) (Pivot : T) (Low : Int) : Option Int :=
  loop (fun Low => do
    let a ← A.get (Low + 1)
    return if a < Pivot then .again (Low + 1) else .stop (Low + 1)) n Low

/-- `while (A[--High] > Pivot);`, with at most `n` rounds: `High` at its end. -/
def scanDown (n : Nat) (A : Cells T) (Pivot : T) (High : Int) : Option Int :=
  loop (fun High => do
    let a ← A.get (High - 1)
    return if a > Pivot then .again (High - 1) else .stop (High - 1)) n High

/-- One round of the loop that partitions, in which `A`, `Low` and `High` are the variables. -/
def partitionRound (n : Nat) (Pivot : T) : Cells T × Int × Int → Option (Round (Cells T × Int × Int) (Cells T × Int))
  | (A, Low, High) => do
    let Low ← scanUp n A Pivot Low
    let High ← scanDown n A Pivot High
    if Low < High then
      let A ← swap A Low High
      return .again (A, Low, High)
    else return .stop (A, Low)

def Cutoff : Int := 1000

/-- `Qsort(A, Left, Right)`, with at most `n` calls inside each other and at most `n` rounds of each loop. -/
def qsort : Nat → Cells T → Int → Int → Option (Cells T)
  | 0, _, _, _ => none
  | n + 1, A, Left, Right =>
    if Cutoff ≤ Right - Left then do
      let (A, Pivot) ← median3 A Left Right
      let (A, Low) ← loop (partitionRound n Pivot) n (A, Left, Right - 1)
      let A ← swap A Low (Right - 1)
      let A ← qsort n A Left (Low - 1)
      qsort n A (Low + 1) Right
    else insertionSort A Left (Right - Left + 1)

/-- `QuickSort(A, N)`. -/
def quickSort (n : Nat) (A : Cells T) (N : Nat) : Option (Cells T) := qsort n A 0 (N - 1)

/-! ## Sorting by insertion -/

variable {c : Cells T} {l : Nat} {xs ys zs : List T} {v : T}

theorem shift_spec (hys : c.Holds l ys) (hc : c (l + ys.length) ≠ none) (hsort : ys.Pairwise (· ≤ ·)) (Tmp : T) :
    ∃ ys1 ys2, ys = ys1 ++ ys2 ∧ (∀ y ∈ ys1, y ≤ Tmp) ∧ (∀ y ∈ ys2, Tmp < y) ∧
      shift c l Tmp ys.length = some (c.store (l + ys1.length + 1) ys2, ys1.length) := by
  induction ys using List.reverseRecOn generalizing c with
  | nil => exact ⟨[], [], rfl, by simp, by simp, rfl⟩
  | append_singleton ys a ih =>
    obtain ⟨hys', ha, -⟩ := holds_append.mp hys
    obtain ⟨hsort', -, hle⟩ := pairwise_append.mp hsort
    rw [length_append, length_singleton] at hc ⊢
    have hr : c.get ((l : Int) + ys.length) = some a := by rw [← cast_add, get_natCast, ha]
    rw [shift, hr]
    simp only [Option.bind_eq_bind, Option.bind_some]
    by_cases hgt : a > Tmp
    · obtain ⟨y, hy⟩ := Option.ne_none_iff_exists'.mp hc
      have hwrite : c.set ((l : Int) + (ys.length + 1 : Nat)) a = some (update c (l + (ys.length + 1)) (some a)) := by
        rw [← cast_add, set_natCast hy]
      have hys'' : Cells.Holds (update c (l + (ys.length + 1)) (some a)) l ys := by grind [holds_iff, update_of_ne]
      have hc' : update c (l + (ys.length + 1)) (some a) (l + ys.length) ≠ none := by grind
      obtain ⟨ys1, ys2, rfl, h1, h2, hrun⟩ := ih hys'' hc' hsort'
      refine ⟨ys1, ys2 ++ [a], (append_assoc _ _ _), h1, ?_, ?_⟩
      · grind
      · rw [length_append] at hwrite hrun
        rw [if_pos hgt, length_append, hwrite, Option.bind_some, hrun, store_update_comm (by omega), ← store_store_append]
        have hl : l + ys1.length + 1 + ys2.length = l + (ys1.length + ys2.length + 1) := by omega
        rw [hl]
        rfl
    · rw [if_neg hgt]
      refine ⟨ys ++ [a], [], (append_nil _).symm, ?_, by simp, ?_⟩
      · grind
      · rw [length_append, length_singleton]
        rfl

variable {rest L R : List T} {p q e low high n : Nat}

theorem insertNext_spec {x : T} (h : c.Holds l (ys ++ x :: rest)) (hsort : ys.Pairwise (· ≤ ·)) :
    ∃ ys', ys'.Perm (ys ++ [x]) ∧ ys'.Pairwise (· ≤ ·) ∧ insertNext l c ys.length = some (c.store l ys') := by
  obtain ⟨hys, hx, -⟩ := holds_append.mp h
  have hr : c.get ((l : Int) + ys.length) = some x := by rw [← cast_add, get_natCast, hx]
  obtain ⟨ys1, ys2, rfl, h1, h2, hrun⟩ := shift_spec hys (by rw [hx]; exact Option.some_ne_none x) hsort x
  obtain ⟨hsort1, hsort2, hle⟩ := pairwise_append.mp hsort
  refine ⟨ys1 ++ x :: ys2, ?_, ?_, ?_⟩
  · grind
  · refine pairwise_append.mpr ⟨hsort1, pairwise_cons.mpr ⟨fun y hy => (h2 y hy).le, hsort2⟩, ?_⟩
    intro a ha b hb
    rcases mem_cons.mp hb with rfl | hb
    · exact h1 a ha
    · exact hle a ha b hb
  · obtain ⟨hys1, -⟩ := holds_append.mp hys
    -- the cell the new element is written to was read before
    have hc : ∃ y, c.store (l + ys1.length + 1) ys2 (l + ys1.length) = some y := by
      rw [store_of_lt (by omega)]
      have hall := holds_iff.mp h ys1.length (by simp only [length_append, length_cons]; omega)
      rw [getElem?_eq_getElem (by simp only [length_append, length_cons]; omega)] at hall
      exact ⟨_, hall⟩
    obtain ⟨y, hy⟩ := hc
    have hstore : c.store l (ys1 ++ x :: ys2) = update (c.store (l + ys1.length + 1) ys2) (l + ys1.length) (some x) := by
      rw [← store_store_append, store_eq_self hys1, store, store_update_comm (by omega)]
    rw [insertNext, hr]
    simp only [Option.bind_eq_bind, Option.bind_some, hrun]
    rw [← cast_add, set_natCast hy, hstore]

/-- The loop of `InsertionSort` sorts the rest of the array into the part that is sorted. -/
theorem foldlM_insertNext_spec (h : c.Holds l (ys ++ rest)) (hsort : ys.Pairwise (· ≤ ·)) :
    ∃ zs, zs.Perm (ys ++ rest) ∧ zs.Pairwise (· ≤ ·) ∧ (range' ys.length rest.length).foldlM (insertNext l) c = some (c.store l zs) := by
  induction rest generalizing c ys with
  | nil =>
    rw [append_nil] at h ⊢
    exact ⟨ys, List.Perm.refl ys, hsort, by rw [store_eq_self h]; rfl⟩
  | cons x rest ih =>
    obtain ⟨ys', hp, hsort', hrun⟩ := insertNext_spec h hsort
    have hlen : ys'.length = ys.length + 1 := by rw [hp.length_eq, length_append, length_singleton]
    have hr : (c.store l ys').Holds l (ys' ++ rest) := by
      refine holds_append.mpr ⟨holds_store c l ys', Cells.Holds.store_before ?_ (le_refl _)⟩
      have ht := (holds_append.mp h).2.2
      rwa [hlen, ← add_assoc]
    obtain ⟨zs, hzs, hzsort, hrun'⟩ := ih hr hsort'
    have hzlen : zs.length = ys'.length + rest.length := by rw [hzs.length_eq, length_append]
    refine ⟨zs, ?_, hzsort, ?_⟩
    · grind
    · rw [store_store_of_le c l (by omega), hlen] at hrun'
      rw [length_cons, range'_succ, foldlM_cons, hrun]
      exact hrun'

theorem insertionSort_spec (hxs : c.Holds l xs) : ∃ ys, ys.Perm xs ∧ ys.Pairwise (· ≤ ·) ∧ insertionSort c l xs.length = some (c.store l ys) := by
  cases xs with
  | nil => exact ⟨[], Perm.nil, Pairwise.nil, rfl⟩
  | cons x xs =>
    rw [insertionSort, Int.toNat_natCast, length_cons, Nat.add_sub_cancel]
    have hone : c.Holds l ([x] ++ xs) := hxs
    exact foldlM_insertNext_spec hone (pairwise_singleton _ _)

/-! ## The median of three -/

omit [LinearOrder T] in
theorem swap_store (hp : p < xs.length) (hq : q < xs.length) :
    swap (c.store l xs) (l + p : Nat) (l + q : Nat) = some (c.store l (exchange xs p q)) := by
  have hq' : q < (xs.set p xs[q]).length := by rwa [length_set]
  rw [swap, get_store c l hp, get_store c l hq, getElem?_eq_getElem hp, getElem?_eq_getElem hq]
  simp only [Option.bind_eq_bind, Option.bind_some, set_store c l hp, set_store c l hq']
  rw [exchange_eq hp hq]

/-- The list after `order`: the smaller one of two elements stands at `p`, the greater one at `q`. -/
structure Ordered (xs : List T) (p q : Nat) (ys : List T) : Prop where
  perm : ys.Perm xs
  first : ∀ a b, xs[p]? = some a → xs[q]? = some b → ys[p]? = some (min a b)
  second : ∀ a b, xs[p]? = some a → xs[q]? = some b → ys[q]? = some (max a b)
  other : ∀ i, i ≠ p → i ≠ q → ys[i]? = xs[i]?

theorem order_store (hp : p < xs.length) (hq : q < xs.length) (hpq : p ≠ q) :
    ∃ ys, Ordered xs p q ys ∧ order (c.store l xs) (l + p : Nat) (l + q : Nat) = some (c.store l ys) := by
  rw [order, get_store c l hp, get_store c l hq, getElem?_eq_getElem hp, getElem?_eq_getElem hq]
  simp only [Option.bind_eq_bind, Option.bind_some]
  by_cases hgt : xs[p] > xs[q]
  · rw [if_pos hgt, swap_store hp hq]
    refine ⟨_, ⟨exchange_perm hp hq, ?_, ?_, ?_⟩, rfl⟩
    · intro a b ha hb
      rw [getElem?_eq_getElem hp, Option.some.injEq] at ha
      rw [getElem?_exchange hp hq, if_neg hpq, if_pos rfl, hb, min_eq_right]
      rw [getElem?_eq_getElem hq, Option.some.injEq] at hb
      exact ha ▸ hb ▸ hgt.le
    · intro a b ha hb
      rw [getElem?_exchange hp hq, if_pos rfl, ha, max_eq_left]
      rw [getElem?_eq_getElem hp, Option.some.injEq] at ha
      rw [getElem?_eq_getElem hq, Option.some.injEq] at hb
      exact ha ▸ hb ▸ hgt.le
    · intro i hip hiq
      rw [getElem?_exchange hp hq, if_neg hiq, if_neg hip]
  · rw [if_neg hgt]
    have hle : ∀ a b, xs[p]? = some a → xs[q]? = some b → a ≤ b := by grind
    refine ⟨xs, ⟨List.Perm.refl xs, ?_, ?_, fun _ _ _ => rfl⟩, rfl⟩
    · intro a b ha hb
      rw [ha, min_eq_left (hle a b ha hb)]
    · grind

/-- What `Median3` leaves: the pivot before the last element, and one element on each side of it at the ends. -/
structure Medianed (xs : List T) (v : T) (ys : List T) : Prop where
  perm : ys.Perm xs
  pivot : ys[xs.length - 2]? = some v
  first : ∀ x, ys[0]? = some x → x ≤ v
  last : ∀ x, ys[xs.length - 1]? = some x → v ≤ x

theorem median3_spec (he : xs.length = e + 2) (hlen : 1 ≤ e) (hsum : 2 * l + (e + 1) < 2 ^ 31) :
    ∃ v ys, Medianed xs v ys ∧ median3 (c.store l xs) (l + 0 : Nat) (l + (e + 1) : Nat) = some (c.store l ys, v) := by
  obtain ⟨m, hm⟩ : ∃ m, (e + 1) / 2 = m := ⟨_, rfl⟩
  have hadd : Word.addInt (l + 0 : Nat) (l + (e + 1) : Nat) = some (((l + 0 : Nat) : Int) + (l + (e + 1) : Nat)) := if_pos (by omega)
  have hcenter : (((l + 0 : Nat) : Int) + (l + (e + 1) : Nat)).tdiv 2 = (l + m : Nat) := by
    rw [Int.tdiv_eq_ediv_of_nonneg (by omega)]
    omega
  have hhide : ((l + (e + 1) : Nat) : Int) - 1 = (l + e : Nat) := by omega
  -- the elements at the left, in the middle and at the right
  have h0 : xs[0]? = some xs[0] := getElem?_eq_getElem (by omega)
  have hmid : xs[m]? = some xs[m] := getElem?_eq_getElem (by omega)
  have hlast : xs[e + 1]? = some xs[e + 1] := getElem?_eq_getElem (by omega)
  generalize xs[0] = a at h0
  generalize xs[m] = b at hmid
  generalize xs[e + 1] = d at hlast
  obtain ⟨ys1, ho1, hrun1⟩ := order_store (c := c) (l := l) (by omega : 0 < xs.length) (by omega : m < xs.length) (by omega)
  have hlen1 := ho1.perm.length_eq
  obtain ⟨ys2, ho2, hrun2⟩ := order_store (c := c) (l := l) (by omega : 0 < ys1.length) (by omega : e + 1 < ys1.length) (by omega)
  have hlen2 := ho2.perm.length_eq
  obtain ⟨ys3, ho3, hrun3⟩ := order_store (c := c) (l := l) (by omega : m < ys2.length) (by omega : e + 1 < ys2.length) (by omega)
  have hlen3 := ho3.perm.length_eq
  have hpm : m < ys3.length := by omega
  have hpe : e < ys3.length := by omega
  have h10 := ho1.first a b h0 hmid
  have h1m := ho1.second a b h0 hmid
  have h1e := (ho1.other (e + 1) (by omega) (by omega)).trans hlast
  have h20 := ho2.first _ _ h10 h1e
  have h2e := ho2.second _ _ h10 h1e
  have h2m := (ho2.other m (by omega) (by omega)).trans h1m
  have h3m := ho3.first _ _ h2m h2e
  have h3e := ho3.second _ _ h2m h2e
  have h30 := (ho3.other 0 (by omega) (by omega)).trans h20
  refine ⟨min (max a b) (max (min a b) d), exchange ys3 m e, ⟨?_, ?_, ?_, ?_⟩, ?_⟩
  · exact (exchange_perm hpm hpe).trans (ho3.perm.trans (ho2.perm.trans ho1.perm))
  · rw [he, Nat.add_sub_cancel, getElem?_exchange hpm hpe, if_pos rfl, h3m]
  · intro x hx
    rw [getElem?_exchange hpm hpe, if_neg (by omega), if_neg (by omega), h30, Option.some.injEq] at hx
    have hmin : min (min a b) d ≤ min a b := min_le_left _ _
    exact hx ▸ le_min (hmin.trans min_le_max) (hmin.trans (le_max_left _ _))
  · intro x hx
    rw [he, Nat.add_sub_assoc (by omega), getElem?_exchange hpm hpe, if_neg (by omega), if_neg (by omega), h3e, Option.some.injEq] at hx
    exact hx ▸ min_le_max
  · have hpivot : (c.store l (exchange ys3 m e)).get (l + e : Nat) = some (min (max a b) (max (min a b) d)) := by
      rw [get_store c l (by rw [(exchange_perm hpm hpe).length_eq]; exact hpe), getElem?_exchange hpm hpe, if_pos rfl, h3m]
    rw [median3, hadd]
    simp only [Option.bind_eq_bind, Option.bind_some, hcenter, hhide, hrun1, hrun2, hrun3, swap_store hpm hpe, hpivot]
    rfl

/-! ## The scans -/

/-- The scan to the right stops at the next element that is not less than the pivot. -/
theorem scanUp_spec (hlow : low < high) (hhigh : high < zs.length) (hs : ∀ x, zs[high]? = some x → v ≤ x) (hn : high - low ≤ n) :
    ∃ low', low < low' ∧ low' ≤ high ∧ (∀ x, zs[low']? = some x → v ≤ x) ∧ (∀ i x, low < i → i < low' → zs[i]? = some x → x ≤ v) ∧
      scanUp n (c.store l zs) v (l + low : Nat) = some ((l + low' : Nat) : Int) := by
  induction n generalizing low with
  | zero => omega
  | succ n ih =>
    have hx : zs[low + 1]? = some zs[low + 1] := getElem?_eq_getElem (by omega)
    have hnext : ((l + low : Nat) : Int) + 1 = (l + (low + 1) : Nat) := by omega
    have hr : (c.store l zs).get (l + (low + 1) : Nat) = some zs[low + 1] := by rw [get_store c l (by omega), hx]
    by_cases hlt : zs[low + 1] < v
    · have hne : low + 1 ≠ high := by grind
      obtain ⟨low', hlow', hle, hge, hbelow, hrun⟩ := ih (by omega : low + 1 < high) (by omega)
      refine ⟨low', by omega, hle, hge, ?_, ?_⟩
      · grind
      · rw [scanUp, loop_of_again, ← scanUp, hrun]
        simp only [hnext, hr, Option.bind_eq_bind, Option.bind_some, if_pos hlt]
        rfl
    · refine ⟨low + 1, by omega, by omega, ?_, ?_, ?_⟩
      · grind
      · intro i x hi hi'
        omega
      · rw [scanUp, loop_of_stop]
        simp only [hnext, hr, Option.bind_eq_bind, Option.bind_some, if_neg hlt]
        rfl

/-- The scan to the left stops at the next element that is not greater than the pivot. -/
theorem scanDown_spec (hlow : low < high) (hhigh : high < zs.length) (hs : ∀ x, zs[low]? = some x → x ≤ v) (hn : high - low ≤ n) :
    ∃ high', low ≤ high' ∧ high' < high ∧ (∀ x, zs[high']? = some x → x ≤ v) ∧ (∀ i x, high' < i → i < high → zs[i]? = some x → v ≤ x) ∧
      scanDown n (c.store l zs) v (l + high : Nat) = some ((l + high' : Nat) : Int) := by
  induction n generalizing high with
  | zero => omega
  | succ n ih =>
    obtain ⟨high, rfl⟩ : ∃ h, high = h + 1 := ⟨high - 1, by omega⟩
    have hx : zs[high]? = some zs[high] := getElem?_eq_getElem (by omega)
    have hnext : ((l + (high + 1) : Nat) : Int) - 1 = (l + high : Nat) := by omega
    have hr : (c.store l zs).get (l + high : Nat) = some zs[high] := by rw [get_store c l (by omega), hx]
    by_cases hgt : zs[high] > v
    · have hne : low ≠ high := by grind
      obtain ⟨high', hlow', hlt, hle, habove, hrun⟩ := ih (by omega : low < high) (by omega) (by omega)
      refine ⟨high', hlow', by omega, hle, ?_, ?_⟩
      · grind
      · rw [scanDown, loop_of_again, ← scanDown, hrun]
        simp only [hnext, hr, Option.bind_eq_bind, Option.bind_some, if_pos hgt]
        rfl
    · refine ⟨high, by omega, by omega, ?_, ?_, ?_⟩
      · grind
      · intro i x hi hi'
        omega
      · rw [scanDown, loop_of_stop]
        simp only [hnext, hr, Option.bind_eq_bind, Option.bind_some, if_neg hgt]
        rfl

/-! ## The partition -/

/-- Between two rounds: no element up to `low` is greater than the pivot, and none from `high` on is less. -/
structure Between (xs : List T) (v : T) (zs : List T) (low high : Nat) : Prop where
  perm : zs.Perm xs
  pivot : zs[xs.length - 2]? = some v
  lt : low < high
  le : high + 2 ≤ xs.length
  below : ∀ i x, i ≤ low → zs[i]? = some x → x ≤ v
  above : ∀ i x, high ≤ i → zs[i]? = some x → v ≤ x

/-- After the last round: no element before `low` is greater than the pivot, and none from `low` on is less. -/
structure Split (xs : List T) (v : T) (zs : List T) (low : Nat) : Prop where
  perm : zs.Perm xs
  pivot : zs[xs.length - 2]? = some v
  le : low + 2 ≤ xs.length
  below : ∀ i x, i < low → zs[i]? = some x → x ≤ v
  above : ∀ i x, low ≤ i → zs[i]? = some x → v ≤ x

theorem partitionRound_step (h : Between xs v zs low high) (hn : xs.length ≤ n) : (∃ low', low < low' ∧ Split xs v zs low' ∧
      partitionRound n v (c.store l zs, (l + low : Nat), (l + high : Nat)) = some (.stop (c.store l zs, (l + low' : Nat)))) ∨
    ∃ zs' low' high', Between xs v zs' low' high' ∧ high' - low' < high - low ∧ partitionRound n v (c.store l zs, (l + low : Nat), (l + high : Nat)) =
        some (.again (c.store l zs', (l + low' : Nat), (l + high' : Nat))) := by
  have hlen := h.perm.length_eq
  have hlt := h.lt
  have hle := h.le
  obtain ⟨low', hlow, hlow', hge, hbelow, hup⟩ :=
    scanUp_spec (c := c) (l := l) (n := n) hlt (by omega) (fun x => h.above high x (le_refl _)) (by omega)
  obtain ⟨high', hhigh, hhigh', hle', habove, hdown⟩ :=
    scanDown_spec (c := c) (l := l) (n := n) hlt (by omega) (fun x => h.below low x (le_refl _)) (by omega)
  have hbef : ∀ i x, i < low' → zs[i]? = some x → x ≤ v := by
    intro i x hi hx
    by_cases hil : i ≤ low
    · exact h.below i x hil hx
    · exact hbelow i x (by omega) hi hx
  have hbehind : ∀ i x, high' < i → zs[i]? = some x → v ≤ x := by
    intro i x hi hx
    by_cases hih : high ≤ i
    · exact h.above i x hih hx
    · exact habove i x hi (by omega) hx
  simp only [partitionRound, hup, hdown, Option.bind_eq_bind, Option.bind_some]
  by_cases hcross : low' < high'
  · right
    have hp : low' < zs.length := by omega
    have hq : high' < zs.length := by omega
    refine ⟨exchange zs low' high', low', high', ⟨(exchange_perm hp hq).trans h.perm, ?_, hcross, by omega, ?_, ?_⟩, by omega, ?_⟩
    · rw [getElem?_exchange hp hq, if_neg (by omega), if_neg (by omega), h.pivot]
    · intro i x hi hx
      rw [getElem?_exchange hp hq, if_neg (by omega)] at hx
      split_ifs at hx with hil
      · exact hle' x hx
      · exact hbef i x (by omega) hx
    · intro i x hi hx
      rw [getElem?_exchange hp hq] at hx
      split_ifs at hx with hih hil
      · exact hge x hx
      · omega
      · exact hbehind i x (by omega) hx
    · rw [if_pos (by omega), swap_store hp hq]
      rfl
  · left
    refine ⟨low', hlow, ⟨h.perm, h.pivot, by omega, hbef, ?_⟩, ?_⟩
    · grind
    · rw [if_neg (by omega)]
      rfl

theorem partition_spec {n k low high : Nat} (h : Between xs v zs low high) (hn : xs.length ≤ n) (hk : high - low ≤ k) :
    ∃ zs' low', 0 < low' ∧ Split xs v zs' low' ∧
      loop (partitionRound n v) k (c.store l zs, (l + low : Nat), (l + high : Nat)) = some (c.store l zs', ((l + low' : Nat) : Int)) := by
  induction k generalizing zs low high with
  | zero =>
    have hlt := h.lt
    omega
  | succ k ih =>
    rcases partitionRound_step h hn with ⟨low', hpos, hsp, hrd⟩ | ⟨zs', low', high', hbtw, hless, hrd⟩
    · exact ⟨zs, low', by omega, hsp, loop_of_stop hrd k⟩
    · grind [loop_of_again]

theorem Split.exists_parts (h : Split xs v zs low) :
    ∃ L R, exchange zs low (xs.length - 2) = L ++ v :: R ∧ L.length = low ∧ (∀ x ∈ L, x ≤ v) ∧ ∀ x ∈ R, v ≤ x := by
  have hlen := h.perm.length_eq
  have hle := h.le
  have hp : low < zs.length := by omega
  have hq : xs.length - 2 < zs.length := by omega
  have hget := getElem?_exchange hp hq
  have hplen := (exchange_perm hp hq).length_eq
  generalize exchange zs low (xs.length - 2) = ws at hget hplen
  have hv : ws[low]? = some v := by
    rw [hget]
    by_cases heq : low = xs.length - 2
    · rw [if_pos heq, heq, h.pivot]
    · rw [if_neg heq, if_pos rfl, h.pivot]
  obtain ⟨hlow, hv'⟩ := List.getElem?_eq_some_iff.mp hv
  refine ⟨ws.take low, ws.drop (low + 1), ?_, ?_, ?_, ?_⟩
  · rw [← hv', ← drop_eq_getElem_cons hlow, take_append_drop]
  · rw [length_take]
    omega
  · intro x hx
    obtain ⟨i, hi⟩ := mem_iff_getElem?.mp hx
    rw [getElem?_take] at hi
    split_ifs at hi with hilow
    rw [hget, if_neg (by omega), if_neg (by omega)] at hi
    exact h.below i x hilow hi
  · intro x hx
    obtain ⟨i, hi⟩ := mem_iff_getElem?.mp hx
    rw [getElem?_drop, hget] at hi
    split_ifs at hi with hiq hip
    · exact h.above low x (le_refl _) hi
    · omega
    · exact h.above _ x (by omega) hi

/-! ## The recursion -/

omit [LinearOrder T] in
theorem store_parts {L R L' R' : List T} (hL : L'.length = L.length) (hR : R'.length = R.length) :
    ((c.store l (L ++ v :: R)).store l L').store (l + L.length + 1) R' = c.store l (L' ++ v :: R') := by
  have hpivot : ((c.store l (L ++ v :: R)).store l L').Holds (l + L'.length) [v] := by
    have hall := (holds_append.mp (holds_store c l (L ++ v :: R))).2
    have hone : (c.store l (L ++ v :: R)).Holds (l + L'.length) [v] := by
      rw [hL]
      exact ⟨hall.1, trivial⟩
    exact hone.store_before (le_refl _)
  have hs : (L ++ v :: R).length ≤ (L' ++ v :: R').length := by simp only [length_append, length_cons, hL, hR, le_refl]
  calc ((c.store l (L ++ v :: R)).store l L').store (l + L.length + 1) R'
      = (((c.store l (L ++ v :: R)).store l L').store (l + L'.length) [v]).store (l + L'.length + 1) R' := by
        rw [store_eq_self hpivot, hL]
    _ = (c.store l (L ++ v :: R)).store l (L' ++ v :: R') := by
        rw [← store_store_append _ l L']
        rfl
    _ = c.store l (L' ++ v :: R') := store_store_of_le c l hs

theorem pairwise_parts (hL : L.Pairwise (· ≤ ·)) (hR : R.Pairwise (· ≤ ·)) (hLv : ∀ x ∈ L, x ≤ v) (hvR : ∀ x ∈ R, v ≤ x) :
    (L ++ v :: R).Pairwise (· ≤ ·) := by
  refine pairwise_append.mpr ⟨hL, pairwise_cons.mpr ⟨hvR, hR⟩, ?_⟩
  intro a ha b hb
  rcases mem_cons.mp hb with rfl | hb
  · exact hLv a ha
  · exact (hLv a ha).trans (hvR b hb)

theorem qsort_partition (he : xs.length = e + 2) (hlen : 1 ≤ e) (hsum : 2 * l + (e + 1) < 2 ^ 31) (hn : xs.length ≤ n) :
    ∃ v L R, (L ++ v :: R).Perm xs ∧ L ≠ [] ∧ R ≠ [] ∧ (∀ x ∈ L, x ≤ v) ∧ (∀ x ∈ R, v ≤ x) ∧ ∃ A A',
      median3 (c.store l xs) (l + 0 : Nat) (l + (e + 1) : Nat) = some (A, v) ∧
      loop (partitionRound n v) n (A, (l + 0 : Nat), (l + e : Nat)) = some (A', ((l + L.length : Nat) : Int)) ∧
      swap A' (l + L.length : Nat) (l + e : Nat) = some (c.store l (L ++ v :: R)) := by
  obtain ⟨v, ys, hmed, hmedian⟩ := median3_spec (c := c) he hlen hsum
  have hpivot := hmed.pivot
  have hl := hmed.last
  rw [he, Nat.add_sub_cancel] at hpivot
  rw [he, Nat.add_sub_assoc (by omega)] at hl
  have hyslen := hmed.perm.length_eq
  have hbtw : Between xs v ys 0 e := by
    refine ⟨hmed.perm, hmed.pivot, by omega, by omega, ?_, ?_⟩
    · intro i x hi hx
      obtain rfl : i = 0 := by omega
      exact hmed.first x hx
    · intro i x hi hx
      obtain ⟨hin, -⟩ := List.getElem?_eq_some_iff.mp hx
      rcases Nat.lt_or_eq_of_le hi with hgt | rfl
      · grind
      · rw [hpivot, Option.some.injEq] at hx
        exact hx.le
  obtain ⟨zs, low, hpos, hsp, hpart⟩ := partition_spec (c := c) (l := l) hbtw hn (by omega : e - 0 ≤ n)
  obtain ⟨L, R, hparts, hlow, hL, hR⟩ := hsp.exists_parts
  have hzlen := hsp.perm.length_eq
  have hle := hsp.le
  have hp : low < zs.length := by omega
  have hq : e < zs.length := by omega
  rw [he, Nat.add_sub_cancel] at hparts
  subst hlow
  have hperm : (L ++ v :: R).Perm xs := by
    rw [← hparts]
    exact (exchange_perm hp hq).trans hsp.perm
  have hlength := hperm.length_eq
  rw [length_append, length_cons] at hlength
  refine ⟨v, L, R, hperm, ne_nil_of_length_pos hpos, ne_nil_of_length_pos (by omega), hL, hR, _, _, hmedian, hpart, ?_⟩
  rw [swap_store hp hq, hparts]

/-- The partition stays in range. Once `Median3` has returned for a part of at least three elements, the loop returns, whatever cells there are
outside of the part: no index outside of it is read. `Low` is inside the part, the elements are on the right sides of the pivot, and both parts
that are left are smaller. -/
theorem partition_in_range (c A : Cells T) (xs : List T) (v : T) (Left : Nat) (Right : Int) (hright : Right = Left + xs.length - 1)
    (hlen : 2 ≤ Right - Left) (hmedian : median3 (c.store Left xs) Left Right = some (A, v)) (n : Nat) (hn : xs.length ≤ n) :
    ∃ A' Low, loop (partitionRound n v) n (A, (Left : Int), Right - 1) = some (A', Low) ∧ Left < Low ∧ Low ≤ Right - 1 ∧
      (∃ L R, swap A' Low (Right - 1) = some (c.store Left (L ++ v :: R)) ∧ (L ++ v :: R).Perm xs ∧ Low = Left + L.length ∧
        (∀ x ∈ L, x ≤ v) ∧ ∀ x ∈ R, v ≤ x) ∧
      Low - 1 - Left < Right - Left ∧ Right - (Low + 1) < Right - Left := by
  obtain ⟨e, he⟩ : ∃ e, xs.length = e + 2 := ⟨xs.length - 2, by omega⟩
  obtain rfl : Right = (Left + (e + 1) : Nat) := by omega
  have hsum : 2 * Left + (e + 1) < 2 ^ 31 := by
    unfold median3 at hmedian
    cases hadd : Word.addInt (Left : Int) (Left + (e + 1) : Nat) with
    | none =>
      rw [hadd] at hmedian
      cases hmedian
    | some sum =>
      have := Word.eq_add_of_addInt hadd
      omega
  obtain ⟨v', L, R, hperm, hL0, hR0, hL, hR, A1, A', hmedian', hpart, hswap⟩ := qsort_partition (c := c) he (by omega) hsum hn
  rw [add_zero] at hmedian' hpart
  rw [hmedian'] at hmedian
  cases hmedian
  have hlength := hperm.length_eq
  rw [length_append, length_cons] at hlength
  have hposL := length_pos_of_ne_nil hL0
  have hposR := length_pos_of_ne_nil hR0
  have hhide : ((Left + (e + 1) : Nat) : Int) - 1 = (Left + e : Nat) := by omega
  rw [hhide]
  exact ⟨A', _, hpart, by omega, by omega, ⟨L, R, hswap, hperm, by omega, hL, hR⟩, by omega, by omega⟩

theorem partition_in_range_three : ∃ (A A' : Cells Int) (v Low : Int), median3 (Cells.store (fun _ => none) 5 [3, 1, 3]) 5 7 = some (A, v) ∧
    loop (partitionRound 3 v) 3 (A, 5, 6) = some (A', Low) ∧ 5 < Low ∧ Low ≤ 6 := by
  have hlen : ([3, 1, 3] : List Int).length = 1 + 2 := rfl
  obtain ⟨v, ys, -, hmedian⟩ := median3_spec (c := fun _ => none) (l := 5) hlen (by decide) (by decide)
  obtain ⟨A', Low, hrun, hlow, hhigh, -⟩ := partition_in_range _ _ [3, 1, 3] v 5 7 (by decide) (by decide) hmedian 3 (by decide)
  exact ⟨_, A', v, Low, hmedian, hrun, hlow, hhigh⟩

theorem qsort_spec (hn : xs.length < n) (hxs : c.Holds l xs) (hfit : 2 * (l + xs.length) ≤ 2 ^ 31 + 1001) :
    ∃ ys, ys.Perm xs ∧ ys.Pairwise (· ≤ ·) ∧ qsort n c l ((l : Int) + xs.length - 1) = some (c.store l ys) := by
  induction n generalizing c l xs with
  | zero => omega
  | succ n ih =>
    rw [qsort]
    by_cases hcut : Cutoff ≤ (l : Int) + xs.length - 1 - l
    · rw [if_pos hcut]
      unfold Cutoff at hcut
      obtain ⟨e, he⟩ : ∃ e, xs.length = e + 2 := ⟨xs.length - 2, by omega⟩
      obtain ⟨v, L, R, hp, -, -, hL, hR, A, A', hmedian, hpart, hswap⟩ :=
        qsort_partition (c := c) (l := l) he (by omega) (by omega) (by omega : xs.length ≤ n)
      have hlen := hp.length_eq
      rw [length_append, length_cons] at hlen
      -- the two parts
      obtain ⟨hholdL, hholdR⟩ := holds_append.mp (holds_store c l (L ++ v :: R))
      obtain ⟨L', hpermL, hsortL, hrunL⟩ := ih (by omega : L.length < n) hholdL (by omega)
      have hholdR' : ((c.store l (L ++ v :: R)).store l L').Holds (l + L.length + 1) R := by
        refine Cells.Holds.store_before hholdR.2 ?_
        rw [hpermL.length_eq]
        omega
      obtain ⟨R', hpermR, hsortR, hrunR⟩ := ih (by omega : R.length < n) hholdR' (by omega)
      rw [store_parts hpermL.length_eq hpermR.length_eq] at hrunR
      refine ⟨L' ++ v :: R', ?_, ?_, ?_⟩
      · exact (hpermL.append (hpermR.cons v)).trans hp
      · grind [pairwise_parts]
      · have hr : (l : Int) + xs.length - 1 = (l + (e + 1) : Nat) := by omega
        have hhide : ((l + (e + 1) : Nat) : Int) - 1 = (l + e : Nat) := by omega
        have hnextL : ((l + L.length : Nat) : Int) - 1 = (l : Int) + L.length - 1 := by omega
        have hnextR : ((l + L.length : Nat) : Int) + 1 = (l + L.length + 1 : Nat) := by omega
        have hendR : ((l + L.length + 1 : Nat) : Int) + R.length - 1 = (l + (e + 1) : Nat) := by omega
        rw [hendR] at hrunR
        rw [store_eq_self hxs, add_zero] at hmedian
        rw [add_zero] at hpart
        simp only [hr, hhide, hmedian, hpart, hswap, hnextL, hrunL, hnextR, hrunR, Option.bind_eq_bind, Option.bind_some]
    · rw [if_neg hcut]
      have hcnt : (l : Int) + xs.length - 1 - l + 1 = xs.length := by omega
      rw [hcnt]
      exact insertionSort_spec hxs

/-- `QuickSort` sorts every array for which no `Left + Right` overflows: it is computed for parts of more than `Cutoff` elements only, so that it is
at most `2 * (N - 1) - Cutoff`. -/
theorem quickSort_sorts (xs : List T) (hfit : 2 * xs.length ≤ 2 ^ 31 + 1001) :
    ∃ ys, ys.Perm xs ∧ ys.Pairwise (· ≤ ·) ∧ ∃ n₀, ∀ n ≥ n₀, quickSort n (Cells.ofList xs) xs.length = some (Cells.ofList ys) := by
  -- the rounds and calls that are allowed do not matter, since only one list is sorted
  have hspec : ∀ n ≥ xs.length + 1, ∃ ys, ys.Perm xs ∧ ys.Pairwise (· ≤ ·) ∧
      quickSort n (ofList xs) xs.length = some (ofList ys) := by
    intro n hn
    obtain ⟨ys, hperm, hsort, hrun⟩ := qsort_spec (by omega : xs.length < n) (holds_ofList xs) (by omega)
    rw [store_ofList hperm.length_eq.symm] at hrun
    have hright : ((0 : Nat) : Int) + xs.length - 1 = xs.length - 1 := by omega
    rw [hright] at hrun
    exact ⟨ys, hperm, hsort, hrun⟩
  obtain ⟨ys, hperm, hsort, -⟩ := hspec (xs.length + 1) (le_refl _)
  refine ⟨ys, hperm, hsort, xs.length + 1, ?_⟩
  intro n hn
  obtain ⟨ys', hperm', hsort', hrun⟩ := hspec n hn
  rw [hrun, (hperm'.trans hperm.symm).eq_of_pairwise' hsort' hsort]

/-- The array of `main`. -/
theorem quickSort_sorts_main :
    ∃ ys : List Int, ys.Perm [10, 5, 2, 3] ∧ ys.Pairwise (· ≤ ·) ∧
      ∃ n₀, ∀ n ≥ n₀, quickSort n (Cells.ofList [10, 5, 2, 3]) 4 = some (Cells.ofList ys) :=
  quickSort_sorts [10, 5, 2, 3] (by decide)

end CsLearning.Code.QuickSort
