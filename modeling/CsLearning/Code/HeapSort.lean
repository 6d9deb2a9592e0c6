import CsLearning.Code.QuickSort
import CsLearning.Lib.Cpp
import CsLearning.Lib.Heap

/-!
# Heap sort

`HeapSort` of `heap_sort.c`: `PercDown` first makes a heap of the array, from the last node with children on, and then restores it each time the root
was exchanged with the last element of the heap.

`PercDown` moves a hole towards the leaves. With the value of the root in the hole each of its rounds is an exchange, and `Descent` says what these
exchanges keep. `Parent * 2 + 1` is computed before it is compared with `N`, also when the hole is at a leaf, and it overflows when the hole comes to
a node from `2 ^ 30` on. That needs more than `2 ^ 30` elements, and an array of so many elements in ascending order is one where it happens.
-/

open List Option Function Nat

namespace CsLearning.Code.HeapSort

open Cells

variable {T : Type} [LinearOrder T]

/-! ## The code -/

/-- `Parent * 2 + 1` on `int`s. -/
def leftChild (Parent : Nat) : Option Nat := if Parent * 2 + 1 < 2 ^ 31 then some (Parent * 2 + 1) else none

/-- `if ((Child != N - 1) && (A[Child] < A[Child + 1])) Child++;`. -/
def greaterChild (s : Watched T) (N Child : Nat) : Option (Watched T × Nat) :=
  if Child ≠ N - 1 then do
    let (a, s) ← s.read Child
    let (b, s) ← s.read (Child + 1)
    return (s, if a < b then Child + 1 else Child)
  else some (s, Child)

/-- One round of the loop of `PercDown`, in which the array and `Parent` are the variables. -/
def percRound (X : T) (N : Nat) : Watched T × Nat → Option (Round (Watched T × Nat) (Watched T × Nat))
  | (s, Parent) => do
    let Child ← leftChild Parent
    if Child < N then
      let (s, Child) ← greaterChild s N Child
      let (a, s) ← s.read Child
      if X ≥ a then return .stop (s, Parent)
      else
        let (a, s) ← s.read Child
        let s ← s.write Parent a
        return .again (s, Child)
    else return .stop (s, Parent)

/-- `PercDown(A, p, N)`, with at most `n` rounds of its loop: the array at its end and the cells it accessed. -/
def percDown (n : Nat) (A : Cells T) (p N : Nat) : Option (Watched T) := do
  let (X, s) ← Watched.read ⟨A, []⟩ p
  let (s, Parent) ← loop (percRound X N) n (s, p)
  s.write Parent X

/-- A call of `PercDown`: its arguments and the cells it accessed. -/
structure Call where
  p : Nat
  N : Nat
  seen : List Nat

/-- `PercDown(A, p, N)` as a call of `HeapSort`. -/
def callPercDown (n : Nat) (A : Cells T) (calls : List Call) (p N : Nat) : Option (Cells T × List Call) := do
  let s ← percDown n A p N
  return (s.cells, calls ++ [⟨p, N, s.seen⟩])

/-- The body of the first loop of `HeapSort`. -/
def buildStep (n N : Nat) : Cells T × List Call → Nat → Option (Cells T × List Call)
  | (A, calls), i => callPercDown n A calls i N

/-- The body of the second loop of `HeapSort`. -/
def extractStep (n : Nat) : Cells T × List Call → Nat → Option (Cells T × List Call)
  | (A, calls), i => do
    let A ← QuickSort.swap A (0 : Nat) i
    callPercDown n A calls 0 i

/-- `HeapSort(A, N)`, with at most `n` rounds of each loop of `PercDown`: the array at its end and the calls of `PercDown`. -/
def heapSort (n : Nat) (A : Cells T) (N : Nat) : Option (Cells T × List Call) := do
  let st ← (List.range (N / 2)).reverse.foldlM (buildStep n N) (A, [])
  (List.range' 1 (N - 1)).reverse.foldlM (extractStep n) st

/-- `HeapSort` leaves the array sorted, and each call of `PercDown` stays within the part it is given. -/
def Sorts (xs : List T) : Prop :=
  ∃ n ys calls, heapSort n (Cells.ofList xs) xs.length = some (Cells.ofList ys, calls) ∧ ys.Perm xs ∧ ys.Pairwise (· ≤ ·) ∧
    ∀ call ∈ calls, ∀ i ∈ call.seen, i < call.N

/-! ## Sifting down -/

variable {n N L p k i : Nat} {f g : Nat → T} {s : Watched T} {X : T}

theorem leftChild_of_lt (h : k < 2 ^ 30) : leftChild k = some (2 * k + 1) := by
  rw [leftChild, if_pos (by omega), mul_comm]

/-- The loop has come to `Parent`: with `X` there the first `N` cells hold the values of `f` as a heap but for that node. -/
structure Descent (L p N : Nat) (f : Nat → T) (X : T) (s : Watched T) (Parent : Nat) (g : Nat → T) : Prop where
  cells : s.cells = Cells.ofFn L g
  seen : ∀ i ∈ s.seen, i < N
  from_le : p ≤ Parent
  lt : Parent < N
  heap : SinkFrom p N (Function.update g Parent X) Parent
  values : bag N (Function.update g Parent X) = bag N f
  behind : ∀ i, N ≤ i → g i = f i

theorem greaterChild_spec (hcs : s.cells = ofFn L g) (hseen : ∀ i ∈ s.seen, i < N) (hN : N ≤ L) (hch : 2 * k + 1 < N) :
    ∃ s' c, greaterChild s N (2 * k + 1) = some (s', c) ∧ s'.cells = ofFn L g ∧ (∀ i ∈ s'.seen, i < N) ∧
      0 < c ∧ c < N ∧ parent c = k ∧ ∀ j, 0 < j → j < N → parent j = k → g j ≤ g c := by
  unfold greaterChild
  by_cases hl : 2 * k + 1 ≠ N - 1
  · have hr : s.cells (2 * k + 1) = some (g (2 * k + 1)) := by rw [hcs, ofFn_of_lt (by omega)]
    have hr' : s.cells (2 * k + 1 + 1) = some (g (2 * k + 2)) := by rw [hcs, ofFn_of_lt (by omega)]
    rw [if_pos hl, Watched.read_eq hr]
    simp only [bind_eq_bind, bind_some]
    rw [Watched.read_eq (s := ⟨s.cells, s.seen ++ [2 * k + 1]⟩) hr']
    refine ⟨_, _, rfl, hcs, ?_, ?_⟩
    · intro i hi
      simp only [mem_append, mem_singleton] at hi
      rcases hi with (hi | rfl) | rfl
      · exact hseen i hi
      · exact hch
      · omega
    · by_cases hlt : g (2 * k + 1) < g (2 * k + 2)
      · rw [if_pos hlt]
        refine ⟨by omega, by omega, parent_right k, fun j hj _ hjk => ?_⟩
        rcases eq_child hj hjk with rfl | rfl
        · exact hlt.le
        · exact le_rfl
      · rw [if_neg hlt]
        refine ⟨by omega, hch, parent_left k, fun j hj _ hjk => ?_⟩
        rcases eq_child hj hjk with rfl | rfl
        · exact le_rfl
        · exact not_lt.mp hlt
  · rw [if_neg hl]
    refine ⟨_, _, rfl, hcs, hseen, by omega, hch, parent_left k, fun j hj hjn hjk => ?_⟩
    rcases eq_child hj hjk with rfl | rfl
    · exact le_rfl
    · omega

/-- One round: the hole stays where the heap is in order, or comes to the greatest child. -/
theorem percRound_spec (h : Descent L p N f X s k g) (hN : N ≤ L) (hint : N ≤ 2 ^ 30) :
    (∃ s', percRound X N (s, k) = some (.stop (s', k)) ∧ Descent L p N f X s' k g ∧ HeapFrom p N (update g k X)) ∨
      ∃ s' c g', percRound X N (s, k) = some (.again (s', c)) ∧ Descent L p N f X s' c g' ∧ k < c := by
  have hk := h.lt
  unfold percRound
  simp only [leftChild_of_lt (show k < 2 ^ 30 by omega), bind_eq_bind, bind_some]
  by_cases hch : 2 * k + 1 < N
  · obtain ⟨s₁, c, hrun, hcs, hseen, hc, hcN, hck, hmax⟩ := greaterChild_spec h.cells h.seen hN hch
    have hkc : k < c := hck ▸ parent_lt hc
    have hread : s₁.cells c = some (g c) := by rw [hcs, ofFn_of_lt (by omega)]
    have hseen' : ∀ i ∈ s₁.seen ++ [c], i < N := by grind
    rw [if_pos hch, hrun]
    simp only [bind_some, Watched.read_eq hread]
    by_cases hX : X ≥ g c
    · rw [if_pos hX]
      refine Or.inl ⟨_, rfl, ⟨hcs, hseen', h.from_le, h.lt, h.heap, h.values, h.behind⟩, h.heap.done ?_⟩
      intro j hj hjn hjk
      have hkj := hjk ▸ parent_lt hj
      rw [update_self, update_of_ne (by omega)]
      exact (hmax j hj hjn hjk).trans hX
    · have hwrite : (Watched.mk s₁.cells (s₁.seen ++ [c] ++ [c])).cells k = some (g k) := by
        rw [hcs, ofFn_of_lt (by omega)]
      rw [if_neg hX, Watched.read_eq (s := ⟨s₁.cells, s₁.seen ++ [c]⟩) hread, bind_some, Watched.write_eq hwrite]
      have hvirtual := update_swap (Nat.ne_of_lt hkc) g X
      refine Or.inr ⟨_, c, update g k (g c), rfl, ⟨?_, ?_, ?_, hcN, ?_, ?_, ?_⟩, hkc⟩
      · grind [update_ofFn]
      · intro i hi
        simp only [mem_append, mem_singleton] at hi
        rcases hi with ((hi | rfl) | rfl) | rfl
        · exact hseen i hi
        · exact hcN
        · exact hcN
        · exact hk
      · exact h.from_le.trans hkc.le
      · rw [hvirtual]
        refine h.heap.swap h.from_le hc hcN hck ?_ ?_
        · grind
        · grind
      · rw [hvirtual, bag_swap hk hcN, h.values]
      · intro i hi
        rw [update_of_ne (by omega)]
        exact h.behind i hi
  · rw [if_neg hch]
    refine Or.inl ⟨s, rfl, h, h.heap.done fun j hj hjn hjk => ?_⟩
    rcases eq_child hj hjk with rfl | rfl
    · exact absurd hjn hch
    · omega

/-- What a call of `PercDown` does: the values stay, in the order of a heap from the node `p` on. -/
theorem percDown_spec (h : SinkFrom p N f p) (hp : p < N) (hN : N ≤ L) (hint : N ≤ 2 ^ 30) (hn : N < n) :
    ∃ s g, percDown n (ofFn L f) p N = some s ∧ s.cells = ofFn L g ∧ HeapFrom p N g ∧ bag N g = bag N f ∧
      (∀ i, N ≤ i → g i = f i) ∧ ∀ i ∈ s.seen, i < N := by
  have hr : (Watched.mk (ofFn L f) []).cells p = some (f p) := ofFn_of_lt (by omega)
  have hst : Descent L p N f (f p) ⟨ofFn L f, [] ++ [p]⟩ p f := by
    refine ⟨rfl, ?_, le_rfl, hp, ?_, ?_, fun _ _ => rfl⟩
    · grind
    · rwa [update_eq_self]
    · rw [update_eq_self]
  have hl : ∃ st : Watched T × Nat, loop (percRound (f p) N) n (⟨ofFn L f, [] ++ [p]⟩, p) = some st ∧
      ∃ g, Descent L p N f (f p) st.1 st.2 g ∧ HeapFrom p N (update g st.2 (f p)) := by
    refine loop_of_invariant (I := fun st => ∃ g, Descent L p N f (f p) st.1 st.2 g) (μ := fun st => N - st.2) ?_ ⟨f, hst⟩ (by omega)
    rintro ⟨s, k⟩ ⟨g, hd⟩
    rcases percRound_spec hd hN hint with ⟨s', hs, hd', hheap⟩ | ⟨s', c, g', hs, hd', hlt⟩
    · exact Or.inl ⟨_, hs, g, hd', hheap⟩
    · have hk := hd.lt
      exact Or.inr ⟨_, hs, ⟨g', hd'⟩, Nat.sub_lt_sub_left hk hlt⟩
  obtain ⟨⟨s, k⟩, hrun, g, hd, hheap⟩ := hl
  dsimp only at hd hheap
  have hk := hd.lt
  have hc : s.cells k = some (g k) := by rw [hd.cells, ofFn_of_lt (by omega)]
  refine ⟨⟨update s.cells k (some (f p)), s.seen ++ [k]⟩, update g k (f p), ?_, ?_, hheap, hd.values, ?_, ?_⟩
  · rw [percDown, Watched.read_eq hr]
    simp only [bind_eq_bind, bind_some, hrun, Watched.write_eq hc]
  · simp only [hd.cells]
    exact update_ofFn (by omega) (f p)
  · intro i hi
    rw [update_of_ne (by omega)]
    exact hd.behind i hi
  · intro i hi
    rcases mem_append.mp hi with hi | hi
    · exact hd.seen i hi
    · rwa [mem_singleton.mp hi]

/-! ## The two phases -/

/-- What the calls of `PercDown` accessed so far is within the part each was given. -/
def Within (calls : List Call) : Prop := ∀ call ∈ calls, ∀ i ∈ call.seen, i < call.N

theorem Within.concat {calls : List Call} {seen : List Nat} (h : Within calls) (hseen : ∀ i ∈ seen, i < N) (p : Nat) :
    Within (calls ++ [⟨p, N, seen⟩]) := by
  intro call hc i hi
  rcases mem_append.mp hc with hc | hc
  · exact h call hc i hi
  · rw [mem_singleton.mp hc] at hi ⊢
    exact hseen i hi

theorem callPercDown_spec {calls : List Call} (h : SinkFrom p N f p) (hp : p < N) (hN : N ≤ L) (hint : N ≤ 2 ^ 30) (hn : N < n)
    (hcalls : Within calls) :
    ∃ g calls', callPercDown n (ofFn L f) calls p N = some (ofFn L g, calls') ∧ HeapFrom p N g ∧ bag N g = bag N f ∧
      (∀ i, N ≤ i → g i = f i) ∧ Within calls' := by
  obtain ⟨s, g, hrun, hcs, hheap, hvals, hbh, hseen⟩ := percDown_spec h hp hN hint hn
  refine ⟨g, calls ++ [⟨p, N, s.seen⟩], ?_, hheap, hvals, hbh, hcalls.concat hseen p⟩
  rw [callPercDown, hrun, ← hcs]
  rfl

/-- The values of `f` are arranged in a way that is in `P`, and no call looked behind its part. -/
structure Arranged (N : Nat) (f : Nat → T) (P : (Nat → T) → Prop) (s : Cells T × List Call) : Prop where
  cells : ∃ g, s.1 = Cells.ofFn N g ∧ P g ∧ bag N g = bag N f
  within : Within s.2

variable {s : Cells T × List Call}

theorem build_spec (h : Arranged N f (HeapFrom k N) s) (hk : k ≤ N) (hint : N ≤ 2 ^ 30) (hn : N < n) :
    ∃ s', (List.range k).reverse.foldlM (buildStep n N) s = some s' ∧ Arranged N f (IsHeap N) s' := by
  have hs : ∀ i s, 0 ≤ i → i < 0 + k → Arranged N f (HeapFrom (i + 1) N) s →
      ∃ s', buildStep n N s i = some s' ∧ Arranged N f (HeapFrom i N) s' := by
    rintro i ⟨_, calls⟩ - hi ⟨⟨g, rfl, hheap, hvals⟩, hcs⟩
    obtain ⟨g', calls', hrun, hheap', hvals', -, hcs'⟩ := callPercDown_spec hheap.sink (show i < N by omega) le_rfl hint hn hcs
    exact ⟨_, hrun, ⟨g', rfl, hheap', hvals'.trans hvals⟩, hcs'⟩
  rw [← zero_add k] at h
  obtain ⟨s', hrun, ⟨g, hg, hheap, hvals⟩, hcs⟩ := foldlM_down (P := fun i => Arranged N f (HeapFrom i N)) hs h
  rw [← range_eq_range'] at hrun
  exact ⟨s', hrun, ⟨g, hg, heapFrom_zero.mp hheap, hvals⟩, hcs⟩

/-- The first `k` cells are a heap; the others are sorted and not less than those. -/
structure Drained (N k : Nat) (f : Nat → T) : Prop where
  heap : IsHeap k f
  below : ∀ i j, i < k → k ≤ j → j < N → f i ≤ f j
  sorted : ∀ i j, k ≤ i → i ≤ j → j < N → f i ≤ f j

theorem Drained.extract (h : Drained N (k + 1) f) (hheap : IsHeap k g) (hvals : bag k g = bag k (f ∘ Equiv.swap 0 k))
    (hbh : ∀ i, k ≤ i → g i = (f ∘ Equiv.swap 0 k) i) : Drained N k g := by
  have hr : g k = f 0 := by
    rw [hbh k le_rfl]
    simp
  have hafter : ∀ j, k < j → g j = f j := by grind
  -- a value of the heap was one of the heap before
  have hbef : ∀ i, i < k → ∃ j < k + 1, g i = f j := by
    intro i hi
    obtain ⟨j, hj, hij⟩ := exists_of_bag_eq hvals hi
    rw [comp_apply, Equiv.swap_apply_def] at hij
    split_ifs at hij with h₀ h₁
    · exact ⟨k, by omega, hij⟩
    · exact ⟨0, by omega, hij⟩
    · exact ⟨j, by omega, hij⟩
  refine ⟨hheap, fun i j hi hj hjN => ?_, fun i j hi hij hjN => ?_⟩
  · obtain ⟨l, hl, hil⟩ := hbef i hi
    rw [hil]
    rcases eq_or_lt_of_le hj with rfl | hj
    · rw [hr]
      exact h.heap.le_root hl
    · rw [hafter j hj]
      exact h.below l j hl hj hjN
  · rcases eq_or_lt_of_le hi with rfl | hi
    · rcases eq_or_lt_of_le hij with rfl | hij
      · exact le_rfl
      · rw [hr, hafter j hij]
        exact h.below 0 j (by omega) hij hjN
    · rw [hafter i hi, hafter j (by omega)]
      exact h.sorted i j hi hij hjN

omit [LinearOrder T] in
theorem swap_ofFn (hi : i < L) (hk : k < L) : QuickSort.swap (ofFn L f) i k = some (ofFn L (f ∘ Equiv.swap i k)) := by
  have hget : ∀ j < L, get (ofFn L f) (j : Nat) = some (f j) := by
    intro j hj
    rw [get_natCast, ofFn_of_lt hj]
  rw [QuickSort.swap, hget i hi, hget k hk]
  simp only [bind_eq_bind, bind_some, set_natCast (ofFn_of_lt hi), update_ofFn hi]
  rw [set_natCast (ofFn_of_lt hk), update_ofFn hk, Equiv.comp_swap_eq_update]
  by_cases hik : i = k
  · subst hik
    rw [update_idem]
  · rw [update_comm hik]

theorem extract_spec (h : Arranged N f (Drained N (1 + k)) s) (hk : k < N) (hint : N ≤ 2 ^ 30) (hn : N < n) :
    ∃ s', (range' 1 k).reverse.foldlM (extractStep n) s = some s' ∧ Arranged N f (Drained N 1) s' := by
  refine foldlM_down (P := fun i => Arranged N f (Drained N i)) ?_ h
  rintro i ⟨_, calls⟩ hpos hi ⟨⟨g, rfl, hdrained, hvals⟩, hcs⟩
  have hiN : i < N := by omega
  have hswap : QuickSort.swap (ofFn N g) (0 : Nat) (i : Nat) = some (ofFn N (g ∘ Equiv.swap 0 i)) := swap_ofFn (by omega) hiN
  obtain ⟨g', calls', hrun, hheap, hvals', hbh, hcs'⟩ :=
    callPercDown_spec (n := n) hdrained.heap.swap_last hpos hiN.le (by omega) (by omega) hcs
  refine ⟨(ofFn N g', calls'), ?_, ⟨g', rfl, hdrained.extract (heapFrom_zero.mp hheap) hvals' hbh, ?_⟩, hcs'⟩
  · rw [extractStep, hswap]
    simp only [bind_eq_bind, bind_some, hrun]
  · calc bag N g' = bag N (g ∘ Equiv.swap 0 i) := bag_eq_of_le hiN.le hvals' hbh
      _ = bag N g := bag_swap (by omega) hiN g
      _ = bag N f := hvals

theorem sorts_of_length_le [Inhabited T] {xs : List T} (h : xs.length ≤ 2 ^ 30) : Sorts xs := by
  obtain ⟨f, hf⟩ := exists_range_map xs
  have hst : Arranged xs.length f (HeapFrom (xs.length / 2) xs.length) (ofFn xs.length f, []) :=
    ⟨⟨f, rfl, heapFrom_half xs.length f, rfl⟩, fun call hc => absurd hc not_mem_nil⟩
  obtain ⟨s, hrun, ⟨g, hg, hheap, hvals⟩, hcs⟩ := build_spec hst (Nat.div_le_self _ 2) h (Nat.lt_succ_self _)
  have hend : ∃ s', (range' 1 (xs.length - 1)).reverse.foldlM (extractStep (xs.length + 1)) s = some s' ∧
      Arranged xs.length f (fun g => ∀ i j, i ≤ j → j < xs.length → g i ≤ g j) s' := by
    rcases Nat.eq_zero_or_pos xs.length with h0 | hpos
    · rw [h0] at hg hvals ⊢
      exact ⟨s, rfl, ⟨g, hg, fun i j _ hj => by omega, hvals⟩, hcs⟩
    · have hdrained : Drained xs.length (1 + (xs.length - 1)) g := by
        rw [Nat.add_sub_of_le hpos]
        exact ⟨hheap, fun i j _ hj hj' => by omega, fun i j hi hij hj => by omega⟩
      obtain ⟨s', hrun', ⟨g', hg', hd, hvals'⟩, hcs'⟩ := extract_spec ⟨⟨g, hg, hdrained, hvals⟩, hcs⟩ (by omega) h (Nat.lt_succ_self _)
      refine ⟨s', hrun', ⟨g', hg', fun i j hij hj => ?_, hvals'⟩, hcs'⟩
      rcases Nat.eq_zero_or_pos i with rfl | hi
      · rcases Nat.eq_zero_or_pos j with rfl | hj'
        · exact le_rfl
        · exact hd.below 0 j Nat.one_pos hj' hj
      · exact hd.sorted i j hi hij hj
  obtain ⟨⟨_, calls⟩, hrun', ⟨g', rfl, hsort, hvals'⟩, hcs'⟩ := hend
  refine ⟨xs.length + 1, (List.range xs.length).map g', calls, ?_, ?_, ?_, hcs'⟩
  · grind [heapSort, ofFn_eq_ofList]
  · grind [perm_of_bag_eq]
  · rw [pairwise_map]
    refine pairwise_lt_range.imp_of_mem ?_
    intro i j _ hj hij
    exact hsort i j hij.le (mem_range.mp hj)

/-! ## The arrays that are too long -/

/-- The numbers below `N` in ascending order, each as an `int`. -/
def ascending (N : Nat) : List CInt := (List.range N).map fun i : Nat => CInt.clamp i

/-- The hole comes to the last element of an ascending array, whose left child has no index. -/
theorem percDown_ascending (hN : 2 ^ 30 < N) (hN' : N < 2 ^ 31) (n : Nat) (hf : ∀ i j, i < j → j < N → f i < f j) :
    percDown n (ofFn N f) (N / 2 - 1) N = none := by
  have hr : (Watched.mk (ofFn N f) []).cells (N / 2 - 1) = some (f (N / 2 - 1)) := ofFn_of_lt (by omega)
  have hl : leftChild (N / 2 - 1) = some (2 * (N / 2 - 1) + 1) := leftChild_of_lt (by omega)
  have hseen : ∀ i ∈ ([] ++ [N / 2 - 1] : List Nat), i < N := by grind
  obtain ⟨s, c, hrun, hcs, -, hc, hcN, hparent, hmax⟩ :=
    greaterChild_spec (s := ⟨ofFn N f, [] ++ [N / 2 - 1]⟩) (k := N / 2 - 1) rfl hseen le_rfl (by omega)
  -- the greatest child is the last element
  have hlast : c = N - 1 := by
    by_contra hne
    have hle := hmax (N - 1) (by omega) (by omega) (by unfold parent; omega)
    exact absurd (hf c (N - 1) (by omega) (by omega)) (not_lt.mpr hle)
  have hcell : s.cells c = some (f c) := by rw [hcs, ofFn_of_lt hcN]
  have hcell' : s.cells (N / 2 - 1) = some (f (N / 2 - 1)) := by rw [hcs, ofFn_of_lt (by omega)]
  have hrd : ∃ s', percRound (f (N / 2 - 1)) N (⟨ofFn N f, [] ++ [N / 2 - 1]⟩, N / 2 - 1) = some (.again (s', N - 1)) := by
    unfold percRound
    have hlt : ¬ f (N / 2 - 1) ≥ f c := not_le.mpr (hf _ _ (by omega) hcN)
    simp only [hl, bind_eq_bind, bind_some, if_pos (show 2 * (N / 2 - 1) + 1 < N by omega), hrun, Watched.read_eq hcell, if_neg hlt]
    rw [Watched.read_eq (s := ⟨s.cells, s.seen ++ [c]⟩) hcell]
    simp only [bind_some]
    rw [Watched.write_eq (s := ⟨s.cells, s.seen ++ [c] ++ [c]⟩) hcell', hlast]
    exact ⟨_, rfl⟩
  obtain ⟨s', hrd⟩ := hrd
  have hoverflow : percRound (f (N / 2 - 1)) N (s', N - 1) = none := by
    have hn : leftChild (N - 1) = none := if_neg (by omega)
    unfold percRound
    simp only [hn, bind_eq_bind, bind_none]
  have hloop : loop (percRound (f (N / 2 - 1)) N) n (⟨ofFn N f, [] ++ [N / 2 - 1]⟩, N / 2 - 1) = none := by
    rcases n with _ | _ | n
    · rfl
    · rw [loop_of_again hrd]
      rfl
    · rw [loop_of_again hrd, loop, hoverflow]
  rw [percDown, Watched.read_eq hr]
  simp only [bind_eq_bind, bind_some, hloop, bind_none]

theorem not_sorts_ascending (hN : 2 ^ 30 < N) (hN' : N < 2 ^ 31) : ¬ Sorts (ascending N) := by
  rintro ⟨n, ys, calls, hrun, -⟩
  have hcs : ofList (ascending N) = ofFn N fun i : Nat => CInt.clamp i := (ofFn_eq_ofList N _).symm
  have hlen : (ascending N).length = N := by rw [ascending, length_map, length_range]
  have hmono : ∀ i j : Nat, i < j → j < N → CInt.clamp i < CInt.clamp j := by
    intro i j hij hj
    rw [← Subtype.coe_lt_coe]
    simp only [CInt.clamp]
    omega
  have hhalf : N / 2 = N / 2 - 1 + 1 := by omega
  have hfst : (List.range (N / 2)).reverse.foldlM (buildStep n N) (ofFn N fun i : Nat => CInt.clamp i, []) = none := by
    rw [hhalf, foldlM_range_reverse, buildStep, callPercDown, percDown_ascending hN hN' n hmono]
    rfl
  rw [hlen, hcs, heapSort, hfst] at hrun
  cases hrun

end CsLearning.Code.HeapSort
