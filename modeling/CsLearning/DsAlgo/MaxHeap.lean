import CsLearning.Lib.Heap
import CsLearning.Lib.Run

/-!
# `max_heap.h`: a bounded heap

The class `MaxHeap<T>`: an array of `capacity` cells of which the first `size` count. The array is a function on the indices, and what
`read` does not find is outside of it. A call ends in nothing when it reads outside the array or an `int` overflows.

`filterDown` is called by `remove` with the old size as its bound and with `<=`, so it looks at the cell behind the last and may move
it into the heap. `Sinks` says which nodes it visits, in terms of the array before the call. `raise_rule` and `sink_rule` are the
rules for the two loops: what holds at their start and is kept by each exchange holds at their end.
-/

open Function

namespace CsLearning.DsAlgo

variable {α : Type}

/-- A heap: the array is a function on the indices, of which those below `capacity` exist. -/
structure MaxHeap (α : Type) where
  capacity : Nat
  size : Nat
  heap : Nat → α
  size_le : size ≤ capacity
  capacity_lt : capacity < 2 ^ 31

/-- The constructor: no cell counts, and the cells hold anything. -/
def MaxHeap.new (cap : Nat) (h : cap < 2 ^ 31) (raw : Nat → α) : MaxHeap α := ⟨cap, 0, raw, Nat.zero_le cap, h⟩

/-- The values of a heap. -/
def MaxHeap.values (h : MaxHeap α) : Multiset α := bag h.size h.heap

theorem MaxHeap.card_values (h : MaxHeap α) : h.values.card = h.size := by
  rw [values, bag, Multiset.card_map, Multiset.card_range]

theorem MaxHeap.mem_values {h : MaxHeap α} {y : α} : y ∈ h.values ↔ ∃ i, i < h.size ∧ h.heap i = y := by
  simp [values, bag]

variable {i cap stop k : Nat} {heap f : Nat → α} {P : (Nat → α) → Nat → Prop}

/-- The values without the one at `i`: the last takes its place. -/
theorem MaxHeap.values_update (h : MaxHeap α) (hi : i < h.size) :
    h.values = h.heap i ::ₘ bag (h.size - 1) (update h.heap i (h.heap (h.size - 1))) := by
  obtain ⟨m, hm⟩ : ∃ m, h.size = m + 1 := ⟨h.size - 1, by omega⟩
  rw [values, hm, ← bag_swap (show i < m + 1 by omega) (Nat.lt_succ_self m), bag_succ]
  congr 1
  · simp
  · refine bag_congr fun j hj => ?_
    by_cases hji : j = i
    · subst hji; simp
    · simp [hji, Equiv.swap_apply_of_ne_of_ne hji (ne_of_lt hj)]

variable [LinearOrder α]

/-- The loop of `filterUp`: the value goes up from `index` as long as its parent does not exceed it. -/
def raise (value : α) (heap : Nat → α) (index : Nat) : Nat → α :=
  if _h : 0 < index then
    if value < heap (parent index) then Function.update heap index value
    else raise value (Function.update heap index (heap (parent index))) (parent index)
  else Function.update heap index value
termination_by index
decreasing_by exact parent_lt _h

/-- `filterUp`. -/
def filterUp (heap : Nat → α) (index : Nat) : Nat → α := raise (heap index) heap index

/-- `insert`. -/
def MaxHeap.insert (h : MaxHeap α) (val : α) : MaxHeap α × Bool :=
  if hfull : h.size = h.capacity then (h, false)
  else
    ({ h with
        heap := filterUp (Function.update h.heap h.size val) h.size
        size := h.size + 1
        size_le := Nat.lt_of_le_of_ne h.size_le hfull }, true)

/-- `createMaxHeap`: it inserts the values one after another and does not look at what `insert` returns. -/
def MaxHeap.createMaxHeap (h : MaxHeap α) (a : List α) : MaxHeap α × Bool :=
  if h.capacity < a.length then (h, false) else (a.foldl (fun h v => (h.insert v).1) h, true)

/-- `getTop`; of an empty heap it returns nothing. -/
def MaxHeap.getTop (h : MaxHeap α) : Option α := if h.size ≠ 0 then some (h.heap 0) else none

/-- `heap[i]`, when the array has the cell. -/
def read (cap : Nat) (heap : Nat → α) (i : Nat) : Option α := if i < cap then some (heap i) else none

/-- The choice of the child in `filterDown`: the right one when it is within the bound and greater. -/
def pickChild (cap stop : Nat) (heap : Nat → α) (child : Nat) : Option Nat :=
  if child < stop then
    match read cap heap child, read cap heap (child + 1) with
    | some l, some r => some (if l < r then child + 1 else child)
    | _, _ => none
  else some child

theorem le_of_pickChild {cap stop child c : Nat} (h : pickChild cap stop heap child = some c) : child ≤ c := by
  unfold pickChild at h
  split at h
  · grind
  · exact le_of_eq (Option.some.inj h)

/-- The loop of `filterDown`, at the node `current`: the value goes down from there, up to the bound `stop` inclusive. -/
def sink (cap stop : Nat) (value : α) (heap : Nat → α) (current : Nat) : Option (Nat → α) :=
  if 2 ^ 31 ≤ current * 2 + 1 then none
  else if _hc : current * 2 + 1 ≤ stop then
    match _hp : pickChild cap stop heap (current * 2 + 1) with
    | none => none
    | some child =>
      match read cap heap child with
      | none => none
      | some v =>
        if v < value then some (Function.update heap current value)
        else sink cap stop value (Function.update heap current v) child
  else some (Function.update heap current value)
termination_by stop + 1 - current
decreasing_by
  have := le_of_pickChild _hp
  omega

/-- `filterDown`. -/
def filterDown (cap : Nat) (heap : Nat → α) (current stop : Nat) : Option (Nat → α) := sink cap stop (heap current) heap current

/-- The search of `remove`, from the index `i` on, for `k` cells. -/
def search (heap : Nat → α) (data : α) : Nat → Nat → Nat
  | 0, i => i
  | k + 1, i => if heap i = data then i else search heap data k (i + 1)

/-- The index `remove` finds the value at; the size when it finds none. -/
def MaxHeap.index (h : MaxHeap α) (data : α) : Nat := search h.heap data h.size 0

/-- `remove`: the last value takes the place of the one removed and sinks, with the old size as the bound. -/
def MaxHeap.remove (h : MaxHeap α) (data : α) : Option (MaxHeap α × Bool) :=
  if h.size = 0 then some (h, false)
  else if h.index data = h.size then some (h, false)
  else
    match filterDown h.capacity (Function.update h.heap (h.index data) (h.heap (h.size - 1))) (h.index data) h.size with
    | none => none
    | some heap => some ({ h with heap := heap, size := h.size - 1, size_le := le_trans (Nat.sub_le _ _) h.size_le }, true)

/-- A call of the class. -/
inductive HeapCall (α : Type) where
  | insert (val : α)
  | remove (data : α)
  | createMaxHeap (a : List α)
  deriving DecidableEq, Repr

/-- One call: the heap behind it, and as the event the call with what it returned. -/
def MaxHeap.exec (h : MaxHeap α) : HeapCall α → Option (MaxHeap α × HeapCall α × Bool)
  | .insert val => some ((h.insert val).1, .insert val, (h.insert val).2)
  | .remove data =>
    match h.remove data with
    | none => none
    | some (h', b) => some (h', .remove data, b)
  | .createMaxHeap a => some ((h.createMaxHeap a).1, .createMaxHeap a, (h.createMaxHeap a).2)

/-! ## The search -/

/-- The search ends at the value, or behind the last cell when the value is in none. -/
theorem search_spec (heap : Nat → α) (data : α) (k i : Nat) : (search heap data k i < i + k ∧ heap (search heap data k i) = data) ∨
    (search heap data k i = i + k ∧ ∀ j, i ≤ j → j < i + k → heap j ≠ data) := by
  induction k generalizing i with
  | zero => exact Or.inr ⟨rfl, fun j h1 h2 => by omega⟩
  | succ k ih =>
    rw [search]
    split
    · rename_i he
      exact Or.inl ⟨by omega, he⟩
    · rcases ih (i + 1) with ⟨h1, h2⟩ | ⟨h1, h2⟩
      · exact Or.inl ⟨by omega, h2⟩
      · grind

theorem MaxHeap.index_spec (h : MaxHeap α) (data : α) : (h.index data < h.size ∧ h.heap (h.index data) = data ∧ data ∈ h.values) ∨
    (h.index data = h.size ∧ data ∉ h.values) := by
  rcases search_spec h.heap data h.size 0 with ⟨h1, h2⟩ | ⟨h1, h2⟩
  · rw [Nat.zero_add] at h1
    exact Or.inl ⟨h1, h2, mem_values.2 ⟨_, h1, h2⟩⟩
  · rw [Nat.zero_add] at h1
    refine Or.inr ⟨h1, fun hm => ?_⟩
    obtain ⟨j, hj, he⟩ := mem_values.1 hm
    exact h2 j (Nat.zero_le j) (by omega) he

/-! ## The loops -/

/-- The rule for the loop of `filterUp`. The array of the invariant is the one with the value in its place. -/
theorem raise_rule {x : α} (hmove : ∀ V k, 0 < k → V k = x → V (parent k) ≤ x → P V k → P (V ∘ Equiv.swap k (parent k)) (parent k))
    (heap : Nat → α) (k : Nat) (h : P (update heap k x) k) :
    ∃ k', P (raise x heap k) k' ∧ raise x heap k k' = x ∧ (0 < k' → x ≤ raise x heap k (parent k')) := by
  induction k using Nat.strong_induction_on generalizing heap with
  | _ k ih =>
    rw [raise]
    split
    · rename_i hk
      have hpk := parent_lt hk
      have hval : update heap k x (parent k) = heap (parent k) := update_of_ne (by omega) _ _
      split
      · grind
      · rename_i hlt
        refine ih (parent k) hpk _ ?_
        rw [update_swap (by omega)]
        exact hmove _ k hk (update_self _ _ _) (by rw [hval]; exact not_lt.1 hlt) h
    · grind

/-- The child of `k` the loop of `filterDown` picks. -/
def larger (f : Nat → α) (stop k : Nat) : Nat := if 2 * k + 1 < stop ∧ f (2 * k + 1) < f (2 * k + 2) then 2 * k + 2 else 2 * k + 1

/-- The nodes the value `x` comes to when it sinks from `i`. -/
inductive Sinks (f : Nat → α) (stop : Nat) (x : α) (i : Nat) : Nat → Prop where
  | start : Sinks f stop x i i
  | down {k : Nat} : Sinks f stop x i k → 2 * k + 1 ≤ stop → x ≤ f (larger f stop k) → Sinks f stop x i (larger f stop k)

theorem larger_eq (f : Nat → α) (stop k : Nat) : larger f stop k = 2 * k + 1 ∨ larger f stop k = 2 * k + 2 := by
  unfold larger
  split
  · exact Or.inr rfl
  · exact Or.inl rfl

theorem parent_larger (f : Nat → α) (stop k : Nat) : parent (larger f stop k) = k := by
  rcases larger_eq f stop k with h | h <;> rw [h]
  · exact parent_left k
  · exact parent_right k

theorem lt_larger (f : Nat → α) (stop k : Nat) : k < larger f stop k := by
  rcases larger_eq f stop k with h | h <;> omega

theorem larger_le (h : 2 * k + 1 ≤ stop) : larger f stop k ≤ stop := by
  unfold larger
  split <;> omega

theorem le_larger {stop j k : Nat} (hj : 0 < j) (hjs : j ≤ stop) (hp : parent j = k) : f j ≤ f (larger f stop k) := by
  unfold larger
  rcases eq_child hj hp with rfl | rfl
  · grind
  · grind

theorem pickChild_eq (hcap : min stop (2 * k + 2) < cap)
    (hf : ∀ j, k < j → heap j = f j) : pickChild cap stop heap (k * 2 + 1) = some (larger f stop k) := by
  have hk : k * 2 + 1 = 2 * k + 1 := by omega
  rw [hk]
  unfold pickChild larger
  by_cases hs : 2 * k + 1 < stop
  · have h1 : 2 * k + 1 < cap := by omega
    have h2 : 2 * k + 2 < cap := by omega
    simp [hs, read, h1, h2, hf (2 * k + 1) (by omega), hf (2 * k + 2) (by omega)]
  · simp [hs]

/-- The rule for the loop of `filterDown`, from the array `f` on, when no index overflows and the cells looked at exist. The array of
the invariant is the one with the value in its place; behind that place it is `f`. -/
theorem sink_rule {x : α} (hover : ∀ k, Sinks f stop x i k → k < 2 ^ 30)
    (hr : ∀ k, Sinks f stop x i k → 2 * k + 1 ≤ stop → min stop (2 * k + 2) < cap)
    (hmove : ∀ V k, Sinks f stop x i k → V k = x → (∀ j, k < j → V j = f j) → P V k → 2 * k + 1 ≤ stop →
      x ≤ f (larger f stop k) → P (V ∘ Equiv.swap k (larger f stop k)) (larger f stop k))
    (hk : Sinks f stop x i k) (hf : ∀ j, k < j → heap j = f j) (h : P (update heap k x) k) :
    ∃ V k', sink cap stop x heap k = some V ∧ Sinks f stop x i k' ∧ P V k' ∧ V k' = x ∧ (∀ j, k' < j → V j = f j) ∧
      (2 * k' + 1 ≤ stop → f (larger f stop k') < x) := by
  induction hm : stop + 1 - k using Nat.strong_induction_on generalizing heap k with
  | _ m ih =>
    have hbh : ∀ j, k < j → update heap k x j = f j := fun j hj => by
      rw [update_of_ne (by omega), hf j hj]
    have hov := hover k hk
    rw [sink, if_neg (by omega)]
    split
    · have hc' : 2 * k + 1 ≤ stop := by omega
      have hcap := hr k hk hc'
      have hlt := lt_larger f stop k
      have hlc : larger f stop k < cap := by
        have := larger_le (f := f) hc'
        rcases larger_eq f stop k with h | h <;> omega
      have hv : read cap heap (larger f stop k) = some (f (larger f stop k)) := by rw [read, if_pos hlc, hf _ hlt]
      split
      · grind [pickChild_eq]
      · rename_i child hp
        rw [pickChild_eq hcap hf] at hp
        obtain rfl := Option.some.inj hp
        simp only [hv]
        split
        · rename_i hlt'
          exact ⟨_, k, rfl, hk, h, update_self _ _ _, hbh, fun _ => hlt'⟩
        · rename_i hge
          have hge' := not_lt.1 hge
          have hs := update_swap (ne_of_lt hlt) heap x
          rw [hf _ hlt] at hs
          refine ih _ ?_ (hk.down hc' hge') (fun j hj => ?_) ?_ rfl
          · omega
          · rw [update_of_ne (by omega), hf j (by omega)]
          · rw [hs]
            exact hmove _ k hk (update_self _ _ _) hbh h hc' hge'
    · exact ⟨_, k, rfl, hk, h, update_self _ _ _, hbh, fun hc' => absurd hc' (by omega)⟩

/-! ## What `remove` visits -/

namespace MaxHeap

/-- The nodes the last value comes to when it sinks from where `data` was found. -/
def Visits (h : MaxHeap α) (data : α) (k : Nat) : Prop := Sinks h.heap h.size (h.heap (h.size - 1)) (h.index data) k

/-- No index overflows, and when the parent of the cell behind the last is visited, that cell exists. -/
structure StaysInside (h : MaxHeap α) (data : α) : Prop where
  no_overflow : ∀ k, h.Visits data k → k < 2 ^ 30
  cell : h.Visits data (parent h.size) → h.size < h.capacity

theorem remove_rule {h : MaxHeap α} {data : α} {P : (Nat → α) → Nat → Prop} (hfound : h.index data < h.size) (hin : h.StaysInside data)
    (hmove : ∀ V k, h.Visits data k → V k = h.heap (h.size - 1) → (∀ j, k < j → V j = h.heap j) → P V k → 2 * k + 1 ≤ h.size →
      h.heap (h.size - 1) ≤ h.heap (larger h.heap h.size k) → P (V ∘ Equiv.swap k (larger h.heap h.size k)) (larger h.heap h.size k))
    (hstart : P (update h.heap (h.index data) (h.heap (h.size - 1))) (h.index data)) :
    ∃ h' k, h.remove data = some (h', true) ∧ h'.capacity = h.capacity ∧ h'.size = h.size - 1 ∧ P h'.heap k ∧
      h'.heap k = h.heap (h.size - 1) ∧ (∀ j, k < j → h'.heap j = h.heap j) ∧
      (2 * k + 1 ≤ h.size → h.heap (larger h.heap h.size k) < h.heap (h.size - 1)) := by
  have hr : ∀ k, h.Visits data k → 2 * k + 1 ≤ h.size → min h.size (2 * k + 2) < h.capacity := by
    intro k hk hle
    have hsize := h.size_le
    by_cases hl : k = parent h.size
    · have := hin.cell (hl ▸ hk)
      omega
    · unfold parent at hl
      omega
  have hf : ∀ j, h.index data < j → update h.heap (h.index data) (h.heap (h.size - 1)) j = h.heap j := fun j hj => update_of_ne (ne_of_gt hj) _ _
  have hst : P (update (update h.heap (h.index data) (h.heap (h.size - 1))) (h.index data) (h.heap (h.size - 1))) (h.index data) := by
    rw [update_idem]
    exact hstart
  obtain ⟨V, k, hsink, _, hP, hx, hbh, hs⟩ := sink_rule hin.no_overflow hr hmove Sinks.start hf hst
  refine ⟨{ h with heap := V, size := h.size - 1, size_le := le_trans (Nat.sub_le _ _) h.size_le }, k, ?_, rfl, rfl, hP, hx, hbh, hs⟩
  rw [remove, if_neg (by omega), if_neg (by omega), filterDown, update_self, hsink]

/-- `remove` of a value that is not in the heap changes nothing. -/
theorem remove_absent {h : MaxHeap α} {data : α} (habs : h.index data = h.size) : h.remove data = some (h, false) := by
  rw [remove, if_pos habs, ite_self]

end MaxHeap

/-- A heap of four cells after two calls of `insert`. -/
def twoInserted : MaxHeap Int := (((MaxHeap.new 4 (by decide) fun _ => 0).insert 1).1.insert 2).1

theorem twoInserted_run {P : MaxHeap Int → HeapCall Int → Prop} (hP : ∀ h v, P h (.insert v)) :
    RunIf MaxHeap.exec P (MaxHeap.new 4 (by decide) fun _ => 0) [(.insert 1, true), (.insert 2, true)] twoInserted :=
  (RunIf.single (a := .insert 1) (hP _ _) rfl).trans (RunIf.single (a := .insert 2) (hP _ _) rfl)

/-- When the greater value is removed, the other sinks from the root to its own old cell. -/
theorem twoInserted_visits (h : twoInserted.Visits 2 k) : k = 0 ∨ k = 1 := by
  have hs : twoInserted.size = 2 := rfl
  have hi : twoInserted.index 2 = 0 := by decide +kernel
  have hl : larger twoInserted.heap 2 0 = 1 := by decide +kernel
  rw [MaxHeap.Visits, hs, hi] at h
  induction h with
  | start => exact Or.inl rfl
  | down _ hle _ ih => grind

theorem twoInserted_staysInside : twoInserted.StaysInside 2 :=
  ⟨fun k hk => by rcases twoInserted_visits hk with rfl | rfl <;> decide, fun _ => by decide +kernel⟩

end CsLearning.DsAlgo
