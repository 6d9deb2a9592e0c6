import CsLearning.DsAlgo.MaxHeap

/-!
# `max_heap.h`: the order of a heap

`insert` and `createMaxHeap` keep the order of the heap. `remove` keeps it when the value that replaces the removed one does not exceed
the parent there, from which `remove` never compares upwards, and a value that `filterDown` takes from behind the last cell, if it
does, does not exceed what is above it (`heap_order`). Otherwise a child may exceed its parent (`heap_order_false`).
-/

open Function

namespace CsLearning.DsAlgo

variable {α : Type} [LinearOrder α]

namespace MaxHeap

variable {h : MaxHeap α} {data : α}

/-- The value above the node `k` when the last value has come there: that of the parent where it started, and from then on the value
that stood in `k`. -/
def above (h : MaxHeap α) (data : α) (k : Nat) : α := if k = h.index data then h.heap (parent k) else h.heap k

/-- A call that removes a value sees the last one take its place below a greater parent and sink inside the array, and if it changes
places with the value behind the last cell, that value has nothing smaller above it. -/
def OrderSafe (h : MaxHeap α) : HeapCall α → Prop
  | .remove data => h.index data < h.size → h.StaysInside data ∧
      (h.index data < h.size - 1 → 0 < h.index data → h.heap (h.size - 1) ≤ h.heap (parent (h.index data))) ∧
      (h.Visits data h.size → 0 < parent h.size → h.heap h.size ≤ h.above data (parent h.size))
  | _ => True

theorem Visits.le {k : Nat} (hk : h.Visits data k) : h.index data ≤ k := by
  induction hk with
  | start => exact le_rfl
  | down _ _ _ ih => exact ih.trans (lt_larger _ _ _).le

/-! ## One call -/

theorem insert_isHeap (hh : IsHeap h.size h.heap) (val : α) : IsHeap (h.insert val).1.size (h.insert val).1.heap := by
  by_cases hf : h.size = h.capacity
  · rw [insert, dif_pos hf]
    exact hh
  · obtain ⟨k, ⟨habove, _⟩, hval, hup⟩ := raise_rule (x := val) (P := fun V k => HeapAbove (h.size + 1) V k ∧ k < h.size + 1)
      (fun V k hk hV hle hP => ⟨hP.1.swap hk hP.2 (hV ▸ hle), (parent_lt hk).trans hP.2⟩)
      (update h.heap h.size val) h.size (by
        rw [update_idem]
        exact ⟨hh.update_above val, Nat.lt_succ_self _⟩)
    rw [insert, dif_neg hf]
    simp only [filterUp, update_self]
    exact habove.done fun hk => hval.le.trans (hup hk)

theorem foldl_insert_isHeap (a : List α) (h : MaxHeap α) (hh : IsHeap h.size h.heap) :
    IsHeap (a.foldl (fun h v => (h.insert v).1) h).size (a.foldl (fun h v => (h.insert v).1) h).heap := by
  induction a generalizing h with
  | nil => exact hh
  | cons v a ih => exact ih _ (insert_isHeap hh v)

/-- While the last value sinks: a heap but for its node, and the value above it. -/
structure Sinking (h : MaxHeap α) (data : α) (V : Nat → α) (k : Nat) : Prop where
  heap : HeapBelow (h.size - 1) V k
  top : 0 < k → V (parent k) = h.above data k

theorem Sinking.start (hh : IsHeap h.size h.heap)
    (hup : h.index data < h.size - 1 → 0 < h.index data → h.heap (h.size - 1) ≤ h.heap (parent (h.index data))) :
    Sinking h data (update h.heap (h.index data) (h.heap (h.size - 1))) (h.index data) := by
  refine ⟨hh.update_below (Nat.sub_le _ _) hup, fun hpos => ?_⟩
  rw [above, if_pos rfl, update_of_ne (parent_lt hpos).ne]

theorem Sinking.top_move {V : Nat → α} {k : Nat} (hk : h.Visits data k) (hbh : ∀ j, k < j → V j = h.heap j) :
    (V ∘ Equiv.swap k (larger h.heap h.size k)) (parent (larger h.heap h.size k)) = h.above data (larger h.heap h.size k) := by
  have hlt := lt_larger h.heap h.size k
  rw [parent_larger, above, if_neg (ne_of_gt (lt_of_le_of_lt hk.le hlt)), comp_apply, Equiv.swap_apply_left, hbh _ hlt]

/-- The last value changes places with a child: one of the heap, its own old cell, or the cell behind it. -/
theorem Sinking.move (hdead : h.Visits data h.size → 0 < parent h.size → h.heap h.size ≤ h.above data (parent h.size)) {V : Nat → α}
    {k : Nat} (hk : h.Visits data k) (hV : V k = h.heap (h.size - 1)) (hbh : ∀ j, k < j → V j = h.heap j) (hP : Sinking h data V k)
    (hle : 2 * k + 1 ≤ h.size) (hx : h.heap (h.size - 1) ≤ h.heap (larger h.heap h.size k)) :
    Sinking h data (V ∘ Equiv.swap k (larger h.heap h.size k)) (larger h.heap h.size k) := by
  refine ⟨?_, fun _ => Sinking.top_move hk hbh⟩
  have hlt := lt_larger h.heap h.size k
  have hs := larger_le (f := h.heap) hle
  have hpar := parent_larger h.heap h.size k
  have hpick : h.Visits data (larger h.heap h.size k) := hk.down hle hx
  have hmax : ∀ j, 0 < j → j < h.size - 1 → parent j = k → V j ≤ h.heap (larger h.heap h.size k) := by
    intro j hj hjn hp
    rw [hbh j (hp ▸ parent_lt hj)]
    exact le_larger hj (by omega) hp
  generalize larger h.heap h.size k = c at *
  have hVc : V c = h.heap c := hbh c hlt
  by_cases hlive : c < h.size - 1
  · exact hP.heap.swap (by omega) hlive hpar (by rw [hV, hVc]; exact hx) fun j hj hjn hp => hVc ▸ hmax j hj hjn hp
  · have hcase : c = h.size - 1 ∨ c = h.size := by omega
    have hbelow : ∀ j, 0 < j → j < h.size - 1 → parent j ≠ c := fun j hj hjn hp => by
      have := parent_lt hj
      omega
    refine ⟨fun j hj hjn _ => ?_, fun _ j hj hjn hp => absurd hp (hbelow j hj hjn)⟩
    rcases hcase with rfl | rfl
    · -- Its own old cell: nothing changes.
      rw [comp_swap_of_eq (hV.trans hVc.symm)]
      by_cases hp : parent j = k
      · rw [hp, hV]
        exact hmax j hj hjn hp
      · exact hP.heap.edges j hj hjn hp
    · -- The cell behind: its value stands in `k` now, which has no child in the heap any more.
      have hleaf : parent j ≠ k := fun hp => by
        rcases eq_child hj hp with h1 | h1 <;> rcases eq_child (by omega) hpar with h2 | h2 <;> omega
      have hstay : (V ∘ Equiv.swap k h.size) (parent j) = V (parent j) := by grind
      rw [hstay]
      by_cases hjk : j = k
      · subst hjk
        rw [comp_apply, Equiv.swap_apply_left, hVc, hP.top hj, ← hpar]
        exact hdead hpick (hpar ▸ hj)
      · rw [comp_apply, Equiv.swap_apply_of_ne_of_ne hjk (by omega)]
        exact hP.heap.edges j hj hjn hleaf

theorem remove_isHeap (hh : IsHeap h.size h.heap) (hs : h.OrderSafe (.remove data)) :
    ∃ h' b, h.remove data = some (h', b) ∧ IsHeap h'.size h'.heap := by
  rcases h.index_spec data with ⟨hf, _, _⟩ | ⟨habs, _⟩
  · obtain ⟨hin, hup, hdead⟩ := hs hf
    obtain ⟨h', k, hrem, _, hsize, hP, hV, hbh, hstop⟩ := remove_rule (P := Sinking h data) hf hin
      (fun V k hk hV hbh hP hle hx => hP.move hdead hk hV hbh hle hx) (Sinking.start hh hup)
    refine ⟨h', true, hrem, ?_⟩
    rw [hsize]
    refine hP.heap.done fun j hj hjn hp => ?_
    have hjk := hp ▸ parent_lt hj
    rw [hbh j hjk, hV]
    have hle : 2 * k + 1 ≤ h.size := by rcases eq_child hj hp with h1 | h1 <;> omega
    exact (le_larger hj (by omega) hp).trans (hstop hle).le
  · exact ⟨h, false, remove_absent habs, hh⟩

theorem exec_isHeap (hh : IsHeap h.size h.heap) {c : HeapCall α} (hs : h.OrderSafe c) :
    ∃ h' b, h.exec c = some (h', c, b) ∧ IsHeap h'.size h'.heap := by
  cases c with
  | insert val => exact ⟨_, _, rfl, insert_isHeap hh val⟩
  | remove data =>
    obtain ⟨h', b, hrem, hh'⟩ := remove_isHeap hh hs
    exact ⟨h', b, by rw [exec, hrem], hh'⟩
  | createMaxHeap a =>
    refine ⟨_, _, rfl, ?_⟩
    rw [createMaxHeap]
    split
    · exact hh
    · exact foldl_insert_isHeap a h hh

theorem getTop_of_isHeap (hh : IsHeap h.size h.heap) (hpos : 0 < h.size) : ∃ m, h.getTop = some m ∧ m ∈ h.values ∧ ∀ y ∈ h.values, y ≤ m := by
  refine ⟨h.heap 0, if_pos (by omega), mem_values.2 ⟨0, hpos, rfl⟩, fun y hy => ?_⟩
  obtain ⟨i, hi, rfl⟩ := mem_values.1 hy
  exact hh.le_root hi

end MaxHeap

/-! ## Runs -/

/-- A heap of any capacity, with anything in its unused cells, under any sequence of calls. In every run whose removals are safe, no
value of the heap exceeds its parent, `getTop` of a heap that is not empty returns its greatest value, and the next safe
call returns. -/
theorem heap_order {cap : Nat} (hcap : cap < 2 ^ 31) {raw : Nat → α} {es : List (HeapCall α × Bool)} {h : MaxHeap α}
    (hr : RunIf MaxHeap.exec MaxHeap.OrderSafe (MaxHeap.new cap hcap raw) es h) :
    (∀ i, 0 < i → i < h.size → h.heap i ≤ h.heap ((i - 1) / 2)) ∧
    (0 < h.size → ∃ m, h.getTop = some m ∧ m ∈ h.values ∧ ∀ y ∈ h.values, y ≤ m) ∧
    ∀ c, h.OrderSafe c → ∃ h' b, h.exec c = some (h', c, b) := by
  have hinv : IsHeap h.size h.heap := by
    induction hr with
    | nil => exact fun i _ hi => absurd hi (Nat.not_lt_zero i)
    | snoc _ hsafe hx ih =>
      obtain ⟨h', b, hexec, hh'⟩ := MaxHeap.exec_isHeap ih hsafe
      rw [hx, Option.some.injEq, Prod.mk.injEq] at hexec
      exact hexec.1 ▸ hh'
  refine ⟨hinv, MaxHeap.getTop_of_isHeap hinv, fun c hsafe => ?_⟩
  obtain ⟨h', b, hexec, _⟩ := MaxHeap.exec_isHeap hinv hsafe
  exact ⟨h', b, hexec⟩

/-- Two values are in order, and the greater can be removed. -/
theorem heap_order_twoInserted :
    RunIf MaxHeap.exec MaxHeap.OrderSafe (MaxHeap.new 4 (by decide) fun _ => 0) [(.insert 1, true), (.insert 2, true)] twoInserted ∧
    twoInserted.heap 1 ≤ twoInserted.heap 0 ∧ twoInserted.OrderSafe (.remove 2) ∧
    ∃ h' b, twoInserted.exec (.remove 2) = some (h', .remove 2, b) := by
  have hr := twoInserted_run (P := MaxHeap.OrderSafe) fun _ _ => trivial
  have hs : twoInserted.size = 2 := rfl
  have hi : twoInserted.index 2 = 0 := by decide +kernel
  have hsafe : twoInserted.OrderSafe (.remove 2) := fun _ => by
    refine ⟨twoInserted_staysInside, fun _ hpos => ?_, fun hv => ?_⟩
    · omega
    · rcases twoInserted_visits hv with h | h <;> omega
  obtain ⟨h1, _, h2⟩ := heap_order (by decide) hr
  exact ⟨hr, h1 1 (by decide) (by decide), hsafe, h2 _ hsafe⟩

/-- Without the condition a child exceeds its parent: of six values, each inserted below a greater one, the least is removed, and the
last takes its place below a smaller parent. -/
theorem heap_order_false : ¬∀ (es : List (HeapCall Int × Bool)) (h : MaxHeap Int),
    Run MaxHeap.exec (MaxHeap.new 6 (by decide) fun _ => 0) es h → ∀ i, 0 < i → i < h.size → h.heap i ≤ h.heap ((i - 1) / 2) := by
  intro hall
  obtain ⟨h, hr, hview⟩ : ∃ h : MaxHeap Int, Run MaxHeap.exec (MaxHeap.new 6 (by decide) fun _ => 0)
      [(.insert 10, true), (.insert 3, true), (.insert 9, true), (.insert 1, true), (.insert 2, true), (.insert 8, true),
        (.remove 1, true)] h ∧ (h.size, h.heap 3, h.heap 1) = (5, 8, 3) :=
    exists_run_of_view MaxHeap.exec (fun h => (h.size, h.heap 3, h.heap 1)) (MaxHeap.new 6 (by decide) fun _ => 0)
      [.insert 10, .insert 3, .insert 9, .insert 1, .insert 2, .insert 8, .remove 1] (by decide +kernel)
  simp only [Prod.mk.injEq] at hview
  have hle : h.heap 3 ≤ h.heap 1 := hall _ h hr 3 (by decide) (by omega)
  omega

end CsLearning.DsAlgo
