import CsLearning.DsAlgo.MaxHeap

/-!
# `max_heap.h`: what a heap holds

The heap as a bag of values with a bound on their number, `bagExec`. `insert` and `createMaxHeap` do to the first cells what the bag says,
in any array. `remove` does so when the last value, on its way down, stays inside the array and does not change places with another value
in the cell behind the last (`heap_bag`). Otherwise it brings a value into the heap that was removed before or never inserted, and
loses one (`heap_bag_false`).

`createMaxHeap` compares the number of the new values with the capacity, not with the room that is left, so it says `true` although the
last of them were dropped when the heap was not empty (`createMaxHeap_adds_all_iff`).
-/

open List Function

namespace CsLearning.DsAlgo

variable {α : Type} [LinearOrder α]

/-- One more value, if there is room. -/
def bagInsert (cap : Nat) (B : Multiset α) (val : α) : Multiset α × Bool :=
  if B.card < cap then (val ::ₘ B, true) else (B, false)

/-- One occurrence less, if there is one. -/
def bagRemove (B : Multiset α) (data : α) : Multiset α × Bool := if data ∈ B then (B.erase data, true) else (B, false)

/-- The values one after another, unless they are more than the bag may hold. -/
def bagCreate (cap : Nat) (B : Multiset α) (a : List α) : Multiset α × Bool :=
  if cap < a.length then (B, false) else (a.foldl (fun B v => (bagInsert cap B v).1) B, true)

/-- A call on a bag of at most `cap` values. -/
def bagExec (cap : Nat) (B : Multiset α) : HeapCall α → Option (Multiset α × HeapCall α × Bool)
  | .insert val => some ((bagInsert cap B val).1, .insert val, (bagInsert cap B val).2)
  | .remove data => some ((bagRemove B data).1, .remove data, (bagRemove B data).2)
  | .createMaxHeap a => some ((bagCreate cap B a).1, .createMaxHeap a, (bagCreate cap B a).2)

namespace MaxHeap

variable {h : MaxHeap α}

/-- A call that removes a value sees it sink inside the array, and not onto another value behind the last one. The last value of all
may do so. -/
def BagSafe (h : MaxHeap α) : HeapCall α → Prop
  | .remove data => h.index data < h.size → h.StaysInside data ∧
      (h.Visits data h.size → h.size = 1 ∨ h.heap h.size = h.heap (h.size - 1))
  | _ => True

/-! ## One call -/

theorem values_insert (h : MaxHeap α) (val : α) :
    ((h.insert val).1.values, (h.insert val).2) = bagInsert h.capacity h.values val ∧ (h.insert val).1.capacity = h.capacity ∧
      ((h.insert val).2 = false → (h.insert val).1 = h) := by
  have hle := h.size_le
  by_cases hfull : h.size = h.capacity
  · have hins : h.insert val = (h, false) := by rw [insert, dif_pos hfull]
    rw [hins, bagInsert, card_values, if_neg (by omega)]
    exact ⟨rfl, rfl, fun _ => rfl⟩
  · -- The value is put behind the others, and each exchange keeps the first `size + 1` cells together.
    obtain ⟨_, ⟨hbag, _⟩, _⟩ := raise_rule (x := val) (P := fun V k => bag (h.size + 1) V = val ::ₘ h.values ∧ k < h.size + 1)
      (fun V k hk _ _ hP => ⟨by rw [bag_swap hP.2 ((parent_lt hk).trans hP.2)]; exact hP.1, (parent_lt hk).trans hP.2⟩)
      (update h.heap h.size val) h.size (by
        refine ⟨?_, Nat.lt_succ_self _⟩
        rw [update_idem, bag_succ, update_self]
        congr 1
        exact bag_congr fun i hi => update_of_ne (ne_of_lt hi) _ _)
    have hins : (h.insert val).2 = true ∧ (h.insert val).1.capacity = h.capacity ∧ (h.insert val).1.values = val ::ₘ h.values := by
      rw [insert, dif_neg hfull]
      refine ⟨rfl, rfl, ?_⟩
      rw [filterUp, update_self]
      exact hbag
    rw [bagInsert, card_values, if_pos (by omega), hins.1, hins.2.2]
    exact ⟨rfl, hins.2.1, fun hf => (Bool.false_ne_true hf.symm).elim⟩

theorem values_foldl_insert (a : List α) (h : MaxHeap α) :
    (a.foldl (fun h v => (h.insert v).1) h).values = a.foldl (fun B v => (bagInsert h.capacity B v).1) h.values ∧
      (a.foldl (fun h v => (h.insert v).1) h).capacity = h.capacity := by
  induction a generalizing h with
  | nil => exact ⟨rfl, rfl⟩
  | cons v a ih =>
    obtain ⟨hv, hc, _⟩ := h.values_insert v
    obtain ⟨h1, h2⟩ := ih (h.insert v).1
    rw [foldl_cons, foldl_cons, h1, h2, hc, ← congrArg Prod.fst hv]
    exact ⟨rfl, rfl⟩

theorem values_remove {data : α} (hsafe : h.BagSafe (.remove data)) :
    ∃ h' b, h.remove data = some (h', b) ∧ (h'.values, b) = bagRemove h.values data ∧ h'.capacity = h.capacity ∧ (b = false → h' = h) := by
  rcases h.index_spec data with ⟨hfound, hd, hmem⟩ | ⟨habs, hmem⟩
  · obtain ⟨hin, hdead⟩ := hsafe hfound
    obtain ⟨h', k, hrem, hcap, hsize, hbag, _⟩ := remove_rule (P := fun V _ => bag (h.size - 1) V =
        bag (h.size - 1) (update h.heap (h.index data) (h.heap (h.size - 1)))) hfound hin
      (fun V k hk hV hbh hP hle hx => by
        have hlt := lt_larger h.heap h.size k
        have hstop := larger_le (f := h.heap) hle
        by_cases hlive : larger h.heap h.size k < h.size - 1
        · rw [bag_swap (hlt.trans hlive) hlive]
          exact hP
        · -- Behind the live cells there is nothing to exchange, or there are no live cells.
          have hcase : larger h.heap h.size k = h.size - 1 ∨ larger h.heap h.size k = h.size := by omega
          rcases hcase with hc | hc
          · grind [comp_swap_of_eq]
          · rcases hdead (hc ▸ hk.down hle hx) with hone | hs
            · rw [hone]; rfl
            · rw [comp_swap_of_eq (by rw [hV, hbh _ hlt, hc, hs])]
              exact hP) rfl
    refine ⟨h', true, hrem, ?_, hcap, fun hf => (Bool.false_ne_true hf.symm).elim⟩
    rw [bagRemove, if_pos hmem, values, hsize, hbag, h.values_update hfound, hd, Multiset.erase_cons_head]
  · refine ⟨h, false, remove_absent habs, ?_, rfl, fun _ => rfl⟩
    rw [bagRemove, if_neg hmem]

/-- One call does to the values what it does to the bag, and one that returns false changes nothing. -/
theorem exec_bag {c : HeapCall α} (hs : h.BagSafe c) : ∃ h' b, h.exec c = some (h', c, b) ∧
    bagExec h.capacity h.values c = some (h'.values, c, b) ∧ h'.capacity = h.capacity ∧ (b = false → h' = h) := by
  cases c with
  | insert val =>
    obtain ⟨hv, hc, hf⟩ := h.values_insert val
    exact ⟨_, _, rfl, by rw [bagExec, ← hv], hc, hf⟩
  | remove data =>
    obtain ⟨h', b, hrem, hv, hc, hf⟩ := values_remove hs
    exact ⟨h', b, by rw [exec, hrem], by rw [bagExec, ← hv], hc, hf⟩
  | createMaxHeap a =>
    by_cases hlen : h.capacity < a.length
    · refine ⟨h, false, by rw [exec, createMaxHeap, if_pos hlen], ?_, rfl, fun _ => rfl⟩
      rw [bagExec, bagCreate, if_pos hlen]
    · obtain ⟨hv, hc⟩ := values_foldl_insert a h
      refine ⟨_, true, by rw [exec, createMaxHeap, if_neg hlen], ?_, hc, fun hf => (Bool.false_ne_true hf.symm).elim⟩
      rw [bagExec, bagCreate, if_neg hlen, hv]

end MaxHeap

/-! ## Runs -/

/-- A heap of any capacity, with anything in its unused cells, under any sequence of calls. In every run whose removals are safe, the
values of the heap are those of the bag under the same calls, with the same results; and the next safe call returns, does to the
values what it does to the bag, and changes nothing when it returns false. -/
theorem heap_bag {cap : Nat} (hcap : cap < 2 ^ 31) {raw : Nat → α} {es : List (HeapCall α × Bool)} {h : MaxHeap α}
    (hr : RunIf MaxHeap.exec MaxHeap.BagSafe (MaxHeap.new cap hcap raw) es h) :
    Run (bagExec cap) 0 es h.values ∧
    ∀ c, h.BagSafe c → ∃ h' b, h.exec c = some (h', c, b) ∧ bagExec cap h.values c = some (h'.values, c, b) ∧ (b = false → h' = h) := by
  have hinv : Run (bagExec cap) 0 es h.values ∧ h.capacity = cap := by
    induction hr with
    | nil => exact ⟨RunIf.nil, rfl⟩
    | @snoc es s s' c e _ hsafe hx ih =>
      obtain ⟨h', b, hexec, hbag, hc, _⟩ := MaxHeap.exec_bag hsafe
      rw [hx, Option.some.injEq] at hexec
      obtain ⟨rfl, rfl⟩ := hexec
      rw [ih.2] at hbag
      exact ⟨ih.1.snoc trivial hbag, hc.trans ih.2⟩
  refine ⟨hinv.1, fun c hsafe => ?_⟩
  obtain ⟨h', b, hexec, hbag, _, hf⟩ := MaxHeap.exec_bag hsafe
  rw [hinv.2] at hbag
  exact ⟨h', b, hexec, hbag, hf⟩

/-- The greater of two values is removed. -/
theorem heap_bag_twoInserted :
    RunIf MaxHeap.exec MaxHeap.BagSafe (MaxHeap.new 4 (by decide) fun _ => 0) [(.insert 1, true), (.insert 2, true)] twoInserted ∧
    twoInserted.BagSafe (.remove 2) ∧
    ∃ h' b, twoInserted.exec (.remove 2) = some (h', .remove 2, b) ∧
      bagExec 4 twoInserted.values (.remove 2) = some (h'.values, .remove 2, b) := by
  have hr := twoInserted_run (P := MaxHeap.BagSafe) fun _ _ => trivial
  have hsafe : twoInserted.BagSafe (.remove 2) := fun _ => ⟨twoInserted_staysInside, fun hv => by
    have hs : twoInserted.size = 2 := rfl
    rcases twoInserted_visits hv with h | h <;> omega⟩
  obtain ⟨h', b, h1, h2, _⟩ := (heap_bag (by decide) hr).2 (.remove 2) hsafe
  exact ⟨hr, hsafe, h', b, h1, h2⟩

/-- Without the condition a value that was removed comes back: three values are inserted, the second is removed, and the removal of the
third brings the second back and loses the first. -/
theorem heap_bag_false : ¬∀ (es : List (HeapCall Int × Bool)) (h : MaxHeap Int),
    Run MaxHeap.exec (MaxHeap.new 3 (by decide) fun _ => 0) es h →
    ∀ c, ∃ h' b, h.exec c = some (h', c, b) ∧ bagExec 3 h.values c = some (h'.values, c, b) := by
  intro hall
  obtain ⟨h, hr, hview⟩ : ∃ h, Run MaxHeap.exec (MaxHeap.new 3 (by decide) fun _ => 0)
      [(.insert 1, true), (.insert 2, true), (.insert 3, true), (.remove 2, true)] h ∧
      (h.values, (h.exec (.remove 3)).map fun r => r.1.values) = (({1, 3}, some {2}) : Multiset Int × Option (Multiset Int)) :=
    exists_run_of_view MaxHeap.exec (fun h => (h.values, (h.exec (.remove 3)).map fun r => r.1.values))
      (MaxHeap.new 3 (by decide) fun _ => 0) [.insert 1, .insert 2, .insert 3, .remove 2] (by decide +kernel)
  obtain ⟨hbefore, hafter⟩ := Prod.mk.inj hview
  obtain ⟨h', b, hx, hbag⟩ := hall _ h hr (.remove 3)
  rw [hx, Option.map_some, Option.some.injEq] at hafter
  rw [hbefore, hafter] at hbag
  have hfst : (bagExec 3 ({1, 3} : Multiset Int) (.remove 3)).map Prod.fst = some {2} := by rw [hbag]; rfl
  exact absurd hfst (by decide +kernel)

/-! ## All or nothing -/

omit [LinearOrder α] in
/-- Values inserted one after another: the first of them, as many as there is room for. -/
theorem foldl_bagInsert {cap : Nat} (a : List α) {B : Multiset α} (hB : B.card ≤ cap) :
    a.foldl (fun B v => (bagInsert cap B v).1) B = B + (a.take (cap - B.card) : List α) := by
  induction a generalizing B with
  | nil => simp
  | cons v a ih =>
    rw [foldl_cons]
    by_cases hroom : B.card < cap
    · have hins : (bagInsert cap B v).1 = v ::ₘ B := by rw [bagInsert, if_pos hroom]
      have hcard : (v ::ₘ B).card = B.card + 1 := Multiset.card_cons v B
      obtain ⟨k, hk⟩ : ∃ k, cap - B.card = k + 1 := ⟨cap - B.card - 1, by omega⟩
      have hr : cap - (v ::ₘ B).card = k := by omega
      rw [hins, ih (by omega), hr, hk, take_succ_cons, ← Multiset.cons_coe, Multiset.add_cons, Multiset.cons_add]
    · have hins : (bagInsert cap B v).1 = B := by rw [bagInsert, if_neg hroom]
      have hf : cap - B.card = 0 := by omega
      rw [hins, ih hB, hf, take_zero, take_zero]

namespace MaxHeap

variable {h : MaxHeap α}

theorem exec_capacity {c : HeapCall α} {h' : MaxHeap α} {e : HeapCall α × Bool} (hx : h.exec c = some (h', e)) : h'.capacity = h.capacity := by
  cases c with
  | insert val =>
    cases hx
    exact (h.values_insert val).2.1
  | remove data =>
    rw [exec] at hx
    split at hx
    · cases hx
    · rename_i h₁ b hrem
      cases hx
      unfold remove at hrem
      split_ifs at hrem
      · cases hrem
        rfl
      · cases hrem
        rfl
      · grind
  | createMaxHeap a =>
    cases hx
    unfold createMaxHeap
    split_ifs
    · rfl
    · exact (values_foldl_insert a h).2

theorem run_capacity {cap : Nat} {hcap : cap < 2 ^ 31} {raw : Nat → α} {es : List (HeapCall α × Bool)}
    (hr : Run MaxHeap.exec (MaxHeap.new cap hcap raw) es h) : h.capacity = cap := by
  induction hr with
  | nil => rfl
  | snoc _ _ hx ih => exact (exec_capacity hx).trans ih

/-- What `createMaxHeap` should do: it returns true exactly when all the values of `a` were added, and else it changes nothing. -/
def AddsAllOrNone (h : MaxHeap α) (a : List α) : Prop :=
  ((h.createMaxHeap a).2 = true ↔ (h.createMaxHeap a).1.values = h.values + (a : Multiset α)) ∧
    ((h.createMaxHeap a).2 = false → (h.createMaxHeap a).1 = h)

/-- The values after a call of `createMaxHeap` that does not refuse the array. -/
theorem values_createMaxHeap {a : List α} (ha : a.length ≤ h.capacity) :
    (h.createMaxHeap a).2 = true ∧ (h.createMaxHeap a).1.values = h.values + (a.take (h.capacity - h.size) : List α) := by
  have hcard : h.values.card ≤ h.capacity := h.card_values ▸ h.size_le
  rw [createMaxHeap, if_neg (by omega)]
  refine ⟨rfl, ?_⟩
  rw [(values_foldl_insert a h).1, foldl_bagInsert a hcard, card_values]

theorem addsAllOrNone_iff (h : MaxHeap α) (a : List α) : h.AddsAllOrNone a ↔ h.capacity < a.length ∨ h.size + a.length ≤ h.capacity := by
  have hle := h.size_le
  by_cases hlen : h.capacity < a.length
  · -- the array is refused; it is not empty, so its values are missing
    have hnew : h.createMaxHeap a = (h, false) := by rw [createMaxHeap, if_pos hlen]
    refine iff_of_true ⟨?_, ?_⟩ (Or.inl hlen)
    · rw [hnew]
      refine iff_of_false Bool.false_ne_true ?_
      intro hall
      have hcard := congrArg Multiset.card hall
      rw [Multiset.card_add, Multiset.coe_card] at hcard
      dsimp only at hcard
      omega
    · intro _
      rw [hnew]
  · obtain ⟨htrue, hvals⟩ := values_createMaxHeap (h := h) (Nat.le_of_not_lt hlen)
    constructor
    · rintro ⟨hall, -⟩
      have hcard := congrArg Multiset.card (hvals.symm.trans (hall.mp htrue))
      rw [Multiset.card_add, Multiset.card_add, Multiset.coe_card, Multiset.coe_card, length_take] at hcard
      omega
    · intro hroom
      have ht : a.take (h.capacity - h.size) = a := take_of_length_le (by omega)
      rw [ht] at hvals
      refine ⟨iff_of_true htrue hvals, ?_⟩
      intro hf
      rw [htrue] at hf
      cases hf

end MaxHeap

/-- In every reachable heap `createMaxHeap` adds all the values or none, and says which, exactly when they are more than the capacity or
there is room for them beside those the heap holds. -/
theorem createMaxHeap_adds_all_iff {cap : Nat} (hcap : cap < 2 ^ 31) {raw : Nat → α} {es : List (HeapCall α × Bool)} {h : MaxHeap α}
    (hr : Run MaxHeap.exec (MaxHeap.new cap hcap raw) es h) (a : List α) :
    h.AddsAllOrNone a ↔ cap < a.length ∨ h.size + a.length ≤ cap := by
  rw [h.addsAllOrNone_iff, MaxHeap.run_capacity hr]

/-- Two more values fill the heap `twoInserted`. -/
theorem createMaxHeap_adds_all_twoInserted :
    Run MaxHeap.exec (MaxHeap.new 4 (by decide) fun _ => 0) [(.insert 1, true), (.insert 2, true)] twoInserted ∧
    twoInserted.AddsAllOrNone [5, 3] := by
  have hr := twoInserted_run (P := fun _ _ => True) fun _ _ => trivial
  exact ⟨hr, (createMaxHeap_adds_all_iff (by decide) hr [5, 3]).mpr (Or.inr (by decide))⟩

/-- Of three more values the last is dropped, and the call returns true. -/
theorem createMaxHeap_drops : ¬∀ (es : List (HeapCall Int × Bool)) (h : MaxHeap Int),
    Run MaxHeap.exec (MaxHeap.new 4 (by decide) fun _ => 0) es h → ∀ a, h.AddsAllOrNone a := by
  intro hall
  have hr := twoInserted_run (P := fun _ _ => True) fun _ _ => trivial
  obtain ⟨hadded, -⟩ : twoInserted.AddsAllOrNone [5, 3, 7] := hall _ _ hr [5, 3, 7]
  exact absurd (hadded.mp (by decide +kernel)) (by decide +kernel)

end CsLearning.DsAlgo
