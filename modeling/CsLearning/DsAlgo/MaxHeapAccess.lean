import CsLearning.DsAlgo.MaxHeapBag

/-!
# `max_heap.h`: the cells that are read and written

The accesses to the array that the calls make, one after another and whether the cell exists or not. `filterUp` stays below the cell of the
new value. `filterDown` looks at the children of every node the value comes to, as far as its bound: `remove` passes the old size, so the
cell behind the last is looked at when its parent is visited. A node whose child has no index in an `int` ends the accesses
in nothing.
-/

open List Option Function

namespace CsLearning.DsAlgo

variable {α : Type} [LinearOrder α]

/-! ## The accesses of the source -/

/-- An access to a cell of the array. -/
inductive Access where
  | read (i : Nat)
  | write (i : Nat)
  deriving DecidableEq, Repr

def Access.index : Access → Nat
  | read i => i
  | write i => i

/-- The accesses of `raise`. -/
def raiseAccesses (value : α) (heap : Nat → α) (index : Nat) : List Access :=
  if _h : 0 < index then
    if value < heap (parent index) then [.read (parent index), .write index]
    else
      .read (parent index) :: .read (parent index) :: .write index ::
        raiseAccesses value (Function.update heap index (heap (parent index))) (parent index)
  else [.write index]
termination_by index
decreasing_by exact parent_lt _h

def filterUpAccesses (heap : Nat → α) (index : Nat) : List Access := .read index :: raiseAccesses (heap index) heap index

/-- What the loop of `filterDown` looks at in the node `current`: both children when it compares them, and the one it picked. -/
def childReads (stop : Nat) (heap : Nat → α) (current : Nat) : List Access :=
  (if current * 2 + 1 < stop then [.read (current * 2 + 1), .read (current * 2 + 2)] else []) ++ [.read (larger heap stop current)]

/-- The accesses of `sink`. -/
def sinkAccesses (stop : Nat) (value : α) (heap : Nat → α) (current : Nat) : Option (List Access) :=
  if 2 ^ 31 ≤ current * 2 + 1 then none
  else if _hc : current * 2 + 1 ≤ stop then
    if heap (larger heap stop current) < value then some (childReads stop heap current ++ [.write current])
    else
      (sinkAccesses stop value (Function.update heap current (heap (larger heap stop current))) (larger heap stop current)).map
        fun rest => childReads stop heap current ++ .read (larger heap stop current) :: .write current :: rest
  else some [.write current]
termination_by stop + 1 - current
decreasing_by
  have := lt_larger heap stop current
  omega

def filterDownAccesses (heap : Nat → α) (current stop : Nat) : Option (List Access) :=
  (sinkAccesses stop (heap current) heap current).map fun rest => .read current :: rest

/-- The accesses of `search`. -/
def searchAccesses (heap : Nat → α) (data : α) : Nat → Nat → List Access
  | 0, _ => []
  | k + 1, i => .read i :: if heap i = data then [] else searchAccesses heap data k (i + 1)

namespace MaxHeap

def insertAccesses (h : MaxHeap α) (val : α) : List Access :=
  if h.size = h.capacity then [] else .write h.size :: filterUpAccesses (Function.update h.heap h.size val) h.size

/-- The accesses of `insert` for one value after another. -/
def insertAllAccesses : MaxHeap α → List α → List Access
  | _, [] => []
  | h, v :: a => h.insertAccesses v ++ insertAllAccesses (h.insert v).1 a

def createMaxHeapAccesses (h : MaxHeap α) (a : List α) : List Access := if h.capacity < a.length then [] else h.insertAllAccesses a

/-- The accesses of `remove`: its own, and those of the call of `filterDown`. -/
def removeAccesses (h : MaxHeap α) (data : α) : Option (List Access × List Access) :=
  if h.size = 0 then some ([], [])
  else if h.index data = h.size then some (searchAccesses h.heap data h.size 0, [])
  else
    (filterDownAccesses (Function.update h.heap (h.index data) (h.heap (h.size - 1))) (h.index data) h.size).map fun down =>
      (searchAccesses h.heap data h.size 0 ++ [.read (h.size - 1), .write (h.index data)], down)

/-- The accesses of a call, those of the `filterDown` of `remove` apart. -/
def accesses (h : MaxHeap α) : HeapCall α → Option (List Access × List Access)
  | .insert val => some (h.insertAccesses val, [])
  | .remove data => h.removeAccesses data
  | .createMaxHeap a => some (h.createMaxHeapAccesses a, [])

/-- Every access of a call is to a cell of the array, and `filterDown` reads those only that counted before the call. -/
def StaysInBounds (h : MaxHeap α) (c : HeapCall α) : Prop :=
  ∃ own down, h.accesses c = some (own, down) ∧ (∀ x ∈ own ++ down, x.index < h.capacity) ∧ ∀ i, .read i ∈ down → i < h.size

/-- The value that sinks does not come to a node whose children have no index, nor to the parent of the cell behind the last. -/
def EndsInTime (h : MaxHeap α) : HeapCall α → Prop
  | .remove data => h.index data < h.size → (∀ k, h.Visits data k → k < 2 ^ 30) ∧ ¬h.Visits data (parent h.size)
  | _ => True

end MaxHeap

/-! ## `filterUp` -/

variable {heap f : Nat → α} {x : α} {stop k k' i cap : Nat}

theorem index_le_of_mem_raiseAccesses {value : α} {index : Nat} {x : Access} (hx : x ∈ raiseAccesses value heap index) : x.index ≤ index := by
  induction index using Nat.strong_induction_on generalizing heap with
  | _ index ih =>
    rw [raiseAccesses] at hx
    split_ifs at hx with hpos hlt
    · have hparent := parent_lt hpos
      simp only [mem_cons, not_mem_nil, or_false] at hx
      rcases hx with rfl | rfl
      · exact hparent.le
      · exact le_refl _
    · have hparent := parent_lt hpos
      simp only [mem_cons] at hx
      rcases hx with rfl | rfl | rfl | hx
      · exact hparent.le
      · exact hparent.le
      · exact le_refl _
      · exact (ih _ hparent hx).trans hparent.le
    · rw [mem_singleton] at hx
      rw [hx]
      exact le_refl _

namespace MaxHeap

theorem insertAccesses_lt (h : MaxHeap α) (val : α) : ∀ x ∈ h.insertAccesses val, x.index < h.capacity := by
  intro x hx
  have hle := h.size_le
  unfold insertAccesses at hx
  split_ifs at hx with hf
  · simp at hx
  · have hidx : x.index ≤ h.size := by
      simp only [filterUpAccesses, mem_cons] at hx
      rcases hx with rfl | rfl | hx
      · exact le_refl _
      · exact le_refl _
      · exact index_le_of_mem_raiseAccesses hx
    omega

theorem insertAllAccesses_lt (a : List α) (h : MaxHeap α) : ∀ x ∈ h.insertAllAccesses a, x.index < h.capacity := by
  induction a generalizing h with
  | nil => simp [insertAllAccesses]
  | cons v a ih =>
    intro x hx
    rcases mem_append.mp hx with hx | hx
    · exact h.insertAccesses_lt v x hx
    · have hcap := (h.values_insert v).2.1
      rw [← hcap]
      exact ih _ x hx

end MaxHeap

/-! ## `filterDown` -/

theorem sinks_iff : Sinks f stop x k k' ↔ k' = k ∨ (2 * k + 1 ≤ stop ∧ x ≤ f (larger f stop k) ∧ Sinks f stop x (larger f stop k) k') := by
  constructor
  · intro h
    induction h with
    | start => exact Or.inl rfl
    | down _ hle hx ih =>
      rcases ih with rfl | ⟨hle', hx', ih⟩
      · exact Or.inr ⟨hle, hx, .start⟩
      · exact Or.inr ⟨hle', hx', ih.down hle hx⟩
  · rintro (rfl | ⟨hle, hx, h⟩)
    · exact .start
    · induction h with
      | start => exact .down .start hle hx
      | down _ hle' hx' ih => exact ih.down hle' hx'

/-- The value stays in the node: there are no children within the bound, or the larger one is less. -/
theorem sinks_stay (h : 2 * k + 1 ≤ stop → f (larger f stop k) < x) (i : Nat) : Sinks f stop x k i ↔ i = k := by
  rw [sinks_iff, or_iff_left]
  rintro ⟨hle, hx, -⟩
  exact absurd hx (not_le.mpr (h hle))

theorem sinks_down (hle : 2 * k + 1 ≤ stop) (hx : x ≤ f (larger f stop k)) (i : Nat) :
    Sinks f stop x k i ↔ i = k ∨ Sinks f stop x (larger f stop k) i := by
  rw [sinks_iff]
  exact or_congr_right ⟨fun h => h.2.2, fun h => ⟨hle, hx, h⟩⟩

/-- The children of a node within the bound are looked at, and nothing else. -/
theorem read_mem_childReads (hk : k * 2 + 1 ≤ stop) : .read i ∈ childReads stop heap k ↔ 0 < i ∧ i ≤ stop ∧ parent i = k := by
  have hs : larger heap stop k ≤ stop := larger_le (by omega)
  have hparent := parent_larger heap stop k
  have hpos := lt_larger heap stop k
  unfold childReads
  constructor
  · intro hi
    split_ifs at hi with hlt
    · simp only [mem_append, mem_cons, not_mem_nil, or_false, Access.read.injEq] at hi
      rcases hi with (rfl | rfl) | rfl
      · exact ⟨by omega, by omega, by unfold parent; omega⟩
      · exact ⟨by omega, by omega, by unfold parent; omega⟩
      · exact ⟨by omega, hs, hparent⟩
    · grind
  · rintro ⟨hi, hle, hp⟩
    rcases eq_child hi hp with rfl | rfl
    · by_cases hlt : k * 2 + 1 < stop
      · simp [hlt, Nat.mul_comm]
      · have hlarger : larger heap stop k = 2 * k + 1 := by
          rw [larger, if_neg]
          omega
        simp [hlarger]
    · grind

theorem write_not_mem_childReads : .write i ∉ childReads stop heap k := by
  unfold childReads
  split_ifs
  · simp
  · simp

/-- A list of accesses reads the children within the bound of the nodes the value comes to, and writes these nodes. -/
def Follows (f : Nat → α) (stop : Nat) (x : α) (k : Nat) (as : List Access) : Prop :=
  ∀ i, (.read i ∈ as ↔ 0 < i ∧ i ≤ stop ∧ Sinks f stop x k (parent i)) ∧ (.write i ∈ as ↔ Sinks f stop x k i)

theorem follows_stay (hk : k * 2 + 1 ≤ stop) (hs : f (larger f stop k) < x) : Follows f stop x k (childReads stop heap k ++ [.write k]) := by
  intro i
  simp [read_mem_childReads hk, write_not_mem_childReads, sinks_stay fun _ => hs]

/-- There are no children within the bound. -/
theorem follows_leaf (hk : ¬k * 2 + 1 ≤ stop) : Follows f stop x k [.write k] := by
  intro i
  have honly : ∀ j, Sinks f stop x k j ↔ j = k := sinks_stay fun h => absurd h (by omega)
  simp only [mem_singleton, reduceCtorEq, false_iff, Access.write.injEq, honly, and_true]
  rintro ⟨hi, hle, hp⟩
  rcases eq_child hi hp with rfl | rfl
  · omega
  · omega

/-- The value goes on to the larger child, and `rest` are the accesses from there on. -/
theorem follows_down (hk : k * 2 + 1 ≤ stop) (hx : x ≤ f (larger f stop k)) {rest : List Access} (hr : Follows f stop x (larger f stop k) rest) :
    Follows f stop x k (childReads stop heap k ++ .read (larger f stop k) :: .write k :: rest) := by
  intro i
  have hlt := lt_larger f stop k
  have hle : larger f stop k ≤ stop := larger_le (by omega)
  obtain ⟨hread, hwrite⟩ := hr i
  have hch : i = larger f stop k → 0 < i ∧ i ≤ stop ∧ parent i = k := by
    rintro rfl
    exact ⟨by omega, hle, parent_larger f stop k⟩
  simp only [mem_append, read_mem_childReads hk, write_not_mem_childReads, sinks_down (by omega : 2 * k + 1 ≤ stop) hx]
  constructor
  · grind
  · grind

/-- The accesses of the loop from the node `k` on, where the array is still `f`. There are none when a node it comes to has no children in the
`int`s. -/
theorem sinkAccesses_spec (hf : ∀ j, k < j → heap j = f j) : (sinkAccesses stop x heap k = none ↔ ∃ k', Sinks f stop x k k' ∧ 2 ^ 30 ≤ k') ∧
    ∀ as, sinkAccesses stop x heap k = some as → Follows f stop x k as := by
  induction hm : stop + 1 - k using Nat.strong_induction_on generalizing heap k with
  | _ m ih =>
    have hlt := lt_larger f stop k
    have hlarger : larger heap stop k = larger f stop k := by grind [larger]
    rw [sinkAccesses]
    by_cases hover : 2 ^ 31 ≤ k * 2 + 1
    · rw [if_pos hover]
      refine ⟨iff_of_true rfl ⟨k, .start, by omega⟩, ?_⟩
      intro as has
      cases has
    rw [if_neg hover]
    -- a value that stays has come to one node only, which has children in the ints
    have hshallow : (∀ i, Sinks f stop x k i ↔ i = k) → ¬∃ k', Sinks f stop x k k' ∧ 2 ^ 30 ≤ k' := by grind
    by_cases hc : k * 2 + 1 ≤ stop
    · rw [dif_pos hc, hlarger, hf _ hlt]
      by_cases hs : f (larger f stop k) < x
      · rw [if_pos hs]
        refine ⟨iff_of_false (by simp) (hshallow (sinks_stay fun _ => hs)), ?_⟩
        intro as has
        cases has
        exact follows_stay hc hs
      · have hdown := sinks_down (by omega : 2 * k + 1 ≤ stop) (not_lt.mp hs)
        have hf' : ∀ j, larger f stop k < j → update heap k (f (larger f stop k)) j = f j := by grind
        obtain ⟨hn, hsome⟩ := ih _ (by omega) hf' rfl
        rw [if_neg hs, map_eq_none_iff]
        constructor
        · constructor
          · grind
          · grind
        · intro as has
          obtain ⟨rest, hr, rfl⟩ := map_eq_some_iff.mp has
          exact follows_down hc (not_lt.mp hs) (hsome rest hr)
    · rw [dif_neg hc]
      refine ⟨iff_of_false (by simp) (hshallow (sinks_stay fun h => absurd h (by omega))), ?_⟩
      intro as has
      cases has
      exact follows_leaf hc

/-- A node the value comes to is the first one, or a child within the bound of such a node. -/
theorem Sinks.eq_or_child (h : Sinks f stop x k k') : k' = k ∨ (0 < k' ∧ k' ≤ stop ∧ Sinks f stop x k (parent k')) := by
  cases h with
  | start => exact Or.inl rfl
  | @down j hj hle hx =>
    have := lt_larger f stop j
    refine Or.inr ⟨by omega, larger_le hle, ?_⟩
    rwa [parent_larger]

theorem childReads_lt_iff (hk : k * 2 + 1 ≤ stop) (cap : Nat) (heap : Nat → α) :
    (∀ a ∈ childReads stop heap k, a.index < cap) ↔ min stop (2 * k + 2) < cap := by
  constructor
  · intro hall
    refine hall (.read (min stop (2 * k + 2))) ((read_mem_childReads hk).mpr ⟨by omega, by omega, ?_⟩)
    unfold parent
    omega
  · intro hcap a ha
    cases a with
    | read i =>
      obtain ⟨hi, his, hp⟩ := (read_mem_childReads hk).mp ha
      have hch := eq_child hi hp
      change i < cap
      omega
    | write i => exact absurd ha write_not_mem_childReads

/-- The last child within the bound does not exist: it cannot be compared, or it is the one that is picked and cannot be read. -/
theorem pickChild_outside (hk : k * 2 + 1 ≤ stop) (hcap : ¬min stop (2 * k + 2) < cap) {child : Nat}
    (hpick : pickChild cap stop heap (k * 2 + 1) = some child) : read cap heap child = none := by
  unfold pickChild at hpick
  by_cases hs : k * 2 + 1 < stop
  · have hr : ¬k * 2 + 1 + 1 < cap := by omega
    simp only [if_pos hs, read] at hpick
    split_ifs at hpick
  · rw [if_neg hs] at hpick
    obtain rfl := some.inj hpick
    rw [read, if_neg (by omega)]

theorem larger_lt (hc : k * 2 + 1 ≤ stop) (hcap : min stop (2 * k + 2) < cap) : larger heap stop k < cap := by
  have hle : larger heap stop k ≤ stop := larger_le (by omega)
  rcases larger_eq heap stop k with h | h
  · omega
  · omega

theorem sink_of_child (hover : ¬2 ^ 31 ≤ k * 2 + 1) (hc : k * 2 + 1 ≤ stop) (hcap : min stop (2 * k + 2) < cap) :
    sink cap stop x heap k = if heap (larger heap stop k) < x then some (update heap k x)
      else sink cap stop x (update heap k (heap (larger heap stop k))) (larger heap stop k) := by
  have hpick := pickChild_eq (f := heap) hcap fun _ _ => rfl
  have hr : read cap heap (larger heap stop k) = some (heap (larger heap stop k)) := by rw [read, if_pos (larger_lt hc hcap)]
  rw [sink, if_neg hover, dif_pos hc]
  split
  · rename_i hn
    rw [hpick] at hn
    cases hn
  · grind

/-- One round of the loop, in a node with a child within the bound that does not exist. -/
theorem sink_of_outside (hover : ¬2 ^ 31 ≤ k * 2 + 1) (hc : k * 2 + 1 ≤ stop)
    (hcap : ¬min stop (2 * k + 2) < cap) : sink cap stop x heap k = none := by
  rw [sink, if_neg hover, dif_pos hc]
  split
  · rfl
  · rename_i child hsome
    simp only [pickChild_outside hc hcap hsome]

/-- In such a node the children that are looked at do not all exist. -/
theorem sinkAccesses_of_outside (hc : k * 2 + 1 ≤ stop) (hcap : ¬min stop (2 * k + 2) < cap)
    {as : List Access} (has : sinkAccesses stop x heap k = some as) : ¬∀ a ∈ as, a.index < cap := by
  intro hin
  refine hcap ((childReads_lt_iff hc cap heap).mp ?_)
  intro a ha
  rw [sinkAccesses, dif_pos hc] at has
  split_ifs at has
  · cases has
    exact hin a (mem_append_left _ ha)
  · obtain ⟨rest, -, rfl⟩ := map_eq_some_iff.mp has
    exact hin a (mem_append_left _ ha)

theorem sink_isSome_iff (hk : k < cap) : (sink cap stop x heap k).isSome ↔ ∃ as, sinkAccesses stop x heap k = some as ∧ ∀ a ∈ as, a.index < cap := by
  induction hm : stop + 1 - k using Nat.strong_induction_on generalizing heap k with
  | _ m ih =>
    by_cases hover : 2 ^ 31 ≤ k * 2 + 1
    · rw [sink, sinkAccesses, if_pos hover, if_pos hover]
      simp
    by_cases hc : k * 2 + 1 ≤ stop
    · by_cases hcap : min stop (2 * k + 2) < cap
      · have hlt := lt_larger heap stop k
        have hlc : larger heap stop k < cap := larger_lt hc hcap
        have hchildren := (childReads_lt_iff hc cap heap).mpr hcap
        rw [sink_of_child hover hc hcap, sinkAccesses, if_neg hover, dif_pos hc]
        by_cases hs : heap (larger heap stop k) < x
        · rw [if_pos hs, if_pos hs]
          refine iff_of_true rfl ⟨_, rfl, ?_⟩
          rw [forall_mem_append, forall_mem_singleton]
          exact ⟨hchildren, hk⟩
        · rw [if_neg hs, if_neg hs, ih _ (by omega) hlc rfl]
          constructor
          · rintro ⟨as, has, hin⟩
            refine ⟨_, by rw [has]; rfl, ?_⟩
            rw [forall_mem_append, forall_mem_cons, forall_mem_cons]
            exact ⟨hchildren, hlc, hk, hin⟩
          · rintro ⟨as, has, hin⟩
            obtain ⟨rest, hr, rfl⟩ := map_eq_some_iff.mp has
            rw [forall_mem_append, forall_mem_cons, forall_mem_cons] at hin
            exact ⟨rest, hr, hin.2.2.2⟩
      · rw [sink_of_outside hover hc hcap]
        refine iff_of_false (by simp) ?_
        rintro ⟨as, has, hin⟩
        exact sinkAccesses_of_outside hc hcap has hin
    · rw [sink, sinkAccesses, if_neg hover, if_neg hover, dif_neg hc, dif_neg hc]
      refine iff_of_true rfl ⟨_, rfl, ?_⟩
      rw [forall_mem_singleton]
      exact hk

/-! ## The calls -/

theorem index_lt_of_mem_searchAccesses {data : α} {x : Access} (hx : x ∈ searchAccesses heap data k i) : x.index < i + k := by
  induction k generalizing i with
  | zero => simp [searchAccesses] at hx
  | succ k ih =>
    rcases mem_cons.mp hx with rfl | hx
    · change i < i + (k + 1)
      omega
    · grind

namespace MaxHeap

variable {h : MaxHeap α} {data : α}

theorem removeAccesses_found (hf : h.index data < h.size) : h.removeAccesses data =
    (sinkAccesses h.size (h.heap (h.size - 1)) (update h.heap (h.index data) (h.heap (h.size - 1))) (h.index data)).map fun rest =>
      (searchAccesses h.heap data h.size 0 ++ [.read (h.size - 1), .write (h.index data)], .read (h.index data) :: rest) := by
  rw [removeAccesses, if_neg (by omega), if_neg (by omega), filterDownAccesses, update_self, Option.map_map]
  rfl

theorem removeAccesses_absent (habs : h.index data = h.size) : ∃ own, h.removeAccesses data = some (own, []) ∧ ∀ x ∈ own, x.index < h.size := by
  unfold removeAccesses
  by_cases hnil : h.size = 0
  · exact ⟨[], if_pos hnil, by simp⟩
  · refine ⟨searchAccesses h.heap data h.size 0, by rw [if_neg hnil, if_pos habs], ?_⟩
    intro x hx
    have := index_lt_of_mem_searchAccesses hx
    omega

theorem own_lt (hf : h.index data < h.size) :
    ∀ x ∈ searchAccesses h.heap data h.size 0 ++ [.read (h.size - 1), .write (h.index data)], x.index < h.size := by
  intro x hx
  simp only [mem_append, mem_cons, not_mem_nil, or_false] at hx
  rcases hx with hx | rfl | rfl
  · have := index_lt_of_mem_searchAccesses hx
    omega
  · change h.size - 1 < h.size
    omega
  · exact hf

theorem sinkAccesses_remove (h : MaxHeap α) (data : α) :
    let down := sinkAccesses h.size (h.heap (h.size - 1)) (update h.heap (h.index data) (h.heap (h.size - 1))) (h.index data)
    (down = none ↔ ∃ k, h.Visits data k ∧ 2 ^ 30 ≤ k) ∧
    ∀ as, down = some as → ∀ i, (.read i ∈ as ↔ 0 < i ∧ i ≤ h.size ∧ h.Visits data (parent i)) ∧ (.write i ∈ as ↔ h.Visits data i) :=
  sinkAccesses_spec fun _ hj => update_of_ne (ne_of_gt hj) _ _

theorem staysInBounds_remove (hf : h.index data < h.size) :
    h.StaysInBounds (.remove data) ↔ (∀ k, h.Visits data k → k < 2 ^ 30) ∧ ¬h.Visits data (parent h.size) := by
  obtain ⟨hn, hsome⟩ := h.sinkAccesses_remove data
  have hle := h.size_le
  constructor
  · rintro ⟨own, down, hacc, -, hreads⟩
    rw [accesses, removeAccesses_found hf] at hacc
    obtain ⟨rest, hr, he⟩ := map_eq_some_iff.mp hacc
    obtain ⟨-, rfl⟩ := Prod.mk.inj he
    constructor
    · grind
    · -- the cell behind the last would be read
      intro hvisit
      have hmem := ((hsome rest hr h.size).1).mpr ⟨by omega, le_refl _, hvisit⟩
      exact absurd (hreads h.size (mem_cons_of_mem _ hmem)) (lt_irrefl _)
  · rintro ⟨hover, hparent⟩
    obtain ⟨rest, hr⟩ : ∃ rest, sinkAccesses h.size (h.heap (h.size - 1))
        (update h.heap (h.index data) (h.heap (h.size - 1))) (h.index data) = some rest := by
      rw [← ne_none_iff_exists']
      intro hnil
      obtain ⟨k, hk, hge⟩ := hn.mp hnil
      exact absurd (hover k hk) (not_lt.mpr hge)
    -- a child of a visited node counts
    have hch : ∀ i, 0 < i → i ≤ h.size → h.Visits data (parent i) → i < h.size := by grind
    have hdown : ∀ x ∈ Access.read (h.index data) :: rest, x.index < h.size := by
      intro x hx
      rcases mem_cons.mp hx with rfl | hx
      · exact hf
      · cases x with
        | read i =>
          obtain ⟨hi, hi', hvisit⟩ := (hsome rest hr i).1.mp hx
          exact hch i hi hi' hvisit
        | write i =>
          rcases Sinks.eq_or_child ((hsome rest hr i).2.mp hx) with rfl | ⟨hi, hi', hvisit⟩
          · exact hf
          · exact hch i hi hi' hvisit
    refine ⟨_, _, by rw [accesses, removeAccesses_found hf, hr]; rfl, ?_, ?_⟩
    · grind [own_lt]
    · intro i hi
      exact hdown _ hi

theorem staysInBounds_iff (h : MaxHeap α) (c : HeapCall α) : h.StaysInBounds c ↔ h.EndsInTime c := by
  cases c with
  | insert val =>
    refine iff_of_true ⟨_, _, rfl, ?_, by simp⟩ trivial
    rw [append_nil]
    exact h.insertAccesses_lt val
  | createMaxHeap a =>
    refine iff_of_true ⟨_, _, rfl, ?_, by simp⟩ trivial
    rw [append_nil]
    unfold createMaxHeapAccesses
    split_ifs
    · simp
    · exact insertAllAccesses_lt a h
  | remove data =>
    rcases h.index_spec data with ⟨hf, -⟩ | ⟨habs, -⟩
    · rw [staysInBounds_remove hf]
      exact ⟨fun hin _ => hin, fun hin => hin hf⟩
    · obtain ⟨own, hown, hlt⟩ := removeAccesses_absent habs
      refine iff_of_true ⟨own, [], hown, ?_, by simp⟩ fun hlt => absurd habs (ne_of_lt hlt)
      rw [append_nil]
      intro x hx
      exact (hlt x hx).trans_le h.size_le

/-- A call has an outcome exactly when its accesses are defined and all of them are to cells of the array. -/
theorem exec_isSome_iff (h : MaxHeap α) (c : HeapCall α) :
    (h.exec c).isSome ↔ ∃ own down, h.accesses c = some (own, down) ∧ ∀ x ∈ own ++ down, x.index < h.capacity := by
  cases c with
  | insert val =>
    obtain ⟨own, down, hacc, hin, -⟩ := (h.staysInBounds_iff (.insert val)).mpr trivial
    exact iff_of_true rfl ⟨own, down, hacc, hin⟩
  | createMaxHeap a =>
    obtain ⟨own, down, hacc, hin, -⟩ := (h.staysInBounds_iff (.createMaxHeap a)).mpr trivial
    exact iff_of_true rfl ⟨own, down, hacc, hin⟩
  | remove data =>
    have hexec : (h.exec (.remove data)).isSome = (h.remove data).isSome := by
      rw [exec]
      cases h.remove data <;> rfl
    rw [hexec]
    rcases h.index_spec data with ⟨hf, -⟩ | ⟨habs, -⟩
    · have hremove : (h.remove data).isSome = (sink h.capacity h.size (h.heap (h.size - 1))
          (update h.heap (h.index data) (h.heap (h.size - 1))) (h.index data)).isSome := by
        rw [remove, if_neg (by omega), if_neg (by omega), filterDown, update_self]
        split
        · rename_i hs
          rw [hs]
          rfl
        · rename_i hs
          rw [hs]
          rfl
      rw [hremove, sink_isSome_iff (hf.trans_le h.size_le), accesses, removeAccesses_found hf]
      constructor
      · rintro ⟨as, has, hin⟩
        refine ⟨_, _, by rw [has]; rfl, ?_⟩
        intro x hx
        rcases mem_append.mp hx with hx | hx
        · exact (own_lt hf x hx).trans_le h.size_le
        · rcases mem_cons.mp hx with rfl | hx
          · exact hf.trans_le h.size_le
          · exact hin x hx
      · rintro ⟨own, down, hacc, hin⟩
        obtain ⟨rest, hr, he⟩ := map_eq_some_iff.mp hacc
        obtain ⟨-, rfl⟩ := Prod.mk.inj he
        exact ⟨rest, hr, fun x hx => hin x (by simp [hx])⟩
    · obtain ⟨own, hown, hlt⟩ := removeAccesses_absent habs
      refine iff_of_true (by rw [remove_absent habs]; rfl) ⟨own, [], hown, ?_⟩
      rw [append_nil]
      intro x hx
      exact (hlt x hx).trans_le h.size_le

end MaxHeap

/-- In every reachable heap, of any capacity: every access of a call is to a cell of the array, and `filterDown` reads only cells that counted
before the call, exactly when the value that sinks comes neither to the parent of the cell behind the last nor to a node whose
children have no index. Only `remove` of a value that is found can go wrong, and a call has an outcome as long as it stays in the array. -/
theorem maxHeap_stays_in_bounds_iff {cap : Nat} (hcap : cap < 2 ^ 31) {raw : Nat → α} {es : List (HeapCall α × Bool)} {h : MaxHeap α}
    (hr : Run MaxHeap.exec (MaxHeap.new cap hcap raw) es h) (c : HeapCall α) :
    h.capacity = cap ∧ (h.StaysInBounds c ↔ h.EndsInTime c) ∧
    ((h.exec c).isSome ↔ ∃ own down, h.accesses c = some (own, down) ∧ ∀ x ∈ own ++ down, x.index < h.capacity) :=
  ⟨MaxHeap.run_capacity hr, h.staysInBounds_iff c, h.exec_isSome_iff c⟩

/-- The smaller of two values is removed: it is in the last cell, and stays there. -/
theorem maxHeap_stays_in_bounds_last :
    Run MaxHeap.exec (MaxHeap.new 4 (by decide) fun _ => 0) [(.insert 1, true), (.insert 2, true)] twoInserted ∧
    twoInserted.StaysInBounds (.remove 1) := by
  have hr := twoInserted_run (P := fun _ _ => True) fun _ _ => trivial
  have hs : twoInserted.size = 2 := rfl
  have hi : twoInserted.index 1 = 1 := by decide +kernel
  have hvisits : ∀ k, twoInserted.Visits 1 k → k = 1 := by
    intro k hk
    rw [MaxHeap.Visits, hi] at hk
    rcases sinks_iff.mp hk with rfl | ⟨hle, -⟩
    · rfl
    · omega
  refine ⟨hr, (maxHeap_stays_in_bounds_iff (by decide) hr (.remove 1)).2.1.mpr ?_⟩
  intro _
  refine ⟨?_, ?_⟩
  · intro k hk
    rw [hvisits k hk]
    decide
  · intro hk
    have hone := hvisits _ hk
    exact absurd hone (by decide)

/-- The only value of a full heap is removed: `filterDown` reads the cell behind the array. -/
theorem maxHeap_reads_behind : ¬∀ (es : List (HeapCall Int × Bool)) (h : MaxHeap Int),
    Run MaxHeap.exec (MaxHeap.new 1 (by decide) fun _ => 0) es h → ∀ c, h.StaysInBounds c := by
  intro hall
  have hrun : ∃ h : MaxHeap Int, Run MaxHeap.exec (MaxHeap.new 1 (by decide) fun _ => 0) [(.insert 5, true)] h ∧
      h.accesses (.remove 5) = some ([.read 0, .read 0, .write 0], [.read 0, .read 1, .write 0]) :=
    exists_run_of_view MaxHeap.exec (fun h => h.accesses (.remove 5)) (MaxHeap.new 1 (by decide) fun _ => 0) [.insert 5]
      (by decide +kernel)
  obtain ⟨h, hr, hacc⟩ := hrun
  obtain ⟨own, down, hacc', hin, -⟩ := hall _ h hr (.remove 5)
  rw [hacc] at hacc'
  obtain ⟨rfl, rfl⟩ := Prod.mk.inj (some.inj hacc')
  have hlt := hin (.read 1) (by decide)
  rw [MaxHeap.run_capacity hr] at hlt
  exact absurd hlt (by decide)

end CsLearning.DsAlgo
