import CsLearning.Lib.Memory

/-!
# Doubly linked cells

A cell with a value and two links. A memory of such cells is seen as three functions of the address (`Mem.Parts`), on which an assignment,
an allocation and a release are updates: so a program is followed step by step whichever of its pointers are equal.

`Linked next pre l` says that the consecutive cells of `l` are linked both ways. A ring is `head :: l ++ [head]`, and a list between two
sentinels is `first :: l ++ [last]`. The two changes that a program makes are local: `Linked.insert` puts a cell between two neighbours,
`Linked.erase` takes one out. They ask that no cell is followed by two others and that none is preceded by two others; the
neighbours may be one and the same cell.
-/

open List Function

namespace CsLearning

/-- A cell of a doubly linked list. -/
structure Cell (V : Type*) where
  value : V
  pre : Ptr
  next : Ptr
  deriving DecidableEq, Repr

/-- The value, as a part that every cell has. -/
def Cell.value? {V : Type*} (c : Cell V) : Option V := some c.value

namespace Mem

variable {V : Type*} {m : Mem (Cell V)} {a : Addr} {value : Addr → Option V} {pre next : Addr → Ptr}

/-- `p->next = q`. -/
def setNext (m : Mem (Cell V)) (p q : Ptr) : Option (Mem (Cell V)) := m.write p fun c => { c with next := q }

/-- `p->pre = q`. -/
def setPre (m : Mem (Cell V)) (p q : Ptr) : Option (Mem (Cell V)) := m.write p fun c => { c with pre := q }

/-- The three parts of the cells of `m`; the first one is there exactly for the cells that are allocated. -/
structure Parts (m : Mem (Cell V)) (value : Addr → Option V) (pre next : Addr → Ptr) : Prop where
  value : m.part Cell.value? = value
  pre : m.part Cell.pre = pre
  next : m.part Cell.next = next

theorem parts (m : Mem (Cell V)) : m.Parts (m.part Cell.value?) (m.part Cell.pre) (m.part Cell.next) := ⟨rfl, rfl, rfl⟩

theorem part_value_eq_none : m.part Cell.value? a = none ↔ m a = none := by
  cases h : m a <;> simp [part, h, Cell.value?]

theorem value_ne_none_of_part {f : Cell V → Ptr} {b : Addr} (h : m.part f a = some b) : m.part Cell.value? a ≠ none := by
  obtain ⟨c, hc, _⟩ := exists_of_part h
  simp [part, hc, Cell.value?]

section

variable (h : m.Parts value pre next)

include h

theorem Parts.exists_cell (ha : value a ≠ none) : ∃ c, m a = some c := by
  rw [← h.value] at ha
  exact Option.ne_none_iff_exists'.mp fun hn => ha (part_value_eq_none.mpr hn)

theorem Parts.read_next (ha : value a ≠ none) : m.read (some a) Cell.next = some (next a) := by
  obtain ⟨c, hc⟩ := h.exists_cell ha
  simp [← h.next, read, part, hc]

theorem Parts.read_pre (ha : value a ≠ none) : m.read (some a) Cell.pre = some (pre a) := by
  obtain ⟨c, hc⟩ := h.exists_cell ha
  simp [← h.pre, read, part, hc]

theorem Parts.read_value {v : V} (ha : value a = some v) : m.read (some a) Cell.value = some v := by
  rw [← h.value] at ha
  obtain ⟨c, hc, hv⟩ := exists_of_part ha
  obtain rfl := Option.some.inj hv
  simp [read, hc]

theorem Parts.setNext (ha : value a ≠ none) (q : Ptr) :
    ∃ m', m.setNext (some a) q = some m' ∧ m'.Parts value pre (update next a q) := by
  obtain ⟨c, hc⟩ := h.exists_cell ha
  refine ⟨_, write_of_some hc _, ?_, ?_, ?_⟩
  · rw [← h.value]
    exact part_update_eq hc rfl
  · rw [← h.pre]
    exact part_update_eq hc rfl
  · rw [part_update, h.next]
    rfl

theorem Parts.setPre (ha : value a ≠ none) (q : Ptr) :
    ∃ m', m.setPre (some a) q = some m' ∧ m'.Parts value (update pre a q) next := by
  obtain ⟨c, hc⟩ := h.exists_cell ha
  refine ⟨_, write_of_some hc _, ?_, ?_, ?_⟩
  · rw [← h.value]
    exact part_update_eq hc rfl
  · rw [part_update, h.pre]
    rfl
  · rw [← h.next]
    exact part_update_eq hc rfl

theorem Parts.new (ha : m a = none) (c : Cell V) : ∃ m', m.new a c = some m' ∧
      m'.Parts (update value a (some c.value)) (update pre a c.pre) (update next a c.next) := by
  refine ⟨_, new_of_free ha c, ?_, ?_, ?_⟩
  · rw [part_update, h.value]
    rfl
  · rw [part_update, h.pre]
    rfl
  · rw [part_update, h.next]
    rfl

theorem Parts.delete (ha : value a ≠ none) : ∃ m', m.delete (some a) = some m' ∧
      m'.Parts (update value a none) (update pre a none) (update next a none) := by
  obtain ⟨c, hc⟩ := h.exists_cell ha
  refine ⟨_, delete_of_some hc, ?_, ?_, ?_⟩
  · rw [part_update, h.value]
    rfl
  · rw [part_update, h.pre]
    rfl
  · rw [part_update, h.next]
    rfl

end

end Mem

/-! ## Linked lists of cells -/

variable {next pre next' pre' : Addr → Ptr} {p q : List Addr} {x y n : Addr}

/-- Consecutive cells of `l` are linked both ways. -/
def Linked (next pre : Addr → Ptr) (l : List Addr) : Prop := l.IsChain fun x y => next x = some y ∧ pre y = some x

variable {l : List Addr}

theorem Linked.forward (h : Linked next pre l) : l.IsChain fun x y => next x = some y := h.imp fun _ _ h => h.1

theorem Linked.backward (h : Linked next pre l) : l.reverse.IsChain fun x y => pre x = some y := isChain_reverse.mpr (h.imp fun _ _ h => h.2)

theorem Linked.neighbours (h : Linked next pre (p ++ x :: y :: q)) : next x = some y ∧ pre y = some x := (isChain_append_cons_cons.mp h).2.1

/-- The two ends of a gap in a list: the last cell before it and the first one after it. -/
theorem exists_ends (first : Addr) (a b : List Addr) (last : Addr) : ∃ p x y q, first :: a = p ++ [x] ∧ b ++ [last] = y :: q := by
  obtain ⟨y, q, hy⟩ := exists_cons_of_ne_nil (l := b ++ [last]) (by simp)
  exact ⟨_, _, y, q, (dropLast_append_getLast (cons_ne_nil first a)).symm, hy⟩

theorem Linked.congr (h : Linked next pre l) (hn : ∀ u ∈ l.dropLast, next' u = next u) (hp : ∀ u ∈ l.tail, pre' u = pre u) : Linked next' pre' l := by
  induction l with
  | nil => exact isChain_nil
  | cons a l ih =>
    cases l with
    | nil => exact isChain_singleton _
    | cons b l =>
      obtain ⟨hab, hl⟩ := isChain_cons_cons.mp h
      refine isChain_cons_cons.mpr ⟨⟨(hn a (by simp)).trans hab.1, (hp b (by simp)).trans hab.2⟩, ih hl ?_ ?_⟩
      · grind
      · intro u hu
        exact hp u (mem_of_mem_tail hu)

/-- No cell of the list is followed by two others, and none is preceded by two others. -/
structure Simple (l : List Addr) : Prop where
  dropLast : l.dropLast.Nodup
  tail : l.tail.Nodup

/-- A simple list around a part `l` of it: the cells whose `next` link lies outside are neither `x` nor in `l`, and those whose `pre` link
lies outside are neither `y` nor in `l`. -/
theorem Simple.split (h : Simple (p ++ x :: l ++ y :: q)) :
    (∀ u ∈ p, u ≠ x ∧ u ∉ l) ∧ (∀ u ∈ (p ++ [x]).tail, u ≠ y ∧ u ∉ l) ∧ (∀ u ∈ (y :: q).dropLast, u ≠ x ∧ u ∉ l) ∧ ∀ u ∈ q, u ≠ y ∧ u ∉ l := by
  have hd := h.dropLast
  have ht := h.tail
  have he : (p ++ x :: l ++ y :: q).tail = (p ++ [x]).tail ++ (l ++ y :: q) := by
    rw [← tail_append_of_ne_nil (by simp)]
    simp
  rw [dropLast_append_of_ne_nil (by simp), nodup_append] at hd
  rw [he, nodup_append] at ht
  refine ⟨fun u hu => ?_, fun u hu => ?_, fun u hu => ?_, fun u hu => ?_⟩
  · grind
  · grind
  · grind
  · grind

/-- The cell `n` is put between the neighbours `x` and `y`. -/
theorem Linked.insert (h : Linked next pre (p ++ x :: y :: q)) (hs : Simple (p ++ x :: y :: q)) (hn : n ∉ p ++ x :: y :: q)
    (hx : next' x = some n) (hnn : next' n = some y) (hnp : pre' n = some x) (hy : pre' y = some n)
    (hnext : ∀ u, u ≠ x → u ≠ n → next' u = next u) (hpre : ∀ u, u ≠ y → u ≠ n → pre' u = pre u) :
    Linked next' pre' (p ++ x :: n :: y :: q) := by
  have hs' : Simple (p ++ x :: [] ++ y :: q) := by simpa using hs
  obtain ⟨h1, h2, h3, h4⟩ := hs'.split
  obtain ⟨hp, _, hq⟩ := isChain_append_cons_cons.mp h
  refine isChain_append_cons_cons.mpr ⟨?_, ⟨hx, hnp⟩, isChain_cons_cons.mpr ⟨⟨hnn, hy⟩, ?_⟩⟩
  · refine Linked.congr hp (fun u hu => ?_) fun u hu => ?_
    · grind
    · grind [mem_of_mem_tail]
  · refine Linked.congr hq (fun u hu => ?_) fun u hu => ?_
    · grind [mem_of_mem_dropLast]
    · grind

/-- The cell `n` between the neighbours `x` and `y` is taken out; what becomes of its own links does not matter. -/
theorem Linked.erase (h : Linked next pre (p ++ x :: n :: y :: q)) (hs : Simple (p ++ x :: n :: y :: q))
    (hx : next' x = some y) (hy : pre' y = some x)
    (hn : ∀ u, u ≠ x → u ≠ n → next' u = next u) (hpre : ∀ u, u ≠ y → u ≠ n → pre' u = pre u) :
    Linked next' pre' (p ++ x :: y :: q) := by
  have hs' : Simple (p ++ x :: [n] ++ y :: q) := by simpa using hs
  obtain ⟨h1, h2, h3, h4⟩ := hs'.split
  simp only [mem_singleton] at h1 h2 h3 h4
  obtain ⟨hp, _, hq⟩ := isChain_append_cons_cons.mp h
  refine isChain_append_cons_cons.mpr ⟨?_, ⟨hx, hy⟩, ?_⟩
  · refine Linked.congr hp (fun u hu => ?_) fun u hu => hpre u (h2 u hu).1 (h2 u hu).2
    rw [dropLast_concat] at hu
    exact hn u (h1 u hu).1 (h1 u hu).2
  · refine Linked.congr (isChain_cons_cons.mp hq).2 (fun u hu => hn u (h3 u hu).1 (h3 u hu).2) fun u hu => ?_
    exact hpre u (h4 u hu).1 (h4 u hu).2

end CsLearning
