import CsLearning.Lib.Links
import CsLearning.Lib.Word

/-!
# The circular doubly linked list

`DoubleLink` of `DS&Algo/src/double_linked_list`. The list holds `int`s, the only type its insertions compile for. The nodes are cells of
a memory, and the address of a new node is given by the caller of the model, so that a run may use any free address, also one that was
released before. A call that reads or writes through a null or dangling pointer has no outcome, nor has one that overflows `count_`.
-/

open List Option Function Prod Int

namespace CsLearning.DsAlgo

open Mem

/-- The list: the memory it lives in, the head node and the number of nodes. -/
structure DoubleLink where
  mem : Mem (Cell Int)
  phead : Addr
  count : Int

namespace DoubleLink

/-- The constructor; `phead` is the address of the new head node. -/
def create (m : Mem (Cell Int)) (phead : Addr) : Option DoubleLink := do
  let m ← m.new phead ⟨0, none, none⟩
  let m ← m.setNext (some phead) (some phead)
  let m ← m.setPre (some phead) (some phead)
  return ⟨m, phead, 0⟩

/-- `getNode`. -/
def getNode (l : DoubleLink) (index : Int) : Option Ptr :=
  if index ≥ l.count ∨ index < 0 then some none
  else if index ≤ l.count.tdiv 2 then do
    let pnode ← l.mem.read (some l.phead) Cell.next
    l.mem.follow Cell.next index.toNat pnode
  else do
    let pnode ← l.mem.read (some l.phead) Cell.pre
    l.mem.follow Cell.pre (l.count - index - 1).toNat pnode

/-- `insert_front`. -/
def insertFront (l : DoubleLink) (newNode : Addr) (value : Int) : Option (DoubleLink × Ptr) := do
  let next ← l.mem.read (some l.phead) Cell.next
  let m ← l.mem.new newNode ⟨value, some l.phead, next⟩
  let next ← m.read (some l.phead) Cell.next
  let m ← m.setPre next (some newNode)
  let m ← m.setNext (some l.phead) (some newNode)
  let count ← Word.incr l.count
  return (⟨m, l.phead, count⟩, some newNode)

/-- `insert_last`. -/
def insertLast (l : DoubleLink) (newNode : Addr) (value : Int) : Option (DoubleLink × Ptr) := do
  let pre ← l.mem.read (some l.phead) Cell.pre
  let m ← l.mem.new newNode ⟨value, pre, some l.phead⟩
  let pre ← m.read (some l.phead) Cell.pre
  let m ← m.setNext pre (some newNode)
  let m ← m.setPre (some l.phead) (some newNode)
  let count ← Word.incr l.count
  return (⟨m, l.phead, count⟩, some newNode)

/-- `insert`. -/
def insert (l : DoubleLink) (newNode : Addr) (index value : Int) : Option (DoubleLink × Ptr) :=
  if index = 0 then l.insertFront newNode value
  else do
    let pNode ← l.getNode index
    if pNode = none then return (l, none)
    else
      let pre ← l.mem.read pNode Cell.pre
      let m ← l.mem.new newNode ⟨value, pre, pNode⟩
      let pre ← m.read pNode Cell.pre
      let m ← m.setNext pre (some newNode)
      let m ← m.setPre pNode (some newNode)
      let count ← Word.incr l.count
      return (⟨m, l.phead, count⟩, some newNode)

/-- `delete_front`. -/
def deleteFront (l : DoubleLink) : Option (DoubleLink × Ptr) :=
  if l.count = 0 then some (l, none)
  else do
    let pnode ← l.mem.read (some l.phead) Cell.next
    let next ← l.mem.read pnode Cell.next
    let m ← l.mem.setNext (some l.phead) next
    let next ← m.read pnode Cell.next
    let m ← m.setPre next (some l.phead)
    let m ← m.delete pnode
    let first ← m.read (some l.phead) Cell.next
    return (⟨m, l.phead, l.count - 1⟩, first)

/-- `delete_last`. -/
def deleteLast (l : DoubleLink) : Option (DoubleLink × Ptr) :=
  if l.count = 0 then some (l, none)
  else do
    let pnode ← l.mem.read (some l.phead) Cell.pre
    let pre ← l.mem.read pnode Cell.pre
    let m ← l.mem.setNext pre (some l.phead)
    let pre ← m.read pnode Cell.pre
    let m ← m.setPre (some l.phead) pre
    let m ← m.delete pnode
    let last ← m.read (some l.phead) Cell.pre
    return (⟨m, l.phead, l.count - 1⟩, last)

/-- `del`. -/
def del (l : DoubleLink) (index : Int) : Option (DoubleLink × Ptr) :=
  if index = 0 then l.deleteFront
  else if index = l.count - 1 then l.deleteLast
  else if index ≥ l.count then some (l, none)
  else do
    let pnode ← l.getNode index
    let pre ← l.mem.read pnode Cell.pre
    let next ← l.mem.read pnode Cell.next
    let m ← l.mem.setNext pre next
    let next ← m.read pnode Cell.next
    let pre ← m.read pnode Cell.pre
    let m ← m.setPre next pre
    let ptemp ← m.read pnode Cell.pre
    let m ← m.delete pnode
    return (⟨m, l.phead, l.count - 1⟩, ptemp)

/-! ## The representation -/

/-- The nodes of the list are `cs`, each given by its address and its value: with the head node they are linked to a ring. -/
structure Rep (l : DoubleLink) (cs : List (Addr × Int)) : Prop where
  nodup : (l.phead :: cs.map Prod.fst).Nodup
  linked : Linked (l.mem.part Cell.next) (l.mem.part Cell.pre) (l.phead :: cs.map Prod.fst ++ [l.phead])
  value : ∀ c ∈ cs, l.mem.part Cell.value? c.1 = some c.2
  count : l.count = cs.length

variable {l : DoubleLink} {a b cs : List (Addr × Int)} {n x y : Addr} {v : Int} {p q : List Addr} {m : Mem (Cell Int)}

variable {h : Addr} {c : Addr × Int}

theorem simple_ring {as : List Addr} (hnd : (h :: as).Nodup) : Simple (h :: as ++ [h]) := by
  refine ⟨by rwa [dropLast_concat], ?_⟩
  simpa [and_comm] using nodup_append_comm.mp hnd

theorem ring_eq (hx : h :: a.map fst = p ++ [x]) (hy : b.map fst ++ [h] = y :: q) : h :: (a ++ b).map fst ++ [h] = p ++ x :: y :: q := by grind

/-- The two ends of a cut of the ring: the last node before it, the first one after it, and their links to each other. -/
structure Cut (l : DoubleLink) (a b : List (Addr × Int)) (p : List Addr) (x y : Addr) (q : List Addr) : Prop where
  before : l.phead :: a.map Prod.fst = p ++ [x]
  after : b.map Prod.fst ++ [l.phead] = y :: q
  next : l.mem.part Cell.next x = some y
  pre : l.mem.part Cell.pre y = some x
  leftCell : l.mem.part Cell.value? x ≠ none
  rightCell : l.mem.part Cell.value? y ≠ none

theorem Rep.cut (h : l.Rep cs) (hcs : cs = a ++ b) : ∃ p x y q, Cut l a b p x y q := by
  subst hcs
  obtain ⟨p, x, y, q, hx, hy⟩ := exists_ends l.phead (a.map fst) (b.map fst) l.phead
  have hl := h.linked
  rw [ring_eq hx hy] at hl
  obtain ⟨hn, hp⟩ := hl.neighbours
  exact ⟨p, x, y, q, hx, hy, hn, hp, value_ne_none_of_part hn, value_ne_none_of_part hp⟩

/-- What stands before the first node, or before the cut that has nothing before it, is the head node. -/
theorem eq_of_before (hx : h :: ([] : List (Addr × Int)).map fst = p ++ [x]) : x = h := by
  have := congrArg getLast? hx
  simpa [eq_comm] using this

theorem Rep.not_mem_of_free (h : l.Rep cs) (hn : l.mem n = none) : n ∉ l.phead :: cs.map fst := by
  have hv : l.mem.part Cell.value? n = none := part_value_eq_none.mpr hn
  intro hmem
  rcases mem_cons.mp hmem with rfl | hmem
  · obtain ⟨p, x, y, q, hc⟩ := h.cut (nil_append cs).symm
    exact hc.leftCell (eq_of_before hc.before ▸ hv)
  · obtain ⟨c, hc, rfl⟩ := mem_map.mp hmem
    rw [h.value c hc] at hv
    cases hv

/-- A node that is not in the list is put into it: the parts of the memory are those that every insertion leaves. -/
theorem Rep.insert (h : l.Rep (a ++ b)) (hc : Cut l a b p x y q) (hn : l.mem n = none) (hm : m.Parts (update (l.mem.part Cell.value?) n (some v))
      (update (update (l.mem.part Cell.pre) n (some x)) y (some n))
      (update (update (l.mem.part Cell.next) n (some y)) x (some n))) :
    Rep ⟨m, l.phead, l.count + 1⟩ (a ++ (n, v) :: b) := by
  have hfresh := h.not_mem_of_free hn
  have hring := ring_eq hc.before hc.after
  have hn' : n ∉ p ++ x :: y :: q := by grind
  have hl := h.linked
  have hs := simple_ring h.nodup
  rw [hring] at hl hs
  simp only [mem_append, mem_cons, not_or] at hn'
  obtain ⟨hnp, hnx, hny, hnq⟩ := hn'
  refine ⟨?_, ?_, ?_, ?_⟩
  · have hnd := h.nodup
    simp only [map_append, map_cons] at hnd hfresh ⊢
    rw [← cons_append] at hnd hfresh ⊢
    rw [nodup_middle]
    exact nodup_cons.mpr ⟨hfresh, hnd⟩
  · have hins : Linked (m.part Cell.next) (m.part Cell.pre) (p ++ x :: n :: y :: q) := by
      rw [hm.next, hm.pre]
      refine hl.insert hs (by simp [hnp, hnx, hny, hnq]) ?_ ?_ ?_ ?_ ?_ ?_
      · simp
      · simp [hnx]
      · simp [hny]
      · simp
      · intro u hux hun
        simp [hux, hun]
      · intro u huy hun
        simp [huy, hun]
    have he : l.phead :: (a ++ (n, v) :: b).map fst ++ [l.phead] = p ++ x :: n :: y :: q := ring_eq hc.before (congrArg (cons n) hc.after)
    simpa only [he] using hins
  · intro c hcm
    have hcn : c = (n, v) ∨ c ∈ a ++ b := by
      simp only [mem_append, mem_cons] at hcm ⊢
      tauto
    simp only [hm.value]
    rcases hcn with rfl | hcm
    · simp
    · have hne : c.1 ≠ n := fun he => hfresh (mem_cons_of_mem _ (he ▸ mem_map_of_mem hcm))
      rw [update_of_ne hne]
      exact h.value c hcm
  · rw [h.count]
    simp only [length_append, length_cons]
    push_cast
    ring

/-- A node of the ring between its neighbours. -/
structure Around (l : DoubleLink) (a : List (Addr × Int)) (c : Addr × Int) (b : List (Addr × Int)) (p : List Addr) (x y : Addr)
    (q : List Addr) : Prop where
  left : Cut l a (c :: b) p x c.1 (b.map Prod.fst ++ [l.phead])
  after : b.map Prod.fst ++ [l.phead] = y :: q
  next : l.mem.part Cell.next c.1 = some y
  pre : l.mem.part Cell.pre y = some c.1
  rightCell : l.mem.part Cell.value? y ≠ none
  left_ne : x ≠ c.1
  right_ne : y ≠ c.1

theorem Rep.around (h : l.Rep cs) (hcs : cs = a ++ c :: b) : ∃ p x y q, Around l a c b p x y q := by
  obtain ⟨p, x, n, q', hc⟩ := h.cut hcs
  obtain ⟨rfl, rfl⟩ := cons.inj hc.after
  obtain ⟨p', n', y, q, hc'⟩ := h.cut (a := a ++ [c]) (b := b) (by simpa using hcs)
  have hn' : n' = c.1 := by
    have := congrArg getLast? hc'.before
    rw [map_append, map_singleton, ← cons_append, getLast?_concat, getLast?_concat] at this
    exact (some.inj this).symm
  subst hn'
  have hnd := h.nodup
  rw [hcs, map_append, map_cons, ← cons_append, nodup_middle, nodup_cons] at hnd
  refine ⟨p, x, y, q, hc, hc'.after, hc'.next, hc'.pre, hc'.rightCell, ?_, ?_⟩
  · intro he
    have hmem : x ∈ l.phead :: a.map fst := by simp [hc.before]
    exact hnd.1 (mem_append_left _ (he ▸ hmem))
  · intro he
    have hmem : y ∈ b.map fst ++ [l.phead] := by simp [hc'.after]
    rw [he] at hmem
    refine hnd.1 ?_
    simp only [mem_append, mem_cons, not_mem_nil, or_false] at hmem ⊢
    tauto

/-- A node is taken out of the list: the parts of the memory are those that every deletion leaves. -/
theorem Rep.erase (h : l.Rep (a ++ c :: b)) (hc : Around l a c b p x y q) (hm : m.Parts (update (l.mem.part Cell.value?) c.1 none)
      (update (update (l.mem.part Cell.pre) y (some x)) c.1 none)
      (update (update (l.mem.part Cell.next) x (some y)) c.1 none)) :
    Rep ⟨m, l.phead, l.count - 1⟩ (a ++ b) := by
  have hnd := h.nodup
  rw [map_append, map_cons, ← cons_append, nodup_middle, nodup_cons] at hnd
  have hring : l.phead :: (a ++ c :: b).map fst ++ [l.phead] = p ++ x :: c.1 :: y :: q := ring_eq hc.left.before (congrArg (cons c.1) hc.after)
  have hl := h.linked
  have hs := simple_ring h.nodup
  rw [hring] at hl hs
  refine ⟨by simpa using hnd.2, ?_, ?_, ?_⟩
  · have her : Linked (m.part Cell.next) (m.part Cell.pre) (p ++ x :: y :: q) := by
      rw [hm.next, hm.pre]
      refine hl.erase hs ?_ ?_ ?_ ?_
      · simp [hc.left_ne]
      · simp [hc.right_ne]
      · intro u hux hun
        simp [hux, hun]
      · intro u huy hun
        simp [huy, hun]
    simpa only [ring_eq hc.left.before hc.after] using her
  · intro d hd
    have hne : d.1 ≠ c.1 := by grind
    simp only [hm.value]
    rw [update_of_ne hne]
    exact h.value d (by simp only [mem_append, mem_cons] at hd ⊢; tauto)
  · rw [h.count]
    simp only [length_append, length_cons]
    push_cast
    ring

/-! ## The calls -/

/-- A call that, when it returns, leaves the list `cs`; it returns when `ok` holds. -/
abbrev Gives (r : Option (DoubleLink × Ptr)) (ok : Prop) (cs : List (Addr × Int)) : Prop := Outcome r ok fun x => x.1.Rep cs

theorem create_rep {m₀ : Mem (Cell Int)} (hx : create m₀ h = some l) : l.Rep [] := by
  by_cases hn : m₀ h = none
  · obtain ⟨m1, hm1, P1⟩ := (m₀.parts).new hn ⟨0, none, none⟩
    obtain ⟨m2, hm2, P2⟩ := P1.setNext (a := h) (by simp) (some h)
    obtain ⟨m3, hm3, P3⟩ := P2.setPre (a := h) (by simp) (some h)
    obtain rfl : l = ⟨m3, h, 0⟩ := by simpa [create, hm1, hm2, hm3, eq_comm] using hx
    refine ⟨by simp, ?_, by simp, rfl⟩
    simp [Linked, P3.next, P3.pre]
  · simp [create, new_eq_none hn] at hx

theorem Rep.getNode (h : l.Rep cs) (i : Int) : l.getNode i = some (if 0 ≤ i ∧ i < cs.length then (cs.map fst)[i.toNat]? else none) := by
  have hcnt := h.count
  unfold DoubleLink.getNode
  by_cases hi : i ≥ l.count ∨ i < 0
  · rw [if_pos hi, if_neg (by omega)]
  have hin : 0 ≤ i ∧ i < cs.length := by omega
  rw [if_neg hi, if_pos hin]
  obtain ⟨k, rfl⟩ := eq_ofNat_of_zero_le (a := i) (by omega)
  have hk : k < cs.length := by omega
  split
  · -- The front half: `k + 1` steps forward from the head node.
    have hf := follow_of_isChain (m := l.mem) (f := Cell.next) (n := k + 1) h.linked.forward (by simp; omega)
    rw [follow] at hf
    simp only [bind_eq_bind, toNat_natCast]
    rw [hf]
    simp [getElem?_append_left, hk]
  · -- The back half: `length - k` steps backward.
    have hb := h.linked.backward
    rw [reverse_append, reverse_singleton, reverse_cons, singleton_append] at hb
    obtain ⟨j, hj⟩ : ∃ j, cs.length = k + j + 1 := ⟨cs.length - k - 1, by omega⟩
    have hf := follow_of_isChain (m := l.mem) (f := Cell.pre) (n := j + 1) hb (by simp; omega)
    rw [follow] at hf
    have hj' : (l.count - k - 1).toNat = j := by omega
    simp only [bind_eq_bind, hj', toNat_natCast]
    rw [hf]
    have hlen : j < (cs.map fst).reverse.length := by simp; omega
    rw [getElem?_cons_succ, getElem?_append_left hlen, getElem?_reverse (by simp; omega)]
    congr 2
    simp
    omega

/-- The shape of every insertion: with a free address the links are set and `count_` is increased, without one there is no call. -/
theorem gives_of_insert {r : Option (DoubleLink × Ptr)} (hnone : l.mem n ≠ none → r = none)
    (hlink : l.mem n = none → ∃ m, r = (Word.incr l.count).bind (fun count => some (⟨m, l.phead, count⟩, some n)) ∧
      Rep ⟨m, l.phead, l.count + 1⟩ cs) :
    Gives r (l.mem n = none ∧ l.count + 1 < 2 ^ 31) cs := by
  by_cases hn : l.mem n = none
  · obtain ⟨m, rfl, hrep⟩ := hlink hn
    refine ((Word.incr_outcome l.count).bind fun count hcnt => ?_).mono And.right fun _ hx => hx
    subst hcnt
    exact Outcome.of_eq rfl hrep
  · exact Outcome.of_none (hnone hn) fun hok => hn hok.1

/-- A new node is linked in between the two ends of a cut, in either order of the two assignments. -/
theorem Rep.link (h : l.Rep (a ++ b)) (hc : Cut l a b p x y q) (hn : l.mem n = none) (v : Int) : ∃ m1, l.mem.new n ⟨v, some x, some y⟩ = some m1 ∧
      m1.read (some x) Cell.next = some (some y) ∧ m1.read (some y) Cell.pre = some (some x) ∧
      (∃ m2 m3, m1.setNext (some x) (some n) = some m2 ∧ m2.setPre (some y) (some n) = some m3 ∧ Rep ⟨m3, l.phead, l.count + 1⟩ (a ++ (n, v) :: b)) ∧
      ∃ m2 m3, m1.setPre (some y) (some n) = some m2 ∧ m2.setNext (some x) (some n) = some m3 ∧
        Rep ⟨m3, l.phead, l.count + 1⟩ (a ++ (n, v) :: b) := by
  have hv : l.mem.part Cell.value? n = none := part_value_eq_none.mpr hn
  have hxn : x ≠ n := fun he => hc.leftCell (he ▸ hv)
  have hyn : y ≠ n := fun he => hc.rightCell (he ▸ hv)
  obtain ⟨m1, hm1, P1⟩ := (l.mem.parts).new hn ⟨v, some x, some y⟩
  have hx1 : update (l.mem.part Cell.value?) n (some v) x ≠ none := by simpa [hxn] using hc.leftCell
  have hy1 : update (l.mem.part Cell.value?) n (some v) y ≠ none := by simpa [hyn] using hc.rightCell
  refine ⟨m1, hm1, ?_, ?_, ?_, ?_⟩
  · rw [P1.read_next hx1, update_of_ne hxn, hc.next]
  · rw [P1.read_pre hy1, update_of_ne hyn, hc.pre]
  · obtain ⟨m2, hm2, P2⟩ := P1.setNext hx1 (some n)
    obtain ⟨m3, hm3, P3⟩ := P2.setPre hy1 (some n)
    exact ⟨m2, m3, hm2, hm3, h.insert hc hn P3⟩
  · obtain ⟨m2, hm2, P2⟩ := P1.setPre hy1 (some n)
    obtain ⟨m3, hm3, P3⟩ := P2.setNext hx1 (some n)
    exact ⟨m2, m3, hm2, hm3, h.insert hc hn P3⟩

theorem insertFront_spec (h : l.Rep cs) (n : Addr) (v : Int) : Gives (l.insertFront n v) (l.mem n = none ∧ l.count + 1 < 2 ^ 31) ((n, v) :: cs) := by
  obtain ⟨p, x, y, q, hc⟩ := h.cut (nil_append cs).symm
  obtain rfl := eq_of_before hc.before
  have hr := (l.mem.parts).read_next hc.leftCell
  rw [hc.next] at hr
  refine gives_of_insert (fun hn => by simp [insertFront, hr, new_eq_none hn]) fun hn => ?_
  obtain ⟨m1, hm1, hr1, _, _, m2, m3, hm2, hm3, hrep⟩ := Rep.link (a := []) h hc hn v
  exact ⟨m3, by simp [insertFront, hr, hm1, hr1, hm2, hm3], hrep⟩

theorem insertLast_spec (h : l.Rep cs) (n : Addr) (v : Int) : Gives (l.insertLast n v) (l.mem n = none ∧ l.count + 1 < 2 ^ 31) (cs ++ [(n, v)]) := by
  obtain ⟨p, x, y, q, hc⟩ := h.cut (append_nil cs).symm
  obtain rfl : l.phead = y := (cons.inj hc.after).1
  have hr := (l.mem.parts).read_pre hc.rightCell
  rw [hc.pre] at hr
  refine gives_of_insert (fun hn => by simp [insertLast, hr, new_eq_none hn]) fun hn => ?_
  rw [← append_nil cs] at h
  obtain ⟨m1, hm1, _, hr1, ⟨m2, m3, hm2, hm3, hrep⟩, _⟩ := h.link hc hn v
  exact ⟨m3, by simp [insertLast, hr, hm1, hr1, hm2, hm3], hrep⟩

/-- `insert` before a node that is not the first. -/
theorem insert_spec (h : l.Rep (a ++ c :: b)) (ha : a ≠ []) (n : Addr) (v : Int) :
    Gives (l.insert n a.length v) (l.mem n = none ∧ l.count + 1 < 2 ^ 31) (a ++ (n, v) :: c :: b) := by
  obtain ⟨p, x, y, q, hc⟩ := h.cut rfl
  obtain rfl : c.1 = y := (cons.inj hc.after).1
  have hget : l.getNode a.length = some (some c.1) := by
    rw [h.getNode, if_pos (by simp)]
    simp
  have hr := (l.mem.parts).read_pre hc.rightCell
  rw [hc.pre] at hr
  refine gives_of_insert (fun hn => by simp [DoubleLink.insert, ha, hget, new_eq_none hn]) fun hn => ?_
  obtain ⟨m1, hm1, _, hr1, ⟨m2, m3, hm2, hm3, hrep⟩, _⟩ := h.link hc hn v
  exact ⟨m3, by simp [DoubleLink.insert, ha, hget, hr, hm1, hr1, hm2, hm3], hrep⟩

/-- A node is unlinked from its neighbours and released; what the calls read on the way. -/
theorem Rep.unlink (h : l.Rep (a ++ c :: b)) (hc : Around l a c b p x y q) :
    ∃ m1 m2 m3, l.mem.setNext (some x) (some y) = some m1 ∧ m1.setPre (some y) (some x) = some m2 ∧ m2.delete (some c.1) = some m3 ∧
      m1.read (some c.1) Cell.next = some (some y) ∧ m1.read (some c.1) Cell.pre = some (some x) ∧
      m2.read (some c.1) Cell.pre = some (some x) ∧
      m3.read (some x) Cell.next = some (some y) ∧ m3.read (some y) Cell.pre = some (some x) ∧
      Rep ⟨m3, l.phead, l.count - 1⟩ (a ++ b) := by
  obtain ⟨m1, hm1, P1⟩ := (l.mem.parts).setNext hc.left.leftCell (some y)
  obtain ⟨m2, hm2, P2⟩ := P1.setPre hc.rightCell (some x)
  obtain ⟨m3, hm3, P3⟩ := P2.delete hc.left.rightCell
  refine ⟨m1, m2, m3, hm1, hm2, hm3, ?_, ?_, ?_, ?_, ?_, h.erase hc P3⟩
  · rw [P1.read_next hc.left.rightCell, update_of_ne hc.left_ne.symm, hc.next]
  · rw [P1.read_pre hc.left.rightCell, hc.left.pre]
  · rw [P2.read_pre hc.left.rightCell, update_of_ne hc.right_ne.symm, hc.left.pre]
  · rw [P3.read_next (by simpa [hc.left_ne] using hc.left.leftCell), update_of_ne hc.left_ne, update_self]
  · rw [P3.read_pre (by simpa [hc.right_ne] using hc.rightCell), update_of_ne hc.right_ne, update_self]

/-- What the deletions read of a node and its neighbours before they change anything. -/
theorem Around.reads (hc : Around l a c b p x y q) :
    l.mem.read (some x) Cell.next = some (some c.1) ∧ l.mem.read (some y) Cell.pre = some (some c.1) ∧
      l.mem.read (some c.1) Cell.next = some (some y) ∧ l.mem.read (some c.1) Cell.pre = some (some x) := by
  refine ⟨?_, ?_, ?_, ?_⟩
  · rw [(l.mem.parts).read_next hc.left.leftCell, hc.left.next]
  · rw [(l.mem.parts).read_pre hc.rightCell, hc.pre]
  · rw [(l.mem.parts).read_next hc.left.rightCell, hc.next]
  · rw [(l.mem.parts).read_pre hc.left.rightCell, hc.left.pre]

theorem Rep.count_ne_zero (h : l.Rep cs) (hcs : cs ≠ []) : l.count ≠ 0 := by
  rw [h.count]
  simpa using hcs

theorem deleteFront_spec (h : l.Rep cs) : Gives l.deleteFront True cs.tail := by
  cases cs with
  | nil =>
    have hcnt : l.count = 0 := h.count
    exact Outcome.of_eq (by rw [deleteFront, if_pos hcnt]) h
  | cons c b =>
    obtain ⟨p, x, y, q, hc⟩ := h.around (a := []) rfl
    obtain rfl := eq_of_before hc.left.before
    obtain ⟨hx, _, hn, _⟩ := hc.reads
    obtain ⟨m1, m2, m3, hm1, hm2, hm3, hn1, _, _, hx3, _, hrep⟩ := Rep.unlink (a := []) h hc
    have hcnt := h.count_ne_zero (by simp)
    have hr : l.deleteFront = some (⟨m3, l.phead, l.count - 1⟩, some y) := by
      simp [deleteFront, hcnt, hx, hn, hm1, hn1, hm2, hm3, hx3]
    exact Outcome.of_eq hr hrep

theorem deleteLast_spec (h : l.Rep cs) : Gives l.deleteLast True cs.dropLast := by
  rcases eq_nil_or_concat' cs with rfl | ⟨a, c, rfl⟩
  · have hcnt : l.count = 0 := h.count
    exact Outcome.of_eq (by rw [deleteLast, if_pos hcnt]) h
  · rw [dropLast_concat]
    obtain ⟨p, x, y, q, hc⟩ := h.around (b := []) rfl
    obtain rfl : l.phead = y := (cons.inj hc.after).1
    obtain ⟨_, hy, _, hn⟩ := hc.reads
    obtain ⟨m1, m2, m3, hm1, hm2, hm3, _, hn1, _, _, hy3, hrep⟩ := Rep.unlink (b := []) h hc
    have hcnt := h.count_ne_zero (by simp)
    rw [append_nil] at hrep
    have hr : l.deleteLast = some (⟨m3, l.phead, l.count - 1⟩, some x) := by
      simp [deleteLast, hcnt, hy, hn, hm1, hn1, hm2, hm3, hy3]
    exact Outcome.of_eq hr hrep

theorem del_spec (h : l.Rep (a ++ c :: b)) (ha : a ≠ []) (hb : b ≠ []) : Gives (l.del a.length) True (a ++ b) := by
  obtain ⟨p, x, y, q, hc⟩ := h.around rfl
  have hget : l.getNode a.length = some (some c.1) := by
    rw [h.getNode, if_pos (by simp)]
    simp
  have hcnt := h.count
  have hblen := length_pos_iff.mpr hb
  rw [length_append, length_cons] at hcnt
  have hl : (a.length : Int) ≠ l.count - 1 := by omega
  have hlt : ¬ (a.length : Int) ≥ l.count := by omega
  obtain ⟨_, _, hn, hp⟩ := hc.reads
  obtain ⟨m1, m2, m3, hm1, hm2, hm3, hn1, hp1, hp2, _, _, hrep⟩ := h.unlink hc
  have hr : l.del a.length = some (⟨m3, l.phead, l.count - 1⟩, some x) := by
    unfold del
    rw [if_neg (by simpa using ha), if_neg hl, if_neg hlt]
    simp [hget, hp, hn, hm1, hn1, hp1, hm2, hp2, hm3]
  exact Outcome.of_eq hr hrep

/-! ## Runs -/

/-- A call on the list. -/
inductive Call where
  | insert (index value : Int)
  | insertFront (value : Int)
  | insertLast (value : Int)
  | del (index : Int)
  | deleteFront
  | deleteLast
  deriving DecidableEq, Repr

/-- The call; `n` is the address that `new` gives, when the call makes a node. -/
def call (l : DoubleLink) (n : Addr) : Call → Option (DoubleLink × Ptr)
  | .insert index value => l.insert n index value
  | .insertFront value => l.insertFront n value
  | .insertLast value => l.insertLast n value
  | .del index => l.del index
  | .deleteFront => l.deleteFront
  | .deleteLast => l.deleteLast

/-- One call, with the pointer that it returns. -/
def exec (l : DoubleLink) (x : Call × Addr) : Option (DoubleLink × Call × Ptr) := (l.call x.2 x.1).map fun r => (r.1, x.1, r.2)

/-- The same call on a list of values. -/
def onList (vs : List Int) : Call → List Int
  | .insert index value => if index = 0 ∨ 0 ≤ index ∧ index < vs.length then vs.insertIdx index.toNat value else vs
  | .insertFront value => value :: vs
  | .insertLast value => vs ++ [value]
  | .del index => if 0 ≤ index then vs.eraseIdx index.toNat else vs
  | .deleteFront => vs.tail
  | .deleteLast => vs.dropLast

/-- A call returns: an insertion, if it has a free address and `count_` does not overflow; `del`, if the index is that of a node. -/
def Returns (l : DoubleLink) (n : Addr) : Call → Prop
  | .insert _ _ | .insertFront _ | .insertLast _ => l.mem n = none ∧ l.count + 1 < 2 ^ 31
  | .del index => 0 ≤ index ∧ index < l.count
  | .deleteFront | .deleteLast => True

theorem call_insert_spec (h : l.Rep cs) (n : Addr) (i v : Int) : ∃ cs', Gives (l.insert n i v) (l.mem n = none ∧ l.count + 1 < 2 ^ 31) cs' ∧
      cs'.map snd = onList (cs.map snd) (.insert i v) := by
  simp only [onList]
  by_cases hi : i = 0
  · subst hi
    exact ⟨_, insertFront_spec h n v, by simp⟩
  by_cases hin : 0 ≤ i ∧ i < cs.length
  · obtain ⟨k, rfl⟩ := eq_ofNat_of_zero_le hin.1
    obtain ⟨a, c, b, rfl, rfl⟩ := exists_split_at (l := cs) (i := k) (by omega)
    have ha : a ≠ [] := by
      rintro rfl
      exact hi rfl
    refine ⟨_, insert_spec h ha n v, ?_⟩
    rw [if_pos (by simp), ← insertIdx_length_append, map_insertIdx]
    rfl
  · have hget := h.getNode i
    rw [if_neg hin] at hget
    have hins : l.insert n i v = some (l, none) := by simp [DoubleLink.insert, hi, hget]
    refine ⟨cs, Outcome.of_eq hins h, ?_⟩
    rw [if_neg (by simpa [hi] using hin)]

/-- `del` at any index: a negative one has an outcome on the empty list only. -/
theorem call_del_spec (h : l.Rep cs) (i : Int) : ∃ cs', Gives (l.del i) (0 ≤ i ∧ i < l.count) cs' ∧ cs'.map snd = onList (cs.map snd) (.del i) := by
  have hcnt := h.count
  simp only [onList]
  by_cases hneg : 0 ≤ i
  · obtain ⟨k, rfl⟩ := eq_ofNat_of_zero_le hneg
    rw [if_pos hneg, toNat_natCast]
    by_cases hk : k < cs.length
    · obtain ⟨a, c, b, rfl, rfl⟩ := exists_split_at hk
      refine ⟨a ++ b, ?_, ?_⟩
      · by_cases ha : a = []
        · subst ha
          exact (deleteFront_spec h).mono (fun _ => trivial) fun _ hx => hx
        · by_cases hb : b = []
          · subst hb
            have hl : (a.length : Int) = l.count - 1 := by simp [hcnt]
            have hdel : l.del a.length = l.deleteLast := by
              rw [del, if_neg (by simpa using ha), if_pos hl]
            have hspec := deleteLast_spec h
            rw [dropLast_concat] at hspec
            rw [hdel, append_nil]
            exact hspec.mono (fun _ => trivial) fun _ hx => hx
          · exact (del_spec h ha hb).mono (fun _ => trivial) fun _ hx => hx
      · rw [← eraseIdx_length_append a b c, eraseIdx_map]
    · refine ⟨cs, ?_, by rw [eraseIdx_of_length_le (by simpa using hk)]⟩
      by_cases hk0 : k = 0
      · subst hk0
        have hnil : cs = [] := length_eq_zero_iff.mp (by omega)
        subst hnil
        exact (deleteFront_spec h).mono (fun _ => trivial) fun _ hx => hx
      · have hdel : l.del k = some (l, none) := by
          rw [del, if_neg (by omega), if_neg (by omega), if_pos (by omega)]
        exact Outcome.of_eq hdel h
  · rw [if_neg hneg]
    refine ⟨cs, ⟨fun hok => absurd hok.1 hneg, fun x hx => ?_⟩, rfl⟩
    by_cases hl : i = l.count - 1
    · have hnil : cs = [] := length_eq_zero_iff.mp (by omega)
      subst hnil
      rw [del, if_neg (by omega), if_pos hl] at hx
      exact (deleteLast_spec h).post x hx
    · have hget := h.getNode i
      rw [if_neg (by omega)] at hget
      rw [del, if_neg (by omega), if_neg hl, if_neg (by omega), hget] at hx
      cases hx

theorem call_spec (h : l.Rep cs) (n : Addr) (c : Call) : ∃ cs', Gives (l.call n c) (l.Returns n c) cs' ∧ cs'.map snd = onList (cs.map snd) c := by
  cases c with
  | insert i v => exact call_insert_spec h n i v
  | insertFront v => exact ⟨_, insertFront_spec h n v, rfl⟩
  | insertLast v => exact ⟨_, insertLast_spec h n v, by simp [onList]⟩
  | del i => exact call_del_spec h i
  | deleteFront => exact ⟨_, deleteFront_spec h, map_tail⟩
  | deleteLast => exact ⟨_, deleteLast_spec h, map_dropLast⟩

theorem run_rep {m₀ : Mem (Cell Int)} {h₀ : Addr} {l₀ : DoubleLink} (hnew : create m₀ h₀ = some l₀) {es : List (Call × Ptr)}
    (h : Run exec l₀ es l) : ∃ cs, l.Rep cs ∧ cs.map snd = (es.map fst).foldl onList [] := by
  refine h.refines (R := fun l vs => ∃ cs, l.Rep cs ∧ cs.map snd = vs) ⟨[], create_rep hnew, rfl⟩ ?_
  rintro l a _ _ _ ⟨cs, hrep, rfl⟩ hx
  obtain ⟨⟨l', r⟩, hc, he⟩ := map_eq_some_iff.mp hx
  obtain ⟨rfl, rfl⟩ := Prod.mk.inj he
  obtain ⟨cs', hg, hvs'⟩ := call_spec hrep _ _
  exact ⟨cs', hg.post _ hc, hvs'⟩

end DoubleLink

open DoubleLink

/-- The list is a ring in every reachable state. There are as many nodes as `count_` says, all distinct; following `next_ptr` from the
head node visits them in order and comes back to it, and following `pre_ptr` visits them in reverse and comes back; their values are
those of the abstract list after the same calls; `getNode` returns the `i`-th of them; and the next call returns. -/
theorem doubleLink_represents {m₀ : Mem (Cell Int)} {h₀ : Addr} {l₀ l : DoubleLink} (hcreate : create m₀ h₀ = some l₀)
    {es : List (Call × Ptr)} (h : Run DoubleLink.exec l₀ es l) :
    ∃ ps : List Addr, (ps.length : Int) = l.count ∧ (l.phead :: ps).Nodup ∧
      (∀ i ≤ ps.length + 1, l.mem.follow Cell.next i (some l.phead) = some (l.phead :: ps ++ [l.phead])[i]?) ∧
      (∀ i ≤ ps.length + 1, l.mem.follow Cell.pre i (some l.phead) = some (l.phead :: ps.reverse ++ [l.phead])[i]?) ∧
      ps.map (fun a => l.mem.read (some a) Cell.value) = ((es.map Prod.fst).foldl onList []).map some ∧
      (∀ i < ps.length, l.getNode i = some ps[i]?) ∧
      ∀ n c, l.Returns n c → ∃ l' e, l.exec (c, n) = some (l', e) := by
  obtain ⟨cs, hrep, hvs⟩ := run_rep hcreate h
  have hb := hrep.linked.backward
  rw [reverse_append, reverse_singleton, reverse_cons, singleton_append] at hb
  refine ⟨cs.map fst, by simp [hrep.count], hrep.nodup, fun i hi => ?_, fun i hi => ?_, ?_, fun i hi => ?_, fun n c hr => ?_⟩
  · exact Mem.follow_of_isChain hrep.linked.forward (by simpa using hi)
  · exact Mem.follow_of_isChain hb (by simpa using hi)
  · rw [← hvs, List.map_map, List.map_map]
    exact map_congr_left fun c hc => (l.mem.parts).read_value (hrep.value c hc)
  · rw [length_map] at hi
    rw [hrep.getNode, if_pos (by omega), Int.toNat_natCast]
  · obtain ⟨cs', hg, _⟩ := call_spec hrep n c
    obtain ⟨x, hcall⟩ := hg.returns hr
    exact ⟨x.1, (c, x.2), by rw [exec, hcall]; rfl⟩

/-- Insertions and deletions at both ends and in the middle, with the address of a released node used again. -/
theorem doubleLink_represents_mixed :
    ∃ l₀ l, create (fun _ => none) 0 = some l₀ ∧
      Run DoubleLink.exec l₀ [(.insert 0 10, some 1), (.insertLast 20, some 2), (.insert 1 30, some 3), (.deleteFront, some 3),
        (.insertFront 40, some 1), (.del 1, some 1)] l ∧
      l.getNode 1 = some (some 2) ∧
      ∃ ps : List Addr, ps.map (fun a => l.mem.read (some a) Cell.value) = [some 40, some 20] ∧ (l.phead :: ps).Nodup := by
  obtain ⟨l₀, hcreate⟩ : ∃ l₀, create (fun _ => none) 0 = some l₀ := ⟨_, rfl⟩
  obtain ⟨l, hrun, hget⟩ : ∃ l, Run DoubleLink.exec l₀ [(.insert 0 10, some 1), (.insertLast 20, some 2), (.insert 1 30, some 3),
      (.deleteFront, some 3), (.insertFront 40, some 1), (.del 1, some 1)] l ∧ l.getNode 1 = some (some 2) :=
    exists_run_of_view DoubleLink.exec (fun l => l.getNode 1) l₀
      [(.insert 0 10, 1), (.insertLast 20, 2), (.insert 1 30, 3), (.deleteFront, 0), (.insertFront 40, 1), (.del 1, 0)]
      (by cases hcreate; decide)
  obtain ⟨ps, _, hnd, _, _, hvs, _⟩ := doubleLink_represents hcreate hrun
  exact ⟨l₀, l, hcreate, hrun, hget, ps, hvs, hnd⟩

/-! ## Indices out of range -/

namespace DoubleLink

variable {l : DoubleLink} {cs : List (Addr × Int)}

/-- What should become of an index out of range: `del`, and `insert` if the index is not 0, return a null pointer, follow none and change
nothing. -/
def Rejects (l : DoubleLink) (index : Int) : Prop :=
  l.del index = some (l, none) ∧ (index ≠ 0 → ∀ n v, l.insert n index v = some (l, none))

theorem insert_of_out {i : Int} (h : l.Rep cs) (hout : ¬(0 ≤ i ∧ i < l.count)) (hi : i ≠ 0) (n : Addr) (v : Int) :
    l.insert n i v = some (l, none) := by
  have hget := h.getNode i
  rw [← h.count, if_neg hout] at hget
  simp [DoubleLink.insert, hi, hget]

theorem del_of_ge {i : Int} (h : l.Rep cs) (hi : l.count ≤ i ∨ (i = -1 ∧ l.count = 0)) : l.del i = some (l, none) := by
  have hcnt := h.count
  unfold del
  by_cases h0 : i = 0
  · rw [if_pos h0, deleteFront, if_pos (by omega)]
  · rw [if_neg h0]
    by_cases hl : i = l.count - 1
    · rw [if_pos hl, deleteLast, if_pos (by omega)]
    · rw [if_neg hl, if_pos (by omega)]

/-- `del` before the beginning goes through the null pointer that `getNode` returns. -/
theorem del_of_neg {i : Int} (h : l.Rep cs) (hi : i < 0) (hne : ¬(i = -1 ∧ l.count = 0)) : l.del i = none := by
  have hcnt := h.count
  have hget := h.getNode i
  rw [if_neg (by omega)] at hget
  unfold del
  rw [if_neg (by omega), if_neg (by omega), if_neg (by omega), hget]
  rfl

end DoubleLink

/-- In every reachable list, an index out of range is rejected exactly when it is behind the end, or -1 on the empty list: no other negative
index is caught before `del` goes through the null pointer of `getNode`. -/
theorem doubleLink_rejects_iff {m₀ : Mem (Cell Int)} {h₀ : Addr} {l₀ l : DoubleLink} (hcreate : create m₀ h₀ = some l₀)
    {es : List (Call × Ptr)} (h : Run DoubleLink.exec l₀ es l) {index : Int} (hout : ¬(0 ≤ index ∧ index < l.count)) :
    l.Rejects index ↔ l.count ≤ index ∨ (index = -1 ∧ l.count = 0) := by
  obtain ⟨cs, hrep, -⟩ := run_rep hcreate h
  constructor
  · rintro ⟨hdel, -⟩
    by_contra hcaught
    rw [del_of_neg hrep (by omega) (fun hempty => hcaught (Or.inr hempty))] at hdel
    cases hdel
  · intro hcaught
    exact ⟨del_of_ge hrep hcaught, insert_of_out hrep hout⟩

/-- The index behind the only node. -/
theorem doubleLink_rejects_one :
    ∃ l₀ l, create (fun _ => none) 0 = some l₀ ∧ Run DoubleLink.exec l₀ [(.insertFront 5, some 1)] l ∧ l.count = 1 ∧ l.Rejects 1 := by
  obtain ⟨l₀, hcreate⟩ : ∃ l₀, create (fun _ => none) 0 = some l₀ := ⟨_, rfl⟩
  have hrun : ∃ l, Run DoubleLink.exec l₀ [(.insertFront 5, some 1)] l ∧ l.count = 1 :=
    exists_run_of_view DoubleLink.exec DoubleLink.count l₀ [(.insertFront 5, 1)] (by cases hcreate; decide)
  obtain ⟨l, h, hcount⟩ := hrun
  exact ⟨l₀, l, hcreate, h, hcount, (doubleLink_rejects_iff hcreate h (by omega)).mpr (Or.inl (by omega))⟩

/-- With one node in the list, `del(-1)` goes through a null pointer. -/
theorem doubleLink_del_negative : ∃ l₀ l, create (fun _ => none) 0 = some l₀ ∧
    Run DoubleLink.exec l₀ [(.insertFront 5, some 1)] l ∧ ¬(0 ≤ (-1 : Int) ∧ -1 < l.count) ∧ l.del (-1) = none ∧ ¬l.Rejects (-1) := by
  obtain ⟨l₀, hcreate⟩ : ∃ l₀, create (fun _ => none) 0 = some l₀ := ⟨_, rfl⟩
  have hrun : ∃ l, Run DoubleLink.exec l₀ [(.insertFront 5, some 1)] l ∧ l.count = 1 :=
    exists_run_of_view DoubleLink.exec DoubleLink.count l₀ [(.insertFront 5, 1)] (by cases hcreate; decide)
  obtain ⟨l, h, hcount⟩ := hrun
  obtain ⟨cs, hrep, -⟩ := run_rep hcreate h
  have hdel : l.del (-1) = none := del_of_neg hrep (by omega) (by omega)
  refine ⟨l₀, l, hcreate, h, by omega, hdel, ?_⟩
  rintro ⟨hrejected, -⟩
  rw [hdel] at hrejected
  cases hrejected

end CsLearning.DsAlgo
