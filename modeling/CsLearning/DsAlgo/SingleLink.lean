import CsLearning.Lib.Memory
import CsLearning.Lib.Word

/-!
# The singly linked list

`SingleLink` of `DS&Algo/src/single_linked_list`. `getNode` returns the predecessor of a position and admits the position after the last
node. This is right for an insertion, but the deletions use it too: a deletion with an index that is not that of a node, on a list that
is not empty, dereferences a null pointer, and so does every `delete_last`.

The address of a new node is given by the caller of the model, so that a run may use any free address. A call that reads or writes
through a null or dangling pointer has no outcome, nor has one that overflows `count_`.
-/

open List Function Prod

namespace CsLearning.DsAlgo

/-- A node. -/
structure SingleLink.Node (V : Type) where
  value : V
  next : Ptr
  deriving DecidableEq, Repr

/-- The list: the memory it lives in, the number of nodes and the head node. -/
structure SingleLink (V : Type) where
  mem : Mem (SingleLink.Node V)
  count : Int
  phead : Addr

namespace SingleLink

variable {V : Type}

/-- The constructor; `phead` is the address of the new head node. -/
def create [Inhabited V] (m : Mem (Node V)) (phead : Addr) : Option (SingleLink V) := do
  let m ← m.new phead ⟨default, none⟩
  return ⟨m, 0, phead⟩

/-- `isEmpty`. -/
def isEmpty (l : SingleLink V) : Bool := l.count = 0

/-- `getNode`: the node before the position `index`. -/
def getNode (l : SingleLink V) (index : Int) : Option Ptr :=
  if index > l.count ∨ index < 0 then some none else l.mem.follow Node.next index.toNat (some l.phead)

/-- `insert`. -/
def insert (l : SingleLink V) (newNode : Addr) (index : Int) (t : V) : Option (SingleLink V × Ptr) := do
  let preNode ← l.getNode index
  if preNode = none then return (l, none)
  else
    let next ← l.mem.read preNode Node.next
    let m ← l.mem.new newNode ⟨t, next⟩
    let m ← m.write preNode fun c => { c with next := some newNode }
    let count ← Word.incr l.count
    return (⟨m, count, l.phead⟩, some newNode)

/-- `insert_head`. -/
def insertHead (l : SingleLink V) (newNode : Addr) (t : V) : Option (SingleLink V × Ptr) := l.insert newNode 0 t

/-- `insert_last`. -/
def insertLast (l : SingleLink V) (newNode : Addr) (t : V) : Option (SingleLink V × Ptr) := l.insert newNode l.count t

/-- `del`. -/
def del (l : SingleLink V) (index : Int) : Option (SingleLink V × Ptr) :=
  if l.isEmpty then some (l, none)
  else do
    let ptrNode ← l.getNode index
    let delNode ← l.mem.read ptrNode Node.next
    let next ← l.mem.read delNode Node.next
    let m ← l.mem.write ptrNode fun c => { c with next := next }
    let m ← m.delete delNode
    let next ← m.read ptrNode Node.next
    return (⟨m, l.count - 1, l.phead⟩, next)

/-- `delete_head`. -/
def deleteHead (l : SingleLink V) : Option (SingleLink V × Ptr) := l.del 0

/-- `delete_last`. -/
def deleteLast (l : SingleLink V) : Option (SingleLink V × Ptr) := l.del l.count

/-! ## The representation -/

/-- The nodes `cs`, each given by its address and its value, lead from the pointer `p` to the pointer `q`. -/
def Segment (m : Mem (Node V)) : Ptr → List (Addr × V) → Ptr → Prop
  | p, [], q => p = q
  | p, c :: cs, q => p = some c.1 ∧ ∃ r, m c.1 = some ⟨c.2, r⟩ ∧ Segment m r cs q

variable {m m' : Mem (Node V)} {p q : Ptr} {a b cs : List (Addr × V)} {c : Addr × V} {l : SingleLink V} {n : Addr} {v : V}

theorem segment_append : Segment m p (a ++ b) q ↔ ∃ r, Segment m p a r ∧ Segment m r b q := by
  induction a generalizing p with
  | nil => simp [Segment]
  | cons c a ih =>
    simp only [cons_append, Segment, ih]
    constructor
    · rintro ⟨hp, r, hc, r', ha, hb⟩
      exact ⟨r', ⟨hp, r, hc, ha⟩, hb⟩
    · rintro ⟨r', ⟨hp, r, hc, ha⟩, hb⟩
      exact ⟨hp, r, hc, r', ha, hb⟩

theorem Segment.congr (h : Segment m p cs q) (hm : ∀ c ∈ cs, m' c.1 = m c.1) : Segment m' p cs q := by
  induction cs generalizing p with
  | nil => exact h
  | cons c cs ih =>
    obtain ⟨hp, r, hc, hr⟩ := h
    exact ⟨hp, r, (hm c (by simp)).trans hc, ih hr fun d hd => hm d (by simp [hd])⟩

theorem Segment.follow (h : Segment m p cs q) : m.follow Node.next cs.length p = some q := by
  induction cs generalizing p with
  | nil =>
    rw [h]
    rfl
  | cons c cs ih =>
    obtain ⟨rfl, r, hc, hr⟩ := h
    rw [length_cons, Mem.follow, Mem.read, Option.bind_some, hc]
    exact ih hr

theorem Segment.exists_node (h : Segment m p cs q) (hc : c ∈ cs) : ∃ r, m c.1 = some ⟨c.2, r⟩ := by
  obtain ⟨a, b, rfl⟩ := append_of_mem hc
  obtain ⟨_, _, _, r, hr, _⟩ := segment_append.mp h
  exact ⟨r, hr⟩

/-- The nodes of the list are `cs`, after the head node. -/
structure Rep (l : SingleLink V) (cs : List (Addr × V)) : Prop where
  nodup : (l.phead :: cs.map Prod.fst).Nodup
  segment : ∃ v₀, Segment l.mem (some l.phead) ((l.phead, v₀) :: cs) none
  count : l.count = cs.length

theorem create_rep [Inhabited V] {m₀ : Mem (Node V)} {h : Addr} (hx : create m₀ h = some l) : l.Rep [] := by
  by_cases hn : m₀ h = none
  · obtain rfl : l = ⟨update m₀ h (some ⟨default, none⟩), 0, h⟩ := by
      simpa [create, Mem.new_of_free hn, eq_comm] using hx
    exact ⟨by simp, ⟨default, rfl, none, by simp, rfl⟩, rfl⟩
  · simp [create, Mem.new_eq_none hn] at hx

/-- The node before a position, with what follows it. -/
structure At (l : SingleLink V) (v₀ : V) (cs a : List (Addr × V)) (c : Addr × V) (b : List (Addr × V)) (r : Ptr) : Prop where
  eq : (l.phead, v₀) :: cs = a ++ c :: b
  nodup : ((a ++ c :: b).map Prod.fst).Nodup
  before : Segment l.mem (some l.phead) a (some c.1)
  node : l.mem c.1 = some ⟨c.2, r⟩
  after : Segment l.mem r b none

/-- Every position from the first to the one after the last node has a node before it, and `getNode` returns it. -/
theorem Rep.at (h : l.Rep cs) {i : Nat} (hi : i ≤ cs.length) : ∃ v₀ a c b r, At l v₀ cs a c b r ∧ a.length = i ∧ l.getNode i = some (some c.1) := by
  obtain ⟨v₀, hs⟩ := h.segment
  obtain ⟨a, c, b, he, hlen⟩ := exists_split_at (l := (l.phead, v₀) :: cs) (i := i) (by simpa using Nat.lt_succ_of_le hi)
  have hnd : (((l.phead, v₀) :: cs).map fst).Nodup := h.nodup
  rw [he] at hs hnd
  obtain ⟨r', ha, rfl, r, hc, hb⟩ := segment_append.mp hs
  refine ⟨v₀, a, c, b, r, ⟨he, hnd, ha, hc, hb⟩, hlen, ?_⟩
  have hcnt := h.count
  rw [getNode, if_neg (by omega), Int.toNat_natCast, ← hlen, ha.follow]

theorem Rep.getNode_eq_null (h : l.Rep cs) {i : Int} (hi : ¬(0 ≤ i ∧ i ≤ cs.length)) : l.getNode i = some none := by
  have hcnt := h.count
  rw [getNode, if_pos (by omega)]

/-! ## The calls -/

/-- Nodes that are not `x` keep what they hold when `x` is assigned. -/
theorem Segment.update {x : Addr} {o : Option (Node V)} (h : Segment m p cs q) (hx : x ∉ cs.map fst) : Segment (Function.update m x o) p cs q := by
  refine h.congr fun c hc => update_of_ne ?_ _ _
  rintro rfl
  exact hx (mem_map_of_mem hc)

theorem Rep.not_mem_of_free (h : l.Rep cs) (hn : l.mem n = none) : n ∉ l.phead :: cs.map fst := by
  obtain ⟨v₀, hs⟩ := h.segment
  intro hmem
  obtain ⟨c, hc, rfl⟩ := mem_map.mp (show n ∈ ((l.phead, v₀) :: cs).map fst from hmem)
  obtain ⟨r, hr⟩ := hs.exists_node hc
  rw [hn] at hr
  cases hr

/-- A call that, when it returns, leaves the list `cs`; it returns when `ok` holds. -/
abbrev Gives (r : Option (SingleLink V × Ptr)) (ok : Prop) (cs : List (Addr × V)) : Prop := Outcome r ok fun x => x.1.Rep cs

theorem At.ne {v₀ : V} {r : Ptr} (h : At l v₀ cs a c b r) : c.1 ∉ a.map fst ∧ c.1 ∉ b.map fst := by
  have hnd := h.nodup
  rw [map_append, map_cons, nodup_middle, nodup_cons, mem_append, not_or] at hnd
  exact hnd.1

theorem insert_spec (h : l.Rep cs) (n : Addr) (v : V) {i : Nat} (hi : i ≤ cs.length) :
    Gives (l.insert n i v) (l.mem n = none ∧ l.count + 1 < 2 ^ 31) (cs.insertIdx i (n, v)) := by
  obtain ⟨v₀, a, c, b, r, hat, rfl, hget⟩ := h.at hi
  by_cases hn : l.mem n = none
  · have hfresh := h.not_mem_of_free hn
    have hne : n ∉ (a ++ c :: b).map fst := by
      rw [← hat.eq]
      exact hfresh
    simp only [map_append, map_cons, mem_append, mem_cons, not_or] at hne
    obtain ⟨hna, hnc, hnb⟩ := hne
    have hr : l.mem.read (some c.1) Node.next = some r := by simp [Mem.read, hat.node]
    have hc₁ : update l.mem n (some ⟨v, r⟩) c.1 = some ⟨c.2, r⟩ := by rw [update_of_ne (Ne.symm hnc), hat.node]
    have hins : l.insert n a.length v = (Word.incr l.count).bind fun count =>
        some (⟨update (update l.mem n (some ⟨v, r⟩)) c.1 (some ⟨c.2, some n⟩), count, l.phead⟩, some n) := by
      simp [SingleLink.insert, hget, hr, Mem.new_of_free hn, Mem.write_of_some hc₁]
    have hcs : (l.phead, v₀) :: cs.insertIdx a.length (n, v) = a ++ c :: (n, v) :: b := by
      have hidx := insertIdx_length_append (a ++ [c]) b (n, v)
      rw [append_assoc, singleton_append, ← hat.eq, length_append, length_singleton] at hidx
      simpa using hidx
    rw [hins]
    refine ((Word.incr_outcome l.count).bind fun count hcnt => ?_).mono And.right fun _ hx => hx
    refine Outcome.of_eq rfl ⟨?_, ⟨v₀, ?_⟩, ?_⟩
    · refine (((perm_insertIdx (n, v) cs hi).map fst).cons l.phead).nodup_iff.mpr ?_
      exact (Perm.swap n l.phead _).nodup_iff.mpr (nodup_cons.mpr ⟨hfresh, h.nodup⟩)
    · rw [hcs]
      refine segment_append.mpr ⟨some c.1, (hat.before.update hna).update hat.ne.1, rfl, some n, by simp, rfl, r, by simp [hnc], ?_⟩
      exact (hat.after.update hnb).update hat.ne.2
    · have hcnt := h.count
      rw [length_insertIdx_of_le_length hi]
      push_cast
      omega
  · refine Outcome.of_none ?_ fun hok => hn hok.1
    simp [SingleLink.insert, hget, Mem.new_eq_none hn]

/-- `insert` at any other index returns null and changes nothing. -/
theorem insert_eq_null (h : l.Rep cs) (n : Addr) (v : V) {i : Int} (hi : ¬(0 ≤ i ∧ i ≤ l.count)) : l.insert n i v = some (l, none) := by
  rw [h.count] at hi
  simp [SingleLink.insert, h.getNode_eq_null hi]

theorem del_spec (h : l.Rep cs) {i : Nat} (hi : i < cs.length) : Gives (l.del i) True (cs.eraseIdx i) := by
  obtain ⟨v₀, a, c, b, r, hat, rfl, hget⟩ := h.at hi.le
  cases b with
  | nil =>
    have hlen := congrArg List.length hat.eq
    simp only [length_cons, length_append, length_nil] at hlen
    omega
  | cons d b =>
    obtain ⟨rfl, r, hd, hb⟩ := hat.after
    obtain ⟨hca, hcb⟩ := hat.ne
    rw [map_cons, mem_cons, not_or] at hcb
    have hdrest : d.1 ∉ a.map fst ∧ d.1 ∉ b.map fst := by
      have hnd := hat.nodup
      rw [map_append, map_cons, map_cons, nodup_append, nodup_cons, nodup_cons] at hnd
      exact ⟨fun hm => hnd.2.2 d.1 hm d.1 (by simp) rfl, hnd.2.1.2.1⟩
    have hcnt := h.count
    have hdel : l.del a.length = some (⟨update (update l.mem c.1 (some ⟨c.2, r⟩)) d.1 none, l.count - 1, l.phead⟩, r) := by
      have hd₁ : update l.mem c.1 (some ⟨c.2, r⟩) d.1 = some ⟨d.2, r⟩ := by rw [update_of_ne (Ne.symm hcb.1), hd]
      have hne : l.count ≠ 0 := by omega
      simp [del, isEmpty, hne, hget, Mem.read, hat.node, hd, Mem.write_of_some hat.node, Mem.delete_of_some hd₁, hcb.1]
    have hcs : (l.phead, v₀) :: cs.eraseIdx a.length = a ++ c :: b := by
      have hidx := eraseIdx_length_append (a ++ [c]) b d
      rw [append_assoc, singleton_append, ← hat.eq, length_append, length_singleton] at hidx
      simpa using hidx
    refine Outcome.of_eq hdel ⟨?_, ⟨v₀, ?_⟩, ?_⟩
    · exact h.nodup.sublist (((eraseIdx_sublist cs _).map fst).cons_cons l.phead)
    · rw [hcs]
      refine segment_append.mpr ⟨some c.1, (hat.before.update hca).update hdrest.1, rfl, r, by simp [hcb.1], ?_⟩
      exact (hb.update hcb.2).update hdrest.2
    · simp only [hcnt]
      rw [length_eraseIdx_of_lt hi]
      omega

/-- `del` on an empty list returns null and changes nothing. -/
theorem del_eq_null (hl : l.count = 0) (i : Int) : l.del i = some (l, none) := by simp [del, isEmpty, hl]

/-- `del` on a list that is not empty, with an index that is not that of a node, dereferences a null pointer. -/
theorem del_eq_none (h : l.Rep cs) (hl : l.count ≠ 0) {i : Int} (hi : ¬(0 ≤ i ∧ i < l.count)) : l.del i = none := by
  have hcnt := h.count
  by_cases hlast : i = l.count
  · -- The node before the position is the last one, whose `next_` is null.
    obtain ⟨v₀, a, c, b, r, hat, hlen, hget⟩ := h.at (Nat.le_refl cs.length)
    obtain rfl : b = [] := by
      have hlen' := congrArg List.length hat.eq
      simp only [length_cons, length_append] at hlen'
      exact length_eq_zero_iff.mp (by omega)
    obtain rfl : r = none := hat.after
    rw [hlast, hcnt]
    simp [del, isEmpty, hl, hget, Mem.read, hat.node]
  · have hget : l.getNode i = some none := h.getNode_eq_null (by omega)
    simp [del, isEmpty, hl, hget, Mem.read]

/-! ## Runs -/

/-- A call on the list. -/
inductive Call (V : Type) where
  | insert (index : Int) (t : V)
  | insertHead (t : V)
  | insertLast (t : V)
  | del (index : Int)
  | deleteHead
  | deleteLast
  deriving DecidableEq, Repr

/-- The call; `n` is the address that `new` gives, when the call makes a node. -/
def call (l : SingleLink V) (n : Addr) : Call V → Option (SingleLink V × Ptr)
  | .insert index t => l.insert n index t
  | .insertHead t => l.insertHead n t
  | .insertLast t => l.insertLast n t
  | .del index => l.del index
  | .deleteHead => l.deleteHead
  | .deleteLast => l.deleteLast

/-- One call, with the pointer that it returns. -/
def exec (l : SingleLink V) (x : Call V × Addr) : Option (SingleLink V × Call V × Ptr) := (l.call x.2 x.1).map fun r => (r.1, x.1, r.2)

/-- The same call on a list of values. -/
def onList (vs : List V) : Call V → List V
  | .insert index t => if 0 ≤ index ∧ index ≤ vs.length then vs.insertIdx index.toNat t else vs
  | .insertHead t => t :: vs
  | .insertLast t => vs ++ [t]
  | .del index => if 0 ≤ index ∧ index < vs.length then vs.eraseIdx index.toNat else vs
  | .deleteHead => vs.tail
  | .deleteLast => vs.dropLast

/-- The index of the call is not one of the list: there is nothing to insert or to delete. -/
def OutOfRange (count : Int) : Call V → Prop
  | .insert index _ => ¬(0 ≤ index ∧ index ≤ count)
  | .insertHead _ | .insertLast _ => False
  | .del index => ¬(0 ≤ index ∧ index < count)
  | .deleteHead | .deleteLast => count = 0

/-- On a list that is not empty, `del` is called with the index of a node only, and `delete_last` is not called. -/
def Sound (l : SingleLink V) : Call V → Prop
  | .del index => l.count = 0 ∨ 0 ≤ index ∧ index < l.count
  | .deleteLast => l.count = 0
  | _ => True

instance (l : SingleLink V) : (c : Call V) → Decidable (l.Sound c)
  | .del index => inferInstanceAs (Decidable (l.count = 0 ∨ 0 ≤ index ∧ index < l.count))
  | .deleteLast => inferInstanceAs (Decidable (l.count = 0))
  | .insert _ _ | .insertHead _ | .insertLast _ | .deleteHead => .isTrue trivial

/-- A call that makes a node has a free address for it, and `count_` does not overflow. -/
def CanInsert (l : SingleLink V) (n : Addr) : Call V → Prop
  | .insert index _ => 0 ≤ index ∧ index ≤ l.count → l.mem n = none ∧ l.count + 1 < 2 ^ 31
  | .insertHead _ | .insertLast _ => l.mem n = none ∧ l.count + 1 < 2 ^ 31
  | _ => True

theorem call_insert_spec (h : l.Rep cs) (n : Addr) (i : Int) (v : V) :
    ∃ cs', Gives (l.insert n i v) (l.CanInsert n (.insert i v)) cs' ∧ cs'.map snd = onList (cs.map snd) (.insert i v) := by
  have hcnt := h.count
  by_cases hi : 0 ≤ i ∧ i ≤ l.count
  · obtain ⟨k, rfl⟩ := Int.eq_ofNat_of_zero_le hi.1
    refine ⟨_, (insert_spec h n v (i := k) (by omega)).mono (fun hok => hok hi) fun _ hx => hx, ?_⟩
    rw [map_insertIdx, onList, length_map, if_pos (by omega), Int.toNat_natCast]
  · refine ⟨cs, Outcome.of_eq (insert_eq_null h n v hi) h, ?_⟩
    rw [onList, length_map, if_neg (by omega)]

theorem call_del_spec (h : l.Rep cs) (i : Int) : ∃ cs', Gives (l.del i) (l.Sound (.del i)) cs' ∧ cs'.map snd = onList (cs.map snd) (.del i) := by
  have hcnt := h.count
  by_cases hi : 0 ≤ i ∧ i < l.count
  · obtain ⟨k, rfl⟩ := Int.eq_ofNat_of_zero_le hi.1
    refine ⟨_, (del_spec h (i := k) (by omega)).mono (fun _ => trivial) fun _ hx => hx, ?_⟩
    rw [← eraseIdx_map, onList, length_map, if_pos (by omega), Int.toNat_natCast]
  · refine ⟨cs, ?_, by rw [onList, length_map, if_neg (by omega)]⟩
    by_cases hl : l.count = 0
    · exact Outcome.of_eq (del_eq_null hl i) h
    · exact Outcome.of_none (del_eq_none h hl hi) fun hok => hok.elim hl hi

/-- Every call that returns does to the values what it does to the list of values; which calls return. -/
theorem call_spec (h : l.Rep cs) (n : Addr) (c : Call V) :
    ∃ cs', Gives (l.call n c) (l.Sound c ∧ l.CanInsert n c) cs' ∧ cs'.map snd = onList (cs.map snd) c := by
  have hcnt := h.count
  cases c with
  | insert i v =>
    obtain ⟨cs', hg, hv⟩ := call_insert_spec h n i v
    exact ⟨cs', hg.mono And.right fun _ hx => hx, hv⟩
  | insertHead v => exact ⟨_, (insert_spec h n v (Nat.zero_le _)).mono And.right fun _ hx => hx, rfl⟩
  | insertLast v =>
    refine ⟨cs.insertIdx cs.length (n, v), ?_, ?_⟩
    · rw [call, insertLast, hcnt]
      exact (insert_spec h n v (Nat.le_refl _)).mono And.right fun _ hx => hx
    · have hidx := insertIdx_length_append cs [] (n, v)
      rw [append_nil] at hidx
      rw [hidx, map_append]
      rfl
  | del i =>
    obtain ⟨cs', hg, hv⟩ := call_del_spec h i
    exact ⟨cs', hg.mono And.left fun _ hx => hx, hv⟩
  | deleteHead =>
    obtain ⟨cs', hg, hv⟩ := call_del_spec h 0
    refine ⟨cs', hg.mono (fun _ => ?_) fun _ hx => hx, ?_⟩
    · unfold Sound
      omega
    · rw [hv]
      cases cs <;> simp [onList]
  | deleteLast =>
    by_cases hl : l.count = 0
    · obtain rfl : cs = [] := length_eq_zero_iff.mp (by omega)
      exact ⟨[], Outcome.of_eq (del_eq_null hl _) h, rfl⟩
    · refine ⟨cs.dropLast, Outcome.of_none (del_eq_none h hl (by omega)) fun hok => hl hok.1, map_dropLast⟩

/-- A call with nothing to insert or to delete returns null and changes nothing. -/
theorem call_outOfRange (h : l.Rep cs) (n : Addr) {c : Call V} (hs : l.Sound c) (hc : OutOfRange l.count c) : l.call n c = some (l, none) := by
  cases c with
  | insert i v => exact insert_eq_null h n v hc
  | insertHead v => exact hc.elim
  | insertLast v => exact hc.elim
  | del i => exact del_eq_null (hs.resolve_right hc) i
  | deleteHead => exact del_eq_null hc 0
  | deleteLast => exact del_eq_null hc _

theorem run_rep [Inhabited V] {m₀ : Mem (Node V)} {h₀ : Addr} {l₀ : SingleLink V} (hnew : create m₀ h₀ = some l₀)
    {ok : SingleLink V → Call V × Addr → Prop} {es : List (Call V × Ptr)} (h : RunIf exec ok l₀ es l) :
    ∃ cs, l.Rep cs ∧ cs.map snd = (es.map fst).foldl onList [] := by
  refine h.refines (R := fun l vs => ∃ cs, l.Rep cs ∧ cs.map snd = vs) ⟨[], create_rep hnew, rfl⟩ ?_
  rintro l a _ _ _ ⟨cs, hrep, rfl⟩ hx
  obtain ⟨⟨l', r⟩, hc, he⟩ := Option.map_eq_some_iff.mp hx
  obtain ⟨rfl, rfl⟩ := Prod.mk.inj he
  obtain ⟨cs', hg, hvs'⟩ := call_spec hrep _ _
  exact ⟨cs', hg.post _ hc, hvs'⟩

theorem Rep.follow (h : l.Rep cs) : (∀ i ≤ cs.length, l.mem.follow Node.next i (some l.phead) = some (l.phead :: cs.map fst)[i]?) ∧
      l.mem.follow Node.next (cs.length + 1) (some l.phead) = some none := by
  constructor
  · intro i hi
    obtain ⟨v₀, a, c, b, r, hat, rfl, hget⟩ := h.at hi
    have hc := congrArg (fun l => (l.map fst)[a.length]?) hat.eq
    simp only [map_cons, map_append] at hc
    rw [hat.before.follow, hc, getElem?_append_right (by simp)]
    simp
  · obtain ⟨v₀, hs⟩ := h.segment
    exact hs.follow

end SingleLink

open SingleLink

/-- The list under the calls it is right for. When every deletion on a list that is not empty is a `del` of one of its nodes or a
`delete_head`: in every state reached there are as many nodes after the head node as `count_` says, all distinct and the last one with a
null `next_`; their values are those of the abstract list after the same calls; and the next such call returns, with null and no change
when its index is not one of the list. -/
theorem singleLink_refines {V : Type} [Inhabited V] {m₀ : Mem (SingleLink.Node V)} {h₀ : Addr} {l₀ l : SingleLink V}
    (hcreate : create m₀ h₀ = some l₀) {es : List (Call V × Ptr)}
    (h : RunIf SingleLink.exec (fun l x => l.Sound x.1) l₀ es l) :
    ∃ ps : List Addr, (ps.length : Int) = l.count ∧ (l.phead :: ps).Nodup ∧
      (∀ i ≤ ps.length, l.mem.follow Node.next i (some l.phead) = some (l.phead :: ps)[i]?) ∧
      l.mem.follow Node.next (ps.length + 1) (some l.phead) = some none ∧
      ps.map (fun a => l.mem.read (some a) Node.value) = ((es.map Prod.fst).foldl onList []).map some ∧
      ∀ n c, l.Sound c → l.CanInsert n c →
        (∃ l' r, l.exec (c, n) = some (l', c, r)) ∧ (OutOfRange l.count c → l.exec (c, n) = some (l, c, none)) := by
  obtain ⟨cs, hrep, hvs⟩ := run_rep hcreate h
  have hfollow := hrep.follow
  refine ⟨cs.map fst, by simp [hrep.count], hrep.nodup, by simpa using hfollow.1, by simpa using hfollow.2, ?_,
    fun n c hs hc => ⟨?_, fun ho => ?_⟩⟩
  · rw [← hvs, List.map_map, List.map_map]
    refine map_congr_left fun c hc => ?_
    obtain ⟨v₀, hseg⟩ := hrep.segment
    obtain ⟨r, hr⟩ := hseg.exists_node (mem_cons_of_mem _ hc)
    simp [Mem.read, hr]
  · obtain ⟨cs', hg, _⟩ := call_spec hrep n c
    obtain ⟨x, hx⟩ := hg.returns ⟨hs, hc⟩
    exact ⟨x.1, x.2, by rw [exec, hx]; rfl⟩
  · rw [exec, call_outOfRange hrep n hs ho]
    rfl

/-- Insertions at three positions, deletions of nodes, and an insertion whose index is too large. -/
theorem singleLink_refines_mixed :
    ∃ l₀ l, create (fun _ => none) 0 = some l₀ ∧
      RunIf SingleLink.exec (fun l x => l.Sound x.1) l₀ [(.insert 0 (10 : Int), some 1), (.insertLast 20, some 2), (.insert 1 30, some 3),
        (.del 2, none), (.insert 5 40, none), (.deleteHead, some 3)] l ∧
      ∃ ps : List Addr, (ps.length : Int) = l.count ∧ ps.map (fun a => l.mem.read (some a) Node.value) = [some 30] := by
  obtain ⟨l₀, hcreate⟩ : ∃ l₀ : SingleLink Int, create (fun _ => none) 0 = some l₀ := ⟨_, rfl⟩
  obtain ⟨l, hrun⟩ : ∃ l, Run (guarded SingleLink.exec fun l x => l.Sound x.1) l₀ [(.insert 0 10, some 1), (.insertLast 20, some 2),
      (.insert 1 30, some 3), (.del 2, none), (.insert 5 40, none), (.deleteHead, some 3)] l :=
    exists_run_of_events (guarded SingleLink.exec fun l x => l.Sound x.1) l₀
      [(.insert 0 10, 1), (.insertLast 20, 2), (.insert 1 30, 3), (.del 2, 0), (.insert 5 40, 0), (.deleteHead, 0)]
      (by cases hcreate; decide)
  have hrun' := runIf_of_guarded hrun
  obtain ⟨ps, hcount, _, _, _, hvs, _⟩ := singleLink_refines hcreate hrun'
  exact ⟨l₀, l, hcreate, hrun', ps, hcount, hvs⟩

/-- Without the condition a call may dereference a null pointer: `delete_last` on a list with one node. -/
theorem singleLink_refines_false : ¬∀ (l₀ l : SingleLink Int) es, create (fun _ => none) 0 = some l₀ → Run SingleLink.exec l₀ es l →
    ∀ n c, l.CanInsert n c → ∃ l' r, l.exec (c, n) = some (l', c, r) := by
  intro hall
  obtain ⟨l₀, hcreate⟩ : ∃ l₀ : SingleLink Int, create (fun _ => none) 0 = some l₀ := ⟨_, rfl⟩
  obtain ⟨l, hrun, hnone⟩ : ∃ l, Run SingleLink.exec l₀ [(.insert 0 7, some 1)] l ∧ (l.exec (.deleteLast, 0)).isNone = true :=
    exists_run_of_view SingleLink.exec (fun l => (l.exec (.deleteLast, 0)).isNone) l₀ [(.insert 0 7, 1)] (by cases hcreate; decide)
  obtain ⟨l', r, hx⟩ := hall l₀ l _ hcreate hrun 0 .deleteLast trivial
  rw [hx] at hnone
  cases hnone

end CsLearning.DsAlgo
