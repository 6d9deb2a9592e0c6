import CsLearning.Lib.Links
import CsLearning.Lib.Run

/-!
# The two LRU caches

`LRUCache.h` keeps a `std::list` of pairs and a map from the keys to its iterators; `LRUCache.py` keeps doubly linked nodes between two
sentinels and a dict from the keys to the nodes. Both are compared with a list of pairs, the most recently used first, that is cut to the
capacity. In both the nodes have addresses: an iterator is the address of a node, and the address of a new node is given by the caller of
the model. A call that goes through an invalid iterator, through `None`, or to a key that a dict does not have, has no outcome.
-/

open List Option Function Prod

namespace CsLearning.DsAlgo.LRU

open Mem

/-- A call on a cache. -/
inductive Call where
  | get (key : Int)
  | put (key value : Int)
  deriving DecidableEq, Repr

/-! ## The reference cache -/

/-- The pairs of the other keys. -/
def others (xs : List (Int × Int)) (key : Int) : List (Int × Int) := xs.filter fun x => x.1 ≠ key

/-- A call on the reference cache, with what it returns. -/
def refStep (cap : Int) (xs : List (Int × Int)) : Call → List (Int × Int) × Option Int
  | .get key =>
    match xs.find? fun x => x.1 = key with
    | none => (xs, some (-1))
    | some x => ((key, x.2) :: others xs key, some x.2)
  | .put key value => (((key, value) :: others xs key).take cap.toNat, none)

/-- The calls on the reference cache, from the empty one: the pairs it holds at the end, and the calls with what they returned. -/
def refRun (cap : Int) (cs : List Call) : List (Int × Int) × List (Call × Option Int) :=
  cs.foldl (fun s c => ((refStep cap s.1 c).1, s.2 ++ [(c, (refStep cap s.1 c).2)])) ([], [])

/-! ## The list and map of `LRUCache.h` -/

/-- A map of `int`s to nodes. -/
abbrev Index := AList fun _ : Int => Addr

/-- A `std::list`: the elements with the addresses of their nodes. -/
abbrev StdList (α : Type) := List (Addr × α)

namespace StdList

variable {α : Type}

/-- `*it`. -/
def deref (l : StdList α) (it : Addr) : Option α := (l.find? fun c => c.1 = it).map Prod.snd

/-- `erase`. -/
def erase (l : StdList α) (it : Addr) : Option (StdList α) :=
  if it ∈ l.map Prod.fst then some (l.filter fun c => c.1 ≠ it) else none

/-- `emplace_front`, with the node at the address `n`. -/
def emplaceFront (l : StdList α) (n : Addr) (x : α) : Option (StdList α) := if n ∈ l.map Prod.fst then none else some ((n, x) :: l)

/-- `begin`, of a list that is not empty. -/
def begin (l : StdList α) : Option Addr := l.head?.map Prod.fst

/-- `back`. -/
def back (l : StdList α) : Option α := l.getLast?.map Prod.snd

/-- `pop_back`. -/
def popBack (l : StdList α) : Option (StdList α) := if l = [] then none else some l.dropLast

end StdList

/-- The cache of `LRUCache.h`. -/
structure CppCache where
  map : Index
  cache : StdList (Int × Int)
  cap : Int

namespace CppCache

/-- The constructor. -/
def create (capacity : Int) : CppCache := ⟨∅, [], capacity⟩

/-- `put`. In `cap == cache.size()` a negative `cap` becomes larger than any list. -/
def put (s : CppCache) (n : Addr) (key value : Int) : Option CppCache :=
  match s.map.lookup key with
  | some it => do
    let cache ← s.cache.erase it
    let cache ← cache.emplaceFront n (key, value)
    let first ← cache.begin
    return ⟨s.map.insert key first, cache, s.cap⟩
  | none =>
    if s.cap = s.cache.length then do
      let last ← s.cache.back
      let cache ← s.cache.popBack
      let cache ← cache.emplaceFront n (key, value)
      let first ← cache.begin
      return ⟨(s.map.erase last.1).insert key first, cache, s.cap⟩
    else do
      let cache ← s.cache.emplaceFront n (key, value)
      let first ← cache.begin
      return ⟨s.map.insert key first, cache, s.cap⟩

/-- `get`. -/
def get (s : CppCache) (n : Addr) (key : Int) : Option (CppCache × Int) :=
  match s.map.lookup key with
  | none => some (s, -1)
  | some it => do
    let x ← s.cache.deref it
    let s ← s.put n key x.2
    return (s, x.2)

/-- One call; `n` is the address of the node that it makes. -/
def exec (s : CppCache) : Call × Addr → Option (CppCache × Call × Option Int)
  | (.get key, n) => (s.get n key).map fun r => (r.1, .get key, some r.2)
  | (.put key value, n) => (s.put n key value).map fun s' => (s', .put key value, none)

end CppCache

/-! ## The nodes and dict of `LRUCache.py` -/

/-- A `ListNode` holds a key and a value, both `None` in the sentinels, and the links `prev` and `next`. -/
abbrev ListNode := Cell (Option Int × Option Int)

/-- `remove_node_from_list`. -/
def removeNodeFromList (m : Mem ListNode) (node : Ptr) : Option (Mem ListNode) := do
  let prev ← m.read node Cell.pre
  let nxt ← m.read node Cell.next
  let m ← m.setNext prev nxt
  m.setPre nxt prev

/-- `push_node_to_front`. -/
def pushNodeToFront (sentinel : Addr) (m : Mem ListNode) (node : Ptr) : Option (Mem ListNode) := do
  let nxt ← m.read (some sentinel) Cell.next
  let m ← m.setNext (some sentinel) node
  let m ← m.setNext node nxt
  let m ← m.setPre node (some sentinel)
  m.setPre nxt node

/-- `cache.pop(key)`. -/
def pop (cache : Index) : Option Int → Option Index
  | none => none
  | some key => if key ∈ cache then some (cache.erase key) else none

/-- The cache of `LRUCache.py`. -/
structure PyCache where
  mem : Mem ListNode
  cap : Int
  cache : Index
  sentinel : Addr
  tail : Addr

namespace PyCache

/-- `__init__`; the sentinels are made at the addresses `sentinel` and `tail`. -/
def create (m : Mem ListNode) (capacity : Int) (sentinel tail : Addr) : Option PyCache := do
  let m ← m.new sentinel ⟨(none, none), none, none⟩
  let m ← m.new tail ⟨(none, none), none, none⟩
  let m ← m.setNext (some sentinel) (some tail)
  let m ← m.setPre (some tail) (some sentinel)
  return ⟨m, capacity, ∅, sentinel, tail⟩

/-- `get`. -/
def get (s : PyCache) (key : Int) : Option (PyCache × Option Int) :=
  match s.cache.lookup key with
  | some node => do
    let m ← removeNodeFromList s.mem (some node)
    let m ← pushNodeToFront s.sentinel m (some node)
    let x ← m.read (some node) Cell.value
    return ({ s with mem := m }, x.2)
  | none => some (s, some (-1))

/-- The first part of `put`: an old node of the key is removed from the list. -/
def removeOld (s : PyCache) (key : Int) : Option (Mem ListNode) :=
  match s.cache.lookup key with
  | some node => removeNodeFromList s.mem (some node)
  | none => some s.mem

/-- `put`; `n` is the address of the new node. -/
def put (s : PyCache) (n : Addr) (key value : Int) : Option PyCache := do
  let m ← s.removeOld key
  let m ← m.new n ⟨(some key, some value), none, none⟩
  let m ← pushNodeToFront s.sentinel m (some n)
  if ((s.cache.insert key n).keys.length : Int) > s.cap then
    let lastNode ← m.read (some s.tail) Cell.pre
    let m ← removeNodeFromList m lastNode
    let x ← m.read lastNode Cell.value
    let cache ← pop (s.cache.insert key n) x.1
    return { s with mem := m, cache := cache }
  else return { s with mem := m, cache := s.cache.insert key n }

/-- One call; `n` is the address of the node that it makes. -/
def exec (s : PyCache) : Call × Addr → Option (PyCache × Call × Option Int)
  | (.get key, _) => (s.get key).map fun r => (r.1, .get key, r.2)
  | (.put key value, n) => (s.put n key value).map fun s' => (s', .put key value, none)

end PyCache

/-! ## Keys -/

/-- A node of either cache: its address, its key and its value. -/
abbrev Entry := Addr × Int × Int

variable {f : Int → Option Addr} {cs p q : List Entry} {c : Entry} {cap key value : Int} {n : Addr} {xs ys : List (Int × Int)}

/-- The keys of the nodes are all different, and `f` maps each of them to its node, and nothing else. -/
structure Indexes (f : Int → Option Addr) (cs : List Entry) : Prop where
  nodup : (cs.map fun c => c.2.1).Nodup
  find : ∀ k a, f k = some a ↔ ∃ v, (a, k, v) ∈ cs

variable {a : Addr} {es : List (Call × Option Int)}

theorem Indexes.split (h : Indexes f cs) (hk : f key = some a) : ∃ p v q, cs = p ++ (a, key, v) :: q := by
  obtain ⟨v, hv⟩ := (h.find key a).mp hk
  obtain ⟨p, q, rfl⟩ := append_of_mem hv
  exact ⟨p, v, q, rfl⟩

/-- A key that is not mapped has no node. -/
theorem Indexes.not_mem (h : Indexes f cs) (hk : f key = none) : ∀ c ∈ cs, c.2.1 ≠ key := by
  rintro ⟨a, k, v⟩ hc rfl
  have := (h.find k a).mpr ⟨v, hc⟩
  rw [hk] at this
  cases this

/-- The key of a node is that of no other node. -/
theorem Indexes.ne_of_split (h : Indexes f (p ++ c :: q)) : ∀ d ∈ p ++ q, d.2.1 ≠ c.2.1 := by
  have hnd := h.nodup
  rw [map_append, map_cons, nodup_middle, nodup_cons, ← map_append] at hnd
  intro d hd he
  exact hnd.1 (he ▸ mem_map_of_mem hd)

theorem Indexes.erase (h : Indexes f (p ++ c :: q)) : Indexes (update f c.2.1 none) (p ++ q) := by
  have hne := h.ne_of_split
  refine ⟨h.nodup.sublist (((sublist_cons_self c q).append_left p).map _), fun k a => ?_⟩
  by_cases hk : k = c.2.1
  · subst hk
    rw [update_self]
    constructor
    · intro hn
      cases hn
    · rintro ⟨v, hv⟩
      exact (hne (a, c.2.1, v) hv rfl).elim
  · rw [update_of_ne hk, h.find]
    refine exists_congr fun v => ?_
    have hc : (a, k, v) ≠ c := by
      rintro rfl
      exact hk rfl
    simp [hc]

theorem Indexes.insert (h : Indexes f cs) (hk : f c.2.1 = none) : Indexes (update f c.2.1 (some c.1)) (c :: cs) := by
  have hne := h.not_mem hk
  refine ⟨nodup_cons.mpr ⟨?_, h.nodup⟩, fun k a => ?_⟩
  · grind
  · by_cases hkc : k = c.2.1
    · subst hkc
      rw [update_self]
      constructor
      · grind
      · grind
    · rw [update_of_ne hkc, h.find]
      refine exists_congr fun v => ?_
      have hc : (a, k, v) ≠ c := by
        rintro rfl
        exact hkc rfl
      simp [hc]

theorem Indexes.replace {v : Int} (h : Indexes f (p ++ (a, key, v) :: q)) (n : Addr) (value : Int) :
    Indexes (update f key (some n)) ((n, key, value) :: (p ++ q)) := by
  have := h.erase.insert (c := (n, key, value)) (by simp)
  simpa using this

theorem lookup_insert_eq (m : Index) (key : Int) (n : Addr) : (fun k => (m.insert key n).lookup k) = update (fun k => m.lookup k) key (some n) := by
  funext k
  by_cases hk : k = key
  · subst hk
    simp
  · rw [update_of_ne hk, AList.lookup_insert_ne hk]

theorem lookup_erase_eq (m : Index) (key : Int) : (fun k => (m.erase key).lookup k) = update (fun k => m.lookup k) key none := by
  funext k
  by_cases hk : k = key
  · subst hk
    simp
  · rw [update_of_ne hk, AList.lookup_erase_ne hk]

theorem Indexes.mem_iff {m : Index} (h : Indexes (fun k => m.lookup k) cs) (k : Int) : k ∈ m ↔ k ∈ cs.map fun c => c.2.1 := by
  rw [← AList.lookup_isSome, isSome_iff_exists, List.mem_map]
  constructor
  · rintro ⟨a, ha⟩
    obtain ⟨v, hv⟩ := (h.find k a).mp ha
    exact ⟨_, hv, rfl⟩
  · rintro ⟨⟨a, k', v⟩, hc, rfl⟩
    exact ⟨a, (h.find _ a).mpr ⟨v, hc⟩⟩

theorem Indexes.length_keys {m : Index} (h : Indexes (fun k => m.lookup k) cs) : m.keys.length = cs.length := by
  have hp : m.keys.Perm (cs.map fun c => c.2.1) := (perm_ext_iff_of_nodup m.keys_nodup h.nodup).mpr h.mem_iff
  rw [hp.length_eq, length_map]

/-! ## The reference cache on the pairs of a list of nodes -/

theorem others_of_ne (h : ∀ c ∈ cs, c.2.1 ≠ key) : others (cs.map snd) key = cs.map snd := by grind [others, filter_eq_self]

theorem others_of_split (h : ∀ d ∈ p ++ q, d.2.1 ≠ c.2.1) : others ((p ++ c :: q).map snd) c.2.1 = (p ++ q).map snd := by
  rw [← others_of_ne h, others, others, map_append, map_cons, map_append, filter_append, filter_append, filter_cons_of_neg (by simp)]

theorem refStep_get_of_split {v : Int} (h : ∀ d ∈ p ++ q, d.2.1 ≠ key) :
    refStep cap ((p ++ (a, key, v) :: q).map snd) (.get key) = ((key, v) :: (p ++ q).map snd, some v) := by
  have hfind : ((p ++ (a, key, v) :: q).map snd).find? (fun x => x.1 = key) = some (key, v) := by grind
  simp only [refStep, hfind]
  rw [others_of_split h]

/-- `get` of the reference cache, of a key that it does not hold. -/
theorem refStep_get_of_ne (h : ∀ c ∈ cs, c.2.1 ≠ key) : refStep cap (cs.map snd) (.get key) = (cs.map snd, some (-1)) := by
  have hfind : (cs.map snd).find? (fun x => x.1 = key) = none := by grind
  simp only [refStep, hfind]

theorem refStep_put_of_split {v : Int} (h : ∀ d ∈ p ++ q, d.2.1 ≠ key) (hcap : ((p ++ (a, key, v) :: q).length : Int) ≤ cap) :
    refStep cap ((p ++ (a, key, v) :: q).map snd) (.put key value) = ((key, value) :: (p ++ q).map snd, none) := by
  rw [refStep, others_of_split h, take_of_length_le]
  simp only [length_append, length_cons, length_map] at hcap ⊢
  omega

theorem refStep_put_of_lt (h : ∀ c ∈ cs, c.2.1 ≠ key) (hcap : (cs.length : Int) < cap) :
    refStep cap (cs.map snd) (.put key value) = ((key, value) :: cs.map snd, none) := by
  rw [refStep, others_of_ne h, take_of_length_le]
  simp only [length_cons, length_map]
  omega

/-- `put` of the reference cache, of a new key when it is full: the last pair is dropped. -/
theorem refStep_put_of_full (h : ∀ d ∈ cs ++ [c], d.2.1 ≠ key) (hcap : ((cs ++ [c]).length : Int) = cap) :
    refStep cap ((cs ++ [c]).map snd) (.put key value) = ((key, value) :: cs.map snd, none) := by
  rw [refStep, others_of_ne h, ← hcap, length_append, length_singleton, Int.toNat_natCast, take_succ_cons, map_append, take_left' (by simp)]

/-! ## The cache of `LRUCache.h` -/

namespace CppCache

variable {s s' : CppCache}

/-- The invariant: the nodes are different, the map is that of their keys, and there are not too many. -/
structure Inv (s : CppCache) : Prop where
  nodup : (s.cache.map Prod.fst).Nodup
  index : Indexes (fun k => s.map.lookup k) s.cache
  length_le : (s.cache.length : Int) ≤ s.cap

/-- What a call leaves: the pairs that the reference cache has after the call. -/
structure After (s : CppCache) (c : Call) (s' : CppCache) : Prop where
  inv : s'.Inv
  cap : s'.cap = s.cap
  pairs : s'.cache.map Prod.snd = (refStep s.cap (s.cache.map Prod.snd) c).1

theorem erase_of_split {a : Addr} {x : Int × Int} (hnd : ((p ++ (a, x) :: q).map fst).Nodup) :
    StdList.erase (p ++ (a, x) :: q) a = some (p ++ q) := by
  rw [map_append, map_cons, nodup_middle, nodup_cons, ← map_append] at hnd
  have hne : ∀ d ∈ p ++ q, d.1 ≠ a := fun d hd he => hnd.1 (mem_map.mpr ⟨d, hd, he⟩)
  rw [StdList.erase, if_pos (by simp), filter_append, filter_cons_of_neg (by simp), ← filter_append, filter_eq_self.mpr]
  intro d hd
  simpa using hne d hd

theorem deref_of_split {a : Addr} {x : Int × Int} (hnd : ((p ++ (a, x) :: q).map fst).Nodup) : StdList.deref (p ++ (a, x) :: q) a = some x := by
  rw [map_append, map_cons, nodup_middle, nodup_cons, ← map_append] at hnd
  have hp : ∀ d ∈ p, d.1 ≠ a := fun d hd he => hnd.1 (mem_map.mpr ⟨d, mem_append_left q hd, he⟩)
  rw [StdList.deref, find?_append, find?_eq_none.mpr, find?_cons_of_pos (by simp)]
  · rfl
  · intro d hd
    simpa using hp d hd

/-- The last part of `put`: the new node is put before the nodes `cs`, whose map is `m` when the key is taken out of it. -/
theorem emplace_spec {m : Index} (hnd : (cs.map fst).Nodup) (hidx : Indexes (update (fun k => m.lookup k) key none) cs)
    (cap : Int) (hlen : (cs.length : Int) + 1 ≤ cap) (n : Addr) (value : Int) :
    Outcome (do
      let cache ← StdList.emplaceFront cs n (key, value)
      let first ← StdList.begin cache
      return (⟨m.insert key first, cache, cap⟩ : CppCache)) (n ∉ cs.map fst)
      fun s' => s'.Inv ∧ s'.cap = cap ∧ s'.cache = (n, key, value) :: cs := by
  by_cases hn : n ∈ cs.map fst
  · exact Outcome.of_none (by simp only [StdList.emplaceFront, if_pos hn]; rfl) fun hok => hok hn
  · have hr : (do
        let cache ← StdList.emplaceFront cs n (key, value)
        let first ← StdList.begin cache
        return (⟨m.insert key first, cache, cap⟩ : CppCache)) = some ⟨m.insert key n, (n, key, value) :: cs, cap⟩ := by
      simp only [StdList.emplaceFront, if_neg hn]
      rfl
    refine Outcome.of_eq hr ⟨⟨nodup_cons.mpr ⟨hn, hnd⟩, ?_, ?_⟩, rfl, rfl⟩
    · have := hidx.insert (c := (n, key, value)) (by simp)
      simpa [lookup_insert_eq] using this
    · simpa using hlen

theorem put_spec (h : s.Inv) (hcap : 1 ≤ s.cap) (n : Addr) (key value : Int) :
    Outcome (s.put n key value) (n ∉ s.cache.map fst) (s.After (.put key value)) := by
  obtain ⟨m, cs, cap⟩ := s
  obtain ⟨hnd, hidx, hlen⟩ := h
  simp only at hnd hidx hlen hcap
  unfold CppCache.put
  cases hl : m.lookup key with
  | some it =>
    obtain ⟨p, v, q, rfl⟩ := hidx.split hl
    have hne := hidx.ne_of_split
    simp only [erase_of_split hnd]
    refine (emplace_spec ?_ hidx.erase cap ?_ n value).mono (fun hok hm => hok ?_) fun s' hs => ⟨hs.1, hs.2.1, ?_⟩
    · grind
    · grind
    · grind
    · grind [refStep_put_of_split]
  | none =>
    have hne := hidx.not_mem hl
    simp only
    split
    · rename_i hf
      rcases eq_nil_or_concat' cs with rfl | ⟨cs, c, rfl⟩
      · simp only [length_nil] at hf
        omega
      have hb : StdList.back (cs ++ [c]) = some c.2 := by simp [StdList.back]
      have hpop : StdList.popBack (cs ++ [c]) = some cs := by simp [StdList.popBack]
      simp only [hb, hpop]
      have hidx' : Indexes (update (fun k => (m.erase c.2.1).lookup k) key none) cs := by
        have herase := hidx.erase
        rw [append_nil, ← lookup_erase_eq] at herase
        have hkey : (m.erase c.2.1).lookup key = none := by
          rw [AList.lookup_erase_ne (hne c (by simp)).symm, hl]
        rwa [update_eq_self_iff.mpr hkey.symm]
      refine (emplace_spec ?_ hidx' cap ?_ n value).mono (fun hok hm => hok ?_) fun s' hs => ⟨hs.1, hs.2.1, ?_⟩
      · exact hnd.sublist ((sublist_append_left cs [c]).map _)
      · grind
      · rw [map_append]
        exact mem_append_left _ hm
      · grind [refStep_put_of_full]
    · rename_i hroom
      refine (emplace_spec hnd ?_ cap (by omega) n value).mono (fun hok => hok) fun s' hs => ⟨hs.1, hs.2.1, ?_⟩
      · rwa [update_eq_self_iff.mpr hl.symm]
      · grind [refStep_put_of_lt]

theorem get_spec (h : s.Inv) (hcap : 1 ≤ s.cap) (n : Addr) (key : Int) : Outcome (s.get n key) (n ∉ s.cache.map fst) fun r =>
      s.After (.get key) r.1 ∧ some r.2 = (refStep s.cap (s.cache.map snd) (.get key)).2 := by
  unfold CppCache.get
  cases hl : s.map.lookup key with
  | none =>
    have href : refStep s.cap (s.cache.map snd) (.get key) = (s.cache.map snd, some (-1)) := refStep_get_of_ne (h.index.not_mem hl)
    exact Outcome.of_eq rfl ⟨⟨h, rfl, by rw [href]⟩, by rw [href]⟩
  | some it =>
    obtain ⟨p, v, q, hcs⟩ := h.index.split hl
    have hne := h.index
    have hnd := h.nodup
    rw [hcs] at hne hnd
    have hne := hne.ne_of_split
    have hderef : s.cache.deref it = some (key, v) := by
      rw [hcs]
      exact deref_of_split hnd
    have hlen := h.length_le
    rw [hcs] at hlen
    -- `put` of the value that the key already has is what `get` does to the reference cache.
    have hput : (refStep s.cap (s.cache.map snd) (.put key v)).1 = (refStep s.cap (s.cache.map snd) (.get key)).1 := by
      rw [hcs, refStep_put_of_split hne hlen, refStep_get_of_split hne]
    have hval : (refStep s.cap (s.cache.map snd) (.get key)).2 = some v := by rw [hcs, refStep_get_of_split hne]
    simp only [hderef]
    refine (put_spec h hcap n key v).bind fun s' hs => Outcome.of_eq rfl ⟨⟨hs.inv, hs.cap, ?_⟩, hval.symm⟩
    rw [hs.pairs, hput]

theorem exec_spec (h : s.Inv) (hcap : 1 ≤ s.cap) (c : Call) (n : Addr) : Outcome (s.exec (c, n)) (n ∉ s.cache.map fst) fun r =>
      s.After c r.1 ∧ r.2 = (c, (refStep s.cap (s.cache.map snd) c).2) := by
  cases c with
  | get key => exact (get_spec h hcap n key).map fun r hr => ⟨hr.1, by rw [hr.2]⟩
  | put key value => exact (put_spec h hcap n key value).map fun s' hs => ⟨hs, rfl⟩

end CppCache

/-! ## The cache of `LRUCache.py` -/

/-- The nodes `cs` are linked between the two sentinels. -/
structure Chain (m : Mem ListNode) (sentinel tail : Addr) (cs : List Entry) : Prop where
  nodup : (sentinel :: cs.map Prod.fst ++ [tail]).Nodup
  linked : Linked (m.part Cell.next) (m.part Cell.pre) (sentinel :: cs.map Prod.fst ++ [tail])
  value : ∀ c ∈ cs, m.part Cell.value? c.1 = some (some c.2.1, some c.2.2)
  ends : m.part Cell.value? sentinel ≠ none ∧ m.part Cell.value? tail ≠ none

section Chain

variable {m m' : Mem ListNode} {first last : Addr}

/-- A list in which no cell occurs twice is simple. -/
theorem simple_of_nodup {l : List Addr} (h : l.Nodup) : Simple l := ⟨h.sublist (dropLast_sublist l), h.sublist (tail_sublist l)⟩

theorem Chain.remove (h : Chain m first last (p ++ c :: q)) : ∃ m', removeNodeFromList m (some c.1) = some m' ∧ Chain m' first last (p ++ q) ∧
      c.1 ∉ first :: (p ++ q).map fst ++ [last] ∧ m'.part Cell.value? = m.part Cell.value? := by
  obtain ⟨P, x, y, Q, hx, hy⟩ := exists_ends first (p.map fst) (q.map fst) last
  have hlist : first :: (p ++ c :: q).map fst ++ [last] = P ++ x :: c.1 :: y :: Q := by grind
  have hlist' : first :: (p ++ q).map fst ++ [last] = P ++ x :: y :: Q := by grind
  have hl := h.linked
  have hnd := h.nodup
  rw [hlist] at hl hnd
  obtain ⟨hxc, hcx⟩ := hl.neighbours
  have hl' := hl
  rw [append_cons] at hl'
  obtain ⟨hcy, hyc⟩ := hl'.neighbours
  obtain ⟨m1, hm1, P1⟩ := (m.parts).setNext (value_ne_none_of_part hxc) (some y)
  obtain ⟨m2, hm2, P2⟩ := P1.setPre (value_ne_none_of_part hyc) (some x)
  have hpre := (m.parts).read_pre (value_ne_none_of_part hcx)
  have hn := (m.parts).read_next (value_ne_none_of_part hcx)
  rw [hcx] at hpre
  rw [hcy] at hn
  refine ⟨m2, by simp [removeNodeFromList, hpre, hn, hm1, hm2], ⟨?_, ?_, ?_, by rw [P2.value]; exact h.ends⟩, ?_, P2.value⟩
  · grind
  · rw [hlist', P2.next, P2.pre]
    refine hl.erase (simple_of_nodup hnd) (by simp) (by simp) (fun u hux _ => ?_) fun u huy _ => ?_
    · simp [hux]
    · simp [huy]
  · intro d hd
    rw [P2.value]
    exact h.value d (by simp only [mem_append, mem_cons] at hd ⊢; tauto)
  · grind

/-- A node that is not in the list becomes its first. -/
theorem Chain.push (h : Chain m first last cs) (hn : c.1 ∉ first :: cs.map fst ++ [last])
    (hv : m.part Cell.value? c.1 = some (some c.2.1, some c.2.2)) :
    ∃ m', pushNodeToFront first m (some c.1) = some m' ∧ Chain m' first last (c :: cs) ∧ m'.part Cell.value? = m.part Cell.value? := by
  obtain ⟨y, Q, hy⟩ := exists_cons_of_ne_nil (l := cs.map fst ++ [last]) (by simp)
  have hlist : first :: cs.map fst ++ [last] = [] ++ first :: y :: Q := by rw [cons_append, hy]; rfl
  have hlist' : first :: (c :: cs).map fst ++ [last] = [] ++ first :: c.1 :: y :: Q := by
    rw [map_cons, cons_append, cons_append, hy]
    rfl
  have hl := h.linked
  have hnd := h.nodup
  rw [hlist] at hl hnd hn
  obtain ⟨hnext, hpre⟩ := hl.neighbours
  have hfst := value_ne_none_of_part hnext
  have hnode : m.part Cell.value? c.1 ≠ none := by simp [hv]
  have hne : first ≠ c.1 ∧ y ≠ c.1 := by grind
  obtain ⟨m1, hm1, P1⟩ := (m.parts).setNext hfst (some c.1)
  obtain ⟨m2, hm2, P2⟩ := P1.setNext hnode (some y)
  obtain ⟨m3, hm3, P3⟩ := P2.setPre hnode (some first)
  obtain ⟨m4, hm4, P4⟩ := P3.setPre (value_ne_none_of_part hpre) (some c.1)
  have hr := (m.parts).read_next hfst
  rw [hnext] at hr
  refine ⟨m4, by simp [pushNodeToFront, hr, hm1, hm2, hm3, hm4], ⟨?_, ?_, ?_, by rw [P4.value]; exact h.ends⟩, P4.value⟩
  · grind
  · rw [hlist', P4.next, P4.pre]
    refine hl.insert (simple_of_nodup hnd) hn ?_ ?_ ?_ ?_ (fun u hux hun => ?_) fun u huy hun => ?_
    · simp [hne.1]
    · simp
    · simp [hne.2.symm]
    · simp
    · simp [hux, hun]
    · simp [huy, hun]
  · intro d hd
    rw [P4.value]
    rcases mem_cons.mp hd with rfl | hd
    · exact hv
    · exact h.value d hd

theorem Chain.read_last (h : Chain m first last (cs ++ [c])) : m.read (some last) Cell.pre = some (some c.1) := by
  have hl := h.linked
  have hlist : first :: (cs ++ [c]).map fst ++ [last] = (first :: cs.map fst) ++ c.1 :: last :: [] := by simp
  rw [hlist] at hl
  obtain ⟨_, hpre⟩ := hl.neighbours
  rw [(m.parts).read_pre (value_ne_none_of_part hpre), hpre]

theorem Chain.not_mem_of_free (h : Chain m first last cs) (hn : m n = none) : n ∉ first :: cs.map fst ++ [last] := by
  have hf : m.part Cell.value? n = none := part_value_eq_none.mpr hn
  intro hmem
  rw [mem_append, mem_cons, mem_singleton] at hmem
  rcases hmem with (rfl | hmem) | rfl
  · exact h.ends.1 hf
  · obtain ⟨c, hc, rfl⟩ := mem_map.mp hmem
    rw [h.value c hc] at hf
    cases hf
  · exact h.ends.2 hf

/-- A new node changes nothing in the list. -/
theorem Chain.new (h : Chain m first last cs) (hn : m n = none) (x : ListNode) :
    ∃ m', m.new n x = some m' ∧ Chain m' first last cs ∧ m'.part Cell.value? n = some x.value := by
  have hf := h.not_mem_of_free hn
  have hne : ∀ u ∈ first :: cs.map fst ++ [last], u ≠ n := by
    rintro u hu rfl
    exact hf hu
  obtain ⟨m1, hm1, P1⟩ := (m.parts).new hn x
  refine ⟨m1, hm1, ⟨h.nodup, ?_, fun c hc => ?_, ?_, ?_⟩, by rw [P1.value, update_self]⟩
  · rw [P1.next, P1.pre]
    refine h.linked.congr (fun u hu => update_of_ne (hne u (mem_of_mem_dropLast hu)) _ _) fun u hu => ?_
    exact update_of_ne (hne u (mem_of_mem_tail hu)) _ _
  · rw [P1.value, update_of_ne (hne c.1 (by simp [mem_map_of_mem hc]))]
    exact h.value c hc
  · rw [P1.value, update_of_ne (hne first (by simp))]
    exact h.ends.1
  · rw [P1.value, update_of_ne (hne last (by simp))]
    exact h.ends.2

end Chain

namespace PyCache

variable {s s' : PyCache}

/-- The invariant: the nodes of the list are `cs`, the dict is that of their keys, and there are not too many. -/
structure Inv (s : PyCache) (cs : List Entry) : Prop where
  chain : Chain s.mem s.sentinel s.tail cs
  index : Indexes (fun k => s.cache.lookup k) cs
  length_le : (cs.length : Int) ≤ s.cap

/-- What a call leaves: nodes with the pairs that the reference cache has after the call. -/
def After (s : PyCache) (cs : List Entry) (c : Call) (s' : PyCache) : Prop :=
  ∃ cs', s'.Inv cs' ∧ s'.cap = s.cap ∧ cs'.map Prod.snd = (refStep s.cap (cs.map Prod.snd) c).1

theorem create_inv {m : Mem ListNode} {a b : Addr} (hcap : 0 ≤ cap) (h : create m cap a b = some s) : s.Inv [] ∧ s.cap = cap := by
  by_cases ha : m a = none
  · obtain ⟨m1, hm1, P1⟩ := (m.parts).new ha ⟨(none, none), none, none⟩
    by_cases hb : m1 b = none
    · have hab : a ≠ b := by
        rintro rfl
        rw [← part_value_eq_none, P1.value] at hb
        simp at hb
      obtain ⟨m2, hm2, P2⟩ := P1.new hb ⟨(none, none), none, none⟩
      obtain ⟨m3, hm3, P3⟩ := P2.setNext (a := a) (by simp [hab]) (some b)
      obtain ⟨m4, hm4, P4⟩ := P3.setPre (a := b) (by simp) (some a)
      obtain rfl : s = ⟨m4, cap, ∅, a, b⟩ := by simpa [create, hm1, hm2, hm3, hm4, eq_comm] using h
      refine ⟨⟨⟨by simp [hab], ?_, by simp, by simp [P4.value, hab], by simp [P4.value]⟩, ⟨by simp, by simp⟩, ?_⟩, rfl⟩
      · simp [Linked, P4.next, P4.pre]
      · simp only [length_nil]
        omega
    · simp [create, hm1, new_eq_none hb] at h
  · simp [create, new_eq_none ha] at h

theorem get_spec (h : s.Inv cs) (key : Int) :
    Outcome (s.get key) True fun r => s.After cs (.get key) r.1 ∧ r.2 = (refStep s.cap (cs.map snd) (.get key)).2 := by
  cases hl : s.cache.lookup key with
  | none =>
    have href : refStep s.cap (cs.map snd) (.get key) = (cs.map snd, some (-1)) := refStep_get_of_ne (h.index.not_mem hl)
    have hget : s.get key = some (s, some (-1)) := by simp only [PyCache.get, hl]
    exact Outcome.of_eq hget ⟨⟨cs, h, rfl, by rw [href]⟩, by rw [href]⟩
  | some node =>
    obtain ⟨p, v, q, rfl⟩ := h.index.split hl
    obtain ⟨m1, hm1, hc1, hnode, hv1⟩ := h.chain.remove
    have hv : m1.part Cell.value? node = some (some key, some v) := by
      rw [hv1]
      exact h.chain.value (node, key, v) (by simp)
    obtain ⟨m2, hm2, hc2, hv2⟩ := hc1.push (c := (node, key, v)) hnode hv
    have hr : m2.read (some node) Cell.value = some (some key, some v) := (m2.parts).read_value (by rw [hv2, hv])
    have hget : s.get key = some ({ s with mem := m2 }, some v) := by simp [PyCache.get, hl, hm1, hm2, hr]
    have href : refStep s.cap ((p ++ (node, key, v) :: q).map snd) (.get key) = ((key, v) :: (p ++ q).map snd, some v) :=
      refStep_get_of_split h.index.ne_of_split
    refine Outcome.of_eq hget ⟨⟨(node, key, v) :: (p ++ q), ⟨hc2, ?_, ?_⟩, rfl, by rw [href]; rfl⟩, by rw [href]⟩
    · have hidx := h.index.replace node v
      rwa [update_eq_self_iff.mpr hl.symm] at hidx
    · have hlen := h.length_le
      simp only [length_append, length_cons] at hlen ⊢
      omega

theorem removeOld_spec (h : s.Inv cs) (key : Int) : ∃ m cs', s.removeOld key = some m ∧ Chain m s.sentinel s.tail cs' ∧
      Indexes (update (fun k => s.cache.lookup k) key none) cs' ∧ (∀ n, m n = none ↔ s.mem n = none) ∧
      cs'.map snd = others (cs.map snd) key := by
  cases hl : s.cache.lookup key with
  | none =>
    refine ⟨s.mem, cs, by simp only [removeOld, hl], h.chain, ?_, fun _ => Iff.rfl, (others_of_ne (h.index.not_mem hl)).symm⟩
    rw [update_eq_self_iff.mpr hl.symm]
    exact h.index
  | some node =>
    obtain ⟨p, v, q, rfl⟩ := h.index.split hl
    obtain ⟨m1, hm1, hc1, _, hv1⟩ := h.chain.remove
    refine ⟨m1, p ++ q, by simp only [removeOld, hl, hm1], hc1, h.index.erase, fun n => ?_, (others_of_split h.index.ne_of_split).symm⟩
    rw [← part_value_eq_none, ← part_value_eq_none, hv1]

theorem put_spec (h : s.Inv cs) (n : Addr) (key value : Int) : Outcome (s.put n key value) (s.mem n = none) (s.After cs (.put key value)) := by
  obtain ⟨m1, cs1, hm1, hc1, hidx, hmem, hothers⟩ := removeOld_spec h key
  by_cases hn : s.mem n = none
  · have hn1 := (hmem n).mpr hn
    obtain ⟨m2, hm2, hc2, hv2⟩ := hc1.new hn1 ⟨(some key, some value), none, none⟩
    obtain ⟨m3, hm3, hc3, _⟩ := hc2.push (c := (n, key, value)) (hc1.not_mem_of_free hn1) hv2
    have hidx3 : Indexes (fun k => (s.cache.insert key n).lookup k) ((n, key, value) :: cs1) := by
      have hins := hidx.insert (c := (n, key, value)) (by simp)
      rwa [update_idem, ← lookup_insert_eq] at hins
    have hpairs : ((n, key, value) :: cs1).map snd = (key, value) :: others (cs.map snd) key := by rw [map_cons, hothers]
    have hlen : (((n, key, value) :: cs1).length : Int) ≤ s.cap + 1 := by
      have hle := congrArg length hothers
      have hfilter := length_filter_le (fun x : Int × Int => x.1 ≠ key) (cs.map snd)
      have := h.length_le
      rw [length_map] at hle hfilter
      rw [others] at hle
      simp only [length_cons]
      push_cast
      omega
    by_cases hfull : ((s.cache.insert key n).keys.length : Int) > s.cap
    · -- The new node made the list too long by one: the last node goes.
      have hlen' := hfull
      rw [hidx3.length_keys] at hlen'
      obtain ⟨cs4, c, hcs4⟩ := (eq_nil_or_concat' ((n, key, value) :: cs1)).resolve_left (by simp)
      rw [hcs4] at hc3 hidx3 hlen hlen' hpairs
      have hlast := hc3.read_last
      obtain ⟨m4, hm4, hc4, _, hv4⟩ := hc3.remove
      have hread : m4.read (some c.1) Cell.value = some (some c.2.1, some c.2.2) := (m4.parts).read_value (by rw [hv4]; exact hc3.value c (by simp))
      have hmemc : c.2.1 ∈ s.cache.insert key n := (hidx3.mem_iff _).mpr (by simp)
      have hput : s.put n key value = some { s with mem := m4, cache := (s.cache.insert key n).erase c.2.1 } := by
        simp only [PyCache.put, bind_eq_bind, bind_some, hm1, hm2, hm3, if_pos hfull, hlast, hm4, hread, pop, if_pos hmemc]
        rfl
      have hlen4 : (cs4.length : Int) = s.cap := by grind
      have hidx4 := hidx3.erase
      rw [← lookup_erase_eq, append_nil] at hidx4
      rw [append_nil] at hc4
      refine Outcome.of_eq hput ⟨cs4, ⟨hc4, hidx4, hlen4.le⟩, rfl, ?_⟩
      rw [refStep, ← hpairs, map_append, ← hlen4, Int.toNat_natCast, take_left' (by simp)]
    · have hput : s.put n key value = some { s with mem := m3, cache := s.cache.insert key n } := by
        simp only [PyCache.put, bind_eq_bind, bind_some, hm1, hm2, hm3, if_neg hfull]
        rfl
      rw [hidx3.length_keys] at hfull
      refine Outcome.of_eq hput ⟨_, ⟨hc3, hidx3, by simpa using hfull⟩, rfl, ?_⟩
      rw [refStep, ← hpairs, take_of_length_le (by rw [length_map]; omega)]
  · grind [Outcome.of_none, PyCache.put, new_eq_none]

theorem exec_spec (h : s.Inv cs) (c : Call) (n : Addr) :
    Outcome (s.exec (c, n)) (s.mem n = none) fun r => s.After cs c r.1 ∧ r.2 = (c, (refStep s.cap (cs.map snd) c).2) := by
  cases c with
  | get key => exact ((get_spec h key).map fun r hr => ⟨hr.1, by rw [hr.2]⟩).mono (fun _ => trivial) fun _ hr => hr
  | put key value => exact (put_spec h n key value).map fun s' hs => ⟨hs, rfl⟩

end PyCache

/-! ## Runs -/

/-- A cache whose every call does what it does to the reference cache makes the run of the reference cache. -/
theorem run_refines {S : Type} (cap : Int) {exec : S → Call × Addr → Option (S × Call × Option Int)} {I : S → List (Int × Int) → Prop} {s₀ s : S}
    (h0 : I s₀ [])
    (hs : ∀ s xs c n r, I s xs → exec s (c, n) = some r → I r.1 (refStep cap xs c).1 ∧ r.2 = (c, (refStep cap xs c).2))
    (h : Run exec s₀ es s) : I s (refRun cap (es.map fst)).1 ∧ (refRun cap (es.map fst)).2 = es := by
  induction h with
  | nil => exact ⟨h0, rfl⟩
  | @snoc es s s' x e _ _ hx ih =>
    obtain ⟨hI, he⟩ := hs _ _ x.1 x.2 _ ih.1 hx
    simp only at he hI
    subst he
    have hsnoc : refRun cap ((es ++ [(x.1, (refStep cap (refRun cap (es.map fst)).1 x.1).2)]).map fst) =
        ((refStep cap (refRun cap (es.map fst)).1 x.1).1,
          (refRun cap (es.map fst)).2 ++ [(x.1, (refStep cap (refRun cap (es.map fst)).1 x.1).2)]) := by
      rw [map_append, refRun, foldl_append]
      rfl
    rw [hsnoc]
    exact ⟨hI, by rw [ih.2]⟩

theorem CppCache.run_inv (hcap : 1 ≤ cap) {s : CppCache} (h : Run CppCache.exec (create cap) es s) :
    s.Inv ∧ s.cap = cap ∧ (refRun cap (es.map fst)).2 = es := by
  have hrun := run_refines cap (I := fun s xs => s.Inv ∧ s.cap = cap ∧ s.cache.map snd = xs) ?_ ?_ h
  · exact ⟨hrun.1.1, hrun.1.2.1, hrun.2⟩
  · refine ⟨⟨nodup_nil, ⟨nodup_nil, by simp [create]⟩, ?_⟩, rfl, rfl⟩
    simp only [create, length_nil]
    omega
  · rintro s xs c n r ⟨hinv, rfl, rfl⟩ hx
    obtain ⟨hafter, hr⟩ := (exec_spec hinv hcap c n).post r hx
    exact ⟨⟨hafter.inv, hafter.cap, hafter.pairs⟩, hr⟩

theorem PyCache.run_inv (hcap : 1 ≤ cap) {m : Mem ListNode} {a b : Addr} {s₀ s : PyCache} (h0 : create m cap a b = some s₀)
    (h : Run PyCache.exec s₀ es s) : (∃ cs, s.Inv cs) ∧ (refRun cap (es.map fst)).2 = es := by
  have hrun := run_refines cap (I := fun s xs => ∃ cs, s.Inv cs ∧ s.cap = cap ∧ cs.map snd = xs) ?_ ?_ h
  · grind
  · obtain ⟨hinv, hs⟩ := create_inv (by omega) h0
    exact ⟨[], hinv, hs, rfl⟩
  · rintro s xs c n r ⟨cs, hinv, rfl, rfl⟩ hx
    exact (exec_spec hinv c n).post r hx

end CsLearning.DsAlgo.LRU

namespace CsLearning.DsAlgo

open LRU

/-- The two caches are one LRU cache. With a capacity of at least one, the calls on either of them return what they return on the reference
cache, so the same calls return the same on both. In every state reached the keys of the nodes are all different and those of the map,
whose entries point at the nodes with their keys; in `LRUCache.py` these nodes are the ones that following `next` from the sentinel
visits before the tail. The next call returns, when it has a free address for a node. -/
theorem lru_caches_agree {cap : Int} (hcap : 1 ≤ cap) :
    (∀ es s, Run CppCache.exec (CppCache.create cap) es s →
      es = (refRun cap (es.map Prod.fst)).2 ∧
      (s.cache.map fun c => c.2.1).Nodup ∧ (∀ k, k ∈ s.map ↔ k ∈ s.cache.map fun c => c.2.1) ∧
      (∀ k it, s.map.lookup k = some it → ∃ v, s.cache.deref it = some (k, v)) ∧
      ∀ c n, n ∉ s.cache.map Prod.fst → ∃ r, s.exec (c, n) = some r) ∧
    (∀ m a b s₀ es s, PyCache.create m cap a b = some s₀ → Run PyCache.exec s₀ es s →
      es = (refRun cap (es.map Prod.fst)).2 ∧
      (∃ cs : List Entry, (∀ i ≤ cs.length + 1, s.mem.follow Cell.next i (some s.sentinel) =
          some (s.sentinel :: cs.map Prod.fst ++ [s.tail])[i]?) ∧
        (∀ c ∈ cs, s.mem.read (some c.1) Cell.value = some (some c.2.1, some c.2.2)) ∧
        (s.sentinel :: cs.map Prod.fst ++ [s.tail]).Nodup ∧
        (cs.map fun c => c.2.1).Nodup ∧ (∀ k, k ∈ s.cache ↔ k ∈ cs.map fun c => c.2.1) ∧
        ∀ k node, s.cache.lookup k = some node → ∃ v, (node, k, v) ∈ cs) ∧
      ∀ c n, s.mem n = none → ∃ r, s.exec (c, n) = some r) ∧
    ∀ es s m a b s₀ es' s', Run CppCache.exec (CppCache.create cap) es s → PyCache.create m cap a b = some s₀ →
      Run PyCache.exec s₀ es' s' → es.map Prod.fst = es'.map Prod.fst → es = es' := by
  refine ⟨?_, ?_, ?_⟩
  · intro es s h
    obtain ⟨hinv, rfl, hes⟩ := CppCache.run_inv hcap h
    refine ⟨hes.symm, hinv.index.nodup, hinv.index.mem_iff, fun k it hk => ?_, fun c n hn => (CppCache.exec_spec hinv hcap c n).returns hn⟩
    obtain ⟨p, v, q, hcs⟩ := hinv.index.split hk
    have hnd := hinv.nodup
    rw [hcs] at hnd ⊢
    exact ⟨v, CppCache.deref_of_split hnd⟩
  · intro m a b s₀ es s h0 h
    obtain ⟨⟨cs, hinv⟩, hes⟩ := PyCache.run_inv hcap h0 h
    refine ⟨hes.symm, ⟨cs, fun i hi => ?_, fun c hc => ?_, hinv.chain.nodup, hinv.index.nodup, hinv.index.mem_iff, fun k node hk => ?_⟩,
      fun c n hn => (PyCache.exec_spec hinv c n).returns hn⟩
    · exact Mem.follow_of_isChain hinv.chain.linked.forward (by simpa using hi)
    · exact (s.mem.parts).read_value (hinv.chain.value c hc)
    · exact (hinv.index.find k node).mp hk
  · intro es s m a b s₀ es' s' h h0 h' hcalls
    obtain ⟨_, _, hes⟩ := CppCache.run_inv hcap h
    obtain ⟨_, hes'⟩ := PyCache.run_inv hcap h0 h'
    rw [← hes, ← hes', hcalls]

/-- With room for two keys: a key is used, so that the third one evicts the other; then a value is replaced. -/
def evicting : List (Call × Option Int) :=
  [(.put 1 10, none), (.put 2 20, none), (.get 1, some 10), (.put 3 30, none), (.get 2, some (-1)), (.put 1 11, none), (.get 1, some 11)]

/-- Both caches make the run `evicting`. -/
theorem lru_caches_agree_evicting :
    ∃ s s₀ s', Run CppCache.exec (CppCache.create 2) evicting s ∧ PyCache.create (fun _ => none) 2 0 1 = some s₀ ∧
      Run PyCache.exec s₀ evicting s' ∧ evicting = (refRun 2 (evicting.map Prod.fst)).2 ∧ (s.cache.map fun c => c.2.1).Nodup := by
  obtain ⟨s, h⟩ : ∃ s, Run CppCache.exec (CppCache.create 2) evicting s :=
    exists_run_of_events CppCache.exec (CppCache.create 2)
      [(.put 1 10, 2), (.put 2 20, 3), (.get 1, 2), (.put 3 30, 3), (.get 2, 0), (.put 1 11, 5), (.get 1, 6)] (by decide +kernel)
  obtain ⟨s₀, h0⟩ : ∃ s₀, PyCache.create (fun _ => none) 2 0 1 = some s₀ := ⟨_, rfl⟩
  obtain ⟨s', h'⟩ : ∃ s', Run PyCache.exec s₀ evicting s' :=
    exists_run_of_events PyCache.exec s₀
      [(.put 1 10, 2), (.put 2 20, 3), (.get 1, 0), (.put 3 30, 4), (.get 2, 0), (.put 1 11, 5), (.get 1, 0)]
      (by cases h0; decide +kernel)
  obtain ⟨hcpp, hpy, _⟩ := lru_caches_agree (by decide : (1 : Int) ≤ 2)
  exact ⟨s, s₀, s', h, h0, h', (hpy _ _ _ _ _ _ h0 h').1, (hcpp _ _ h).2.1⟩

end CsLearning.DsAlgo
