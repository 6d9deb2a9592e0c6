import CsLearning.DsAlgo.LRUCache

/-!
# The two LRU caches with any capacity

The bound on the number of entries for every argument of the constructors. `LRUCache.h` compares the capacity with the size before it inserts, and
for equality: without room for one entry it takes the last pair of an empty list, and a negative capacity is never reached. `LRUCache.py`
compares after it has inserted, and for being greater, so that a negative capacity is like 0.
-/

open Option

namespace CsLearning.DsAlgo.LRU

variable {cap : Int} {cs : List Call} {es : List (Call × Option Int)}

/-- The calls on the cache of `LRUCache.h` keep the bound: whenever some of them have been made there are at most `max cap 0` entries, in the list
and in the map, and the next one has an outcome when it has a free address for a node; it takes no pair from an empty list. -/
def CppKeepsBound (cap : Int) (cs : List Call) : Prop :=
  ∀ es s, Run CppCache.exec (CppCache.create cap) es s → es.map Prod.fst <+: cs →
    (s.cache.length : Int) ≤ max cap 0 ∧ (s.map.keys.length : Int) ≤ max cap 0 ∧
    ∀ c n, es.map Prod.fst ++ [c] <+: cs → n ∉ s.cache.map Prod.fst → ∃ r, s.exec (c, n) = some r

/-- The same for `LRUCache.py`, for all calls. The entries are those of the dict; the nodes between the sentinels are as many. -/
def PyKeepsBound (cap : Int) : Prop :=
  ∀ m a b s₀ es s, PyCache.create m cap a b = some s₀ → Run PyCache.exec s₀ es s →
    (s.cache.keys.length : Int) ≤ max cap 0 ∧
    (∃ ps : List Addr, ps.length = s.cache.keys.length ∧
      ∀ i ≤ ps.length + 1, s.mem.follow Cell.next i (some s.sentinel) = some (s.sentinel :: ps ++ [s.tail])[i]?) ∧
    ∀ c n, s.mem n = none → ∃ r, s.exec (c, n) = some r

/-! ## `LRUCache.h` -/

namespace CppCache

theorem exec_get_create (cap : Int) (key : Int) (n : Addr) : (create cap).exec (.get key, n) = some (create cap, .get key, some (-1)) := rfl

/-- `put` on the empty cache: with the capacity 0 there is no outcome, and else one entry. -/
theorem exec_put_create (cap : Int) (key value : Int) (n : Addr) : (create cap).exec (.put key value, n) =
    if cap = 0 then none else some (⟨(∅ : Index).insert key n, [(n, key, value)], cap⟩, .put key value, none) := by
  by_cases hcap : cap = 0
  · subst hcap
    rfl
  · simp [create, exec, put, hcap, StdList.emplaceFront, StdList.begin]

/-- As long as there are only calls of `get` the cache stays empty. -/
theorem run_gets {s : CppCache} (h : Run exec (create cap) es s) (hgets : ∀ key value, .put key value ∉ es.map Prod.fst) : s = create cap := by
  induction h with
  | nil => rfl
  | @snoc es s s' x e hr _ hx ih =>
    have hbef : s = create cap := ih fun key value hmem => hgets key value (by simp [hmem])
    subst hbef
    obtain ⟨c, n⟩ := x
    cases c with
    | get key => grind [exec_get_create]
    | put key value =>
      rw [exec_put_create] at hx
      split_ifs at hx
      rw [some.injEq, Prod.mk.injEq] at hx
      exact absurd (by simp [← hx.2]) (hgets key value)

theorem exists_run_gets (cap : Int) (gets : List Call) (hgets : ∀ key value, .put key value ∉ gets) :
    ∃ es, es.map Prod.fst = gets ∧ Run exec (create cap) es (create cap) := by
  induction gets using List.reverseRecOn with
  | nil => exact ⟨[], rfl, .nil⟩
  | append_singleton gets c ih =>
    obtain ⟨es, hes, hr⟩ := ih fun key value hmem => hgets key value (by simp [hmem])
    cases c with
    | get key => exact ⟨es ++ [(.get key, some (-1))], by simp [hes], hr.snoc (a := (.get key, 0)) trivial (exec_get_create cap key 0)⟩
    | put key value => exact absurd (by simp) (hgets key value)

theorem keepsBound_of_pos (hcap : 1 ≤ cap) (cs : List Call) : CppKeepsBound cap cs := by
  intro es s h _
  obtain ⟨hinv, hs, -⟩ := run_inv hcap h
  have hlen := hinv.length_le
  refine ⟨by omega, ?_, ?_⟩
  · rw [hinv.index.length_keys]
    omega
  · intro c n _ hn
    exact (exec_spec hinv (hs ▸ hcap) c n).returns hn

theorem keepsBound_of_gets (hgets : ∀ key value, .put key value ∉ cs) : CppKeepsBound cap cs := by
  intro es s h hes
  have hs := run_gets h fun key value hmem => hgets key value (hes.subset hmem)
  subst hs
  refine ⟨Int.le_max_right _ _, Int.le_max_right _ _, ?_⟩
  intro c n hn _
  cases c with
  | get key => exact ⟨_, exec_get_create cap key n⟩
  | put key value => exact absurd (hn.subset (by simp)) (hgets key value)

/-- Without room the first call of `put` breaks the bound: it takes a pair from an empty list, or it leaves one entry. -/
theorem not_keepsBound (hcap : cap ≤ 0) {gets later : List Call} {key value : Int} (hgets : ∀ k v, .put k v ∉ gets) :
    ¬CppKeepsBound cap (gets ++ .put key value :: later) := by
  intro hall
  obtain ⟨es, hes, hr⟩ := exists_run_gets cap gets hgets
  obtain ⟨-, -, hn⟩ := hall es _ hr ⟨_, by rw [hes]⟩
  obtain ⟨r, hx⟩ := hn (.put key value) 0 ⟨later, by rw [hes]; simp⟩ (by simp [create])
  have hput := exec_put_create cap key value 0
  rw [hx] at hput
  split_ifs at hput
  obtain rfl := some.inj hput
  have hr' := hr.snoc (a := (.put key value, 0)) trivial hx
  obtain ⟨hlen, -⟩ := hall _ _ hr' ⟨later, by simp [hes]⟩
  simp only [List.length_singleton] at hlen
  omega

end CppCache

theorem exists_first_put {key value : Int} (h : .put key value ∈ cs) : ∃ gets k v later, cs = gets ++ .put k v :: later ∧ ∀ k v, .put k v ∉ gets := by
  induction cs with
  | nil => simp at h
  | cons c cs ih =>
    cases c with
    | put k v => exact ⟨[], k, v, cs, rfl, by simp⟩
    | get k => grind

/-! ## `LRUCache.py` -/

namespace PyCache

/-- The cache with another capacity. -/
def setCap (s : PyCache) (cap : Int) : PyCache := { s with cap := cap }

theorem bind_eq_map_bind {α β γ : Type} {x : Option α} {f : α → Option γ} {g : α → Option β} {k : β → γ}
    (h : ∀ a, f a = (g a).map k) : x.bind f = (x.bind g).map k := by
  cases x with
  | none => rfl
  | some a => exact h a

theorem get_setCap (s : PyCache) (cap key : Int) : (s.setCap cap).get key = (s.get key).map fun r => (r.1.setCap cap, r.2) := by
  simp only [get, setCap]
  cases s.cache.lookup key with
  | none => rfl
  | some node => simp

variable {s s' : PyCache}

theorem put_setCap (hs : s.cap ≤ 0) (hcap : cap ≤ 0) (n : Addr) (key value : Int) :
    (s.setCap cap).put n key value = (s.put n key value).map fun s' => s'.setCap cap := by
  have hlen : 0 < (s.cache.insert key n).keys.length := List.length_pos_of_mem (AList.mem_insert _ |>.mpr (Or.inl rfl))
  have hf : ((s.cache.insert key n).keys.length : Int) > s.cap := by omega
  have hf' : (((s.setCap cap).cache.insert key n).keys.length : Int) > (s.setCap cap).cap := by
    change ((s.cache.insert key n).keys.length : Int) > cap
    omega
  refine bind_eq_map_bind fun m => ?_
  refine bind_eq_map_bind fun m1 => ?_
  refine bind_eq_map_bind fun m2 => ?_
  rw [if_pos hf, if_pos hf']
  refine bind_eq_map_bind fun last => ?_
  refine bind_eq_map_bind fun m3 => ?_
  refine bind_eq_map_bind fun y => ?_
  exact bind_eq_map_bind fun cache => rfl

/-- Capacities without room for one entry do not differ. -/
theorem exec_setCap (hs : s.cap ≤ 0) (hcap : cap ≤ 0) (x : Call × Addr) : (s.setCap cap).exec x = (s.exec x).map fun r => (r.1.setCap cap, r.2) := by
  obtain ⟨c, n⟩ := x
  cases c with
  | get key =>
    simp only [exec, get_setCap, map_map]
    rfl
  | put key value =>
    simp only [exec, put_setCap hs hcap, map_map]
    rfl

theorem exec_cap {x : Call × Addr} {e : Call × Option Int} (h : s.exec x = some (s', e)) : s'.cap = s.cap := by
  obtain ⟨c, n⟩ := x
  cases c with
  | get key =>
    obtain ⟨r, hget, he⟩ := map_eq_some_iff.mp h
    obtain ⟨rfl, -⟩ := Prod.mk.inj he
    unfold get at hget
    split at hget
    · obtain ⟨m, -, hget⟩ := bind_eq_some_iff.mp hget
      obtain ⟨m', -, hget⟩ := bind_eq_some_iff.mp hget
      obtain ⟨y, -, hget⟩ := bind_eq_some_iff.mp hget
      cases hget
      rfl
    · cases hget
      rfl
  | put key value =>
    obtain ⟨t, hput, he⟩ := map_eq_some_iff.mp h
    obtain ⟨rfl, -⟩ := Prod.mk.inj he
    obtain ⟨m, -, hput⟩ := bind_eq_some_iff.mp hput
    obtain ⟨m', -, hput⟩ := bind_eq_some_iff.mp hput
    obtain ⟨m'', -, hput⟩ := bind_eq_some_iff.mp hput
    split_ifs at hput
    · obtain ⟨last, -, hput⟩ := bind_eq_some_iff.mp hput
      obtain ⟨m1, -, hput⟩ := bind_eq_some_iff.mp hput
      obtain ⟨y, -, hput⟩ := bind_eq_some_iff.mp hput
      obtain ⟨cache, -, hput⟩ := bind_eq_some_iff.mp hput
      cases hput
      rfl
    · cases hput
      rfl

theorem exec_max {x : Call × Addr} {e : Call × Option Int} (h : s.exec x = some (s', e)) :
    (s.setCap (max s.cap 0)).exec x = some (s'.setCap (max s.cap 0), e) := by
  rcases Int.le_total 0 s.cap with hcap | hcap
  · have hs' := exec_cap h
    rw [max_eq_left hcap]
    change s.exec x = some ({ s' with cap := s.cap }, e)
    rw [← hs', h]
  · rw [exec_setCap hcap (by omega), h]
    rfl

/-- In every state reached the nodes and the dict are those of a cache whose capacity is cut at 0. -/
theorem run_inv_max {m : Mem ListNode} {a b : Addr} {s₀ s : PyCache} (h0 : create m cap a b = some s₀) (h : Run exec s₀ es s) :
    s.cap = cap ∧ ∃ cs, (s.setCap (max cap 0)).Inv cs := by
  induction h with
  | nil =>
    have hnew : create m (max cap 0) a b = some (s₀.setCap (max cap 0)) ∧ s₀.cap = cap := by
      unfold create at h0 ⊢
      obtain ⟨m1, h1, h0⟩ := bind_eq_some_iff.mp h0
      obtain ⟨m2, h2, h0⟩ := bind_eq_some_iff.mp h0
      obtain ⟨m3, h3, h0⟩ := bind_eq_some_iff.mp h0
      obtain ⟨m4, h4, h0⟩ := bind_eq_some_iff.mp h0
      cases h0
      refine ⟨?_, rfl⟩
      simp only [h1, h2, h3, h4, bind_eq_bind, bind_some]
      rfl
    exact ⟨hnew.2, [], (create_inv (by omega) hnew.1).1⟩
  | @snoc es s s' x e _ _ hx ih =>
    obtain ⟨hcap, cs, hinv⟩ := ih
    have hmax := exec_max hx
    rw [hcap] at hmax
    obtain ⟨⟨cs', hinv', -⟩, -⟩ := (exec_spec hinv x.1 x.2).post _ hmax
    exact ⟨(exec_cap hx).trans hcap, cs', hinv'⟩

theorem keepsBound (cap : Int) : PyKeepsBound cap := by
  intro m a b s₀ es s h0 h
  obtain ⟨hcap, cs, hinv⟩ := run_inv_max h0 h
  have hk : s.cache.keys.length = cs.length := hinv.index.length_keys
  have hlen : (cs.length : Int) ≤ max cap 0 := hinv.length_le
  refine ⟨by omega, ⟨cs.map Prod.fst, by rw [List.length_map, hk], ?_⟩, ?_⟩
  · intro i hi
    exact Mem.follow_of_isChain hinv.chain.linked.forward (by simpa using hi)
  · intro c n hn
    obtain ⟨r, hr⟩ := (exec_spec hinv c n).returns hn
    rcases Int.le_total 0 cap with hpos | hneg
    · have hs : s.setCap (max cap 0) = s := by rw [max_eq_left hpos, ← hcap]; rfl
      exact ⟨r, hs ▸ hr⟩
    · rw [exec_setCap (hcap ▸ hneg) (by omega)] at hr
      obtain ⟨r', hr', -⟩ := map_eq_some_iff.mp hr
      exact ⟨r', hr'⟩

end PyCache

end CsLearning.DsAlgo.LRU

namespace CsLearning.DsAlgo

open LRU

/-- The bound on the entries, for every capacity and every sequence of calls: `LRUCache.h` keeps it, and never takes a pair from an empty list,
exactly when there is room for one entry or no call is a `put`; `LRUCache.py` always keeps it. -/
theorem lru_keeps_bound_iff (cap : Int) (cs : List Call) :
    (CppKeepsBound cap cs ↔ 1 ≤ cap ∨ ∀ key value, .put key value ∉ cs) ∧ PyKeepsBound cap := by
  refine ⟨?_, PyCache.keepsBound cap⟩
  constructor
  · intro hall
    by_cases hcap : 1 ≤ cap
    · exact Or.inl hcap
    · refine Or.inr ?_
      intro key value hput
      obtain ⟨gets, k, v, later, rfl, hgets⟩ := exists_first_put hput
      exact CppCache.not_keepsBound (by omega) hgets hall
  · rintro (hcap | hgets)
    · exact CppCache.keepsBound_of_pos hcap cs
    · exact CppCache.keepsBound_of_gets hgets

/-- One `put`: with the capacity 0 it takes a pair from the empty list, with the capacity -1 it leaves an entry. -/
theorem lru_keeps_bound_false : (CppCache.create 0).exec (.put 1 10, 0) = none ∧
    ((CppCache.create (-1)).exec (.put 1 10, 0)).map (fun r => r.1.cache.length) = some 1 ∧
    ¬CppKeepsBound 0 [.put 1 10] ∧ ¬CppKeepsBound (-1) [.put 1 10] := by
  have hgets : ∀ k v : Int, Call.put k v ∉ [] := fun k v => List.not_mem_nil
  refine ⟨rfl, by decide +kernel, ?_, ?_⟩
  · exact CppCache.not_keepsBound (by decide) hgets
  · exact CppCache.not_keepsBound (by decide) hgets

end CsLearning.DsAlgo
