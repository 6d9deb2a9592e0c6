import CsLearning.Lib.Probing

/-!
# The hash map with probing

`MyHashMap` of `hash_table.md`: a vector of `N` nodes, each with a key (-1 where the cell is empty) and a pointer to a second node with the value.

`put` looks for an empty cell from `key % N` on, but tests the cell `arr[key]` in each round. A key from `N` on is no index of the vector, so that
`put` has no outcome; a key below `N` is its own home cell, and every such key stays there.
-/

open List Option Function

namespace CsLearning.DsAlgo.HashMap

/-- A node of the vector, with the value of the node that `next` points to; none for a null pointer. -/
structure Cell where
  val : Int
  next : Option Int
  deriving DecidableEq, Repr

abbrev Cells := Nat → Cell

/-- The number of cells. -/
def size : Nat := 10007

/-- The vector the constructor makes. -/
def emptyCells : Cells := fun _ => ⟨-1, none⟩

/-- `arr[i]`, which has no outcome outside of the vector. -/
def cellAt (N : Nat) (arr : Cells) (i : Int) : Option Cell :=
  if 0 ≤ i ∧ i < N then some (arr i.toNat) else none

/-- The body of the loops of `put`. -/
def putRound (N : Nat) (arr : Cells) (key value : Int) (i : Nat) : Option (Option Cells) := do
  let tested ← cellAt N arr key
  let cell ← cellAt N arr i
  if tested.val = -1 then
    return some (Function.update arr i ⟨key, some value⟩)
  else if cell.val = key then
    let _ ← cell.next
    return some (Function.update arr i { cell with next := some value })
  else
    return none

def put (N : Nat) (arr : Cells) (key value : Int) : Option Cells := do
  let returned ← probeLoops (putRound N arr key value) (home N key) N
  return returned.getD arr

/-- The body of the loops of `get`. -/
def getRound (N : Nat) (arr : Cells) (key : Int) (i : Nat) : Option (Option Int) := do
  let cell ← cellAt N arr i
  if cell.val = key then
    let value ← cell.next
    return some value
  else
    return none

def get (N : Nat) (arr : Cells) (key : Int) : Option Int := do
  let returned ← probeLoops (getRound N arr key) (home N key) N
  return returned.getD (-1)

/-- The body of the loops of `remove`. -/
def removeRound (N : Nat) (arr : Cells) (key : Int) (i : Nat) : Option (Option Cells) := do
  let cell ← cellAt N arr i
  if cell.val = key then
    return some (Function.update arr i ⟨-1, none⟩)
  else
    return none

def remove (N : Nat) (arr : Cells) (key : Int) : Option Cells := do
  let returned ← probeLoops (removeRound N arr key) (home N key) N
  return returned.getD arr

/-! ## Histories -/

inductive Call where
  | put (key value : Int)
  | get (key : Int)
  | remove (key : Int)
  deriving DecidableEq, Repr

def Call.key : Call → Int
  | .put k _ => k
  | .get k => k
  | .remove k => k

def exec (N : Nat) (arr : Cells) : Call → Option Cells
  | .put k v => HashMap.put N arr k v
  | .get k => (HashMap.get N arr k).map fun _ => arr
  | .remove k => HashMap.remove N arr k

/-- The cells after a history of calls on a new map; none where a call used an index outside of the vector or a null pointer. -/
def cellsAfter (N : Nat) (calls : List Call) : Option Cells := calls.foldlM (exec N) emptyCells

/-- The last `put` of the key stored this value, and the key was not removed since. -/
def LastPut (calls : List Call) (k v : Int) : Prop := Since (· = .put k v) (fun c => c = .remove k ∨ ∃ v', c = .put k v') calls

/-- The keys that have a value. -/
def present (calls : List Call) : Set Int := {k | ∃ v, LastPut calls k v}

/-- The histories the map is meant for. -/
structure Allowed (N : Nat) (calls : List Call) : Prop where
  keys : ∀ c ∈ calls, 0 ≤ c.key ∧ c.key ≤ 1000000
  room : ∀ before, before <+: calls → (present before).encard ≤ N

/-- No call leaves the vector or follows a null pointer, and every answer of `get` is right. -/
structure Correct (N : Nat) (calls : List Call) : Prop where
  outcome : ∃ arr, cellsAfter N calls = some arr
  answers : ∀ before k arr, before ++ [.get k] <+: calls → cellsAfter N before = some arr →
    ∃ v, get N arr k = some v ∧ (LastPut before k v ∨ (k ∉ present before ∧ v = -1))

theorem cellsAfter_append (N : Nat) (calls calls' : List Call) :
    cellsAfter N (calls ++ calls') = (cellsAfter N calls).bind fun arr => calls'.foldlM (exec N) arr := List.foldlM_append

theorem cellsAfter_snoc (N : Nat) (calls : List Call) (c : Call) :
    cellsAfter N (calls ++ [c]) = (cellsAfter N calls).bind fun arr => exec N arr c := by
  simp [cellsAfter_append]

/-- What the calls store: the contents of the map. -/
def store (M : Int → Option Int) : Call → Int → Option Int
  | .put k v => Function.update M k (some v)
  | .get _ => M
  | .remove k => Function.update M k none

def contents (calls : List Call) : Int → Option Int := calls.foldl store fun _ => none

@[simp] theorem contents_snoc (calls : List Call) (c : Call) : contents (calls ++ [c]) = store (contents calls) c := by
  rw [contents, foldl_concat]
  rfl

theorem contents_eq_some (calls : List Call) (k v : Int) : contents calls k = some v ↔ LastPut calls k v := by
  induction calls using List.reverseRecOn with
  | nil => exact iff_of_false (by simp [contents]) (not_since_nil _ _)
  | append_singleton calls c ih =>
    rw [LastPut, since_snoc, ← LastPut, ← ih]
    cases c with
    | put k' v' =>
      by_cases hk : k = k'
      · subst hk
        simp [store]
      · have hk' : k' ≠ k := fun h => hk h.symm
        simp [store, hk, hk']
    | get k' => simp [store]
    | remove k' =>
      by_cases hk : k = k'
      · subst hk
        simp [store]
      · have hk' : k' ≠ k := fun h => hk h.symm
        simp [store, hk, hk']

theorem contents_eq_none (calls : List Call) (k : Int) : contents calls k = none ↔ k ∉ present calls := by
  rw [eq_none_iff_forall_ne_some]
  simp [present, contents_eq_some]

theorem allowed_of_length {N : Nat} {calls : List Call} (hkeys : ∀ c ∈ calls, 0 ≤ c.key ∧ c.key ≤ 1000000) (hlen : calls.length ≤ N) :
    Allowed N calls where
  keys := hkeys
  room before hb := by
    apply encard_le_length Call.key (hb.length_le.trans hlen)
    rintro k ⟨v, hk⟩
    obtain ⟨c, hc, rfl⟩ := hk.exists_mem
    exact ⟨_, hc, rfl⟩

/-! ## One call -/

section Call

variable {N : Nat} {arr : Cells} {key value : Int}

theorem cellAt_nat {i : Nat} (hi : i < N) : cellAt N arr i = some (arr i) := by
  rw [cellAt, if_pos (by omega), Int.toNat_natCast]

/-- A key that is no index of the vector. -/
theorem put_of_ge (hN : 0 < N) (h : (N : Int) ≤ key) : put N arr key value = none := by
  have hrd : putRound N arr key value (home N key) = none := by
    rw [putRound, cellAt, if_neg (by omega)]
    rfl
  rw [put, probeLoops_first (home_lt hN key) hrd (by simp)]
  rfl

/-- The cell of a key with or without a value. -/
def cellOf (k : Int) : Option Int → Cell
  | none => ⟨-1, none⟩
  | some v => ⟨k, some v⟩

/-- Every key below `N` is in its own cell, and no other key is in the map. -/
structure Represents (N : Nat) (arr : Cells) (M : Int → Option Int) : Prop where
  cell : ∀ i < N, arr i = cellOf i (M i)
  outside : ∀ k, (N : Int) ≤ k → M k = none

variable {M : Int → Option Int}

theorem represents_empty (N : Nat) : Represents N emptyCells fun _ => none where
  cell _ _ := rfl
  outside _ _ := rfl

theorem Represents.update (h : Represents N arr M) {i : Nat} (hi : i < N) (o : Option Int) :
    Represents N (update arr i (cellOf i o)) (update M i o) where
  cell j hj := by
    by_cases hji : j = i
    · subst hji
      rw [update_self, update_self]
    · rw [update_of_ne hji, update_of_ne (by omega), h.cell j hj]
  outside k hk := by
    rw [update_of_ne (by omega)]
    exact h.outside k hk

section

variable (h : Represents N arr M) (h0 : 0 ≤ key)

include h h0

/-- A key without a value is in no cell. -/
theorem Represents.val_ne (hM : M key = none) {i : Nat} (hi : i < N) : (arr i).val ≠ key := by
  intro hv
  rw [h.cell i hi] at hv
  cases hMi : M i with
  | none =>
    rw [hMi] at hv
    simp only [cellOf] at hv
    omega
  | some v =>
    rw [hMi] at hv
    obtain rfl : (i : Int) = key := hv
    exact absurd (hMi.symm.trans hM) (by simp)

theorem Represents.exists_index {v : Int} (hM : M key = some v) :
    ∃ i : Nat, key = i ∧ i < N ∧ arr i = cellOf key (some v) := by
  have hkey : key < N := by
    by_contra hge
    rw [h.outside key (by omega)] at hM
    exact absurd hM (by simp)
  obtain ⟨i, rfl⟩ : ∃ i : Nat, key = i := ⟨key.toNat, by omega⟩
  have hi : i < N := by omega
  exact ⟨i, rfl, hi, by rw [h.cell i hi, hM]⟩

theorem Represents.put (hkey : key < N) (value : Int) :
    ∃ arr', HashMap.put N arr key value = some arr' ∧ Represents N arr' (Function.update M key (some value)) := by
  obtain ⟨i, rfl⟩ : ∃ i : Nat, key = i := ⟨key.toNat, by omega⟩
  have hi : i < N := by omega
  -- the first round ends the call: the cell is empty, or it is the key's own
  have hrd : putRound N arr i value i = some (some (Function.update arr i (cellOf i (some value)))) := by
    rw [putRound, cellAt_nat hi, h.cell i hi]
    cases hM : M i with
    | none => rfl
    | some v => simp [cellOf]
  refine ⟨_, ?_, h.update hi (some value)⟩
  rw [HashMap.put, home_natCast hi, probeLoops_first hi hrd (by simp)]
  rfl

end

theorem Represents.get (hN : 0 < N) (h : Represents N arr M) (h0 : 0 ≤ key) : HashMap.get N arr key = some ((M key).getD (-1)) := by
  cases hM : M key with
  | none =>
    have hrounds : ∀ i < N, getRound N arr key i = some none := by
      intro i hi
      simp [getRound, cellAt_nat hi, h.val_ne h0 hM hi]
    rw [HashMap.get, probeLoops_none (home_lt hN key).le hrounds]
    rfl
  | some v =>
    obtain ⟨i, rfl, hi, hc⟩ := h.exists_index h0 hM
    have hrd : getRound N arr i i = some (some v) := by simp [getRound, cellAt_nat hi, hc, cellOf]
    rw [HashMap.get, home_natCast hi, probeLoops_first hi hrd (by simp)]
    rfl

theorem Represents.remove (hN : 0 < N) (h : Represents N arr M) (h0 : 0 ≤ key) :
    ∃ arr', HashMap.remove N arr key = some arr' ∧ Represents N arr' (Function.update M key none) := by
  cases hM : M key with
  | none =>
    have hrounds : ∀ i < N, removeRound N arr key i = some none := by
      intro i hi
      simp [removeRound, cellAt_nat hi, h.val_ne h0 hM hi]
    refine ⟨arr, ?_, ?_⟩
    · rw [HashMap.remove, probeLoops_none (home_lt hN key).le hrounds]
      rfl
    · rwa [← hM, update_eq_self]
  | some v =>
    obtain ⟨i, rfl, hi, hc⟩ := h.exists_index h0 hM
    have hrd : removeRound N arr i i = some (some (Function.update arr i ⟨-1, none⟩)) := by
      simp [removeRound, cellAt_nat hi, hc, cellOf]
    refine ⟨_, ?_, h.update hi none⟩
    rw [HashMap.remove, home_natCast hi, probeLoops_first hi hrd (by simp)]
    rfl

end Call

/-! ## Whole histories -/

variable {N : Nat} {calls : List Call}

/-- Where every key that is put is an index of the vector, the calls have an outcome and the cells hold what the history stores. -/
theorem represents_contents (hN : 0 < N) (h0 : ∀ c ∈ calls, 0 ≤ c.key) (hput : ∀ k v, Call.put k v ∈ calls → k < N) :
    ∃ arr, cellsAfter N calls = some arr ∧ Represents N arr (contents calls) := by
  induction calls using List.reverseRecOn with
  | nil => exact ⟨emptyCells, rfl, represents_empty N⟩
  | append_singleton calls c ih =>
    obtain ⟨arr, harr, hrep⟩ := ih (fun d hd => h0 d (mem_append_left _ hd)) fun k v hkv => hput k v (mem_append_left _ hkv)
    have hkey : 0 ≤ c.key := h0 c (by simp)
    rw [cellsAfter_snoc, harr, bind_some, contents_snoc]
    cases c with
    | put k v => exact hrep.put hkey (hput k v (by simp)) v
    | get k =>
      have hget : HashMap.get N arr k = _ := hrep.get hN hkey
      refine ⟨arr, ?_, hrep⟩
      rw [exec, hget, map_some]
    | remove k => exact hrep.remove hN hkey

/-- The calls of an allowed history stay in the vector, follow no null pointer and answer every `get` rightly exactly when each key that is put
is an index of the vector. -/
theorem hashMap_correct_iff (calls : List Call) (h : Allowed size calls) :
    Correct size calls ↔ ∀ k v, Call.put k v ∈ calls → k < size := by
  have hN : 0 < size := by decide
  constructor
  · rintro ⟨⟨arr, harr⟩, -⟩ k v hkv
    by_contra hge
    obtain ⟨before, after, rfl⟩ := append_of_mem hkv
    rw [cellsAfter_append] at harr
    obtain ⟨arr', -, hrest⟩ := bind_eq_some_iff.mp harr
    rw [foldlM_cons, exec, put_of_ge hN (by omega)] at hrest
    exact absurd hrest (by simp)
  · intro hput
    have h0 : ∀ c ∈ calls, 0 ≤ c.key := fun c hc => (h.keys c hc).1
    constructor
    · obtain ⟨arr, harr, -⟩ := represents_contents hN h0 hput
      exact ⟨arr, harr⟩
    · intro before k arr hb harr
      have hpre : ∀ c ∈ before, c ∈ calls := fun c hc => hb.subset (mem_append_left _ hc)
      have hkey : 0 ≤ k := h0 (.get k) (hb.subset (by simp))
      obtain ⟨arr', harr', hrep⟩ := represents_contents hN (fun c hc => h0 c (hpre c hc)) fun k v hkv => hput k v (hpre _ hkv)
      obtain rfl : arr = arr' := some.inj (harr.symm.trans harr')
      refine ⟨_, hrep.get hN hkey, ?_⟩
      cases hM : contents before k with
      | none => exact .inr ⟨(contents_eq_none before k).mp hM, rfl⟩
      | some v => exact .inl ((contents_eq_some before k v).mp hM)

theorem hashMap_correct_small : Correct size [.put 3 30, .get 3, .remove 3, .get 10010] := by
  refine (hashMap_correct_iff _ (allowed_of_length (by decide) (by decide))).mpr ?_
  intro k v hkv
  obtain ⟨rfl, -⟩ : k = 3 ∧ v = 30 := by simpa using hkv
  decide

/-- The first key that is no index of the vector. -/
theorem hashMap_put_outside :
    Allowed size [.put 10007 1] ∧ cellsAfter size [.put 10007 1] = none ∧ ¬Correct size [.put 10007 1] := by
  have hnone : cellsAfter size [.put 10007 1] = none := by
    rfl
  refine ⟨allowed_of_length (by decide) (by decide), hnone, ?_⟩
  rintro ⟨⟨arr, harr⟩, -⟩
  rw [hnone] at harr
  exact absurd harr (by simp)

end CsLearning.DsAlgo.HashMap
