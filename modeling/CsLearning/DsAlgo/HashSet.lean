import CsLearning.Lib.Probing

/-!
# The hash set with linear probing

`MyHashSet` of `hash_table.md`: a table of `N` cells, each empty (-1) or holding a key. A key is looked for from the cell `key % N` on, around the
whole table; a removed key leaves an empty cell behind.

`add` stops at the first empty cell, also where the key stands in a later one, and its second loop does not compare the keys it passes. The table
holds the keys of the history, each in one cell, exactly when every key that is added again is found before an empty cell.
-/

open List Function Set

namespace CsLearning.DsAlgo.HashSet

/-- The cells of the table; those from `N` on are never used. -/
abbrev Table := Nat → Int

/-- The number of cells. -/
def size : Nat := 10007

/-- The table the constructor makes. -/
def emptyTable : Table := fun _ => -1

def add (N : Nat) (arr : Table) (key : Int) : Table :=
  match firstFrom (fun i => arr i == -1 || arr i == key) (home N key) N with
  | some i => if arr i = -1 then Function.update arr i key else arr
  | none =>
    match firstFrom (fun i => arr i == -1) 0 (home N key) with
    | some i => Function.update arr i key
    | none => arr

/-- The two loops that `remove` and `contains` share. -/
def lookup (N : Nat) (arr : Table) (key : Int) : Option Nat := probe (fun i => arr i == key) (home N key) N

def remove (N : Nat) (arr : Table) (key : Int) : Table :=
  match lookup N arr key with
  | some i => Function.update arr i (-1)
  | none => arr

def contains (N : Nat) (arr : Table) (key : Int) : Bool := (lookup N arr key).isSome

/-! ## Histories -/

inductive Call where
  | add (key : Int)
  | remove (key : Int)
  | contains (key : Int)
  deriving DecidableEq, Repr

def Call.key : Call → Int
  | .add k => k
  | .remove k => k
  | .contains k => k

def exec (N : Nat) (arr : Table) : Call → Table
  | .add k => HashSet.add N arr k
  | .remove k => HashSet.remove N arr k
  | .contains _ => arr

/-- The table after a history of calls on a new set. -/
def tableAfter (N : Nat) (calls : List Call) : Table := calls.foldl (exec N) emptyTable

/-- The keys that were added and not removed since. -/
def present (calls : List Call) : Set Int := {k | Since (· = .add k) (· = .remove k) calls}

/-- No key stands in two cells. -/
def Once (N : Nat) (arr : Table) : Prop := ∀ i < N, ∀ j < N, arr i = arr j → arr i ≠ -1 → i = j

/-- The histories the set is meant for. -/
structure Allowed (N : Nat) (calls : List Call) : Prop where
  keys : ∀ c ∈ calls, 0 ≤ c.key ∧ c.key ≤ 1000000
  room : ∀ before, before <+: calls → (present before).encard ≤ N

/-- Every answer of `contains` is right, and no key ever stands in two cells. -/
structure Correct (N : Nat) (calls : List Call) : Prop where
  answers : ∀ before k, before ++ [.contains k] <+: calls → (contains N (tableAfter N before) k = true ↔ k ∈ present before)
  once : ∀ before, before <+: calls → Once N (tableAfter N before)

/-- Wherever the key stands, no empty cell comes before it on the way from its home cell to the end of the table, or no cell is empty at all. -/
def Found (N : Nat) (arr : Table) (key : Int) : Prop :=
  ∀ c < N, arr c = key → (home N key ≤ c ∧ ∀ i, home N key ≤ i → i < c → arr i ≠ -1) ∨ ∀ i < N, arr i ≠ -1

@[simp] theorem tableAfter_snoc (N : Nat) (calls : List Call) (c : Call) : tableAfter N (calls ++ [c]) = exec N (tableAfter N calls) c := by
  rw [tableAfter, foldl_concat]
  rfl

@[simp] theorem present_nil : present [] = ∅ := by
  ext k
  exact iff_of_false (not_since_nil _ _) id

@[simp] theorem present_add (calls : List Call) (k : Int) : present (calls ++ [.add k]) = insert k (present calls) := by
  ext j
  simp only [present, mem_ofPred_eq, mem_insert_iff, since_snoc, Call.add.injEq, reduceCtorEq, not_false_iff, and_true]
  rw [eq_comm]

@[simp] theorem present_remove (calls : List Call) (k : Int) : present (calls ++ [.remove k]) = present calls \ {k} := by
  ext j
  simp only [present, mem_ofPred_eq, mem_sdiff, mem_singleton_iff, since_snoc, Call.remove.injEq, reduceCtorEq, false_or]
  rw [eq_comm]

@[simp] theorem present_contains (calls : List Call) (k : Int) : present (calls ++ [.contains k]) = present calls := by
  simp [present, since_snoc]

theorem allowed_of_length {N : Nat} {calls : List Call} (hkeys : ∀ c ∈ calls, 0 ≤ c.key ∧ c.key ≤ 1000000) (hlen : calls.length ≤ N) :
    Allowed N calls where
  keys := hkeys
  room before hb := by
    apply encard_le_length Call.key (hb.length_le.trans hlen)
    intro k hk
    obtain ⟨c, hc, rfl⟩ := hk.exists_mem
    exact ⟨_, hc, rfl⟩

/-! ## One call -/

section Call

variable {N : Nat} {arr : Table} {key : Int}

theorem lookup_eq_none (hN : 0 < N) : lookup N arr key = none ↔ ∀ i < N, arr i ≠ key := by
  rw [lookup, probe_eq_none (home_lt hN key).le]
  simp only [beq_eq_false_iff_ne]

theorem of_lookup_eq_some (hN : 0 < N) {i : Nat} (h : lookup N arr key = some i) : arr i = key ∧ i < N := by
  obtain ⟨hi, hlt⟩ := of_probe_eq_some (home_lt hN key).le h
  exact ⟨by simpa using hi, hlt⟩

theorem contains_iff (hN : 0 < N) : contains N arr key = true ↔ ∃ i < N, arr i = key := by
  rw [contains, Option.isSome_iff_ne_none, Ne, lookup_eq_none hN]
  push Not
  rfl

/-- What `add` can do: find the key, write it to an empty cell, or find the table full. -/
theorem add_cases (N : Nat) (arr : Table) (key : Int) :
    (∃ i, home N key ≤ i ∧ i < N ∧ arr i = key ∧ (∀ j, home N key ≤ j → j < i → arr j ≠ -1) ∧ add N arr key = arr) ∨
    (∃ i, home N key ≤ i ∧ i < N ∧ arr i = -1 ∧ (∀ j, home N key ≤ j → j < i → arr j ≠ key) ∧ add N arr key = update arr i key) ∨
    (∃ i < home N key, arr i = -1 ∧ (∀ j, home N key ≤ j → j < N → arr j ≠ key) ∧ add N arr key = update arr i key) ∨
    ((∀ i < N, arr i ≠ -1) ∧ add N arr key = arr) := by
  unfold add
  cases hfst : firstFrom (fun i => arr i == -1 || arr i == key) (home N key) N with
  | some i =>
    obtain ⟨hi, hge, hlt, hbef⟩ := firstFrom_eq_some.mp hfst
    by_cases hnil : arr i = -1
    · grind
    · grind
  | none =>
    have hn := firstFrom_eq_none.mp hfst
    simp only [Bool.or_eq_false_iff, beq_eq_false_iff_ne] at hn
    cases hsnd : firstFrom (fun i => arr i == -1) 0 (home N key) with
    | some i =>
      obtain ⟨hi, -, hlt, -⟩ := firstFrom_eq_some.mp hsnd
      exact .inr (.inr (.inl ⟨i, hlt, by simpa using hi, fun j h1 h2 => (hn j h1 h2).2, rfl⟩))
    | none =>
      have hn' := firstFrom_eq_none.mp hsnd
      simp only [beq_eq_false_iff_ne] at hn'
      refine .inr (.inr (.inr ⟨fun i hi => ?_, rfl⟩))
      rcases Nat.lt_or_ge i (home N key) with hlt | hge
      · exact hn' i (Nat.zero_le i) hlt
      · exact (hn i hge hi).1

/-- A key that is in the table is written again exactly when it is not found before an empty cell. -/
theorem add_present (hN : 0 < N) (hkey : key ≠ -1) (honce : Once N arr) {c : Nat} (hc : c < N) (hk : arr c = key) :
    (Found N arr key ∧ add N arr key = arr) ∨
    (¬Found N arr key ∧ ∃ i < N, arr i = -1 ∧ add N arr key = update arr i key) := by
  have hlt := home_lt hN key
  rcases add_cases N arr key with ⟨i, hge, hi, hik, hbef, hadd⟩ | ⟨i, hge, hi, hnil, hbef, hadd⟩ | ⟨i, hi, hnil, hbef, hadd⟩ |
    ⟨hfull, hadd⟩
  · refine .inl ⟨?_, hadd⟩
    intro c' hc' hk'
    obtain rfl : c' = i := honce c' hc' i hi (hk'.trans hik.symm) (hk' ▸ hkey)
    exact .inl ⟨hge, hbef⟩
  · refine .inr ⟨?_, i, hi, hnil, hadd⟩
    intro hf
    rcases hf c hc hk with ⟨hhome, hno⟩ | hno
    · -- the key is neither before nor after the empty cell
      rcases Nat.lt_or_ge c i with hci | hic
      · exact hbef c hhome hci hk
      · grind
    · exact hno i hi hnil
  · refine .inr ⟨?_, i, by omega, hnil, hadd⟩
    intro hf
    rcases hf c hc hk with ⟨hhome, -⟩ | hno
    · exact hbef c hhome hc hk
    · exact hno i (by omega) hnil
  · exact .inl ⟨fun c' _ _ => .inr hfull, hadd⟩

/-! ## The table and the set of its keys -/

/-- The table holds the keys of `S`, each in one cell. -/
structure Represents (N : Nat) (arr : Table) (S : Set Int) : Prop where
  mem_iff : ∀ k, k ∈ S ↔ k ≠ -1 ∧ ∃ i < N, arr i = k
  once : Once N arr

variable {S : Set Int}

theorem represents_empty (N : Nat) : Represents N emptyTable ∅ where
  mem_iff k := by
    refine iff_of_false id ?_
    rintro ⟨hk, i, -, rfl⟩
    exact hk rfl
  once i _ j _ _ hne := absurd rfl hne

theorem Represents.write (h : Represents N arr S) (hkey : key ≠ -1) (hnew : key ∉ S) {i : Nat} (hi : i < N) (hnil : arr i = -1) :
    Represents N (Function.update arr i key) (insert key S) where
  mem_iff k := by
    rw [Set.mem_insert_iff, h.mem_iff]
    constructor
    · rintro (rfl | ⟨hk, j, hj, rfl⟩)
      · exact ⟨hkey, i, hi, update_self _ _ _⟩
      · refine ⟨hk, j, hj, update_of_ne ?_ _ _⟩
        rintro rfl
        exact hk hnil
    · rintro ⟨hk, j, hj, rfl⟩
      by_cases hji : j = i
      · subst hji
        exact .inl (update_self _ _ _)
      · rw [update_of_ne hji] at hk ⊢
        exact .inr ⟨hk, j, hj, rfl⟩
  once a ha b hb hab hne := by
    have hother : ∀ j < N, arr j ≠ key := fun j hj hjk => hnew ((h.mem_iff key).mpr ⟨hkey, j, hj, hjk⟩)
    by_cases hai : a = i
    · grind
    · by_cases hbi : b = i
      · grind
      · rw [update_of_ne hai, update_of_ne hbi] at hab
        rw [update_of_ne hai] at hne
        exact h.once a ha b hb hab hne

theorem Represents.clear (h : Represents N arr S) {i : Nat} (hi : i < N) (hk : arr i = key) :
    Represents N (Function.update arr i (-1)) (S \ {key}) where
  mem_iff k := by
    rw [Set.mem_sdiff, h.mem_iff]
    constructor
    · rintro ⟨⟨hne, j, hj, rfl⟩, hjk⟩
      refine ⟨hne, j, hj, update_of_ne ?_ _ _⟩
      rintro rfl
      exact hjk hk
    · rintro ⟨hne, j, hj, rfl⟩
      have hji : j ≠ i := by
        rintro rfl
        exact hne (update_self _ _ _)
      rw [update_of_ne hji] at hne ⊢
      refine ⟨⟨hne, j, hj, rfl⟩, ?_⟩
      intro hjk
      exact hji (h.once j hj i hi (hjk.trans hk.symm) hne)
  once a ha b hb hab hne := by
    have hai : a ≠ i := by
      rintro rfl
      exact hne (update_self _ _ _)
    rw [update_of_ne hai] at hab hne
    by_cases hbi : b = i
    · rw [hbi, update_self] at hab
      exact absurd hab hne
    · rw [update_of_ne hbi] at hab
      exact h.once a ha b hb hab hne

theorem Represents.encard_of_full (h : Represents N arr S) (hf : ∀ i < N, arr i ≠ -1) : (N : ℕ∞) ≤ S.encard := by
  have hsub : ((Finset.range N).image arr : Set Int) ⊆ S := by
    intro k hk
    obtain ⟨i, hi, rfl⟩ := Finset.mem_image.mp (Finset.mem_coe.mp hk)
    exact (h.mem_iff _).mpr ⟨hf i (Finset.mem_range.mp hi), i, Finset.mem_range.mp hi, rfl⟩
  have hinj : Set.InjOn arr (Finset.range N) := by
    intro a ha b hb hab
    rw [Finset.mem_coe, Finset.mem_range] at ha hb
    exact h.once a ha b hb hab (hf a ha)
  have hcard := Finset.card_image_of_injOn hinj
  rw [Finset.card_range] at hcard
  rw [← hcard, ← encard_coe_eq_coe_finsetCard]
  exact encard_le_encard hsub

theorem Represents.add (hN : 0 < N) (h : Represents N arr S) (hkey : key ≠ -1) (hroom : (insert key S).encard ≤ N) (hf : Found N arr key) :
    Represents N (HashSet.add N arr key) (insert key S) := by
  by_cases hmem : key ∈ S
  · obtain ⟨-, c, hc, hk⟩ := (h.mem_iff key).mp hmem
    rcases add_present hN hkey h.once hc hk with ⟨-, hadd⟩ | ⟨hnot, -⟩
    · rw [hadd, insert_eq_of_mem hmem]
      exact h
    · exact absurd hf hnot
  · rcases add_cases N arr key with ⟨i, -, hi, hik, -, -⟩ | ⟨i, -, hi, hnil, -, hadd⟩ | ⟨i, hi, hnil, -, hadd⟩ | ⟨hfull, -⟩
    · exact absurd ((h.mem_iff key).mpr ⟨hkey, i, hi, hik⟩) hmem
    · rw [hadd]
      exact h.write hkey hmem hi hnil
    · rw [hadd]
      exact h.write hkey hmem (hi.trans (home_lt hN key)) hnil
    · -- a full table and one key more
      have hN' := h.encard_of_full hfull
      rw [encard_insert_of_notMem hmem] at hroom
      have hlt : (N : ℕ∞) + 1 ≤ N := (by gcongr : (N : ℕ∞) + 1 ≤ S.encard + 1).trans hroom
      exact absurd (by exact_mod_cast hlt : N + 1 ≤ N) (by omega)

theorem Represents.remove (hN : 0 < N) (h : Represents N arr S) : Represents N (HashSet.remove N arr key) (S \ {key}) := by
  unfold HashSet.remove
  cases hl : lookup N arr key with
  | some i =>
    obtain ⟨hk, hi⟩ := of_lookup_eq_some hN hl
    exact h.clear hi hk
  | none =>
    have hnot : key ∉ S := by
      intro hmem
      obtain ⟨-, i, hi, hk⟩ := (h.mem_iff key).mp hmem
      exact (lookup_eq_none hN).mp hl i hi hk
    rw [sdiff_singleton_eq_self hnot]
    exact h

theorem Represents.contains_iff (hN : 0 < N) (h : Represents N arr S) (hkey : key ≠ -1) : contains N arr key = true ↔ key ∈ S := by
  rw [HashSet.contains_iff hN, h.mem_iff]
  exact (and_iff_right hkey).symm

end Call

/-! ## Whole histories -/

variable {N : Nat} {calls : List Call}

theorem Allowed.of_prefix {before : List Call} (h : Allowed N calls) (hb : before <+: calls) : Allowed N before where
  keys c hc := h.keys c (hb.subset hc)
  room before' hb' := h.room before' (hb'.trans hb)

theorem Allowed.key_ne (h : Allowed N calls) {c : Call} (hc : c ∈ calls) : c.key ≠ -1 := by
  have := h.keys c hc
  omega

/-- Where every key added again is found, the table holds the keys of the history. -/
theorem represents_present (hN : 0 < N) (h : Allowed N calls) (hf : ∀ before k, before ++ [.add k] <+: calls → Found N (tableAfter N before) k) :
    Represents N (tableAfter N calls) (present calls) := by
  induction calls using List.reverseRecOn with
  | nil =>
    rw [present_nil]
    exact represents_empty N
  | append_singleton calls c ih =>
    have hpre : calls <+: calls ++ [c] := prefix_append _ _
    have hrep := ih (h.of_prefix hpre) fun before k hb => hf before k (hb.trans hpre)
    have hkey := h.key_ne (c := c) (by simp)
    rw [tableAfter_snoc]
    cases c with
    | add k =>
      have hroom := h.room _ (prefix_refl _)
      rw [present_add] at hroom ⊢
      exact hrep.add hN hkey hroom (hf calls k (prefix_refl _))
    | remove k =>
      rw [present_remove]
      exact hrep.remove hN
    | contains k =>
      rw [present_contains]
      exact hrep

/-- The hash set answers every `contains` of an allowed history rightly and keeps every key in one cell exactly when each `add` of a key that
stands in the table finds it before an empty cell. -/
theorem hashSet_correct_iff (calls : List Call) (h : Allowed size calls) :
    Correct size calls ↔ ∀ before k, before ++ [.add k] <+: calls → Found size (tableAfter size before) k := by
  have hN : 0 < size := by decide
  constructor
  · intro hcorrect before k hb
    have hpre : before <+: calls := (prefix_append _ _).trans hb
    have honce := hcorrect.once before hpre
    have honce' := hcorrect.once _ hb
    have hkey : k ≠ -1 := h.key_ne (c := .add k) (hb.subset (by simp))
    rw [tableAfter_snoc, exec] at honce'
    by_contra hnot
    -- the key stands in some cell, and `add` writes it to another
    obtain ⟨c, hc, hk⟩ : ∃ c < size, tableAfter size before c = k := by
      by_contra hno
      exact hnot fun c hc hk => absurd ⟨c, hc, hk⟩ hno
    rcases add_present hN hkey honce hc hk with ⟨hfound, -⟩ | ⟨-, i, hi, hempty, hadd⟩
    · exact hnot hfound
    · have hci : c ≠ i := by
        rintro rfl
        exact hkey (hk.symm.trans hempty)
      rw [hadd] at honce'
      refine hci (honce' c hc i hi ?_ ?_)
      · rw [update_of_ne hci, update_self, hk]
      · rwa [update_of_ne hci, hk]
  · intro hfound
    have hrep : ∀ before, before <+: calls → Represents size (tableAfter size before) (present before) := by
      intro before hb
      exact represents_present hN (h.of_prefix hb) fun b k hbk => hfound b k (hbk.trans hb)
    constructor
    · intro before k hb
      have hkey : k ≠ -1 := h.key_ne (c := .contains k) (hb.subset (by simp))
      exact (hrep before ((prefix_append _ _).trans hb)).contains_iff hN hkey
    · intro before hb
      exact (hrep before hb).once

/-- The second of two keys with the same home cell is added again: its cell comes right after the other's. -/
theorem hashSet_correct_again : Correct size [.add 0, .add 10007, .add 10007] := by
  refine (hashSet_correct_iff _ (allowed_of_length (by decide) (by decide))).mpr ?_
  have hone : ∀ c, update emptyTable 0 0 c ≠ 10007 := by
    intro c
    rw [update_apply]
    split_ifs
    · decide
    · simp [emptyTable]
  intro before k hb
  rcases before with _ | ⟨c₀, _ | ⟨c₁, _ | ⟨c₂, before⟩⟩⟩
  · -- the first key, to the empty table
    obtain rfl : k = 0 := by simpa using hb
    intro c _ hk
    exact absurd hk (by simp [tableAfter, emptyTable])
  · obtain ⟨rfl, rfl⟩ : c₀ = .add 0 ∧ k = 10007 := by simpa using hb
    intro c _ hk
    have htable : tableAfter size [.add 0] = update emptyTable 0 0 := rfl
    exact absurd (htable ▸ hk) (hone c)
  · obtain ⟨rfl, rfl, rfl⟩ : c₀ = .add 0 ∧ c₁ = .add 10007 ∧ k = 10007 := by simpa using hb
    intro c _ hk
    have htable : tableAfter size [.add 0, .add 10007] = update (update emptyTable 0 0) 1 10007 := rfl
    rw [htable] at hk ⊢
    have hc : c = 1 := by
      by_contra hne
      rw [update_of_ne hne] at hk
      exact hone c hk
    subst hc
    refine .inl ⟨by decide, ?_⟩
    intro i _ hi
    obtain rfl : i = 0 := by omega
    decide
  · have hlen := hb.length_le
    simp only [length_append, length_cons] at hlen
    omega

/-- The same key is added again after the other one was removed: it then stands in the cells 0 and 1, and is still there after `remove`. -/
theorem hashSet_twice :
    Allowed size [.add 0, .add 10007, .remove 0, .add 10007, .remove 10007, .contains 10007] ∧
    tableAfter size [.add 0, .add 10007, .remove 0, .add 10007] 0 = 10007 ∧
    tableAfter size [.add 0, .add 10007, .remove 0, .add 10007] 1 = 10007 ∧
    contains size (tableAfter size [.add 0, .add 10007, .remove 0, .add 10007, .remove 10007]) 10007 = true ∧
    ¬Correct size [.add 0, .add 10007, .remove 0, .add 10007, .remove 10007, .contains 10007] := by
  have h0 : tableAfter size [.add 0, .add 10007, .remove 0, .add 10007] 0 = 10007 := by decide
  have h1 : tableAfter size [.add 0, .add 10007, .remove 0, .add 10007] 1 = 10007 := by decide
  refine ⟨allowed_of_length (by decide) (by decide), h0, h1, by decide, ?_⟩
  intro hcorrect
  have honce := hcorrect.once [.add 0, .add 10007, .remove 0, .add 10007] (by decide)
  exact absurd (honce 0 (by decide) 1 (by decide) (h0.trans h1.symm) (by decide)) (by decide)

end CsLearning.DsAlgo.HashSet
