import CsLearning.Lib.Backtracking
import CsLearning.Lib.Loop

/-!
# Permutations of a vector with repeated numbers

Problem 47: the numbers are counted in a `map`, and a search goes through the map for each place of the permutation. Around the recursive call it
takes one from the count of the number and puts it back.
-/

open List Option Nat Prod

namespace CsLearning.LeetCode.PermuteUnique

/-- A `map<int, int>`, in the order of its keys. -/
abbrev Counts := List (Int × Nat)

/-- `++m[i]`. -/
def bump (i : Int) : Counts → Counts
  | [] => [(i, 1)]
  | p :: m => if i < p.1 then (i, 1) :: p :: m else if i = p.1 then (p.1, p.2 + 1) :: m else p :: bump i m

structure State where
  m : Counts
  path : List Int
  res : List (List Int)

/-- The body of the loop over the map for its entry number `j`, where `next` is the recursive call. -/
def body (next : State → Option State) (s : State) (j : Nat) : Option State := do
  let p ← s.m[j]?
  if p.2 = 0 then return s
  else
    let s ← next { s with m := s.m.set j (p.1, p.2 - 1), path := s.path ++ [p.1] }
    let p ← s.m[j]?
    let path ← popBack s.path
    return { s with m := s.m.set j (p.1, p.2 + 1), path := path }

/-- `backtrace(m, k, n, path, res)`, with calls of a depth less than `fuel`. -/
def backtrace : (fuel k n : Nat) → State → Option State
  | 0, _, _, _ => none
  | fuel + 1, k, n, s =>
    if k = n then some { s with res := s.res ++ [s.path] }
    else (List.range s.m.length).foldlM (body (backtrace fuel (k + 1) n)) s

/-- `permuteUnique(nums)`. -/
def permuteUnique (nums : List Int) : Option (List (List Int)) := do
  let m := nums.foldl (fun m i => bump i m) []
  let s ← backtrace (nums.length + 1) 0 nums.length ⟨m, [], []⟩
  return s.res

/-! ## Every call leaves the map and the path as they were -/

variable {fuel k n j : Nat} {s s' : State}

theorem set_of_getElem? {α : Type} {l : List α} {a : α} (h : l[j]? = some a) : l.set j a = l := by grind [set_getElem_self]

variable {next : State → Option State}

theorem body_restores (hn : ∀ s s', next s = some s' → s'.m = s.m ∧ s'.path = s.path)
    (h : body next s j = some s') : s'.m = s.m ∧ s'.path = s.path := by
  obtain ⟨p, hp, h⟩ := bind_eq_some_iff.1 h
  by_cases h0 : p.2 = 0
  · grind
  · rw [if_neg h0] at h
    obtain ⟨s₁, hc, h⟩ := bind_eq_some_iff.1 h
    obtain ⟨hm, hpath⟩ := hn _ _ hc
    have hj : j < s.m.length := (List.getElem?_eq_some_iff.1 hp).1
    have hb : s₁.m[j]? = some (p.1, p.2 - 1) := by rw [hm, getElem?_set_self hj]
    rw [hb] at h
    rw [hpath] at h
    simp only [popBack_concat] at h
    cases h
    refine ⟨?_, rfl⟩
    have hone : p.2 - 1 + 1 = p.2 := Nat.sub_add_cancel (Nat.pos_of_ne_zero h0)
    rw [hm, set_set, hone]
    exact set_of_getElem? hp

theorem foldlM_restores {f : State → Nat → Option State} (hf : ∀ s j s', f s j = some s' → s'.m = s.m ∧ s'.path = s.path) {js : List Nat}
    (h : js.foldlM f s = some s') : s'.m = s.m ∧ s'.path = s.path := by
  induction js generalizing s with
  | nil =>
    cases h
    exact ⟨rfl, rfl⟩
  | cons j js ih =>
    obtain ⟨s₁, hfst, hr⟩ := bind_eq_some_iff.1 h
    obtain ⟨hm, hpath⟩ := hf _ _ _ hfst
    obtain ⟨hm', hpath'⟩ := ih hr
    exact ⟨hm'.trans hm, hpath'.trans hpath⟩

theorem backtrace_restores (h : backtrace fuel k n s = some s') : s'.m = s.m ∧ s'.path = s.path := by
  induction fuel generalizing k s s' with
  | zero => cases h
  | succ fuel ih =>
    unfold backtrace at h
    split at h
    · cases h
      exact ⟨rfl, rfl⟩
    · exact foldlM_restores (fun s j s' hbody => body_restores (fun s s' hc => ih hc) hbody) h

/-! ## The map -/

variable {xs : List Int} {m : Counts} {i c : Int}

/-- The map holds how often each number is in the list. -/
structure Tally (xs : List Int) (m : Counts) : Prop where
  sorted : m.Pairwise (fun p q => p.1 < q.1)
  counts : ∀ p ∈ m, p.2 = xs.count p.1
  keys : ∀ c, c ∈ m.map Prod.fst ↔ c ∈ xs

theorem mem_keys_bump (i : Int) (m : Counts) : c ∈ (bump i m).map fst ↔ c = i ∨ c ∈ m.map fst := by
  induction m with
  | nil => simp [bump]
  | cons p m ih =>
    rw [bump]
    split_ifs with hlt heq
    · simp
    · simp [heq]
    · rw [map_cons, mem_cons, map_cons, mem_cons]
      tauto

theorem sorted_bump (h : m.Pairwise (fun p q => p.1 < q.1)) : (bump i m).Pairwise (fun p q => p.1 < q.1) := by
  induction m with
  | nil => exact pairwise_singleton _ _
  | cons p m ih =>
    obtain ⟨hp, hm⟩ := pairwise_cons.1 h
    rw [bump]
    split_ifs with hlt heq
    · refine pairwise_cons.2 ⟨?_, h⟩
      intro q hq
      rcases mem_cons.1 hq with hq | hq
      · rw [hq]
        exact hlt
      · exact hlt.trans (hp q hq)
    · exact pairwise_cons.2 ⟨hp, hm⟩
    · refine pairwise_cons.2 ⟨?_, ih hm⟩
      intro q hq
      rcases (mem_keys_bump i m).1 (mem_map_of_mem hq) with hi | hkey
      · omega
      · grind

/-- The entries after `++m[i]`, when `m` has the counts `f`, and zero for numbers without an entry. -/
theorem counts_bump {f : Int → Nat} (hf : ∀ p ∈ m, p.2 = f p.1) (hnew : i ∉ m.map fst → f i = 0)
    (hsort : m.Pairwise (fun p q => p.1 < q.1)) : ∀ p ∈ bump i m, p.2 = f p.1 + if i = p.1 then 1 else 0 := by
  induction m with
  | nil =>
    intro p hp
    rw [bump, mem_singleton] at hp
    rw [hp, if_pos rfl, hnew (by simp)]
  | cons q m ih =>
    obtain ⟨hq, hm⟩ := pairwise_cons.1 hsort
    have hfm : ∀ p ∈ m, p.2 = f p.1 := fun p hp => hf p (mem_cons_of_mem q hp)
    intro p hp
    rw [bump] at hp
    split_ifs at hp with hlt heq
    · rcases mem_cons.1 hp with hp | hp
      · have hnotMem : i ∉ (q :: m).map fst := by
          intro hmem
          obtain ⟨r, hr, hri⟩ := mem_map.1 hmem
          rcases mem_cons.1 hr with hr | hr
          · rw [← hri, hr] at hlt
            exact lt_irrefl _ hlt
          · have := hq r hr
            omega
        rw [hp, if_pos rfl, hnew hnotMem]
      · have hne : p.1 ≠ i := by
          rcases mem_cons.1 hp with hp | hp
          · rw [hp]
            exact hlt.ne'
          · exact (hlt.trans (hq p hp)).ne'
        rw [if_neg hne.symm, hf p hp, add_zero]
    · rcases mem_cons.1 hp with hp | hp
      · rw [hp, if_pos heq, hf q mem_cons_self]
      · have hne : p.1 ≠ i := by
          rw [heq]
          exact (hq p hp).ne'
        rw [if_neg hne.symm, hfm p hp, add_zero]
    · rcases mem_cons.1 hp with hp | hp
      · rw [hp, if_neg heq, hf q mem_cons_self, add_zero]
      · refine ih hfm ?_ hm p hp
        intro hmem
        apply hnew
        rw [map_cons, mem_cons, not_or]
        exact ⟨heq, hmem⟩

theorem Tally.bump (h : Tally xs m) (i : Int) : Tally (xs ++ [i]) (bump i m) := by
  refine ⟨sorted_bump h.sorted, ?_, ?_⟩
  · intro p hp
    have hnew : i ∉ m.map fst → xs.count i = 0 := fun hmem => count_eq_zero.2 fun hi => hmem ((h.keys i).2 hi)
    rw [counts_bump (f := fun c => xs.count c) h.counts hnew h.sorted p hp, count_append, count_singleton]
    simp only [beq_iff_eq]
  · intro c
    rw [mem_keys_bump, h.keys c, mem_append, mem_singleton]
    exact or_comm

theorem tally_foldl (nums : List Int) : Tally nums (nums.foldl (fun m i => PermuteUnique.bump i m) []) := by
  induction nums using reverseRecOn with
  | nil => exact ⟨Pairwise.nil, by simp, by simp⟩
  | append_singleton xs i ih =>
    rw [foldl_append]
    exact ih.bump i

/-! ## The search -/

/-- A number can be placed after those in the list. -/
def Left (nums cs : List Int) (c : Int) : Prop := cs.count c < nums.count c

/-- The map with the counts that are left. -/
def remaining (keys nums cs : List Int) : Counts := keys.map fun c => (c, nums.count c - cs.count c)

/-- The state of the search after the numbers `cs`. -/
def placed (keys nums cs : List Int) (res : List (List Int)) : State := ⟨remaining keys nums cs, cs, res⟩

variable {keys nums cs : List Int}

theorem map_set {α β : Type} {f g : α → β} {l : List α} {c : α} (hl : l.Nodup) (hj : l[j]? = some c) (hfg : ∀ d ∈ l, d ≠ c → f d = g d) :
    (l.map f).set j (g c) = l.map g := by
  induction l generalizing j with
  | nil => cases hj
  | cons a l ih =>
    obtain ⟨ha, hl⟩ := nodup_cons.1 hl
    cases j with
    | zero =>
      cases hj
      rw [map_cons, set_cons_zero]
      congr 1
      refine map_congr_left ?_
      intro d hd
      exact hfg d (mem_cons_of_mem c hd) fun heq => ha (heq ▸ hd)
    | succ j =>
      have hne : a ≠ c := fun heq => ha (heq ▸ mem_of_getElem? hj)
      rw [map_cons, set_cons_succ, map_cons, ih hl hj fun d hd => hfg d (mem_cons_of_mem a hd), hfg a mem_cons_self hne]

theorem remaining_take (nums cs : List Int) (hk : keys.Nodup) (hj : keys[j]? = some c) :
    (remaining keys nums cs).set j (c, nums.count c - cs.count c - 1) = remaining keys nums (cs ++ [c]) := by
  have hc : nums.count c - cs.count c - 1 = nums.count c - (cs ++ [c]).count c := by
    rw [count_append, count_singleton_self, Nat.sub_sub]
  rw [hc]
  refine map_set (g := fun d => (d, nums.count d - (cs ++ [c]).count d)) hk hj ?_
  intro d _ hne
  rw [count_append, count_singleton, if_neg (by simpa using hne.symm), Nat.add_zero]

theorem body_skip (h : s.m[j]? = some (c, 0)) : body next s j = some s := by
  unfold body
  rw [h]
  rfl

/-- The body of the loop around a call that leaves the map and the path as they were. -/
theorem body_call {v : Nat} {res : List (List Int)} (h : s.m[j]? = some (c, v + 1))
    (hn : next ⟨s.m.set j (c, v), s.path ++ [c], s.res⟩ = some ⟨s.m.set j (c, v), s.path ++ [c], res⟩) :
    body next s j = some ⟨s.m, s.path, res⟩ := by
  have hj : j < s.m.length := (List.getElem?_eq_some_iff.1 h).1
  have hentry : (s.m.set j (c, v))[j]? = some (c, v) := getElem?_set_self hj
  unfold body
  rw [h, bind_eq_bind, bind_some]
  simp only [Nat.add_sub_cancel, hn, bind_eq_bind, bind_some, hentry, popBack_concat, set_set, set_of_getElem? h]
  rfl

theorem flatMap_range_getElem? {α β : Type} (l : List α) (f : α → List β) : ((range l.length).flatMap fun j => l[j]?.elim [] f) = l.flatMap f := by
  induction l using reverseRecOn with
  | nil => rfl
  | append_singleton l a ih =>
    rw [length_append, length_singleton, range_succ, flatMap_append, flatMap_append]
    congr 1
    · grind [flatMap_congr]
    · simp

open Classical in
theorem level_spec {out : Int → List (List Int)} (hk : keys.Nodup) (hn : ∀ c ∈ keys, Left nums cs c → ∀ res,
      next (placed keys nums (cs ++ [c]) res) = some (placed keys nums (cs ++ [c]) (res ++ out c))) (res : List (List Int)) :
    (range keys.length).foldlM (body next) (placed keys nums cs res) =
      some (placed keys nums cs (res ++ keys.flatMap fun c => if Left nums cs c then out c else [])) := by
  have hbody : ∀ j ∈ range keys.length, ∀ res, body next (placed keys nums cs res) j =
      some (placed keys nums cs (res ++ keys[j]?.elim [] fun c => if Left nums cs c then out c else [])) := by
    intro j hj res
    obtain ⟨c, hc⟩ : ∃ c, keys[j]? = some c := ⟨_, getElem?_eq_getElem (mem_range.1 hj)⟩
    have hentry : (placed keys nums cs res).m[j]? = some (c, nums.count c - cs.count c) := by
      rw [placed, remaining, getElem?_map, hc]
      rfl
    rw [hc, elim_some]
    by_cases hl : Left nums cs c
    · rw [if_pos hl]
      obtain ⟨v, hv⟩ : ∃ v, nums.count c - cs.count c = v + 1 := Nat.exists_eq_succ_of_ne_zero (Nat.sub_ne_zero_of_lt hl)
      have ht := remaining_take nums cs hk hc
      rw [hv, Nat.add_sub_cancel] at ht
      rw [hv] at hentry
      refine body_call hentry ?_
      simp only [placed, ht]
      exact hn c (mem_of_getElem? hc) hl res
    · rw [if_neg hl, append_nil]
      rw [Nat.sub_eq_zero_of_le (Nat.le_of_not_lt hl)] at hentry
      exact body_skip hentry
  rw [foldlM_out (placed keys nums cs) hbody res, flatMap_range_getElem?]

theorem backtrace_spec (nums : List Int) (hk : keys.Nodup) (res : List (List Int)) :
    backtrace (nums.length + 1) 0 nums.length (placed keys nums [] res) =
      some (placed keys nums [] (res ++ completions (Left nums) keys nums.length [])) := by
  rw [← map_id (completions (Left nums) keys nums.length [])]
  refine search_completions (n := nums.length) (fun fuel cs s => backtrace fuel cs.length nums.length s) (placed keys nums) id ?_ ?_ []
    (by simp) (by simp) res
  · intro fuel cs res _ hlen
    simp only [backtrace, if_pos hlen]
    rfl
  · intro fuel cs res out _ hlt hn
    have hcs : ∀ c ∈ keys, Left nums cs c → ∀ res, backtrace fuel (cs.length + 1) nums.length (placed keys nums (cs ++ [c]) res) =
        some (placed keys nums (cs ++ [c]) (res ++ out c)) := by
      intro c hc hl res
      have hcall := hn c hc hl res
      rwa [length_append] at hcall
    have hlength : (placed keys nums cs res).m.length = keys.length := length_map _
    simp only [backtrace, if_neg hlt.ne, hlength]
    exact level_spec hk hcs res

/-! ## The lists that are found -/

/-- A list in which each number is left when it is placed has no number too often. -/
theorem count_le_of_left {x : List Int} (h : ∀ i c, x[i]? = some c → Left nums (x.take i) c) (c : Int) : x.count c ≤ nums.count c := by
  induction x using List.reverseRecOn with
  | nil => simp
  | append_singleton x d ih =>
    have hx : ∀ i c, x[i]? = some c → Left nums (x.take i) c := by
      intro i c hc
      have hi : i < x.length := (List.getElem?_eq_some_iff.1 hc).1
      have hl := h i c (by rw [getElem?_append_left hi, hc])
      rwa [take_append_of_le_length hi.le] at hl
    rw [count_append, count_singleton]
    by_cases hcd : d = c
    · have hlast := h x.length d (by simp)
      rw [take_left, hcd] at hlast
      rw [if_pos (by simpa using hcd)]
      exact hlast
    · rw [if_neg (by simpa using hcd)]
      exact ih hx

theorem mem_completions_iff_perm (hk : ∀ c, c ∈ keys ↔ c ∈ nums) (x : List Int) :
    x ∈ completions (Left nums) keys nums.length [] ↔ x.Perm nums := by
  rw [mem_completions]
  constructor
  · intro h
    obtain ⟨-, hlen, hall⟩ := h
    have hcnt : ∀ c, x.count c ≤ nums.count c := count_le_of_left fun i c hc => (hall i c (zero_le i) hc).2
    have hsub : x.Subperm nums := subperm_ext_iff.2 fun c _ => hcnt c
    exact hsub.perm_of_length_le (by rw [hlen]; simp)
  · intro h
    refine ⟨ nil_prefix, by simpa using h.length_eq, ?_⟩
    intro i c _ hc
    refine ⟨(hk c).2 (h.subset (mem_of_getElem? hc)), ?_⟩
    have hst : x.take i ++ [c] <+: x := by
      refine concat_prefix_iff.2 ⟨ take_prefix i x, ?_⟩
      rw [length_take, min_eq_left (List.getElem?_eq_some_iff.1 hc).1.le, hc]
    have hcnt := hst.sublist.count_le c
    rw [count_append, count_singleton_self, h.count_eq c] at hcnt
    exact hcnt

/-- The permutations are found once each and in ascending order, and a call that returns leaves the map and the path as they were. -/
theorem permuteUnique_lists (nums : List Int) :
    (∃ res, permuteUnique nums = some res ∧ res.Pairwise (· < ·) ∧ res.Nodup ∧ ∀ x, x ∈ res ↔ x.Perm nums) ∧
      ∀ fuel k n s s', backtrace fuel k n s = some s' → s'.m = s.m ∧ s'.path = s.path := by
  refine ⟨?_, fun fuel k n s s' h => backtrace_restores h⟩
  have htally := tally_foldl nums
  obtain ⟨m, hm⟩ : ∃ m, nums.foldl (fun m i => bump i m) [] = m := ⟨_, rfl⟩
  rw [hm] at htally
  have hsorted : (m.map fst).Pairwise (· < ·) := pairwise_map.2 htally.sorted
  have hnodup : (m.map fst).Nodup := hsorted.imp fun h => h.ne
  have hstart : m = remaining (m.map fst) nums [] := by
    rw [remaining, List.map_map]
    conv_lhs => rw [← List.map_id m]
    refine map_congr_left ?_
    intro p hp
    simp [← htally.counts p hp]
  refine ⟨completions (Left nums) (m.map fst) nums.length [], ?_, pairwise_lex_completions hsorted _ _, nodup_completions hnodup _ _,
    mem_completions_iff_perm htally.keys⟩
  unfold permuteUnique
  have hrun := backtrace_spec nums hnodup []
  rw [placed, ← hstart] at hrun
  simp only [hm, hrun]
  rfl

end CsLearning.LeetCode.PermuteUnique
