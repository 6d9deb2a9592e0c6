import CsLearning.Lib.Borders
import CsLearning.Lib.Cells
import CsLearning.Lib.Loop
import CsLearning.Lib.Word

/-!
# String matching by Knuth, Morris and Pratt

`match` and `buildNext` of `数组和字符串.md`, with the assignment to `N[j]` as it stands and with the improvement that its comment gives.

Both tables are admissible, so that a fall back never goes past a prefix that could go on. `match` then comes to the same states after every character
of the text: the longest prefix of the pattern that ends what was read.
-/

open List Option Function Nat

namespace CsLearning.DsAlgo.Kmp

variable {α : Type} [DecidableEq α]

/-! ## The code -/

/-- `0 > j || S[i] == P[j]`. -/
def agrees (S P : List α) (i j : Int) : Option Bool :=
  if 0 > j then some true
  else do
    let a : α ← S[i.toNat]?
    let b : α ← P[j.toNat]?
    return a == b

/-- The variables of `buildNext`. -/
structure NextState where
  N : Cells Int
  j : Nat
  t : Int

/-- `N[j] = v` for a block of `m` elements. -/
def assign (N : Cells Int) (m j : Nat) (v : Int) : Option (Cells Int) := if j < m then some (Function.update N j (some v)) else none

/-- What is assigned to `N[j]`: `t`, or `P[j] != P[t] ? t : N[t]`. -/
def entry (improved : Bool) (P : List α) (N : Cells Int) (j : Nat) (t : Int) : Option Int :=
  if improved then do
    let a : α ← P[j]?
    let b : α ← P[t.toNat]?
    if a ≠ b then some t else N t.toNat
  else some t

/-- One round of the loop of `buildNext`. -/
def nextRound (improved : Bool) (P : List α) (s : NextState) : Option (Round NextState (Cells Int)) :=
  if s.j < P.length - 1 then do
    if ← agrees P P s.j s.t then
      let t ← Word.incr s.t
      let v ← entry improved P s.N (s.j + 1) t
      let N ← assign s.N P.length (s.j + 1) v
      return .again ⟨N, s.j + 1, t⟩
    else
      let t ← s.N s.t.toNat
      return .again { s with t }
  else some (.stop s.N)

/-- `buildNext(P)`, with at most `n` rounds of its loop. -/
def buildNext (improved : Bool) (n : Nat) (P : List α) : Option (Cells Int) := do
  let N ← assign (fun _ => none) P.length 0 (-1)
  loop (nextRound improved P) n ⟨N, 0, -1⟩

/-- One round of the loop of `match`, in which `i` and `j` are the variables. -/
def matchRound (next : Cells Int) (P S : List α) : Int × Int → Option (Round (Int × Int) Int)
  | (i, j) =>
    if j < P.length ∧ i < S.length then do
      if ← agrees S P i j then
        return .again (← Word.incr i, ← Word.incr j)
      else
        return .again (i, ← next j.toNat)
    else some (.stop (i - j))

/-- `match(P, S)`, with at most `n` rounds of each loop. -/
def kmpMatch (improved : Bool) (n : Nat) (P S : List α) : Option Int := do
  let next ← buildNext improved n P
  loop (matchRound next P S) n (0, 0)

/-! ## One comparison -/

variable {P S : List α} {improved : Bool}

/-- The comparison tells whether the prefix of length `j` goes on with the element of the text. -/
theorem agrees_eq {i : Nat} {j : Int} {x : α} (hx : S[i]? = some x) (hj : j < P.length) :
    ∃ b, agrees S P i j = some b ∧ (b = true → 0 ≤ j → P[j.toNat]? = some x) ∧ (b = false → 0 ≤ j ∧ P[j.toNat]? ≠ some x) := by
  unfold agrees
  by_cases hneg : 0 > j
  · rw [if_pos hneg]
    exact ⟨true, rfl, fun _ h => absurd h (by omega), fun h => by cases h⟩
  · have hP : P[j.toNat]? = some P[j.toNat] := getElem?_eq_getElem (by omega)
    rw [if_neg hneg, Int.toNat_natCast, hx, hP]
    refine ⟨x == P[j.toNat], rfl, ?_, ?_⟩
    · intro heq _
      rw [eq_of_beq heq]
    · grind

/-! ## The table -/

/-- The table up to `j` has admissible values, and without the improvement the longest borders. -/
structure Table (improved : Bool) (P : List α) (N : Cells Int) (j : Nat) : Prop where
  first : N 0 = some (-1)
  admissible : ∀ k ≤ j, ∃ v, N k = some v ∧ Admissible P k v
  longest : improved = false → ∀ k, 0 < k → k ≤ j → ∃ t : Nat, N k = some (t : Int) ∧ IsGreatest {b | Border P k b} t

omit [DecidableEq α] in
theorem Table.init (improved : Bool) (P : List α) : Table improved P (Function.update (fun _ => none) 0 (some (-1))) 0 where
  first := update_self ..
  admissible := by
    intro k hk
    obtain rfl : k = 0 := by omega
    exact ⟨-1, update_self .., admissible_zero P⟩
  longest := by
    intro _ k hpos hk
    omega

omit [DecidableEq α] in
theorem Table.update {N : Cells Int} {j : Nat} {v : Int} (h : Table improved P N j) (hv : Admissible P (j + 1) v)
    (hlongest : improved = false → ∃ t : Nat, v = t ∧ IsGreatest {b | Border P (j + 1) b} t) :
    Table improved P (Function.update N (j + 1) (some v)) (j + 1) where
  first := by rw [update_of_ne (by omega), h.first]
  admissible := by
    intro k hk
    rcases lt_or_eq_of_le hk with hlt | rfl
    · rw [update_of_ne (by omega)]
      exact h.admissible k (by omega)
    · exact ⟨v, update_self .., hv⟩
  longest := by
    intro himproved k hpos hk
    rcases lt_or_eq_of_le hk with hlt | rfl
    · rw [update_of_ne (by omega)]
      exact h.longest himproved k hpos (by omega)
    · grind

theorem entry_eq {N : Cells Int} {j t : Nat} (h : Table improved P N j) (hj : j + 1 < P.length) (ht : IsGreatest {b | Border P (j + 1) b} t) :
    ∃ v, entry improved P N (j + 1) t = some v ∧ Admissible P (j + 1) v ∧ (improved = false → v = t) := by
  cases improved with
  | false => exact ⟨t, rfl, Admissible.of_isGreatest ht, fun _ => rfl⟩
  | true =>
    have htj : t < j + 1 := ht.1.1
    have hPj : P[j + 1]? = some P[j + 1] := getElem?_eq_getElem hj
    have hPt : P[t]? = some P[t] := getElem?_eq_getElem (by omega)
    unfold entry
    simp only [Int.toNat_natCast, hPj, hPt, bind_eq_bind, bind_some]
    by_cases hne : P[j + 1] ≠ P[t]
    · rw [if_pos hne]
      exact ⟨t, rfl, Admissible.of_isGreatest ht, fun h => by cases h⟩
    · rw [if_neg hne]
      obtain ⟨v, hv, hadm⟩ := h.admissible t (by omega)
      refine ⟨v, hv, hadm.skip ht ?_, fun h => by cases h⟩
      rw [hPt, hPj, not_not.mp hne]

/-- The invariant of the loop of `buildNext`. -/
structure NextInv (improved : Bool) (P : List α) (s : NextState) : Prop where
  table : Table improved P s.N s.j
  frontier : ∃ x, P[s.j]? = some x ∧ Frontier P (Border P s.j) x s.t

/-- Decreases in every round: `j` grows, or `t` falls back. -/
def nextMeasure (P : List α) (s : NextState) : Nat := 2 * (P.length - s.j) + (s.t + 1).toNat

theorem nextRound_step {s : NextState} (hlen : P.length < 2 ^ 31) (h : NextInv improved P s) :
    (∃ N, nextRound improved P s = some (.stop N) ∧ Table improved P N (P.length - 1)) ∨
    ∃ s', nextRound improved P s = some (.again s') ∧ NextInv improved P s' ∧ nextMeasure P s' < nextMeasure P s := by
  obtain ⟨N, j, t⟩ := s
  obtain ⟨htab, x, hx, hfront⟩ := h
  dsimp only at htab hx hfront
  have hlower := hfront.lower
  have htj : t < j := by
    by_cases ht : 0 ≤ t
    · have hlt := (hfront.mem ht).1
      omega
    · omega
  unfold nextRound
  by_cases hmore : j < P.length - 1
  · right
    obtain ⟨b, hb, htrue, hf⟩ := agrees_eq hx (by omega : t < P.length)
    simp only [if_pos hmore, hb, bind_eq_bind]
    cases b with
    | true =>
      have hmax : IsGreatest {k | Border P (j + 1) k} (t + 1).toNat := hfront.succ (border_zero P j) (fun k => border_succ_iff hx) (htrue rfl)
      have hin : j + 1 < P.length := by omega
      obtain ⟨v, hv, hadm, hpl⟩ := entry_eq htab hin hmax
      have hcast : ((t + 1).toNat : Int) = t + 1 := by omega
      rw [hcast] at hv hpl
      have hassign : assign N P.length (j + 1) v = some (update N (j + 1) (some v)) := if_pos hin
      simp only [Word.incr_of_lt (by omega : t + 1 < 2 ^ 31), hv, hassign, bind_some]
      refine ⟨_, rfl, ⟨htab.update hadm ?_, P[j + 1], getElem?_eq_getElem hin, ?_⟩, ?_⟩
      · grind
      · grind [Frontier.of_isGreatest]
      · simp only [nextMeasure]
        omega
    | false =>
      obtain ⟨hpos, hne⟩ := hf rfl
      obtain ⟨v, hv, hadm⟩ := htab.admissible t.toNat (by omega)
      have hlt := hadm.lt
      simp only [hv]
      refine ⟨_, rfl, ⟨htab, x, hx, hfront.fall (nested_border P j) hpos hne hadm⟩, ?_⟩
      simp only [nextMeasure]
      omega
  · grind

theorem buildNext_spec (hP : P ≠ []) (hlen : P.length < 2 ^ 31) (improved : Bool) :
    ∃ N, (∃ n₀, ∀ n ≥ n₀, buildNext improved n P = some N) ∧ Table improved P N (P.length - 1) := by
  have hpos := length_pos_of_ne_nil hP
  have hassign : assign (fun _ => none) P.length 0 (-1) = some (update (fun _ => none) 0 (some (-1))) := if_pos hpos
  have hinit : NextInv improved P ⟨update (fun _ => none) 0 (some (-1)), 0, -1⟩ := by
    refine ⟨Table.init improved P, P[0], getElem?_eq_getElem hpos, ?_⟩
    exact ⟨le_refl _, fun h => absurd h (by decide), fun k hk => absurd hk.1 (not_lt_zero k)⟩
  have hrd := fun s (hs : NextInv improved P s) => nextRound_step hlen hs
  obtain ⟨N, ⟨n₀, hN⟩, htab⟩ := Returns.of_invariant (measure (nextMeasure P)).wf hrd hinit
  refine ⟨N, ⟨n₀, ?_⟩, htab⟩
  intro n hn
  rw [buildNext, hassign]
  exact loop_mono hN hn

/-! ## The search -/

/-- The states of the loop of `match`: after a character was read, `j` is the longest prefix of the pattern that ends what was read; after `j` fell
back, no longer prefix goes on with the next character. There was no occurrence before. -/
inductive MatchInv (P S : List α) : Int × Int → Prop where
  | read (i j : Nat) (hi : i ≤ S.length) (hj : IsGreatest {k | Ends P (S.take i) k} j) (hnone : ∀ p < i, ¬Ends P (S.take p) P.length) :
      MatchInv P S (i, j)
  | fell (i : Nat) (j : Int) (x : α) (hx : S[i]? = some x) (hlt : j < P.length) (hj : Frontier P (Ends P (S.take i)) x j)
      (hnone : ∀ p ≤ i, ¬Ends P (S.take p) P.length) : MatchInv P S (i, j)

/-- Where the search stops: at the end of the first occurrence, or at the end of the text. -/
def Stops (P S : List α) (r : Int) : Prop :=
  ∃ i j : Nat, r = i - j ∧ i ≤ S.length ∧ IsGreatest {k | Ends P (S.take i) k} j ∧ (∀ p < i, ¬Ends P (S.take p) P.length) ∧
    (j = P.length ∨ i = S.length)

/-- Decreases in every round: `i` grows, or `j` falls back. -/
def matchMeasure (S : List α) (s : Int × Int) : Nat := 2 * (S.length - s.1).toNat + (s.2 + 1).toNat

variable {next : Cells Int}

section

variable (hnext : ∀ j < P.length, ∃ v, next j = some v ∧ Admissible P j v) (hPlen : P.length < 2 ^ 31) (hSlen : S.length < 2 ^ 31)

include hnext hPlen hSlen

theorem matchRound_frontier {i : Nat} {j : Int} {x : α} (hx : S[i]? = some x) (hlt : j < P.length)
    (hj : Frontier P (Ends P (S.take i)) x j) (hnone : ∀ p ≤ i, ¬Ends P (S.take p) P.length) :
    ∃ s', matchRound next P S (i, j) = some (.again s') ∧ MatchInv P S s' ∧ matchMeasure S s' < matchMeasure S (i, j) := by
  obtain ⟨hi, -⟩ := List.getElem?_eq_some_iff.mp hx
  have hlower := hj.lower
  obtain ⟨b, hb, htrue, hf⟩ := agrees_eq hx hlt
  unfold matchRound
  simp only [if_pos (by omega : j < P.length ∧ (i : Int) < S.length), hb, bind_eq_bind]
  cases b with
  | true =>
    have hmax : IsGreatest {k | Ends P (S.take (i + 1)) k} (j + 1).toNat := hj.succ (ends_zero P _) (fun k => ends_succ_iff hx) (htrue rfl)
    have hcast : (((i + 1 : Nat) : Int), ((j + 1).toNat : Int)) = ((i : Int) + 1, j + 1) := by
      rw [Prod.mk.injEq]
      omega
    simp only [Word.incr_of_lt (by omega : (i : Int) + 1 < 2 ^ 31), Word.incr_of_lt (by omega : j + 1 < 2 ^ 31)]
    refine ⟨_, rfl, ?_, ?_⟩
    · rw [← hcast]
      exact .read (i + 1) (j + 1).toNat (by omega) hmax fun p hp => hnone p (by omega)
    · simp only [matchMeasure]
      omega
  | false =>
    obtain ⟨hpos, hne⟩ := hf rfl
    obtain ⟨v, hv, hadm⟩ := hnext j.toNat (by omega)
    have hvj := hadm.lt
    simp only [hv]
    refine ⟨_, rfl, .fell i v x hx (by omega) (hj.fall (nested_ends P _) hpos hne hadm) hnone, ?_⟩
    simp only [matchMeasure]
    omega

theorem matchRound_step {s : Int × Int} (h : MatchInv P S s) :
    (∃ r, matchRound next P S s = some (.stop r) ∧ Stops P S r) ∨
    ∃ s', matchRound next P S s = some (.again s') ∧ MatchInv P S s' ∧ matchMeasure S s' < matchMeasure S s := by
  cases h with
  | read i j hi hj hnone =>
    have hle : j ≤ P.length := hj.1.1
    by_cases hmore : j < P.length ∧ i < S.length
    · right
      have hx : S[i]? = some S[i] := getElem?_eq_getElem hmore.2
      refine matchRound_frontier hnext hPlen hSlen hx (by omega) (Frontier.of_isGreatest hj) ?_
      intro p hp
      rcases lt_or_eq_of_le hp with hlt | rfl
      · exact hnone p hlt
      · intro hends
        have hmax := hj.2 hends
        omega
    · left
      refine ⟨i - j, ?_, i, j, rfl, hi, hj, hnone, by omega⟩
      simp only [matchRound]
      rw [if_neg (by omega)]
  | fell i j x hx hlt hj hnone => exact Or.inr (matchRound_frontier hnext hPlen hSlen hx hlt hj hnone)

end

omit [DecidableEq α] in
theorem Stops.unique {r r' : Int} (h : Stops P S r) (h' : Stops P S r') : r = r' := by
  obtain ⟨i, j, rfl, hi, hj, hnone, hend⟩ := h
  obtain ⟨i', j', rfl, hi', hj', hnone', hend'⟩ := h'
  have hii : i = i' := by
    rcases lt_trichotomy i i' with hlt | rfl | hlt
    · -- an occurrence that ends at i would stop the second search there
      have hocc : j = P.length := by omega
      exact absurd (hocc ▸ hj.1) (hnone' i hlt)
    · rfl
    · have hocc : j' = P.length := by omega
      exact absurd (hocc ▸ hj'.1) (hnone i' hlt)
  subst hii
  rw [hj.unique hj']

omit [DecidableEq α] in
theorem Stops.least_or_none {r : Int} (hP : P ≠ []) (h : Stops P S r) :
    (∃ p : Nat, r = p ∧ IsLeast {p | P <+: S.drop p} p) ∨ (∀ p, ¬P <+: S.drop p) ∧ (S.length : Int) - P.length < r := by
  obtain ⟨i, j, rfl, hi, hj, hnone, hend⟩ := h
  have hpos := length_pos_of_ne_nil hP
  -- an occurrence at p ends in the text
  have hends : ∀ p, P <+: S.drop p → p + P.length ≤ S.length ∧ Ends P (S.take (p + P.length)) P.length := by
    grind [length_drop, ends_length_iff]
  by_cases hf : j = P.length
  · left
    subst hf
    obtain ⟨p, rfl, hocc⟩ := (ends_length_iff hi).mp hj.1
    refine ⟨p, by omega, hocc, ?_⟩
    intro q hq
    by_contra hlt
    exact hnone (q + P.length) (by omega) (hends q hq).2
  · right
    have hle : j ≤ P.length := hj.1.1
    refine ⟨?_, by omega⟩
    intro p hocc
    obtain ⟨hin, hP⟩ := hends p hocc
    rcases lt_or_eq_of_le hin with hlt | heq
    · exact hnone _ (by omega) hP
    · rw [heq, ← hend.resolve_left hf] at hP
      have hmax := hj.2 hP
      omega

theorem kmpMatch_spec (hP : P ≠ []) (hPlen : P.length < 2 ^ 31) (hSlen : S.length < 2 ^ 31) (improved : Bool) :
    ∃ r, (∃ n₀, ∀ n ≥ n₀, kmpMatch improved n P S = some r) ∧ Stops P S r := by
  obtain ⟨next, ⟨n1, hnext⟩, htab⟩ := buildNext_spec hP hPlen improved
  have hadm : ∀ j < P.length, ∃ v, next j = some v ∧ Admissible P j v := fun j hj => htab.admissible j (by omega)
  have hinit : MatchInv P S (0, 0) := by
    refine .read 0 0 (zero_le _) ⟨ends_zero P _, ?_⟩ fun p hp => absurd hp (not_lt_zero p)
    intro k hk
    exact Ends.le_length hk
  have hrd := fun s (hs : MatchInv P S s) => matchRound_step hadm hPlen hSlen hs
  obtain ⟨r, ⟨n2, hr⟩, hstops⟩ := Returns.of_invariant (measure (matchMeasure S)).wf hrd hinit
  refine ⟨r, ⟨max n1 n2, ?_⟩, hstops⟩
  intro n hn
  rw [kmpMatch, hnext n (by omega)]
  exact loop_mono hr (by omega)

/-- `buildNext` returns a table with -1 and the longest borders, and `match` returns the first index at which the pattern occurs, or a value behind
all indices at which it could. With the improved assignment, `match` returns the same. -/
theorem kmp_correct {P S : List α} (hP : P ≠ []) (hPlen : P.length < 2 ^ 31) (hSlen : S.length < 2 ^ 31) :
    ∃ n₀, ∀ n ≥ n₀,
      (∃ N, buildNext false n P = some N ∧ N 0 = some (-1) ∧
        ∀ j, 0 < j → j < P.length → ∃ k : Nat, N j = some (k : Int) ∧ IsGreatest {b | Border P j b} k) ∧
      ∃ r, kmpMatch false n P S = some r ∧ kmpMatch true n P S = some r ∧
        ((∃ p : Nat, r = p ∧ IsLeast {p | P <+: S.drop p} p) ∨ (∀ p, ¬P <+: S.drop p) ∧ (S.length : Int) - P.length < r) := by
  obtain ⟨N, ⟨n1, hN⟩, htable⟩ := buildNext_spec hP hPlen false
  obtain ⟨r, ⟨n2, hr⟩, hstops⟩ := kmpMatch_spec hP hPlen hSlen false
  obtain ⟨r', ⟨n3, hr'⟩, hstops'⟩ := kmpMatch_spec hP hPlen hSlen true
  obtain rfl := hstops.unique hstops'
  refine ⟨max n1 (max n2 n3), ?_⟩
  intro n hn
  refine ⟨⟨N, hN n (by omega), htable.first, ?_⟩, r, hr n (by omega), hr' n (by omega), hstops.least_or_none hP⟩
  intro j hpos hj
  exact htable.longest rfl j hpos (by omega)

/-- The pattern `aab` in the text `aaab`. -/
theorem kmp_correct_aab : ∃ n₀, ∀ n ≥ n₀, ∃ r, kmpMatch false n ['a', 'a', 'b'] ['a', 'a', 'a', 'b'] = some r ∧
    kmpMatch true n ['a', 'a', 'b'] ['a', 'a', 'a', 'b'] = some r := by
  obtain ⟨n₀, h⟩ := kmp_correct (by decide : ['a', 'a', 'b'] ≠ []) (by decide) (by decide : ['a', 'a', 'a', 'b'].length < 2 ^ 31)
  refine ⟨n₀, ?_⟩
  intro n hn
  obtain ⟨-, r, hr, hr', -⟩ := h n hn
  exact ⟨r, hr, hr'⟩

end CsLearning.DsAlgo.Kmp
