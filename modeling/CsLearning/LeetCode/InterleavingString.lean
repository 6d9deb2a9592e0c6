import CsLearning.Lib.Interleavings
import CsLearning.Lib.Tables
import CsLearning.Lib.Text

/-!
# Interleaving strings

Problem 97: a search that remembers for which pairs of positions it failed, and a table for the prefixes.

The search goes along suffixes. It reports success by the member `valid`; until then an entry of its table is `-1` or `0`, and `0` stands for
suffixes that do not interleave.
-/

open List Option Nat

namespace CsLearning.LeetCode.InterleavingString

/-! ## The search -/

/-- `s.size() - 1` as an unsigned number. -/
def sizeLess (s : Text) : Nat := if s.length = 0 then 2 ^ 64 - 1 else s.length - 1

/-- The members of `Solution`. -/
structure State where
  valid : Bool
  dp : Table Int

/-- `i < s.size() && s[i] == s3[k]`. -/
def next (s : Text) (i : Nat) (s3 : Text) (k : Nat) : Option Bool :=
  if i < s.length then do
    let a ← s[i]?
    let c ← s3[k]?
    return decide (a = c)
  else some false

/-- Both `if` statements of `dfs`, with their condition, the one for the end of the strings and the recursive call, and whether they return. -/
def follow (st : State) (i j : Nat) (here atEnd : Bool) (visit : State → Option State) : Option (State × Bool) :=
  if here then
    if atEnd then some ({ st with valid := true }, true)
    else do
      let st ← visit st
      if st.valid then
        let dp ← st.dp.set i j 1
        return ({ st with dp := dp }, true)
      else return (st, false)
  else some (st, false)

/-- `dfs(s1, i, s2, j, s3, k)`. -/
def dfs (s1 s2 s3 : Text) (i j k : Nat) (st : State) : Option State := do
  let memo ← st.dp i j
  if memo ≠ -1 then return st
  else
    let first ← next s1 i s3 k
    let (st, returned) ← follow st i j first (decide (sizeLess s1 = i ∧ s2.length = j ∧ sizeLess s3 = k)) fun st =>
      if k < sizeLess s3 then dfs s1 s2 s3 (i + 1) j (k + 1) st else some st
    if returned then return st
    else
      let second ← next s2 j s3 k
      let (st, returned) ← follow st i j second (decide (s1.length = i ∧ sizeLess s2 = j ∧ sizeLess s3 = k)) fun st =>
        if k < sizeLess s3 then dfs s1 s2 s3 i (j + 1) (k + 1) st else some st
      if returned then return st
      else
        let dp ← st.dp.set i j 0
        return { st with dp := dp }
termination_by sizeLess s3 - k

/-- `isInterleave(s1, s2, s3)` with the search. -/
def Dfs.isInterleave (s1 s2 s3 : Text) : Option Bool :=
  if 0 = s1.length ∧ 0 = s2.length ∧ 0 = s3.length then some true
  else if s1.length + s2.length ≠ s3.length then some false
  else do
    let st ← dfs s1 s2 s3 0 0 0 ⟨false, Table.const s1.length s2.length (-1)⟩
    return st.valid

/-! ## The table -/

/-- `b && s[i] == s3[k]`. -/
def extend (b : Bool) (s : Text) (i : Nat) (s3 : Text) (k : Nat) : Option Bool :=
  if b then do
    let a ← s[i]?
    let c ← s3[k]?
    return decide (a = c)
  else some false

/-- The body of the loop over the first column. -/
def fillColumn (s1 s3 : Text) (t : Table Bool) (i : Nat) : Option (Table Bool) := do
  let b ← t (i - 1) 0
  let v ← extend b s1 (i - 1) s3 (i - 1)
  t.set i 0 v

/-- The body of the loop over the first row. -/
def fillRow (s2 s3 : Text) (t : Table Bool) (j : Nat) : Option (Table Bool) := do
  let b ← t 0 (j - 1)
  let v ← extend b s2 (j - 1) s3 (j - 1)
  t.set 0 j v

/-- The body of the loops over the other cells. -/
def fillCell (s1 s2 s3 : Text) (i : Nat) (t : Table Bool) (j : Nat) : Option (Table Bool) := do
  let b ← t (i - 1) j
  let v ← extend b s1 (i - 1) s3 (i + j - 1)
  if v then t.set i j true
  else
    let b ← t i (j - 1)
    let v ← extend b s2 (j - 1) s3 (i + j - 1)
    t.set i j v

/-- `isInterleave(s1, s2, s3)` with the table. -/
def isInterleave (s1 s2 s3 : Text) : Option Bool :=
  if 0 = s1.length ∧ 0 = s2.length ∧ 0 = s3.length then some true
  else if s1.length + s2.length ≠ s3.length then some false
  else do
    let t ← (Table.const s1.length s2.length false).set 0 0 true
    let t ← (List.range' 1 s1.length).foldlM (fillColumn s1 s3) t
    let t ← (List.range' 1 s2.length).foldlM (fillRow s2 s3) t
    let t ← (List.range' 1 s1.length).foldlM (fun t i => (List.range' 1 s2.length).foldlM (fillCell s1 s2 s3 i) t) t
    t s1.length s2.length

/-! ## The search finds an interleaving if there is one -/

variable {s1 s2 s3 : Text} {i j k : Nat} {st : State}

/-- What is left of the strings interleaves. -/
def Rest (s1 s2 s3 : Text) (i j : Nat) : Prop := Interleaves (s1.drop i) (s2.drop j) (s3.drop (i + j))

theorem rest_end (hlength : s1.length + s2.length = s3.length) : Rest s1 s2 s3 s1.length s2.length := by
  rw [Rest, drop_length, drop_length, hlength, drop_length]
  exact Interleaves.nil

variable {c : Char}

theorem rest_iff (hc : s3[i + j]? = some c) :
    Rest s1 s2 s3 i j ↔ s1[i]? = some c ∧ Rest s1 s2 s3 (i + 1) j ∨ s2[j]? = some c ∧ Rest s1 s2 s3 i (j + 1) := by
  rw [Rest, interleaves_drop_iff hc, Rest, Rest, add_right_comm i 1 j, ← add_assoc i j 1]

/-- The table has all its cells. -/
def Full (s1 s2 : Text) (t : Table Int) : Prop := ∀ i j, i ≤ s1.length → j ≤ s2.length → ∃ v, t i j = some v

/-- Before there is success the table is right about the positions from which there is none. -/
structure Searching (s1 s2 s3 : Text) (st : State) : Prop where
  full : Full s1 s2 st.dp
  going : st.valid = false
  memo : ∀ i j v, st.dp i j = some v → v = -1 ∨ v = 0 ∧ ¬ Rest s1 s2 s3 i j

/-- What a call of `dfs` leaves behind: success, or a table that is right about it as well. -/
def Visited (s1 s2 s3 : Text) (i j : Nat) (st : State) : Prop :=
  Full s1 s2 st.dp ∧ st.valid = true ∧ Rest s1 s2 s3 i j ∨ Searching s1 s2 s3 st ∧ ¬ Rest s1 s2 s3 i j

theorem Full.put {t : Table Int} (h : Full s1 s2 t) (i j : Nat) (v : Int) : Full s1 s2 (t.put i j v) := by
  intro i' j' hi' hj'
  by_cases hc : i' = i ∧ j' = j
  · rw [hc.1, hc.2]
    exact ⟨v, Table.put_self t i j v⟩
  · rw [Table.put_of_ne hc]
    exact h i' j' hi' hj'

theorem Searching.put_zero (h : Searching s1 s2 s3 st) (hnot : ¬ Rest s1 s2 s3 i j) : Searching s1 s2 s3 { st with dp := st.dp.put i j 0 } := by
  refine ⟨h.full.put i j 0, h.going, fun i' j' v hv => ?_⟩
  simp only at hv
  by_cases hc : i' = i ∧ j' = j
  · grind [Table.put_self]
  · rw [Table.put_of_ne hc] at hv
    exact h.memo i' j' v hv

theorem next_eq {s : Text} (hc : s3[k]? = some c) : next s i s3 k = some (decide (s[i]? = some c)) := by
  rw [next, hc]
  by_cases hi : i < s.length
  · rw [if_pos hi, getElem?_eq_getElem hi]
    simp only [bind_eq_bind, bind_some, Option.pure_def, some.injEq]
  · rw [if_neg hi, getElem?_eq_none (not_lt.mp hi)]
    rfl

theorem sizeLess_eq {s : Text} (h : 0 < s.length) : sizeLess s = s.length - 1 := if_neg (by omega)

/-- One of the two ways was gone: `dfs` returns with success, or this way leads nowhere. -/
def Followed (s1 s2 s3 : Text) (H R : Prop) (st : State) (returned : Bool) : Prop :=
  returned = true ∧ Full s1 s2 st.dp ∧ st.valid = true ∧ H ∧ R ∨ returned = false ∧ Searching s1 s2 s3 st ∧ ¬ (H ∧ R)

/-- One of the two ways: the end of the strings, or a call for the positions after it. -/
theorem follow_spec (h : Searching s1 s2 s3 st) (hi : i ≤ s1.length) (hj : j ≤ s2.length) {H R : Prop} [Decidable H] {atEnd : Bool}
    {visit : State → Option State} (hend : H → atEnd = true → R)
    (hvisit : H → atEnd = false → ∃ st', visit st = some st' ∧ (Full s1 s2 st'.dp ∧ st'.valid = true ∧ R ∨ Searching s1 s2 s3 st' ∧ ¬ R)) :
    ∃ st' returned, follow st i j (decide H) atEnd visit = some (st', returned) ∧ Followed s1 s2 s3 H R st' returned := by
  rw [follow]
  by_cases hH : H
  · rw [if_pos (decide_eq_true hH)]
    cases atEnd with
    | true => exact ⟨_, true, rfl, .inl ⟨rfl, h.full, rfl, hH, hend hH rfl⟩⟩
    | false =>
      obtain ⟨st', hrun, hst'⟩ := hvisit hH rfl
      rw [hrun]
      simp only [bind_eq_bind, bind_some]
      rcases hst' with ⟨hf, hvalid, hR⟩ | ⟨hsearch, hR⟩
      · obtain ⟨w, hw⟩ := hf i j hi hj
        rw [if_pos hvalid, Table.set_eq hw]
        exact ⟨_, true, rfl, .inl ⟨rfl, hf.put i j 1, hvalid, hH, hR⟩⟩
      · rw [hsearch.going]
        exact ⟨st', false, rfl, .inr ⟨rfl, hsearch, fun hboth => hR hboth.2⟩⟩
  · rw [decide_eq_false hH]
    exact ⟨st, false, rfl, .inr ⟨rfl, h, fun hboth => hH hboth.1⟩⟩

section Ways

variable (hlength : s1.length + s2.length = s3.length) (h : Searching s1 s2 s3 st) (hi : i ≤ s1.length) (hj : j ≤ s2.length) (hk : i + j < s3.length)
  (c : Char)

include hlength h hi hj hk

theorem followFirst_spec
    (hc : i < s1.length → i + 1 + j < s3.length → ∃ st', dfs s1 s2 s3 (i + 1) j (i + 1 + j) st = some st' ∧ Visited s1 s2 s3 (i + 1) j st') :
    ∃ st' returned, follow st i j (decide (s1[i]? = some c)) (decide (sizeLess s1 = i ∧ s2.length = j ∧ sizeLess s3 = i + j))
        (fun st => if i + j < sizeLess s3 then dfs s1 s2 s3 (i + 1) j (i + j + 1) st else some st) = some (st', returned) ∧
      Followed s1 s2 s3 (s1[i]? = some c) (Rest s1 s2 s3 (i + 1) j) st' returned := by
  refine follow_spec h hi hj (fun hs hend => ?_) fun hs hend => ?_
  · obtain ⟨hend1, rfl, -⟩ := of_decide_eq_true hend
    rw [sizeLess_eq (by omega)] at hend1
    have hi' : i + 1 = s1.length := by omega
    rw [hi']
    exact rest_end hlength
  · have hlt := (List.getElem?_eq_some_iff.mp hs).1
    have hend' := of_decide_eq_false hend
    have hl : sizeLess s3 = s3.length - 1 := sizeLess_eq (by omega)
    rw [sizeLess_eq (by omega)] at hend'
    rw [if_pos (by omega), add_right_comm]
    exact hc hlt (by omega)

theorem followSecond_spec
    (hc : j < s2.length → i + (j + 1) < s3.length → ∃ st', dfs s1 s2 s3 i (j + 1) (i + (j + 1)) st = some st' ∧ Visited s1 s2 s3 i (j + 1) st') :
    ∃ st' returned, follow st i j (decide (s2[j]? = some c)) (decide (s1.length = i ∧ sizeLess s2 = j ∧ sizeLess s3 = i + j))
        (fun st => if i + j < sizeLess s3 then dfs s1 s2 s3 i (j + 1) (i + j + 1) st else some st) = some (st', returned) ∧
      Followed s1 s2 s3 (s2[j]? = some c) (Rest s1 s2 s3 i (j + 1)) st' returned := by
  refine follow_spec h hi hj (fun hs hend => ?_) fun hs hend => ?_
  · obtain ⟨rfl, hend2, -⟩ := of_decide_eq_true hend
    rw [sizeLess_eq (by omega)] at hend2
    have hj' : j + 1 = s2.length := by omega
    rw [hj']
    exact rest_end hlength
  · have hlt := (List.getElem?_eq_some_iff.mp hs).1
    have hend' := of_decide_eq_false hend
    have hl : sizeLess s3 = s3.length - 1 := sizeLess_eq (by omega)
    rw [sizeLess_eq (by omega)] at hend'
    rw [if_pos (by omega)]
    exact hc hlt (by omega)

end Ways

theorem dfs_spec (hlength : s1.length + s2.length = s3.length) (h : Searching s1 s2 s3 st) (hi : i ≤ s1.length) (hj : j ≤ s2.length)
    (hk : i + j < s3.length) : ∃ st', dfs s1 s2 s3 i j (i + j) st = some st' ∧ Visited s1 s2 s3 i j st' := by
  induction hn : s3.length - (i + j) using Nat.strong_induction_on generalizing i j st with
  | _ n ih =>
    obtain ⟨c, hc⟩ : ∃ c, s3[i + j]? = some c := ⟨_, getElem?_eq_getElem hk⟩
    obtain ⟨memo, hmemo⟩ := h.full i j hi hj
    rw [dfs, hmemo]
    simp only [bind_eq_bind]
    rcases h.memo i j memo hmemo with rfl | ⟨rfl, hnot⟩
    · obtain ⟨st1, returned, hrun, hst1⟩ := followFirst_spec hlength h hi hj hk c fun hlt hk' =>
        ih (s3.length - (i + 1 + j)) (by omega) h hlt hj hk' rfl
      rw [next_eq hc]
      simp only [bind_some, hrun]
      rcases hst1 with ⟨rfl, hf, hvalid, hr⟩ | ⟨rfl, hsearch, hnot1⟩
      · exact ⟨st1, rfl, .inl ⟨hf, hvalid, (rest_iff hc).mpr (.inl hr)⟩⟩
      · obtain ⟨st2, returned, hrun2, hst2⟩ := followSecond_spec hlength hsearch hi hj hk c fun hlt hk' =>
          ih (s3.length - (i + (j + 1))) (by omega) hsearch hi hlt hk' rfl
        rw [next_eq hc]
        simp only [bind_some, hrun2]
        rcases hst2 with ⟨rfl, hf, hvalid, hr⟩ | ⟨rfl, hsearch2, hnot2⟩
        · exact ⟨st2, rfl, .inl ⟨hf, hvalid, (rest_iff hc).mpr (.inr hr)⟩⟩
        · have hnot : ¬ Rest s1 s2 s3 i j := by
            rw [rest_iff hc]
            exact fun hr => hr.elim hnot1 hnot2
          obtain ⟨w, hw⟩ := hsearch2.full i j hi hj
          rw [Table.set_eq hw]
          exact ⟨_, rfl, .inr ⟨hsearch2.put_zero hnot, hnot⟩⟩
    · exact ⟨st, rfl, .inr ⟨h, hnot⟩⟩

/-! ## The answers -/

/-- The answer of both versions. -/
def Answers (s1 s2 s3 : Text) (b : Bool) : Prop := b = true ↔ Interleaves s1 s2 s3

theorem answers_empty (h : 0 = s1.length ∧ 0 = s2.length ∧ 0 = s3.length) : Answers s1 s2 s3 true := by
  obtain ⟨h1, h2, h3⟩ := h
  rw [eq_nil_of_length_eq_zero h1.symm, eq_nil_of_length_eq_zero h2.symm, eq_nil_of_length_eq_zero h3.symm]
  exact ⟨fun _ => Interleaves.nil, fun _ => rfl⟩

theorem answers_of_length_ne (h : s1.length + s2.length ≠ s3.length) : Answers s1 s2 s3 false :=
  ⟨fun hf => absurd hf Bool.false_ne_true, fun hint => absurd hint.length_eq.symm h⟩

theorem exists_answer {run : Option Bool} (h : 0 < s3.length → s1.length + s2.length = s3.length → ∃ b, run = some b ∧ Answers s1 s2 s3 b) :
    ∃ b, (if 0 = s1.length ∧ 0 = s2.length ∧ 0 = s3.length then some true
      else if s1.length + s2.length ≠ s3.length then some false
      else run) = some b ∧ Answers s1 s2 s3 b := by
  by_cases hnil : 0 = s1.length ∧ 0 = s2.length ∧ 0 = s3.length
  · rw [if_pos hnil]
    exact ⟨true, rfl, answers_empty hnil⟩
  · rw [if_neg hnil]
    by_cases hlength : s1.length + s2.length = s3.length
    · grind
    · rw [if_pos hlength]
      exact ⟨false, rfl, answers_of_length_ne hlength⟩

theorem Dfs.isInterleave_spec (s1 s2 s3 : Text) : ∃ b, Dfs.isInterleave s1 s2 s3 = some b ∧ Answers s1 s2 s3 b := by
  refine exists_answer fun hpos hlength => ?_
  have hstart : Searching s1 s2 s3 ⟨false, Table.const s1.length s2.length (-1)⟩ := by
    refine ⟨fun i j hi hj => ⟨-1, if_pos ⟨hi, hj⟩⟩, rfl, fun i j v hv => .inl ?_⟩
    simp only [Table.const] at hv
    split_ifs at hv
    exact (some.inj hv).symm
  obtain ⟨st, hrun, hst⟩ := dfs_spec (i := 0) (j := 0) hlength hstart (zero_le _) (zero_le _) hpos
  have hall : Rest s1 s2 s3 0 0 ↔ Interleaves s1 s2 s3 := Iff.rfl
  rw [hrun]
  refine ⟨st.valid, rfl, ?_⟩
  rcases hst with ⟨-, hvalid, hr⟩ | ⟨hsearch, hnot⟩
  · exact ⟨fun _ => hall.mp hr, fun _ => hvalid⟩
  · exact ⟨fun hvalid => absurd (hvalid.symm.trans hsearch.going) Bool.noConfusion, fun hint => absurd (hall.mpr hint) hnot⟩

/-! ## The table is right about all prefixes -/

open scoped Classical in
/-- Whether prefixes interleave. -/
noncomputable def prefixes (s1 s2 s3 : Text) (i j : Nat) : Bool := decide (Interleaves (s1.take i) (s2.take j) (s3.take (i + j)))

theorem prefixes_eq_true : prefixes s1 s2 s3 i j = true ↔ Interleaves (s1.take i) (s2.take j) (s3.take (i + j)) := by
  classical
  exact decide_eq_true_iff

theorem extend_eq {s : Text} {b : Bool} (hi : i < s.length) (hc : s3[k]? = some c) : extend b s i s3 k = some (b && decide (s[i]? = some c)) := by
  rw [extend, getElem?_eq_getElem hi, hc]
  cases b with
  | false => rfl
  | true => simp only [if_true, bind_eq_bind, bind_some, Option.pure_def, Bool.true_and, some.injEq]

theorem prefixes_column (hi : i < s1.length) (hc : s3[i]? = some c) :
    prefixes s1 s2 s3 (i + 1) 0 = (prefixes s1 s2 s3 i 0 && decide (s1[i]? = some c)) := by
  rw [Bool.eq_iff_iff, Bool.and_eq_true, prefixes_eq_true, prefixes_eq_true, decide_eq_true_iff, take_zero, add_zero i,
    interleaves_take_nil_iff hi hc, and_comm]

theorem prefixes_row (hj : j < s2.length) (hc : s3[j]? = some c) :
    prefixes s1 s2 s3 0 (j + 1) = (prefixes s1 s2 s3 0 j && decide (s2[j]? = some c)) := by
  rw [Bool.eq_iff_iff, Bool.and_eq_true, prefixes_eq_true, prefixes_eq_true, decide_eq_true_iff, take_zero, zero_add, zero_add,
    interleaves_swap, interleaves_take_nil_iff hj hc, interleaves_swap, and_comm]

theorem prefixes_cell (hi : i < s1.length) (hj : j < s2.length) (hc : s3[i + j + 1]? = some c) : prefixes s1 s2 s3 (i + 1) (j + 1) =
      (prefixes s1 s2 s3 i (j + 1) && decide (s1[i]? = some c) || prefixes s1 s2 s3 (i + 1) j && decide (s2[j]? = some c)) := by
  have hk : i + 1 + (j + 1) = i + j + 1 + 1 := by omega
  have hk' : i + 1 + j = i + j + 1 := by omega
  rw [Bool.eq_iff_iff, Bool.or_eq_true, Bool.and_eq_true, Bool.and_eq_true, prefixes_eq_true, prefixes_eq_true, prefixes_eq_true, decide_eq_true_iff,
    decide_eq_true_iff, hk, hk', interleaves_take_iff hi hj hc]
  exact or_congr and_comm and_comm

variable {t : Table Bool} {P : Nat → Nat → Prop}

section

variable (hlength : s1.length + s2.length = s3.length) (h : t.Filled s1.length s2.length (prefixes s1 s2 s3) P)

include hlength h

theorem fillColumn_spec (hi : i < s1.length)
    (hP : P i 0) : ∃ t', fillColumn s1 s3 t (i + 1) = some t' ∧
      t'.Filled s1.length s2.length (prefixes s1 s2 s3) fun i' j' => P i' j' ∨ i' = i + 1 ∧ j' = 0 := by
  have hc : s3[i]? = some s3[i] := getElem?_eq_getElem (by omega)
  rw [fillColumn, Nat.add_sub_cancel, h.right i 0 hi.le (Nat.zero_le _) hP]
  simp only [extend_eq hi hc]
  exact h.set hi (Nat.zero_le _) (prefixes_column hi hc).symm

theorem fillRow_spec (hj : j < s2.length)
    (hP : P 0 j) : ∃ t', fillRow s2 s3 t (j + 1) = some t' ∧
      t'.Filled s1.length s2.length (prefixes s1 s2 s3) fun i' j' => P i' j' ∨ i' = 0 ∧ j' = j + 1 := by
  have hc : s3[j]? = some s3[j] := getElem?_eq_getElem (by omega)
  rw [fillRow, Nat.add_sub_cancel, h.right 0 j (Nat.zero_le _) hj.le hP]
  simp only [extend_eq hj hc]
  exact h.set (Nat.zero_le _) hj (prefixes_row hj hc).symm

theorem fillCell_spec (hi : i < s1.length)
    (hj : j < s2.length) (habove : P i (j + 1)) (hl : P (i + 1) j) : ∃ t', fillCell s1 s2 s3 (i + 1) t (j + 1) = some t' ∧
      t'.Filled s1.length s2.length (prefixes s1 s2 s3) fun i' j' => P i' j' ∨ i' = i + 1 ∧ j' = j + 1 := by
  have hk : i + 1 + (j + 1) - 1 = i + j + 1 := by omega
  have hc : s3[i + j + 1]? = some s3[i + j + 1] := getElem?_eq_getElem (by omega)
  have hcell := prefixes_cell hi hj hc
  rw [fillCell, Nat.add_sub_cancel, Nat.add_sub_cancel, hk, h.right i (j + 1) hi.le hj habove]
  simp only [bind_eq_bind, bind_some, extend_eq hi hc]
  by_cases hfst : (prefixes s1 s2 s3 i (j + 1) && decide (s1[i]? = some s3[i + j + 1])) = true
  · rw [if_pos hfst]
    rw [hfst] at hcell
    exact h.set hi hj hcell.symm
  · rw [if_neg hfst, h.right (i + 1) j hi hj.le hl]
    simp only [extend_eq hj hc]
    rw [Bool.eq_false_iff.mpr hfst] at hcell
    exact h.set hi hj hcell.symm

end

theorem isInterleave_spec (s1 s2 s3 : Text) : ∃ b, isInterleave s1 s2 s3 = some b ∧ Answers s1 s2 s3 b := by
  refine exists_answer fun _ hlength => ?_
  have hfst : prefixes s1 s2 s3 0 0 = true := prefixes_eq_true.mpr Interleaves.nil
  obtain ⟨t, hset, hfill⟩ := (Table.filled_const s1.length s2.length false (prefixes s1 s2 s3)).set (zero_le _) (zero_le _) hfst.symm
  obtain ⟨t1, hcolumn, hfill1⟩ := (hfill.mono fun i j _ _ hP => .inr hP).column fun k t P hk h hP => fillColumn_spec hlength h hk hP
  obtain ⟨t2, hrow, hfill2⟩ := hfill1.row fun k t P hk h hP => fillRow_spec hlength h hk hP
  obtain ⟨t3, hr, hfill3⟩ := Table.Filled.rows (fun i j t P hi hj h _ habove hl => fillCell_spec hlength h hi hj habove hl) hfill2
  rw [hset]
  simp only [bind_eq_bind, bind_some, hcolumn, hrow, hr]
  refine ⟨_, hfill3.right _ _ le_rfl le_rfl trivial, ?_⟩
  rw [Answers, prefixes_eq_true, take_length, take_length, hlength, take_length]

/-! ## The result -/

/-- Both versions return whether the third string is an interleaving of the others. -/
theorem isInterleave_agree (s1 s2 s3 : Text) :
    ∃ b, Dfs.isInterleave s1 s2 s3 = some b ∧ isInterleave s1 s2 s3 = some b ∧ (b = true ↔ Interleaves s1 s2 s3) := by
  obtain ⟨b, hrun, hb⟩ := Dfs.isInterleave_spec s1 s2 s3
  obtain ⟨b', hrun', hb'⟩ := isInterleave_spec s1 s2 s3
  have hsame : b = b' := Bool.eq_iff_iff.mpr (hb.trans hb'.symm)
  exact ⟨b, hrun, hsame ▸ hrun', hb⟩

end CsLearning.LeetCode.InterleavingString
