import CsLearning.Lib.Cpp
import CsLearning.Lib.Loop
import CsLearning.Lib.Word

/-!
# Pattern matching with two variables

Problem 16.18: is a string made of a pattern over `a` and `b` by two different replacements for the letters?

The program asks for replacements one of which is empty, and then for all lengths of the one for `a`, which give the length of the other one. A
division by zero, a letter that has no counter and a `substr` behind the end have no outcome.
-/

open List Nat

namespace CsLearning.LeetCode.PatternMatching

open Text

/-- The string that a pattern stands for. -/
def replaced (A B : Text) (pattern : Text) : Text := pattern.flatMap fun x => if x = 'a' then A else B

/-- Two different strings make the value of the pattern. -/
def Matches (pattern value : Text) : Prop := ∃ A B, A ≠ B ∧ replaced A B pattern = value

/-! ## The code -/

/-- `m % k`. -/
def modulo (m k : Nat) : Option Nat := if k = 0 then none else some (m % k)

/-- `m / k`. -/
def quotient (m k : Nat) : Option Nat := if k = 0 then none else some (m / k)

/-- A round of the loop in `helper`. -/
def helperRound (value : Text) (m len i : Nat) : Option (Round Nat Bool) :=
  if i < m then do
    let part ← Text.cut value i len
    let first ← Text.cut value 0 len
    if part ≠ first then return .stop false else return .again (i + len)
  else some (.stop true)

/-- `helper(value, k)`, with at most `n` rounds. -/
def helper (n : Nat) (value : Text) (k : Nat) : Option Bool := do
  let r ← modulo value.length k
  if r ≠ 0 then return false
  else
    let len ← quotient value.length k
    loop (helperRound value value.length len) n len

/-- The value of a variable of `check` after the part at `j`, or that `check` returns. The empty string stands for no value. -/
def assign (value var : Text) (len j : Nat) : Option (Option Text) := do
  let part ← Text.cut value j len
  if var = [] then return some part
  else if part ≠ var then return none
  else return some var

/-- The loop of `check` from a place of the pattern on, and what comes after it. -/
def checkFrom (value : Text) (lenA lenB : Nat) : (pattern a b : Text) → (j : Nat) → Option Bool
  | [], a, b, _ => if a = b then some false else some true
  | x :: pattern, a, b, j =>
    if 'a' = x then do
      match ← assign value a lenA j with
      | none => return false
      | some a => checkFrom value lenA lenB pattern a b (j + lenA)
    else do
      match ← assign value b lenB j with
      | none => return false
      | some b => checkFrom value lenA lenB pattern a b (j + lenB)

/-- `check(pattern, value, len_a, len_b)`. -/
def check (pattern value : Text) (lenA lenB : Nat) : Option Bool := checkFrom value lenA lenB pattern [] [] 0

/-- `cnt[x - 'a']++`. -/
def bump (cnt : Nat × Nat) (x : Char) : Option (Nat × Nat) :=
  if x = 'a' then some (cnt.1 + 1, cnt.2) else if x = 'b' then some (cnt.1, cnt.2 + 1) else none

/-- A round of the loop over `len_a`. -/
def lengthRound (pattern value : Text) (cnt : Nat × Nat) (lenA : Nat) : Option (Round Nat Bool) :=
  if cnt.1 * lenA + cnt.2 ≤ value.length then do
    let r ← modulo (value.length - lenA * cnt.1) cnt.2
    if r ≠ 0 then return .again (lenA + 1)
    else
      let lenB ← quotient (value.length - lenA * cnt.1) cnt.2
      let found ← check pattern value lenA lenB
      if found then return .stop true else return .again (lenA + 1)
  else some (.stop false)

/-- `patternMatching(pattern, value)` on a new `Solution`, with at most `n` rounds of each loop. -/
def patternMatching (n : Nat) (pattern value : Text) : Option Bool :=
  match pattern with
  | [] => some value.isEmpty
  | c :: _ =>
    if value.isEmpty then some (decide (Text.skip (· == c) pattern 0 = pattern.length))
    else do
      let cnt ← pattern.foldlM bump (0, 0)
      if cnt.1 = 0 then helper n value cnt.2
      else if cnt.2 = 0 then helper n value cnt.1
      else
        let first ← helper n value cnt.1
        if first then return true
        else
          let second ← helper n value cnt.2
          if second then return true
          else loop (lengthRound pattern value cnt) n 1

/-! ## Replacing the letters -/

variable {pattern value A B : Text} {k n : Nat}

/-- Only the two letters occur. -/
def Letters (pattern : Text) : Prop := ∀ x ∈ pattern, x = 'a' ∨ x = 'b'

/-- The string is another one, repeated. -/
def Power (k : Nat) (value : Text) : Prop := ∃ w, (List.replicate k w).flatten = value

theorem length_flatten_replicate (k : Nat) (w : Text) : ((replicate k w).flatten).length = k * w.length := by simp

theorem replaced_cons_a (A B pattern : Text) : replaced A B ('a' :: pattern) = A ++ replaced A B pattern := by
  rfl

theorem replaced_cons_b (A B pattern : Text) : replaced A B ('b' :: pattern) = B ++ replaced A B pattern := by
  rfl

variable {x c : Char}

theorem Letters.tail (h : Letters (x :: pattern)) : Letters pattern := fun y hy => h y (mem_cons_of_mem x hy)

theorem Letters.each {P : Text → Prop} (h : Letters pattern) (nil : P []) (a : ∀ p, Letters p → P p → P ('a' :: p))
    (b : ∀ p, Letters p → P p → P ('b' :: p)) : P pattern := by
  induction pattern with
  | nil => exact nil
  | cons x p ih =>
    rcases h x mem_cons_self with rfl | rfl
    · exact a p h.tail (ih h.tail)
    · exact b p h.tail (ih h.tail)

theorem length_replaced (h : Letters pattern) (A B : Text) :
    (replaced A B pattern).length = pattern.count 'a' * A.length + pattern.count 'b' * B.length := by
  refine h.each (P := fun p => (replaced A B p).length = p.count 'a' * A.length + p.count 'b' * B.length) ?_ (fun p _ ih => ?_) (fun p _ ih => ?_)
  · rw [count_nil, count_nil, zero_mul, zero_mul]
    rfl
  · rw [replaced_cons_a, length_append, ih, count_cons_self, count_cons_of_ne (by decide)]
    ring
  · rw [replaced_cons_b, length_append, ih, count_cons_self, count_cons_of_ne (by decide)]
    ring

theorem flatMap_eq_power {f : Char → Text} (h : ∀ y ∈ pattern, y = x ∨ f y = []) :
    pattern.flatMap f = (replicate (pattern.count x) (f x)).flatten := by
  induction pattern with
  | nil => rfl
  | cons y pattern ih =>
    rw [flatMap_cons, ih fun z hz => h z (mem_cons_of_mem y hz)]
    by_cases hyx : y = x
    · rw [hyx, count_cons_self, replicate_succ, flatten_cons]
    · grind

/-- The replacement for `a` is empty, or there is no `a`. -/
theorem replaced_eq_power_b (h : Letters pattern) (hA : A = [] ∨ pattern.count 'a' = 0) :
    replaced A B pattern = (replicate (pattern.count 'b') B).flatten := by
  refine flatMap_eq_power fun y hy => (h y hy).symm.imp_right ?_
  rintro rfl
  exact hA.resolve_right fun hcnt => count_eq_zero.mp hcnt hy

/-- The replacement for `b` is empty, or there is no `b`. -/
theorem replaced_eq_power_a (h : Letters pattern) (hB : B = [] ∨ pattern.count 'b' = 0) :
    replaced A B pattern = (replicate (pattern.count 'a') A).flatten := by
  refine flatMap_eq_power fun y hy => (h y hy).imp_right ?_
  rintro rfl
  exact hB.resolve_right fun hcnt => count_eq_zero.mp hcnt hy

theorem exists_ne (A : Text) : ∃ B : Text, A ≠ B := ⟨'x' :: A, fun h => cons_ne_self 'x' A h.symm⟩

theorem matches_iff_power_b (h : Letters pattern) (ha : pattern.count 'a' = 0) : Matches pattern value ↔ Power (pattern.count 'b') value := by
  constructor
  · rintro ⟨A, B, -, hval⟩
    exact ⟨B, by rw [← hval, replaced_eq_power_b h (.inr ha)]⟩
  · rintro ⟨B, hval⟩
    obtain ⟨A, hne⟩ := exists_ne B
    exact ⟨A, B, hne.symm, by rw [replaced_eq_power_b h (.inr ha), hval]⟩

theorem matches_iff_power_a (h : Letters pattern) (hb : pattern.count 'b' = 0) : Matches pattern value ↔ Power (pattern.count 'a') value := by
  constructor
  · rintro ⟨A, B, -, hval⟩
    exact ⟨A, by rw [← hval, replaced_eq_power_a h (.inr hb)]⟩
  · rintro ⟨A, hval⟩
    obtain ⟨B, hne⟩ := exists_ne A
    exact ⟨A, B, hne, by rw [replaced_eq_power_a h (.inr hb), hval]⟩

/-- Both replacements are strings with a character. -/
def MatchesBoth (pattern value : Text) : Prop := ∃ A B, A ≠ B ∧ A ≠ [] ∧ B ≠ [] ∧ replaced A B pattern = value

theorem Power.ne_nil {w : Text} (hval : value ≠ []) (hw : (replicate k w).flatten = value) : w ≠ [] := by grind [flatten_replicate_nil]

theorem matches_iff (h : Letters pattern) (hval : value ≠ []) :
    Matches pattern value ↔ Power (pattern.count 'a') value ∨ Power (pattern.count 'b') value ∨ MatchesBoth pattern value := by
  constructor
  · rintro ⟨A, B, hne, hrepl⟩
    by_cases hB : B = []
    · exact .inl ⟨A, by rw [← hrepl, replaced_eq_power_a h (.inl hB)]⟩
    · by_cases hA : A = []
      · exact .inr (.inl ⟨B, by rw [← hrepl, replaced_eq_power_b h (.inl hA)]⟩)
      · exact .inr (.inr ⟨A, B, hne, hA, hB, hrepl⟩)
  · rintro (⟨A, hA⟩ | ⟨B, hB⟩ | ⟨A, B, hne, -, -, hrepl⟩)
    · exact ⟨A, [], Power.ne_nil hval hA, by rw [replaced_eq_power_a h (.inl rfl), hA]⟩
    · exact ⟨[], B, (Power.ne_nil hval hB).symm, by rw [replaced_eq_power_b h (.inl rfl), hB]⟩
    · exact ⟨A, B, hne, hrepl⟩

/-! ## One variable -/

theorem loop_helperRound {len q i : Nat} (hlen : 0 < len) (hi : i + q * len = value.length) (hle : len ≤ value.length) (hn : q < n) :
    ∃ b, loop (helperRound value value.length len) n i = some b ∧ (b = true ↔ value.drop i = (replicate q (substr value 0 len)).flatten) := by
  induction q generalizing i n with
  | zero =>
    obtain ⟨n, rfl⟩ := exists_eq_succ_of_ne_zero hn.ne'
    rw [zero_mul, add_zero] at hi
    refine ⟨true, loop_of_stop (by rw [helperRound, if_neg (by omega)]) n, ?_⟩
    rw [hi, drop_length]
    exact iff_of_true rfl rfl
  | succ q ih =>
    obtain ⟨n, rfl⟩ := exists_eq_succ_of_ne_zero (ne_zero_of_lt hn)
    rw [succ_mul] at hi
    have hrd : helperRound value value.length len i =
        if substr value i len ≠ substr value 0 len then some (.stop false) else some (.again (i + len)) := by
      rw [helperRound, if_pos (by omega), cut_eq (by omega)]
      rfl
    rw [replicate_succ, flatten_cons, drop_eq_append_iff (show i + len ≤ value.length by omega) (length_substr (by omega))]
    by_cases hs : substr value i len = substr value 0 len
    · rw [if_neg (not_not.mpr hs)] at hrd
      obtain ⟨b, hrun, hb⟩ := ih (i := i + len) (by omega) (lt_of_succ_lt_succ hn)
      exact ⟨b, by rw [loop_of_again hrd, hrun], by rw [hb, and_iff_right hs]⟩
    · rw [if_pos hs] at hrd
      exact ⟨false, loop_of_stop hrd n, iff_of_false Bool.false_ne_true fun h => hs h.1⟩

theorem helper_spec (hk : 0 < k) (hval : value ≠ []) (hn : value.length < n) : ∃ b, helper n value k = some b ∧ (b = true ↔ Power k value) := by
  have hpos := length_pos_iff.mpr hval
  rw [helper, modulo, quotient, if_neg hk.ne']
  simp only [Option.bind_eq_bind, Option.bind_some]
  by_cases hmod : value.length % k = 0
  · obtain ⟨len, hlen⟩ := Nat.dvd_of_mod_eq_zero hmod
    obtain ⟨q, rfl⟩ := Nat.exists_eq_succ_of_ne_zero hk.ne'
    have hlenpos : 0 < len := by grind
    have hdiv : value.length / (q + 1) = len := by rw [hlen, Nat.mul_div_cancel_left _ hk]
    have hle : len ≤ value.length := by rw [hlen]; exact Nat.le_mul_of_pos_left len hk
    have hq : q < n := by
      have hmul : q + 1 ≤ value.length := by
        rw [hlen]
        exact Nat.le_mul_of_pos_right (q + 1) hlenpos
      omega
    have hi : len + q * len = value.length := by rw [hlen, Nat.succ_mul, Nat.add_comm]
    rw [if_neg (not_not.mpr hmod), hdiv]
    obtain ⟨b, hrun, hb⟩ := loop_helperRound hlenpos hi hle hq
    refine ⟨b, hrun, hb.trans ?_⟩
    -- the string that is repeated can only be the first part
    have hpower : ∀ w : Text, w.length = len →
        ((replicate (q + 1) w).flatten = value ↔ substr value 0 len = w ∧ value.drop len = (replicate q w).flatten) := by
      intro w hw
      have hiff := drop_eq_append_iff (t := (replicate q w).flatten) (show 0 + len ≤ value.length by omega) hw
      rw [drop_zero, Nat.zero_add] at hiff
      rw [replicate_succ, flatten_cons, eq_comm, hiff]
    constructor
    · intro hr
      exact ⟨_, (hpower _ (length_substr (by omega))).mpr ⟨rfl, hr⟩⟩
    · rintro ⟨w, hw⟩
      have hlength : w.length = len := by
        have := congrArg List.length hw
        rw [length_flatten_replicate, hlen] at this
        exact Nat.eq_of_mul_eq_mul_left hk this
      obtain ⟨hfst, hr⟩ := (hpower w hlength).mp hw
      rw [hfst, hr]
  · rw [if_pos hmod]
    refine ⟨false, rfl, iff_of_false Bool.false_ne_true ?_⟩
    rintro ⟨w, hw⟩
    apply hmod
    rw [← hw, length_flatten_replicate, Nat.mul_mod_right]

/-! ## Both variables -/

/-- The variable has no value yet, or this one. -/
def Fits (var W : Text) : Prop := var = [] ∨ var = W

theorem fits_iff {v W : Text} (h : v ≠ []) : Fits v W ↔ v = W := or_iff_right h

/-- A variable after one more part: its value is the part, or no value fits. -/
theorem assign_spec (var : Text) {len j : Nat} (hlen : 0 < len) (hj : j + len ≤ value.length) :
    ∃ o, assign value var len j = some o ∧ (∀ v, o = some v → v.length = len) ∧
      ∀ W, (Fits var W ∧ substr value j len = W ↔ ∃ v, o = some v ∧ Fits v W) := by
  have hlength := length_substr hj
  have hne : substr value j len ≠ [] := by
    intro hnil
    rw [hnil, length_nil] at hlength
    omega
  rw [assign, cut_eq (by omega)]
  simp only [Option.bind_eq_bind, Option.bind_some]
  split_ifs with hvar hdiffers
  · refine ⟨_, rfl, fun v hv => Option.some.inj hv ▸ hlength, fun W => ?_⟩
    constructor
    · rintro ⟨-, rfl⟩
      exact ⟨_, rfl, .inr rfl⟩
    · rintro ⟨v, hv, hf⟩
      obtain rfl := Option.some.inj hv
      exact ⟨.inl hvar, (fits_iff hne).mp hf⟩
  · refine ⟨_, rfl, (fun v hv => nomatch hv), fun W => ?_⟩
    constructor
    · grind [fits_iff]
    · rintro ⟨v, hv, -⟩
      cases hv
  · rw [not_not] at hdiffers
    refine ⟨_, rfl, fun v hv => Option.some.inj hv ▸ hdiffers ▸ hlength, fun W => ?_⟩
    constructor
    · rintro ⟨hf, -⟩
      exact ⟨var, rfl, hf⟩
    · grind [fits_iff]

section Check

variable {lenA lenB j : Nat} {a b : Text}

/-- The replacements with the given lengths that fit the values of the variables make the rest of the string. -/
def Rest (value : Text) (lenA lenB : Nat) (pattern a b : Text) (j : Nat) : Prop :=
  ∃ A B, A ≠ B ∧ A.length = lenA ∧ B.length = lenB ∧ Fits a A ∧ Fits b B ∧ replaced A B pattern = value.drop j

variable {o : Option Text}

theorem rest_cons_a (hj : j + lenA ≤ value.length) (ho : ∀ W, (Fits a W ∧ substr value j lenA = W ↔ ∃ v, o = some v ∧ Fits v W)) :
    Rest value lenA lenB ('a' :: pattern) a b j ↔ ∃ v, o = some v ∧ Rest value lenA lenB pattern v b (j + lenA) := by
  constructor
  · rintro ⟨A, B, hne, hA, hB, hfitsA, hfitsB, hval⟩
    rw [replaced_cons_a, eq_comm, drop_eq_append_iff hj hA] at hval
    obtain ⟨v, hv, hf⟩ := (ho A).mp ⟨hfitsA, hval.1⟩
    exact ⟨v, hv, A, B, hne, hA, hB, hf, hfitsB, hval.2.symm⟩
  · rintro ⟨v, hv, A, B, hne, hA, hB, hf, hfitsB, hval⟩
    obtain ⟨hfitsA, hpart⟩ := (ho A).mpr ⟨v, hv, hf⟩
    refine ⟨A, B, hne, hA, hB, hfitsA, hfitsB, ?_⟩
    rw [replaced_cons_a, eq_comm, drop_eq_append_iff hj hA]
    exact ⟨hpart, hval.symm⟩

theorem rest_cons_b (hj : j + lenB ≤ value.length) (ho : ∀ W, (Fits b W ∧ substr value j lenB = W ↔ ∃ v, o = some v ∧ Fits v W)) :
    Rest value lenA lenB ('b' :: pattern) a b j ↔ ∃ v, o = some v ∧ Rest value lenA lenB pattern a v (j + lenB) := by
  constructor
  · rintro ⟨A, B, hne, hA, hB, hfitsA, hfitsB, hval⟩
    rw [replaced_cons_b, eq_comm, drop_eq_append_iff hj hB] at hval
    obtain ⟨v, hv, hf⟩ := (ho B).mp ⟨hfitsB, hval.1⟩
    exact ⟨v, hv, A, B, hne, hA, hB, hfitsA, hf, hval.2.symm⟩
  · rintro ⟨v, hv, A, B, hne, hA, hB, hfitsA, hf, hval⟩
    obtain ⟨hfitsB, hpart⟩ := (ho B).mpr ⟨v, hv, hf⟩
    refine ⟨A, B, hne, hA, hB, hfitsA, hfitsB, ?_⟩
    rw [replaced_cons_b, eq_comm, drop_eq_append_iff hj hB]
    exact ⟨hpart, hval.symm⟩

/-- What `check` does after an assignment: it returns, or it goes on with the new value. -/
theorem exists_assigned {run : Text → Option Bool} {R : Text → Prop} (h : ∀ v, o = some v → ∃ r, run v = some r ∧ (r = true ↔ R v)) :
    ∃ r, (match o with | none => some false | some v => run v) = some r ∧ (r = true ↔ ∃ v, o = some v ∧ R v) := by
  cases o with
  | none => exact ⟨false, rfl, iff_of_false Bool.false_ne_true fun ⟨v, hv, _⟩ => by cases hv⟩
  | some v => grind

/-- A variable without a value will get one, and a value has the given length. -/
def Known (x : Char) (len : Nat) (pattern var : Text) : Prop := (var = [] → x ∈ pattern) ∧ (var ≠ [] → var.length = len)

theorem known_of_length {x : Char} {len : Nat} {v : Text} (hlen : 0 < len) (hv : v.length = len) (pattern : Text) : Known x len pattern v := by
  refine ⟨fun hnil => ?_, fun _ => hv⟩
  rw [hnil, length_nil] at hv
  omega

theorem Known.tail {x y : Char} {len : Nat} {var : Text} (h : Known x len (y :: pattern) var) (hxy : x ≠ y) : Known x len pattern var :=
  ⟨fun hnil => (mem_cons.mp (h.1 hnil)).resolve_left hxy, h.2⟩

theorem checkFrom_spec (hA : 0 < lenA) (hB : 0 < lenB) (h : Letters pattern) (ha : Known 'a' lenA pattern a) (hb : Known 'b' lenB pattern b)
    (hj : j + (pattern.count 'a' * lenA + pattern.count 'b' * lenB) = value.length) :
    ∃ r, checkFrom value lenA lenB pattern a b j = some r ∧ (r = true ↔ Rest value lenA lenB pattern a b j) := by
  induction pattern generalizing a b j with
  | nil =>
    have hane : a ≠ [] := fun hnil => not_mem_nil (ha.1 hnil)
    have hbne : b ≠ [] := fun hnil => not_mem_nil (hb.1 hnil)
    rw [count_nil, count_nil, zero_mul] at hj
    have hd : value.drop j = [] := drop_eq_nil_of_le (by omega)
    rw [checkFrom]
    by_cases hs : a = b
    · rw [if_pos hs]
      refine ⟨false, rfl, iff_of_false Bool.false_ne_true ?_⟩
      rintro ⟨A, B, hne, -, -, hfitsA, hfitsB, -⟩
      rw [fits_iff hane] at hfitsA
      rw [fits_iff hbne] at hfitsB
      exact hne (hfitsA.symm.trans (hs.trans hfitsB))
    · rw [if_neg hs]
      exact ⟨true, rfl, iff_of_true rfl ⟨a, b, hs, ha.2 hane, hb.2 hbne, .inr rfl, .inr rfl, hd.symm⟩⟩
  | cons x pattern ih =>
    rcases h x mem_cons_self with rfl | rfl
    · rw [count_cons_self, count_cons_of_ne (by decide), succ_mul] at hj
      obtain ⟨o, hassign, hlen, ho⟩ := assign_spec a hA (show j + lenA ≤ value.length by omega)
      rw [checkFrom, hassign, rest_cons_a (by omega) ho]
      exact exists_assigned fun v hv => ih h.tail (known_of_length hA (hlen v hv) pattern) (hb.tail (by decide)) (by omega)
    · rw [count_cons_self, count_cons_of_ne (by decide), succ_mul] at hj
      obtain ⟨o, hassign, hlen, ho⟩ := assign_spec b hB (show j + lenB ≤ value.length by omega)
      rw [checkFrom, hassign, rest_cons_b (by omega) ho]
      exact exists_assigned fun v hv => ih h.tail (ha.tail (by decide)) (known_of_length hB (hlen v hv) pattern) (by omega)

theorem check_spec (hA : 0 < lenA) (hB : 0 < lenB) (h : Letters pattern) (ha : 'a' ∈ pattern) (hb : 'b' ∈ pattern)
    (hlen : pattern.count 'a' * lenA + pattern.count 'b' * lenB = value.length) :
    ∃ r, check pattern value lenA lenB = some r ∧ (r = true ↔ ∃ A B, A ≠ B ∧ A.length = lenA ∧ B.length = lenB ∧ replaced A B pattern = value) := by
  have hj : 0 + (pattern.count 'a' * lenA + pattern.count 'b' * lenB) = value.length := by rw [zero_add, hlen]
  obtain ⟨r, hrun, hr⟩ := checkFrom_spec (a := []) (b := []) hA hB h ⟨fun _ => ha, fun hne => absurd rfl hne⟩
    ⟨fun _ => hb, fun hne => absurd rfl hne⟩ hj
  refine ⟨r, hrun, hr.trans ?_⟩
  constructor
  · rintro ⟨A, B, hne, hlA, hlB, -, -, hval⟩
    exact ⟨A, B, hne, hlA, hlB, hval⟩
  · rintro ⟨A, B, hne, hlA, hlB, hval⟩
    exact ⟨A, B, hne, hlA, hlB, .inl rfl, .inl rfl, hval⟩

end Check

/-! ## The lengths of the variables -/

/-- Replacements with a character each, the one for `a` with the given length. -/
def MatchesAt (pattern value : Text) (lenA : Nat) : Prop := ∃ A B, A ≠ B ∧ A.length = lenA ∧ B ≠ [] ∧ replaced A B pattern = value

theorem matchesBoth_iff : MatchesBoth pattern value ↔ ∃ lenA, 0 < lenA ∧ MatchesAt pattern value lenA := by
  constructor
  · rintro ⟨A, B, hne, hA, hB, hval⟩
    exact ⟨A.length, length_pos_iff.mpr hA, A, B, hne, rfl, hB, hval⟩
  · rintro ⟨lenA, hpos, A, B, hne, rfl, hB, hval⟩
    exact ⟨A, B, hne, length_pos_iff.mp hpos, hB, hval⟩

/-- The numbers of the two letters. -/
abbrev counts (pattern : Text) : Nat × Nat := (pattern.count 'a', pattern.count 'b')

theorem MatchesAt.length {lenA : Nat} (h : Letters pattern) (hm : MatchesAt pattern value lenA) :
    ∃ lenB, 0 < lenB ∧ pattern.count 'a' * lenA + pattern.count 'b' * lenB = value.length := by
  obtain ⟨A, B, -, rfl, hB, rfl⟩ := hm
  exact ⟨B.length, length_pos_iff.mpr hB, (length_replaced h A B).symm⟩

/-- A round for a length that is not too large: this one is possible, or the loop goes on. -/
theorem lengthRound_spec {lenA : Nat} (h : Letters pattern) (ha : 'a' ∈ pattern) (hb : 'b' ∈ pattern) (hA : 0 < lenA)
    (hle : pattern.count 'a' * lenA + pattern.count 'b' ≤ value.length) :
    lengthRound pattern value (counts pattern) lenA = some (.stop true) ∧ MatchesAt pattern value lenA ∨
      lengthRound pattern value (counts pattern) lenA = some (.again (lenA + 1)) ∧ ¬ MatchesAt pattern value lenA := by
  have hbpos : 0 < pattern.count 'b' := count_pos_iff.mpr hb
  rw [lengthRound, if_pos hle, modulo, quotient, if_neg hbpos.ne', if_neg hbpos.ne', Nat.mul_comm lenA]
  simp only [Option.bind_eq_bind, Option.bind_some]
  by_cases hmod : (value.length - pattern.count 'a' * lenA) % pattern.count 'b' = 0
  · obtain ⟨lenB, hlenB⟩ := Nat.dvd_of_mod_eq_zero hmod
    have hdiv : (value.length - pattern.count 'a' * lenA) / pattern.count 'b' = lenB := by rw [hlenB, Nat.mul_div_cancel_left _ hbpos]
    have hB : 0 < lenB := by grind
    have hlengths : pattern.count 'a' * lenA + pattern.count 'b' * lenB = value.length := by omega
    obtain ⟨r, hrun, hr⟩ := check_spec hA hB h ha hb hlengths
    have hat : MatchesAt pattern value lenA ↔ r = true := by
      rw [hr]
      constructor
      · rintro ⟨A, B, hne, rfl, -, hval⟩
        have hlen := length_replaced h A B
        rw [hval] at hlen
        have hB : pattern.count 'b' * B.length = pattern.count 'b' * lenB := by rw [← hlenB, hlen, Nat.add_sub_cancel_left]
        exact ⟨A, B, hne, rfl, Nat.eq_of_mul_eq_mul_left hbpos hB, hval⟩
      · rintro ⟨A, B, hne, hlA, rfl, hval⟩
        exact ⟨A, B, hne, hlA, length_pos_iff.mp hB, hval⟩
    rw [if_neg (not_not.mpr hmod), hdiv, hrun, hat]
    cases r with
    | true => exact .inl ⟨rfl, rfl⟩
    | false => exact .inr ⟨rfl, Bool.false_ne_true⟩
  · rw [if_pos hmod]
    refine .inr ⟨rfl, fun hm => hmod ?_⟩
    obtain ⟨lenB, -, hlen⟩ := hm.length h
    rw [← hlen, Nat.add_sub_cancel_left, Nat.mul_mod_right]

theorem loop_lengthRound (h : Letters pattern) (ha : 'a' ∈ pattern) (hb : 'b' ∈ pattern) (hn : value.length < n) :
    ∃ r, loop (lengthRound pattern value (counts pattern)) n 1 = some r ∧ (r = true ↔ MatchesBoth pattern value) := by
  have hapos : 0 < pattern.count 'a' := count_pos_iff.mpr ha
  refine loop_of_invariant (I := fun lenA => 0 < lenA ∧ ∀ l < lenA, 0 < l → ¬ MatchesAt pattern value l)
    (μ := fun lenA => value.length + 1 - lenA) ?_ ⟨Nat.one_pos, fun l hl hpos => absurd hpos (by omega)⟩ (by omega)
  rintro lenA ⟨hA, hbelow⟩
  by_cases hle : pattern.count 'a' * lenA + pattern.count 'b' ≤ value.length
  · rcases lengthRound_spec h ha hb hA hle with ⟨hrd, hm⟩ | ⟨hrd, hnot⟩
    · exact .inl ⟨true, hrd, iff_of_true rfl (matchesBoth_iff.mpr ⟨lenA, hA, hm⟩)⟩
    · have hmul : lenA ≤ pattern.count 'a' * lenA := Nat.le_mul_of_pos_left lenA hapos
      refine .inr ⟨lenA + 1, hrd, ⟨Nat.succ_pos lenA, fun l hl hpos => ?_⟩, by omega⟩
      rcases Nat.lt_succ_iff_lt_or_eq.mp hl with hl | rfl
      · exact hbelow l hl hpos
      · exact hnot
  · refine .inl ⟨false, by rw [lengthRound, if_neg hle], iff_of_false Bool.false_ne_true fun hboth => ?_⟩
    obtain ⟨l, hpos, hm⟩ := matchesBoth_iff.mp hboth
    obtain ⟨lenB, hB, hlen⟩ := hm.length h
    rcases Nat.lt_or_ge l lenA with hl | hl
    · exact hbelow l hl hpos hm
    · apply hle
      calc pattern.count 'a' * lenA + pattern.count 'b'
          ≤ pattern.count 'a' * l + pattern.count 'b' * lenB := Nat.add_le_add (Nat.mul_le_mul_left _ hl) (Nat.le_mul_of_pos_right _ hB)
        _ = value.length := hlen

/-! ## The whole program -/

theorem foldlM_bump (h : Letters pattern) (cnt : Nat × Nat) :
    pattern.foldlM bump cnt = some (cnt.1 + pattern.count 'a', cnt.2 + pattern.count 'b') := by
  induction pattern generalizing cnt with
  | nil => rfl
  | cons x pattern ih =>
    rcases h x mem_cons_self with rfl | rfl
    · rw [count_cons_self, add_comm (pattern.count 'a'), ← add_assoc]
      exact ih h.tail _
    · rw [count_cons_self, add_comm (pattern.count 'b'), ← add_assoc]
      exact ih h.tail _

/-- A pattern stands for the empty string if one of the letters does not occur. -/
theorem matches_nil_iff (h : Letters pattern) : Matches pattern [] ↔ pattern.count 'a' = 0 ∨ pattern.count 'b' = 0 := by
  have hpower : ∀ k, Power k [] := fun k => ⟨[], flatten_replicate_nil⟩
  constructor
  · rintro ⟨A, B, hne, hrepl⟩
    have hlen := length_replaced h A B
    rw [hrepl, length_nil, eq_comm, Nat.add_eq_zero_iff, Nat.mul_eq_zero, Nat.mul_eq_zero, length_eq_zero_iff, length_eq_zero_iff] at hlen
    rcases hlen with ⟨ha | hA, hb | hB⟩
    · exact .inl ha
    · exact .inl ha
    · exact .inr hb
    · exact absurd (hA.trans hB.symm) hne
  · grind [matches_iff_power_b, matches_iff_power_a]

/-- The loop for an empty string stops at the end of the pattern if all letters are the first one. -/
theorem skip_eq_length_iff (h : Letters (c :: pattern)) :
    skip (· == c) (c :: pattern) 0 = (c :: pattern).length ↔ (c :: pattern).count 'a' = 0 ∨ (c :: pattern).count 'b' = 0 := by
  have hall : skip (· == c) (c :: pattern) 0 = (c :: pattern).length ↔ ∀ x ∈ c :: pattern, x = c := by
    rw [skip, zero_add, drop_zero]
    constructor
    · intro hlen x hx
      have hself := ( takeWhile_prefix (· == c)).eq_of_length hlen
      exact beq_iff_eq.mp (takeWhile_eq_self_iff.mp hself x hx)
    · intro hall
      rw [takeWhile_eq_self_iff.mpr fun x hx => beq_iff_eq.mpr (hall x hx)]
  rw [hall, count_eq_zero, count_eq_zero]
  rcases h c mem_cons_self with rfl | rfl
  · constructor
    · grind
    · rintro (ha | hb) x hx
      · exact absurd mem_cons_self ha
      · exact (h x hx).resolve_right fun hxb => hb (hxb ▸ hx)
  · constructor
    · grind
    · rintro (ha | hb) x hx
      · exact (h x hx).resolve_left fun hxa => ha (hxa ▸ hx)
      · exact absurd mem_cons_self hb

theorem patternMatching_cons (h : Letters (c :: pattern)) (hval : value ≠ []) (hn : value.length < n) :
    ∃ r, patternMatching n (c :: pattern) value = some r ∧ (r = true ↔ Matches (c :: pattern) value) := by
  have hsome : (c :: pattern).count 'a' ≠ 0 ∨ (c :: pattern).count 'b' ≠ 0 := by
    rcases h c mem_cons_self with rfl | rfl
    · simp
    · simp
  have hcounts := foldlM_bump h (0, 0)
  simp only [zero_add] at hcounts
  rw [patternMatching, if_neg (by rwa [List.isEmpty_iff]), hcounts]
  simp only [Option.bind_eq_bind, Option.bind_some]
  by_cases ha : (c :: pattern).count 'a' = 0
  · rw [if_pos ha, matches_iff_power_b h ha]
    exact helper_spec (pos_of_ne_zero (hsome.resolve_left (not_not.mpr ha))) hval hn
  · rw [if_neg ha]
    by_cases hb : (c :: pattern).count 'b' = 0
    · rw [if_pos hb, matches_iff_power_a h hb]
      exact helper_spec (pos_of_ne_zero ha) hval hn
    · rw [if_neg hb, matches_iff h hval]
      obtain ⟨first, hfst, hfirstIff⟩ := helper_spec (pos_of_ne_zero ha) hval hn
      obtain ⟨second, hsnd, hsecondIff⟩ := helper_spec (pos_of_ne_zero hb) hval hn
      obtain ⟨both, hboth, hbothIff⟩ := loop_lengthRound h (count_pos_iff.mp (pos_of_ne_zero ha)) (count_pos_iff.mp (pos_of_ne_zero hb)) hn
      rw [hfst, ← hfirstIff, ← hsecondIff, ← hbothIff]
      refine ⟨first || second || both, ?_, by rw [Bool.or_eq_true, Bool.or_eq_true, or_assoc]⟩
      cases first with
      | true => rfl
      | false => grind

/-- With enough rounds `patternMatching` returns whether two different strings make the value of the pattern. -/
theorem patternMatching_iff {pattern : Text} (h : Letters pattern) (value : Text) :
    ∃ n r, patternMatching n pattern value = some r ∧ (r = true ↔ Matches pattern value) := by
  refine ⟨value.length + 1, ?_⟩
  cases pattern with
  | nil =>
    refine ⟨_, rfl, ?_⟩
    rw [List.isEmpty_iff]
    constructor
    · rintro rfl
      exact ⟨[], ['x'], by decide, rfl⟩
    · rintro ⟨A, B, -, hvalue⟩
      exact hvalue.symm
  | cons c pattern =>
    by_cases hvalue : value = []
    · subst hvalue
      refine ⟨_, rfl, ?_⟩
      rw [decide_eq_true_iff, skip_eq_length_iff h, matches_nil_iff h]
    · exact patternMatching_cons h hvalue (lt_succ_self _)

/-- The pattern `abba`. -/
theorem patternMatching_abba : Letters ['a', 'b', 'b', 'a'] ∧
    ∃ n r, patternMatching n ['a', 'b', 'b', 'a'] ['x', 'y', 'y', 'x'] = some r ∧
      (r = true ↔ Matches ['a', 'b', 'b', 'a'] ['x', 'y', 'y', 'x']) := by
  have hletters : Letters ['a', 'b', 'b', 'a'] := by simp [Letters]
  exact ⟨hletters, patternMatching_iff hletters _⟩

/-! ## The numbers of the loop over the lengths -/

/-- The condition of the loop is computed with `int`s and compared with a `size_t`. As long as both sizes are `int`s it leaves the range at most once,
when the number wraps to a negative one and then to one that is larger than all sizes: the loop stops then as well. -/
theorem condition_wraps {cnt : Nat × Nat} {m lenA : Nat} (hcnt : cnt.1 + cnt.2 < 2 ^ 31) (hm : m < 2 ^ 31) (hprev : cnt.1 * lenA + cnt.2 ≤ m) :
    Word.toInt (cnt.1 * (lenA + 1) + cnt.2 : Nat) % 2 ^ 64 ≤ (m : Int) ↔ cnt.1 * (lenA + 1) + cnt.2 ≤ m := by
  rw [mul_succ, Word.toInt]
  omega

end CsLearning.LeetCode.PatternMatching
