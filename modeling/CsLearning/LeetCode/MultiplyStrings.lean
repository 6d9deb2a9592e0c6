import CsLearning.Lib.Digits
import CsLearning.Lib.Loop
import CsLearning.Lib.Text

/-!
# Multiplying decimal strings

Problem 43: a row of products for each digit of the second number, added up by `add`, and the solution that adds every product to two cells of a
vector. The rows are kept from the lowest digit on and reversed at the end; a row has as many digits as the first number, and one more only for a
carry that is not zero, so the sum never gets a zero at its end that stays. A cell of the vector may go up to 18 before its turn comes; after its turn
it is a digit.
-/

open List Option Nat

namespace CsLearning.LeetCode.MultiplyStrings

/-! ## The code -/

/-- `c - '0'`. -/
def digitOf (c : Char) : Int := c.toNat - 48

/-- `'0' + n` as a character. -/
def charOf (n : Int) : Char := Char.ofNat ((48 + n) % 256).toNat

/-- The body of the loop over the first number, with the variables `tmp` and `carry`. -/
def rowStep (n2 : Int) : Text × Int → Char → Text × Int
  | (tmp, carry), c =>
    let n1 := digitOf c
    let sum := n1 * n2 + carry
    (tmp ++ [charOf (sum.tmod 10)], sum.tdiv 10)

/-- The row of products for one digit of the second number, with `zeros` zeros below it. -/
def row (num1 : Text) (zeros : Nat) (n2 : Int) : Text :=
  let (tmp, carry) := num1.reverse.foldl (rowStep n2) (List.replicate zeros '0', 0)
  if 0 ≠ carry then tmp ++ [charOf carry] else tmp

/-- `i < str.size() ? str[i] - '0' : 0`, on what is left of the string from `i` on. -/
def nextDigit : Text → Int
  | [] => 0
  | c :: _ => digitOf c

/-- The loop of `add`, on what is left of the strings from `i` and from `j` on. -/
def addFrom (str1 str2 : Text) (carry : Int) : Text :=
  if str1 ≠ [] ∨ str2 ≠ [] ∨ 0 ≠ carry then
    let x := nextDigit str1
    let y := nextDigit str2
    let sum := x + y + carry
    charOf (sum.tmod 10) :: addFrom str1.tail str2.tail (sum.tdiv 10)
  else []
termination_by (str1.length + str2.length, carry.natAbs)
decreasing_by
  rename_i h
  cases str1 with
  | cons c s => exact Prod.Lex.left _ _ (by simp; omega)
  | nil =>
    cases str2 with
    | cons c s => exact Prod.Lex.left _ _ (by simp)
    | nil =>
      -- only the carry is left, and it gets smaller
      have hcarry : 0 ≠ carry := by simpa using h
      refine Prod.Lex.right _ ?_
      simp only [nextDigit, Int.zero_add, Int.natAbs_tdiv]
      exact div_lt_self (Int.natAbs_pos.mpr hcarry.symm) (by decide)

/-- `add(str1, str2)`. -/
def add (str1 str2 : Text) : Text := addFrom str1 str2 0

/-- The body of the loop over the second number, for its digit `c` with `zeros` digits below it. -/
def addNext (num1 res : Text) : Char × Nat → Text
  | (c, zeros) => add res (row num1 zeros (digitOf c))

/-- `multiply(num1, num2)` by rows. -/
def Rows.multiply (num1 num2 : Text) : Text :=
  if num1.length = 0 ∨ num2.length = 0 then []
  else if num1 = ['0'] ∨ num2 = ['0'] then ['0']
  else (num2.reverse.zipIdx.foldl (addNext num1) ['0']).reverse

/-- The body of the loops of the other solution. -/
def cellStep (num2 : Text) (i : Nat) (n1 : Int) (ans : List Int) (j : Nat) : Option (List Int) := do
  let c ← num2[j]?
  let n2 := digitOf c
  let a ← ans[i + j + 1]?
  let sum := a + n1 * n2
  let ans := ans.set (i + j + 1) (sum.tmod 10)
  let b ← ans[i + j]?
  return ans.set (i + j) (b + sum.tdiv 10)

/-- The loop over the second number. -/
def addDigit (num1 num2 : Text) (ans : List Int) (i : Nat) : Option (List Int) := do
  let c ← num1[i]?
  (List.range num2.length).reverse.foldlM (cellStep num2 i (digitOf c)) ans

/-- The vector `ans` after the loops. -/
def cells (num1 num2 : Text) : Option (List Int) :=
  (List.range num1.length).reverse.foldlM (addDigit num1 num2) (List.replicate (num1.length + num2.length) 0)

/-- `multiply(num1, num2)` with a vector. -/
def multiply (num1 num2 : Text) : Option Text := do
  if num1.length = 0 ∨ num2.length = 0 then return []
  if num1 = ['0'] ∨ num2 = ['0'] then return ['0']
  let ans ← cells num1 num2
  let first ← ans[0]?
  let i := if 0 = first then 1 else 0
  return (ans.drop i).map charOf

/-! ## Digits as characters -/

open Nat (ofDigits digitChar)

variable {l xs ys : List Nat} {n d k v w : Nat}

theorem digitOf_digitChar (hd : d < 10) : digitOf (digitChar d) = d := by
  rw [digitOf, toNat_digitChar_of_lt_ten hd]
  push_cast
  ring

theorem charOf_natCast (hd : d < 10) : charOf d = digitChar d := by
  have hall : ∀ d < 10, charOf (d : Nat) = digitChar d := by decide
  exact hall d hd

theorem tmod_natCast (s : Nat) : (s : Int).tmod 10 = (s % 10 : Nat) := (Int.ofNat_tmod s 10).symm

theorem charOf_tmod (s : Nat) : charOf ((s : Int).tmod 10) = digitChar (s % 10) := by
  rw [tmod_natCast, charOf_natCast (mod_lt s (by decide))]

theorem tdiv_natCast (s : Nat) : (s : Int).tdiv 10 = (s / 10 : Nat) := (Int.ofNat_tdiv s 10).symm

/-! ## A row -/

theorem rowStep_eq (hd : d < 10) (tmp : Text) (n c : Nat) :
    rowStep n (tmp, c) (digitChar d) = (tmp ++ [digitChar ((d * n + c) % 10)], (((d * n + c) / 10 : Nat) : Int)) := by
  have hsum : (d : Int) * n + c = (d * n + c : Nat) := by push_cast; rfl
  simp only [rowStep, digitOf_digitChar hd, hsum, charOf_tmod, tdiv_natCast]

variable {c a : Nat} {rs mid : List Nat}

theorem foldl_rowStep (hn : n < 10) (hl : ∀ d ∈ l, d < 10) (tmp : Text) (hc : c < 10) :
    ∃ (rs : List Nat) (c' : Nat), (l.map digitChar).foldl (rowStep n) (tmp, (c : Int)) = (tmp ++ rs.map digitChar, (c' : Int)) ∧
      rs.length = l.length ∧ c' < 10 ∧ (∀ d ∈ rs, d < 10) ∧ ofDigits 10 rs + 10 ^ l.length * c' = n * ofDigits 10 l + c := by
  induction l generalizing tmp c with
  | nil => exact ⟨[], c, by simp, rfl, hc, hl, by simp⟩
  | cons d l ih =>
    have hd := hl d mem_cons_self
    have hprod : d * n ≤ 9 * 9 := Nat.mul_le_mul (Nat.le_of_lt_succ hd) (Nat.le_of_lt_succ hn)
    have hcarry : (d * n + c) / 10 < 10 := by omega
    obtain ⟨rs, c', hrun, hlen, hc', hrs, hval⟩ := ih (fun x hx => hl x (mem_cons_of_mem d hx)) (tmp ++ [digitChar ((d * n + c) % 10)]) hcarry
    refine ⟨(d * n + c) % 10 :: rs, c', ?_, congrArg (· + 1) hlen, hc', forall_mem_cons.mpr ⟨Nat.mod_lt _ (by decide), hrs⟩, ?_⟩
    · rw [map_cons, foldl_cons, rowStep_eq hd, hrun, append_assoc]
      rfl
    · grind [Nat.mod_add_div, Nat.ofDigits_cons, length_cons, pow_succ]

/-- A row has as many digits as the first number and the zeros below, or one more that is not zero. -/
theorem row_spec (hn : n < 10) (h : Denotes 10 l v) (k : Nat) :
    ∃ rs, row (l.reverse.map digitChar) k n = rs.map digitChar ∧ Denotes 10 rs (10 ^ k * (n * v)) ∧ Fits 10 (l.length + k) rs := by
  obtain ⟨rs, c, hrun, hlen, hc, hrs, hval⟩ := foldl_rowStep hn h.lt (replicate k '0') (Nat.zero_lt_succ 9)
  have hzeros : Denotes 10 (replicate k 0) 0 := ⟨fun d hd => (eq_of_mem_replicate hd).trans_lt (by decide), Nat.ofDigits_replicate_zero⟩
  have hchars : replicate k '0' = (replicate k 0).map digitChar := by rw [map_replicate]; rfl
  have hlow : Denotes 10 (replicate k 0 ++ rs) (10 ^ k * ofDigits 10 rs) := by
    simpa using hzeros.append ⟨hrs, rfl⟩
  have hlength : (replicate k 0 ++ rs).length = l.length + k := by
    rw [length_append, length_replicate, hlen, Nat.add_comm]
  rw [h.value, Nat.add_zero] at hval
  rw [row, map_reverse, reverse_reverse]
  rw [Nat.cast_zero] at hrun
  rw [hrun]
  dsimp only
  by_cases h0 : c = 0
  · refine ⟨replicate k 0 ++ rs, ?_, ?_, Or.inl hlength.le⟩
    · rw [h0, if_neg (by simp), hchars, ← map_append]
    · grind
  · have hhigh := hlow.append ((Denotes.nil 10).cons hc)
    have hall : 10 ^ k * ofDigits 10 rs + 10 ^ (replicate k 0 ++ rs).length * (c + 10 * 0) = 10 ^ k * (n * v) := by
      rw [hlength, ← hval, pow_add]
      ring
    rw [hall] at hhigh
    refine ⟨replicate k 0 ++ rs ++ [c], ?_, hhigh, Or.inr ⟨by simp [hlen]; omega, ?_⟩⟩
    · have hmap : (replicate k 0 ++ rs ++ [c]).map digitChar = (replicate k 0 ++ rs).map digitChar ++ [digitChar c] := map_append
      rw [if_pos (by exact_mod_cast Ne.symm h0), charOf_natCast hc, hchars, ← map_append, hmap]
    · rw [hhigh.value, ← hall, hlength]
      exact (Nat.le_mul_of_pos_right _ (Nat.pos_of_ne_zero h0)).trans (Nat.le_add_left _ _)

/-! ## Addition -/

theorem addFrom_step (hx : ∀ d ∈ xs, d < 10) (hy : ∀ d ∈ ys, d < 10) (c : Nat) (hne : xs ≠ [] ∨ ys ≠ [] ∨ c ≠ 0) :
    addFrom (xs.map digitChar) (ys.map digitChar) c = digitChar ((xs.headD 0 + ys.headD 0 + c) % 10) ::
      addFrom (xs.tail.map digitChar) (ys.tail.map digitChar) ((xs.headD 0 + ys.headD 0 + c) / 10 : Nat) := by
  have hn : ∀ zs : List Nat, (∀ d ∈ zs, d < 10) → nextDigit (zs.map digitChar) = (zs.headD 0 : Nat) := by
    intro zs hzs
    cases zs with
    | nil => rfl
    | cons z zs => exact digitOf_digitChar (hzs z mem_cons_self)
  have hsum : ((xs.headD 0 : Nat) : Int) + (ys.headD 0 : Nat) + c = (xs.headD 0 + ys.headD 0 + c : Nat) := by push_cast; rfl
  have hcond : xs.map digitChar ≠ [] ∨ ys.map digitChar ≠ [] ∨ (0 : Int) ≠ c := by
    rw [ne_eq, map_eq_nil_iff, ne_eq, map_eq_nil_iff]
    exact hne.imp_right (Or.imp_right fun hc => by exact_mod_cast hc.symm)
  rw [addFrom, if_pos hcond]
  simp only [hn xs hx, hn ys hy, hsum, charOf_tmod, tdiv_natCast, map_tail]

theorem ofDigits_head_tail (zs : List Nat) : ofDigits 10 zs = zs.headD 0 + 10 * ofDigits 10 zs.tail := by
  cases zs with
  | nil => rfl
  | cons z zs => rw [ofDigits_cons]; rfl

/-- `add` gives as many digits as the longer number has, or one more that is not zero. -/
theorem addFrom_spec (m : Nat) (hx : ∀ d ∈ xs, d < 10) (hy : ∀ d ∈ ys, d < 10) (hc : c ≤ 1) (hm : max xs.length ys.length = m) :
    ∃ zs : List Nat, addFrom (xs.map digitChar) (ys.map digitChar) c = zs.map digitChar ∧
      Denotes 10 zs (ofDigits 10 xs + ofDigits 10 ys + c) ∧ Fits 10 m zs := by
  induction m generalizing xs ys c with
  | zero =>
    obtain ⟨hxlen, hylen⟩ := max_eq_zero_iff.mp hm
    obtain rfl := length_eq_zero_iff.mp hxlen
    obtain rfl := length_eq_zero_iff.mp hylen
    have hdone : addFrom [] [] 0 = [] := by rw [addFrom, if_neg (by simp)]
    rcases le_one_iff_eq_zero_or_eq_one.mp hc with rfl | rfl
    · exact ⟨[], hdone, Denotes.nil 10, Or.inl le_rfl⟩
    · have hl := addFrom_step hx hy 1 (by simp)
      refine ⟨[1], hl.trans ?_, (Denotes.nil 10).cons (by decide), Or.inr ⟨rfl, by decide⟩⟩
      exact congrArg (digitChar 1 :: ·) hdone
  | succ m ih =>
    have hne : xs ≠ [] ∨ ys ≠ [] ∨ c ≠ 0 := by grind
    have hh : ∀ zs : List Nat, (∀ d ∈ zs, d < 10) → zs.headD 0 ≤ 9 := by
      intro zs hzs
      cases zs with
      | nil => exact zero_le 9
      | cons z zs => exact le_of_lt_succ (hzs z mem_cons_self)
    have hcarry : (xs.headD 0 + ys.headD 0 + c) / 10 ≤ 1 := by grind
    have htails : max xs.tail.length ys.tail.length = m := by
      rw [length_tail, length_tail]
      omega
    obtain ⟨zs, hrun, hzs, hf⟩ := ih (fun d hd => hx d (mem_of_mem_tail hd)) (fun d hd => hy d (mem_of_mem_tail hd)) hcarry htails
    refine ⟨(xs.headD 0 + ys.headD 0 + c) % 10 :: zs, ?_, ?_, hf.cons _⟩
    · rw [addFrom_step hx hy c hne, hrun]
      rfl
    · have hsp := mod_add_div (xs.headD 0 + ys.headD 0 + c) 10
      have hval : (xs.headD 0 + ys.headD 0 + c) % 10 + 10 * (ofDigits 10 xs.tail + ofDigits 10 ys.tail + (xs.headD 0 + ys.headD 0 + c) / 10) =
          ofDigits 10 xs + ofDigits 10 ys + c := by
        rw [ofDigits_head_tail xs, ofDigits_head_tail ys]
        linarith
      rw [← hval]
      exact hzs.cons (mod_lt _ (by decide))

/-! ## The rows together -/

/-- A row is added to a shorter sum: the result gets no zero at its end. -/
theorem add_spec {res tmp : List Nat} (hres : Denotes 10 res v) (hlen : res.length ≤ n) (htmp : Denotes 10 tmp w) (hf : Fits 10 n tmp)
    (hlt : v + w < 10 ^ (n + 1)) :
    ∃ zs : List Nat, add (res.map digitChar) (tmp.map digitChar) = zs.map digitChar ∧ Denotes 10 zs (v + w) ∧ Fits 10 n zs := by
  obtain ⟨zs, hrun, hzs, hzfits⟩ := addFrom_spec _ hres.lt htmp.lt (zero_le 1) rfl
  rw [hres.value, htmp.value, add_zero] at hzs
  refine ⟨zs, hrun, hzs, ?_⟩
  rcases hf with htlen | ⟨htlen, hle⟩
  · exact hzfits.mono (max_le hlen htlen)
  · rw [htlen, max_eq_right (hlen.trans (le_succ n))] at hzfits
    rw [htmp.value] at hle
    rcases hzfits with hzlen | ⟨-, hover⟩
    · rcases hzlen.lt_or_eq with hshort | heq
      · exact Or.inl (le_of_lt_succ hshort)
      · exact Or.inr ⟨heq, by rw [hzs.value]; exact hle.trans (le_add_left _ _)⟩
    · rw [hzs.value] at hover
      exact absurd hlt (not_lt.mpr hover)

/-- What `res` is after `k` rows. -/
def AfterRows (l₁ l₂ : List Nat) (v₁ k : Nat) (res : Text) : Prop :=
  ∃ rs : List Nat, res = rs.map digitChar ∧ Denotes 10 rs (v₁ * ofDigits 10 (l₂.take k)) ∧ rs.length ≤ l₁.length + k ∧
    (0 < k → Fits 10 (l₁.length + k - 1) rs)

theorem AfterRows.step {l₁ l₂ : List Nat} {v₁ : Nat} {res : Text} (h₁ : Denotes 10 l₁ v₁) (h₂ : ∀ d ∈ l₂, d < 10) (hd : l₂[k]? = some d)
    (h : AfterRows l₁ l₂ v₁ k res) : AfterRows l₁ l₂ v₁ (k + 1) (add res (row (l₁.reverse.map digitChar) k d)) := by
  obtain ⟨rs, rfl, hrs, hlen, -⟩ := h
  have hk : k < l₂.length := (List.getElem?_eq_some_iff.mp hd).1
  obtain ⟨tmp, hrow, htmp, hf⟩ := row_spec (h₂ d (mem_of_getElem? hd)) h₁ k
  have hval : v₁ * ofDigits 10 (l₂.take k) + 10 ^ k * (d * v₁) = v₁ * ofDigits 10 (l₂.take (k + 1)) := by
    rw [take_add_one, hd, toList_some, ofDigits_append, ofDigits_singleton, length_take_of_le hk.le]
    ring
  have hlt : v₁ * ofDigits 10 (l₂.take k) + 10 ^ k * (d * v₁) < 10 ^ (l₁.length + k + 1) := by
    have ht : Denotes 10 (l₂.take (k + 1)) _ := ⟨fun x hx => h₂ x (mem_of_mem_take hx), rfl⟩
    have hbound := ht.lt_pow (by decide)
    rw [length_take_of_le hk] at hbound
    rw [hval, add_assoc, pow_add]
    exact mul_lt_mul'' (h₁.lt_pow (by decide)) hbound
  obtain ⟨zs, hrun, hzs, hzfits⟩ := add_spec hrs hlen htmp hf hlt
  rw [hval] at hzs
  rw [hrow, hrun]
  exact ⟨zs, rfl, hzs, hzfits.length_le, fun _ => hzfits⟩

/-- What a decimal string other than "0" is. -/
structure Numeral (l : List Nat) (v : Nat) : Prop where
  denotes : Denotes 10 l v
  pos : 0 < l.length
  pow_le : 10 ^ (l.length - 1) ≤ v

variable {l₁ l₂ : List Nat} {v₁ v2 : Nat}

section

variable (h₁ : Numeral l₁ v₁) (h₂ : Numeral l₂ v2)

include h₁ h₂

theorem Numeral.pow_le_mul : 10 ^ (l₁.length + l₂.length - 1 - 1) ≤ v₁ * v2 := by
  have hlen : l₁.length + l₂.length - 1 - 1 = l₁.length - 1 + (l₂.length - 1) := by
    have hpos1 := h₁.pos
    have hpos2 := h₂.pos
    omega
  rw [hlen, pow_add]
  exact Nat.mul_le_mul h₁.pow_le h₂.pow_le

/-- Digits of the product that leave no place for a zero at the end are its numeral. -/
theorem Numeral.toDigits_mul (hrs : Denotes 10 rs (v₁ * v2))
    (hf : Fits 10 (l₁.length + l₂.length - 1) rs) : rs.reverse.map digitChar = Nat.toDigits 10 (v₁ * v2) := by
  have hmul := h₁.pow_le_mul h₂
  rw [← hrs.value] at hmul ⊢
  have hne : rs ≠ [] := by
    rintro rfl
    exact absurd hmul (not_le.mpr (Nat.pow_pos (by decide)))
  exact (toDigits_ofDigits (by decide) hne hrs.lt (Or.inl (hf.pow_le (by decide) hmul))).symm

theorem rows_spec :
    ((l₂.map digitChar).zipIdx.foldl (addNext (l₁.reverse.map digitChar)) ['0']).reverse = toDigits 10 (v₁ * v2) := by
  have hinit : AfterRows l₁ l₂ v₁ 0 ['0'] :=
    ⟨[0], rfl, (Denotes.nil 10).cons (by decide), h₁.pos, fun h => absurd h (lt_irrefl 0)⟩
  have hrun : AfterRows l₁ l₂ v₁ (l₂.map digitChar).length ((l₂.map digitChar).zipIdx.foldl (addNext (l₁.reverse.map digitChar)) ['0']) := by
    refine foldl_zipIdx_of_steps (fun k res c hc h => ?_) hinit
    rw [getElem?_map, map_eq_some_iff] at hc
    obtain ⟨d, hd, rfl⟩ := hc
    rw [addNext, digitOf_digitChar (h₂.denotes.lt d (mem_of_getElem? hd))]
    exact h.step h₁.denotes h₂.denotes.lt hd
  rw [length_map] at hrun
  obtain ⟨rs, hres, hrs, -, hf⟩ := hrun
  rw [take_length, h₂.denotes.value] at hrs
  rw [hres, ← map_reverse]
  exact h₁.toDigits_mul h₂ hrs (hf h₂.pos)

end

/-! ## The vector -/

/-- What the loop over the second number does to the cells, from the lowest one that it changes on: `n` is the digit of the first number. -/
def addRow (n : Nat) : List Nat → List Nat → List Nat
  | a :: b :: cs, d :: ds => (a + n * d) % 10 :: addRow n ((b + (a + n * d) / 10) :: cs) ds
  | cs, _ => cs

/-- What both loops do, with one digit of the first number after the other. -/
def addRows (ds : List Nat) : List Nat → List Nat → List Nat
  | cs, [] => cs
  | cs, n :: ns =>
    match addRow n cs ds with
    | [] => []
    | c :: cs => c :: addRows ds cs ns

variable {ds ns cs back : List Nat} {num1 num2 : Text} {i j : Nat}

@[simp] theorem addRow_nil (n : Nat) (cs : List Nat) : addRow n cs [] = cs := by
  cases cs with
  | nil => rfl
  | cons a cs => cases cs <;> rfl

theorem length_addRow (n : Nat) (cs ds : List Nat) : (addRow n cs ds).length = cs.length := by
  fun_induction addRow n cs ds with
  | case1 a b cs d ds ih => simpa using ih
  | case2 => rfl

theorem ofDigits_addRow (n : Nat) (h : ds.length < cs.length) : ofDigits 10 (addRow n cs ds) = ofDigits 10 cs + n * ofDigits 10 ds := by
  induction ds generalizing cs with
  | nil => simp
  | cons d ds ih =>
    obtain ⟨a, b, cs, rfl⟩ : ∃ a b cs', cs = a :: b :: cs' := by
      match cs, h with
      | a :: b :: cs, _ => exact ⟨a, b, cs, rfl⟩
    have hr : ofDigits 10 (addRow n ((b + (a + n * d) / 10) :: cs) ds) = _ := ih (by simpa using h)
    have hsp := mod_add_div (a + n * d) 10
    rw [addRow, ofDigits_cons, hr]
    simp only [ofDigits_cons]
    linarith

theorem carry_le (hn : n < 10) (hd : d < 10) (ha : a ≤ 18) : (a + n * d) / 10 ≤ 9 := by
  have hprod : n * d ≤ 9 * 9 := Nat.mul_le_mul (Nat.le_of_lt_succ hn) (Nat.le_of_lt_succ hd)
  omega

/-- The cell whose turn it is may go up to 18: the cells that had their turn are digits, and so is the one for the last carry. -/
theorem addRow_digits (hn : n < 10) (hds : ∀ d ∈ ds, d < 10) (ha : a ≤ 18) (hmid : ∀ d ∈ mid, d < 10)
    (hlen : mid.length + 1 = ds.length) (rest : List Nat) :
    ∃ out, addRow n (a :: (mid ++ 0 :: rest)) ds = out ++ rest ∧ out.length = ds.length + 1 ∧ ∀ d ∈ out, d < 10 := by
  induction mid generalizing a ds with
  | nil =>
    obtain ⟨d, rfl⟩ := length_eq_one_iff.mp hlen.symm
    have hcarry := carry_le hn (hds d mem_cons_self) ha
    refine ⟨[(a + n * d) % 10, 0 + (a + n * d) / 10], by rw [nil_append, addRow, addRow_nil]; rfl, rfl, ?_⟩
    simp only [mem_cons, not_mem_nil, or_false, forall_eq_or_imp, forall_eq]
    omega
  | cons b mid ih =>
    obtain ⟨d, ds, rfl⟩ := exists_cons_of_length_eq_add_one hlen.symm
    have hcarry := carry_le hn (hds d mem_cons_self) ha
    have hb := hmid b mem_cons_self
    obtain ⟨out, hout, hlength, hlt⟩ := ih (fun x hx => hds x (mem_cons_of_mem d hx)) (show b + (a + n * d) / 10 ≤ 18 by omega)
      (fun x hx => hmid x (mem_cons_of_mem b hx)) (succ.inj hlen)
    refine ⟨(a + n * d) % 10 :: out, ?_, congrArg (· + 1) hlength, forall_mem_cons.mpr ⟨mod_lt _ (by decide), hlt⟩⟩
    rw [cons_append, addRow, hout, cons_append]

theorem addRows_spec (hns : ∀ d ∈ ns, d < 10) (hds : ∀ d ∈ ds, d < 10) (hpos : 0 < ds.length) (hmid : ∀ d ∈ mid, d < 10)
    (hlen : mid.length = ds.length) :
    Denotes 10 (addRows ds (mid ++ replicate ns.length 0) ns) (ofDigits 10 mid + ofDigits 10 ns * ofDigits 10 ds) ∧
      (addRows ds (mid ++ replicate ns.length 0) ns).length = ns.length + ds.length := by
  induction ns generalizing mid with
  | nil => exact ⟨⟨by simpa [addRows] using hmid, by simp [addRows]⟩, by simp [addRows, hlen]⟩
  | cons n ns ih =>
    obtain ⟨a, mid, rfl⟩ := exists_cons_of_length_pos (hlen.symm ▸ hpos)
    obtain ⟨ha, hmid'⟩ := forall_mem_cons.mp hmid
    obtain ⟨out, hout, hlength, hlt⟩ := addRow_digits (hns n mem_cons_self) hds (show a ≤ 18 by omega) hmid' hlen (replicate ns.length 0)
    obtain ⟨x, mid', rfl⟩ := exists_cons_of_length_eq_add_one hlength
    obtain ⟨hx, hmid''⟩ := forall_mem_cons.mp hlt
    obtain ⟨hr, hrestlen⟩ := ih (fun d hd => hns d (mem_cons_of_mem n hd)) hmid'' (succ.inj hlength)
    have hcs : a :: mid ++ replicate (n :: ns).length 0 = a :: (mid ++ 0 :: replicate ns.length 0) := rfl
    have hshort : ds.length < (a :: (mid ++ 0 :: replicate ns.length 0)).length := by
      rw [← hlen]
      simp
    have hval : x + 10 * ofDigits 10 mid' = ofDigits 10 (a :: mid) + n * ofDigits 10 ds := by
      grind [ofDigits_addRow, ofDigits_append, ofDigits_replicate_zero, ofDigits_cons]
    rw [hcs, addRows, hout, cons_append]
    dsimp only
    refine ⟨?_, by rw [length_cons, hrestlen, length_cons]; ring⟩
    have hsum : x + 10 * (ofDigits 10 mid' + ofDigits 10 ns * ofDigits 10 ds) = ofDigits 10 (a :: mid) + ofDigits 10 (n :: ns) * ofDigits 10 ds := by
      have hcons : ofDigits 10 (n :: ns) = n + 10 * ofDigits 10 ns := ofDigits_cons
      rw [hcons]
      linarith
    rw [← hsum]
    exact hr.cons hx

/-! ## The loops over the vector -/

/-- The cells of the vector: the highest digit is the first element. -/
def vector (l : List Nat) : List Int := l.map (Nat.cast : Nat → Int)

theorem vector_append (l l' : List Nat) : vector (l ++ l') = vector l ++ vector l' := map_append

theorem cellStep_eq (front back : List Int) (a b n1 : Int) {c : Char} (hlen : front.length = i + j) (hc : num2[j]? = some c) :
    cellStep num2 i n1 (front ++ b :: a :: back) j = some (front ++ (b + (a + n1 * digitOf c).tdiv 10) :: (a + n1 * digitOf c).tmod 10 :: back) := by
  have hn : i + j + 1 - front.length = 1 := by omega
  have hr : ∀ y z : Int, (front ++ y :: z :: back)[i + j + 1]? = some z ∧ (front ++ y :: z :: back)[i + j]? = some y := by grind
  have hwrite : ∀ y z u : Int, (front ++ y :: z :: back).set (i + j + 1) u = front ++ y :: u :: back := by grind
  have hwrite' : ∀ y z u : Int, (front ++ y :: z :: back).set (i + j) u = front ++ u :: z :: back := by grind
  simp only [cellStep, hc, (hr b a).1, hwrite, (hr b _).2, hwrite', bind_eq_bind, bind_some, Option.pure_def]

/-- The digits of a number that are still to come: the next one, and those after it. -/
theorem read_digit {num : Text} (h : (d :: ds).reverse.map digitChar <+: num) :
    num[ds.length]? = some (digitChar d) ∧ ds.reverse.map digitChar <+: num := by
  obtain ⟨t, rfl⟩ := h
  rw [reverse_cons, map_append, append_assoc]
  refine ⟨?_, prefix_append _ _⟩
  rw [getElem?_append_right (by simp)]
  simp

/-- The loop over the second number, whose digits that are still to come are `ds`. -/
theorem foldlM_cellStep (n : Nat) (hds : ∀ d ∈ ds, d < 10) (hnum : ds.reverse.map digitChar <+: num2) (hlen : cs.length = i + ds.length + 1)
    (back : List Nat) : (range ds.length).reverse.foldlM (cellStep num2 i n) (vector (cs.reverse ++ back)) =
      some (vector ((addRow n cs ds).reverse ++ back)) := by
  induction ds generalizing cs back with
  | nil =>
    rw [addRow_nil]
    rfl
  | cons d ds ih =>
    obtain ⟨a, b, cs, rfl⟩ : ∃ a b cs', cs = a :: b :: cs' := by
      match cs, hlen with
      | a :: b :: cs, _ => exact ⟨a, b, cs, rfl⟩
    obtain ⟨hread, hr⟩ := read_digit hnum
    rw [length_cons, length_cons, length_cons] at hlen
    have hlen' : (vector cs.reverse).length = i + ds.length := by
      rw [vector, length_map, length_reverse]
      omega
    have hs : cellStep num2 i n (vector ((a :: b :: cs).reverse ++ back)) ds.length =
        some (vector (((b + (a + n * d) / 10) :: cs).reverse ++ (a + n * d) % 10 :: back)) := by
      have hc := cellStep_eq (vector cs.reverse) (vector back) a b n hlen' hread
      have hsum : (a : Int) + n * d = (a + n * d : Nat) := by push_cast; rfl
      have hcs : ∀ y x : Nat, vector ((y :: cs).reverse ++ x :: back) = vector cs.reverse ++ (y : Int) :: (x : Int) :: vector back := by
        intro y x
        rw [reverse_cons, append_assoc, vector_append]
        rfl
      rw [digitOf_digitChar (hds d mem_cons_self), hsum, tdiv_natCast, tmod_natCast, ← cast_add, ← hcs, ← hcs] at hc
      rw [reverse_cons, append_assoc]
      exact hc
    have hl := ih (fun x hx => hds x (mem_cons_of_mem d hx)) hr (show ((b + (a + n * d) / 10) :: cs).length = i + ds.length + 1 by
      rw [length_cons]; omega) ((a + n * d) % 10 :: back)
    rw [length_cons, foldlM_range_reverse, hs, bind_some, hl, addRow, reverse_cons, append_assoc]
    rfl

theorem foldlM_addDigit (hns : ∀ d ∈ ns, d < 10) (hds : ∀ d ∈ ds, d < 10) (hnum : ns.reverse.map digitChar <+: num1)
    (hlen : cs.length = ns.length + ds.length) (back : List Nat) :
    (range ns.length).reverse.foldlM (addDigit num1 (ds.reverse.map digitChar)) (vector (cs.reverse ++ back)) =
      some (vector ((addRows ds cs ns).reverse ++ back)) := by
  induction ns generalizing cs back with
  | nil => rfl
  | cons n ns ih =>
    obtain ⟨hread, hr⟩ := read_digit hnum
    rw [length_cons] at hlen
    have hinner := foldlM_cellStep n hds (prefix_refl _) (show cs.length = ns.length + ds.length + 1 by omega) back
    have hs : addDigit num1 (ds.reverse.map digitChar) (vector (cs.reverse ++ back)) ns.length =
        some (vector ((addRow n cs ds).reverse ++ back)) := by
      rw [addDigit, hread, length_map, length_reverse]
      simp only [bind_eq_bind, bind_some, digitOf_digitChar (hns n mem_cons_self), hinner]
    have hlength := length_addRow n cs ds
    rw [length_cons, foldlM_range_reverse, hs, bind_some, addRows]
    cases hrow : addRow n cs ds with
    | nil =>
      rw [hrow, length_nil] at hlength
      omega
    | cons x cs' =>
      rw [hrow, length_cons] at hlength
      have hl := ih (fun d hd => hns d (mem_cons_of_mem n hd)) hr (show cs'.length = ns.length + ds.length by omega) (x :: back)
      dsimp only
      rw [reverse_cons, append_assoc, reverse_cons, append_assoc]
      exact hl

/-- The vector after the loops has the digits of the product, and may have a zero in front. -/
theorem cells_spec (h₁ : Denotes 10 l₁ v₁) (h₂ : Denotes 10 l₂ v2) (hpos : 0 < l₂.length) :
    ∃ rs, cells (l₁.reverse.map digitChar) (l₂.reverse.map digitChar) = some (vector rs.reverse) ∧ Denotes 10 rs (v₁ * v2) ∧
      rs.length = l₁.length + l₂.length := by
  have hzeros : ∀ d ∈ replicate l₂.length 0, d < 10 := fun d hd => (eq_of_mem_replicate hd).trans_lt (by decide)
  obtain ⟨hval, hlen⟩ := addRows_spec h₁.lt h₂.lt hpos hzeros length_replicate
  have hrun := foldlM_addDigit h₁.lt h₂.lt (prefix_refl _)
    (show (replicate l₂.length 0 ++ replicate l₁.length 0).length = l₁.length + l₂.length by simp [add_comm]) []
  rw [ofDigits_replicate_zero, zero_add, h₁.value, h₂.value] at hval
  have hinit : vector ((replicate l₂.length 0 ++ replicate l₁.length 0).reverse ++ []) = replicate (l₁.length + l₂.length) 0 := by
    rw [append_nil, replicate_append_replicate, reverse_replicate, add_comm, vector, map_replicate]
    rfl
  rw [hinit, append_nil] at hrun
  refine ⟨_, ?_, hval, hlen⟩
  rw [cells, length_map, length_reverse, length_map, length_reverse]
  exact hrun

theorem vector_chars (h : ∀ d ∈ rs, d < 10) : (vector rs).map charOf = rs.map digitChar := by
  rw [vector, List.map_map]
  exact map_congr_left fun d hd => charOf_natCast (h d hd)

theorem multiply_cells (h₁ : Numeral l₁ v₁) (h₂ : Numeral l₂ v2) :
    ∃ ans first, cells (l₁.reverse.map digitChar) (l₂.reverse.map digitChar) = some ans ∧ ans[0]? = some first ∧
      (ans.drop (if 0 = first then 1 else 0)).map charOf = Nat.toDigits 10 (v₁ * v2) := by
  obtain ⟨rs, hcs, hrs, hlen⟩ := cells_spec h₁.denotes h₂.denotes h₂.pos
  have hpos1 := h₁.pos
  obtain ⟨low, t, rfl⟩ : ∃ low t, rs = low ++ [t] := by
    have hne : rs ≠ [] := ne_nil_of_length_pos (by omega)
    exact ⟨rs.dropLast, rs.getLast hne, (dropLast_append_getLast hne).symm⟩
  have hlt := hrs.lt
  rw [length_append, length_singleton] at hlen
  rw [reverse_append, reverse_singleton, singleton_append] at hcs
  refine ⟨_, t, hcs, rfl, ?_⟩
  by_cases h0 : t = 0
  · subst h0
    have hlow : Denotes 10 low (v₁ * v2) := by
      refine ⟨fun d hd => hlt d (mem_append_left _ hd), ?_⟩
      have hval := hrs.value
      rwa [Nat.ofDigits_append, Nat.ofDigits_singleton, Nat.mul_zero, Nat.add_zero] at hval
    have hchars := vector_chars fun d hd => hlow.lt d (mem_reverse.mp hd)
    rw [Nat.cast_zero, if_pos rfl, vector, map_cons, drop_one, tail_cons, ← vector, hchars]
    exact h₁.toDigits_mul h₂ hlow (Or.inl (by omega))
  · have hpow : 10 ^ low.length ≤ ofDigits 10 (low ++ [t]) := by
      rw [Nat.ofDigits_append, Nat.ofDigits_singleton]
      exact (Nat.le_mul_of_pos_right _ (Nat.pos_of_ne_zero h0)).trans (Nat.le_add_left _ _)
    have hf : Fits 10 (l₁.length + l₂.length - 1) (low ++ [t]) := by
      rw [← hlen, Nat.add_sub_cancel]
      exact Or.inr ⟨by simp, hpow⟩
    have hchars := vector_chars fun d hd => hlt d (mem_reverse.mp hd)
    rw [reverse_append, reverse_singleton, singleton_append] at hchars
    rw [if_neg (by exact_mod_cast Ne.symm h0), drop_zero, hchars, ← h₁.toDigits_mul h₂ hrs hf, reverse_append]
    rfl

/-! ## Decimal strings -/

/-- A decimal string: it begins with a zero only if it is "0". -/
structure Decimal (s : Text) : Prop where
  ne_nil : s ≠ []
  digits : ∀ c ∈ s, c.isDigit
  head : s.head? = some '0' → s = ['0']

theorem Decimal.numeral {s : Text} (h : Decimal s) (hs : s ≠ ['0']) : ∃ l v, Numeral l v ∧ s = l.reverse.map digitChar := by
  obtain ⟨l, v, hl, rfl⟩ := exists_digits h.digits
  have hne : l ≠ [] := fun hnil => h.ne_nil (by rw [hnil]; rfl)
  obtain ⟨low, t, rfl⟩ : ∃ low t, l = low ++ [t] := ⟨l.dropLast, l.getLast hne, (dropLast_append_getLast hne).symm⟩
  have ht : t ≠ 0 := by
    rintro rfl
    exact hs (h.head (by simp))
  refine ⟨low ++ [t], v, ⟨hl, by simp, ?_⟩, rfl⟩
  rw [← hl.value, Nat.ofDigits_append, Nat.ofDigits_singleton, length_append, length_singleton, Nat.add_sub_cancel]
  exact (Nat.le_mul_of_pos_right _ (Nat.pos_of_ne_zero ht)).trans (Nat.le_add_left _ _)

end CsLearning.LeetCode.MultiplyStrings
