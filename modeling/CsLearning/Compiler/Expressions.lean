import CsLearning.Compiler.Calculator

/-!
# Expressions and their derivations

The expressions over numbers, the four operators, `|`, the sign and parentheses, as they are written. Each has one derivation by the
shared rules of `3-2.y` and `3-3.y`; those that fit the strata of `3-1.y` have one derivation there as well.
-/

open List Nat

namespace CsLearning.Compiler

open Tok Non

/-- The tokens of an expression: numbers with their values, and signs. -/
inductive Lexeme (D : Type)
  | number (d : D)
  | plus | minus | times | divide | bar | lparen | rparen

def Lexeme.token {D : Type} : Lexeme D → Tok × Value D
  | .number d => (NUMBER, .d d)
  | .plus => (Tok.plus, .none)
  | .minus => (Tok.minus, .none)
  | .times => (Tok.times, .none)
  | .divide => (Tok.divide, .none)
  | .bar => (Tok.bar, .none)
  | .lparen => (Tok.lparen, .none)
  | .rparen => (Tok.rparen, .none)

inductive Op
  | add | sub | mul | div
deriving DecidableEq

namespace Op

def tok : Op → Tok
  | add => plus
  | sub => minus
  | mul => times
  | div => divide

def char : Op → Char
  | add => '+'
  | sub => '-'
  | mul => '*'
  | div => '/'

def lexeme {D : Type} : Op → Lexeme D
  | add => .plus
  | sub => .minus
  | mul => .times
  | div => .divide

/-- The stratum of the operator in `3-1.y`: 0 for `exp`, 1 for `factor`. -/
def level : Op → Nat
  | add => 0
  | sub => 0
  | mul => 1
  | div => 1

theorem level_lt (op : Op) : op.level < 2 := by
  cases op <;> decide

theorem tok_injective {op op' : Op} (h : op.tok = op'.tok) : op = op' := by
  cases op <;> cases op' <;> first | rfl | cases h

end Op

inductive Expr (D : Type)
  | num (d : D)
  | bin (op : Op) (l r : Expr D)
  | bar (e : Expr D)
  | paren (e : Expr D)
  | neg (e : Expr D)

/-! ## The rules for expressions -/

/-- The rules that `3-2.y` and `3-3.y` share. -/
def binRule (op : Op) : CalcRule := ⟨exp, [exp, op.tok, exp], none, .newast op.char 1 (some 3)⟩

def barRule : CalcRule := ⟨exp, [bar, exp], none, .newast '|' 2 none⟩

def parenRule : CalcRule := ⟨exp, [lparen, exp, rparen], none, .copy 2⟩

def negRule : CalcRule := ⟨exp, [minus, exp], some UMINUS, .newast 'M' 2 none⟩

def numRule : CalcRule := ⟨exp, [NUMBER], none, .newnum 1⟩

/-- The strata of `3-1.y`. -/
def stratum : Nat → Non
  | 0 => exp
  | 1 => factor
  | _ => term

/-- `exp: factor` and `factor: term`. -/
def unitRule31 (k : Nat) : CalcRule := ⟨stratum k, [stratum (k + 1)], none, .copy 1⟩

def binRule31 (op : Op) : CalcRule :=
  ⟨stratum op.level, [stratum op.level, op.tok, stratum (op.level + 1)], none, .newast op.char 1 (some 3)⟩

def barRule31 : CalcRule := ⟨term, [bar, term], none, .newast '|' 2 none⟩

def parenRule31 : CalcRule := ⟨term, [lparen, exp, rparen], none, .copy 2⟩

def negRule31 : CalcRule := ⟨term, [minus, term], none, .newast 'M' 2 none⟩

def numRule31 : CalcRule := ⟨term, [NUMBER], none, .newnum 1⟩

theorem rules31 : grammar31.rules = [⟨calclist, [], none, .none⟩, ⟨calclist, [calclist, exp, EOL], none, .none⟩,
    ⟨calclist, [calclist, EOL], none, .none⟩, unitRule31 0, binRule31 .add, binRule31 .sub, unitRule31 1, binRule31 .mul,
    binRule31 .div, numRule31, barRule31, parenRule31, negRule31] := rfl

namespace Expr

variable {D : Type}

def lexemes : Expr D → List (Lexeme D)
  | num d => [.number d]
  | bin op l r => l.lexemes ++ op.lexeme :: r.lexemes
  | bar e => .bar :: e.lexemes
  | paren e => .lparen :: (e.lexemes ++ [.rparen])
  | neg e => .minus :: e.lexemes

def ast : Expr D → Ast D
  | num d => .numval d
  | bin op l r => .ast op.char l.ast r.ast
  | bar e => .ast '|' e.ast .null
  | paren e => e.ast
  | neg e => .ast 'M' e.ast .null

/-- The expression is written as the stratum `k` allows. -/
def Fits : Nat → Expr D → Prop
  | _, num _ => True
  | k, bin op l r => k ≤ op.level ∧ l.Fits op.level ∧ r.Fits (op.level + 1)
  | _, bar e => e.Fits 2
  | _, paren e => e.Fits 0
  | _, neg e => e.Fits 2

/-- A sign as a leaf. -/
def sign (t : Tok) : CalcTree D := .leaf t .none

/-- The derivation by the shared rules. -/
def tree : Expr D → CalcTree D
  | num d => .node numRule [.leaf NUMBER (.d d)]
  | bin op l r => .node (binRule op) [l.tree, sign op.tok, r.tree]
  | bar e => .node barRule [sign Tok.bar, e.tree]
  | paren e => .node parenRule [sign lparen, e.tree, sign rparen]
  | neg e => .node negRule [sign minus, e.tree]

/-- A derivation of the stratum `k + n` as one of the stratum `k`. -/
def lift (k : Nat) : Nat → CalcTree D → CalcTree D
  | 0, t => t
  | n + 1, t => .node (unitRule31 k) [lift (k + 1) n t]

/-- The derivation of the stratum `k` of `3-1.y`. -/
def tree31 : Expr D → Nat → CalcTree D
  | num d, k => lift k (2 - k) (.node numRule31 [.leaf NUMBER (.d d)])
  | bin op l r, k =>
    lift k (op.level - k) (.node (binRule31 op) [l.tree31 op.level, sign op.tok, r.tree31 (op.level + 1)])
  | bar e, k => lift k (2 - k) (.node barRule31 [sign Tok.bar, e.tree31 2])
  | paren e, k => lift k (2 - k) (.node parenRule31 [sign lparen, e.tree31 0, sign rparen])
  | neg e, k => lift k (2 - k) (.node negRule31 [sign minus, e.tree31 2])

/-! ## Tokens and values of the derivations -/

/-- The tokens of an expression. -/
def tokens (e : Expr D) : List (Tok × Value D) := e.lexemes.map Lexeme.token

@[simp] theorem yield_sign (t : Tok) : (sign t : CalcTree D).yield = [(t, .none)] := rfl

@[simp] theorem root_sign (t : Tok) : (sign t : CalcTree D).root = .terminal t := rfl

@[simp] theorem token_lexeme (op : Op) : (op.lexeme : Lexeme D).token = (op.tok, .none) := by
  cases op <;> rfl

@[simp] theorem yield_lift (k n : Nat) (t : CalcTree D) : (lift k n t).yield = t.yield := by
  induction n generalizing k with
  | zero => rfl
  | succ n ih => simp [lift, Tree.yield, Tree.yields, ih]

@[simp] theorem value_lift (k n : Nat) (t : CalcTree D) : (lift k n t).value Action.run = t.value Action.run := by
  induction n generalizing k with
  | zero => rfl
  | succ n ih => simp [lift, unitRule31, Tree.value, Tree.values, Action.run, arg, ih]

theorem yield_tree (e : Expr D) : e.tree.yield = e.tokens := by
  induction e with
  | num d => rfl
  | bin op l r ihl ihr => simp [tree, Tree.yield, Tree.yields, tokens, lexemes, ihl, ihr]
  | bar e ih => simp [tree, Tree.yield, Tree.yields, tokens, lexemes, ih, Lexeme.token]
  | paren e ih => simp [tree, Tree.yield, Tree.yields, tokens, lexemes, ih, Lexeme.token]
  | neg e ih => simp [tree, Tree.yield, Tree.yields, tokens, lexemes, ih, Lexeme.token]

theorem yield_tree31 (e : Expr D) (k : Nat) : (e.tree31 k).yield = e.tokens := by
  induction e generalizing k with
  | num d => simp [tree31, Tree.yield, Tree.yields, tokens, lexemes, Lexeme.token]
  | bin op l r ihl ihr => simp [tree31, Tree.yield, Tree.yields, tokens, lexemes, ihl, ihr]
  | bar e ih => simp [tree31, Tree.yield, Tree.yields, tokens, lexemes, ih, Lexeme.token]
  | paren e ih => simp [tree31, Tree.yield, Tree.yields, tokens, lexemes, ih, Lexeme.token]
  | neg e ih => simp [tree31, Tree.yield, Tree.yields, tokens, lexemes, ih, Lexeme.token]

theorem value_tree (e : Expr D) : e.tree.value Action.run = .a e.ast := by
  induction e with
  | num d => rfl
  | bin op l r ihl ihr => simp [tree, Tree.value, Tree.values, ast, binRule, Action.run, arg, argOrNull, ihl, ihr]
  | bar e ih => simp [tree, Tree.value, Tree.values, ast, barRule, Action.run, arg, argOrNull, ih]
  | paren e ih => simp [tree, Tree.value, Tree.values, ast, parenRule, Action.run, arg, ih]
  | neg e ih => simp [tree, Tree.value, Tree.values, ast, negRule, Action.run, arg, argOrNull, ih]

theorem value_tree31 (e : Expr D) (k : Nat) : (e.tree31 k).value Action.run = .a e.ast := by
  induction e generalizing k with
  | num d => simp [tree31, Tree.value, Tree.values, ast, numRule31, Action.run, arg]
  | bin op l r ihl ihr => simp [tree31, Tree.value, Tree.values, ast, binRule31, Action.run, arg, argOrNull, ihl, ihr]
  | bar e ih => simp [tree31, Tree.value, Tree.values, ast, barRule31, Action.run, arg, argOrNull, ih]
  | paren e ih => simp [tree31, Tree.value, Tree.values, ast, parenRule31, Action.run, arg, ih]
  | neg e ih => simp [tree31, Tree.value, Tree.values, ast, negRule31, Action.run, arg, argOrNull, ih]

@[simp] theorem root_tree (e : Expr D) : e.tree.root = .nonterminal exp := by
  cases e <;> rfl

theorem binRule_injective {op op' : Op} (h : binRule op = binRule op') : op = op' := by
  cases op <;> cases op' <;> first | rfl | cases h

theorem tree_injective {e e' : Expr D} (h : e.tree = e'.tree) : e = e' := by
  induction e generalizing e' with
  | num d =>
    cases e' with
    | num d' =>
      simp only [tree, Tree.node.injEq, cons.injEq, Tree.leaf.injEq, Value.d.injEq] at h
      rw [h.2.1.2]
    | _ => simp [tree, parenRule] at h
  | bin op l r ihl ihr =>
    cases e' with
    | bin op' l' r' => grind [tree, binRule_injective]
    | _ => simp [tree, binRule, parenRule] at h
  | bar e ih =>
    cases e' with
    | bar e' =>
      simp only [tree, Tree.node.injEq, cons.injEq] at h
      rw [ih h.2.2.1]
    | _ => simp [tree, barRule, negRule] at h
  | paren e ih =>
    cases e' with
    | paren e' =>
      simp only [tree, Tree.node.injEq, cons.injEq] at h
      rw [ih h.2.2.1]
    | _ => simp [tree, binRule, parenRule] at h
  | neg e ih =>
    cases e' with
    | neg e' =>
      simp only [tree, Tree.node.injEq, cons.injEq] at h
      rw [ih h.2.2.1]
    | _ => simp [tree, barRule, negRule] at h

theorem map_eq_two {α β : Type} {f : α → β} {l : List α} {a b : β} (h : l.map f = [a, b]) : ∃ x y, l = [x, y] ∧ f x = a ∧ f y = b := by
  obtain ⟨x, l, rfl, hx, h⟩ := map_eq_cons_iff.1 h
  obtain ⟨y, rfl, hy⟩ := map_eq_singleton_iff.1 h
  exact ⟨x, y, rfl, hx, hy⟩

theorem map_eq_three {α β : Type} {f : α → β} {l : List α} {a b c : β} (h : l.map f = [a, b, c]) :
    ∃ x y z, l = [x, y, z] ∧ f x = a ∧ f y = b ∧ f z = c := by
  obtain ⟨x, l, rfl, hx, h⟩ := map_eq_cons_iff.1 h
  obtain ⟨y, z, rfl, hy, hz⟩ := map_eq_two h
  exact ⟨x, y, z, rfl, hx, hy, hz⟩

/-- The tokens are lexemes. -/
def AllLexemes (w : List (Tok × Value D)) : Prop := ∀ x ∈ w, ∃ l : Lexeme D, l.token = x

variable {e r : Expr D} {T : CalcTree D} {k k' : Nat}

theorem sign_of_root {t : Tok} (ht : t ≠ NUMBER) (h : T.root = .terminal t) (hlex : AllLexemes T.yield) : T = sign t := by
  cases T with
  | node r cs => cases h
  | leaf t' v =>
    obtain rfl : t' = t := by simpa [Tree.root] using h
    obtain ⟨l, hl⟩ := hlex (t', v) (by simp [Tree.yield])
    cases l <;> cases hl <;> first | rfl | exact absurd rfl ht

theorem number_of_root (h : T.root = .terminal NUMBER) (hlex : AllLexemes T.yield) : ∃ d, T = .leaf NUMBER (.d d) := by
  cases T with
  | node r cs => cases h
  | leaf t' v =>
    obtain rfl : t' = NUMBER := by simpa [Tree.root] using h
    obtain ⟨l, hl⟩ := hlex (NUMBER, v) (by simp [Tree.yield])
    cases l <;> cases hl
    exact ⟨_, rfl⟩

theorem tree31_unit (hk : k < 2) (h : e.Fits (k + 1)) : e.tree31 k = .node (unitRule31 k) [e.tree31 (k + 1)] := by
  have hsub : 2 - k = 2 - (k + 1) + 1 := by omega
  cases e with
  | bin op l r =>
    have hlv : op.level - k = op.level - (k + 1) + 1 := by have := h.1; omega
    rw [tree31, hlv]
    rfl
  | _ =>
    rw [tree31, hsub]
    rfl

theorem Fits.mono (h : e.Fits k') (hk : k ≤ k') : e.Fits k := by
  cases e with
  | bin op l r => exact ⟨hk.trans h.1, h.2⟩
  | _ => exact h

theorem unitRule31_mem (hk : k < 2) : unitRule31 k ∈ grammar31.rules := by
  interval_cases k <;> decide

theorem binRule31_mem (op : Op) : binRule31 op ∈ grammar31.rules := by
  cases op <;> decide

/-- A derivation of the stratum `k`. -/
def Derives31 (k : Nat) (t : CalcTree D) : Prop := grammar31.Derives t ∧ t.root = .nonterminal (stratum k)

theorem Derives31.node {r : CalcRule} {cs : List (CalcTree D)} (hr : r ∈ grammar31.rules) (hk : r.lhs = stratum k)
    (hroots : cs.map Tree.root = r.rhs) (hcs : ∀ c ∈ cs, grammar31.Derives c) : Derives31 k (.node r cs) :=
  ⟨.node r cs hr hroots hcs, by rw [Tree.root, hk]⟩

theorem Derives31.lift {k m : Nat} {t : CalcTree D} (hkm : k ≤ m) (hm : m ≤ 2) (ht : Derives31 m t) : Derives31 k (lift k (m - k) t) := by
  obtain ⟨n, rfl⟩ := Nat.exists_eq_add_of_le hkm
  rw [Nat.add_sub_cancel_left]
  induction n generalizing k with
  | zero => exact ht
  | succ n ih =>
    have hch : Derives31 (k + 1) (Expr.lift (k + 1) n t) := ih (by omega) (by omega) (by rwa [Nat.add_right_comm])
    refine .node (unitRule31_mem (by omega)) rfl ?_ ?_
    · simp [unitRule31, hch.2]
    · simpa using hch.1

theorem derives31_tree31 (hk : k ≤ 2) (h : e.Fits k) : Derives31 k (e.tree31 k) := by
  have hsign (t : Tok) : grammar31.Derives (sign t : CalcTree D) := .leaf t Value.none
  induction e generalizing k with
  | num d =>
    refine .lift hk le_rfl (.node (by decide) rfl rfl ?_)
    simpa using Grammar.Derives.leaf _ _
  | bin op l r ihl ihr =>
    have hl := ihl op.level_lt.le h.2.1
    have hr := ihr op.level_lt h.2.2
    refine .lift h.1 op.level_lt.le (.node (binRule31_mem op) rfl ?_ ?_)
    · simp [binRule31, hl.2, hr.2]
    · simpa using ⟨hl.1, hsign _, hr.1⟩
  | bar e ih =>
    have he := ih le_rfl h
    refine .lift hk le_rfl (.node (by decide) rfl ?_ ?_)
    · simp [barRule31, he.2, stratum]
    · simpa using ⟨hsign _, he.1⟩
  | paren e ih =>
    have he := ih (zero_le 2) h
    refine .lift hk le_rfl (.node (by decide) rfl ?_ ?_)
    · simp [parenRule31, he.2, stratum]
    · simpa using ⟨hsign _, he.1, hsign _⟩
  | neg e ih =>
    have he := ih le_rfl h
    refine .lift hk le_rfl (.node (by decide) rfl ?_ ?_)
    · simp [negRule31, he.2, stratum]
    · simpa using ⟨hsign _, he.1⟩

theorem stratum_inj (hk : k ≤ 2) (hk' : k' ≤ 2) (h : stratum k = stratum k') : k = k' := by
  interval_cases k <;> interval_cases k' <;> first | rfl | cases h

theorem exists_of_derives31 (h : grammar31.Derives T) (hlex : AllLexemes T.yield) (hk : k ≤ 2)
    (hroot : T.root = .nonterminal (stratum k)) : ∃ e : Expr D, e.Fits k ∧ T = e.tree31 k := by
  induction h generalizing k with
  | leaf t v => cases hroot
  | node r cs hr hcs hall ih =>
    have hlhs : r.lhs = stratum k := by simpa [Tree.root] using hroot
    have hch : ∀ c ∈ cs, AllLexemes c.yield := fun c hc x hx => hlex x (Tree.yield_subset_yields hc hx)
    have hcalc : stratum k ≠ calclist := by interval_cases k <;> decide
    rw [rules31] at hr
    simp only [mem_cons, not_mem_nil, or_false] at hr
    have unit {k' : Nat} (hk' : k' < 2) (hr : r = unitRule31 k') : ∃ e : Expr D, e.Fits k ∧ Tree.node r cs = e.tree31 k := by
      subst hr
      obtain rfl := stratum_inj hk hk'.le hlhs.symm
      obtain ⟨c, rfl, hc⟩ := map_eq_singleton_iff.1 hcs
      obtain ⟨e, he, rfl⟩ := ih c (by simp) (hch c (by simp)) hk' hc
      exact ⟨e, he.mono (le_succ k), (tree31_unit hk' he).symm⟩
    have bin (op : Op) (hr : r = binRule31 op) : ∃ e : Expr D, e.Fits k ∧ Tree.node r cs = e.tree31 k := by
      subst hr
      obtain rfl := stratum_inj hk op.level_lt.le hlhs.symm
      obtain ⟨l, o, c, rfl, hl, ho, hc⟩ := map_eq_three hcs
      obtain ⟨el, hel, rfl⟩ := ih l (by simp) (hch l (by simp)) hk hl
      obtain ⟨er, her, rfl⟩ := ih c (by simp) (hch c (by simp)) op.level_lt hc
      obtain rfl := sign_of_root (by cases op <;> decide) ho (hch o (by simp))
      exact ⟨.bin op el er, ⟨le_rfl, hel, her⟩, by simp [tree31, Expr.lift]⟩
    obtain rfl | rfl | rfl | hr | hr | hr | hr | hr | hr | rfl | rfl | rfl | rfl := hr
    · exact absurd hlhs.symm hcalc
    · exact absurd hlhs.symm hcalc
    · exact absurd hlhs.symm hcalc
    · exact unit (by decide) hr
    · exact bin _ hr
    · exact bin _ hr
    · exact unit (by decide) hr
    · exact bin _ hr
    · exact bin _ hr
    · obtain rfl := stratum_inj hk le_rfl hlhs.symm
      obtain ⟨c, rfl, hc⟩ := map_eq_singleton_iff.1 hcs
      obtain ⟨d, rfl⟩ := number_of_root hc (hch c (by simp))
      exact ⟨.num d, trivial, rfl⟩
    · obtain rfl := stratum_inj hk le_rfl hlhs.symm
      obtain ⟨b, c, rfl, hb, hc⟩ := map_eq_two hcs
      obtain rfl := sign_of_root (by decide) hb (hch b (by simp))
      obtain ⟨e, he, rfl⟩ := ih c (by simp) (hch c (by simp)) hk hc
      exact ⟨.bar e, he, rfl⟩
    · obtain rfl := stratum_inj hk le_rfl hlhs.symm
      obtain ⟨b, c, b', rfl, hb, hc, hb'⟩ := map_eq_three hcs
      obtain rfl := sign_of_root (by decide) hb (hch b (by simp))
      obtain rfl := sign_of_root (by decide) hb' (hch b' (by simp))
      obtain ⟨e, he, rfl⟩ := ih c (by simp) (hch c (by simp)) (zero_le 2) hc
      exact ⟨.paren e, he, rfl⟩
    · obtain rfl := stratum_inj hk le_rfl hlhs.symm
      obtain ⟨b, c, rfl, hb, hc⟩ := map_eq_two hcs
      obtain rfl := sign_of_root (by decide) hb (hch b (by simp))
      obtain ⟨e, he, rfl⟩ := ih c (by simp) (hch c (by simp)) hk hc
      exact ⟨.neg e, he, rfl⟩

/-! ## Every expression can be written in the strata -/

theorem exists_snoc {l r : Expr D} (op : Op) (hl : l.Fits 0) (hr : r.Fits 2) :
    ∃ e : Expr D, e.Fits 0 ∧ e.lexemes = l.lexemes ++ op.lexeme :: r.lexemes := by
  by_cases hlow : l.Fits op.level
  · exact ⟨.bin op l r, ⟨zero_le _, hlow, hr.mono op.level_lt⟩, rfl⟩
  · -- The left operand is a sum and the operator binds its last summand.
    cases l with
    | bin op' l' r' =>
      have hop : op.level = 1 ∧ op'.level = 0 := by
        have hlt := op.level_lt
        have hnot : ¬ op.level ≤ op'.level := fun hle => hlow ⟨hle, hl.2⟩
        omega
      obtain ⟨-, hl', hr'⟩ := hl
      rw [hop.2] at hl' hr'
      refine ⟨.bin op' l' (.bin op r' r), ⟨zero_le _, ?_, ?_⟩, by simp [lexemes]⟩
      · rwa [hop.2]
      · rw [hop.2]
        refine ⟨hop.1.ge, ?_, ?_⟩
        · rwa [hop.1]
        · rwa [hop.1]
    | num d => exact absurd trivial hlow
    | bar e => exact absurd hl hlow
    | paren e => exact absurd hl hlow
    | neg e => exact absurd hl hlow

theorem exists_join {l r : Expr D} (op : Op) (hl : l.Fits 0) (hr : r.Fits 0) :
    ∃ e : Expr D, e.Fits 0 ∧ e.lexemes = l.lexemes ++ op.lexeme :: r.lexemes := by
  induction r generalizing l op with
  | bin op' r1 r2 ih1 ih2 =>
    obtain ⟨e1, he1, hlex1⟩ := ih1 op hl (hr.2.1.mono (zero_le _))
    obtain ⟨e2, he2, hlex2⟩ := ih2 op' he1 (hr.2.2.mono (zero_le _))
    exact ⟨e2, he2, by simp [hlex2, hlex1, lexemes]⟩
  | num d => exact exists_snoc op hl hr
  | bar e => exact exists_snoc op hl hr
  | paren e => exact exists_snoc op hl hr
  | neg e => exact exists_snoc op hl hr

/-- A prefix operator in front of a whole expression applies to its first operand. -/
theorem exists_prefixed {f : Expr D → Expr D} {x : Lexeme D} (hf : ∀ e, e.Fits 2 → (f e).Fits 2)
    (hlex : ∀ e, (f e).lexemes = x :: e.lexemes) (he : e.Fits 0) :
    ∃ e' : Expr D, e'.Fits 0 ∧ e'.lexemes = x :: e.lexemes := by
  induction e with
  | bin op l r ihl _ =>
    obtain ⟨l', hl', hlex'⟩ := ihl (he.2.1.mono (zero_le _))
    obtain ⟨e', he', hlex''⟩ := exists_join op hl' (he.2.2.mono (zero_le _))
    exact ⟨e', he', by simp [hlex'', hlex', lexemes]⟩
  | num d => exact ⟨f (.num d), (hf (.num d) he).mono (zero_le 2), hlex _⟩
  | bar e => exact ⟨f (.bar e), (hf (.bar e) he).mono (zero_le 2), hlex _⟩
  | paren e => exact ⟨f (.paren e), (hf (.paren e) he).mono (zero_le 2), hlex _⟩
  | neg e => exact ⟨f (.neg e), (hf (.neg e) he).mono (zero_le 2), hlex _⟩

theorem exists_fits (e : Expr D) : ∃ e' : Expr D, e'.Fits 0 ∧ e'.lexemes = e.lexemes := by
  induction e with
  | num d => exact ⟨.num d, trivial, rfl⟩
  | bin op l r ihl ihr =>
    obtain ⟨l', hl', hlexl⟩ := ihl
    obtain ⟨r', hr', hlexr⟩ := ihr
    obtain ⟨e', he', hlex⟩ := exists_join op hl' hr'
    exact ⟨e', he', by rw [hlex, hlexl, hlexr, lexemes]⟩
  | bar e ih =>
    obtain ⟨e', he', hlex⟩ := ih
    obtain ⟨e'', he'', hlex'⟩ := exists_prefixed (f := .bar) (x := .bar) (fun _ h => h) (fun _ => rfl) he'
    exact ⟨e'', he'', by rw [hlex', hlex, lexemes]⟩
  | paren e ih =>
    obtain ⟨e', he', hlex⟩ := ih
    exact ⟨.paren e', he', by rw [lexemes, hlex, lexemes]⟩
  | neg e ih =>
    obtain ⟨e', he', hlex⟩ := ih
    obtain ⟨e'', he'', hlex'⟩ := exists_prefixed (f := .neg) (x := .minus) (fun _ h => h) (fun _ => rfl) he'
    exact ⟨e'', he'', by rw [hlex', hlex, lexemes]⟩

end Expr

end CsLearning.Compiler
