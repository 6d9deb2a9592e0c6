import CsLearning.Compiler.Expressions

/-!
# Parsing expressions with precedences

What the parsers of `3-2.y` and `3-3.y` do on an expression written in the strata of `3-1.y`. Between two tokens the stack holds the
operators whose right operand is still being read (`Pending`); the symbols on its top decide which rules can be reduced, and the
precedences settle the rest. `IsCalculator` collects what is asked of the grammar, and both grammars have it by inspection.
-/

open List Option Prod

namespace CsLearning.Compiler

open Tok Non

/-! ## Open operators -/

/-- An operator that waits for an expression. -/
inductive Pending (D : Type)
  | paren
  | bar
  | neg
  | bin (op : Op) (l : Expr D)

def emptyRule : CalcRule := ⟨calclist, [], none, .none⟩

/-- The `calclist` before the first line. -/
def emptyTree {D : Type} : CalcTree D := .node emptyRule []

namespace Pending

variable {D : Type}

def trees : Pending D → List (CalcTree D)
  | paren => [Expr.sign lparen]
  | bar => [Expr.sign Tok.bar]
  | neg => [Expr.sign minus]
  | bin op l => [Expr.sign op.tok, l.tree]

/-- The expression that the operator makes of the one it waits for. -/
def apply : Pending D → Expr D → Expr D
  | paren, e => .paren e
  | bar, e => .bar e
  | neg, e => .neg e
  | bin op l, e => .bin op l e

/-- The rule that is complete once the expression is there; a parenthesis waits for another. -/
def rule : Pending D → Option CalcRule
  | paren => none
  | bar => some barRule
  | neg => some negRule
  | bin op _ => some (binRule op)

def stack : List (Pending D) → List (CalcTree D)
  | [] => [emptyTree]
  | f :: K => f.trees ++ stack K

def symbols (K : List (Pending D)) : List Sym := (stack K).map Tree.root

@[simp] theorem map_root_stack (K : List (Pending D)) : (stack K).map Tree.root = symbols K := rfl

@[simp] theorem symbols_nil : symbols ([] : List (Pending D)) = [.nonterminal calclist] := rfl

@[simp] theorem symbols_paren (K : List (Pending D)) : symbols (paren :: K) = .terminal lparen :: symbols K := rfl

@[simp] theorem symbols_bar (K : List (Pending D)) : symbols (bar :: K) = .terminal Tok.bar :: symbols K := rfl

@[simp] theorem symbols_neg (K : List (Pending D)) : symbols (neg :: K) = .terminal minus :: symbols K := rfl

@[simp] theorem symbols_bin (op : Op) (l : Expr D) (K : List (Pending D)) :
    symbols (bin op l :: K) = .terminal op.tok :: .nonterminal exp :: symbols K := by
  unfold symbols
  simp [stack, trees]

/-- The token that ends the expression in the innermost parenthesis or on the line. -/
def closer : List (Pending D) → Tok
  | [] => EOL
  | paren :: _ => rparen
  | _ :: K => closer K

/-- The tokens that can follow an expression. -/
def Follows (K : List (Pending D)) (a : Tok) : Prop := a = closer K ∨ ∃ op : Op, a = op.tok

/-- The operator takes the expression as its left operand before the open one takes it as its right operand. -/
def Loose : List (Pending D) → Op → Prop
  | [], _ => True
  | paren :: _, _ => True
  | bin op' _ :: _, op => op'.level < op.level
  | _, _ => False

end Pending

/-! ## What is asked of a grammar -/

/-- The rules for expressions. -/
def exprRules : List CalcRule := [binRule .add, binRule .sub, binRule .mul, binRule .div, barRule, parenRule, negRule, numRule]

theorem lhs_of_mem_exprRules : ∀ r ∈ exprRules, r.lhs = exp := by decide

/-- The tokens of the larger language that are no lexemes. -/
def foreign : List Tok := [CMP, NAME, FUNC]

/-- The symbols an expression can stand after. -/
def openers : List Sym := [calclist, lparen, bar, minus, plus, times, divide]

/-- Those among them that are operators. -/
def operators : List Sym := [bar, minus, plus, times, divide]

/-- The symbols that end an expression. -/
def enders : List Sym := [exp, NUMBER, rparen]

/-- A grammar that contains the rules for expressions, and in which no other rule interferes with them. `S` are the left sides of
the rules that can begin where an expression can. -/
structure IsCalculator (G : CalcGrammar) (S : List Non) : Prop where
  rules : ∀ r ∈ exprRules, r ∈ G.rules
  others : ∀ r ∈ G.rules, r.lhs = exp → r ∈ exprRules ∨ ∃ t ∈ foreign, .terminal t ∈ r.rhs
  resolve_bin : ∀ op op' : Op, G.resolve (binRule op) op'.tok = if op.level < op'.level then .shift else .reduce
  resolve_bar : ∀ op : Op, G.resolve barRule op.tok = .reduce
  resolve_neg : ∀ op : Op, G.resolve negRule op.tok = .reduce
  unit : ∀ r ∈ G.rules, r.rhs = [.nonterminal exp] → r.lhs ≠ exp ∧ r.precToken = none
  begins : ∀ r ∈ G.rules, r.lhs ∈ S → Grammar.NextIn S r.rhs ∧ r.rhs ≠ []
  begins_exp : ∀ r ∈ G.rules, r.lhs = exp → Grammar.NextIn [exp] r.rhs
  after_opener : ∀ X ∈ openers, ∀ p ∈ G.shapes [X], Grammar.NextIn S p.2.2 ∧ p.2.2 ≠ []
  after_operator : ∀ X ∈ operators, ∀ p ∈ G.shapes [X], Grammar.NextIn [exp] p.2.2
  after_ender : ∀ X ∈ enders, ∀ p ∈ G.shapes [X], Grammar.NextIn [] p.2.2
  number : ∀ p ∈ G.shapes [.terminal NUMBER], p.1 = numRule ∧ p.2.2 = []
  closed : ∀ p ∈ G.shapes [.terminal rparen, .nonterminal exp, .terminal lparen], p.1 = parenRule ∧ p.2.2 = []
  in_list : ∀ p ∈ G.shapes [.nonterminal exp, .nonterminal calclist], p.2.2 = [] → p.2.1 = [.nonterminal exp]
  in_paren : ∀ p ∈ G.shapes [.nonterminal exp, .terminal lparen], p.2.2 = [] → p.2.1 = [.nonterminal exp]
  in_bar : ∀ p ∈ G.shapes [.nonterminal exp, .terminal bar], p.2.2 = [] → p.2.1 = [.nonterminal exp] ∨ p.1 = barRule
  in_neg : ∀ X ∈ openers, ∀ p ∈ G.shapes [.nonterminal exp, .terminal minus, X], p.2.2 = [] →
    p.2.1 = [.nonterminal exp] ∨ p.1 = negRule
  in_bin : ∀ op : Op, ∀ p ∈ G.shapes [.nonterminal exp, .terminal op.tok, .nonterminal exp], p.2.2 = [] →
    p.2.1 = [.nonterminal exp] ∨ p.1 = binRule op ∨ p.2.1 = [.nonterminal exp, .terminal op.tok]
  closers : ∀ X ∈ operators, ∀ p ∈ G.shapes [.nonterminal exp, X],
    p.2.2.head? ≠ some (.terminal rparen) ∧ p.2.2.head? ≠ some (.terminal EOL)

theorem isCalculator32 : IsCalculator grammar32 [exp] where
  rules := by decide +kernel
  others := by decide +kernel
  resolve_bin := by intro op op'; cases op <;> cases op' <;> rfl
  resolve_bar := by intro op; cases op <;> rfl
  resolve_neg := by intro op; cases op <;> rfl
  unit := by decide +kernel
  begins := by decide +kernel
  begins_exp := by decide +kernel
  after_opener := by decide +kernel
  after_operator := by decide +kernel
  after_ender := by decide +kernel
  number := by decide +kernel
  closed := by decide +kernel
  in_list := by decide +kernel
  in_paren := by decide +kernel
  in_bar := by decide +kernel
  in_neg := by decide +kernel
  in_bin := by intro op; cases op <;> decide +kernel
  closers := by decide +kernel

theorem isCalculator33 : IsCalculator grammar33 [exp, stmt, explist, symlist] where
  rules := by decide +kernel
  others := by decide +kernel
  resolve_bin := by intro op op'; cases op <;> cases op' <;> rfl
  resolve_bar := by intro op; cases op <;> rfl
  resolve_neg := by intro op; cases op <;> rfl
  unit := by decide +kernel
  begins := by decide +kernel
  begins_exp := by decide +kernel
  after_opener := by decide +kernel
  after_operator := by decide +kernel
  after_ender := by decide +kernel
  number := by decide +kernel
  closed := by decide +kernel
  in_list := by decide +kernel
  in_paren := by decide +kernel
  in_bar := by decide +kernel
  in_neg := by decide +kernel
  in_bin := by intro op; cases op <;> decide +kernel
  closers := by decide +kernel

/-! ## Items on a stack -/

section items

variable {D : Type} {G : CalcGrammar} {S : List Non} {K : List (Pending D)} {γ : List Sym} {r : CalcRule} {a : Option Tok} {t : Tok}

namespace Pending

theorem exists_opener (K : List (Pending D)) : ∃ X ∈ openers, ∃ γ, symbols K = X :: γ := by
  cases K with
  | nil => exact ⟨.nonterminal calclist, by decide, [], rfl⟩
  | cons f K =>
    cases f with
    | paren => exact ⟨.terminal lparen, by decide, _, rfl⟩
    | bar => exact ⟨.terminal Tok.bar, by decide, _, rfl⟩
    | neg => exact ⟨.terminal minus, by decide, _, rfl⟩
    | bin op l => exact ⟨.terminal op.tok, by cases op <;> decide, _, symbols_bin op l K⟩

theorem exists_operator {f : Pending D} (hf : f.rule = some r) (K : List (Pending D)) : ∃ X ∈ operators, ∃ γ, symbols (f :: K) = X :: γ := by
  cases f with
  | paren => cases hf
  | bar => exact ⟨.terminal Tok.bar, by decide, _, rfl⟩
  | neg => exact ⟨.terminal minus, by decide, _, rfl⟩
  | bin op l => exact ⟨.terminal op.tok, by cases op <;> decide, _, symbols_bin op l K⟩

theorem closer_cases (K : List (Pending D)) : closer K = EOL ∨ closer K = rparen := by
  induction K with
  | nil => exact .inl rfl
  | cons f K ih =>
    cases f with
    | paren => exact .inr rfl
    | bar => exact ih
    | neg => exact ih
    | bin op l => exact ih

theorem Follows.cons {f : Pending D} (hf : f.rule = some r) (ht : Follows K t) : Follows (f :: K) t := by
  cases f with
  | paren => cases hf
  | bar => exact ht
  | neg => exact ht
  | bin op l => exact ht

end Pending

open Pending

namespace IsCalculator

section

variable (hG : IsCalculator G S)

include hG

theorem not_begins {X : Sym} (hX : X ∈ enders) {β : List Sym} : ¬ G.Item (X :: γ) r [] β :=
  Grammar.Item.not_begins (hG.after_ender X hX)

theorem lhs_eq_exp {X : Sym} (hX : X ∈ operators) {β : List Sym} (h : G.Item (X :: γ) r [] β) : r.lhs = exp := by
  have hmem : r.lhs ∈ [exp] := h.lhs_mem (by simpa using hG.begins_exp) (by simp) (by simpa using hG.after_operator X hX)
  simpa using hmem

theorem first_expr (hr : r ∈ exprRules) {β β' : List Sym} (hrhs : r.rhs = .terminal t :: β) :
    G.First (.nonterminal exp :: β') a (some t) := by
  rw [← lhs_of_mem_exprRules r hr]
  refine .non (hG.rules r hr) ?_
  rw [hrhs]
  exact .tok t _ a

theorem not_canReduce (K : List (Pending D)) : ¬ G.CanReduce (symbols K) r a := by
  intro h
  obtain ⟨X, hX, γ, hγ⟩ := exists_opener K
  have hτ : [X] <+: symbols K := by simp [hγ]
  rcases h.cases hτ with hi | ⟨Y, α, -, -, hshape⟩
  · rw [hγ] at hi
    have hlhs : r.lhs ∈ S := hi.lhs_mem (fun r hr hS => (hG.begins r hr hS).1) (by simp) (by simpa using fun p hp => (hG.after_opener X hX p hp).1)
    exact (hG.begins r hi.mem hlhs).2 hi.rhs_eq
  · exact (hG.after_opener X hX _ hshape).2 rfl

/-- The rules that are complete after an expression: those that consist of it, and that of the operator it was expected by. -/
theorem complete_cases (h : G.CanReduce (.nonterminal exp :: symbols K) r a) :
    (r.rhs = [.nonterminal exp] ∧ G.Item (symbols K) r [] [.nonterminal exp]) ∨ ∃ f K', K = f :: K' ∧ f.rule = some r := by
  rcases h.cases nil_prefix with hi | ⟨Y, α, hrhs, hi, -⟩
  · exact absurd hi (hG.not_begins (by decide))
  · have hunit (hα : Y :: α = [.nonterminal exp]) : r.rhs = [.nonterminal exp] ∧ G.Item (symbols K) r [] [.nonterminal exp] := by
      obtain ⟨rfl, rfl⟩ := cons_eq_cons.1 hα
      exact ⟨by simpa using hrhs, hi.of_cons.2⟩
    cases K with
    | nil => exact .inl (hunit (hG.in_list _ (hi.mem_shapes (by simp)) rfl))
    | cons f K =>
      cases f with
      | paren => exact .inl (hunit (hG.in_paren _ (hi.mem_shapes (by simp)) rfl))
      | bar =>
        cases hG.in_bar _ (hi.mem_shapes (by simp)) rfl with
        | inl hα => exact .inl (hunit hα)
        | inr hr => exact .inr ⟨_, K, rfl, congrArg some hr.symm⟩
      | neg =>
        obtain ⟨X, hX, γ, hγ⟩ := exists_opener K
        cases hG.in_neg X hX _ (hi.mem_shapes (by simp [hγ])) rfl with
        | inl hα => exact .inl (hunit hα)
        | inr hr => exact .inr ⟨_, K, rfl, congrArg some hr.symm⟩
      | bin op l =>
        rcases hG.in_bin op _ (hi.mem_shapes (by simp)) rfl with hα | hr | hα
        · exact .inl (hunit hα)
        · exact .inr ⟨_, K, rfl, congrArg some hr.symm⟩
        · -- The rule would have begun after the left operand.
          obtain ⟨rfl, rfl⟩ := cons_eq_cons.1 hα
          rw [symbols_bin] at hi
          exact absurd hi.of_cons.2.of_cons.2 (hG.not_begins (by decide))

/-- After an operator the expression itself completes nothing else. -/
theorem rule_of_canReduce {f : Pending D} {r' : CalcRule} (hf : f.rule = some r')
    (h : G.CanReduce (.nonterminal exp :: symbols (f :: K)) r a) : r = r' := by
  obtain ⟨X, hX, γ, hγ⟩ := exists_operator hf K
  rcases hG.complete_cases h with ⟨hrhs, hi⟩ | ⟨f', K', heq, hf'⟩
  · rw [hγ] at hi
    exact absurd (hG.lhs_eq_exp hX hi) (hG.unit r hi.mem hrhs).1
  · grind

theorem not_canShift_closer {f : Pending D} {r' : CalcRule} (hf : f.rule = some r')
    (K' : List (Pending D)) : ¬ G.CanShift (.nonterminal exp :: symbols (f :: K)) (closer K') := by
  rintro ⟨r, α, β, hi⟩
  obtain ⟨X, hX, γ, hγ⟩ := exists_operator hf K
  rw [hγ] at hi
  cases α with
  | nil => exact hG.not_begins (by decide) hi
  | cons Y α =>
    obtain ⟨hparen, heol⟩ := hG.closers X hX _ (hi.mem_shapes (by simp))
    cases closer_cases K' with
    | inl h => exact heol (by simp [h])
    | inr h => exact hparen (by simp [h])

end

end IsCalculator

/-- An expression is expected on the open operators, and the token can follow it. -/
def Expects (G : CalcGrammar) (γ : List Sym) (t : Tok) : Prop :=
  ∃ r α β b, G.Item1 γ r α (.nonterminal exp :: β) b ∧ G.First β b (some t)

theorem Expects.item1 (h : Expects G γ t) (hr : r ∈ G.rules) (hlhs : r.lhs = exp) : G.Item1 γ r [] r.rhs (some t) := by
  obtain ⟨r', α, β, b, hi, hfst⟩ := h
  rw [← hlhs] at hi
  exact hi.closure hr hfst

/-- A grammar in which a line can be an expression. -/
structure ReadsLines (G : CalcGrammar) (S : List Non) : Prop extends IsCalculator G S where
  start : G.start = calclist
  lists : ∀ r ∈ G.rules, r.lhs = calclist → r = emptyRule ∨ r.rhs.head? = some (.nonterminal calclist)
  first : ∀ r ∈ exprRules, ∀ t β, r.rhs = .terminal t :: β → G.Item1 [] emptyRule [] [] (some t)
  line : Expects G [.nonterminal calclist] EOL

namespace ReadsLines

theorem bin_mem (hG : ReadsLines G S) (op : Op) : binRule op ∈ G.rules := by
  apply hG.rules
  cases op <;> decide

theorem expects_op (hG : ReadsLines G S) (h : Expects G γ t) (op : Op) : Expects G γ op.tok :=
  ⟨binRule op, [], [.terminal op.tok, .nonterminal exp], some t, h.item1 (hG.bin_mem op) rfl, .tok _ _ _⟩

theorem expects_closer (hG : ReadsLines G S) (K : List (Pending D)) : Expects G (symbols K) (closer K) := by
  induction K with
  | nil => exact hG.line
  | cons f K ih =>
    cases f with
    | paren =>
      have hi := ih.item1 (hG.rules parenRule (by decide)) rfl
      exact ⟨parenRule, _, _, _, hi.goto, .tok _ _ _⟩
    | bar =>
      have hi := ih.item1 (hG.rules barRule (by decide)) rfl
      exact ⟨barRule, _, _, _, hi.goto, .nil _⟩
    | neg =>
      have hi := ih.item1 (hG.rules negRule (by decide)) rfl
      exact ⟨negRule, _, _, _, hi.goto, .nil _⟩
    | bin op l =>
      have hi := ih.item1 (hG.bin_mem op) rfl
      rw [symbols_bin]
      exact ⟨binRule op, _, _, _, hi.goto.goto, .nil _⟩

theorem item1 (hG : ReadsLines G S) (hr : r ∈ exprRules) (ht : Follows K t) : G.Item1 (symbols K) r [] r.rhs (some t) := by
  have hexpects : Expects G (symbols K) t := by
    rcases ht with rfl | ⟨op, rfl⟩
    · exact hG.expects_closer K
    · exact hG.expects_op (hG.expects_closer K) op
  exact hexpects.item1 (hG.rules r hr) (lhs_of_mem_exprRules r hr)

end ReadsLines

end items

/-! ## Steps of the parser -/

section steps

open Pending

variable {D : Type} {G : CalcGrammar} {S : List Non} {K : List (Pending D)} {γ : List Sym} {r : CalcRule} {t : Tok}
  {w : List (Tok × Value D)} {e : Expr D}

namespace ReadsLines

section

variable (hG : ReadsLines G S)

include hG

theorem shift_first (hr : r ∈ exprRules) {β : List Sym} (hrhs : r.rhs = .terminal t :: β) (v : Value D) :
    G.Step (stack K, (t, v) :: w) (.leaf t v :: stack K, w) := by
  refine .shift ⟨r, [], β, ?_⟩ ?_
  · rw [← hrhs]
    exact (hG.item1 hr (.inl rfl)).item
  · intro r' h
    exact absurd h (hG.not_canReduce K)

theorem reduce_number (d : D) (hw : w.head?.map fst = some t) (ht : Follows K t) :
    G.Step (.leaf NUMBER (.d d) :: stack K, w) ((Expr.num d).tree :: stack K, w) := by
  refine .reduce_shape rfl rfl ?_ (by simp [Tree.root]) (hG.after_ender (.terminal NUMBER) (by decide)) hG.number
  rw [hw]
  exact (hG.item1 (by decide) ht).goto.canReduce

theorem reduce_closed (e : Expr D) (hw : w.head?.map fst = some t) (ht : Follows K t) :
    G.Step (Expr.sign rparen :: e.tree :: stack (paren :: K), w) ((Expr.paren e).tree :: stack K, w) := by
  have hsyms : (Expr.sign rparen :: e.tree :: stack (paren :: K)).map Tree.root =
      .terminal rparen :: .nonterminal exp :: .terminal lparen :: symbols K := by simp
  refine .reduce_shape rfl (by simp [parenRule]) ?_ (by simp [hsyms]) (hG.after_ender (.terminal rparen) (by decide)) hG.closed
  rw [hw, hsyms]
  exact (hG.item1 (by decide) ht).goto.goto.goto.canReduce

/-- What follows is read before the operator is applied, or the operator is preferred. -/
theorem reduce_pending {f : Pending D} (hf : f.rule = some r) (e : Expr D)
    (hw : w.head?.map fst = some t) (ht : Follows K t) (hop : ∀ op : Op, t = op.tok → G.resolve r t = .reduce) :
    G.Step (e.tree :: stack (f :: K), w) ((f.apply e).tree :: stack K, w) := by
  have hsyms : (e.tree :: stack (f :: K)).map Tree.root = .nonterminal exp :: symbols (f :: K) := by simp
  have hsurv (hred : G.CanReduce (.nonterminal exp :: symbols (f :: K)) r (some t)) :
      G.Survives ((e.tree :: stack (f :: K)).map Tree.root) (w.head?.map fst) r := by
    rw [hsyms, hw]
    refine ⟨hred, ?_⟩
    intro t' ht' hsh
    obtain rfl : t = t' := some.inj ht'
    rcases ht with rfl | ⟨op, rfl⟩
    · exact absurd hsh (hG.not_canShift_closer hf K)
    · exact hop op rfl
  have honly (r' : CalcRule) (h : G.Survives ((e.tree :: stack (f :: K)).map Tree.root) (w.head?.map fst) r') : r' = r := by
    rw [hsyms] at h
    exact hG.rule_of_canReduce hf h.1
  cases f with
  | paren => cases hf
  | bar =>
    obtain rfl : barRule = r := some.inj hf
    refine .reduce_only rfl (by simp [barRule]) (hsurv ?_) honly
    exact (hG.item1 (by decide) ht).goto.goto.canReduce
  | neg =>
    obtain rfl : negRule = r := some.inj hf
    refine .reduce_only rfl (by simp [negRule]) (hsurv ?_) honly
    exact (hG.item1 (by decide) ht).goto.goto.canReduce
  | bin op l =>
    obtain rfl : binRule op = r := some.inj hf
    refine .reduce_only rfl (by simp [binRule]) (hsurv ?_) honly
    rw [symbols_bin]
    exact (hG.item1 (by cases op <;> decide) ht).goto.goto.goto.canReduce

/-- A rule that consists of the expression has no precedence, so it never stops a shift. -/
theorem shift_after (hsh : G.CanShift (.nonterminal exp :: symbols K) t) (v : Value D)
    (hloose : ∀ f K' r, K = f :: K' → f.rule = some r → G.resolve r t = .shift) :
    G.Step (e.tree :: stack K, (t, v) :: w) (.leaf t v :: e.tree :: stack K, w) := by
  have hsyms : (e.tree :: stack K).map Tree.root = .nonterminal exp :: symbols K := by simp
  refine .shift (by rwa [hsyms]) ?_
  intro r h
  rw [hsyms] at h
  rcases hG.complete_cases h with ⟨hrhs, hi⟩ | ⟨f, K', hK, hf⟩
  · exact Grammar.resolve_of_precToken (hG.unit r hi.mem hrhs).2 t
  · exact hloose f K' r hK hf

theorem shift_op (op : Op) (hloose : Loose K op) :
    G.Step (e.tree :: stack K, (op.tok, .none) :: w) (stack (bin op e :: K), w) := by
  refine hG.shift_after ⟨binRule op, _, _, (hG.item1 (by cases op <;> decide) (.inl rfl)).item.goto⟩ .none ?_
  rintro f K' r rfl hf
  cases f with
  | paren => cases hf
  | bar => exact hloose.elim
  | neg => exact hloose.elim
  | bin op' l =>
    obtain rfl : binRule op' = r := some.inj hf
    have hlv : op'.level < op.level := hloose
    rw [hG.resolve_bin, if_pos hlv]

theorem shift_rparen :
    G.Step (e.tree :: stack (paren :: K), (rparen, .none) :: w) (Expr.sign rparen :: e.tree :: stack (paren :: K), w) := by
  have hsh : G.CanShift (.nonterminal exp :: symbols (paren :: K)) rparen := ⟨parenRule, _, _, (hG.item1 (by decide) (.inl rfl)).item.goto.goto⟩
  refine hG.shift_after hsh .none ?_
  rintro f K' r heq hf
  obtain ⟨rfl, rfl⟩ := cons_eq_cons.1 heq
  cases hf

end

end ReadsLines

/-! ## Whole expressions -/

/-- Steps of the parser. -/
abbrev Steps (G : CalcGrammar) : List (CalcTree D) × List (Tok × Value D) → List (CalcTree D) × List (Tok × Value D) → Prop :=
  Relation.ReflTransGen G.Step

/-- An expression of the stratum `k` is parsed as it is written, if the open operator leaves it its operators and the token after
it does not bind more tightly. -/
theorem ReadsLines.parse (hG : ReadsLines G S) (e : Expr D) {k : Nat} (hfits : e.Fits k) (K : List (Pending D))
    (hroom : ∀ op : Op, k ≤ op.level → Loose K op) (hw : w.head?.map fst = some t) (ht : Follows K t)
    (hstop : ∀ op : Op, t = op.tok → op.level ≤ k) : Steps G (stack K, e.tokens ++ w) (e.tree :: stack K, w) := by
  induction e generalizing k K w t with
  | num d =>
    have hshift : G.Step (stack K, (Expr.num d).tokens ++ w) (.leaf NUMBER (.d d) :: stack K, w) := hG.shift_first (r := numRule) (by decide) rfl _
    exact .head hshift (.single (hG.reduce_number d hw ht))
  | bin op l r ihl ihr =>
    obtain ⟨hk, hl, hr⟩ := hfits
    have htokens : (Expr.bin op l r).tokens ++ w = l.tokens ++ ((op.tok, .none) :: (r.tokens ++ w)) := by
      simp [Expr.tokens, Expr.lexemes]
    have hleft : Steps G (stack K, (Expr.bin op l r).tokens ++ w) (l.tree :: stack K, (op.tok, .none) :: (r.tokens ++ w)) := by
      rw [htokens]
      refine ihl hl K (fun op' h => hroom op' (hk.trans h)) rfl (.inr ⟨op, rfl⟩) ?_
      intro op' h
      rw [Op.tok_injective h]
    have hright : Steps G (stack (.bin op l :: K), r.tokens ++ w) (r.tree :: stack (.bin op l :: K), w) := by
      refine ihr hr (.bin op l :: K) (fun _ h => h) hw (ht.cons rfl) ?_
      intro op' h
      exact (hstop op' h).trans (hk.trans (Nat.le_succ _))
    refine hleft.trans (.head (hG.shift_op op (hroom op hk)) (hright.tail (hG.reduce_pending rfl r hw ht ?_)))
    rintro op' rfl
    rw [hG.resolve_bin, if_neg (Nat.not_lt.2 ((hstop op' rfl).trans hk))]
  | bar e ih =>
    have hinner : Steps G (stack (.bar :: K), e.tokens ++ w) (e.tree :: stack (.bar :: K), w) :=
      ih hfits (.bar :: K) (fun op h => absurd op.level_lt (Nat.not_lt.2 h)) hw (ht.cons rfl) fun op _ => op.level_lt.le
    refine .head (hG.shift_first (r := barRule) (by decide) rfl _) (hinner.tail (hG.reduce_pending rfl e hw ht ?_))
    rintro op rfl
    exact hG.resolve_bar op
  | neg e ih =>
    have hinner : Steps G (stack (.neg :: K), e.tokens ++ w) (e.tree :: stack (.neg :: K), w) :=
      ih hfits (.neg :: K) (fun op h => absurd op.level_lt (Nat.not_lt.2 h)) hw (ht.cons rfl) fun op _ => op.level_lt.le
    refine .head (hG.shift_first (r := negRule) (by decide) rfl _) (hinner.tail (hG.reduce_pending rfl e hw ht ?_))
    rintro op rfl
    exact hG.resolve_neg op
  | paren e ih =>
    have htokens : (Expr.paren e).tokens ++ w = (lparen, .none) :: (e.tokens ++ ((rparen, .none) :: w)) := by
      simp [Expr.tokens, Expr.lexemes, Lexeme.token]
    have hinner : Steps G (stack (.paren :: K), e.tokens ++ ((rparen, .none) :: w)) (e.tree :: stack (.paren :: K), (rparen, .none) :: w) := by
      refine ih hfits (.paren :: K) (fun _ _ => trivial) rfl (.inl rfl) ?_
      intro op h
      cases op <;> cases h
    rw [htokens]
    refine .head (hG.shift_first (r := parenRule) (by decide) rfl _) (hinner.trans ?_)
    exact .head hG.shift_rparen (.single (hG.reduce_closed e hw ht))

end steps

end CsLearning.Compiler
