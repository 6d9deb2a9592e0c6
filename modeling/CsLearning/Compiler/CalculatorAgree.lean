import CsLearning.Compiler.CalculatorParser

/-!
# The calculators agree

A line that holds an expression is read by the parsers of `3-2.y` and `3-3.y` as the derivation that the strata of `3-1.y` allow, and
there is only one.
-/

open List

namespace CsLearning.Compiler

open Tok Non Pending

/-! ## The line of an expression -/

section lines

variable {D : Type} {G : CalcGrammar} {S : List Non} {t : Tok} {w : List (Tok × Value D)} {e : Expr D}

/-- The token at the end of a line. -/
def eol : Tok × Value D := (EOL, .none)

theorem exists_first (e : Expr D) : ∃ r ∈ exprRules, ∃ t β v w, r.rhs = .terminal t :: β ∧ e.tokens = (t, v) :: w := by
  induction e with
  | num d => exact ⟨numRule, by decide, NUMBER, [], _, [], rfl, rfl⟩
  | bin op l r ihl _ =>
    obtain ⟨rule, hrule, t, β, v, w, hrhs, hl⟩ := ihl
    refine ⟨rule, hrule, t, β, v, w ++ op.lexeme.token :: r.tokens, hrhs, ?_⟩
    simp only [Expr.tokens, Expr.lexemes, map_append] at hl ⊢
    rw [hl]
    rfl
  | bar e _ => exact ⟨barRule, by decide, bar, _, _, _, rfl, rfl⟩
  | paren e _ => exact ⟨parenRule, by decide, lparen, _, _, _, rfl, rfl⟩
  | neg e _ => exact ⟨negRule, by decide, minus, _, _, _, rfl, rfl⟩

namespace ReadsLines

theorem reduce_empty (hG : ReadsLines G S) (hfst : G.Item1 [] emptyRule [] [] (some t)) (v : Value D) :
    G.Step ([], (t, v) :: w) (stack [], (t, v) :: w) := by
  have hlhs {r : CalcRule} {β : List Sym} (h : G.Item [] r [] β) : r = emptyRule ∨ r.rhs.head? = some (.nonterminal calclist) := by
    have hmem : r.lhs ∈ [calclist] := by
      refine h.lhs_mem ?_ (by simp [hG.start]) (by simp)
      intro r hr hS
      rcases hG.lists r hr (by simpa using hS) with rfl | hh
      · trivial
      · obtain ⟨β, hβ⟩ := head?_eq_some_iff.1 hh
        rw [hβ]
        exact mem_singleton.2 rfl
    exact hG.lists r h.mem (by simpa using hmem)
  refine .reduce_only rfl rfl ⟨hfst.canReduce, ?_⟩ ?_
  · rintro t' - ⟨r, α, β, hi⟩
    obtain rfl := prefix_nil.1 hi.isPrefix
    have hrhs := hi.rhs_eq
    rcases hlhs hi with rfl | hh
    · cases hrhs
    · simp [hrhs] at hh
  · intro r h
    have hi := h.1.item
    have hrhs := prefix_nil.1 hi.isPrefix
    rw [hrhs] at hi
    rcases hlhs hi with rfl | hh
    · rfl
    · simp [reverse_eq_nil_iff.1 hrhs] at hh

theorem read_expr (hG : ReadsLines G S) (hf : e.Fits 0) : Steps G ([], e.tokens ++ [eol]) (e.tree :: stack [], [eol]) := by
  obtain ⟨r, hr, t, β, v, w, hrhs, htokens⟩ := exists_first e
  have hnil : G.Step ([], e.tokens ++ [eol]) (stack [], e.tokens ++ [eol]) := by
    rw [htokens]
    exact hG.reduce_empty (hG.first r hr t β hrhs) v
  refine .head hnil (hG.parse e hf [] (fun _ _ => trivial) rfl (.inl rfl) ?_)
  intro op h
  cases op <;> cases h

theorem stops (hG : ReadsLines G S) {T : CalcTree D} (hT : T.root = .nonterminal calclist)
    (c : List (CalcTree D) × List (Tok × Value D)) : ¬ G.Step ([T], []) c := by
  intro h
  cases h with
  | reduce _ _ _ hsurv _ =>
    have hred := hsurv.1
    rw [map_singleton, hT] at hred
    exact hG.not_canReduce ([] : List (Pending D)) hred

end ReadsLines

end lines

/-! ## The two parsers -/

section parsers

variable {D : Type}

def lineRule32 : CalcRule := ⟨calclist, [calclist, exp, EOL], none, .none⟩

def lineRule33 : CalcRule := ⟨calclist, [calclist, stmt, EOL], none, .none⟩

def stmtRule : CalcRule := ⟨stmt, [exp], none, .copy 1⟩

/-- A first line that holds the expression, in `3-2.y` and in `3-3.y`. -/
def line32 (T : CalcTree D) : CalcTree D := .node lineRule32 [emptyTree, T, Expr.sign EOL]

def line33 (T : CalcTree D) : CalcTree D := .node lineRule33 [emptyTree, .node stmtRule [T], Expr.sign EOL]

theorem start32 : grammar32.Item1 [] lineRule32 [] lineRule32.rhs none := .start (by decide) rfl

theorem start33 : grammar33.Item1 [] lineRule33 [] lineRule33.rhs none := .start (by decide) rfl

theorem stmt33 : grammar33.Item1 [.nonterminal calclist] stmtRule [] stmtRule.rhs (some EOL) := start33.goto.closure (by decide) (.tok _ _ _)

theorem readsLines32 : ReadsLines grammar32 [exp] where
  toIsCalculator := isCalculator32
  start := rfl
  lists := by decide +kernel
  first := by
    intro r hr t β hrhs
    exact start32.closure (by decide) (isCalculator32.first_expr hr hrhs)
  line := ⟨lineRule32, _, _, _, start32.goto, .tok _ _ _⟩

theorem readsLines33 : ReadsLines grammar33 [exp, stmt, explist, symlist] where
  toIsCalculator := isCalculator33
  start := rfl
  lists := by decide +kernel
  first := by
    intro r hr t β hrhs
    have hstmt : grammar33.First [.nonterminal stmtRule.lhs, .terminal EOL] none (some t) :=
      .non (by decide) (isCalculator33.first_expr hr hrhs)
    exact start33.closure (by decide) hstmt
  line := ⟨stmtRule, _, _, _, stmt33, .nil _⟩

theorem reduce_line {G : CalcGrammar} {r : CalcRule} {n : Non} {T : CalcTree D} (hT : T.root = .nonterminal n)
    (hrhs : r.rhs = [.nonterminal calclist, .nonterminal n, .terminal EOL]) (hst : G.Item1 [] r [] r.rhs none)
    (heol : ∀ p ∈ G.shapes [.terminal EOL], Grammar.NextIn [] p.2.2)
    (honly : ∀ p ∈ G.shapes [.terminal EOL, .nonterminal n, .nonterminal calclist], p.1 = r ∧ p.2.2 = []) :
    G.Step (Expr.sign EOL :: T :: stack [], []) ([.node r [emptyTree, T, Expr.sign EOL]], []) := by
  have hsyms : (Expr.sign EOL :: T :: stack []).map Tree.root = [.terminal EOL, .nonterminal n, .nonterminal calclist] := by simp [hT]
  refine .reduce_shape rfl (by simp [hrhs, hT, emptyTree, emptyRule]) ?_ (by rw [hsyms]) heol honly
  rw [hrhs] at hst
  rw [hsyms]
  refine Grammar.Item1.canReduce ?_
  rw [hrhs]
  exact hst.goto.goto.goto

theorem read_line32 {e : Expr D} (hf : e.Fits 0) : Steps grammar32 ([], e.tokens ++ [eol]) ([line32 e.tree], []) := by
  have hsh : grammar32.Step (e.tree :: stack [], [eol]) (Expr.sign EOL :: e.tree :: stack [], []) := by
    have heol : grammar32.CanShift (.nonterminal exp :: symbols ([] : List (Pending D))) EOL := ⟨lineRule32, _, _, start32.item.goto.goto⟩
    refine readsLines32.shift_after heol .none ?_
    intro f K' r h
    cases h
  have hred : grammar32.Step (Expr.sign EOL :: e.tree :: stack [], []) ([line32 e.tree], []) :=
    reduce_line e.root_tree rfl start32 (by decide +kernel) (by decide +kernel)
  exact (readsLines32.read_expr hf).trans (.head hsh (.single hred))

theorem reduce_stmt (e : Expr D) : grammar33.Step (e.tree :: stack [], [eol]) (.node stmtRule [e.tree] :: stack [], [eol]) := by
  have hsyms : (e.tree :: stack []).map Tree.root = [.nonterminal exp, .nonterminal calclist] := by simp
  refine .reduce_only rfl ?_ ⟨?_, ?_⟩ ?_
  · simp [stmtRule]
  · rw [hsyms]
    exact stmt33.goto.canReduce
  · -- No line of `3-3.y` is an expression without more.
    intro t ht hsh
    rw [hsyms] at hsh
    obtain rfl : EOL = t := Option.some.inj ht
    obtain ⟨r, α, β, hi⟩ := hsh
    cases α with
    | nil => exact absurd hi (isCalculator33.not_begins (by decide))
    | cons Y α =>
      have hno : ∀ p ∈ grammar33.shapes [.nonterminal exp, .nonterminal calclist], p.2.2.head? ≠ some (.terminal EOL) := by
        decide +kernel
      exact absurd rfl (hno _ (hi.mem_shapes prefix_rfl))
  · intro r h
    rw [hsyms] at h
    have hcomplete : grammar33.CanReduce (.nonterminal exp :: symbols ([] : List (Pending D))) r (some EOL) := h.1
    rcases isCalculator33.complete_cases hcomplete with ⟨hrhs, hi⟩ | ⟨f, K', heq, -⟩
    · have hi : grammar33.Item [.nonterminal calclist] r [] [.nonterminal exp] := hi
      have hlhs : r.lhs ∈ [stmt, exp] := hi.lhs_mem (by decide +kernel) (by simp) (by decide +kernel)
      have hunit : ∀ r ∈ grammar33.rules, r.lhs ∈ [stmt, exp] → r.rhs = [.nonterminal exp] → r = stmtRule := by decide +kernel
      exact hunit r hi.mem hlhs hrhs
    · cases heq

theorem shift_eol33 (T : CalcTree D) :
    grammar33.Step (.node stmtRule [T] :: stack [], [eol]) (Expr.sign EOL :: .node stmtRule [T] :: stack [], []) := by
  refine .shift ⟨lineRule33, _, _, start33.item.goto.goto⟩ ?_
  intro r h
  have hbegins : ∀ p ∈ grammar33.shapes [.nonterminal stmt], Grammar.NextIn [] p.2.2 := by decide +kernel
  have hno : ∀ p ∈ grammar33.shapes [.nonterminal stmt, .nonterminal calclist], p.2.2 ≠ [] := by decide +kernel
  rcases h.cases prefix_rfl with hi | ⟨X, α, -, -, hshape⟩
  · exact absurd hi (Grammar.Item.not_begins hbegins)
  · exact absurd rfl (hno _ hshape)

theorem read_line33 {e : Expr D} (hf : e.Fits 0) : Steps grammar33 ([], e.tokens ++ [eol]) ([line33 e.tree], []) := by
  have hred : grammar33.Step (Expr.sign EOL :: .node stmtRule [e.tree] :: stack [], []) ([line33 e.tree], []) :=
    reduce_line rfl rfl start33 (by decide +kernel) (by decide +kernel)
  exact (readsLines33.read_expr hf).trans (.head (reduce_stmt e) (.head (shift_eol33 e.tree) (.single hred)))

end parsers

/-! ## Agreement -/

section agreement

variable {D : Type} {G : CalcGrammar} {S : List Non} {line : CalcTree D → CalcTree D}

/-- `3-1.y` derives the sequence as an `exp` with this tree. -/
def Accepts31 (w : List (Lexeme D)) (t : Ast D) : Prop :=
  ∃ T : CalcTree D, grammar31.Derives T ∧ T.root = .nonterminal exp ∧ T.yield = w.map Lexeme.token ∧
    T.value Action.run = .a t

/-- The parser reads the sequence on a line, as an `exp` with this tree. -/
def Accepts (G : CalcGrammar) (line : CalcTree D → CalcTree D) (w : List (Lexeme D)) (t : Ast D) : Prop :=
  ∃ T : CalcTree D, T.root = .nonterminal exp ∧ T.value Action.run = .a t ∧
    Steps G ([], w.map Lexeme.token ++ [eol]) ([line T], [])

theorem token_injective : Function.Injective (Lexeme.token : Lexeme D → Tok × Value D) := by
  intro x y h
  cases x <;> cases y <;> cases h <;> rfl

theorem allLexemes_map (w : List (Lexeme D)) : Expr.AllLexemes (w.map Lexeme.token) := by
  intro x hx
  obtain ⟨l, -, rfl⟩ := mem_map.1 hx
  exact ⟨l, rfl⟩

/-- The derivations of `3-1.y` are those of the expressions written in its strata. -/
theorem accepts31_iff (w : List (Lexeme D)) (t : Ast D) : Accepts31 w t ↔ ∃ e : Expr D, e.Fits 0 ∧ e.lexemes = w ∧ e.ast = t := by
  constructor
  · rintro ⟨T, hT, hr, hyield, hval⟩
    obtain ⟨e, he, rfl⟩ := Expr.exists_of_derives31 hT (hyield ▸ allLexemes_map w) (Nat.zero_le 2) hr
    refine ⟨e, he, ?_, ?_⟩
    · rw [Expr.yield_tree31] at hyield
      exact token_injective.list_map hyield
    · grind [Expr.value_tree31]
  · rintro ⟨e, he, rfl, rfl⟩
    obtain ⟨hderives, hr⟩ := Expr.derives31_tree31 (Nat.zero_le 2) he
    exact ⟨e.tree31 0, hderives, hr, e.yield_tree31 0, e.value_tree31 0⟩

theorem not_foreign {T : CalcTree D} {t : Tok} (hr : T.root = .terminal t) (hlex : Expr.AllLexemes T.yield) : t ∉ foreign := by
  cases T with
  | node r cs => cases hr
  | leaf t' v =>
    obtain rfl : t' = t := by simpa [Tree.root] using hr
    obtain ⟨l, hl⟩ := hlex (t', v) (by simp [Tree.yield])
    cases l <;> cases hl <;> decide

theorem IsCalculator.exists_of_derives (hG : IsCalculator G S) {T : CalcTree D} (h : G.Derives T)
    (hlex : Expr.AllLexemes T.yield) (hroot : T.root = .nonterminal exp) : ∃ e : Expr D, T = e.tree := by
  induction h with
  | leaf t v => cases hroot
  | node r cs hr hcs hall ih =>
    have hlhs : r.lhs = exp := by simpa using hroot
    have hch : ∀ c ∈ cs, Expr.AllLexemes c.yield := fun c hc x hx => hlex x (Tree.yield_subset_yields hc hx)
    have bin (op : Op) (hr : r = binRule op) : ∃ e : Expr D, Tree.node r cs = e.tree := by
      subst hr
      obtain ⟨l, o, c, rfl, hl, ho, hc⟩ := Expr.map_eq_three hcs
      obtain ⟨el, rfl⟩ := ih l (by simp) (hch l (by simp)) hl
      obtain ⟨er, rfl⟩ := ih c (by simp) (hch c (by simp)) hc
      obtain rfl := Expr.sign_of_root (by cases op <;> decide) ho (hch o (by simp))
      exact ⟨.bin op el er, rfl⟩
    rcases hG.others r hr hlhs with hmem | ⟨t, ht, hmem⟩
    · simp only [exprRules, mem_cons, not_mem_nil, or_false] at hmem
      obtain hr | hr | hr | hr | rfl | rfl | rfl | rfl := hmem
      · exact bin _ hr
      · exact bin _ hr
      · exact bin _ hr
      · exact bin _ hr
      · obtain ⟨b, c, rfl, hb, hc⟩ := Expr.map_eq_two hcs
        obtain rfl := Expr.sign_of_root (by decide) hb (hch b (by simp))
        obtain ⟨e, rfl⟩ := ih c (by simp) (hch c (by simp)) hc
        exact ⟨.bar e, rfl⟩
      · obtain ⟨b, c, b', rfl, hb, hc, hb'⟩ := Expr.map_eq_three hcs
        obtain rfl := Expr.sign_of_root (by decide) hb (hch b (by simp))
        obtain rfl := Expr.sign_of_root (by decide) hb' (hch b' (by simp))
        obtain ⟨e, rfl⟩ := ih c (by simp) (hch c (by simp)) hc
        exact ⟨.paren e, rfl⟩
      · obtain ⟨b, c, rfl, hb, hc⟩ := Expr.map_eq_two hcs
        obtain rfl := Expr.sign_of_root (by decide) hb (hch b (by simp))
        obtain ⟨e, rfl⟩ := ih c (by simp) (hch c (by simp)) hc
        exact ⟨.neg e, rfl⟩
      · obtain ⟨c, rfl, hc⟩ := map_eq_singleton_iff.1 hcs
        obtain ⟨d, rfl⟩ := Expr.number_of_root hc (hch c (by simp))
        exact ⟨.num d, rfl⟩
    · grind [not_foreign]

/-- What a line of the parser is asked to be: it holds its expression and the end of the line. -/
structure IsLine (G : CalcGrammar) (line : CalcTree D → CalcTree D) : Prop where
  root : ∀ T, (line T).root = .nonterminal calclist
  yield : ∀ T, (line T).yield = T.yield ++ [eol]
  derives : ∀ T, G.Derives (line T) → G.Derives T
  injective : Function.Injective line
  reads : ∀ e : Expr D, e.Fits 0 → Steps G ([], e.tokens ++ [eol]) ([line e.tree], [])

theorem isLine32 : IsLine grammar32 (line32 : CalcTree D → CalcTree D) where
  root _ := rfl
  yield T := by simp [line32, emptyTree, Tree.yield, Tree.yields, eol]
  derives T h := by
    cases h with
    | node _ _ _ _ hall => exact hall T (by simp)
  injective T T' h := by simpa [line32] using h
  reads _ := read_line32

theorem isLine33 : IsLine grammar33 (line33 : CalcTree D → CalcTree D) where
  root _ := rfl
  yield T := by simp [line33, emptyTree, Tree.yield, Tree.yields, eol]
  derives T h := by
    cases h with
    | node _ _ _ _ hall =>
      cases hall (.node stmtRule [T]) (by simp) with
      | node _ _ _ _ hall => exact hall T (by simp)
  injective T T' h := by simpa [line33] using h
  reads _ := read_line33

theorem ReadsLines.line_unique (hG : ReadsLines G S) (hl : IsLine G line) {w : List (Tok × Value D)} {T T' : CalcTree D}
    (h : Steps G ([], w) ([line T], [])) (h' : Steps G ([], w) ([line T'], [])) : T = T' := by
  have hend := Grammar.Step.end_unique h h' (hG.stops (hl.root T)) (hG.stops (hl.root T'))
  exact hl.injective (by simpa using hend)

/-- A parser accepts the expressions that are written in the strata of `3-1.y`, and no others. -/
theorem ReadsLines.accepts_iff (hG : ReadsLines G S) (hl : IsLine G line) (w : List (Lexeme D)) (t : Ast D) :
    Accepts G line w t ↔ ∃ e : Expr D, e.Fits 0 ∧ e.lexemes = w ∧ e.ast = t := by
  constructor
  · rintro ⟨T, hr, hval, hsteps⟩
    obtain ⟨hderives, hyield⟩ := Grammar.Step.sound hsteps (by simp)
    have hT : G.Derives T := hl.derives T (hderives (line T) (by simp))
    have htokens : T.yield = w.map Lexeme.token := by
      simpa [Tree.yields, hl.yield] using hyield
    obtain ⟨e₀, rfl⟩ := hG.exists_of_derives hT (htokens ▸ allLexemes_map w) hr
    -- The strata have an expression of the same tokens, and its line is the one that is read.
    obtain ⟨e, he, hlex⟩ := e₀.exists_fits
    have hw : e.lexemes = w := by
      rw [Expr.yield_tree] at htokens
      exact hlex.trans (token_injective.list_map htokens)
    have heq : e.tree = e₀.tree := by
      refine hG.line_unique hl (hl.reads e he) ?_
      rw [Expr.tokens, hw]
      exact hsteps
    refine ⟨e, he, hw, ?_⟩
    rw [← heq, Expr.value_tree] at hval
    cases hval
    rfl
  · rintro ⟨e, he, rfl, rfl⟩
    exact ⟨e.tree, e.root_tree, e.value_tree, hl.reads e he⟩

/-- The stratified grammar of `3-1.y` is unambiguous, and it accepts a sequence with the same tree as the parsers of `3-2.y` and
`3-3.y`. -/
theorem calculators_agree (w : List (Lexeme D)) :
    (∀ T T' : CalcTree D, grammar31.Derives T → grammar31.Derives T' → T.root = .nonterminal exp → T'.root = .nonterminal exp →
      T.yield = w.map Lexeme.token → T'.yield = w.map Lexeme.token → T = T') ∧
    ∀ t : Ast D, (Accepts31 w t ↔ Accepts grammar32 line32 w t) ∧ (Accepts31 w t ↔ Accepts grammar33 line33 w t) := by
  refine ⟨?_, fun t => ⟨?_, ?_⟩⟩
  · intro T T' hT hT' hroot hroot' hyield hyield'
    obtain ⟨e, he, rfl⟩ := Expr.exists_of_derives31 hT (hyield ▸ allLexemes_map w) (Nat.zero_le 2) hroot
    obtain ⟨e', he', rfl⟩ := Expr.exists_of_derives31 hT' (hyield' ▸ allLexemes_map w) (Nat.zero_le 2) hroot'
    rw [Expr.yield_tree31] at hyield hyield'
    have hread := read_line32 he'
    rw [hyield', ← hyield] at hread
    rw [Expr.tree_injective (readsLines32.line_unique isLine32 (read_line32 he) hread)]
  · rw [accepts31_iff, readsLines32.accepts_iff isLine32]
  · rw [accepts31_iff, readsLines33.accepts_iff isLine33]

/-- A difference of three numbers is grouped to the left, and a sign binds more tightly than a product. -/
theorem calculators_agree_signed :
    Accepts grammar33 line33 [.number 1, .minus, .number 2, .minus, .minus, .number 3, .times, .number 4]
      (.ast '-' (.ast '-' (.numval 1) (.numval 2)) (.ast '*' (.ast 'M' (.numval 3) .null) (.numval 4))) := by
  refine ((calculators_agree _).2 _).2.1 ((accepts31_iff _ _).2 ⟨?_, ?_⟩)
  · exact .bin .sub (.bin .sub (.num 1) (.num 2)) (.bin .mul (.neg (.num 3)) (.num 4))
  · exact ⟨by simp [Expr.Fits, Op.level], rfl, rfl⟩

end agreement

end CsLearning.Compiler
