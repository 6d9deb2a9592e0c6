import CsLearning.Lib.ShiftReduce

/-!
# The grammars of the calculators

The rules, precedences and actions of `3-1.y`, `3-2.y` and `3-3.y`, in the order of the files, over the syntax trees of `3-1.h` and
`3-3.h`. What the actions of `calclist` print is left out.
-/

namespace CsLearning.Compiler

inductive Tok
  | NUMBER | NAME | FUNC | EOL | IF | THEN | ELSE | WHILE | DO | LET | CMP | UMINUS | error
  | plus | minus | times | divide | bar | lparen | rparen | assign | comma | semicolon
deriving DecidableEq

inductive Non
  | calclist | exp | factor | term | stmt | list | explist | symlist
deriving DecidableEq

/-- A pointer to a syntax tree; the numbers are of any type. -/
inductive Ast (D : Type)
  | null
  | numval (number : D)
  | ast (nodetype : Char) (l r : Ast D)
  | cmp (cmptype : Nat) (l r : Ast D)
  | flow (nodetype : Char) (cond tl el : Ast D)
  | symref (s : String)
  | symasgn (s : String) (v : Ast D)
  | fncall (functype : Nat) (l : Ast D)
  | ufncall (s : String) (l : Ast D)
deriving DecidableEq

/-- The union of the semantic values. -/
inductive Value (D : Type)
  | none
  | a (tree : Ast D)
  | d (number : D)
  | s (symbol : String)
  | sl (symbols : List String)
  | fn (function : Nat)
deriving DecidableEq

/-- The semantic actions, with the positions of the values they use. -/
inductive Action
  | none
  | null
  | copy (i : Nat)
  | newnum (i : Nat)
  | newast (nodetype : Char) (l : Nat) (r : Option Nat)
  | newcmp (cmptype l r : Nat)
  | newflow (nodetype : Char) (cond tl : Nat) (el : Option Nat)
  | newref (s : Nat)
  | newasgn (s v : Nat)
  | newfunc (functype l : Nat)
  | newcall (s l : Nat)
  | newsymlist (sym : Nat) (next : Option Nat)
  | seq (l r : Nat)
deriving DecidableEq

section actions

variable {D : Type}

/-- `$i`. -/
def arg (vs : List (Value D)) (i : Nat) : Value D := vs.getD (i - 1) .none

def argOrNull (vs : List (Value D)) : Option Nat → Value D
  | some i => arg vs i
  | none => .a .null

/-- `$$` after the action; a value of another type than the action expects gives none. -/
def Action.run (action : Action) (vs : List (Value D)) : Value D :=
  match action with
  | .none => .none
  | .null => .a .null
  | .copy i => arg vs i
  | .newnum i => match arg vs i with
    | .d number => .a (.numval number)
    | _ => .none
  | .newast nodetype l r => match arg vs l, argOrNull vs r with
    | .a l, .a r => .a (.ast nodetype l r)
    | _, _ => .none
  | .newcmp cmptype l r => match arg vs cmptype, arg vs l, arg vs r with
    | .fn cmptype, .a l, .a r => .a (.cmp cmptype l r)
    | _, _, _ => .none
  | .newflow nodetype cond tl el => match arg vs cond, arg vs tl, argOrNull vs el with
    | .a cond, .a tl, .a el => .a (.flow nodetype cond tl el)
    | _, _, _ => .none
  | .newref s => match arg vs s with
    | .s s => .a (.symref s)
    | _ => .none
  | .newasgn s v => match arg vs s, arg vs v with
    | .s s, .a v => .a (.symasgn s v)
    | _, _ => .none
  | .newfunc functype l => match arg vs functype, arg vs l with
    | .fn functype, .a l => .a (.fncall functype l)
    | _, _ => .none
  | .newcall s l => match arg vs s, arg vs l with
    | .s s, .a l => .a (.ufncall s l)
    | _, _ => .none
  | .newsymlist sym .none => match arg vs sym with
    | .s sym => .sl [sym]
    | _ => .none
  | .newsymlist sym (some next) => match arg vs sym, arg vs next with
    | .s sym, .sl next => .sl (sym :: next)
    | _, _ => .none
  | .seq l r => match arg vs l, arg vs r with
    | .a l, .a .null => .a l
    | .a l, .a r => .a (.ast 'L' l r)
    | _, _ => .none

end actions

/-! ## The grammars -/

abbrev Sym := Symbol Tok Non

instance : Coe Tok Sym := ⟨.terminal⟩

instance : Coe Non Sym := ⟨.nonterminal⟩

abbrev CalcRule := Rule Tok Non Action

abbrev CalcGrammar := Grammar Tok Non Action

abbrev CalcTree (D : Type) := Tree Tok Non Action (Value D)

open Tok Non

/-- `3-1.y` -/
def grammar31 : CalcGrammar where
  start := calclist
  levels := []
  rules := [
    ⟨calclist, [], none, .none⟩,
    ⟨calclist, [calclist, exp, EOL], none, .none⟩,
    ⟨calclist, [calclist, EOL], none, .none⟩,
    ⟨exp, [factor], none, .copy 1⟩,
    ⟨exp, [exp, plus, factor], none, .newast '+' 1 (some 3)⟩,
    ⟨exp, [exp, minus, factor], none, .newast '-' 1 (some 3)⟩,
    ⟨factor, [term], none, .copy 1⟩,
    ⟨factor, [factor, times, term], none, .newast '*' 1 (some 3)⟩,
    ⟨factor, [factor, divide, term], none, .newast '/' 1 (some 3)⟩,
    ⟨term, [NUMBER], none, .newnum 1⟩,
    ⟨term, [bar, term], none, .newast '|' 2 none⟩,
    ⟨term, [lparen, exp, rparen], none, .copy 2⟩,
    ⟨term, [minus, term], none, .newast 'M' 2 none⟩]

/-- `3-2.y` -/
def grammar32 : CalcGrammar where
  start := calclist
  levels := [(.left, [plus, minus]), (.left, [times, divide]), (.nonassoc, [bar, UMINUS])]
  rules := [
    ⟨calclist, [], none, .none⟩,
    ⟨calclist, [calclist, exp, EOL], none, .none⟩,
    ⟨calclist, [calclist, EOL], none, .none⟩,
    ⟨exp, [exp, plus, exp], none, .newast '+' 1 (some 3)⟩,
    ⟨exp, [exp, minus, exp], none, .newast '-' 1 (some 3)⟩,
    ⟨exp, [exp, times, exp], none, .newast '*' 1 (some 3)⟩,
    ⟨exp, [exp, divide, exp], none, .newast '/' 1 (some 3)⟩,
    ⟨exp, [bar, exp], none, .newast '|' 2 none⟩,
    ⟨exp, [lparen, exp, rparen], none, .copy 2⟩,
    ⟨exp, [minus, exp], some UMINUS, .newast 'M' 2 none⟩,
    ⟨exp, [NUMBER], none, .newnum 1⟩]

/-- `3-3.y` -/
def grammar33 : CalcGrammar where
  start := calclist
  levels := [(.nonassoc, [CMP]), (.right, [assign]), (.left, [plus, minus]), (.left, [times, divide]),
    (.nonassoc, [bar, UMINUS])]
  rules := [
    ⟨calclist, [], none, .none⟩,
    ⟨calclist, [calclist, stmt, EOL], none, .none⟩,
    ⟨calclist, [calclist, LET, NAME, lparen, symlist, rparen, assign, list, EOL], none, .none⟩,
    ⟨calclist, [calclist, error, EOL], none, .none⟩,
    ⟨calclist, [calclist, EOL], none, .none⟩,
    ⟨stmt, [IF, exp, THEN, list], none, .newflow 'I' 2 4 none⟩,
    ⟨stmt, [IF, exp, THEN, list, ELSE, list], none, .newflow 'I' 2 4 (some 6)⟩,
    ⟨stmt, [WHILE, exp, DO, list], none, .newflow 'W' 2 4 none⟩,
    ⟨stmt, [exp], none, .copy 1⟩,
    ⟨list, [], none, .null⟩,
    ⟨list, [stmt, semicolon, list], none, .seq 1 3⟩,
    ⟨exp, [exp, CMP, exp], none, .newcmp 2 1 3⟩,
    ⟨exp, [exp, plus, exp], none, .newast '+' 1 (some 3)⟩,
    ⟨exp, [exp, minus, exp], none, .newast '-' 1 (some 3)⟩,
    ⟨exp, [exp, times, exp], none, .newast '*' 1 (some 3)⟩,
    ⟨exp, [exp, divide, exp], none, .newast '/' 1 (some 3)⟩,
    ⟨exp, [bar, exp], none, .newast '|' 2 none⟩,
    ⟨exp, [lparen, exp, rparen], none, .copy 2⟩,
    ⟨exp, [minus, exp], some UMINUS, .newast 'M' 2 none⟩,
    ⟨exp, [NUMBER], none, .newnum 1⟩,
    ⟨exp, [NAME], none, .newref 1⟩,
    ⟨exp, [NAME, assign, exp], none, .newasgn 1 3⟩,
    ⟨exp, [FUNC, lparen, explist, rparen], none, .newfunc 1 3⟩,
    ⟨exp, [NAME, lparen, explist, rparen], none, .newcall 1 3⟩,
    ⟨explist, [exp], none, .copy 1⟩,
    ⟨explist, [exp, comma, explist], none, .newsymlist 1 (some 3)⟩,
    ⟨symlist, [NAME], none, .newsymlist 1 none⟩,
    ⟨symlist, [NAME, comma, symlist], none, .newsymlist 1 (some 3)⟩]

end CsLearning.Compiler
