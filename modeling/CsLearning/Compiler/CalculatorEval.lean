import CsLearning.Compiler.CalculatorAgree
import CsLearning.Lib.Memory

/-!
# Evaluating and releasing a syntax tree

`newast`, `newnum`, `eval` and `treefree` of `3-1.c`, on nodes in memory, and the action behind a line, which prints the value of the tree the
parser has built and releases the tree. Numbers are of any type with the operations `eval` uses. A call that goes through a null or dangling
pointer has no outcome, nor has `eval` of a node it does not know.
-/

open Function

namespace CsLearning.Compiler

/-- A node: a `numval`, whose type is `'K'`, or another `ast`. -/
inductive Node (D : Type)
  | numval (number : D)
  | ast (nodetype : Char) (l r : Ptr)

variable {D : Type}

/-- The calls of `newnum` and `newast` that build a tree, each at any free address. -/
inductive Builds : Mem (Node D) → Ast D → Ptr → Mem (Node D) → Prop
  | null (m : Mem (Node D)) : Builds m .null none m
  | newnum {m : Mem (Node D)} {a : Addr} (number : D) : m a = none → Builds m (.numval number) (some a) (update m a (some (.numval number)))
  | newast {m m1 m2 : Mem (Node D)} {a : Addr} {l r : Ast D} {p q : Ptr} (nodetype : Char) : Builds m l p m1 → Builds m1 r q m2 → m2 a = none →
      Builds m (.ast nodetype l r) (some a) (update m2 a (some (.ast nodetype p q)))

/-- `treefree`, with at most `n` calls inside each other. -/
def treefree : Nat → Mem (Node D) → Ptr → Option (Mem (Node D))
  | 0, _, _ => none
  | n + 1, m, a => do
    match ← m.read a id with
    | .numval _ => m.delete a
    | .ast nodetype l r =>
      if nodetype = '+' ∨ nodetype = '-' ∨ nodetype = '*' ∨ nodetype = '/' then
        let m ← treefree n m r
        let m ← treefree n m l
        m.delete a
      else if nodetype = '|' ∨ nodetype = 'M' then
        let m ← treefree n m l
        m.delete a
      else if nodetype = 'K' then m.delete a
      else return m

variable [Add D] [Sub D] [Mul D] [Div D] [Neg D] [Zero D] [LT D] [DecidableLT D]

/-- `eval`, with at most `n` calls inside each other. -/
def eval : Nat → Mem (Node D) → Ptr → Option D
  | 0, _, _ => none
  | n + 1, m, a => do
    match ← m.read a id with
    | .numval number => return number
    | .ast '+' l r => return (← eval n m l) + (← eval n m r)
    | .ast '-' l r => return (← eval n m l) - (← eval n m r)
    | .ast '*' l r => return (← eval n m l) * (← eval n m r)
    | .ast '/' l r => return (← eval n m l) / (← eval n m r)
    | .ast '|' l _ =>
      let v ← eval n m l
      return if v < 0 then -v else v
    | .ast 'M' l _ => return -(← eval n m l)
    | .ast _ _ _ => none

/-- The action behind a line: the value that is printed, and the memory afterwards. -/
def lineAction (n : Nat) (m : Mem (Node D)) (a : Ptr) : Option (D × Mem (Node D)) := do
  let v ← eval n m a
  let m ← treefree n m a
  return (v, m)

/-- What an operator means. -/
def Op.apply : Op → D → D → D
  | .add => (· + ·)
  | .sub => (· - ·)
  | .mul => (· * ·)
  | .div => (· / ·)

/-- What an expression means as it is written. -/
def Expr.meaning : Expr D → D
  | .num d => d
  | .bin op l r => op.apply l.meaning r.meaning
  | .bar e => if e.meaning < 0 then -e.meaning else e.meaning
  | .paren e => e.meaning
  | .neg e => -e.meaning

/-! ## Trees in memory -/

section Memory

omit [Add D] [Sub D] [Mul D] [Div D] [Neg D] [Zero D] [LT D] [DecidableLT D]

variable {m m' m1 m2 M : Mem (Node D)} {l r t : Ast D} {p q : Ptr} {a : Addr} {x : Node D} {n : Nat}

/-- The memory `M` has the nodes that are in `m'` and not in `m`. -/
def Has (m m' M : Mem (Node D)) : Prop := ∀ b, m b = none → m' b ≠ none → M b = m' b

/-- It is released from them. -/
def without (m m' M : Mem (Node D)) : Mem (Node D) := fun b => if m b = none ∧ m' b ≠ none then none else M b

@[simp] theorem without_self : without m m M = M := by
  funext b
  exact if_neg fun hb => hb.2 hb.1

theorem Builds.keeps (h : Builds m t p m') {b : Addr} (hb : m b ≠ none) : m' b = m b := by
  induction h with
  | null => rfl
  | newnum _ ha => grind
  | newast _ _ _ ha ihl ihr => grind

/-- The nodes of a tree are those of its two parts and its root. -/
theorem Builds.has (hl : Builds m l p m1) (hr : Builds m1 r q m2) (ha : m2 a = none) (hM : Has m (update m2 a (some x)) M) :
    M a = some x ∧ Has m m1 M ∧ Has m1 m2 M ∧ Has m m1 (without m1 m2 M) ∧
      (without m m1 (without m1 m2 M)).delete (some a) = some (without m (update m2 a (some x)) M) := by
  have hkl := @hl.keeps
  have hkr := @hr.keeps
  refine ⟨?_, ?_, ?_, ?_, ?_⟩
  · grind [Has]
  · grind [Has]
  · grind [Has]
  · intro b hb hb1
    grind [Has, without]
  · rw [Mem.delete_of_some (show without m m1 (without m1 m2 M) a = some x by grind [Has, without]), Option.some.injEq]
    funext b
    grind [without]

theorem treefree_bin {op : Op} (hx : M a = some (.ast op.char p q)) (hq : treefree n M q = some m1) (hp : treefree n m1 p = some m2) :
    treefree (n + 1) M (some a) = m2.delete (some a) := by
  cases op <;> simp [treefree, Mem.read, hx, hq, hp, Op.char]

end Memory

/-- In every memory that has the nodes of the tree at `p`, `eval` returns `v` and `treefree` releases them. -/
def Yields (m m' : Mem (Node D)) (p : Ptr) (v : D) : Prop :=
  ∃ n, ∀ k, n < k → ∀ M, Has m m' M → eval k M p = some v ∧ treefree k M p = some (without m m' M)

section Yields

variable {m m' M : Mem (Node D)} {p q : Ptr} {a : Addr} {n : Nat} {v w : D}

theorem eval_bin {op : Op} (hx : M a = some (.ast op.char p q)) (hp : eval n M p = some v) (hq : eval n M q = some w) :
    eval (n + 1) M (some a) = some (op.apply v w) := by
  cases op <;> simp [eval, Mem.read, hx, hp, hq, Op.char, Op.apply]

theorem Builds.yields_un {nodetype : Char} {t : Ast D} (h : Builds m (.ast nodetype t .null) p m')
    (ih : ∀ {m m' p}, Builds m t p m' → Yields m m' p v) (hc : nodetype = '|' ∨ nodetype = 'M')
    (hw : ∀ n M a q, M a = some (.ast nodetype q none) → eval n M q = some v → eval (n + 1) M (some a) = some w) : Yields m m' p w := by
  cases h with
  | newast _ hl hr ha =>
    cases hr
    obtain ⟨n, hn⟩ := ih hl
    refine ⟨n + 1, fun k hk M hM => ?_⟩
    obtain _ | k := k
    · omega
    obtain ⟨hx, hM1, -, -, hout⟩ := hl.has (.null _) ha hM
    obtain ⟨heval, hf⟩ := hn k (by omega) M hM1
    rw [without_self] at hout
    exact ⟨hw _ M _ _ hx heval, by rcases hc with rfl | rfl <;> simp [treefree, Mem.read, hx, hf, hout]⟩

/-- The tree of an expression is evaluated and released. -/
theorem Expr.yields (e : Expr D) (h : Builds m e.ast p m') : Yields m m' p e.meaning := by
  induction e generalizing m p m' with
  | num d =>
    cases h with
    | newnum _ ha =>
      refine ⟨0, fun k hk M hM => ?_⟩
      obtain _ | k := k
      · omega
      obtain ⟨hx, -, -, -, hout⟩ := (Builds.null m).has (.null m) ha hM
      rw [without_self, without_self] at hout
      simp [eval, treefree, Mem.read, hx, hout, meaning]
  | paren e ih => exact ih h
  | bin op l r ihl ihr =>
    cases h with
    | newast _ hl hr ha =>
      obtain ⟨n1, h1⟩ := ihl hl
      obtain ⟨n2, h2⟩ := ihr hr
      refine ⟨max n1 n2 + 1, fun k hk M hM => ?_⟩
      obtain _ | k := k
      · omega
      obtain ⟨hx, hM1, hM2, hM1', hout⟩ := hl.has hr ha hM
      have hright := h2 k (by omega) M hM2
      refine ⟨eval_bin hx (h1 k (by omega) M hM1).1 hright.1, ?_⟩
      rw [treefree_bin hx hright.2 (h1 k (by omega) _ hM1').2, hout]
  | bar e ih => exact h.yields_un ih (.inl rfl) fun n M a q hx he => by simp [eval, Mem.read, hx, he, meaning]
  | neg e ih => exact h.yields_un ih (.inr rfl) fun n M a q hx he => by simp [eval, Mem.read, hx, he, meaning]

/-- What the calculators do with a line that they accept, wherever the nodes of its tree are: they print what the expression means as it is written,
and then every node has been released, once, and nothing else. -/
theorem calculator_line {w : List (Lexeme D)} {t : Ast D} (hw : Accepts31 w t ∨ Accepts grammar32 line32 w t) (h : Builds m t p m') :
    ∃ e : Expr D, e.Fits 0 ∧ e.lexemes = w ∧ ∃ n, ∀ k, n < k → lineAction k m' p = some (e.meaning, m) := by
  rw [accepts31_iff, readsLines32.accepts_iff isLine32, or_self] at hw
  obtain ⟨e, he, hlex, rfl⟩ := hw
  obtain ⟨n, hn⟩ := e.yields h
  refine ⟨e, he, hlex, n, fun k hk => ?_⟩
  obtain ⟨heval, hf⟩ := hn k hk m' fun _ _ _ => rfl
  have hm : without m m' m' = m := by
    funext b
    grind [without, h.keeps]
  rw [lineAction, heval, hf, hm]
  rfl

/-- The line `1 - 2`. -/
theorem calculator_line_difference : ∃ (e : Expr Int) (m : Mem (Node Int)) (p : Ptr) (n : Nat), e.lexemes = [.number 1, .minus, .number 2] ∧
    lineAction n m p = some (e.meaning, fun _ => none) := by
  have h : Builds (D := Int) (fun _ => none) (.ast '-' (.numval 1) (.numval 2)) _ _ :=
    .newast (a := 2) '-' (.newnum (a := 0) 1 rfl) (.newnum (a := 1) 2 (by simp)) (by simp)
  obtain ⟨e, -, hlex, n, hn⟩ := calculator_line
    (.inl ((accepts31_iff _ _).2 ⟨.bin .sub (.num 1) (.num 2), by simp [Expr.Fits, Op.level], rfl, rfl⟩)) h
  exact ⟨e, _, _, n + 1, hlex, hn (n + 1) n.lt_succ_self⟩

end Yields

end CsLearning.Compiler
