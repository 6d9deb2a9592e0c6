import Mathlib

/-!
# Grammars with precedences and their shift-reduce parsers

A grammar is the list of its rules in order, with the levels of precedence of its tokens. Derivation trees are built by the rules.
The parser is the LALR(1) parser that the Bison manual describes: the items valid for a stack say which token can be shifted and
which rules can be reduced; a conflict of the two is settled by precedence, a conflict of two rules by their order.

Stacks are listed from the top. An item `r, α, β` is the rule `r` with the dot between `α`, listed from the dot back, and `β`.
-/

open List

namespace CsLearning

/-- A rule: `prec` is the token of its `%prec` modifier, `action` names its semantic action. -/
structure Rule (T N A : Type) where
  lhs : N
  rhs : List (Symbol T N)
  prec : Option T
  action : A
deriving DecidableEq

inductive Assoc
  | left
  | right
  | nonassoc
deriving DecidableEq

/-- A grammar; the later of two levels has the higher precedence. -/
structure Grammar (T N A : Type) where
  rules : List (Rule T N A)
  start : N
  levels : List (Assoc × List T)

/-! ## Derivation trees -/

/-- A tree over tokens with values of type `V`. -/
inductive Tree (T N A V : Type)
  | leaf (t : T) (v : V)
  | node (r : Rule T N A) (children : List (Tree T N A V))

section trees

variable {T N A V : Type}

def Tree.root : Tree T N A V → Symbol T N
  | .leaf t _ => .terminal t
  | .node r _ => .nonterminal r.lhs

@[simp] theorem Tree.root_node (r : Rule T N A) (cs : List (Tree T N A V)) : (Tree.node r cs).root = .nonterminal r.lhs := rfl

mutual
/-- The tokens of a tree from left to right. -/
def Tree.yield : Tree T N A V → List (T × V)
  | .leaf t v => [(t, v)]
  | .node _ cs => Tree.yields cs
def Tree.yields : List (Tree T N A V) → List (T × V)
  | [] => []
  | c :: cs => c.yield ++ Tree.yields cs
end

mutual
/-- The value of a tree under the semantic actions. -/
def Tree.value (act : A → List V → V) : Tree T N A V → V
  | .leaf _ v => v
  | .node r cs => act r.action (Tree.values act cs)
def Tree.values (act : A → List V → V) : List (Tree T N A V) → List V
  | [] => []
  | c :: cs => c.value act :: Tree.values act cs
end

/-- The trees that the rules of the grammar build. -/
inductive Grammar.Derives (G : Grammar T N A) : Tree T N A V → Prop
  | leaf (t : T) (v : V) : G.Derives (.leaf t v)
  | node (r : Rule T N A) (cs : List (Tree T N A V)) :
      r ∈ G.rules → cs.map Tree.root = r.rhs → (∀ c ∈ cs, G.Derives c) → G.Derives (.node r cs)

theorem Tree.yields_append (cs ds : List (Tree T N A V)) : Tree.yields (cs ++ ds) = Tree.yields cs ++ Tree.yields ds := by
  induction cs with
  | nil => rfl
  | cons c cs ih => simp only [cons_append, Tree.yields, ih, append_assoc]

theorem Tree.yield_subset_yields {c : Tree T N A V} {cs : List (Tree T N A V)} (h : c ∈ cs) : c.yield ⊆ Tree.yields cs := by
  obtain ⟨l₁, l₂, rfl⟩ := append_of_mem h
  intro x hx
  simp [Tree.yields_append, Tree.yields, hx]

end trees

/-! ## Precedence -/

section precedence

variable {T N A : Type}

def Rule.token? : Symbol T N → Option T
  | .terminal t => some t
  | .nonterminal _ => none

/-- The token that gives a rule its precedence: that of `%prec`, or the last token of the rule. -/
def Rule.precToken (r : Rule T N A) : Option T := r.prec.or (r.rhs.reverse.findSome? Rule.token?)

variable [DecidableEq T]

def Grammar.level (G : Grammar T N A) (t : T) : Option (Nat × Assoc) :=
  (G.levels.zipIdx.find? fun p => t ∈ p.1.2).map fun p => (p.2, p.1.1)

inductive Resolution
  | shift
  | reduce
  | error
deriving DecidableEq

/-- How a conflict between a rule and the shift of a token is settled. -/
def Grammar.resolve (G : Grammar T N A) (r : Rule T N A) (t : T) : Resolution :=
  match r.precToken.bind G.level, G.level t with
  | some (p, _), some (q, assoc) =>
    if q < p then .reduce
    else if p < q then .shift
    else match assoc with
      | .left => .reduce
      | .right => .shift
      | .nonassoc => .error
  | _, _ => .shift

theorem Grammar.resolve_of_precToken {G : Grammar T N A} {r : Rule T N A} (h : r.precToken = none) (t : T) : G.resolve r t = .shift := by
  simp [Grammar.resolve, h]

end precedence

/-! ## Items -/

namespace Grammar

variable {T N A V : Type}

/-- What a token that follows `β` can be when `a` follows the whole; `none` is the end of the input. -/
inductive First (G : Grammar T N A) : List (Symbol T N) → Option T → Option T → Prop
  | nil (a : Option T) : G.First [] a a
  | tok (t : T) (β : List (Symbol T N)) (a : Option T) : G.First (.terminal t :: β) a (some t)
  | non {r : Rule T N A} {β : List (Symbol T N)} {a b : Option T} :
      r ∈ G.rules → G.First (r.rhs ++ β) a b → G.First (.nonterminal r.lhs :: β) a b

/-- The items valid for a stack. -/
inductive Item (G : Grammar T N A) : List (Symbol T N) → Rule T N A → List (Symbol T N) → List (Symbol T N) → Prop
  | start {r : Rule T N A} : r ∈ G.rules → r.lhs = G.start → G.Item [] r [] r.rhs
  | goto {γ : List (Symbol T N)} {r : Rule T N A} {α β : List (Symbol T N)} {X : Symbol T N} :
      G.Item γ r α (X :: β) → G.Item (X :: γ) r (X :: α) β
  | closure {γ : List (Symbol T N)} {r r' : Rule T N A} {α β : List (Symbol T N)} :
      G.Item γ r α (.nonterminal r'.lhs :: β) → r' ∈ G.rules → G.Item γ r' [] r'.rhs

/-- The items valid for a stack, each with a token that may follow its rule. -/
inductive Item1 (G : Grammar T N A) :
    List (Symbol T N) → Rule T N A → List (Symbol T N) → List (Symbol T N) → Option T → Prop
  | start {r : Rule T N A} : r ∈ G.rules → r.lhs = G.start → G.Item1 [] r [] r.rhs none
  | goto {γ : List (Symbol T N)} {r : Rule T N A} {α β : List (Symbol T N)} {X : Symbol T N} {a : Option T} :
      G.Item1 γ r α (X :: β) a → G.Item1 (X :: γ) r (X :: α) β a
  | closure {γ : List (Symbol T N)} {r r' : Rule T N A} {α β : List (Symbol T N)} {a b : Option T} :
      G.Item1 γ r α (.nonterminal r'.lhs :: β) a → r' ∈ G.rules → G.First β a b → G.Item1 γ r' [] r'.rhs b

def CanShift (G : Grammar T N A) (γ : List (Symbol T N)) (t : T) : Prop := ∃ r α β, G.Item γ r α (.terminal t :: β)

/-- The rule is complete on a stack of the same state, and the token may follow there. -/
def CanReduce (G : Grammar T N A) (γ : List (Symbol T N)) (r : Rule T N A) (a : Option T) : Prop :=
  ∃ γ', (∀ r' α β, G.Item γ r' α β ↔ G.Item γ' r' α β) ∧ G.Item1 γ' r r.rhs.reverse [] a

section items

variable {G : Grammar T N A} {γ α β : List (Symbol T N)} {r : Rule T N A} {X Y : Symbol T N} {a : Option T}

theorem Item1.item (h : G.Item1 γ r α β a) : G.Item γ r α β := by
  induction h with
  | start hr hs => exact .start hr hs
  | goto _ ih => exact .goto ih
  | closure _ hr _ ih => exact .closure ih hr

theorem CanReduce.item (h : G.CanReduce γ r a) : G.Item γ r r.rhs.reverse [] := by
  obtain ⟨γ', hs, hi⟩ := h
  exact (hs _ _ _).2 hi.item

theorem Item1.canReduce (h : G.Item1 γ r r.rhs.reverse [] a) : G.CanReduce γ r a := ⟨γ, fun _ _ _ => Iff.rfl, h⟩

theorem Item.mem (h : G.Item γ r α β) : r ∈ G.rules := by
  induction h with
  | start hr _ => exact hr
  | goto _ ih => exact ih
  | closure _ hr _ => exact hr

theorem Item.rhs_eq (h : G.Item γ r α β) : r.rhs = α.reverse ++ β := by
  induction h with
  | start _ _ => rfl
  | goto _ ih => rw [ih, reverse_cons, append_assoc, singleton_append]
  | closure _ _ _ => rfl

theorem Item.isPrefix (h : G.Item γ r α β) : α <+: γ := by
  induction h with
  | start _ _ => exact nil_prefix
  | goto _ ih => exact cons_prefix_cons.2 ⟨rfl, ih⟩
  | closure _ _ _ => exact nil_prefix

theorem Item.of_cons (h : G.Item (X :: γ) r (Y :: α) β) : Y = X ∧ G.Item γ r α (X :: β) := by
  cases h with
  | goto h => exact ⟨rfl, h⟩

end items

/-! ## The items that a stack allows, from its top -/

section shapes

variable [DecidableEq T] [DecidableEq N] {G : Grammar T N A} {γ α β τ : List (Symbol T N)} {r : Rule T N A} {X : Symbol T N}
  {S : List N}

/-- The items of a rule whose dot is not at the start. -/
def splits (r : Rule T N A) : List (List (Symbol T N) × List (Symbol T N)) :=
  (List.range r.rhs.length).map fun i => ((r.rhs.take (i + 1)).reverse, r.rhs.drop (i + 1))

/-- The items, with the dot not at the start, that can be valid when `τ` is on top of the stack. -/
def shapes (G : Grammar T N A) (τ : List (Symbol T N)) : List (Rule T N A × List (Symbol T N) × List (Symbol T N)) :=
  G.rules.flatMap fun r => ((splits r).filter fun p => p.1 <+: τ ∨ τ <+: p.1).map fun p => (r, p)

theorem Item.mem_shapes (h : G.Item γ r (X :: α) β) (hτ : τ <+: γ) : (r, X :: α, β) ∈ G.shapes τ := by
  have hsp : (X :: α, β) ∈ splits r := by
    refine mem_map.2 ⟨α.length, ?_, ?_⟩
    · simp [h.rhs_eq]
    · have hlen : α.length + 1 = (X :: α).reverse.length := by simp
      rw [h.rhs_eq, hlen, take_left, drop_left, reverse_reverse]
  have hf : X :: α <+: τ ∨ τ <+: X :: α := prefix_or_prefix_of_prefix h.isPrefix hτ
  exact mem_flatMap.2 ⟨r, h.mem, mem_map.2 ⟨(X :: α, β), mem_filter.2 ⟨hsp, by simpa using hf⟩, rfl⟩⟩

/-- A rule that can be reduced is empty, or its item is among those that the top of the stack allows. -/
theorem CanReduce.cases {a : Option T} (h : G.CanReduce γ r a) (hτ : τ <+: γ) :
    G.Item γ r [] [] ∨ ∃ X α, r.rhs.reverse = X :: α ∧ G.Item γ r (X :: α) [] ∧ (r, X :: α, []) ∈ G.shapes τ := by
  have hi := h.item
  cases hrhs : r.rhs.reverse with
  | nil =>
    rw [hrhs] at hi
    exact .inl hi
  | cons X α =>
    rw [hrhs] at hi
    exact .inr ⟨X, α, rfl, hi, hi.mem_shapes hτ⟩

/-- If a nonterminal comes first, it is one of `S`. -/
def NextIn (S : List N) : List (Symbol T N) → Prop
  | .nonterminal B :: _ => B ∈ S
  | _ => True

instance (S : List N) : (β : List (Symbol T N)) → Decidable (NextIn S β)
  | .nonterminal B :: _ => inferInstanceAs (Decidable (B ∈ S))
  | .terminal _ :: _ => .isTrue trivial
  | [] => .isTrue trivial

/-- The rules that can begin on a stack: their left sides are among any set closed under what comes first. -/
theorem Item.lhs_mem (h : G.Item γ r [] β) (hcl : ∀ r ∈ G.rules, r.lhs ∈ S → NextIn S r.rhs)
    (hst : γ = [] → G.start ∈ S) (hn : ∀ X ∈ γ.head?, ∀ p ∈ G.shapes [X], NextIn S p.2.2) : r.lhs ∈ S := by
  generalize hα : ([] : List (Symbol T N)) = α at h
  induction h with
  | start _ hlhs => exact hlhs ▸ hst rfl
  | goto _ _ => cases hα
  | @closure γ r r' α β hi _ ih =>
    cases α with
    | nil =>
      have hin := hcl r hi.mem (ih hst hn rfl)
      rwa [hi.rhs_eq] at hin
    | cons X α =>
      obtain ⟨γ', rfl⟩ := hi.isPrefix
      exact hn X (by simp) _ (hi.mem_shapes (by simp))

/-- No rule begins after a symbol that no nonterminal follows. -/
theorem Item.not_begins (hX : ∀ p ∈ G.shapes [X], NextIn [] p.2.2) : ¬ G.Item (X :: γ) r [] β := by
  intro h
  have hmem : r.lhs ∈ ([] : List N) := h.lhs_mem (by simp) (by simp) (by simpa using hX)
  cases hmem

/-- Where nothing begins and the items valid for the top are all complete and of one rule, only that rule can be reduced. -/
theorem only_of_shapes (hX : ∀ p ∈ G.shapes [X], NextIn [] p.2.2) (hτ : X :: τ <+: γ) (honly : ∀ p ∈ G.shapes (X :: τ), p.1 = r ∧ p.2.2 = []) :
    (∀ t, ¬ G.CanShift γ t) ∧ ∀ r' a, G.CanReduce γ r' a → r' = r := by
  have hnot {r' : Rule T N A} {β : List (Symbol T N)} : ¬ G.Item γ r' [] β := by
    obtain ⟨γ', rfl⟩ := hτ
    exact Item.not_begins hX
  constructor
  · rintro t ⟨r', α, β, hi⟩
    cases α with
    | nil => exact hnot hi
    | cons Y α => cases (honly _ (hi.mem_shapes hτ)).2
  · intro r' a h
    rcases h.cases hτ with hi | ⟨Y, α, -, -, hshape⟩
    · exact absurd hi hnot
    · exact (honly _ hshape).1

end shapes

/-! ## The parser -/

theorem first_unique {α : Type} {P : α → Prop} {r r' : α} {l₁ l₂ l1' l2' : List α}
    (h : l₁ ++ r :: l₂ = l1' ++ r' :: l2') (hr : P r) (hr' : P r') (hno : ∀ x ∈ l₁, ¬ P x) (hno' : ∀ x ∈ l1', ¬ P x) :
    r = r' := by
  rcases append_eq_append_iff.1 h with ⟨m, rfl, hm⟩ | ⟨m, rfl, hm⟩
  · cases m with
    | nil => exact (cons_eq_cons.1 hm).1
    | cons x m => grind
  · cases m with
    | nil => exact (cons_eq_cons.1 hm).1.symm
    | cons x m => grind

section parser

variable [DecidableEq T]

/-- The rule can be reduced, and is preferred to a shift if there is one. -/
def Survives (G : Grammar T N A) (γ : List (Symbol T N)) (a : Option T) (r : Rule T N A) : Prop :=
  G.CanReduce γ r a ∧ ∀ t ∈ a, G.CanShift γ t → G.resolve r t = .reduce

/-- A step of the parser on its stack and the rest of the input: shift if no rule that can be reduced is preferred or makes the
token an error, reduce by the first rule that survives. -/
inductive Step (G : Grammar T N A) : List (Tree T N A V) × List (T × V) → List (Tree T N A V) × List (T × V) → Prop
  | shift {st : List (Tree T N A V)} {t : T} {v : V} {w : List (T × V)} :
      G.CanShift (st.map Tree.root) t →
      (∀ r, G.CanReduce (st.map Tree.root) r (some t) → G.resolve r t = .shift) →
      G.Step (st, (t, v) :: w) (.leaf t v :: st, w)
  | reduce {st rest cs : List (Tree T N A V)} {w : List (T × V)} {r : Rule T N A} {l₁ l₂ : List (Rule T N A)} :
      st = cs.reverse ++ rest → cs.map Tree.root = r.rhs → G.rules = l₁ ++ r :: l₂ →
      G.Survives (st.map Tree.root) (w.head?.map Prod.fst) r →
      (∀ r' ∈ l₁, ¬ G.Survives (st.map Tree.root) (w.head?.map Prod.fst) r') →
      G.Step (st, w) (.node r cs :: rest, w)

variable {G : Grammar T N A} {c c1 c2 : List (Tree T N A V) × List (T × V)}

variable {st rest cs : List (Tree T N A V)}

/-- A step by the only rule that survives. -/
theorem Step.reduce_only {w : List (T × V)} {r : Rule T N A} (hst : st = cs.reverse ++ rest)
    (hcs : cs.map Tree.root = r.rhs) (hsurv : G.Survives (st.map Tree.root) (w.head?.map Prod.fst) r)
    (honly : ∀ r', G.Survives (st.map Tree.root) (w.head?.map Prod.fst) r' → r' = r) :
    G.Step (st, w) (.node r cs :: rest, w) := by
  obtain ⟨l₁, l₂, hsp, hnot⟩ := eq_append_cons_of_mem hsurv.1.item.mem
  refine .reduce hst hcs hsp hsurv ?_
  intro r' hr' hsurv'
  rw [honly r' hsurv'] at hr'
  exact hnot hr'

/-- A step by the only rule that the top of the stack allows. -/
theorem Step.reduce_shape [DecidableEq N] {w : List (T × V)} {r : Rule T N A}
    {X : Symbol T N} {τ : List (Symbol T N)} (hst : st = cs.reverse ++ rest) (hcs : cs.map Tree.root = r.rhs)
    (hred : G.CanReduce (st.map Tree.root) r (w.head?.map Prod.fst)) (hτ : X :: τ <+: st.map Tree.root)
    (hX : ∀ p ∈ G.shapes [X], NextIn [] p.2.2) (honly : ∀ p ∈ G.shapes (X :: τ), p.1 = r ∧ p.2.2 = []) :
    G.Step (st, w) (.node r cs :: rest, w) := by
  obtain ⟨hsh, hrule⟩ := only_of_shapes hX hτ honly
  refine .reduce_only hst hcs ⟨hred, ?_⟩ ?_
  · intro t _ h
    exact absurd h (hsh t)
  · intro r' h
    exact hrule r' _ h.1

/-- The parser is deterministic. -/
theorem Step.unique (h1 : G.Step c c1) (h2 : G.Step c c2) : c1 = c2 := by
  cases h1 with
  | shift hsh hno =>
    cases h2 with
    | shift _ _ => rfl
    | reduce _ _ _ hsurv _ =>
      have hred := hsurv.2 _ rfl hsh
      rw [hno _ hsurv.1] at hred
      cases hred
  | reduce hst hcs hsp hsurv hfst =>
    cases h2 with
    | shift hsh hno =>
      have hred := hsurv.2 _ rfl hsh
      rw [hno _ hsurv.1] at hred
      cases hred
    | reduce hst' hcs' hsp' hsurv' hfst' =>
      obtain rfl := first_unique (hsp.symm.trans hsp') hsurv hsurv' hfst hfst'
      have hlen := congrArg List.length (hcs.trans hcs'.symm)
      simp only [length_map] at hlen
      obtain ⟨hrev, rfl⟩ := append_inj (hst.symm.trans hst') (by simp [hlen])
      rw [reverse_inj.1 hrev]

/-- Two runs from the same place that both end where the parser stops end in the same place. -/
theorem Step.end_unique (h1 : Relation.ReflTransGen G.Step c c1) (h2 : Relation.ReflTransGen G.Step c c2)
    (hstop1 : ∀ c', ¬ G.Step c1 c') (hstop2 : ∀ c', ¬ G.Step c2 c') : c1 = c2 := by
  induction h1 using Relation.ReflTransGen.head_induction_on with
  | refl => grind
  | head hs _ ih =>
    cases Relation.ReflTransGen.cases_head h2 with
    | inl heq =>
      rw [heq] at hs
      exact absurd hs (hstop2 _)
    | inr hs' =>
      obtain ⟨c', hc', hrun⟩ := hs'
      obtain rfl := hs.unique hc'
      exact ih hrun

/-- A step keeps the trees on the stack derivations, and together with the rest of the input what was read. -/
theorem Step.keeps (h : G.Step c c1) (hc : ∀ t ∈ c.1, G.Derives t) :
    (∀ t ∈ c1.1, G.Derives t) ∧ Tree.yields c1.1.reverse ++ c1.2 = Tree.yields c.1.reverse ++ c.2 := by
  cases h with
  | shift _ _ =>
    refine ⟨forall_mem_cons.2 ⟨.leaf _ _, hc⟩, ?_⟩
    simp [Tree.yields_append, Tree.yields, Tree.yield]
  | @reduce st rest cs w r l₁ l₂ hst hcs hsp _ _ =>
    subst hst
    have hnode : G.Derives (.node r cs) := .node r cs (by simp [hsp]) hcs fun t ht => hc t (by simp [ht])
    refine ⟨forall_mem_cons.2 ⟨hnode, fun t ht => hc t (by simp [ht])⟩, ?_⟩
    simp [Tree.yields_append, Tree.yields, Tree.yield]

theorem Step.sound (h : Relation.ReflTransGen G.Step c c1) (hc : ∀ t ∈ c.1, G.Derives t) :
    (∀ t ∈ c1.1, G.Derives t) ∧ Tree.yields c1.1.reverse ++ c1.2 = Tree.yields c.1.reverse ++ c.2 := by
  induction h with
  | refl => exact ⟨hc, rfl⟩
  | tail _ hs ih =>
    obtain ⟨hderives, hyield⟩ := hs.keeps ih.1
    exact ⟨hderives, hyield.trans ih.2⟩

end parser

end Grammar

end CsLearning
