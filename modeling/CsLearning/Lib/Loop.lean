import Mathlib

/-!
# Loops

One round of a loop gives the state to go on with or the result to stop with, or nothing when it does something that has no outcome.
`loop` makes at most a given number of rounds. `Returns` says that the loop stops with a result after some number of rounds: it is false
of a loop that goes on for ever and of one that has no outcome. A loop over a list, or over numbers that go up or down, is a fold; the
rules for these have an invariant that knows how far the loop has come.
-/

open List Option Nat

namespace CsLearning

variable {S R : Type*}

/-- What a round of a loop ends with. -/
inductive Round (S R : Type*) where
  | again (s : S)
  | stop (r : R)

/-- At most `n` rounds of a loop. -/
def loop (round : S → Option (Round S R)) : Nat → S → Option R
  | 0, _ => none
  | n + 1, s =>
    match round s with
    | none => none
    | some (.stop r) => some r
    | some (.again s') => loop round n s'

/-- The loop that starts in `s` stops with the result `r`. -/
def Returns (round : S → Option (Round S R)) (s : S) (r : R) : Prop := ∃ n, loop round n s = some r

/-- The loop comes from the state `s` to the state `s'`. -/
abbrev Leads (round : S → Option (Round S R)) : S → S → Prop := Relation.ReflTransGen fun s s' => round s = some (.again s')

variable {round : S → Option (Round S R)} {s s' : S} {r : R}

theorem loop_of_stop (h : round s = some (.stop r)) (n : Nat) : loop round (n + 1) s = some r := by
  simp only [loop, h]

theorem loop_of_again (h : round s = some (.again s')) (n : Nat) : loop round (n + 1) s = loop round n s' := by
  simp only [loop, h]

/-- More rounds do not change the result. -/
theorem loop_mono {n k : Nat} (h : loop round n s = some r) (hk : n ≤ k) : loop round k s = some r := by
  induction n generalizing s k with
  | zero => cases h
  | succ n ih =>
    obtain ⟨k, rfl⟩ : ∃ j, k = j + 1 := ⟨k - 1, by omega⟩
    unfold loop at h ⊢
    split at h
    · cases h
    · exact h
    · exact ih h (by omega)

/-- The rule for total correctness with a measure: it bounds the number of rounds. -/
theorem loop_of_invariant {μ : S → Nat} {I : S → Prop} {Q : R → Prop} {n : Nat}
    (hrd : ∀ s, I s → (∃ r, round s = some (.stop r) ∧ Q r) ∨ ∃ s', round s = some (.again s') ∧ I s' ∧ μ s' < μ s)
    (hs : I s) (hn : μ s < n) : ∃ r, loop round n s = some r ∧ Q r := by
  induction n generalizing s with
  | zero => omega
  | succ n ih => grind [loop_of_stop, loop_of_again]

/-- The rounds keep the invariant, so all states that the loop comes to have it. -/
theorem Leads.invariant {I : S → Prop} (hrd : ∀ s s', I s → round s = some (.again s') → I s') (h : Leads round s s') (hs : I s) : I s' := by
  induction h with
  | refl => exact hs
  | tail _ hstep ih => exact hrd _ _ ih hstep

namespace Returns

theorem of_stop (h : round s = some (.stop r)) : Returns round s r := ⟨1, loop_of_stop h 0⟩

theorem of_again (h : round s = some (.again s')) (hr : Returns round s' r) : Returns round s r := by
  obtain ⟨n, hn⟩ := hr
  exact ⟨n + 1, by rw [loop_of_again h, hn]⟩

/-- The rounds of a loop up to a state from which it stops. -/
theorem of_leads (h : Leads round s s') (hr : Returns round s' r) : Returns round s r := by
  induction h using Relation.ReflTransGen.head_induction_on with
  | refl => exact hr
  | head hs _ ih => exact of_again hs ih

/-- The rule for total correctness: every round from a state with the invariant stops with a result as wanted, or goes on with the
invariant in a state that is smaller. -/
theorem of_invariant {lt : S → S → Prop} (hwf : WellFounded lt) {I : S → Prop} {Q : R → Prop}
    (hrd : ∀ s, I s → (∃ r, round s = some (.stop r) ∧ Q r) ∨ ∃ s', round s = some (.again s') ∧ I s' ∧ lt s' s)
    (hs : I s) : ∃ r, Returns round s r ∧ Q r := by
  induction s using hwf.induction with
  | _ s ih => grind [of_stop, of_again]

end Returns

/-! ## Loops over the elements of a list -/

section Elements

variable {A B : Type*} {l : List A} {b : B} {P : Nat → B → Prop}

/-- The rule for a loop over a list: the invariant knows the number of elements that have been passed. -/
theorem foldl_of_steps {f : B → A → B} (hs : ∀ k b x, l[k]? = some x → P k b → P (k + 1) (f b x)) (hb : P 0 b) : P l.length (l.foldl f b) := by
  induction l generalizing b P with
  | nil => exact hb
  | cons a l ih =>
    have hr := ih (P := fun k b => P (k + 1) b) (fun k b x hx => hs (k + 1) b x hx) (hs 0 b a rfl hb)
    exact hr

/-- The same rule when the steps know the number of their element. -/
theorem foldl_zipIdx_of_steps {f : B → A × Nat → B} (hs : ∀ k b x, l[k]? = some x → P k b → P (k + 1) (f b (x, k))) (hb : P 0 b) :
    P l.length (l.zipIdx.foldl f b) := by
  rw [← length_zipIdx]
  refine foldl_of_steps (fun k b y hy h => ?_) hb
  rw [getElem?_zipIdx, zero_add, map_eq_some_iff] at hy
  obtain ⟨x, hx, rfl⟩ := hy
  exact hs k b x hx h

/-- The rule for a loop over a list that may fail: the invariant knows the elements that have been passed. -/
theorem foldlM_of_steps {f : B → A → Option B} {P : List A → B → Prop}
    (hs : ∀ done x b, x ∈ l → P done b → ∃ b', f b x = some b' ∧ P (done ++ [x]) b') (hb : P [] b) :
    ∃ b', l.foldlM f b = some b' ∧ P l b' := by
  induction l using reverseRecOn with
  | nil => exact ⟨b, rfl, hb⟩
  | append_singleton l x ih =>
    obtain ⟨b1, hrun, hb1⟩ := ih fun done y b hy => hs done y b (mem_append_left [x] hy)
    obtain ⟨b2, hl, hb2⟩ := hs l x b1 (mem_append_right l (mem_singleton_self x)) hb1
    refine ⟨b2, ?_, hb2⟩
    rw [foldlM_append, hrun]
    simp only [foldlM_cons, bind_eq_bind, bind_some, hl]
    rfl

variable {f : B → Nat → Option B} {a n : Nat}

theorem foldlM_range_reverse (f : B → Nat → Option B) (b : B) (n : Nat) :
    (range (n + 1)).reverse.foldlM f b = (f b n).bind fun b => (range n).reverse.foldlM f b := by
  rw [range_succ, reverse_append, reverse_singleton, singleton_append]
  rfl

theorem foldlM_up (hs : ∀ i b, a ≤ i → i < a + n → P i b → ∃ b', f b i = some b' ∧ P (i + 1) b') (hb : P a b) :
    ∃ b', (range' a n).foldlM f b = some b' ∧ P (a + n) b' := by
  induction n with
  | zero => exact ⟨b, rfl, hb⟩
  | succ n ih =>
    obtain ⟨b1, hrun, hb1⟩ := ih fun i b hi hlt => hs i b hi (hlt.trans (lt_succ_self _))
    obtain ⟨b2, hl, hb2⟩ := hs (a + n) b1 (le_add_right a n) (lt_succ_self _) hb1
    refine ⟨b2, ?_, hb2⟩
    rw [range'_concat, foldlM_append, hrun, one_mul]
    simp only [foldlM_cons, bind_eq_bind, bind_some, hl]
    rfl

theorem foldlM_up_of_some {b' : B} (hs : ∀ i b b', a ≤ i → i < a + n → P i b → f b i = some b' → P (i + 1) b') (hb : P a b)
    (h : (range' a n).foldlM f b = some b') : P (a + n) b' := by
  induction n generalizing a b with
  | zero =>
    cases h
    exact hb
  | succ n ih =>
    obtain ⟨b1, hfst, hr⟩ := bind_eq_some_iff.1 h
    have hend := ih (fun i b b' hi hlt => hs i b b' (by omega) (by omega)) (hs a b b1 (le_refl a) (by omega) hb hfst) hr
    rwa [add_right_comm] at hend

/-- Two computations that go on in step, and fail together. -/
theorem rel_bind {C A' C' : Type*} {R : A → C → Prop} {S : A' → C' → Prop} {x : Option A} {y : Option C} {f : A → Option A'} {g : C → Option C'}
    (h : Option.Rel R x y) (hfg : ∀ a c, y = some c → R a c → Option.Rel S (f a) (g c)) : Option.Rel S (x.bind f) (y.bind g) := by
  cases h with
  | none => exact Rel.none
  | some hac => exact hfg _ _ rfl hac

theorem eq_of_rel {x y : Option A} (h : Option.Rel (· = ·) x y) : x = y := by
  cases h with
  | none => rfl
  | some heq => rw [heq]

/-- Two loops that count up and fail at the same place, if they do. -/
theorem foldlM_up_rel {C : Type*} {g : C → Nat → Option C} {c : C} {P : Nat → B → C → Prop}
    (hs : ∀ i b c, a ≤ i → i < a + n → P i b c → Option.Rel (P (i + 1)) (f b i) (g c i)) (hbc : P a b c) :
    Option.Rel (P (a + n)) ((range' a n).foldlM f b) ((range' a n).foldlM g c) := by
  induction n generalizing a b c with
  | zero => exact Rel.some hbc
  | succ n ih =>
    refine rel_bind (hs a b c (le_refl a) (by omega) hbc) ?_
    intro b1 c1 _ hn
    have hend := ih (fun i b c hi hlt => hs i b c (by omega) (by omega)) hn
    rwa [add_right_comm] at hend

theorem foldlM_down (hs : ∀ i b, a ≤ i → i < a + n → P (i + 1) b → ∃ b', f b i = some b' ∧ P i b') (hb : P (a + n) b) :
    ∃ b', (range' a n).reverse.foldlM f b = some b' ∧ P a b' := by
  induction n generalizing b with
  | zero => exact ⟨b, rfl, hb⟩
  | succ n ih =>
    obtain ⟨b1, hrun, hb1⟩ := hs (a + n) b (le_add_right a n) (lt_succ_self _) hb
    obtain ⟨b2, hr, hb2⟩ := ih (fun i b hi hlt => hs i b hi (hlt.trans (lt_succ_self _))) hb1
    refine ⟨b2, ?_, hb2⟩
    rw [range'_concat, reverse_append, reverse_singleton, singleton_append, foldlM_cons, one_mul, hrun]
    exact hr

end Elements

end CsLearning
