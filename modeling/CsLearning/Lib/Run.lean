import Mathlib

/-!
# Runs of a system

A system is a partial function `exec : S → A → Option (S × E)`: an action is disabled in a state, or it gives the next state
and an event. `RunIf exec ok s₀ es s` says that a run from `s₀` whose steps all meet the condition `ok` (on the state before the
step and the action) makes the events `es` and ends in `s`; `Run` has no condition. A run on a given list of actions is computed
by `execAll`, so a concrete run can be evaluated. `Outcome` says of one partial call when it returns and what then holds.
-/

open List Option

namespace CsLearning

variable {S A E : Type*}

/-- A run from `s₀` with events `es` to the state `s`, whose every step is taken from a state and by an action that `ok` allows. -/
inductive RunIf (exec : S → A → Option (S × E)) (ok : S → A → Prop) (s₀ : S) : List E → S → Prop where
  | nil : RunIf exec ok s₀ [] s₀
  | snoc {es : List E} {s s' : S} {a : A} {e : E} :
      RunIf exec ok s₀ es s → ok s a → exec s a = some (s', e) → RunIf exec ok s₀ (es ++ [e]) s'

/-- A run with no condition on its steps. -/
abbrev Run (exec : S → A → Option (S × E)) (s₀ : S) : List E → S → Prop := RunIf exec (fun _ _ => True) s₀

/-- The run on a list of actions: the state it ends in and its events, or nothing when some action is disabled. -/
def execAll (exec : S → A → Option (S × E)) : S → List A → Option (S × List E)
  | s, [] => some (s, [])
  | s, a :: as =>
    match exec s a with
    | none => none
    | some (s', e) =>
      match execAll exec s' as with
      | none => none
      | some (s'', es) => some (s'', e :: es)

/-- The system that refuses the steps `ok` does not allow. -/
def guarded (exec : S → A → Option (S × E)) (ok : S → A → Prop) [∀ s a, Decidable (ok s a)] : S → A → Option (S × E) :=
  fun s a => if ok s a then exec s a else none

/-- The system that keeps a record of its events beside the state, for conditions on what happened before. -/
def traced (exec : S → A → Option (S × E)) : S × List E → A → Option ((S × List E) × E) :=
  fun s a => (exec s.1 a).map fun r => ((r.1, s.2 ++ [r.2]), r.2)

/-! ## Calls that may have no outcome -/

/-- The result `r` of a call: there is one when `ok` holds, and whatever it is, it satisfies `Q`. -/
structure Outcome {R : Type*} (r : Option R) (ok : Prop) (Q : R → Prop) : Prop where
  returns : ok → ∃ x, r = some x
  post : ∀ x, r = some x → Q x

namespace Outcome

variable {R R' : Type*} {r : Option R} {ok ok' : Prop} {Q Q' : R → Prop}

theorem of_eq {x : R} (hr : r = some x) (h : Q x) : Outcome r ok Q := by
  subst hr
  refine ⟨fun _ => ⟨x, rfl⟩, fun y hy => ?_⟩
  cases hy
  exact h

theorem of_none (hr : r = none) (h : ¬ok) : Outcome r ok Q := by
  subst hr
  refine ⟨fun ho => absurd ho h, fun x hx => ?_⟩
  cases hx

theorem mono (h : Outcome r ok Q) (hok : ok' → ok) (hQ : ∀ x, Q x → Q' x) : Outcome r ok' Q' :=
  ⟨fun ho => h.returns (hok ho), fun x hx => hQ x (h.post x hx)⟩

/-- A call after another one, under the condition of the first. -/
theorem bind {f : R → Option R'} {P : R' → Prop} (h : Outcome r ok Q) (hf : ∀ x, Q x → Outcome (f x) ok P) : Outcome (r.bind f) ok P := by
  constructor
  · intro ho
    obtain ⟨x, rfl⟩ := h.returns ho
    exact (hf x (h.post x rfl)).returns ho
  · intro y hy
    obtain ⟨x, rfl, hx⟩ := bind_eq_some_iff.mp hy
    exact (hf x (h.post x rfl)).post y hx

theorem map {f : R → R'} {P : R' → Prop} (h : Outcome r ok Q) (hf : ∀ x, Q x → P (f x)) : Outcome (r.map f) ok P := by
  rw [map_eq_bind]
  exact h.bind fun x hx => of_eq rfl (hf x hx)

end Outcome

/-! ## Composing runs -/

variable {exec : S → A → Option (S × E)} {ok : S → A → Prop} {s₀ : S}

variable {es es' : List E} {s s' : S}

theorem RunIf.trans (h : RunIf exec ok s₀ es s) (h' : RunIf exec ok s es' s') : RunIf exec ok s₀ (es ++ es') s' := by
  induction h' with
  | nil => rwa [append_nil]
  | snoc _ hok hx ih =>
    rw [← append_assoc]
    exact RunIf.snoc ih hok hx

/-- A run ends with its last event: the run before it, and the step that made it. -/
theorem RunIf.of_snoc {e : E} (h : RunIf exec ok s₀ (es ++ [e]) s) : ∃ s1 a, RunIf exec ok s₀ es s1 ∧ ok s1 a ∧ exec s1 a = some (s, e) := by
  generalize hes : es ++ [e] = fs at h
  cases h with
  | nil => simp at hes
  | snoc hr ho hx => grind [append_inj']

theorem RunIf.of_append (h : RunIf exec ok s₀ (es ++ es') s) : ∃ s1, RunIf exec ok s₀ es s1 ∧ RunIf exec ok s1 es' s := by
  induction es' using List.reverseRecOn generalizing s with
  | nil =>
    rw [append_nil] at h
    exact ⟨s, h, RunIf.nil⟩
  | append_singleton fs f ih =>
    rw [← append_assoc] at h
    obtain ⟨s2, a, hr, ho, hx⟩ := h.of_snoc
    obtain ⟨s1, h1, h2⟩ := ih hr
    exact ⟨s1, h1, RunIf.snoc h2 ho hx⟩

theorem RunIf.single {a : A} {e : E} (ho : ok s a) (hx : exec s a = some (s', e)) : RunIf exec ok s [e] s' := RunIf.snoc RunIf.nil ho hx

/-- When every step does to an abstract value what its event stands for, so does every run. -/
theorem RunIf.refines {B C : Type*} {R : S → B → Prop} {step : B → C → B} {f : E → C} {b0 : B} (h0 : R s₀ b0)
    (hs : ∀ s a s' e b, R s b → exec s a = some (s', e) → R s' (step b (f e))) (h : RunIf exec ok s₀ es s) :
    R s ((es.map f).foldl step b0) := by
  induction h with
  | nil => exact h0
  | snoc _ _ hx ih => grind

/-- A piece of run that carries a family of conditions from one member to the next can be repeated. -/
theorem RunIf.iterate {K : Type*} {P : K → S → Prop} {f : K → K}
    (h : ∀ k s, P k s → ∃ es s', RunIf exec ok s es s' ∧ P (f k) s') (m : Nat) {k : K} (hs : P k s) :
    ∃ es s', RunIf exec ok s es s' ∧ P (f^[m] k) s' := by
  induction m with
  | zero => exact ⟨[], s, RunIf.nil, hs⟩
  | succ m ih =>
    obtain ⟨es, s1, hr, hs1⟩ := ih
    obtain ⟨es', s2, hr', hs2⟩ := h _ _ hs1
    exact ⟨es ++ es', s2, hr.trans hr', by rwa [Function.iterate_succ_apply']⟩

theorem run_of_execAll (as : List A) (h : execAll exec s as = some (s', es)) : Run exec s es s' := by
  induction as generalizing s es with
  | nil => grind [execAll, RunIf.nil]
  | cons a as ih =>
    simp only [execAll] at h
    split at h
    · cases h
    · rename_i s1 e hx
      split at h
      · cases h
      · rename_i s2 es2 hr
        obtain ⟨rfl, rfl⟩ := h
        exact (RunIf.single trivial hx).trans (ih hr)

/-- A run whose end is looked at through `g`: what is computed is what is seen and the events. -/
theorem exists_run_of_view {V : Type*} (exec : S → A → Option (S × E)) (g : S → V) (s : S) (as : List A) {v : V}
    (h : (execAll exec s as).map (fun r => (g r.1, r.2)) = some (v, es)) : ∃ s', Run exec s es s' ∧ g s' = v := by
  obtain ⟨⟨s', es'⟩, hx, he⟩ := map_eq_some_iff.mp h
  obtain ⟨rfl, rfl⟩ := Prod.mk.inj he
  exact ⟨s', run_of_execAll as hx, rfl⟩

/-- A list of actions whose events can be computed makes a run with these events. -/
theorem exists_run_of_events (exec : S → A → Option (S × E)) (s : S) (as : List A) (h : (execAll exec s as).map Prod.snd = some es) :
    ∃ s', Run exec s es s' := by
  obtain ⟨⟨s', es'⟩, hx, rfl⟩ := map_eq_some_iff.mp h
  exact ⟨s', run_of_execAll as hx⟩

/-- What `execAll` computes on the guarded system is a run under the guard. -/
theorem runIf_of_guarded [∀ s a, Decidable (ok s a)] (h : Run (guarded exec ok) s es s') : RunIf exec ok s es s' := by
  induction h with
  | nil => exact RunIf.nil
  | snoc _ _ hx ih =>
    unfold guarded at hx
    split at hx
    · rename_i ho
      exact RunIf.snoc ih ho hx
    · cases hx

/-- The invariant rule for a system that records its events: the record is the list of the events. -/
theorem RunIf.of_traced {ok : S × List E → A → Prop} {P : List E → S → Prop} (h0 : P [] s₀)
    (hs : ∀ es s a s' e, P es s → ok (s, es) a → exec s a = some (s', e) → P (es ++ [e]) s')
    {s : S × List E} (h : RunIf (traced exec) ok (s₀, []) es s) : s.2 = es ∧ P es s.1 := by
  induction h with
  | nil => exact ⟨rfl, h0⟩
  | snoc _ ho hx ih =>
    obtain ⟨⟨s1, e1⟩, hx1, he⟩ := map_eq_some_iff.mp hx
    obtain ⟨rfl, rfl⟩ := Prod.mk.inj he
    refine ⟨by rw [ih.1], hs _ _ _ _ _ ih.2 ?_ hx1⟩
    rw [← ih.1]
    exact ho

theorem filterMap_snoc {O : Type*} (f : E → Option O) (es : List E) (e : E) : (es ++ [e]).filterMap f = es.filterMap f ++ (f e).toList := by
  cases h : f e <;> simp [h]

/-! ## Simulation -/

/-- The simulation rule. A relation that holds at the start, and that every step of the first system carries over to finitely many
steps of the second with the same observations, gives for each run of the first a run of the second with the same
observations. The relation may look at the events made so far, and only runs whose events satisfy the prefix-closed `Q` are
followed. -/
theorem RunIf.simulate {S' A' E' O : Type*} {exec' : S' → A' → Option (S' × E')} {obs : E → Option O} {obs' : E' → Option O}
    {Q : List E → Prop} (hQ : ∀ es e, Q (es ++ [e]) → Q es) {R : List E → S → S' → Prop} {t0 : S'} (h0 : R [] s₀ t0)
    (hs : ∀ es s a s' e t, RunIf exec ok s₀ es s → R es s t → ok s a → exec s a = some (s', e) → Q (es ++ [e]) →
      ∃ fs t', Run exec' t fs t' ∧ fs.filterMap obs' = (obs e).toList ∧ R (es ++ [e]) s' t')
    (h : RunIf exec ok s₀ es s) (hq : Q es) :
    ∃ fs t, Run exec' t0 fs t ∧ fs.filterMap obs' = es.filterMap obs ∧ R es s t := by
  induction h with
  | nil => exact ⟨[], t0, RunIf.nil, rfl, h0⟩
  | snoc hr ho hx ih =>
    obtain ⟨fs, t, ht, hobs, hR⟩ := ih (hQ _ _ hq)
    obtain ⟨fs', t', ht', hobs', hR'⟩ := hs _ _ _ _ _ _ hr hR ho hx hq
    refine ⟨fs ++ fs', t', ht.trans ht', ?_, hR'⟩
    rw [filterMap_append, hobs, hobs']
    cases he : obs _ <;> simp [he]

end CsLearning
