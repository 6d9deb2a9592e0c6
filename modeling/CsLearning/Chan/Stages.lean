import CsLearning.Chan.Sharded

/-!
# `chan.h`: the stages of an operation of the channel

A thread inside `push` or `pop` of the channel is before its ticket, at the queue its ticket names, or behind its section there. `stage`
computes which, for an operation given by its calls and its points; `Stage.Ticket` says how the counter of tickets stands against the
number of operations that took effect. The lemmas say how each kind of step changes the stage of a thread.
-/

open Function

namespace CsLearning.Chan

variable {Tid T : Type}

/-- How far an operation with the datum `α` has come: not begun or behind its section, before its ticket, or at the queue `i`. -/
inductive Stage (α : Type) where
  | out
  | called (x : α)
  | entered (i : Nat) (x : α)

/-- The datum of an operation that is under way. -/
def Stage.pending {α : Type} : Stage α → List α
  | out => []
  | called x => [x]
  | entered _ x => [x]

/-- The counter of tickets against the number `n` of the operations that took effect, over `K` queues: the ticket of an operation
at a queue has been counted and is the one that names the queue. -/
def Stage.Ticket {α : Type} (K ticket n : Nat) : Stage α → Prop
  | out => ticket % K = n % K
  | called _ => ticket % K = n % K
  | entered i _ => i = n % K ∧ ticket % K = (n + 1) % K

/-- The stage of a thread in the operation whose calls are found by `g` and whose points are found by `f`. -/
def stage {α : Type} (g : Ctl T → Option α) (f : Loc (Item T) → Option α) (s : ChanState Tid T) (t : Tid) : Stage α :=
  match s.ctl t with
  | .inside i _ => (((s.queues i).loc t).bind f).elim .out (.entered i)
  | c => (g c).elim .out .called

/-- The value of a call of `push`. -/
def Ctl.pushing : Ctl T → Option (Item T)
  | .push x => some x
  | _ => none

/-- A call of `pop`. -/
def Ctl.popping : Ctl T → Option Unit
  | .pop => some ()
  | _ => none

/-- The value of a push that has not stored it. -/
def Loc.pushing : Loc (Item T) → Option (Item T)
  | .push x => some x.val
  | .pushWait x => some x.val
  | _ => none

/-- A pop that has not taken a value. -/
def Loc.popping : Loc (Item T) → Option Unit
  | .pop => some ()
  | .popWait => some ()
  | _ => none

/-- The point of the second wait of `push`. -/
def Loc.isOverflow {T : Type} : Loc T → Bool
  | .overflowWait _ _ => true
  | _ => false

/-- The stage of a thread in `push`. -/
def pushStage (s : ChanState Tid T) (t : Tid) : Stage (Item T) := stage Ctl.pushing Loc.pushing s t

/-- The stage of a thread in `pop`. -/
def popStage (s : ChanState Tid T) (t : Tid) : Stage Unit := stage Ctl.popping Loc.popping s t

section Stages

variable {α : Type} {g : Ctl T → Option α} {f : Loc (Item T) → Option α} {cfg : ChanConfig} {s s' : ChanState Tid T} {t : Tid}

theorem stage_congr (hc : s'.ctl t = s.ctl t) (hl : ∀ i, (s'.queues i).loc t = (s.queues i).loc t) : stage g f s' t = stage g f s t := by
  simp only [stage, hc, hl]

variable {i : Nat} {q : QState Tid (Item T)}

theorem stage_inside {b : Bool} (hc : s.ctl t = .inside i b) : stage g f s t = (((s.queues i).loc t).bind f).elim .out (.entered i) := by
  simp only [stage, hc]

/-- The stage of a thread at no queue. -/
theorem stage_of_ctl (hc : ∀ i b, s.ctl t ≠ .inside i b) : stage g f s t = (g (s.ctl t)).elim .out .called := by
  unfold stage
  split
  · rename_i i b h
    exact absurd h (hc i b)
  · rfl

/-- Counting a ticket commutes with naming a queue, since the number of queues divides `2 ^ 32`. -/
theorem ticket_mod (cfg : ChanConfig) (a : Nat) : Word.add 32 a 1 % cfg.length = (a + 1) % cfg.length := by
  have hd : cfg.length ∣ 2 ^ 32 := Nat.pow_dvd_pow 2 (le_trans cfg.shift_le (by decide))
  rw [Word.add, Nat.mod_mod_of_dvd _ hd]

/-- `g` finds the calls and `f` the points of one operation: a thread keeps its datum from the call to its section. -/
structure Tracks (g : Ctl T → Option α) (f : Loc (Item T) → Option α) : Prop where
  idle : g .idle = none
  closing : ∀ i, g (.closing i) = none
  close : f .close = none
  push : ∀ x, f (.push x) = g (.push x.val)
  pop : f .pop = g .pop
  isClosed : f .isClosed = g .isClosed
  pushWait : ∀ x, f (.pushWait x) = f (.push x)
  popWait : f .popWait = f .pop
  overflowWait : ∀ x old, f (.overflowWait x old) = none

theorem tracks_push : Tracks (T := T) Ctl.pushing Loc.pushing := ⟨rfl, fun _ => rfl, rfl, fun _ => rfl, rfl, rfl, fun _ => rfl, rfl, fun _ _ => rfl⟩

theorem tracks_pop : Tracks (T := T) Ctl.popping Loc.popping := ⟨rfl, fun _ => rfl, rfl, fun _ => rfl, rfl, rfl, fun _ => rfl, rfl, fun _ _ => rfl⟩

variable [DecidableEq Tid]

/-- A thread that calls an operation was outside, and is in the stage of its call. -/
theorem stage_call (hT : Tracks g f) (hi : s.ctl t = .idle) (o : Op T) : stage g f s t = .out ∧
    stage g f { s with ctl := update s.ctl t (Ctl.start s.calls o), calls := s.calls + 1 } t = (g (Ctl.start s.calls o)).elim .out .called := by
  constructor
  · rw [stage_of_ctl (by simp [hi]), hi, hT.idle]
    rfl
  · rw [stage_of_ctl]
    · simp
    · intro i b
      cases o <;> simp [Ctl.start]

theorem stage_enter (hT : Tracks g f) {o : Op (Item T)} (ht : s.target cfg t = some (i, o))
    (hl : q.loc = update (s.queues i).loc t (some (entry (s.queues i).calls o))) :
    stage g f s t = (g (s.ctl t)).elim .out .called ∧
    stage g f { s.takeTicket o with
      queues := update s.queues i q, ctl := update s.ctl t (.inside i o.isClose) } t =
      (g (s.ctl t)).elim .out (.entered i) := by
  have hf : f (entry (s.queues i).calls o) = g (s.ctl t) := by
    unfold ChanState.target at ht
    split at ht <;> rename_i hc
    · cases ht; rw [hc]; exact hT.push _
    · cases ht; rw [hc]; exact hT.pop
    · cases ht; rw [hc]; exact hT.isClosed
    · cases ht; rw [hc, hT.closing]; exact hT.close
    · cases ht
  constructor
  · grind [stage_of_ctl, ChanState.target]
  · rw [stage_inside (i := i) (b := o.isClose) (by simp)]
    simp [hl, hf]

/-- A thread whose section has ended in a wait is in the same stage as before, or has stored its value. -/
theorem stage_wait (hT : Tracks g f) {l l' : Loc (Item T)} {cv : Cond} {b : Bool}
    (hv : View cfg.queue (s.queues i).shared l q.shared (.wait cv l')) (hc : s.ctl t = .inside i b)
    (hloc : (s.queues i).loc t = some l) (hl : q.loc = update (s.queues i).loc t (some l')) :
    stage g f { s with queues := update s.queues i q } t = if l'.isOverflow then .out else stage g f s t := by
  have hst : stage g f s t = (f l).elim .out (.entered i) := by rw [stage_inside hc, hloc]; rfl
  have hst' : stage g f { s with queues := update s.queues i q } t = (f l').elim .out (.entered i) := by
    rw [stage_inside (i := i) (b := b) (by exact hc)]
    simp [hl]
  rw [hst, hst']
  cases hv with
  | pushSleep hp _ _ _ _ => cases hp <;> simp [Loc.isOverflow, hT.pushWait]
  | pushOverflow _ _ _ _ => simp [Loc.isOverflow, hT.overflowWait]
  | overflowSleep _ _ _ => simp [hT.overflowWait]
  | popSleep hp _ _ _ => cases hp <;> simp [Loc.isOverflow, hT.popWait]

/-- A thread whose operation has returned is outside, before and behind every queue of `close`. -/
theorem stage_ret (hT : Tracks g f) {r : Res (Item T)} {b : Bool} (hc : s.ctl t = .inside i b) :
    stage g f { s with queues := update s.queues i q, ctl := s.ctlAfter cfg (.ret t r) } t = .out := by
  have hn : (Ctl.next cfg (.inside i b) : Ctl T) = .idle ∨ ∃ j, (Ctl.next cfg (.inside i b) : Ctl T) = .closing j := by
    cases b with
    | false => exact Or.inl rfl
    | true =>
      simp only [Ctl.next]
      split
      · exact Or.inr ⟨_, rfl⟩
      · exact Or.inl rfl
  have hctl : s.ctlAfter cfg (.ret t r) t = Ctl.next cfg (.inside i b) := by simp [ChanState.ctlAfter, hc]
  rw [stage_of_ctl]
  · simp only [hctl]
    rcases hn with h | ⟨j, h⟩
    · rw [h, hT.idle]; rfl
    · rw [h, hT.closing]; rfl
  · grind

/-- Nobody but its caller is inside an operation, however far the steps go. -/
theorem stage_out_step (hT : Tracks g f) (hL : Linked cfg s) {a : ChanAct Tid T} {e : ChanEv Tid T}
    (h : CStep cfg s a e s') (ho : stage g f s t = .out)
    (hc : ∀ o, a = .call t o → g (Ctl.start s.calls o) = none) : stage g f s' t = .out := by
  by_cases hu : t = a.actor
  · subst hu
    cases h with
    | call t o hi => grind [ChanAct.actor, stage_call]
    | enter t i o q ht _ _ hl =>
      obtain ⟨h1, h2⟩ := stage_enter hT ht hl
      simp only [ChanAct.actor] at ho ⊢
      rw [h1] at ho
      rw [h2]
      cases hg : g (s.ctl t) with
      | none => rfl
      | some x => rw [hg] at ho; cases ho
    | wake i t q _ hl =>
      rw [← ho]
      refine stage_congr rfl fun j => ?_
      by_cases hj : j = i
      · subst hj; simp [hl]
      · simp [hj]
    | run i t ps l nx q hloc hv hl =>
      simp only [ChanAct.actor] at ho ⊢
      cases nx with
      | wait cv l' =>
        refine (stage_wait hT hv (hL.loc t i l hloc) hloc hl).trans ?_
        rw [ho, ite_self]
      | ret r => exact stage_ret hT (hL.loc t i l hloc)
  · obtain ⟨h1, h2⟩ := h.frame hu
    rw [stage_congr h1 h2, ho]

/-- A section from a point outside an operation leaves every thread in its stage of that operation, and so does a section that
ends in the wait it came from. -/
theorem stage_run_same (hT : Tracks g f) (hL : Linked cfg s) {l : Loc (Item T)} {nx : Next (Loc (Item T)) Cond (Res (Item T))}
    (hloc : (s.queues i).loc t = some l) (hv : View cfg.queue (s.queues i).shared l q.shared nx)
    (hl : q.loc = update (s.queues i).loc t nx.loc)
    (h : f l = none ∨ ∃ l', nx.loc = some l' ∧ l'.isOverflow = false) (u : Tid) :
    stage g f { s with queues := update s.queues i q, ctl := s.ctlAfter cfg (nx.event t) } u = stage g f s u := by
  have hin := hL.loc t i l hloc
  by_cases hu : u = t
  · subst hu
    have hst : stage g f s u = (f l).elim .out (.entered i) := by rw [stage_inside hin, hloc]; rfl
    cases nx with
    | wait cv l' =>
      refine (stage_wait hT hv hin hloc hl).trans ?_
      rcases h with h | ⟨_, he, h⟩
      · rw [hst, h]; simp
      · cases he; rw [h]; rfl
    | ret r =>
      rcases h with h | ⟨_, he, _⟩
      · refine (stage_ret hT hin).trans ?_
        rw [hst, h]; rfl
      · cases he
  · obtain ⟨h1, h2⟩ := (CStep.run i t [] l nx q hloc hv hl).frame (u := u) hu
    exact stage_congr h1 h2

/-- Going to a queue keeps the ticket of an operation in step, for the one thread `u` that is inside it. -/
theorem ticket_enter (hT : Tracks g f) {u : Tid} {i n : Nat}
    {o : Op (Item T)} (cnt : ChanState Tid T → Nat) (hown : ∀ v, v ≠ u → stage g f s v = .out)
    (ht : s.target cfg t = some (i, o)) (hn : (s.queues i).loc t = none) (hq : q.shared = (s.queues i).shared)
    (hl : q.loc = update (s.queues i).loc t (some (entry (s.queues i).calls o)))
    (hs' : s' = { s.takeTicket o with queues := update s.queues i q, ctl := update s.ctl t (.inside i o.isClose) })
    (hcnt : (g (s.ctl t) = none ∧ cnt s' = cnt s) ∨ (g (s.ctl t) ≠ none ∧ i = cnt s % cfg.length ∧ cnt s' = Word.add 32 (cnt s) 1)) :
    (stage g f s' u).pending = (stage g f s u).pending ∧
    ((stage g f s u).Ticket cfg.length (cnt s) n → (stage g f s' u).Ticket cfg.length (cnt s') n) := by
  obtain ⟨h1, h2⟩ := stage_enter hT ht hl
  have hstep : CStep cfg s (.enter t) (.inner i (.call t (s.queues i).calls o)) s' := by
    rw [hs']
    exact CStep.enter t i o q ht hn hq hl
  rw [← hs'] at h2
  by_cases hu : u = t
  · subst hu
    rw [h1, h2]
    rcases hcnt with ⟨hg, hc⟩ | ⟨hg, hi, hc⟩
    · rw [hg, hc]
      exact ⟨rfl, id⟩
    · cases hx : g (s.ctl u) with
      | none => exact absurd hx hg
      | some x =>
        refine ⟨rfl, fun h => ?_⟩
        have h' : cnt s % cfg.length = n % cfg.length := h
        exact ⟨hi.trans h', by rw [hc, ticket_mod]; exact Nat.ModEq.add_right 1 h'⟩
  · -- The thread that moves is not inside the operation, so it takes no ticket of it.
    have hg : g (s.ctl t) = none := by
      have ho := hown t (Ne.symm hu)
      rw [h1] at ho
      cases hx : g (s.ctl t) with
      | none => rfl
      | some x => rw [hx] at ho; cases ho
    obtain ⟨f1, f2⟩ := hstep.frame (u := u) hu
    rw [stage_congr f1 f2]
    rcases hcnt with ⟨_, hc⟩ | ⟨h, _⟩
    · rw [hc]
      exact ⟨rfl, id⟩
    · exact absurd hg h

/-- A call puts its thread into the stage of the call and leaves the others, and the tickets in step. -/
theorem ticket_call (hT : Tracks g f) (hi : s.ctl t = .idle) {o : Op T}
    (hs' : s' = { s with ctl := update s.ctl t (Ctl.start s.calls o), calls := s.calls + 1 }) (u : Tid) :
    (u = t → stage g f s u = .out ∧ stage g f s' u = (g (Ctl.start s.calls o)).elim .out .called) ∧
    (u ≠ t → stage g f s' u = stage g f s u) ∧
    ∀ K n k, (stage g f s u).Ticket K n k → (stage g f s' u).Ticket K n k := by
  have hself : u = t → stage g f s u = .out ∧ stage g f s' u = (g (Ctl.start s.calls o)).elim .out .called := by
    rintro rfl
    rw [hs']
    exact stage_call hT hi o
  have hoth : u ≠ t → stage g f s' u = stage g f s u := by
    intro hu
    rw [hs']
    exact stage_congr (update_of_ne hu _ _) fun _ => rfl
  refine ⟨hself, hoth, fun K n k h => ?_⟩
  by_cases hu : u = t
  · obtain ⟨h1, h2⟩ := hself hu
    rw [h1] at h
    rw [h2]
    cases g (Ctl.start s.calls o) <;> exact h
  · rwa [hoth hu]

end Stages

end CsLearning.Chan
