import CsLearning.Chan.Sections

/-!
# `chan.h`: the channel over its queues

The class `chan`: `K = 2 ^ concurrent_shift` queues, and two atomic counters from which `push` and `pop` take a ticket that says which
queue to use. Between its ticket and the mutex of its queue a thread may be overtaken. `close` closes the queues one after another;
`is_closed` asks the first.

A value carries the number of the call of the channel's `push`, as a value of a queue carries the number of the call of the queue's
`push`; no operation reads either. `run_project` says that what happens at one queue is a run of that queue, so every result
about a queue holds for each queue of a channel.
-/

open Function

namespace CsLearning.Chan

/-- The arguments of the constructor of `chan`. The number of queues is `1 << concurrent_shift`, an `int`. -/
structure ChanConfig where
  shift : Nat
  queue : Config
  shift_le : shift ≤ 30

/-- `length`, the number of queues. -/
def ChanConfig.length (cfg : ChanConfig) : Nat := 2 ^ cfg.shift

/-- Where a thread is in the operations of `chan`: outside, before the ticket of a `push` or a `pop`, before `is_closed` of the first
queue, before `close` of the queue `i`, or inside the operation of the queue `i`, which belongs to `close` or does not. -/
inductive Ctl (T : Type) where
  | idle
  | push (x : Item T)
  | pop
  | isClosed
  | closing (i : Nat)
  | inside (i : Nat) (closes : Bool)
  deriving DecidableEq, Repr

/-- The queues and the threads inside them, the counters `push_` and `pop_` of type `unsigned int`, the threads, and the number of
calls made so far. -/
structure ChanState (Tid T : Type) where
  queues : Nat → QState Tid (Item T)
  push : Nat
  pop : Nat
  ctl : Tid → Ctl T
  calls : Nat

/-- What may happen next: a thread calls an operation, a thread inside an operation goes to its next queue, or something happens
at a queue. -/
inductive ChanAct (Tid T : Type) where
  | call (t : Tid) (o : Op T)
  | enter (t : Tid)
  | inner (i : Nat) (a : MAct Tid (Op (Item T)))

/-- What did happen: a call with its number, or an event at a queue. -/
inductive ChanEv (Tid T : Type) where
  | call (t : Tid) (n : Nat) (o : Op T)
  | inner (i : Nat) (e : Ev Tid (Item T) Cond)
  deriving DecidableEq, Repr

section Exec

variable {Tid T : Type}

/-- The call with number `n` of an operation begins. -/
def Ctl.start (n : Nat) : Op T → Ctl T
  | .push v => .push ⟨v, n⟩
  | .pop => .pop
  | .close => .closing 0
  | .isClosed => .isClosed

/-- The loop of `close` goes on to the next queue; the other operations use one queue. -/
def Ctl.next (cfg : ChanConfig) : Ctl T → Ctl T
  | .inside i true => if i + 1 < cfg.length then .closing (i + 1) else .idle
  | _ => .idle

/-- The queue a thread goes to next, and the operation it calls there. -/
def ChanState.target (cfg : ChanConfig) (s : ChanState Tid T) (t : Tid) : Option (Nat × Op (Item T)) :=
  match s.ctl t with
  | .push x => some (s.push % cfg.length, .push x)
  | .pop => some (s.pop % cfg.length, .pop)
  | .isClosed => some (0, .isClosed)
  | .closing i => some (i, .close)
  | _ => none

/-- The ticket that goes with an operation: `fetch_add` on one of the counters. -/
def ChanState.takeTicket (s : ChanState Tid T) : Op (Item T) → ChanState Tid T
  | .push _ => { s with push := Word.add 32 s.push 1 }
  | .pop => { s with pop := Word.add 32 s.pop 1 }
  | _ => s

/-- The operation is `close`. -/
def Op.isClose : Op T → Bool
  | .close => true
  | _ => false

/-- The threads after an event at a queue: the one whose operation has returned goes on. -/
def ChanState.ctlAfter [DecidableEq Tid] (cfg : ChanConfig) (s : ChanState Tid T) : Ev Tid (Item T) Cond → Tid → Ctl T
  | .ret t _ => Function.update s.ctl t ((s.ctl t).next cfg)
  | _ => s.ctl

variable [Fintype Tid] [DecidableEq Tid]

/-- One step of the threads that use the channel. -/
def chanExec (cfg : ChanConfig) (s : ChanState Tid T) : ChanAct Tid T → Option (ChanState Tid T × ChanEv Tid T)
  | .call t o =>
    match s.ctl t with
    | .idle => some ({ s with ctl := Function.update s.ctl t (Ctl.start s.calls o), calls := s.calls + 1 }, .call t s.calls o)
    | _ => none
  | .enter t =>
    match s.target cfg t with
    | none => none
    | some (i, o) =>
      match (queue (Item T) cfg.queue).exec (s.queues i) (.call t o) with
      | none => none
      | some (q, e) =>
        some ({ s.takeTicket o with
          queues := Function.update s.queues i q, ctl := Function.update s.ctl t (.inside i o.isClose) }, .inner i e)
  | .inner _ (.call _ _) => none
  | .inner i a =>
    match (queue (Item T) cfg.queue).exec (s.queues i) a with
    | none => none
    | some (q, e) => some ({ s with queues := Function.update s.queues i q, ctl := s.ctlAfter cfg e }, .inner i e)

/-- A new channel over the memory `raw` of each queue. -/
def chanInit (Tid : Type) (raw : Nat → Nat → Item (Item T)) : ChanState Tid T :=
  ⟨fun i => queueInit Tid (raw i), 0, 0, fun _ => .idle, 0⟩

end Exec

/-! ## Histories -/

section History

variable {Tid T : Type}

/-- The value a call of `push` brings. -/
def ChanEv.pushed : ChanEv Tid T → Option (Item T)
  | .call _ n (.push v) => some ⟨v, n⟩
  | _ => none

/-- The value whose `push` returned true by this event. -/
def ChanEv.accepted : ChanEv Tid T → Option (Item T)
  | .inner _ e => (Ev.accepted e).map Item.val
  | _ => none

/-- The value handed to the caller of `pop` by this event. -/
def ChanEv.received : ChanEv Tid T → Option (Item T)
  | .inner _ e => (Ev.delivered e).map Item.val
  | _ => none

/-- A `pop` returned false. -/
def ChanEv.popFailed : ChanEv Tid T → Bool
  | .inner _ (.ret _ (.popped none)) => true
  | _ => false

/-- `is_closed` returned true. -/
def ChanEv.saidClosed : ChanEv Tid T → Bool
  | .inner _ (.ret _ (.isClosed true)) => true
  | _ => false

/-- The event at the queue `i`, if it is one. -/
def ChanEv.at (i : Nat) : ChanEv Tid T → Option (Ev Tid (Item T) Cond)
  | .inner j e => if j = i then some e else none
  | _ => none

/-- The values of the calls of `push`, in order. -/
def chanPushed (es : List (ChanEv Tid T)) : List (Item T) := es.filterMap ChanEv.pushed

/-- The values whose `push` returned true, in the order of the returns. -/
def chanAccepted (es : List (ChanEv Tid T)) : List (Item T) := es.filterMap ChanEv.accepted

/-- The values handed to the callers of `pop`, in order. -/
def chanReceived (es : List (ChanEv Tid T)) : List (Item T) := es.filterMap ChanEv.received

/-- What happened at the queue `i`. -/
def project (i : Nat) (es : List (ChanEv Tid T)) : List (Ev Tid (Item T) Cond) := es.filterMap (ChanEv.at i)

section

variable (es : List (ChanEv Tid T)) (e : ChanEv Tid T)

include es e

theorem chanPushed_snoc : chanPushed (es ++ [e]) = chanPushed es ++ e.pushed.toList :=
  filterMap_snoc _ es e

theorem chanReceived_snoc : chanReceived (es ++ [e]) = chanReceived es ++ e.received.toList :=
  filterMap_snoc _ es e

theorem chanAccepted_snoc : chanAccepted (es ++ [e]) = chanAccepted es ++ e.accepted.toList :=
  filterMap_snoc _ es e

end

end History

/-! ## What a step of the channel does -/

section Steps

variable {Tid T : Type} [DecidableEq Tid] {cfg : ChanConfig} {s s' : ChanState Tid T} {a : ChanAct Tid T} {e : ChanEv Tid T}

/-- A step of the channel: a call, a thread that takes its ticket and goes to a queue, a wake-up, or a section of a queue. -/
inductive CStep (cfg : ChanConfig) (s : ChanState Tid T) : ChanAct Tid T → ChanEv Tid T → ChanState Tid T → Prop where
  | call (t : Tid) (o : Op T) : s.ctl t = .idle →
      CStep cfg s (.call t o) (.call t s.calls o)
        { s with ctl := Function.update s.ctl t (Ctl.start s.calls o), calls := s.calls + 1 }
  | enter (t : Tid) (i : Nat) (o : Op (Item T)) (q : QState Tid (Item T)) : s.target cfg t = some (i, o) →
      (s.queues i).loc t = none → q.shared = (s.queues i).shared →
      q.loc = Function.update (s.queues i).loc t (some (entry (s.queues i).calls o)) →
      CStep cfg s (.enter t) (.inner i (.call t (s.queues i).calls o))
        { s.takeTicket o with queues := Function.update s.queues i q, ctl := Function.update s.ctl t (.inside i o.isClose) }
  | wake (i : Nat) (t : Tid) (q : QState Tid (Item T)) : q.shared = (s.queues i).shared → q.loc = (s.queues i).loc →
      CStep cfg s (.inner i (.wake t)) (.inner i (.wake t)) { s with queues := Function.update s.queues i q }
  | run (i : Nat) (t : Tid) (ps : List Tid) (l : Loc (Item T)) (nx : Next (Loc (Item T)) Cond (Res (Item T)))
      (q : QState Tid (Item T)) : (s.queues i).loc t = some l →
      View cfg.queue (s.queues i).shared l q.shared nx → q.loc = Function.update (s.queues i).loc t nx.loc →
      CStep cfg s (.inner i (.run t ps)) (.inner i (nx.event t))
        { s with queues := Function.update s.queues i q, ctl := s.ctlAfter cfg (nx.event t) }

variable [Fintype Tid]

/-- A step of the channel with the step of the queue it makes. -/
inductive RawStep (cfg : ChanConfig) (s : ChanState Tid T) : ChanAct Tid T → ChanEv Tid T → ChanState Tid T → Prop where
  | call (t : Tid) (o : Op T) : s.ctl t = .idle →
      RawStep cfg s (.call t o) (.call t s.calls o)
        { s with ctl := Function.update s.ctl t (Ctl.start s.calls o), calls := s.calls + 1 }
  | enter (t : Tid) (i : Nat) (o : Op (Item T)) (q : QState Tid (Item T)) (e : Ev Tid (Item T) Cond) :
      s.target cfg t = some (i, o) → (queue (Item T) cfg.queue).exec (s.queues i) (.call t o) = some (q, e) →
      RawStep cfg s (.enter t) (.inner i e)
        { s.takeTicket o with queues := Function.update s.queues i q, ctl := Function.update s.ctl t (.inside i o.isClose) }
  | inner (i : Nat) (b : MAct Tid (Op (Item T))) (q : QState Tid (Item T)) (e : Ev Tid (Item T) Cond) :
      (∀ t o, b ≠ .call t o) → (queue (Item T) cfg.queue).exec (s.queues i) b = some (q, e) →
      RawStep cfg s (.inner i b) (.inner i e) { s with queues := Function.update s.queues i q, ctl := s.ctlAfter cfg e }

theorem chanExec_raw (h : chanExec cfg s a = some (s', e)) : RawStep cfg s a e s' := by
  cases a with
  | call t o =>
    rw [chanExec] at h
    split at h
    · rename_i hi
      cases h
      exact RawStep.call t o hi
    · cases h
  | enter t =>
    rw [chanExec] at h
    split at h
    · cases h
    · split at h
      · cases h
      · grind [RawStep.enter]
  | inner i b =>
    by_cases hb : ∃ t o, b = .call t o
    · obtain ⟨t, o, rfl⟩ := hb
      cases h
    · have hb' : ∀ t o, b ≠ .call t o := fun t o he => hb ⟨t, o, he⟩
      rw [chanExec.eq_4 _ _ _ _ hb'] at h
      split at h
      · cases h
      · grind [RawStep.inner]

theorem RawStep.queues (h : RawStep cfg s a e s') : (∀ i, e.at i = none) ∧ s'.queues = s.queues ∨
    ∃ i b q f, (queue (Item T) cfg.queue).exec (s.queues i) b = some (q, f) ∧ e = .inner i f ∧ s'.queues = update s.queues i q := by
  cases h with
  | call t o _ => exact Or.inl ⟨fun _ => rfl, rfl⟩
  | enter t i o q f _ hx => exact Or.inr ⟨i, _, q, f, hx, rfl, rfl⟩
  | inner i b q f _ hx => exact Or.inr ⟨i, b, q, f, hx, rfl, rfl⟩

/-- The steps of the source do what `CStep` says and nothing else. -/
theorem chan_step (hq : ∀ i, RingOk cfg.queue (s.queues i).shared) (h : chanExec cfg s a = some (s', e)) : CStep cfg s a e s' := by
  cases chanExec_raw h with
  | call t o hi => exact CStep.call t o hi
  | enter t i o q f ht hx =>
    cases queue_step (hq i) hx with
    | call _ _ h1 h2 h3 _ => exact CStep.enter t i o q ht h1 h2 h3
  | inner i b q f hb hx =>
    cases queue_step (hq i) hx with
    | call t o _ _ _ _ => exact absurd rfl (hb t o)
    | wake t h1 h2 _ => exact CStep.wake i t q h1 h2
    | run t ps l nx h1 h2 h3 _ => exact CStep.run i t ps l nx q h1 h2 h3

end Steps

/-! ## Runs -/

section Runs

variable {Tid T : Type} [Fintype Tid] [DecidableEq Tid] {cfg : ChanConfig} {ok : ChanState Tid T → ChanAct Tid T → Prop}
  {raw : Nat → Nat → Item (Item T)} {es : List (ChanEv Tid T)} {s : ChanState Tid T}

omit [Fintype Tid] [DecidableEq Tid] in
theorem project_snoc (i : Nat) (es : List (ChanEv Tid T)) (e : ChanEv Tid T) : project i (es ++ [e]) = project i es ++ (e.at i).toList :=
  filterMap_snoc _ es e

theorem run_project (h : RunIf (chanExec cfg) ok (chanInit Tid raw) es s) (i : Nat) :
    Run (queue (Item T) cfg.queue).exec (queueInit Tid (raw i)) (project i es) (s.queues i) := by
  induction h with
  | nil => exact RunIf.nil
  | @snoc es s s' a e _ _ hx ih =>
    rw [project_snoc]
    rcases (chanExec_raw hx).queues with ⟨he, hq⟩ | ⟨j, b, q, f, hb, rfl, hq⟩
    · rw [he i, hq]
      simpa using ih
    · rw [hq]
      by_cases hj : j = i
      · subst hj
        simpa [ChanEv.at] using RunIf.snoc ih trivial hb
      · simpa [ChanEv.at, hj, Ne.symm hj] using ih

theorem run_chan_ringOk (h : RunIf (chanExec cfg) ok (chanInit Tid raw) es s) (i : Nat) : RingOk cfg.queue (s.queues i).shared :=
  run_ringOk (run_project h i)

/-- The invariant rule for the channel: what holds at the start and is kept by every step holds along every run. -/
theorem chan_invariant {P : List (ChanEv Tid T) → ChanState Tid T → Prop} (h₀ : P [] (chanInit Tid raw))
    (hs : ∀ es s a e s', RunIf (chanExec cfg) ok (chanInit Tid raw) es s → P es s → ok s a → CStep cfg s a e s' →
      P (es ++ [e]) s') (h : RunIf (chanExec cfg) ok (chanInit Tid raw) es s) : P es s := by
  induction h with
  | nil => exact h₀
  | snoc hr ho hx ih => exact hs _ _ _ _ _ hr ih ho (chan_step (run_chan_ringOk hr) hx)

end Runs

/-! ## Threads and queues -/

section Threads

variable {Tid T : Type} {cfg : ChanConfig} {s s' : ChanState Tid T} {a : ChanAct Tid T} {e : ChanEv Tid T}

/-- The point is that of `close`. -/
def Loc.isClose : Loc T → Bool
  | .close => true
  | _ => false

/-- A thread at a queue is inside the operation of that queue, and there are as many queues as the channel has. -/
structure Linked (cfg : ChanConfig) (s : ChanState Tid T) : Prop where
  loc : ∀ t i l, (s.queues i).loc t = some l → s.ctl t = .inside i l.isClose
  inside_lt : ∀ t i b, s.ctl t = .inside i b → i < cfg.length
  closing_lt : ∀ t i, s.ctl t = .closing i → i < cfg.length

/-- The thread that acts. -/
def ChanAct.actor : ChanAct Tid T → Tid
  | .call t _ => t
  | .enter t => t
  | .inner _ (.call t _) => t
  | .inner _ (.wake t) => t
  | .inner _ (.run t _) => t

theorem ChanConfig.length_pos (cfg : ChanConfig) : 0 < cfg.length := Nat.two_pow_pos _

@[simp] theorem takeTicket_queues (s : ChanState Tid T) (o : Op (Item T)) : (s.takeTicket o).queues = s.queues := by
  cases o <;> rfl

@[simp] theorem takeTicket_ctl (s : ChanState Tid T) (o : Op (Item T)) : (s.takeTicket o).ctl = s.ctl := by
  cases o <;> rfl

variable {t u : Tid}

theorem Linked.loc_of_target (hI : Linked cfg s) {i : Nat} {o : Op (Item T)} (h : s.target cfg t = some (i, o)) (j : Nat) :
    (s.queues j).loc t = none := by
  cases hl : (s.queues j).loc t with
  | none => rfl
  | some l => simp [ChanState.target, hI.loc t j l hl] at h

theorem Linked.target_lt (hI : Linked cfg s) {i : Nat} {o : Op (Item T)} (h : s.target cfg t = some (i, o)) : i < cfg.length := by
  unfold ChanState.target at h
  split at h
  · cases h; exact Nat.mod_lt _ cfg.length_pos
  · cases h; exact Nat.mod_lt _ cfg.length_pos
  · cases h; exact cfg.length_pos
  · rename_i hc
    cases h
    exact hI.closing_lt t _ hc
  · cases h

variable [DecidableEq Tid]

theorem loc_update {i j : Nat} {q : QState Tid (Item T)} {ol : Option (Loc (Item T))} (h : q.loc = update (s.queues i).loc t ol) :
    (update s.queues i q j).loc u = if j = i ∧ u = t then ol else (s.queues j).loc u := by
  by_cases hj : j = i
  · subst hj
    by_cases hu : u = t
    · subst hu; simp [h]
    · simp [h, hu]
  · simp [hj]

/-- A step moves the thread that acts and no other. -/
theorem CStep.frame (h : CStep cfg s a e s') (hu : u ≠ a.actor) : s'.ctl u = s.ctl u ∧ ∀ i, (s'.queues i).loc u = (s.queues i).loc u := by
  cases h with
  | call t o _ => exact ⟨update_of_ne hu _ _, fun _ => rfl⟩
  | enter t i o q _ _ _ hl =>
    refine ⟨update_of_ne hu _ _, fun j => ?_⟩
    rw [loc_update hl, if_neg fun h => hu h.2]
  | wake i t q _ hl =>
    refine ⟨rfl, fun j => ?_⟩
    by_cases hj : j = i
    · subst hj; simp [hl]
    · simp [hj]
  | run i t ps l nx q _ _ hl =>
    refine ⟨?_, fun j => ?_⟩
    · cases nx with
      | wait c l' => rfl
      | ret r => exact update_of_ne hu _ _
    · rw [loc_update hl, if_neg fun h => hu h.2]

/-- A section that ends in a wait is not one of `close`, before or behind. -/
theorem View.isClose_of_wait {q q' : QueueT (Item T)} {c : Config} {l l' : Loc T} {cv : Cond}
    (h : View c q l q' (.wait cv l')) : l.isClose = false ∧ l'.isClose = false := by
  cases h with
  | pushSleep hl _ _ _ _ => cases hl <;> exact ⟨rfl, rfl⟩
  | pushOverflow hl _ _ _ => cases hl <;> exact ⟨rfl, rfl⟩
  | overflowSleep _ _ _ => exact ⟨rfl, rfl⟩
  | popSleep hl _ _ _ => cases hl <;> exact ⟨rfl, rfl⟩

omit [DecidableEq Tid] in
/-- In a new channel no thread is at a queue. -/
theorem Linked.init (cfg : ChanConfig) (raw : Nat → Nat → Item (Item T)) : Linked cfg (chanInit Tid raw) := by
  refine ⟨fun t i l hl => ?_, fun t i b hc => ?_, fun t i hc => ?_⟩
  · cases hl
  · cases hc
  · cases hc

theorem Linked.step (hI : Linked cfg s) (h : CStep cfg s a e s') : Linked cfg s' := by
  have other : ∀ u, u ≠ a.actor → (∀ i l, (s'.queues i).loc u = some l → s'.ctl u = .inside i l.isClose) ∧
      (∀ i b, s'.ctl u = .inside i b → i < cfg.length) ∧ ∀ i, s'.ctl u = .closing i → i < cfg.length := by
    intro u hu
    obtain ⟨h1, h2⟩ := h.frame hu
    rw [h1]
    exact ⟨fun i l hl => hI.loc u i l (h2 i ▸ hl), hI.inside_lt u, hI.closing_lt u⟩
  suffices hact : (∀ i l, (s'.queues i).loc a.actor = some l → s'.ctl a.actor = .inside i l.isClose) ∧
      (∀ i b, s'.ctl a.actor = .inside i b → i < cfg.length) ∧ ∀ i, s'.ctl a.actor = .closing i → i < cfg.length by
    have all : ∀ u, (∀ i l, (s'.queues i).loc u = some l → s'.ctl u = .inside i l.isClose) ∧
        (∀ i b, s'.ctl u = .inside i b → i < cfg.length) ∧ ∀ i, s'.ctl u = .closing i → i < cfg.length := by
      intro u
      by_cases hu : u = a.actor
      · subst hu; exact hact
      · exact other u hu
    exact ⟨fun u => (all u).1, fun u => (all u).2.1, fun u => (all u).2.2⟩
  cases h with
  | call t o hi =>
    simp only [ChanAct.actor, update_self]
    refine ⟨fun i l hl => ?_, fun i b hc => ?_, fun i hc => ?_⟩
    · rw [hI.loc t i l hl] at hi; cases hi
    · cases o <;> cases hc
    · cases o <;> cases hc
      exact cfg.length_pos
  | enter t i o q ht hn _ hl =>
    simp only [ChanAct.actor, update_self]
    refine ⟨fun j l hj => ?_, fun j b hc => ?_, fun j hc => nomatch hc⟩
    · rw [loc_update hl] at hj
      split at hj
      · rename_i he
        cases hj
        rw [he.1]
        cases o <;> rfl
      · rw [hI.loc_of_target ht j] at hj
        cases hj
    · cases hc
      exact hI.target_lt ht
  | wake i t q _ hl =>
    refine ⟨fun j l hj => hI.loc t j l ?_, hI.inside_lt t, hI.closing_lt t⟩
    by_cases hji : j = i
    · subst hji; simpa [ChanAct.actor, hl] using hj
    · simpa [ChanAct.actor, hji] using hj
  | run i t ps l nx q hloc hv hl =>
    have hin := hI.loc t i l hloc
    cases nx with
    | wait c l' =>
      obtain ⟨hc, hc'⟩ := hv.isClose_of_wait
      refine ⟨fun j l₁ hj => ?_, hI.inside_lt t, hI.closing_lt t⟩
      simp only [ChanState.ctlAfter, Next.event] at hj ⊢
      rw [loc_update hl] at hj
      split at hj
      · grind [Next.loc]
      · exact hI.loc t j l₁ hj
    | ret r =>
      simp only [ChanAct.actor, ChanState.ctlAfter, Next.event, update_self]
      refine ⟨fun j l₁ hj => ?_, fun j b hc => ?_, fun j hc => ?_⟩
      · rw [loc_update hl] at hj
        split at hj
        · cases hj
        · rename_i he
          -- A thread is at one queue at most.
          have := hI.loc t j l₁ hj
          rw [hin, Ctl.inside.injEq] at this
          exact absurd ⟨this.1.symm, rfl⟩ he
      · unfold Ctl.next at hc
        split at hc
        · split at hc <;> cases hc
        · cases hc
      · unfold Ctl.next at hc
        split at hc
        · grind
        · cases hc

end Threads

end CsLearning.Chan
