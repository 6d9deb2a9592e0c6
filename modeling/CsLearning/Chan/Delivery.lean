import CsLearning.Chan.Sections

/-!
# `chan.h`: delivery

A blocking queue with a buffer delivers what it accepts, once each and in order, for any number of threads and any schedule
(`channel_delivery`). The invariant behind it: the values delivered, followed by those in the ring, are the values accepted. Under every policy
the ring holds the newest of them (`queue_holds_newest`).
-/

open List

namespace CsLearning.Chan

variable {Tid T : Type} [DecidableEq Tid] {cfg : Config} {s s' : QState Tid T}
  {a : MAct Tid (Op T)} {e : Ev Tid T Cond}

/-- The points of `push`. -/
def Loc.isPush : Loc T → Bool
  | .push _ => true
  | .pushWait _ => true
  | .overflowWait _ _ => true
  | _ => false

theorem PopAt.isPush {l : Loc T} (h : PopAt l) : l.isPush = false := by cases h <;> rfl

theorem QStep.of_ret {t : Tid} {r : Res T} (h : QStep cfg s a (.ret t r) s') : ∃ l, s.loc t = some l ∧ View cfg s.shared l s'.shared (.ret r) := by
  generalize he : (MEv.ret t r : Ev Tid T Cond) = e at h
  cases h with
  | call => cases he
  | wake => cases he
  | run u ps l nx hl hv _ _ =>
    cases nx with
    | wait c l' => cases he
    | ret r' => grind [Next.event]

/-! ## A closed queue -/

/-- On a closed queue no section stores a value: it stays closed, and no push returns true. -/
theorem QStep.closed (h : QStep cfg s a e s') (hc : s.shared.closed = true) : s'.shared.closed = true ∧ e.accepted = none := by
  cases h with
  | call t o _ h2 _ _ => exact ⟨by rw [h2]; exact hc, rfl⟩
  | wake t h1 _ _ => exact ⟨by rw [h1]; exact hc, rfl⟩
  | run t ps l nx _ hv _ _ =>
    cases hv with
    | pushSleep _ _ _ ho _ => rw [hc] at ho; cases ho
    | pushClosed _ _ hs => exact ⟨hs.closed.trans hc, rfl⟩
    | pushDiscard _ _ _ ho _ => rw [hc] at ho; cases ho
    | pushStore _ ho _ _ => rw [hc] at ho; cases ho
    | pushOverflow _ ho _ _ => rw [hc] at ho; cases ho
    | overflowSleep _ ho _ => rw [hc] at ho; cases ho
    | overflowRet _ hs => exact ⟨hs.closed.trans hc, by rw [hc]; rfl⟩
    | popSleep _ _ ho _ => rw [hc] at ho; cases ho
    | popClosed _ _ _ hs => exact ⟨hs.closed.trans hc, rfl⟩
    | popTake _ ht => exact ⟨ht.closed.trans hc, rfl⟩
    | close hcl => exact ⟨hcl.closed, rfl⟩
    | isClosed hs => exact ⟨hs.closed.trans hc, rfl⟩

theorem View.closed_push {q q' : QueueT (Item T)} {l : Loc T} {nx : Next (Loc T) Cond (Res T)} (h : View cfg q l q' nx)
    (hc : q.closed = true) (hl : l.isPush = true) : contents cfg q' = contents cfg q := by
  cases h with
  | pushSleep _ _ _ _ hs => exact hs.contents
  | pushClosed _ _ hs => exact hs.contents
  | pushDiscard _ _ _ _ hs => exact hs.contents
  | pushStore _ ho _ _ => rw [hc] at ho; cases ho
  | pushOverflow _ ho _ _ => rw [hc] at ho; cases ho
  | overflowSleep _ _ hs => exact hs.contents
  | overflowRet _ hs => exact hs.contents
  | popSleep hp _ _ _ => rw [hp.isPush] at hl; cases hl
  | popClosed hp _ _ _ => rw [hp.isPush] at hl; cases hl
  | popTake hp _ => rw [hp.isPush] at hl; cases hl
  | close _ => cases hl
  | isClosed _ => cases hl

/-- The flag is set by the return of `close` and by nothing else. -/
theorem QStep.closed_iff (h : QStep cfg s a e s') : s'.shared.closed = true ↔ s.shared.closed = true ∨ ∃ t, e = .ret t .closed := by
  cases h with
  | call t o _ h2 _ _ => simp [h2]
  | wake t h1 _ _ => simp [h1]
  | run t ps l nx _ hv _ _ =>
    by_cases hn : nx = .ret .closed
    · subst hn
      cases hv with
      | close hcl => simp [hcl.closed, Next.event]
    · rw [hv.closed_eq hn]
      cases nx <;> simp_all [Next.event]

/-! ## The balance of one step -/

/-- A queue with a buffer never waits for its overflow to be taken. -/
theorem QStep.no_overflow (hov : cfg.overflow = false) (h : QStep cfg s a e s')
    (hno : ∀ t x old, s.loc t ≠ some (.overflowWait x old)) : ∀ t x old, s'.loc t ≠ some (.overflowWait x old) := by
  intro t x old
  cases h with
  | call u o _ _ h3 _ =>
    rw [h3]
    by_cases hu : t = u
    · subst hu; cases o <;> simp [entry]
    · simpa [hu] using hno t x old
  | wake u _ h2 _ => rw [h2]; exact hno t x old
  | run u ps l nx hl hv h3 _ =>
    rw [h3]
    by_cases hu : t = u
    · subst hu
      rw [Function.update_self]
      cases hv with
      | pushOverflow _ _ ho _ => rw [hov] at ho; cases ho
      | overflowSleep _ _ _ => exact absurd hl (hno t _ _)
      | _ => simp [Next.loc]
    · simpa [hu] using hno t x old

/-- One step keeps the balance of a blocking queue with a buffer: the values delivered and those in the ring are the values
accepted. -/
theorem QStep.balance {es : List (Ev Tid T Cond)} (hp : cfg.policy = .blocking) (hov : cfg.overflow = false) (h : QStep cfg s a e s')
    (hb : delivered es ++ contents cfg s.shared = accepted es)
    (hno : ∀ t x old, s.loc t ≠ some (.overflowWait x old)) :
    delivered (es ++ [e]) ++ contents cfg s'.shared = accepted (es ++ [e]) := by
  rw [delivered_snoc, accepted_snoc]
  cases h with
  | call t o _ h2 _ _ => simpa [h2, Ev.delivered, Ev.accepted] using hb
  | wake t h1 _ _ => simpa [h1, Ev.delivered, Ev.accepted] using hb
  | run t ps l nx hl hv _ _ =>
    cases hv with
    | pushSleep _ _ _ _ hs => simpa [hs.contents, Next.event, Ev.delivered, Ev.accepted] using hb
    | pushClosed _ _ hs => simpa [hs.contents, Next.event, Ev.delivered, Ev.accepted] using hb
    | pushDiscard _ hd _ _ _ => rw [hp] at hd; cases hd
    | pushStore _ _ _ hs =>
      obtain ⟨_, hc⟩ | ⟨_, hd, _⟩ := hs.contents
      · simp [hc, Next.event, Ev.delivered, Ev.accepted, ← hb]
      · rw [hp] at hd; cases hd
    | pushOverflow _ _ ho _ => rw [hov] at ho; cases ho
    | overflowSleep _ _ _ => exact absurd hl (hno t _ _)
    | overflowRet _ _ => exact absurd hl (hno t _ _)
    | popSleep _ _ _ hs => simpa [hs.contents, Next.event, Ev.delivered, Ev.accepted] using hb
    | popClosed _ _ _ hs => simpa [hs.contents, Next.event, Ev.delivered, Ev.accepted] using hb
    | popTake _ ht =>
      rw [ht.contents] at hb
      simp [Next.event, Ev.delivered, Ev.accepted, ← hb]
    | close hc =>
      simpa [hc.contents, hov, Next.event, Ev.delivered, Ev.accepted] using hb
    | isClosed hs => simpa [hs.contents, Next.event, Ev.delivered, Ev.accepted] using hb

section Runs

variable [Fintype Tid] {raw : Nat → Item T} {es : List (Ev Tid T Cond)} {ok : QState Tid T → MAct Tid (Op T) → Prop}

/-- The queue is closed exactly when some `close` has run. -/
theorem run_closed_iff (h : RunIf (queue T cfg).exec ok (queueInit Tid raw) es s) : s.shared.closed = true ↔ ∃ t, MEv.ret t .closed ∈ es := by
  refine run_invariant (P := fun es s => s.shared.closed = true ↔ ∃ t, MEv.ret t .closed ∈ es) ?_ ?_ h
  · simp [queueInit, Monitor.init, QueueT.make]
  · intro es s a e s' ih _ _ hst
    rw [hst.closed_iff]
    constructor
    · grind
    · grind

/-- From a closed queue on no push returns true. -/
theorem run_of_closed {s₁ : QState Tid T} (h : RunIf (queue T cfg).exec ok s₁ es s) (hq : RingOk cfg s₁.shared)
    (hc : s₁.shared.closed = true) : RingOk cfg s.shared ∧ s.shared.closed = true ∧ accepted es = [] := by
  induction h with
  | nil => exact ⟨hq, hc, rfl⟩
  | snoc _ _ hx ih =>
    obtain ⟨hr, hcl, hacc⟩ := ih
    have hst := queue_step hr hx
    obtain ⟨h1, h2⟩ := hst.closed hcl
    exact ⟨hst.ringOk hr, h1, by rw [accepted_snoc, hacc, h2]; rfl⟩

theorem accepted_after_close (h : RunIf (queue T cfg).exec ok (queueInit Tid raw) es s) {es₁ es₂ : List (Ev Tid T Cond)} {t : Tid}
    (he : es = es₁ ++ .ret t .closed :: es₂) : accepted es₂ = [] := by
  rw [append_cons] at he
  subst he
  obtain ⟨s₁, h₁, h₂⟩ := h.of_append
  exact (run_of_closed h₂ (run_ringOk h₁) ((run_closed_iff h₁).2 ⟨t, by simp⟩)).2.2

/-! ## Delivery -/

theorem run_no_overflow (hov : cfg.overflow = false) (h : RunIf (queue T cfg).exec ok (queueInit Tid raw) es s) :
    ∀ t x old, s.loc t ≠ some (.overflowWait x old) :=
  run_invariant (P := fun _ s => ∀ t x old, s.loc t ≠ some (.overflowWait x old)) (fun _ _ _ hl => nomatch hl)
    (fun _ _ _ _ _ ih _ _ hst => hst.no_overflow hov ih) h

/-- The values delivered, followed by those in the queue, are the values accepted. -/
theorem run_balance (hp : cfg.policy = .blocking) (hov : cfg.overflow = false)
    (h : RunIf (queue T cfg).exec ok (queueInit Tid raw) es s) : delivered es ++ contents cfg s.shared = accepted es := by
  induction h with
  | nil => rfl
  | snoc hr _ hx ih => exact (queue_step (run_ringOk hr) hx).balance hp hov ih (run_no_overflow hov hr)

theorem overflow_of_arg_pos (h : 0 < cfg.arg) : cfg.overflow = false := by
  have hm : cfg.made ≠ 0 := by
    unfold Config.made
    split <;> omega
  simpa [Config.overflow] using hm

/-- Delivery through a blocking queue with a buffer. In every run, for any number of threads and any schedule: the values handed to
the callers of `pop` are a prefix of those whose push returned true; after a `close` no push returns true, and none changes
the values in the queue; and when a `pop` returns false, the queue has been closed and every value any push of the run was
accepted with has been delivered before. -/
theorem channel_delivery (hcap : 0 < cfg.arg) (hp : cfg.policy = .blocking) (h : Run (queue T cfg).exec (queueInit Tid raw) es s) :
    delivered es <+: accepted es ∧
    (∀ es₁ t es₂, es = es₁ ++ .ret t .closed :: es₂ →
      accepted es₂ = [] ∧
      ∀ u ps l s' e, s.loc u = some l → l.isPush = true → (queue T cfg).exec s (.run u ps) = some (s', e) →
        contents cfg s'.shared = contents cfg s.shared) ∧
    (∀ es₁ t es₂, es = es₁ ++ .ret t (.popped none) :: es₂ →
      (∃ u, MEv.ret u .closed ∈ es₁) ∧ delivered es₁ = accepted es) := by
  have hov := overflow_of_arg_pos hcap
  refine ⟨⟨_, run_balance hp hov h⟩, ?_, ?_⟩
  · intro es₁ t es₂ he
    refine ⟨accepted_after_close h he, ?_⟩
    intro u ps l s' e hl hpush hx
    have hc : s.shared.closed = true := (run_closed_iff h).2 ⟨t, by simp [he]⟩
    cases queue_step (run_ringOk h) hx with
    | run _ _ l' nx hl' hv _ _ =>
      obtain rfl : l = l' := Option.some.inj (hl.symm.trans hl')
      exact hv.closed_push hc hpush
  · intro es₁ t es₂ he
    rw [append_cons] at he
    subst he
    obtain ⟨s₂, h₂, h₃⟩ := h.of_append
    obtain ⟨s₁, b, h₁, _, hx⟩ := h₂.of_snoc
    have hst := queue_step (run_ringOk h₁) hx
    obtain ⟨l, _, hv⟩ := hst.of_ret
    -- A pop that returns false found the queue closed and empty.
    obtain ⟨hem, hc⟩ : contents cfg s₁.shared = [] ∧ s₁.shared.closed = true := by
      cases hv with
      | popClosed _ hem hc _ => exact ⟨hem, hc⟩
    refine ⟨(run_closed_iff h₁).1 hc, ?_⟩
    have hb := run_balance hp hov h₁
    rw [hem, append_nil] at hb
    obtain ⟨_, _, hacc⟩ := run_of_closed h₃ (hst.ringOk (run_ringOk h₁)) (hst.closed hc).1
    rw [hb]
    simp only [accepted, filterMap_append] at hacc ⊢
    rw [hacc]
    simp [Ev.accepted]

end Runs

/-- A queue of two slots that blocks. -/
def twoSlots : Config := .ofArgs 2#63 .blocking

/-- The events of a run on `twoSlots` up to a pop that returns false: a value goes through the queue, and `t` closes it. -/
def closedBehind (t u : Tid) : List (Ev Tid Nat Cond) :=
  [.call t 0 (.push 7), .ret t (.pushed ⟨7, 0⟩ true), .call u 1 .pop, .ret u (.popped (some ⟨7, 0⟩)), .call t 2 .close, .ret t .closed,
    .call u 3 .pop]

/-- When a pop returns false at the end of `closedBehind`, the one value accepted has been delivered. -/
theorem channel_delivery_twoSlots : ∃ s,
    Run (queue Nat twoSlots).exec (queueInit (Fin 2) fun _ => ⟨0, 0⟩) (closedBehind 0 1 ++ [.ret 1 (.popped none)]) s ∧
    accepted (closedBehind (0 : Fin 2) 1) = [⟨7, 0⟩] ∧
    delivered (closedBehind (0 : Fin 2) 1) = accepted (closedBehind 0 1 ++ [.ret 1 (.popped none)]) := by
  have hrun : ∃ s, Run (queue Nat twoSlots).exec (queueInit (Fin 2) fun _ => ⟨0, 0⟩)
      (closedBehind 0 1 ++ [.ret 1 (.popped none)]) s :=
    exists_run_of_events _ _
      [.call 0 (.push 7), .run 0 [], .call 1 .pop, .run 1 [], .call 0 .close, .run 0 [], .call 1 .pop, .run 1 []] rfl
  obtain ⟨s, h⟩ := hrun
  exact ⟨s, h, rfl, ((channel_delivery (by decide) rfl h).2.2 (closedBehind 0 1) 1 [] rfl).2⟩

/-! ## The newest values -/

section Newest

variable {es : List (Ev Tid T Cond)}

/-- The values accepted are older ones, of which those delivered are a part, and behind them those in the queue. Only a queue that discards old
values loses any. -/
def HoldsNewest (cfg : Config) (es : List (Ev Tid T Cond)) (s : QState Tid T) : Prop :=
  ∃ old, accepted es = old ++ contents cfg s.shared ∧ delivered es <+ old ∧ (cfg.policy ≠ .discardOld → delivered es = old)

theorem QStep.holdsNewest (hov : cfg.overflow = false) (h : QStep cfg s a e s') (hno : ∀ t x old, s.loc t ≠ some (.overflowWait x old))
    (hI : HoldsNewest cfg es s) : HoldsNewest cfg (es ++ [e]) s' := by
  obtain ⟨old, ha, hd, hk⟩ := hI
  have hquiet (hc : contents cfg s'.shared = contents cfg s.shared) (ha' : e.accepted = none) (hd' : e.delivered = none) :
      HoldsNewest cfg (es ++ [e]) s' :=
    ⟨old, by simp [accepted_snoc, ha', hc, ha], by simpa [delivered_snoc, hd'] using ⟨hd, hk⟩⟩
  cases h with
  | call t o _ h2 _ _ => exact hquiet (by rw [h2]) rfl rfl
  | wake t h1 _ _ => exact hquiet (by rw [h1]) rfl rfl
  | run t ps l nx hl hv _ _ =>
    cases hv with
    | pushStore _ _ _ hs =>
      rw [HoldsNewest, delivered_snoc, accepted_snoc, ha]
      obtain ⟨_, hc⟩ | ⟨hfull, hp, hc⟩ := hs.contents
      · exact ⟨old, by simp [hc, Next.event, Ev.accepted], by simpa [Next.event, Ev.delivered] using ⟨hd, hk⟩⟩
      · -- the oldest value is replaced: it joins the older ones without having been delivered
        obtain ⟨x, xs, hx⟩ := exists_cons_of_length_pos (hfull ▸ cfg.capacity_pos)
        refine ⟨old ++ [x], by simp [hc, hx, Next.event, Ev.accepted], ?_, fun hne => absurd hp hne⟩
        simpa [Next.event, Ev.delivered] using hd.trans (sublist_append_left old [x])
    | pushOverflow _ _ ho _ => rw [hov] at ho; cases ho
    | overflowSleep _ _ _ => exact absurd hl (hno t _ _)
    | overflowRet _ _ => exact absurd hl (hno t _ _)
    | popTake _ ht =>
      rw [HoldsNewest, delivered_snoc, accepted_snoc, ha]
      exact ⟨old ++ [_], by simp [ht.contents, Next.event, Ev.accepted], hd.append_right _, fun hne => by rw [hk hne]; rfl⟩
    | close hc => exact hquiet (by simp [hc.contents, hov]) rfl rfl
    | pushSleep _ _ _ _ hs => exact hquiet hs.contents rfl rfl
    | pushClosed _ _ hs => exact hquiet hs.contents rfl rfl
    | pushDiscard _ _ _ _ hs => exact hquiet hs.contents rfl rfl
    | popSleep _ _ _ hs => exact hquiet hs.contents rfl rfl
    | popClosed _ _ _ hs => exact hquiet hs.contents rfl rfl
    | isClosed hs => exact hquiet hs.contents rfl rfl

variable [Fintype Tid] {raw : Nat → Item T}

/-- A queue with a buffer, whatever its policy, holds the newest values, in every run, for any number of threads and any schedule: the values whose
push returned true are older ones, from which those handed to the callers of `pop` come in the same order and once each, followed by
the values in the queue; and no older value is lost when the policy is not to discard old ones. -/
theorem queue_holds_newest (hov : cfg.overflow = false) (h : Run (queue T cfg).exec (queueInit Tid raw) es s) : HoldsNewest cfg es s := by
  induction h with
  | nil => exact ⟨[], rfl, .slnil, fun _ => rfl⟩
  | snoc hr _ hx ih => exact (queue_step (run_ringOk hr) hx).holdsNewest hov (run_no_overflow hov hr) ih

end Newest

/-- The oldest of three values is lost. -/
theorem queue_holds_newest_newestTwo : ∃ es s, Run (queue Nat newestTwo).exec (queueInit (Fin 1) fun _ => ⟨0, 0⟩) es s ∧
    ∃ old, accepted es = old ++ contents newestTwo s.shared ∧ (contents newestTwo s.shared).map Item.val = [7, 8] := by
  obtain ⟨s, h, hs⟩ := exists_run_of_view (queue Nat newestTwo).exec (fun s => (contents newestTwo s.shared).map Item.val)
    (queueInit (Fin 1) fun _ => ⟨0, 0⟩) [.call 0 (.push 6), .run 0 [], .call 0 (.push 7), .run 0 [], .call 0 (.push 8), .run 0 []] rfl
  obtain ⟨old, hold, -⟩ := queue_holds_newest rfl h
  exact ⟨_, s, h, old, hold, hs⟩

end CsLearning.Chan
