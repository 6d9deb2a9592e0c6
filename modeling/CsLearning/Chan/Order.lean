import CsLearning.Lib.RoundRobin
import CsLearning.Chan.Stages

/-!
# `chan.h`: order through the queues of a channel

One thread pushes, one thread pops, nobody closes. The tickets deal the pushed values to the queues in turn, and the pops visit the
queues in the same turn; so as long as every ticket of a push puts one value into its queue, the values come out in order
(`sharded_order`). A push that discards, its own value or the oldest, breaks the step between the two counters unless there is one
queue only, and from then on values overtake each other (`sharded_order_false`).
-/

open List Function

namespace CsLearning.Chan

variable {Tid T : Type}

/-! ## The users of the channel -/

/-- Only `p` pushes, only `c` pops, and nobody closes. -/
def SingleUse (p c : Tid) : ChanAct Tid T → Prop
  | .call t (.push _) => t = p
  | .call t .pop => t = c
  | .call _ .close => False
  | _ => True

/-- The push that runs does not discard a value: there is one queue, or the policy blocks, or its queue has room. -/
def NoDiscard (cfg : ChanConfig) (s : ChanState Tid T) : ChanAct Tid T → Prop
  | .inner i (.run t _) => cfg.shift = 0 ∨ cfg.queue.policy = .blocking ∨
      ∀ l ∈ (s.queues i).loc t, l.pushing ≠ none → 0 < freeCount cfg.queue (s.queues i).shared
  | _ => True

/-! ## Who uses the channel -/

section Users

variable [DecidableEq Tid] {cfg : ChanConfig} {p c : Tid} {s s' : ChanState Tid T} {a : ChanAct Tid T} {e : ChanEv Tid T}

/-- The users of the channel: `p` alone is inside `push`, `c` alone inside `pop`, nobody inside `close`, and every queue is open. -/
structure Users (cfg : ChanConfig) (p c : Tid) (s : ChanState Tid T) : Prop where
  linked : Linked cfg s
  producer : ∀ t, t ≠ p → pushStage s t = .out
  consumer : ∀ t, t ≠ c → popStage s t = .out
  opened : ∀ i, (s.queues i).shared.closed = false
  noClose : ∀ t, (∀ i, s.ctl t ≠ .closing i) ∧ ∀ i, s.ctl t ≠ .inside i true

/-- A section leaves an open queue open, unless it is that of `close`. -/
theorem View.opened {q q' : QueueT (Item T)} {k : Config} {l : Loc T} {nx : Next (Loc T) Cond (Res T)} (h : View k q l q' nx)
    (ho : q.closed = false) (hl : l.isClose = false) : q'.closed = false := by
  rw [h.closed_eq, ho]
  rintro rfl
  cases h
  cases hl

omit [DecidableEq Tid] in
theorem Users.not_close (hU : Users cfg p c s) {t : Tid} {i : Nat} {l : Loc (Item T)} (hl : (s.queues i).loc t = some l) : l.isClose = false := by
  have hc := hU.linked.loc t i l hl
  cases h : l.isClose with
  | false => rfl
  | true => rw [h] at hc; exact absurd hc ((hU.noClose t).2 i)

theorem Users.step (hU : Users cfg p c s) (hok : SingleUse p c a) (h : CStep cfg s a e s') : Users cfg p c s' := by
  have hL := hU.linked
  refine ⟨hL.step h, fun t ht => ?_, fun t ht => ?_, fun i => ?_, fun t => ?_⟩
  · refine stage_out_step tracks_push hL h (hU.producer t ht) fun o ho => ?_
    subst ho
    cases o with
    | push v => exact absurd hok ht
    | _ => rfl
  · refine stage_out_step tracks_pop hL h (hU.consumer t ht) fun o ho => ?_
    subst ho
    cases o with
    | pop => exact absurd hok ht
    | _ => rfl
  · cases h with
    | call t o _ => exact hU.opened i
    | enter t j o q _ _ hq _ =>
      by_cases hij : i = j
      · subst hij; simpa [hq] using hU.opened i
      · simpa [hij] using hU.opened i
    | wake j t q hq _ =>
      by_cases hij : i = j
      · subst hij; simpa [hq] using hU.opened i
      · simpa [hij] using hU.opened i
    | run j t ps l nx q hl hv _ =>
      by_cases hij : i = j
      · subst hij
        simpa using hv.opened (hU.opened i) (hU.not_close hl)
      · simpa [hij] using hU.opened i
  · by_cases hu : t = a.actor
    · subst hu
      cases h with
      | call t o _ =>
        simp only [ChanAct.actor]
        cases o <;> simp [Ctl.start, SingleUse] at hok ⊢
      | enter t j o q ht _ _ _ =>
        simp only [ChanAct.actor]
        refine ⟨by simp, fun i hi => ?_⟩
        unfold ChanState.target at ht
        split at ht <;> rename_i hc <;> cases ht <;> simp [Op.isClose] at hi
        exact (hU.noClose t).1 _ hc
      | wake j t q _ _ => exact hU.noClose t
      | run j t ps l nx q hl hv _ =>
        cases nx with
        | wait cv l' => exact hU.noClose t
        | ret r =>
          have hc := hL.loc t j l hl
          rw [hU.not_close hl] at hc
          simp [ChanAct.actor, ChanState.ctlAfter, Next.event, hc, Ctl.next]
    · rw [(h.frame hu).1]
      exact hU.noClose t

end Users

/-! ## The flow of the values -/

section Flow

variable {cfg : ChanConfig} {p c : Tid} {s s' : ChanState Tid T} {es : List (ChanEv Tid T)} {e : ChanEv Tid T} {P R : List (Item T)}

/-- The flow of the values: `P` are those whose push has had its effect, and `R` those on their way through the queues, dealt to the
queues in turn from the position of the next pop on. The values received and those on their way are among `P`, and are `P` when
the policy blocks. -/
structure Flow (cfg : ChanConfig) (p c : Tid) (es : List (ChanEv Tid T)) (s : ChanState Tid T) (P R : List (Item T)) : Prop where
  pushed : chanPushed es = P ++ (pushStage s p).pending
  sub : (chanReceived es ++ R).Sublist P
  exact : cfg.queue.policy = .blocking → chanReceived es ++ R = P
  lanes : ∀ i, i < cfg.length → (contents cfg.queue (s.queues i).shared).map Item.val = lane cfg.length i (chanReceived es).length R
  pushTicket : (pushStage s p).Ticket cfg.length s.push ((chanReceived es).length + R.length)
  popTicket : (popStage s c).Ticket cfg.length s.pop (chanReceived es).length

/-- A step that moves no value and keeps each ticket in step with its operation. -/
theorem Flow.still (hF : Flow cfg p c es s P R) (hrec : e.received = none)
    (hp : e.pushed.toList ++ (pushStage s p).pending = (pushStage s' p).pending)
    (hcon : ∀ i, contents cfg.queue (s'.queues i).shared = contents cfg.queue (s.queues i).shared)
    (ht : (pushStage s p).Ticket cfg.length s.push ((chanReceived es).length + R.length) →
      (pushStage s' p).Ticket cfg.length s'.push ((chanReceived es).length + R.length))
    (ht' : (popStage s c).Ticket cfg.length s.pop (chanReceived es).length → (popStage s' c).Ticket cfg.length s'.pop (chanReceived es).length)
    (hnew : e.pushed = none ∨ (pushStage s p).pending = []) : Flow cfg p c (es ++ [e]) s' P R := by
  have hr : chanReceived (es ++ [e]) = chanReceived es := by rw [chanReceived_snoc, hrec]; simp
  refine ⟨?_, by rw [hr]; exact hF.sub, by rw [hr]; exact hF.exact, by rw [hr]; exact fun i hi => hcon i ▸ hF.lanes i hi,
    by rw [hr]; exact ht hF.pushTicket, by rw [hr]; exact ht' hF.popTicket⟩
  rw [chanPushed_snoc, hF.pushed, ← hp]
  rcases hnew with h | h
  · rw [h]; simp
  · rw [h]; simp

variable {i : Nat}

theorem Flow.entered {x : Item T} (hF : Flow cfg p c es s P R) (hst : pushStage s p = .entered i x) :
    i = ((chanReceived es).length + R.length) % cfg.length ∧
    s.push % cfg.length = ((chanReceived es).length + R.length + 1) % cfg.length := by
  have h := hF.pushTicket
  rw [hst] at h
  exact h

theorem Flow.store {y : Item (Item T)} (hF : Flow cfg p c es s P R) (hrec : e.received = none) (hnew : e.pushed = none)
    (hst : pushStage s p = .entered i y.val) (hst' : pushStage s' p = .out) (hpop : popStage s' c = popStage s c)
    (hn : s'.push = s.push) (hn' : s'.pop = s.pop)
    (hi : contents cfg.queue (s'.queues i).shared = contents cfg.queue (s.queues i).shared ++ [y])
    (hj : ∀ j, j ≠ i → contents cfg.queue (s'.queues j).shared = contents cfg.queue (s.queues j).shared) :
    Flow cfg p c (es ++ [e]) s' (P ++ [y.val]) (R ++ [y.val]) := by
  have hr : chanReceived (es ++ [e]) = chanReceived es := by rw [chanReceived_snoc, hrec]; simp
  obtain ⟨hlane, htick⟩ := hF.entered hst
  refine ⟨?_, ?_, ?_, ?_, ?_, ?_⟩
  · rw [chanPushed_snoc, hnew, hF.pushed, hst, hst']
    simp [Stage.pending]
  · rw [hr, ← append_assoc]
    exact hF.sub.append (Sublist.refl _)
  · intro hb
    rw [hr, ← append_assoc, hF.exact hb]
  · intro j hjl
    rw [hr, lane_append]
    by_cases hji : j = i
    · subst hji
      rw [hi, map_append, hF.lanes j hjl, if_pos hlane.symm]
      rfl
    · rw [hj j hji, hF.lanes j hjl, if_neg (by rw [← hlane]; exact Ne.symm hji), append_nil]
  · rw [hst', hr, hn, length_append, length_singleton]
    exact htick
  · rw [hpop, hr, hn']
    exact hF.popTicket

/-- With one queue, the push of `p` is over and its value is nowhere, or in the place of the oldest. -/
theorem Flow.lose {x : Item T} {R' : List (Item T)} (hF : Flow cfg p c es s P R) (hone : cfg.length = 1)
    (hp : cfg.queue.policy ≠ .blocking) (hrec : e.received = none) (hnew : e.pushed = none)
    (hst : pushStage s p = .entered i x) (hst' : pushStage s' p = .out) (hpop : popStage s' c = popStage s c)
    (hn' : s'.pop = s.pop) (hR : R' = R ∨ R' = R.tail ++ [x])
    (hi : (contents cfg.queue (s'.queues 0).shared).map Item.val = R') : Flow cfg p c (es ++ [e]) s' (P ++ [x]) R' := by
  have hr : chanReceived (es ++ [e]) = chanReceived es := by rw [chanReceived_snoc, hrec]; simp
  refine ⟨?_, ?_, fun hb => absurd hb hp, ?_, ?_, ?_⟩
  · rw [chanPushed_snoc, hnew, hF.pushed, hst, hst']
    simp [Stage.pending]
  · rw [hr]
    rcases hR with rfl | rfl
    · exact hF.sub.trans (sublist_append_left _ _)
    · rw [← append_assoc]
      exact (((tail_sublist R).append_left _).trans hF.sub).append (Sublist.refl _)
  · intro j hjl
    obtain rfl : j = 0 := by omega
    rw [hi, hone, lane_one]
  · rw [hst', hone]
    exact (Nat.mod_one _).trans (Nat.mod_one _).symm
  · rw [hpop, hr, hn']
    exact hF.popTicket

/-- The pop of `c` takes the oldest value of its queue, which is the next in the order of the pushes. -/
theorem Flow.take {y : Item (Item T)} (hF : Flow cfg p c es s P R) (hil : i < cfg.length) (hrec : e.received = some y.val)
    (hnew : e.pushed = none) (hst : popStage s c = .entered i ()) (hst' : popStage s' c = .out)
    (hp : pushStage s' p = pushStage s p) (hn : s'.push = s.push) (hn' : s'.pop = s.pop)
    (hi : contents cfg.queue (s.queues i).shared = y :: contents cfg.queue (s'.queues i).shared)
    (hj : ∀ j, j ≠ i → contents cfg.queue (s'.queues j).shared = contents cfg.queue (s.queues j).shared) :
    ∃ R', Flow cfg p c (es ++ [e]) s' P R' := by
  have hr : chanReceived (es ++ [e]) = chanReceived es ++ [y.val] := by rw [chanReceived_snoc, hrec]; rfl
  have ht := hF.popTicket
  rw [hst] at ht
  obtain ⟨hlane, htick⟩ := ht
  have hcon := hF.lanes i hil
  rw [hi] at hcon
  cases R with
  | nil => cases hcon
  | cons z R' =>
    -- The value at the position of the next pop is the first of its lane.
    rw [lane_cons_self _ _ _ hlane.symm] at hcon
    obtain ⟨hz, hrest⟩ := cons.inj hcon
    refine ⟨R', ?_, ?_, ?_, ?_, ?_, ?_⟩
    · rw [chanPushed_snoc, hnew, hF.pushed, hp]
      simp
    · rw [hr, hz, append_assoc]
      exact hF.sub
    · intro hb
      rw [hr, hz, append_assoc]
      exact hF.exact hb
    · intro j hjl
      rw [hr, length_append, length_singleton]
      by_cases hji : j = i
      · subst hji; exact hrest
      · rw [hj j hji, hF.lanes j hjl, lane_cons_ne _ _ _ (by rw [← hlane]; exact Ne.symm hji)]
    · have := hF.pushTicket
      rw [hp, hr, hn, length_append]
      rwa [length_cons, Nat.add_comm R'.length 1, ← Nat.add_assoc] at this
    · rw [hst', hr, hn', length_append]
      exact htick

end Flow

/-! ## Steps and runs -/

section Runs

variable [DecidableEq Tid] {cfg : ChanConfig} {p c : Tid} {s s' : ChanState Tid T} {a : ChanAct Tid T} {e : ChanEv Tid T}
  {es : List (ChanEv Tid T)} {P R : List (Item T)}

variable {t : Tid} {q : QState Tid (Item T)}

theorem Flow.call (hF : Flow cfg p c es s P R) {o : Op T} (hok : SingleUse p c (.call t o : ChanAct Tid T))
    (hi : s.ctl t = .idle) (hs' : s' = { s with ctl := update s.ctl t (Ctl.start s.calls o), calls := s.calls + 1 }) :
    Flow cfg p c (es ++ [.call t s.calls o]) s' P R := by
  have hsame : s'.push = s.push ∧ s'.pop = s.pop ∧ s'.queues = s.queues := by rw [hs']; exact ⟨rfl, rfl, rfl⟩
  have hpend : (ChanEv.pushed (.call t s.calls o : ChanEv Tid T)).toList ++ (pushStage s p).pending = (pushStage s' p).pending ∧
      (ChanEv.pushed (.call t s.calls o : ChanEv Tid T) = none ∨ (pushStage s p).pending = []) := by
    by_cases hp : p = t
    · obtain ⟨h1, h2⟩ := (ticket_call tracks_push hi hs' p).1 hp
      rw [pushStage, pushStage, h1, h2]
      cases o <;> simp [ChanEv.pushed, Ctl.start, Ctl.pushing, Stage.pending]
    · rw [pushStage, pushStage, (ticket_call tracks_push hi hs' p).2.1 hp]
      cases o with
      | push v => exact absurd hok.symm hp
      | _ => simp [ChanEv.pushed]
  refine hF.still rfl hpend.1 (fun i => by rw [hsame.2.2]) (fun h => ?_) (fun h => ?_) hpend.2
  · rw [hsame.1]
    exact (ticket_call tracks_push hi hs' p).2.2 _ _ _ h
  · rw [hsame.2.1]
    exact (ticket_call tracks_pop hi hs' c).2.2 _ _ _ h

theorem Flow.enter (hF : Flow cfg p c es s P R) (hU : Users cfg p c s) {i : Nat} {o : Op (Item T)}
    (ht : s.target cfg t = some (i, o)) (hn : (s.queues i).loc t = none)
    (hq : q.shared = (s.queues i).shared)
    (hl : q.loc = update (s.queues i).loc t (some (entry (s.queues i).calls o)))
    (hs' : s' = { s.takeTicket o with queues := update s.queues i q, ctl := update s.ctl t (.inside i o.isClose) }) :
    Flow cfg p c (es ++ [.inner i (.call t (s.queues i).calls o)]) s' P R := by
  -- Which of the two counters the ticket comes from.
  have hcnt : ((Ctl.pushing (s.ctl t) = none ∧ s'.push = s.push) ∨
        (Ctl.pushing (s.ctl t) ≠ none ∧ i = s.push % cfg.length ∧ s'.push = Word.add 32 s.push 1)) ∧
      ((Ctl.popping (s.ctl t) = none ∧ s'.pop = s.pop) ∨ (Ctl.popping (s.ctl t) ≠ none ∧ i = s.pop % cfg.length ∧ s'.pop = Word.add 32 s.pop 1)) := by
    rw [hs']
    unfold ChanState.target at ht
    split at ht <;> rename_i hc <;> cases ht <;> simp [hc, Ctl.pushing, Ctl.popping, ChanState.takeTicket]
  obtain ⟨hp1, hp2⟩ := ticket_enter tracks_push ChanState.push hU.producer ht hn hq hl hs' hcnt.1
  obtain ⟨_, hc2⟩ := ticket_enter tracks_pop ChanState.pop hU.consumer ht hn hq hl hs' hcnt.2
  refine hF.still rfl ?_ (fun j => ?_) hp2 hc2 (.inl rfl)
  · exact hp1.symm
  · rw [hs']
    by_cases hj : j = i
    · subst hj; simp [hq]
    · simp [hj]

omit [DecidableEq Tid] in
/-- A push that finds its queue full, and does not wait for room, is allowed with one queue only. -/
theorem NoDiscard.length_eq_one {i : Nat} {ps : List Tid} {l : Loc (Item T)} {x : Item (Item T)}
    (hok : NoDiscard cfg s (.inner i (.run t ps))) (hq : RingOk cfg.queue (s.queues i).shared) (hloc : (s.queues i).loc t = some l)
    (hp : PushAt x l) (hpolicy : cfg.queue.policy ≠ .blocking)
    (hf : (contents cfg.queue (s.queues i).shared).length = cfg.queue.capacity) : cfg.length = 1 := by
  have hone : cfg.shift = 0 := by
    rcases hok with h | h | h
    · exact h
    · exact absurd h hpolicy
    · have hroom := h l hloc (by cases hp <;> simp [Loc.pushing])
      rw [hq.freeCount_eq, hf] at hroom
      omega
  rw [ChanConfig.length, hone]
  rfl

section

variable (hF : Flow cfg p c es s P R) (hU : Users cfg p c s) (hq : ∀ i, RingOk cfg.queue (s.queues i).shared)

include hF hU hq

/-- A section keeps the flow: it moves no value, stores or loses the value of `p`, or hands a value to `c`. -/
theorem Flow.run {i : Nat}
    {ps : List Tid} {l : Loc (Item T)} {nx : Next (Loc (Item T)) Cond (Res (Item T))}
    (hok : NoDiscard cfg s (.inner i (.run t ps))) (hloc : (s.queues i).loc t = some l)
    (hv : View cfg.queue (s.queues i).shared l q.shared nx) (hl : q.loc = update (s.queues i).loc t nx.loc)
    (hs' : s' = { s with queues := update s.queues i q, ctl := s.ctlAfter cfg (nx.event t) }) :
    ∃ P' R', Flow cfg p c (es ++ [.inner i (nx.event t)]) s' P' R' := by
  have hL := hU.linked
  have hin := hL.loc t i l hloc
  have hil := hL.inside_lt t i _ hin
  have hq' : (s'.queues i).shared = q.shared := by rw [hs']; simp
  have hoth : ∀ j, j ≠ i → (s'.queues j).shared = (s.queues j).shared := fun j hj => by rw [hs']; simp [hj]
  have hcnt : s'.push = s.push ∧ s'.pop = s.pop := by rw [hs']; exact ⟨rfl, rfl⟩
  have hnew : ChanEv.pushed (.inner i (nx.event t) : ChanEv Tid T) = none := rfl
  have hpushAt : (pushStage s t) = (l.pushing).elim .out (.entered i) := by rw [pushStage, stage_inside hin, hloc]; rfl
  have hpopAt : (popStage s t) = (l.popping).elim .out (.entered i) := by rw [popStage, stage_inside hin, hloc]; rfl
  have push_same : (l.pushing = none ∨ ∃ l', nx.loc = some l' ∧ l'.isOverflow = false) → ∀ u, pushStage s' u = pushStage s u := by
    intro h u
    rw [hs']
    exact stage_run_same tracks_push hL hloc hv hl h u
  have pop_same : (l.popping = none ∨ ∃ l', nx.loc = some l' ∧ l'.isOverflow = false) → ∀ u, popStage s' u = popStage s u := by
    intro h u
    rw [hs']
    exact stage_run_same tracks_pop hL hloc hv hl h u
  -- A section that leaves the values and the stages alone.
  have quiet : ChanEv.received (.inner i (nx.event t) : ChanEv Tid T) = none → Same (s.queues i).shared q.shared →
      (l.pushing = none ∨ ∃ l', nx.loc = some l' ∧ l'.isOverflow = false) →
      (l.popping = none ∨ ∃ l', nx.loc = some l' ∧ l'.isOverflow = false) →
      ∃ P' R', Flow cfg p c (es ++ [.inner i (nx.event t)]) s' P' R' := by
    intro hrec hsame h1 h2
    refine ⟨P, R, hF.still hrec (by rw [push_same h1]; rfl) (fun j => ?_) ?_ ?_ (.inl rfl)⟩
    · by_cases hj : j = i
      · subst hj; rw [hq', hsame.contents]
      · rw [hoth j hj]
    · rw [push_same h1, hcnt.1]; exact id
    · rw [pop_same h2, hcnt.2]; exact id
  -- The thread at a point of `push` is `p`, and the section is the end of its stage there.
  have pusher : ∀ {x : Item (Item T)}, PushAt x l → t = p ∧ pushStage s p = .entered i x.val ∧ l.popping = none := by
    intro x hp
    have hx : l.pushing = some x.val := by cases hp <;> rfl
    have ht : t = p := by
      by_contra hne
      have := hU.producer t hne
      rw [hpushAt, hx] at this
      cases this
    exact ⟨ht, by rw [← ht, hpushAt, hx]; rfl, by cases hp <;> rfl⟩
  have behind : ∀ {x : Item (Item T)}, PushAt x l → (nx.loc = none ∨ ∃ l', nx.loc = some l' ∧ l'.isOverflow = true) → pushStage s' p = .out := by
    intro x hp hnx
    obtain ⟨rfl, _, _⟩ := pusher hp
    rw [hs']
    cases nx with
    | wait cv l' =>
      refine (stage_wait tracks_push hv hin hloc hl).trans ?_
      rcases hnx with h | ⟨_, h, ho⟩
      · cases h
      · cases h; rw [ho]; rfl
    | ret r => exact stage_ret tracks_push hin
  have store : ∀ {x : Item (Item T)}, PushAt x l → Stored cfg.queue (s.queues i).shared x q.shared →
      ChanEv.received (.inner i (nx.event t) : ChanEv Tid T) = none →
      (nx.loc = none ∨ ∃ l', nx.loc = some l' ∧ l'.isOverflow = true) →
      ∃ P' R', Flow cfg p c (es ++ [.inner i (nx.event t)]) s' P' R' := by
    intro x hp hst hrec hnx
    obtain ⟨_, hstage, hpop⟩ := pusher hp
    rcases hst.contents with ⟨_, hc⟩ | ⟨hfull, hd, hc⟩
    · exact ⟨_, _, hF.store hrec hnew hstage (behind hp hnx) (pop_same (.inl hpop) c) hcnt.1 hcnt.2 (by rw [hq', hc]) fun j hj => by rw [hoth j hj]⟩
    · -- The oldest value is replaced: there is one queue.
      have hlen : cfg.length = 1 := hok.length_eq_one (hq i) hloc hp (by rw [hd]; decide) hfull
      obtain rfl : i = 0 := by omega
      have hR := hF.lanes 0 hil
      rw [hlen, lane_one] at hR
      refine ⟨_, _, hF.lose hlen (by rw [hd]; decide) hrec hnew hstage (behind hp hnx) (pop_same (.inl hpop) c) hcnt.2 (.inr rfl) ?_⟩
      rw [hq', hc, map_append, map_tail, hR]
      rfl
  cases hv with
  | pushSleep hp _ _ _ hs => exact quiet rfl hs (.inr ⟨_, rfl, rfl⟩) (.inr ⟨_, rfl, rfl⟩)
  | pushClosed _ hc _ => rw [hU.opened i] at hc; cases hc
  | pushDiscard hp hd hfull _ hs =>
    obtain ⟨_, hstage, hpop⟩ := pusher hp
    have hlen : cfg.length = 1 := hok.length_eq_one (hq i) hloc hp (by rw [hd]; decide) hfull
    obtain rfl : i = 0 := by omega
    have hR := hF.lanes 0 hil
    rw [hlen, lane_one] at hR
    refine ⟨_, _, hF.lose hlen (by rw [hd]; decide) rfl hnew hstage (behind hp (.inl rfl)) (pop_same (.inl hpop) c) hcnt.2 (.inl rfl) ?_⟩
    rw [hq', hs.contents, hR]
  | pushStore hp _ _ hst => exact store hp hst rfl (.inl rfl)
  | pushOverflow hp _ _ hst => exact store hp hst rfl (.inr ⟨_, rfl, rfl⟩)
  | overflowSleep _ _ hs => exact quiet rfl hs (.inl rfl) (.inl rfl)
  | overflowRet _ hs => exact quiet rfl hs (.inl rfl) (.inl rfl)
  | popSleep hp _ _ hs => exact quiet rfl hs (.inr ⟨_, rfl, rfl⟩) (.inr ⟨_, rfl, rfl⟩)
  | popClosed _ _ hc _ => rw [hU.opened i] at hc; cases hc
  | popTake hp htk =>
    have hx : l.popping = some () := by cases hp <;> rfl
    have htc : t = c := by
      by_contra hne
      have := hU.consumer t hne
      rw [hpopAt, hx] at this
      cases this
    subst htc
    have hout : popStage s' t = .out := by
      rw [hs']
      exact stage_ret tracks_pop hin
    obtain ⟨R', hR'⟩ := hF.take hil rfl hnew (by rw [hpopAt, hx]; rfl) hout
      (push_same (.inl (by cases hp <;> rfl)) p) hcnt.1 hcnt.2 (by rw [hq', htk.contents]) fun j hj => by rw [hoth j hj]
    exact ⟨P, R', hR'⟩
  | close _ => exact absurd (hU.not_close hloc) (by simp [Loc.isClose])
  | isClosed hs => exact quiet rfl hs (.inl rfl) (.inl rfl)

theorem Flow.step
    (hone : SingleUse p c a) (hok : NoDiscard cfg s a) (h : CStep cfg s a e s') :
    ∃ P' R', Flow cfg p c (es ++ [e]) s' P' R' := by
  cases h with
  | call t o hi => exact ⟨P, R, hF.call hone hi rfl⟩
  | enter t i o q ht hn hsh hl => exact ⟨P, R, hF.enter hU ht hn hsh hl rfl⟩
  | wake i t q hsh hl =>
    have hloc : ∀ u j, (update s.queues i q j).loc u = (s.queues j).loc u := by
      intro u j
      by_cases hj : j = i
      · subst hj; simp [hl]
      · simp [hj]
    have hp : pushStage { s with queues := update s.queues i q } p = pushStage s p := stage_congr rfl (hloc p)
    have hc : popStage { s with queues := update s.queues i q } c = popStage s c := stage_congr rfl (hloc c)
    refine ⟨P, R, hF.still rfl (by rw [hp]; rfl) (fun j => ?_) (by rw [hp]; exact id) (by rw [hc]; exact id) (.inl rfl)⟩
    by_cases hj : j = i
    · subst hj; simp [hsh]
    · simp [hj]
  | run i t ps l nx q hloc hv hl => exact hF.run hU hq hok hloc hv hl rfl

end

variable [Fintype Tid] {raw : Nat → Nat → Item (Item T)}

/-- Order through a channel with one thread that pushes and one that pops, and nobody who closes, for any policy, any capacity and
any number of queues. In every run in which no push discards a value, or there is one queue, the values received are a
subsequence of those pushed; when the policy blocks, they are a prefix. The counters of the tickets may wrap. -/
theorem sharded_order (h : RunIf (chanExec cfg) (fun s a => SingleUse p c a ∧ NoDiscard cfg s a) (chanInit Tid raw) es s) :
    (chanReceived es).Sublist (chanPushed es) ∧ (cfg.queue.policy = .blocking → chanReceived es <+: chanPushed es) := by
  have hinv : Users cfg p c s ∧ ∃ P R, Flow cfg p c es s P R := by
    refine chan_invariant (P := fun es s => Users cfg p c s ∧ ∃ P R, Flow cfg p c es s P R) ⟨?_, [], [], ?_⟩ ?_ h
    · exact ⟨Linked.init cfg raw, fun _ _ => rfl, fun _ _ => rfl, fun _ => rfl, fun t => ⟨by simp [chanInit], by simp [chanInit]⟩⟩
    · exact ⟨rfl, Sublist.refl _, fun _ => rfl, fun _ _ => rfl, rfl, rfl⟩
    · rintro es s a e s' hr ⟨hU, P, R, hF⟩ ⟨h1, h2⟩ hst
      exact ⟨hU.step h1 hst, hF.step hU (run_chan_ringOk hr) h1 h2 hst⟩
  obtain ⟨_, P, R, hF⟩ := hinv
  rw [hF.pushed]
  refine ⟨((sublist_append_left _ R).trans hF.sub).trans (sublist_append_left _ _), fun hb => ?_⟩
  rw [← hF.exact hb, append_assoc]
  exact prefix_append _ _

end Runs

section Decidable

instance [DecidableEq Tid] (p c : Tid) (a : ChanAct Tid T) : Decidable (SingleUse p c a) :=
  match a with
  | .call t (.push _) => inferInstanceAs (Decidable (t = p))
  | .call t .pop => inferInstanceAs (Decidable (t = c))
  | .call _ .close => isFalse id
  | .call _ .isClosed => isTrue trivial
  | .enter _ => isTrue trivial
  | .inner _ _ => isTrue trivial

instance [DecidableEq Tid] [DecidableEq T] (cfg : ChanConfig) (s : ChanState Tid T) (a : ChanAct Tid T) :
    Decidable (NoDiscard cfg s a) :=
  match a with
  | .inner i (.run t _) => inferInstanceAs (Decidable (cfg.shift = 0 ∨ cfg.queue.policy = .blocking ∨
      ∀ l ∈ (s.queues i).loc t, l.pushing ≠ none → 0 < freeCount cfg.queue (s.queues i).shared))
  | .inner _ (.call _ _) => isTrue trivial
  | .inner _ (.wake _) => isTrue trivial
  | .call _ _ => isTrue trivial
  | .enter _ => isTrue trivial

end Decidable

/-- Two queues of one slot each, with a policy. -/
def twoQueues (policy : PushPolicy) : ChanConfig := ⟨1, .ofArgs 1#63 policy, by decide⟩

/-- The actions of one push by the thread `t`, through the queue `i`. -/
def pushThrough (t : Tid) (v : Nat) (i : Nat) : List (ChanAct Tid Nat) := [.call t (.push v), .enter t, .inner i (.run t [])]

/-- The events of one push by the thread `t` that brings the value `x`, the call with number `m` of the queue `i`. -/
def pushedThrough (t : Tid) (x : Item Nat) (i m : Nat) (r : Bool) : List (ChanEv Tid Nat) :=
  [.call t x.call (.push x.val), .inner i (.call t m (.push x)), .inner i (.ret t (.pushed ⟨x, m⟩ r))]

/-- The actions of one pop by the thread `t`, through the queue `i`. -/
def popThrough (t : Tid) (i : Nat) : List (ChanAct Tid Nat) := [.call t .pop, .enter t, .inner i (.run t [])]

/-- The events of one pop by the thread `t`, the call with number `n` of the channel and `m` of the queue `i`, that takes `x`. -/
def poppedThrough (t : Tid) (x : Option (Item (Item Nat))) (n i m : Nat) : List (ChanEv Tid Nat) :=
  [.call t n .pop, .inner i (.call t m .pop), .inner i (.ret t (.popped x))]

/-- The events of a run in which two values go from `p` through two queues to `c`. -/
def inTurn (p c : Tid) : List (ChanEv Tid Nat) :=
  pushedThrough p ⟨7, 0⟩ 0 0 true ++ pushedThrough p ⟨8, 1⟩ 1 0 true ++ poppedThrough c (some ⟨⟨7, 0⟩, 0⟩) 2 0 1 ++
    poppedThrough c (some ⟨⟨8, 1⟩, 0⟩) 3 1 1

/-- On the run `inTurn` the two values come out in order. -/
theorem sharded_order_inTurn : ∃ s,
    RunIf (chanExec (twoQueues .blocking)) (fun s a => SingleUse 0 1 a ∧ NoDiscard (twoQueues .blocking) s a)
      (chanInit (Fin 2) fun _ _ => ⟨⟨0, 0⟩, 0⟩) (inTurn 0 1) s ∧
    chanReceived (inTurn (0 : Fin 2) 1) = [⟨7, 0⟩, ⟨8, 1⟩] ∧ chanReceived (inTurn (0 : Fin 2) 1) <+: chanPushed (inTurn (0 : Fin 2) 1) := by
  have hrun : ∃ s, Run (guarded (chanExec (twoQueues .blocking))
      (fun s a => SingleUse 0 1 a ∧ NoDiscard (twoQueues .blocking) s a)) (chanInit (Fin 2) fun _ _ => ⟨⟨0, 0⟩, 0⟩)
      (inTurn 0 1) s :=
    exists_run_of_events _ _ (pushThrough 0 7 0 ++ pushThrough 0 8 1 ++ popThrough 1 0 ++ popThrough 1 1) (by decide +kernel)
  obtain ⟨s, h⟩ := hrun
  have h' := runIf_of_guarded h
  exact ⟨s, h', rfl, (sharded_order h').2 rfl⟩

/-- The events of a run over two queues of one slot that discard their oldest value: the third push of `p` replaces the first value,
and `c` receives the third value before the second. -/
def outOfTurn (p c : Tid) : List (ChanEv Tid Nat) :=
  pushedThrough p ⟨7, 0⟩ 0 0 true ++ pushedThrough p ⟨8, 1⟩ 1 0 true ++ pushedThrough p ⟨9, 2⟩ 0 1 true ++
    poppedThrough c (some ⟨⟨9, 2⟩, 1⟩) 3 0 2 ++ poppedThrough c (some ⟨⟨8, 1⟩, 0⟩) 4 1 1

/-- Without the condition the order is lost, on the run `outOfTurn`. -/
theorem sharded_order_false : ¬∀ es s,
    RunIf (chanExec (twoQueues .discardOld)) (fun _ a => SingleUse 0 1 a) (chanInit (Fin 2) fun _ _ => ⟨⟨0, 0⟩, 0⟩) es s →
    (chanReceived es).Sublist (chanPushed es) := by
  intro hall
  have hrun : ∃ s, Run (guarded (chanExec (twoQueues .discardOld)) (fun _ a => SingleUse 0 1 a))
      (chanInit (Fin 2) fun _ _ => ⟨⟨0, 0⟩, 0⟩) (outOfTurn 0 1) s :=
    exists_run_of_events _ _ (pushThrough 0 7 0 ++ pushThrough 0 8 1 ++ pushThrough 0 9 0 ++ popThrough 1 0 ++ popThrough 1 1)
      (by decide +kernel)
  obtain ⟨s, h⟩ := hrun
  exact absurd (hall (outOfTurn 0 1) s (runIf_of_guarded h)) (by decide)

end CsLearning.Chan
