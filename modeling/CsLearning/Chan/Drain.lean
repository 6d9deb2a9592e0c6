import CsLearning.Chan.Delivery
import CsLearning.Chan.Order

/-!
# `chan.h`: draining a channel after `close`

Producers push, one consumer pops until its first false, and `close` closes the queues one after another. With one queue the consumer
gets every value whose push returned true. With several queues this needs that no value is stored once a queue is closed, and that the
pushes which `close` overtakes between their ticket and their store have the last tickets (`sharded_drain`). Otherwise a ticket that
stored nothing lies before one that did; the pops, whose tickets are counted separately, meet the closed queue of the first while the
queue of the second still holds a value (`sharded_drain_false`).
-/

open List Function Nat

namespace CsLearning.Chan

variable {Tid T : Type}

/-- The flag of the queue `i`. -/
def ChanState.closedAt (s : ChanState Tid T) (i : Nat) : Bool := (s.queues i).shared.closed

/-- Every queue is open. -/
def AllOpen (cfg : ChanConfig) (s : ChanState Tid T) : Prop := ∀ i < cfg.length, s.closedAt i = false

/-- The number of pushes at the queue `i` that have not stored their value. -/
def flyAt [Fintype Tid] (s : ChanState Tid T) (i : Nat) : Nat := pushing (s.queues i).loc

/-- The number of pushes that have a ticket and have not stored their value. -/
def flying [Fintype Tid] (cfg : ChanConfig) (s : ChanState Tid T) : Nat := ∑ i ∈ Finset.range cfg.length, flyAt s i

/-- The pushes that have not stored their value have the last tickets: they are at the queues of `r`, `r + 1` and so on, up to the
next ticket. -/
def LastTickets [Fintype Tid] (cfg : ChanConfig) (s : ChanState Tid T) : Prop :=
  ∃ r < cfg.length, (r + flying cfg s) % cfg.length = s.push % cfg.length ∧
    ∀ i < cfg.length, flyAt s i = Nat.count (fun k => (r + k) % cfg.length = i) (flying cfg s)

/-- Only `c` pops. -/
def OneConsumer (c : Tid) : ChanAct Tid T → Prop
  | .call t .pop => t = c
  | _ => True

/-- There is one queue, or a push that finds its queue open and with room finds every queue open, and the first queue to be closed is
closed when the pushes that have not stored their value have the last tickets. -/
def Orderly [Fintype Tid] (cfg : ChanConfig) (s : ChanState Tid T) : ChanAct Tid T → Prop
  | .inner i (.run t _) => cfg.shift = 0 ∨ ∀ l ∈ (s.queues i).loc t,
      (l.pushing ≠ none → s.closedAt i = false → 0 < freeCount cfg.queue (s.queues i).shared → AllOpen cfg s) ∧
      (l.isClose = true → AllOpen cfg s → LastTickets cfg s)
  | _ => True

/-! ## The flags -/

section Flags

variable [DecidableEq Tid] {cfg : ChanConfig} {s s' : ChanState Tid T} {a : ChanAct Tid T} {e : ChanEv Tid T}

/-- What a step does to the flags: nothing, or it is the section of `close` of one queue. -/
theorem CStep.flags (h : CStep cfg s a e s') : (∀ j, s'.closedAt j = s.closedAt j) ∨
    ∃ i t ps, a = .inner i (.run t ps) ∧ (s.queues i).loc t = some .close ∧ s'.closedAt i = true ∧ ∀ j, j ≠ i → s'.closedAt j = s.closedAt j := by
  have upd : ∀ {i : Nat} {q : QState Tid (Item T)}, q.shared.closed = (s.queues i).shared.closed →
      ∀ j, (update s.queues i q j).shared.closed = (s.queues j).shared.closed := by
    intro i q hq j
    by_cases hj : j = i
    · subst hj; simpa using hq
    · simp [hj]
  cases h with
  | call t o _ => exact .inl fun _ => rfl
  | enter t i o q _ _ hq _ => exact .inl (upd (by rw [hq]))
  | wake i t q hq _ => exact .inl (upd (by rw [hq]))
  | run i t ps l nx q hl hv _ =>
    by_cases hn : nx = .ret .closed
    · subst hn
      cases hv with
      | close hc =>
        refine .inr ⟨i, t, ps, rfl, hl, ?_, fun j hj => ?_⟩
        · simp [ChanState.closedAt, hc.closed]
        · simp [ChanState.closedAt, hj]
    · exact .inl (upd (hv.closed_eq hn))

theorem CStep.closedAt_mono (h : CStep cfg s a e s') {j : Nat} (hj : s.closedAt j = true) : s'.closedAt j = true := by
  rcases h.flags with hf | ⟨i, t, ps, _, _, hi, hf⟩
  · rw [hf, hj]
  · grind

theorem CStep.saidClosed (hL : Linked cfg s) (h : CStep cfg s a e s') (he : e.saidClosed = true) : ∃ i, i < cfg.length ∧ s.closedAt i = true := by
  cases h with
  | call t o _ => cases he
  | enter t i o q _ _ _ _ => cases he
  | wake i t q _ _ => cases he
  | run i t ps l nx q hl hv _ =>
    refine ⟨i, hL.inside_lt t i _ (hL.loc t i l hl), ?_⟩
    cases hv with
    | isClosed _ =>
      cases hc : (s.queues i).shared.closed with
      | true => exact hc
      | false => rw [hc] at he; cases he
    | _ => cases he

end Flags

/-! ## Counting the pushes -/

section Counts

variable {cfg : ChanConfig} {s s' : ChanState Tid T} {a : ChanAct Tid T} {e : ChanEv Tid T} {es : List (ChanEv Tid T)}

/-- The values the queue `i` has accepted. -/
def acceptedAt (es : List (ChanEv Tid T)) (i : Nat) : List (Item (Item T)) := accepted (project i es)

/-- The values the queue `i` has delivered. -/
def deliveredAt (es : List (ChanEv Tid T)) (i : Nat) : List (Item (Item T)) := delivered (project i es)

theorem acceptedAt_snoc (es : List (ChanEv Tid T)) (e : ChanEv Tid T) (i : Nat) :
    acceptedAt (es ++ [e]) i = acceptedAt es i ++ ((e.at i).bind Ev.accepted).toList := by
  grind [acceptedAt, project_snoc, accepted_snoc, project]

theorem deliveredAt_snoc (es : List (ChanEv Tid T)) (e : ChanEv Tid T) (i : Nat) :
    deliveredAt (es ++ [e]) i = deliveredAt es i ++ ((e.at i).bind Ev.delivered).toList := by
  grind [deliveredAt, project_snoc, delivered_snoc, project]

/-- An event by which no push returned true adds to no queue. -/
theorem acceptedAt_of_none (he : e.accepted = none) (i : Nat) : acceptedAt (es ++ [e]) i = acceptedAt es i := by
  rw [acceptedAt_snoc]
  cases e with
  | call t n o => simp [ChanEv.at]
  | inner j f =>
    have hf : Ev.accepted f = none := by simpa [ChanEv.accepted] using he
    by_cases hj : j = i <;> simp [ChanEv.at, hj, hf]

variable [Fintype Tid]

/-- What a step does to the pushes: nothing; it takes a ticket; it stores a value while every queue is open; or a push leaves a closed
queue. -/
inductive PushKind (cfg : ChanConfig) (s : ChanState Tid T) (e : ChanEv Tid T) (s' : ChanState Tid T) : Prop where
  | still : (∀ j, flyAt s' j = flyAt s j) → s'.push = s.push → e.accepted = none → PushKind cfg s e s'
  | ticket (i : Nat) : i = s.push % cfg.length → s'.push = Word.add 32 s.push 1 → flyAt s' i = flyAt s i + 1 →
      (∀ j, j ≠ i → flyAt s' j = flyAt s j) → e.accepted = none → PushKind cfg s e s'
  | store (i : Nat) (t : Tid) (x : Item (Item T)) : i < cfg.length → AllOpen cfg s' → flyAt s' i + 1 = flyAt s i →
      (∀ j, j ≠ i → flyAt s' j = flyAt s j) → s'.push = s.push → e = .inner i (.ret t (.pushed x true)) → PushKind cfg s e s'
  | refused (i : Nat) : i < cfg.length → s'.closedAt i = true → s'.push = s.push → e.accepted = none → PushKind cfg s e s'

/-- The pushes counted: while every queue is open, each ticket is a value accepted or a push at its queue, in turn; and once a queue
is closed, the values accepted are those of the first tickets. -/
structure Counts (cfg : ChanConfig) (es : List (ChanEv Tid T)) (s : ChanState Tid T) : Prop where
  opened : AllOpen cfg s → ∃ n, s.push % cfg.length = n % cfg.length ∧
    ∀ i, i < cfg.length → (acceptedAt es i).length + flyAt s i = Nat.count (fun k => k % cfg.length = i) n
  shut : ∀ i, i < cfg.length → s.closedAt i = true → ∃ n,
    ∀ j, j < cfg.length → (acceptedAt es j).length = Nat.count (fun k => k % cfg.length = j) n
  range : ∀ i, cfg.length ≤ i → acceptedAt es i = []

theorem PushKind.opened (h : PushKind cfg s e s') (ho : AllOpen cfg s') {n : Nat} (hn : s.push % cfg.length = n % cfg.length)
    (hcnt : ∀ i, i < cfg.length → (acceptedAt es i).length + flyAt s i = count (fun k => k % cfg.length = i) n) :
    ∃ n, s'.push % cfg.length = n % cfg.length ∧
      ∀ i, i < cfg.length → (acceptedAt (es ++ [e]) i).length + flyAt s' i = count (fun k => k % cfg.length = i) n := by
  cases h with
  | still hf hp he => grind [acceptedAt_of_none]
  | ticket i hi hp hf hf' he =>
    refine ⟨n + 1, by rw [hp, ticket_mod]; exact Nat.ModEq.add_right 1 hn, fun j hj => ?_⟩
    rw [acceptedAt_of_none he, count_succ, ← hcnt j hj, ← hn, ← hi]
    by_cases hji : j = i
    · rw [hji, hf, if_pos rfl, add_assoc]
    · rw [hf' j hji, if_neg (Ne.symm hji), add_zero]
  | store i t x _ _ hf hf' hp he =>
    refine ⟨n, by rw [hp, hn], fun j hj => ?_⟩
    rw [acceptedAt_snoc, he, ← hcnt j hj]
    by_cases hji : j = i
    · subst hji
      rw [ChanEv.at, if_pos rfl]
      simp only [Option.bind_some, Ev.accepted, Option.toList_some, length_append, length_singleton]
      omega
    · rw [ChanEv.at, if_neg (Ne.symm hji), hf' j hji]
      simp
  | refused i hi hc _ _ => rw [ho i hi] at hc; cases hc

/-- A step that leaves a queue closed accepts nothing. -/
theorem PushKind.accepted_none (h : PushKind cfg s e s') {k : Nat} (hk : k < cfg.length) (hc : s'.closedAt k = true) : e.accepted = none := by
  cases h with
  | still _ _ he => exact he
  | ticket _ _ _ _ _ he => exact he
  | store i t x _ ho _ _ _ _ => rw [ho k hk] at hc; cases hc
  | refused _ _ _ _ he => exact he

theorem PushKind.range (h : PushKind cfg s e s') {i : Nat} (hi : cfg.length ≤ i) (hr : acceptedAt es i = []) : acceptedAt (es ++ [e]) i = [] := by
  cases h with
  | still _ _ he => rw [acceptedAt_of_none he, hr]
  | ticket _ _ _ _ _ he => rw [acceptedAt_of_none he, hr]
  | store j t x hj _ _ _ _ he =>
    rw [acceptedAt_snoc, he, ChanEv.at, if_neg (by omega), hr]
    rfl
  | refused _ _ _ _ he => rw [acceptedAt_of_none he, hr]

variable [DecidableEq Tid]

theorem flyAt_update (s' : ChanState Tid T) {i : Nat} {q : QState Tid (Item T)} {t : Tid} {ol : Option (Loc (Item T))}
    (hq : s'.queues = update s.queues i q) (hl : q.loc = update (s.queues i).loc t ol) :
    flyAt s' i + pushTally ((s.queues i).loc t) = flyAt s i + pushTally ol ∧ ∀ j, j ≠ i → flyAt s' j = flyAt s j := by
  refine ⟨?_, fun j hj => ?_⟩
  · rw [flyAt, hq, update_self, hl]
    exact sum_update pushTally (s.queues i).loc t ol
  · rw [flyAt, hq, update_of_ne hj]
    rfl

/-- A step is of one of these kinds, for a policy that blocks and queues with a buffer. -/
theorem CStep.pushKind (hp : cfg.queue.policy = .blocking) (hov : cfg.queue.overflow = false) (hL : Linked cfg s)
    (hq : ∀ i, RingOk cfg.queue (s.queues i).shared) (hno : ∀ i t x old, (s.queues i).loc t ≠ some (.overflowWait x old))
    (hok : Orderly cfg s a) (h : CStep cfg s a e s') : PushKind cfg s e s' := by
  cases h with
  | call t o hi => exact PushKind.still (fun _ => rfl) rfl rfl
  | enter t i o q htg hn hsh hl =>
    obtain ⟨hf, hf'⟩ := flyAt_update { s.takeTicket o with
      queues := update s.queues i q, ctl := update s.ctl t (.inside i o.isClose) } rfl hl
    rw [hn] at hf
    have quiet : pushTally (some (entry (s.queues i).calls o)) = 0 → (s.takeTicket o).push = s.push →
        PushKind cfg s (.inner i (.call t (s.queues i).calls o)) { s.takeTicket o with
          queues := update s.queues i q, ctl := update s.ctl t (.inside i o.isClose) } := by
      intro h0 hpush
      refine PushKind.still (fun j => ?_) hpush rfl
      by_cases hj : j = i
      · grind [pushTally]
      · exact hf' j hj
    unfold ChanState.target at htg
    split at htg <;> rename_i hk <;> cases htg
    · exact PushKind.ticket _ rfl rfl (by simpa [pushTally, entry] using hf) hf' rfl
    · exact quiet rfl rfl
    · exact quiet rfl rfl
    · exact quiet rfl rfl
  | wake i t q hsh hl =>
    refine PushKind.still (fun j => ?_) rfl rfl
    by_cases hj : j = i
    · subst hj; simp [flyAt, hl]
    · simp [flyAt, hj]
  | run i t ps l nx q hl0 hv hl =>
    obtain ⟨hf, hf'⟩ := flyAt_update { s with
      queues := update s.queues i q, ctl := s.ctlAfter cfg (nx.event t) } rfl hl
    rw [hl0] at hf
    have hil := hL.inside_lt t i _ (hL.loc t i l hl0)
    have quiet : pushTally nx.loc = pushTally (some l) → ChanEv.accepted (.inner i (nx.event t) : ChanEv Tid T) = none →
        PushKind cfg s (.inner i (nx.event t)) { s with
          queues := update s.queues i q, ctl := s.ctlAfter cfg (nx.event t) } := by
      intro ht he
      refine PushKind.still (fun j => ?_) rfl he
      by_cases hj : j = i
      · subst hj; omega
      · exact hf' j hj
    cases hv with
    | pushSleep hpt _ _ _ _ => exact quiet (by rw [hpt.tally]; rfl) rfl
    | pushClosed _ hc hs => exact PushKind.refused i hil (by simp [ChanState.closedAt, hs.closed, hc]) rfl rfl
    | pushDiscard _ hd _ _ _ => rw [hp] at hd; cases hd
    | pushStore hpt ho _ hst =>
      rw [hpt.tally] at hf
      refine PushKind.store i t _ hil (fun j hj => ?_) hf hf' rfl rfl
      by_cases hji : j = i
      · subst hji; simp [ChanState.closedAt, hst.closed]
      · -- The other queues are open by the condition, since this one has room.
        have hroom : 0 < freeCount cfg.queue (s.queues i).shared := by
          rw [(hq i).freeCount_eq]
          rcases hst.contents with ⟨hlt, _⟩ | ⟨_, hd, _⟩
          · omega
          · rw [hp] at hd; cases hd
        rcases hok with hs | hok
        · grind [ChanConfig.length]
        · have hopen := (hok l hl0).1 (by cases hpt <;> simp [Loc.pushing]) ho hroom j hj
          simpa [ChanState.closedAt, hji] using hopen
    | pushOverflow _ _ ho _ => rw [hov] at ho; cases ho
    | overflowSleep _ _ _ => exact absurd hl0 (hno i t _ _)
    | overflowRet _ _ => exact absurd hl0 (hno i t _ _)
    | popSleep hpt _ _ _ => exact quiet (by cases hpt <;> rfl) rfl
    | popClosed hpt _ _ _ => exact quiet (by cases hpt <;> rfl) rfl
    | popTake hpt _ => exact quiet (by cases hpt <;> rfl) rfl
    | close _ => exact quiet rfl rfl
    | isClosed _ => exact quiet rfl rfl

theorem Counts.step (hN : Counts cfg es s) (hk : PushKind cfg s e s') (hok : Orderly cfg s a) (h : CStep cfg s a e s') :
    Counts cfg (es ++ [e]) s' := by
  refine ⟨fun ho => ?_, fun i hi hc => ?_, fun i hi => hk.range hi (hN.range i hi)⟩
  · have hos : AllOpen cfg s := by
      intro i hi
      by_contra hc
      have := h.closedAt_mono (j := i) (by simpa using hc)
      rw [ho i hi] at this
      cases this
    obtain ⟨n, hn, hcnt⟩ := hN.opened hos
    exact hk.opened ho hn hcnt
  · simp only [acceptedAt_of_none (hk.accepted_none hi hc)]
    by_cases hex : ∃ k, k < cfg.length ∧ s.closedAt k = true
    · obtain ⟨k, hk, hck⟩ := hex
      exact hN.shut k hk hck
    · -- The step closes the first queue.
      have hos : AllOpen cfg s := fun k hk => by
        by_contra hck
        exact hex ⟨k, hk, by simpa using hck⟩
      obtain ⟨n, hn, hcnt⟩ := hN.opened hos
      rcases h.flags with hf | ⟨k, t, ps, rfl, hl, _⟩
      · rw [hf i, hos i hi] at hc
        cases hc
      · rcases hok with hs | hok
        · have hlen : cfg.length = 1 := by rw [ChanConfig.length, hs]; rfl
          refine ⟨(acceptedAt es 0).length, fun j hj => ?_⟩
          obtain rfl : j = 0 := by omega
          simp [hlen, mod_one]
        · obtain ⟨r, _, hr, hlast⟩ := (hok _ hl).2 rfl hos
          exact exists_count_of_last cfg.length_pos hcnt rfl (hr.trans hn) hlast

end Counts

/-! ## Counting the pops -/

section Pops

variable {cfg : ChanConfig} {c : Tid} {s s' : ChanState Tid T} {a : ChanAct Tid T} {e : ChanEv Tid T} {es : List (ChanEv Tid T)}

/-- What a step does to the pops of `c`: nothing to the values, and the ticket stays in step; it takes a value; or it finds its queue
closed and empty. -/
inductive PopKind (cfg : ChanConfig) (c : Tid) (s : ChanState Tid T) (e : ChanEv Tid T) (s' : ChanState Tid T) : Prop where
  | still : (∀ i, (e.at i).bind Ev.delivered = none) → e.received = none → e.popFailed = false →
      (∀ n, (popStage s c).Ticket cfg.length s.pop n → (popStage s' c).Ticket cfg.length s'.pop n) → PopKind cfg c s e s'
  | take (i : Nat) (x : Item (Item T)) : popStage s c = .entered i () → popStage s' c = .out → s'.pop = s.pop →
      e = .inner i (.ret c (.popped (some x))) → PopKind cfg c s e s'
  | failed (i : Nat) : i < cfg.length → popStage s c = .entered i () → s.closedAt i = true →
      contents cfg.queue (s.queues i).shared = [] → e = .inner i (.ret c (.popped none)) → PopKind cfg c s e s'

/-- The pops counted: each ticket of `c` has taken a value from its queue, in turn. -/
structure Pops (cfg : ChanConfig) (c : Tid) (es : List (ChanEv Tid T)) (s : ChanState Tid T) : Prop where
  taken : ∀ i, i < cfg.length →
    (deliveredAt es i).length = Nat.count (fun k => k % cfg.length = i) (chanReceived es).length
  ticket : (popStage s c).Ticket cfg.length s.pop (chanReceived es).length

theorem Pops.step (hP : Pops cfg c es s) (hk : PopKind cfg c s e s') (hf : e.popFailed = false) : Pops cfg c (es ++ [e]) s' := by
  cases hk with
  | still hd hr _ ht =>
    have hlen : chanReceived (es ++ [e]) = chanReceived es := by rw [chanReceived_snoc, hr]; simp
    refine ⟨fun i hi => ?_, ?_⟩
    · rw [deliveredAt_snoc, hd i, hlen, ← hP.taken i hi]
      simp
    · rw [hlen]
      exact ht _ hP.ticket
  | take i x hst hst' hpop he =>
    have hlen : (chanReceived (es ++ [e])).length = (chanReceived es).length + 1 := by
      rw [chanReceived_snoc, he]
      simp [ChanEv.received, Ev.delivered]
    have ht := hP.ticket
    rw [hst] at ht
    obtain ⟨hi, hn⟩ := ht
    refine ⟨fun j hj => ?_, ?_⟩
    · rw [deliveredAt_snoc, hlen, he, count_succ, ← hP.taken j hj, ← hi]
      by_cases hji : i = j
      · simp [ChanEv.at, hji, Ev.delivered]
      · simp [ChanEv.at, hji]
    · rw [hst', hpop, hlen]
      exact hn
  | failed i _ _ _ _ he => rw [he] at hf; cases hf

variable [DecidableEq Tid]

/-- A step is of one of these kinds, when only `c` is inside `pop`. -/
theorem CStep.popKind (hL : Linked cfg s) (hown : ∀ t, t ≠ c → popStage s t = .out) (h : CStep cfg s a e s') : PopKind cfg c s e s' := by
  cases h with
  | call t o hi => exact PopKind.still (fun _ => rfl) rfl rfl fun n => (ticket_call tracks_pop hi rfl c).2.2 _ _ n
  | enter t i o q ht hn hsh hl =>
    refine PopKind.still (fun j => ?_) rfl rfl fun n => (ticket_enter tracks_pop ChanState.pop hown ht hn hsh hl rfl ?_).2
    · by_cases hj : i = j <;> simp [ChanEv.at, hj, Ev.delivered]
    · unfold ChanState.target at ht
      split at ht <;> rename_i hc <;> cases ht <;> simp [hc, Ctl.popping, ChanState.takeTicket]
  | wake i t q _ hl =>
    refine PopKind.still (fun j => ?_) rfl rfl fun n => ?_
    · by_cases hj : i = j <;> simp [ChanEv.at, hj, Ev.delivered]
    · have hst : popStage { s with queues := update s.queues i q } c = popStage s c := by
        refine stage_congr rfl fun j => ?_
        by_cases hj : j = i
        · subst hj; simp [hl]
        · simp [hj]
      rw [hst]
      exact id
  | run i t ps l nx q hloc hv hl =>
    have hin := hL.loc t i l hloc
    have quiet : Ev.delivered (nx.event t) = none → ChanEv.popFailed (.inner i (nx.event t) : ChanEv Tid T) = false →
        (l.popping = none ∨ ∃ l', nx.loc = some l' ∧ l'.isOverflow = false) →
        PopKind cfg c s (.inner i (nx.event t)) { s with
          queues := update s.queues i q, ctl := s.ctlAfter cfg (nx.event t) } := by
      intro hd hf h
      refine PopKind.still (fun j => ?_) (by simp [ChanEv.received, hd]) hf fun n => ?_
      · by_cases hj : i = j <;> simp [ChanEv.at, hj, hd]
      · grind [popStage, stage_run_same, tracks_pop]
    -- A thread at a point of `pop` is `c`, at the queue of its ticket.
    have popper : PopAt l → t = c ∧ popStage s c = .entered i () := by
      intro hp
      have hat : popStage s t = .entered i () := by
        rw [popStage, stage_inside hin, hloc]
        cases hp <;> rfl
      have htc : t = c := by grind
      exact ⟨htc, htc ▸ hat⟩
    cases hv with
    | pushSleep hp _ _ _ _ => exact quiet rfl rfl (.inl (by cases hp <;> rfl))
    | pushClosed hp _ _ => exact quiet rfl rfl (.inl (by cases hp <;> rfl))
    | pushDiscard hp _ _ _ _ => exact quiet rfl rfl (.inl (by cases hp <;> rfl))
    | pushStore hp _ _ _ => exact quiet rfl rfl (.inl (by cases hp <;> rfl))
    | pushOverflow hp _ _ _ => exact quiet rfl rfl (.inl (by cases hp <;> rfl))
    | overflowSleep _ _ _ => exact quiet rfl rfl (.inl rfl)
    | overflowRet _ _ => exact quiet rfl rfl (.inl rfl)
    | popSleep _ _ _ _ => exact quiet rfl rfl (.inr ⟨_, rfl, rfl⟩)
    | popClosed hp he hc _ =>
      obtain ⟨rfl, hst⟩ := popper hp
      exact PopKind.failed i (hL.inside_lt t i _ hin) hst hc he rfl
    | popTake hp _ =>
      obtain ⟨rfl, hst⟩ := popper hp
      exact PopKind.take i _ hst (stage_ret tracks_pop hin) rfl rfl
    | close _ => exact quiet rfl rfl (.inl rfl)
    | isClosed _ => exact quiet rfl rfl (.inl rfl)

theorem consumer_step (hL : Linked cfg s) (hown : ∀ t, t ≠ c → popStage s t = .out) (hok : OneConsumer c a)
    (h : CStep cfg s a e s') : ∀ t, t ≠ c → popStage s' t = .out := by
  intro t ht
  refine stage_out_step tracks_pop hL h (hown t ht) fun o ho => ?_
  subst ho
  cases o with
  | pop => exact absurd hok ht
  | _ => rfl

end Pops

/-! ## Runs -/

section Runs

variable [Fintype Tid] [DecidableEq Tid] {cfg : ChanConfig} {c : Tid} {s s' : ChanState Tid T} {a : ChanAct Tid T} {e : ChanEv Tid T}
  {es es' : List (ChanEv Tid T)} {raw : Nat → Nat → Item (Item T)}

/-- What the steps allowed keep. -/
structure DrainInv (cfg : ChanConfig) (c : Tid) (es : List (ChanEv Tid T)) (s : ChanState Tid T) : Prop where
  linked : Linked cfg s
  counts : Counts cfg es s
  consumer : ∀ t, t ≠ c → popStage s t = .out
  pops : (∀ e ∈ es, e.popFailed = false) → Pops cfg c es s

/-- The steps a drain allows. -/
def DrainStep (cfg : ChanConfig) (c : Tid) (s : ChanState Tid T) (a : ChanAct Tid T) : Prop := OneConsumer c a ∧ Orderly cfg s a

section

variable (hcap : 0 < cfg.queue.arg) (hp : cfg.queue.policy = .blocking)

include hcap hp

theorem run_pushKind (hL : Linked cfg s)
    (hr : RunIf (chanExec cfg) (DrainStep cfg c) (chanInit Tid raw) es s) (hok : Orderly cfg s a) (h : CStep cfg s a e s') :
    PushKind cfg s e s' :=
  have hov := overflow_of_arg_pos hcap
  h.pushKind hp hov hL (run_chan_ringOk hr) (fun i => run_no_overflow hov (run_project hr i)) hok

theorem run_drainInv
    (h : RunIf (chanExec cfg) (DrainStep cfg c) (chanInit Tid raw) es s) : DrainInv cfg c es s := by
  refine chan_invariant (P := DrainInv cfg c) ?_ ?_ h
  · refine ⟨Linked.init cfg raw, ⟨fun _ => ⟨0, rfl, fun i _ => ?_⟩, fun i _ hc => (Bool.false_ne_true hc).elim, fun _ _ => rfl⟩,
      fun _ _ => rfl, fun _ => ⟨fun i _ => (count_zero _).symm, rfl⟩⟩
    have h0 : flyAt (chanInit Tid raw) i = 0 := Finset.sum_eq_zero fun _ _ => rfl
    rw [h0, count_zero]
    rfl
  · rintro es s a e s' hr hI ⟨hok, hok'⟩ hst
    have hk := run_pushKind hcap hp hI.linked hr hok' hst
    refine ⟨hI.linked.step hst, hI.counts.step hk hok' hst, consumer_step hI.linked hI.consumer hok hst, fun hf => ?_⟩
    exact (hI.pops fun f hm => hf f (by simp [hm])).step (hst.popKind hI.linked hI.consumer) (hf e (by simp))

/-- Once a queue is closed no push returns true. -/
theorem run_accepts_nothing {s1 : ChanState Tid T}
    (h1 : RunIf (chanExec cfg) (DrainStep cfg c) (chanInit Tid raw) es s1) {k : Nat} (hk : k < cfg.length)
    (hc : s1.closedAt k = true) (h : RunIf (chanExec cfg) (DrainStep cfg c) s1 es' s) :
    s.closedAt k = true ∧ chanAccepted es' = [] := by
  induction h with
  | nil => exact ⟨hc, rfl⟩
  | snoc hr hok hx ih =>
    have hrun := h1.trans hr
    have hst := chan_step (run_chan_ringOk hrun) hx
    have hI := run_drainInv hcap hp hrun
    have hc' := hst.closedAt_mono ih.1
    refine ⟨hc', ?_⟩
    rw [chanAccepted_snoc, ih.2, (run_pushKind hcap hp hI.linked hrun hok.2 hst).accepted_none hk hc']
    rfl

end

omit [Fintype Tid] [DecidableEq Tid] in
theorem mem_acceptedAt {x : Item T} (h : x ∈ chanAccepted es) : ∃ i, ∃ y ∈ acceptedAt es i, y.val = x := by
  obtain ⟨e, he, hx⟩ := mem_filterMap.1 h
  cases e with
  | call t n o => cases hx
  | inner i f =>
    obtain ⟨y, hy, hyx⟩ := Option.map_eq_some_iff.1 hx
    exact ⟨i, y, mem_filterMap.2 ⟨f, mem_filterMap.2 ⟨_, he, by simp [ChanEv.at]⟩, hy⟩, hyx⟩

omit [Fintype Tid] [DecidableEq Tid] in
theorem mem_chanReceived {i : Nat} {y : Item (Item T)} (h : y ∈ deliveredAt es i) : y.val ∈ chanReceived es := by
  obtain ⟨f, hf, hy⟩ := mem_filterMap.1 h
  obtain ⟨e, he, hat⟩ := mem_filterMap.1 hf
  cases e with
  | call t n o => cases hat
  | inner j f' =>
    simp only [ChanEv.at] at hat
    split at hat
    · cases hat
      exact mem_filterMap.2 ⟨_, he, by simp [ChanEv.received, hy]⟩
    · cases hat

theorem drained (hcap : 0 < cfg.queue.arg) (hp : cfg.queue.policy = .blocking)
    (h : RunIf (chanExec cfg) (DrainStep cfg c) (chanInit Tid raw) es s) (hf : ∀ e ∈ es, e.popFailed = false) {i : Nat}
    (hi : i < cfg.length) (hst : popStage s c = .entered i ()) (hc : s.closedAt i = true)
    (he : contents cfg.queue (s.queues i).shared = []) {x : Item T} (hx : x ∈ chanAccepted es) : x ∈ chanReceived es := by
  have hI := run_drainInv hcap hp h
  have hbal : ∀ j, deliveredAt es j ++ contents cfg.queue (s.queues j).shared = acceptedAt es j :=
    fun j => run_balance hp (overflow_of_arg_pos hcap) (run_project h j)
  obtain ⟨n, hn⟩ := hI.counts.shut i hi hc
  have hP := hI.pops hf
  have ht := hP.ticket
  rw [hst] at ht
  -- The queue of the pop has delivered all it has accepted, so the pops are as many as the pushes.
  have hle : n ≤ (chanReceived es).length := by
    refine le_of_count_le (K := cfg.length) (le_of_eq ?_)
    rw [← ht.1, ← hn i hi, ← hP.taken i hi, ← hbal i, he, append_nil]
  obtain ⟨j, y, hy, rfl⟩ := mem_acceptedAt hx
  have hj : j < cfg.length := by
    by_contra hge
    rw [hI.counts.range j (not_lt.1 hge)] at hy
    cases hy
  have hnil : contents cfg.queue (s.queues j).shared = [] := by
    have hlen := congrArg List.length (hbal j)
    rw [length_append, hn j hj, hP.taken j hj] at hlen
    have := count_monotone (fun k => k % cfg.length = j) hle
    exact eq_nil_of_length_eq_zero (by omega)
  rw [← hbal j, hnil, append_nil] at hy
  exact mem_chanReceived hy

/-- Draining a channel with any number of queues, a policy that blocks and queues with a buffer. One thread pops, any number of threads
push and close. In every run whose steps are orderly: every value whose push returned true, before or behind, was received before
the first pop that returned false, and no push returns true after `is_closed` has. With one queue every step is orderly. -/
theorem sharded_drain (hcap : 0 < cfg.queue.arg) (hp : cfg.queue.policy = .blocking)
    (h : RunIf (chanExec cfg) (DrainStep cfg c) (chanInit Tid raw) es s) :
    (∀ es₁ e es₂, es = es₁ ++ e :: es₂ → (∀ f ∈ es₁, f.popFailed = false) → e.popFailed = true →
      ∀ x ∈ chanAccepted es, x ∈ chanReceived es₁) ∧
    (∀ es₁ e es₂, es = es₁ ++ e :: es₂ → e.saidClosed = true → chanAccepted es₂ = []) := by
  refine ⟨fun es₁ e es₂ he hf hpf x hx => ?_, fun es₁ e es₂ he hsc => ?_⟩
  · rw [append_cons] at he
    subst he
    obtain ⟨s2, h2, h3⟩ := h.of_append
    obtain ⟨s1, a, h1, _, hex⟩ := h2.of_snoc
    have hI := run_drainInv hcap hp h1
    have hst := chan_step (run_chan_ringOk h1) hex
    cases hst.popKind hI.linked hI.consumer with
    | still _ _ hf' _ => rw [hf'] at hpf; cases hpf
    | take i y _ _ _ he => rw [he] at hpf; cases hpf
    | failed i hi hstage hc hempty he =>
      -- All values were accepted before the queue was closed.
      obtain ⟨_, hacc⟩ := run_accepts_nothing hcap hp h2 hi (hst.closedAt_mono hc) h3
      refine drained hcap hp h1 hf hi hstage hc hempty ?_
      simp only [chanAccepted, filterMap_append] at hx hacc ⊢
      rw [hacc, he] at hx
      simpa [ChanEv.accepted, Ev.accepted] using hx
  · rw [append_cons] at he
    subst he
    obtain ⟨s2, h2, h3⟩ := h.of_append
    obtain ⟨s1, a, h1, _, hex⟩ := h2.of_snoc
    have hst := chan_step (run_chan_ringOk h1) hex
    obtain ⟨i, hi, hc⟩ := hst.saidClosed (run_drainInv hcap hp h1).linked hsc
    exact (run_accepts_nothing hcap hp h2 hi (hst.closedAt_mono hc) h3).2

end Runs

section Decidable

instance [DecidableEq Tid] (c : Tid) (a : ChanAct Tid T) : Decidable (OneConsumer c a) :=
  match a with
  | .call t .pop => inferInstanceAs (Decidable (t = c))
  | .call _ (.push _) => isTrue trivial
  | .call _ .close => isTrue trivial
  | .call _ .isClosed => isTrue trivial
  | .enter _ => isTrue trivial
  | .inner _ _ => isTrue trivial

instance (cfg : ChanConfig) (s : ChanState Tid T) : Decidable (AllOpen cfg s) :=
  inferInstanceAs (Decidable (∀ i < cfg.length, s.closedAt i = false))

instance [Fintype Tid] (cfg : ChanConfig) (s : ChanState Tid T) : Decidable (LastTickets cfg s) :=
  inferInstanceAs (Decidable (∃ r < cfg.length, (r + flying cfg s) % cfg.length = s.push % cfg.length ∧
    ∀ i < cfg.length, flyAt s i = Nat.count (fun k => (r + k) % cfg.length = i) (flying cfg s)))

instance [Fintype Tid] [DecidableEq T] (cfg : ChanConfig) (s : ChanState Tid T) (a : ChanAct Tid T) : Decidable (Orderly cfg s a) :=
  match a with
  | .inner i (.run t _) => inferInstanceAs (Decidable (cfg.shift = 0 ∨ ∀ l ∈ (s.queues i).loc t,
      (l.pushing ≠ none → s.closedAt i = false → 0 < freeCount cfg.queue (s.queues i).shared → AllOpen cfg s) ∧
      (l.isClose = true → AllOpen cfg s → LastTickets cfg s)))
  | .inner _ (.call _ _) => isTrue trivial
  | .inner _ (.wake _) => isTrue trivial
  | .call _ _ => isTrue trivial
  | .enter _ => isTrue trivial

instance [Fintype Tid] [DecidableEq Tid] [DecidableEq T] (cfg : ChanConfig) (c : Tid) (s : ChanState Tid T) (a : ChanAct Tid T) :
    Decidable (DrainStep cfg c s a) := inferInstanceAs (Decidable (OneConsumer c a ∧ Orderly cfg s a))

end Decidable

/-- The actions by which the thread `t` closes the queue `i`. -/
def closeThrough (t : Tid) (i : Nat) : List (ChanAct Tid Nat) := [.enter t, .inner i (.run t [])]

/-- The events by which the thread `t` closes the queue `i`, the call with number `m` of the queue. -/
def closedThrough (t : Tid) (i m : Nat) : List (ChanEv Tid Nat) := [.inner i (.call t m .close), .inner i (.ret t .closed)]

/-- The events of a run up to a pop that returns false: `p` pushes two values, `t` closes the channel, and `c` pops the
values. -/
def closedAfter (p c t : Tid) : List (ChanEv Tid Nat) :=
  pushedThrough p ⟨7, 0⟩ 0 0 true ++ pushedThrough p ⟨8, 1⟩ 1 0 true ++ [.call t 2 .close] ++ closedThrough t 0 1 ++ closedThrough t 1 1 ++
    poppedThrough c (some ⟨⟨7, 0⟩, 0⟩) 3 0 2 ++ poppedThrough c (some ⟨⟨8, 1⟩, 0⟩) 4 1 2 ++ [.call c 5 .pop, .inner 0 (.call c 3 .pop)]

/-- When a pop returns false at the end of `closedAfter`, both values have been received. -/
theorem sharded_drain_closedAfter : ∃ s,
    RunIf (chanExec (twoQueues .blocking)) (DrainStep (twoQueues .blocking) 1) (chanInit (Fin 3) fun _ _ => ⟨⟨0, 0⟩, 0⟩)
      (closedAfter 0 1 2 ++ [.inner 0 (.ret 1 (.popped none))]) s ∧
    chanAccepted (closedAfter (0 : Fin 3) 1 2) = [⟨7, 0⟩, ⟨8, 1⟩] ∧
    ∀ x ∈ chanAccepted (closedAfter 0 1 2 ++ [.inner 0 (.ret 1 (.popped none))]), x ∈ chanReceived (closedAfter (0 : Fin 3) 1 2) := by
  have hrun : ∃ s, Run (guarded (chanExec (twoQueues .blocking)) (DrainStep (twoQueues .blocking) 1))
      (chanInit (Fin 3) fun _ _ => ⟨⟨0, 0⟩, 0⟩) (closedAfter 0 1 2 ++ [.inner 0 (.ret 1 (.popped none))]) s :=
    exists_run_of_events _ _ (pushThrough 0 7 0 ++ pushThrough 0 8 1 ++ [.call 2 .close] ++ closeThrough 2 0 ++ closeThrough 2 1 ++
      popThrough 1 0 ++ popThrough 1 1 ++ popThrough 1 0) (by decide +kernel)
  obtain ⟨s, h⟩ := hrun
  have h' := runIf_of_guarded h
  exact ⟨s, h', rfl, (sharded_drain (by decide) rfl h').1 (closedAfter 0 1 2) _ [] rfl (by decide) rfl⟩

/-- The events of a run in which `t` has closed the first of two queues, and a push of `p` has found it closed, when `is_closed` returns
true. -/
def halfClosed (p t : Tid) : List (ChanEv Tid Nat) :=
  [.call t 0 .close] ++ closedThrough t 0 0 ++ pushedThrough p ⟨7, 1⟩ 0 1 false ++ [.call p 2 .isClosed, .inner 0 (.call p 2 .isClosed)]

/-- The run goes on: `p` pushes a value into the second queue, and the pop of `c` visits the first. -/
def halfClosedRest (p c : Tid) : List (ChanEv Tid Nat) :=
  pushedThrough p ⟨8, 3⟩ 1 0 true ++ [.call c 4 .pop, .inner 0 (.call c 3 .pop)]

/-- Without the condition a value accepted is not received before the first pop that returns false, and it may have been accepted
after `is_closed` returned true. -/
theorem sharded_drain_false :
    (¬∀ es s, RunIf (chanExec (twoQueues .blocking)) (fun _ a => OneConsumer 1 a) (chanInit (Fin 3) fun _ _ => ⟨⟨0, 0⟩, 0⟩) es s →
      ∀ es₁ e es₂, es = es₁ ++ e :: es₂ → (∀ f ∈ es₁, f.popFailed = false) → e.popFailed = true →
        ∀ x ∈ chanAccepted es, x ∈ chanReceived es₁) ∧
    (¬∀ es s, RunIf (chanExec (twoQueues .blocking)) (fun _ a => OneConsumer 1 a) (chanInit (Fin 3) fun _ _ => ⟨⟨0, 0⟩, 0⟩) es s →
      ∀ es₁ e es₂, es = es₁ ++ e :: es₂ → e.saidClosed = true → chanAccepted es₂ = []) := by
  have hrun : ∃ s, Run (guarded (chanExec (twoQueues .blocking)) (fun _ a => OneConsumer 1 a))
      (chanInit (Fin 3) fun _ _ => ⟨⟨0, 0⟩, 0⟩)
      (halfClosed 0 2 ++ .inner 0 (.ret 0 (.isClosed true)) :: (halfClosedRest 0 1 ++ [.inner 0 (.ret 1 (.popped none))])) s :=
    exists_run_of_events _ _ ([.call 2 .close] ++ closeThrough 2 0 ++ pushThrough 0 7 0 ++
      [.call 0 .isClosed, .enter 0, .inner 0 (.run 0 [])] ++ pushThrough 0 8 1 ++ popThrough 1 0) (by decide +kernel)
  obtain ⟨s, h⟩ := hrun
  have h' := runIf_of_guarded h
  constructor
  · intro hall
    have := hall _ s h' (halfClosed 0 2 ++ .inner 0 (.ret 0 (.isClosed true)) :: halfClosedRest 0 1) _ [] rfl (by decide) rfl ⟨8, 3⟩ (by decide)
    exact absurd this (by decide)
  · intro hall
    exact absurd (hall _ s h' (halfClosed 0 2) _ _ rfl rfl) (by decide)

end CsLearning.Chan
