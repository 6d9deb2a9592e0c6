import CsLearning.Chan.Ring

/-!
# `chan.h`: what each critical section does

`View` lists, for each program point, everything its critical section can do to the values in the queue, the flag `closed_` and the
counter `first_`, with the condition under which it does it. `crit_view` says that the sections of the source do nothing else.
Statements about the queue are proved from `View`, not from the code.
-/

open List

namespace CsLearning.Chan

open Word

variable {T : Type} (cfg : Config)

/-- The ring and the flag are as before. -/
structure Same (q q' : QueueT (Item T)) : Prop where
  closed : q'.closed = q.closed
  first : q'.first = q.first
  new : q'.new = q.new
  data : q'.data = q.data

/-- The value `x` has been stored in an open queue, behind the values in it or in the place of the oldest. Below the bound of the
counters only `new_` moves. -/
structure Stored (q : QueueT (Item T)) (x : Item T) (q' : QueueT (Item T)) : Prop where
  ring : RingOk cfg q'
  closed : q'.closed = false
  contents :
    ((contents cfg q).length < cfg.capacity ∧ contents cfg q' = contents cfg q ++ [x]) ∨
    ((contents cfg q).length = cfg.capacity ∧ cfg.policy = .discardOld ∧ contents cfg q' = (contents cfg q).tail ++ [x])
  first : cfg.policy = .blocking → q.new + 1 < cfg.maxCounter → q'.first = q.first ∧ q'.new = q.new + 1

/-- The oldest value `x` has been taken. -/
structure Taken (q : QueueT (Item T)) (x : Item T) (q' : QueueT (Item T)) : Prop where
  ring : RingOk cfg q'
  closed : q'.closed = q.closed
  contents : contents cfg q = x :: contents cfg q'
  first : q'.first = q.first + 1
  new : q'.new = q.new

/-- The queue has been closed; a queue without buffer has dropped the value nobody took. -/
structure Closing (q q' : QueueT (Item T)) : Prop where
  ring : RingOk cfg q'
  closed : q'.closed = true
  contents : contents cfg q' = if cfg.overflow then [] else contents cfg q
  first : q'.first = q.first
  new : q'.new ≤ q.new

/-- What the critical section of a point can do, and how it ends. -/
inductive View (q : QueueT (Item T)) : Loc T → QueueT (Item T) → Next (Loc T) Cond (Res T) → Prop where
  | pushSleep {l : Loc T} {x : Item T} {q' : QueueT (Item T)} : PushAt x l → cfg.policy = .blocking →
      (contents cfg q).length = cfg.capacity → q.closed = false → Same q q' →
      View q l q' (.wait .cvPush (.pushWait x))
  | pushClosed {l : Loc T} {x : Item T} {q' : QueueT (Item T)} : PushAt x l → q.closed = true → Same q q' →
      View q l q' (.ret (.pushed x false))
  | pushDiscard {l : Loc T} {x : Item T} {q' : QueueT (Item T)} : PushAt x l → cfg.policy = .discard →
      (contents cfg q).length = cfg.capacity → q.closed = false → Same q q' →
      View q l q' (.ret (.pushed x false))
  | pushStore {l : Loc T} {x : Item T} {q' : QueueT (Item T)} : PushAt x l → q.closed = false → cfg.overflow = false →
      Stored cfg q x q' → View q l q' (.ret (.pushed x true))
  | pushOverflow {l : Loc T} {x : Item T} {q' : QueueT (Item T)} : PushAt x l → q.closed = false → cfg.overflow = true →
      Stored cfg q x q' → View q l q' (.wait .cvOverflow (.overflowWait x q'.first))
  | overflowSleep {x : Item T} {old : Nat} {q' : QueueT (Item T)} : old = q.first → q.closed = false → Same q q' →
      View q (.overflowWait x old) q' (.wait .cvOverflow (.overflowWait x old))
  | overflowRet {x : Item T} {old : Nat} {q' : QueueT (Item T)} : old ≠ q.first ∨ q.closed = true → Same q q' →
      View q (.overflowWait x old) q' (.ret (.pushed x (!q.closed)))
  | popSleep {l : Loc T} {q' : QueueT (Item T)} : PopAt l → contents cfg q = [] → q.closed = false → Same q q' →
      View q l q' (.wait .cvPop .popWait)
  | popClosed {l : Loc T} {q' : QueueT (Item T)} : PopAt l → contents cfg q = [] → q.closed = true → Same q q' →
      View q l q' (.ret (.popped none))
  | popTake {l : Loc T} {x : Item T} {q' : QueueT (Item T)} : PopAt l → Taken cfg q x q' →
      View q l q' (.ret (.popped (some x)))
  | close {q' : QueueT (Item T)} : Closing cfg q q' → View q .close q' (.ret .closed)
  | isClosed {q' : QueueT (Item T)} : Same q q' → View q .isClosed q' (.ret (.isClosed q.closed))

variable {cfg} {q q' : QueueT (Item T)}

theorem Same.contents (h : Same q q') : contents cfg q' = contents cfg q := by
  simp only [Chan.contents, h.first, h.new, h.data]

theorem RingOk.of_eq (hq : RingOk cfg q) (hf : q'.first = q.first) (hn : q'.new = q.new) : RingOk cfg q' :=
  ⟨by rw [hf, hn]; exact hq.first_le, by rw [hf, hn]; exact hq.new_le, by rw [hn]; exact hq.new_lt⟩

theorem Same.ringOk (h : Same q q') (hq : RingOk cfg q) : RingOk cfg q' := hq.of_eq h.first h.new

/-- What a section does to the queue: nothing, or it stores a value, takes one or closes the queue. -/
theorem View.change {l : Loc T} {nx : Next (Loc T) Cond (Res T)} (h : View cfg q l q' nx) :
    nx ≠ .ret .closed ∧ (Same q q' ∨ (∃ x, PushAt x l ∧ q.closed = false ∧ Stored cfg q x q') ∨ ∃ x, Taken cfg q x q') ∨
      nx = .ret .closed ∧ l = .close ∧ Closing cfg q q' := by
  cases h with
  | pushSleep _ _ _ _ hs => exact .inl ⟨by simp, .inl hs⟩
  | pushClosed _ _ hs => exact .inl ⟨by simp, .inl hs⟩
  | pushDiscard _ _ _ _ hs => exact .inl ⟨by simp, .inl hs⟩
  | pushStore hp ho _ hs => exact .inl ⟨by simp, .inr (.inl ⟨_, hp, ho, hs⟩)⟩
  | pushOverflow hp ho _ hs => exact .inl ⟨by simp, .inr (.inl ⟨_, hp, ho, hs⟩)⟩
  | overflowSleep _ _ hs => exact .inl ⟨by simp, .inl hs⟩
  | overflowRet _ hs => exact .inl ⟨by simp, .inl hs⟩
  | popSleep _ _ _ hs => exact .inl ⟨by simp, .inl hs⟩
  | popClosed _ _ _ hs => exact .inl ⟨by simp, .inl hs⟩
  | popTake _ ht => exact .inl ⟨by simp, .inr (.inr ⟨_, ht⟩)⟩
  | close hc => exact .inr ⟨rfl, rfl, hc⟩
  | isClosed hs => exact .inl ⟨by simp, .inl hs⟩

theorem View.ringOk {l : Loc T} {nx : Next (Loc T) Cond (Res T)} (h : View cfg q l q' nx) (hq : RingOk cfg q) : RingOk cfg q' := by
  rcases h.change with ⟨_, hs | ⟨x, _, _, hs⟩ | ⟨x, ht⟩⟩ | ⟨_, _, hc⟩
  · exact hs.ringOk hq
  · exact hs.ring
  · exact ht.ring
  · exact hc.ring

/-- Only the section of `close` changes the flag. -/
theorem View.closed_eq {l : Loc T} {nx : Next (Loc T) Cond (Res T)} (h : View cfg q l q' nx) (hn : nx ≠ .ret .closed) : q'.closed = q.closed := by
  rcases h.change with ⟨_, hs | ⟨x, _, ho, hs⟩ | ⟨x, ht⟩⟩ | ⟨hc, _⟩
  · exact hs.closed
  · rw [hs.closed, ho]
  · exact ht.closed
  · exact absurd hc hn

namespace SectionsAux

theorem pushThreadUnsafe_frame (cfg : Config) (q : QueueT (Item T)) (x : Item T) :
    (pushThreadUnsafe cfg q x).1.closed = q.closed ∧ (pushThreadUnsafe cfg q x).1.cvPush = q.cvPush ∧
      (pushThreadUnsafe cfg q x).1.cvPop = q.cvPop := by
  have hb : ∀ r : QueueT (Item T), (boundPos cfg r).closed = r.closed ∧ (boundPos cfg r).cvPush = r.cvPush ∧ (boundPos cfg r).cvPop = r.cvPop := by
    intro r
    unfold boundPos
    split <;> exact ⟨rfl, rfl, rfl⟩
  unfold pushThreadUnsafe
  split
  · exact hb _
  · split
    · exact hb _
    · exact ⟨rfl, rfl, rfl⟩

/-- Below the bound of the counters a push that finds room moves `new_` only. -/
theorem pushThreadUnsafe_counters (hq : RingOk cfg q) (hf : 0 < freeCount cfg q) (hb : q.new + 1 < cfg.maxCounter) (x : Item T) :
    (pushThreadUnsafe cfg q x).1.first = q.first ∧ (pushThreadUnsafe cfg q x).1.new = q.new + 1 := by
  have hn : add 64 q.new 1 = q.new + 1 := add_of_lt hq.new_succ_lt
  rw [pushThreadUnsafe, if_pos hf, hn]
  simp only [boundPos]
  rw [if_neg (by omega)]
  exact ⟨rfl, rfl⟩

theorem pushThreadUnsafe_cases (hq : RingOk cfg q) (ho : q.closed = false) (hpred : pushPred cfg q = true) (x : Item T) :
    (∃ q', pushThreadUnsafe cfg q x = (q', true) ∧ Stored cfg q x q') ∨
    (pushThreadUnsafe cfg q x = (q, false) ∧ cfg.policy = .discard ∧ (contents cfg q).length = cfg.capacity) := by
  have hle := hq.length_le
  have hfc := hq.freeCount_eq
  have hcl := (pushThreadUnsafe_frame cfg q x).1
  by_cases hf : 0 < freeCount cfg q
  · obtain ⟨q', he, hr, hc⟩ := hq.push_free hf x
    have hcnt := fun hb => pushThreadUnsafe_counters hq hf hb x
    rw [he] at hcl hcnt
    exact Or.inl ⟨q', he, hr, hcl.trans ho, Or.inl ⟨by omega, hc⟩, fun _ hb => hcnt hb⟩
  · have hfull : (contents cfg q).length = cfg.capacity := by omega
    cases hp : cfg.policy with
    | blocking =>
      -- A blocking push only gets here with room or after `close`.
      simp [pushPred, hp, hf, ho] at hpred
    | discardOld =>
      obtain ⟨q', he, hr, hc⟩ := hq.push_discardOld (by omega) hp x
      rw [he] at hcl
      exact Or.inl ⟨q', he, hr, hcl.trans ho, Or.inr ⟨hfull, hp, hc⟩, fun hb => absurd (hp.symm.trans hb) (by decide)⟩
    | discard =>
      exact Or.inr ⟨by rw [pushThreadUnsafe, if_neg hf, if_neg (by rw [hp]; decide)], rfl, hfull⟩

variable {p : QueueT (Item T)}

theorem stored_congr {x : Item T} (cv : CvT) (h : Stored cfg p x q') (hs : Same q p) : Stored cfg q x { q' with cvPop := cv } := by
  have hc : contents cfg p = contents cfg q := hs.contents
  refine ⟨h.ring.of_eq rfl rfl, h.closed, ?_, ?_⟩
  · have := h.contents
    rw [hc] at this
    exact this
  · have := h.first
    rw [hs.first, hs.new] at this
    exact this

theorem pushBody_view (hq : RingOk cfg q) (hs : Same q p) (hpred : pushPred cfg q = true) {x : Item T}
    {l : Loc T} (hl : PushAt x l) : View cfg q l (pushBody cfg p x).1 (pushBody cfg p x).2.2 := by
  by_cases hc : q.closed = true
  · have hpb : pushBody cfg p x = (p, [], .ret (.pushed x false)) := by rw [pushBody, if_pos (hs.closed.trans hc)]
    rw [hpb]
    exact View.pushClosed hl hc hs
  · have ho : q.closed = false := by simpa using hc
    have hpo : p.closed = false := hs.closed.trans ho
    have hpp : pushPred cfg p = true := by
      rw [← hpred]
      unfold pushPred freeCount
      rw [hs.first, hs.new, hs.closed]
    have hif : ¬p.closed = true := by simp [hpo]
    obtain ⟨p', he, hst⟩ | ⟨he, hd, hf⟩ := pushThreadUnsafe_cases (hs.ringOk hq) hpo hpp x
    · have hst' := stored_congr (p'.cvPop.notifyOne .cvPop).1 hst hs
      have hcl : p'.closed = false := hst.closed
      by_cases hov : cfg.overflow = true
      · have hpb : pushBody cfg p x = ({ p' with cvPop := (p'.cvPop.notifyOne .cvPop).1 }, (p'.cvPop.notifyOne .cvPop).2,
            .wait .cvOverflow (.overflowWait x p'.first)) := by
          rw [pushBody, if_neg hif, he]
          simp [hov, Chan.pushOverflow, hcl]
        rw [hpb]
        exact View.pushOverflow hl ho hov hst'
      · have hpb : pushBody cfg p x = ({ p' with cvPop := (p'.cvPop.notifyOne .cvPop).1 }, (p'.cvPop.notifyOne .cvPop).2, .ret (.pushed x true)) := by
          rw [pushBody, if_neg hif, he]
          simp [hov, hcl]
        rw [hpb]
        exact View.pushStore hl ho (by simpa using hov) hst'
    · have hpb : pushBody cfg p x = (p, [], .ret (.pushed x false)) := by
        rw [pushBody, if_neg hif, he]
      rw [hpb]
      refine View.pushDiscard hl hd ?_ ho hs
      rw [← hs.contents]
      exact hf

theorem popBody_view (hq : RingOk cfg q) (hs : Same q p) (hpred : popPred q = true) {l : Loc T}
    (hl : PopAt l) : View cfg q l (popBody cfg p).1 (popBody cfg p).2.2 := by
  have hem : isEmpty p = isEmpty q := by simp only [isEmpty, hs.first, hs.new]
  by_cases he : isEmpty q = true
  · have hpb : popBody cfg p = (p, [], .ret (.popped none)) := by rw [popBody, if_pos (hem.trans he)]
    rw [hpb]
    have hc : q.closed = true := by simpa [popPred, he] using hpred
    exact View.popClosed hl (hq.isEmpty_iff.1 he) hc hs
  · have hne : isEmpty p = false := by rw [hem]; simpa using he
    obtain ⟨hr, hc⟩ := (hs.ringOk hq).pop hne
    have hlt := (hs.ringOk hq).new_succ_lt
    have hfn : p.first < p.new := by simpa [isEmpty] using hne
    have hpb : popBody cfg p = ({ p with first := add 64 p.first 1, cvPush := (p.cvPush.notifyOne .cvPush).1 },
        (if cfg.overflow then [.one .cvOverflow] else []) ++ (p.cvPush.notifyOne .cvPush).2,
        .ret (.popped (some (p.data (slot cfg p.first))))) := by
      rw [popBody, if_neg (by simp [hne])]
    rw [hpb]
    refine View.popTake hl ⟨hr.of_eq rfl rfl, hs.closed, ?_, ?_, hs.new⟩
    · rw [← hs.contents, hc]
      rfl
    · rw [add_of_lt (by omega), hs.first]

theorem closeBody_view (hq : RingOk cfg q) : View cfg q .close (closeBody cfg q).1 (closeBody cfg q).2.2 := by
  refine View.close ?_
  simp only [closeBody]
  by_cases hov : cfg.overflow = true
  · by_cases he : isEmpty q = true
    · have hc := hq.isEmpty_iff.1 he
      have he' : isEmpty ({ q with closed := true } : QueueT (Item T)) = true := he
      simp only [hov, he']
      exact ⟨hq.of_eq rfl rfl, rfl, by rw [if_pos hov]; exact hc, rfl, Nat.le_refl _⟩
    · have hne : isEmpty q = false := by simpa using he
      have hne' : isEmpty ({ q with closed := true } : QueueT (Item T)) = false := hne
      obtain ⟨hr, hc⟩ := hq.unpush hne
      have hlen := hq.length_le
      rw [cfg.capacity_of_overflow hov] at hlen
      have hd : (contents cfg q).dropLast = [] := by
        rw [← length_eq_zero_iff, length_dropLast]
        omega
      have hsub : sub 64 q.new 1 ≤ q.new := by
        have h1 : q.first < q.new := by simpa [isEmpty] using hne
        have h2 := hq.new_succ_lt
        rw [sub_of_le (by omega) (by omega)]
        omega
      simp only [hov, hne']
      exact ⟨hr.of_eq rfl rfl, rfl, by rw [if_pos hov]; exact hc.trans hd, rfl, hsub⟩
  · have hov' : cfg.overflow = false := by simpa using hov
    simp only [hov']
    exact ⟨hq.of_eq rfl rfl, rfl, by rw [if_neg hov]; rfl, rfl, Nat.le_refl _⟩

theorem pushOverflow_view (x : Item T) (old : Nat) : View cfg q (.overflowWait x old) (pushOverflow q [] x old).1 (pushOverflow q [] x old).2.2 := by
  unfold pushOverflow
  split
  · rename_i h
    exact View.overflowRet (by simpa using h) ⟨rfl, rfl, rfl, rfl⟩
  · rename_i h
    simp only [Bool.or_eq_true, decide_eq_true_eq, not_or, not_not] at h
    exact View.overflowSleep h.1 (by simpa using h.2) ⟨rfl, rfl, rfl, rfl⟩

theorem full_of_not_pushPred (hq : RingOk cfg q) (h : ¬pushPred cfg q = true) :
    cfg.policy = .blocking ∧ (contents cfg q).length = cfg.capacity ∧ q.closed = false := by
  simp only [pushPred, Bool.or_eq_true, decide_eq_true_eq, not_or, not_not] at h
  have h1 := hq.freeCount_eq
  have h2 := hq.length_le
  exact ⟨h.1.1, by omega, by simpa using h.2⟩

theorem empty_of_not_popPred (hq : RingOk cfg q) (h : ¬popPred q = true) : contents cfg q = [] ∧ q.closed = false := by
  simp only [popPred, Bool.or_eq_true, Bool.not_eq_true', not_or, Bool.not_eq_false] at h
  exact ⟨hq.isEmpty_iff.1 h.1, by simpa using h.2⟩

end SectionsAux

open SectionsAux

/-- The critical sections of the source do what `View` says and nothing else. -/
theorem crit_view (hq : RingOk cfg q) (l : Loc T) : View cfg q l (crit cfg q l).1 (crit cfg q l).2.2 := by
  cases l with
  | push x =>
    rw [crit]
    split
    · rename_i hp
      exact pushBody_view hq ⟨rfl, rfl, rfl, rfl⟩ hp PushAt.start
    · rename_i hp
      obtain ⟨h1, h2, h3⟩ := full_of_not_pushPred hq hp
      exact View.pushSleep PushAt.start h1 h2 h3 ⟨rfl, rfl, rfl, rfl⟩
  | pushWait x =>
    rw [crit]
    split
    · rename_i hp
      exact pushBody_view (p := { q with cvPush := q.cvPush.leave }) hq ⟨rfl, rfl, rfl, rfl⟩ hp PushAt.wait
    · rename_i hp
      obtain ⟨h1, h2, h3⟩ := full_of_not_pushPred hq hp
      exact View.pushSleep PushAt.wait h1 h2 h3 ⟨rfl, rfl, rfl, rfl⟩
  | overflowWait x old => exact pushOverflow_view x old
  | pop =>
    rw [crit]
    split
    · rename_i hp
      exact popBody_view hq ⟨rfl, rfl, rfl, rfl⟩ hp PopAt.start
    · rename_i hp
      obtain ⟨h1, h2⟩ := empty_of_not_popPred hq hp
      exact View.popSleep PopAt.start h1 h2 ⟨rfl, rfl, rfl, rfl⟩
  | popWait =>
    rw [crit]
    split
    · rename_i hp
      exact popBody_view (p := { q with cvPop := q.cvPop.leave }) hq ⟨rfl, rfl, rfl, rfl⟩ hp PopAt.wait
    · rename_i hp
      obtain ⟨h1, h2⟩ := empty_of_not_popPred hq hp
      exact View.popSleep PopAt.wait h1 h2 ⟨rfl, rfl, rfl, rfl⟩
  | close => exact closeBody_view hq
  | isClosed => exact View.isClosed ⟨rfl, rfl, rfl, rfl⟩

/-! ## The invariant of the counters over runs -/

section Runs

variable {Tid : Type} [DecidableEq Tid] {raw : Nat → Item T}

/-- A step of the queue, seen from the values in it: a call, a wake-up, or a section that `View` describes. -/
inductive QStep (cfg : Config) (s : QState Tid T) : MAct Tid (Op T) → Ev Tid T Cond → QState Tid T → Prop where
  | call {s' : QState Tid T} (t : Tid) (o : Op T) : s.loc t = none → s'.shared = s.shared →
      s'.loc = Function.update s.loc t (some (entry s.calls o)) → s'.calls = s.calls + 1 →
      QStep cfg s (.call t o) (.call t s.calls o) s'
  | wake {s' : QState Tid T} (t : Tid) : s'.shared = s.shared → s'.loc = s.loc → s'.calls = s.calls →
      QStep cfg s (.wake t) (.wake t) s'
  | run {s' : QState Tid T} (t : Tid) (ps : List Tid) (l : Loc T) (nx : Next (Loc T) Cond (Res T)) : s.loc t = some l →
      View cfg s.shared l s'.shared nx → s'.loc = Function.update s.loc t nx.loc → s'.calls = s.calls →
      QStep cfg s (.run t ps) (nx.event t) s'

variable {s s' : QState Tid T} {ok : QState Tid T → MAct Tid (Op T) → Prop} {es : List (Ev Tid T Cond)}

theorem queue_step [Fintype Tid] {a : MAct Tid (Op T)} {e : Ev Tid T Cond} (hq : RingOk cfg s.shared)
    (h : (queue T cfg).exec s a = some (s', e)) : QStep cfg s a e s' := by
  cases Monitor.exec_step h with
  | call t o h1 h2 h3 h4 => exact QStep.call t o h1 h2 h3 h4
  | wake t h1 h2 h3 => exact QStep.wake t h1 h2 h3
  | run t ps l h1 h2 h3 h4 =>
    have hv := crit_view hq l
    exact QStep.run t ps l _ h1 (by rw [h2]; exact hv) h3 h4

theorem QStep.ringOk {a : MAct Tid (Op T)} {e : Ev Tid T Cond} (h : QStep cfg s a e s') (hq : RingOk cfg s.shared) : RingOk cfg s'.shared := by
  cases h with
  | call t o _ h2 _ _ => rwa [h2]
  | wake t h1 _ _ => rwa [h1]
  | run t ps l nx _ hv _ _ => exact hv.ringOk hq

theorem run_ringOk [Fintype Tid] (h : RunIf (queue T cfg).exec ok (queueInit Tid raw) es s) : RingOk cfg s.shared := by
  induction h with
  | nil => exact RingOk.make cfg raw
  | snoc _ _ hx ih => exact (queue_step ih hx).ringOk ih

/-- The invariant rule for the queue: what holds at the start and is kept by every step holds along every run. -/
theorem run_invariant [Fintype Tid] {P : List (Ev Tid T Cond) → QState Tid T → Prop} (h₀ : P [] (queueInit Tid raw))
    (hs : ∀ es s a e s', P es s → ok s a → RingOk cfg s.shared → QStep cfg s a e s' → P (es ++ [e]) s')
    (h : RunIf (queue T cfg).exec ok (queueInit Tid raw) es s) : P es s := by
  induction h with
  | nil => exact h₀
  | snoc hr ho hx ih =>
    have hq := run_ringOk hr
    exact hs _ _ _ _ _ ih ho hq (queue_step hq hx)

/-! ## The ring in every reachable state -/

/-- The assertion in `push_thread_unsafe`, where it is reached. -/
def AssertHolds (cfg : Config) (q : QueueT (Item T)) : Prop := freeCount cfg q = 0 → cfg.policy ≠ .discardOld → cfg.policy = .discard

/-- `push` on a full queue that discards old values. -/
theorem push_discardOld {q : QueueT (Item T)} (hq : RingOk cfg q) (ho : q.closed = false) (hp : cfg.policy = .discardOld)
    (hf : freeCount cfg q = 0) (x : Item T) :
    contents cfg (crit cfg q (.push x)).1 = (contents cfg q).tail ++ [x] ∧ (crit cfg q (.push x)).2.2 = .ret (.pushed x true) := by
  obtain ⟨q', he, -, hc⟩ := hq.push_discardOld hf hp x
  have hcl : q'.closed = false := by rw [← ho, ← (pushThreadUnsafe_frame cfg q x).1, he]
  have hov : cfg.overflow = false := by
    by_contra hov
    rw [cfg.blocking_of_overflow (by simpa using hov)] at hp
    cases hp
  have hpred : pushPred cfg q = true := by simp [pushPred, hp]
  rw [← hc, crit, if_pos hpred, pushBody, if_neg (by simp [ho])]
  simp only [he, hov, hcl, Bool.false_eq_true, if_false]
  exact ⟨rfl, rfl⟩

/-- The ring of a queue in every state that any number of threads reach, for every capacity, policy and `CHAN_MAX_COUNTER`: the counters,
`free_count`, the values and their slots, `reset_pos`, the two ways to push on a full queue without waiting, and the assertion. -/
theorem ring_arithmetic [Fintype Tid] (h : Run (queue T cfg).exec (queueInit Tid raw) es s) :
    s.shared.first ≤ s.shared.new ∧ s.shared.new ≤ s.shared.first + cfg.capacity ∧
    freeCount cfg s.shared = cfg.capacity - (contents cfg s.shared).length ∧
    (∀ i, (contents cfg s.shared)[i]? =
      if s.shared.first + i < s.shared.new then some (s.shared.data ((s.shared.first + i) % cfg.capacity)) else none) ∧
    contents cfg (resetPos cfg s.shared) = contents cfg s.shared ∧
    (∀ x, cfg.policy = .discardOld → freeCount cfg s.shared = 0 → s.shared.closed = false →
      contents cfg (crit cfg s.shared (.push x)).1 = (contents cfg s.shared).tail ++ [x] ∧
        (crit cfg s.shared (.push x)).2.2 = .ret (.pushed x true)) ∧
    (∀ x, cfg.policy = .discard → freeCount cfg s.shared = 0 → s.shared.closed = false →
      crit cfg s.shared (.push x) = (s.shared, [], .ret (.pushed x false))) ∧
    (pushPred cfg s.shared = true → s.shared.closed = false → AssertHolds cfg s.shared) := by
  have hq := run_ringOk h
  refine ⟨hq.first_le, hq.new_le, hq.freeCount_eq, fun i => ?_, ?_, fun x hp hf ho => push_discardOld hq ho hp hf x, fun x hp hf ho => ?_, ?_⟩
  · rw [contents, getElem?_map]
    split_ifs with hi
    · rw [getElem?_range' (by omega)]
      simp [slot]
    · rw [getElem?_eq_none (by rw [length_range']; omega)]
      rfl
  · exact (contents_resetPos cfg hq.first_le (by have := hq.new_succ_lt; omega)).1
  · have hpred : pushPred cfg s.shared = true := by simp [pushPred, hp]
    have hpush : pushThreadUnsafe cfg s.shared x = (s.shared, false) := by simp [pushThreadUnsafe, hf, hp]
    rw [crit, if_pos hpred, pushBody, if_neg (by simp [ho]), hpush]
  · intro hpred ho hf hold
    cases hp : cfg.policy with
    | blocking => simp [pushPred, hp, hf, ho] at hpred
    | discardOld => exact absurd hp hold
    | discard => rfl

/-- Two slots for the newest values, with counters that are set back at four. -/
def newestTwo : Config := ⟨2, .discardOld, 4, by decide, by decide⟩

theorem ring_arithmetic_newestTwo : ∃ es s, Run (queue Nat newestTwo).exec (queueInit (Fin 1) fun _ => ⟨0, 0⟩) es s ∧
    (contents newestTwo s.shared).map Item.val = [8, 9] ∧ contents newestTwo (resetPos newestTwo s.shared) = contents newestTwo s.shared := by
  obtain ⟨s, h, hs⟩ := exists_run_of_view (queue Nat newestTwo).exec (fun s => (contents newestTwo s.shared).map Item.val)
    (queueInit (Fin 1) fun _ => ⟨0, 0⟩)
    [.call 0 (.push 6), .run 0 [], .call 0 (.push 7), .run 0 [], .call 0 (.push 8), .run 0 [], .call 0 (.push 9), .run 0 []] rfl
  exact ⟨_, s, h, hs, (ring_arithmetic h).2.2.2.2.1⟩

end Runs

end CsLearning.Chan
