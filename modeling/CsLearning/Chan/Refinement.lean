import CsLearning.Chan.Sections
import CsLearning.Chan.Simple

/-!
# `chan.simple.h` and `chan.h` have the same traces

The two queues differ in everything but what their callers see: a list against a ring, one condition variable against three, a
counter of pops against the position of the first value. `Sim` relates a state of the one to a state of the other: the same values,
the same flag, the same counter, and every thread at the same point. Each critical section of the one is matched by the section
of the other from the same point (`section_sim`), so each step of the one is matched by steps of the other.

Which threads sleep and which have been notified is not related: a thread may wake on its own, so it can always take its next
section.
-/

open Function Nat

namespace CsLearning.Chan

variable {Tid T : Type}

/-- The shared states are related: the same values in the same order, both open or both closed, and as many pops counted as the
position of the first value says. -/
structure SameQueue (cfg : Config) (q : QueueT (Item T)) (r : SQueue T) : Prop where
  ring : RingOk cfg q
  data : r.data = contents cfg q
  closed : r.closed = q.closed
  count : r.popCount = q.first

/-- A state of `chan.h` and a state of `chan.simple.h` are related, with `k` a bound on the pushes made: the shared states are, every
thread is at the same point, and the pushes that stored a value or may still do so are among the `k`. -/
structure Sim [Fintype Tid] (cfg : Config) (k : Nat) (s : QState Tid T) (t : SState Tid T) : Prop where
  shared : SameQueue cfg s.shared t.shared
  loc : t.loc = s.loc
  calls : t.calls = s.calls
  room : s.shared.new + pushing s.loc ≤ k

/-- Two sections end alike: with the same result, or asleep at the same point. -/
def SameEnd {C C' : Type} (nx : Next (Loc T) C (Res T)) (nx' : Next (Loc T) C' (Res T)) : Prop :=
  nx'.loc = nx.loc ∧ nx'.result = nx.result

/-! ## One section -/

section Sections

variable {cfg : Config} {scfg : SConfig} {q : QueueT (Item T)} {r : SQueue T}

theorem capacity_eq (hp : cfg.policy = .blocking) (ha : scfg.arg = cfg.arg) : scfg.capacity = cfg.capacity ∧ scfg.overflow = cfg.overflow := by
  have hm : cfg.made = cfg.arg := by rw [Config.made, if_neg (by simp [hp])]
  simp only [SConfig.capacity, SConfig.overflow, Config.capacity, Config.overflow, hm, ha, and_self]

theorem SameQueue.length_le (h : SameQueue cfg q r) (hcap : scfg.capacity = cfg.capacity) : r.data.length ≤ scfg.capacity := by
  rw [h.data, hcap]
  exact h.ring.length_le

theorem SameQueue.same {q' : QueueT (Item T)} (h : SameQueue cfg q r) (hs : Same q q') : SameQueue cfg q' r :=
  ⟨hs.ringOk h.ring, h.data.trans hs.contents.symm, h.closed.trans hs.closed.symm, h.count.trans hs.first.symm⟩

/-- What the two sections from one point do, when the section of `chan.h` is known: the section of `chan.simple.h` is a known one,
its queue is related, it ends alike, and `new_` grows only when a push has stored its value. -/
theorem View.sim {q' : QueueT (Item T)} {l : Loc T} {nx : Next (Loc T) Cond (Res T)} (hv : View cfg q l q' nx)
    (hp : cfg.policy = .blocking) (hcap : scfg.capacity = cfg.capacity) (hov : scfg.overflow = cfg.overflow)
    (h : SameQueue cfg q r) (hroom : pushTally (some l) = 1 → q.new + 1 < cfg.maxCounter) :
    ∃ r' ns nx', SView scfg r l r' ns nx' ∧ SameQueue cfg q' r' ∧ SameEnd nx nx' ∧ q'.new + pushTally nx.loc ≤ q.new + pushTally (some l) := by
  have hlen : r.data.length = (contents cfg q).length := by rw [h.data]
  have stored : ∀ {x : Item T}, PushAt x l → Stored cfg q x q' → q.closed = false →
      SameQueue cfg q' { r with data := r.data ++ [x] } ∧ (contents cfg q).length < cfg.capacity ∧ q'.new = q.new + 1 ∧
      q'.first = q.first := by
    intro x hl hst ho
    obtain ⟨hf, hn⟩ := hst.first hp (hroom hl.tally)
    rcases hst.contents with ⟨hlt, hc⟩ | ⟨_, hd, _⟩
    · exact ⟨⟨hst.ring, by rw [hc, h.data], by rw [hst.closed, h.closed, ho], by rw [hf, h.count]⟩, hlt, hn, hf⟩
    · rw [hp] at hd; cases hd
  cases hv with
  | pushSleep hl _ hf ho hs =>
    exact ⟨_, _, _, SView.pushSleep hl (by omega) (h.closed.trans ho), h.same hs, ⟨rfl, rfl⟩, by rw [hs.new, hl.tally]; exact le_refl _⟩
  | pushClosed hl hc hs =>
    exact ⟨_, _, _, SView.pushClosed hl (h.closed.trans hc), h.same hs, ⟨rfl, rfl⟩, by rw [hs.new]; exact le_add_right _ _⟩
  | pushDiscard _ hd _ _ _ => rw [hp] at hd; cases hd
  | pushStore hl ho hv' hst =>
    obtain ⟨hsq, hlt, hn, _⟩ := stored hl hst ho
    exact ⟨_, _, _, SView.pushStore hl (h.closed.trans ho) (hov.trans hv') (by omega), hsq, ⟨rfl, rfl⟩, by rw [hn, hl.tally]; exact le_refl _⟩
  | pushOverflow hl ho hv' hst =>
    obtain ⟨hsq, hlt, hn, hf⟩ := stored hl hst ho
    have hnil : r.data = [] := by
      have := cfg.capacity_of_overflow hv'
      exact List.length_eq_zero_iff.mp (by omega)
    refine ⟨_, _, _, SView.pushOverflow hl (h.closed.trans ho) (hov.trans hv') hnil, ?_, ?_, ?_⟩
    · rw [hnil] at hsq
      exact hsq
    · rw [h.count, hf]
      exact ⟨rfl, rfl⟩
    · rw [hn, hl.tally]
      exact le_refl _
  | overflowSleep he ho hs =>
    exact ⟨_, _, _, SView.overflowSleep (he.trans h.count.symm) (h.closed.trans ho), h.same hs, ⟨rfl, rfl⟩, by rw [hs.new]; exact le_refl _⟩
  | overflowRet hw hs =>
    refine ⟨_, _, _, SView.overflowRet (by rw [h.count, h.closed]; exact hw), h.same hs, ?_, by rw [hs.new]; exact le_refl _⟩
    rw [h.closed]
    exact ⟨rfl, rfl⟩
  | popSleep hl hd ho hs =>
    exact ⟨_, _, _, SView.popSleep hl (h.data.trans hd) (h.closed.trans ho), h.same hs, ⟨rfl, rfl⟩, by rw [hs.new]; exact le_add_right _ _⟩
  | popClosed hl hd hc hs =>
    exact ⟨_, _, _, SView.popClosed hl (h.data.trans hd) (h.closed.trans hc), h.same hs, ⟨rfl, rfl⟩, by rw [hs.new]; exact le_add_right _ _⟩
  | popTake hl ht =>
    have hcnt : Word.add 64 r.popCount 1 = q'.first := by
      have h1 := ht.ring.first_le
      have h2 := h.ring.new_succ_lt
      have h3 := ht.first
      have h4 := ht.new
      rw [h.count, h3, Word.add_of_lt (by omega)]
    exact ⟨_, _, _, SView.popTake hl (h.data.trans ht.contents), ⟨ht.ring, rfl, h.closed.trans ht.closed.symm, hcnt⟩, ⟨rfl, rfl⟩,
      by rw [ht.new]; exact le_add_right _ _⟩
  | close hc =>
    refine ⟨_, _, _, SView.close, ⟨hc.ring, ?_, hc.closed.symm, h.count.trans hc.first.symm⟩, ⟨rfl, rfl⟩, hc.new⟩
    rw [hc.contents, hov, h.data]
  | isClosed hs =>
    refine ⟨_, _, _, SView.isClosed, h.same hs, ?_, by rw [hs.new]; exact le_refl _⟩
    rw [h.closed]
    exact ⟨rfl, rfl⟩

/-- The sections of the two queues from one point keep them related and end alike. -/
theorem section_sim (hp : cfg.policy = .blocking) (ha : scfg.arg = cfg.arg) (h : SameQueue cfg q r) (l : Loc T)
    (hroom : pushTally (some l) = 1 → q.new + 1 < cfg.maxCounter) :
    SameQueue cfg (crit cfg q l).1 (r.crit scfg l).1 ∧ SameEnd (crit cfg q l).2.2 (r.crit scfg l).2.2 ∧
      (crit cfg q l).1.new + pushTally (crit cfg q l).2.2.loc ≤ q.new + pushTally (some l) := by
  obtain ⟨hcap, hov⟩ := capacity_eq hp ha
  obtain ⟨r', ns, nx', hsv, h1, h2, h3⟩ := (crit_view h.ring l).sim hp hcap hov h hroom
  rw [hsv.crit_eq (h.length_le hcap)]
  exact ⟨h1, h2, h3⟩

theorem pushTally_entry {C : Type} (u : Tid) (n : Nat) (o : Op T) :
    pushTally (some (entry n o)) = if Ev.isPushCall (.call u n o : Ev Tid T C) then 1 else 0 := by
  cases o <;> rfl

theorem isPushCall_event {C : Type} (u : Tid) (nx : Next (Loc T) C (Res T)) : Ev.isPushCall (nx.event u : Ev Tid T C) = false := by
  cases nx <;> rfl

end Sections

/-! ## Steps and runs -/

section Runs

variable [Fintype Tid] [DecidableEq Tid] {cfg : Config} {scfg : SConfig} {k : Nat} {s s' : QState Tid T} {t t' : SState Tid T}

theorem Sim.call (h : Sim cfg k s t) {u : Tid} {o : Op T} (hn : s.loc u = none) (hq : s'.shared = s.shared)
    (hl : s'.loc = update s.loc u (some (entry s.calls o))) (hc : s'.calls = s.calls + 1)
    (hq' : t'.shared = t.shared) (hl' : t'.loc = update t.loc u (some (entry t.calls o)))
    (hc' : t'.calls = t.calls + 1) : Sim cfg (k + pushTally (some (entry s.calls o))) s' t' := by
  refine ⟨by rw [hq, hq']; exact h.shared, by rw [hl', hl, h.loc, h.calls], by rw [hc, hc', h.calls], ?_⟩
  have hsum := sum_update pushTally s.loc u (some (entry s.calls o))
  rw [hn] at hsum
  have hroom := h.room
  rw [hq, hl]
  simp only [pushing, pushTally] at hsum hroom ⊢
  omega

section

variable (hp : cfg.policy = .blocking) (ha : scfg.arg = cfg.arg) (h : Sim cfg k s t)

include hp ha h

theorem Sim.run (hk : k < cfg.maxCounter) {u : Tid}
    {l : Loc T} (hu : s.loc u = some l) :
    SameEnd (crit cfg s.shared l).2.2 (t.shared.crit scfg l).2.2 ∧
    (s'.shared = (crit cfg s.shared l).1 → s'.loc = update s.loc u (crit cfg s.shared l).2.2.loc →
      s'.calls = s.calls → t'.shared = (t.shared.crit scfg l).1 →
      t'.loc = update t.loc u (t.shared.crit scfg l).2.2.loc → t'.calls = t.calls → Sim cfg k s' t') := by
  have hroom := h.room
  have hle : pushTally (some l) ≤ pushing s.loc := by
    rw [← hu]
    exact Finset.single_le_sum (f := fun v => pushTally (s.loc v)) (fun _ _ => zero_le _) (Finset.mem_univ u)
  obtain ⟨hsq, hend, hnew⟩ := section_sim hp ha h.shared l fun h1 => by omega
  refine ⟨hend, fun hq hl hc hq' hl' hc' => ⟨by rw [hq, hq']; exact hsq, ?_, by rw [hc, hc', h.calls], ?_⟩⟩
  · rw [hl, hl', h.loc, hend.1]
  · have hsum := sum_update pushTally s.loc u (crit cfg s.shared l).2.2.loc
    rw [hu] at hsum
    rw [hq, hl]
    simp only [pushing] at hsum hroom ⊢
    omega

theorem Sim.forward {a : MAct Tid (Op T)}
    {e : Ev Tid T Cond} (hx : (queue T cfg).exec s a = some (s', e)) (hk : k < cfg.maxCounter) :
    ∃ fs t', Run (simple T scfg).exec t fs t' ∧ fs.filterMap MEv.obs = e.obs.toList ∧ Sim cfg (k + if e.isPushCall then 1 else 0) s' t' := by
  cases Monitor.exec_step hx with
  | call u o h1 h2 h3 h4 =>
    obtain ⟨t', hr, hq', hl', hc'⟩ := (simple T scfg).exists_call o (h.loc ▸ h1 : t.loc u = none)
    rw [← pushTally_entry]
    exact ⟨_, t', hr, rfl, h.call h1 h2 h3 h4 hq' hl' hc'⟩
  | wake u h1 h2 h3 =>
    exact ⟨[], t, RunIf.nil, rfl, by rw [h1]; exact h.shared, by rw [h2, h.loc], by rw [h3, h.calls], by rw [h1, h2]; exact h.room⟩
  | run u ps l h1 h2 h3 h4 =>
    obtain ⟨fs, t', hr, hq', hl', hc', hobs⟩ := (simple T scfg).exists_run (h.loc ▸ h1 : t.loc u = some l)
    obtain ⟨hend, hsim⟩ := h.run hp ha hk h1
    refine ⟨fs, t', hr, ?_, ?_⟩
    · rw [hobs, Next.obs_event, Next.obs_event]
      exact congrArg _ (congrArg _ hend.2)
    · rw [isPushCall_event]
      exact hsim h2 h3 h4 hq' hl' hc'

theorem Sim.backward {a : MAct Tid (Op T)}
    {f : Ev Tid T Unit} (hx : (simple T scfg).exec t a = some (t', f)) (hk : k < cfg.maxCounter) :
    ∃ es s', Run (queue T cfg).exec s es s' ∧ es.filterMap MEv.obs = f.obs.toList ∧ Sim cfg (k + if f.isPushCall then 1 else 0) s' t' := by
  cases Monitor.exec_step hx with
  | call u o h1 h2 h3 h4 =>
    have hn : s.loc u = none := h.loc ▸ h1
    obtain ⟨s', hr, hq', hl', hc'⟩ := (queue T cfg).exists_call o hn
    rw [← pushTally_entry, h.calls]
    exact ⟨_, s', hr, rfl, h.call hn hq' hl' hc' h2 h3 h4⟩
  | wake u h1 h2 h3 =>
    exact ⟨[], s, RunIf.nil, rfl, by rw [h1]; exact h.shared, by rw [h2, h.loc], by rw [h3, h.calls], h.room⟩
  | run u ps l h1 h2 h3 h4 =>
    have hu : s.loc u = some l := h.loc ▸ h1
    obtain ⟨es, s', hr, hq', hl', hc', hobs⟩ := (queue T cfg).exists_run hu
    obtain ⟨hend, hsim⟩ := h.run hp ha hk hu
    refine ⟨es, s', hr, ?_, ?_⟩
    · rw [hobs, Next.obs_event, Next.obs_event]
      exact congrArg _ (congrArg _ hend.2.symm)
    · rw [isPushCall_event]
      exact hsim hq' hl' hc' h2 h3 h4

end

omit [DecidableEq Tid] in
theorem Sim.init (cfg : Config) (raw : Nat → Item T) : Sim cfg 0 (queueInit Tid raw : QState Tid T) (simpleInit Tid T) := by
  refine ⟨⟨RingOk.make cfg raw, rfl, rfl, rfl⟩, rfl, rfl, ?_⟩
  simp [queueInit, Monitor.init, QueueT.make, pushing, MState.loc, Thread.loc, pushTally]

/-- `chan.simple.h` and `chan.h` refine each other, for every capacity `N ≥ 0` and the blocking policy. The new queues are related by
`Sim`; as long as fewer than `CHAN_MAX_COUNTER` pushes have been made, every step of either from related states is matched by
steps of the other with the same calls and returns, to related states; so every run of either with fewer pushes has a run of the
other with the same trace of calls and returns, ending in related states. -/
theorem simple_chan_equivalent {raw : Nat → Item T} (hp : cfg.policy = .blocking) (ha : scfg.arg = cfg.arg) :
    Sim cfg 0 (queueInit Tid raw : QState Tid T) (simpleInit Tid T) ∧
    (∀ k (s s' : QState Tid T) t a e, Sim cfg k s t → k < cfg.maxCounter → (queue T cfg).exec s a = some (s', e) →
      ∃ fs t', Run (simple T scfg).exec t fs t' ∧ fs.filterMap MEv.obs = e.obs.toList ∧
        Sim cfg (k + if Ev.isPushCall e then 1 else 0) s' t') ∧
    (∀ k (s : QState Tid T) t t' a f, Sim cfg k s t → k < cfg.maxCounter → (simple T scfg).exec t a = some (t', f) →
      ∃ es s', Run (queue T cfg).exec s es s' ∧ es.filterMap MEv.obs = f.obs.toList ∧
        Sim cfg (k + if Ev.isPushCall f then 1 else 0) s' t') ∧
    (∀ es (s : QState Tid T), Run (queue T cfg).exec (queueInit Tid raw) es s → pushCalls es < cfg.maxCounter →
      ∃ fs t, Run (simple T scfg).exec (simpleInit Tid T) fs t ∧ fs.filterMap MEv.obs = es.filterMap MEv.obs ∧
        Sim cfg (pushCalls es) s t) ∧
    (∀ fs (t : SState Tid T), Run (simple T scfg).exec (simpleInit Tid T) fs t → pushCalls fs < cfg.maxCounter →
      ∃ es s, Run (queue T cfg).exec (queueInit Tid raw) es s ∧ es.filterMap MEv.obs = fs.filterMap MEv.obs ∧
        Sim cfg (pushCalls fs) s t) := by
  refine ⟨Sim.init cfg raw, fun k s s' t a e h hk hx => h.forward hp ha hx hk, fun k s t t' a f h hk hx => h.backward hp ha hx hk,
    fun es s hr hq => ?_, fun fs t hr hq => ?_⟩
  · refine RunIf.simulate (Q := fun es => pushCalls es < cfg.maxCounter) (fun es e h => ?_)
      (R := fun es s t => Sim cfg (pushCalls es) s t) (Sim.init cfg raw) (fun es s a s' e t _ hR _ hx hQ => ?_) hr hq
    · rw [pushCalls_snoc] at h
      omega
    · rw [pushCalls_snoc] at hQ ⊢
      exact hR.forward hp ha hx (by omega)
  · refine RunIf.simulate (Q := fun fs => pushCalls fs < cfg.maxCounter) (fun fs f h => ?_)
      (R := fun fs t s => Sim cfg (pushCalls fs) s t) (Sim.init cfg raw) (fun fs t a t' f s _ hR _ hx hQ => ?_) hr hq
    · rw [pushCalls_snoc] at h
      omega
    · rw [pushCalls_snoc] at hQ ⊢
      exact hR.backward hp ha hx (by omega)

end Runs

/-- A queue of three slots, in `chan.h` and in `chan.simple.h`. -/
def threeSlots : Config := .ofArgs 3#63 .blocking

/-- The queue of `chan.simple.h` with the capacity of `threeSlots`. -/
def simpleThreeSlots : SConfig := ⟨3, by decide⟩

/-- A trace of `chan.h` in which a value goes through the queue, found in `chan.simple.h`. -/
theorem simple_chan_equivalent_threeSlots : ∃ fs t,
    Run (simple Nat simpleThreeSlots).exec (simpleInit (Fin 2) Nat) fs t ∧
    fs.filterMap MEv.obs = [.call 0 (.push 7), .ret 0 (.pushed ⟨7, 0⟩ true), .call 1 .pop, .ret 1 (.popped (some ⟨7, 0⟩))] := by
  obtain ⟨s, h⟩ := exists_run_of_events (queue Nat threeSlots).exec (queueInit (Fin 2) fun _ => ⟨0, 0⟩)
    [.call 0 (.push 7), .run 0 [], .call 1 .pop, .run 1 []] rfl
  obtain ⟨fs, t, hr, hobs, _⟩ := (simple_chan_equivalent rfl (show simpleThreeSlots.arg = threeSlots.arg from rfl)).2.2.2.1 _ s h (by decide)
  exact ⟨fs, t, hr, hobs⟩

end CsLearning.Chan
