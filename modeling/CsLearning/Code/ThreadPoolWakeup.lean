import CsLearning.Code.ThreadPoolTasks

/-!
# The thread pool: no lost wake-up

Every `add_task` notifies one waiting worker, which may find its task taken by a worker that comes from its loop, and sleep again. The
counts of the sleeping and of the notified threads show that no task is left while a worker sleeps (`pool_no_lost_wakeup`). The
counts are those of the mutex, whoever calls its operations; the result for the pool follows, since what happens at its mutex is a
run of the monitor.
-/

open List Function

namespace CsLearning.Code

/-! ## The counts at the mutex -/

section Wakeup

variable {Tid F : Type} [Fintype Tid] [DecidableEq Tid] {s s' : MState Tid (Pool F) (PoolLoc F) Unit}
  {a : MAct Tid (PoolOp F)} {e : MEv Tid (PoolLoc F) Unit (PoolOp F) (PoolRes F)}

/-- Threads wait in `take` only. Nobody sleeps once the pool is stopped; and before, if somebody sleeps, there is a notified thread for
each task. -/
structure Awake (s : MState Tid (Pool F) (PoolLoc F) Unit) : Prop where
  point : ∀ t c w l, s.thr t = .waiting c w l → l = .takeWait
  stopped : s.shared.started = false → waiters s.thr () .blocked = 0
  enough : 0 < waiters s.thr () .blocked → s.shared.tasks.length ≤ waiters s.thr () .signalled

variable {l : PoolLoc F} {thr : Tid → Thread (PoolLoc F) Unit} {nx : Next (PoolLoc F) Unit (PoolRes F)}

omit [DecidableEq Tid] in
/-- A thread that runs another operation than `take` has not been waiting. -/
theorem Awake.tally_eq_zero (h : Awake s) {t : Tid} (hrun : (s.thr t).runnable = some l) (hl : l ≠ .takeWait) :
    (s.thr t).tally () .signalled = 0 := by
  cases hth : s.thr t with
  | idle => rfl
  | ready l' => rfl
  | waiting c w l' =>
    have hloc := Thread.loc_of_runnable hrun
    rw [hth] at hloc
    exact absurd ((Option.some.inj hloc).symm.trans (h.point t c w l' hth)) hl

omit [Fintype Tid] [DecidableEq Tid] in
/-- A section leaves its thread asleep in `take` or outside. -/
theorem PoolView.point {p p' : Pool F} {ns : List (Note Unit)} (hv : PoolView p l p' ns nx) {c : Unit} {w : Wake} {l' : PoolLoc F}
    (h : nx.thread = .waiting c w l') : l' = .takeWait := by
  cases hv <;> cases h
  rfl

/-- A section keeps the counts in order: `add_task` moves a sleeper, if there is one, to the notified, for one more task; whoever runs
`take` leaves the notified, and has taken a task or found none; `stop` leaves no sleeper. -/
theorem Awake.run_section (h : Awake s) {ns : List (Note Unit)} {ps : List Tid} {t : Tid}
    (hrun : (s.thr t).runnable = some l) (hthr : notify s.thr ns ps = some thr) {p : Pool F}
    (hv : PoolView s.shared l p ns nx) (hpoint : ∀ u c w l, update thr t nx.thread u = .waiting c w l → l = .takeWait) :
    Awake ⟨p, update thr t nx.thread, s.calls⟩ := by
  obtain ⟨hb, hg, -⟩ := waiters_section hrun hthr nx () rfl
  obtain ⟨_, hg1⟩ := Thread.tally_of_runnable hrun ()
  have h1 := h.stopped
  have h2 := h.enough
  refine ⟨hpoint, ?_, ?_⟩
  · intro hs
    cases hv with
    | addTask fn =>
      simp only [Note.effect, decide_true, filter_cons_of_pos, filter_nil, foldl_cons, foldl_nil, Next.cond, reduceCtorEq, if_false] at hb
      have := h1 hs
      simp only
      omega
    | sleep _ _ hst =>
      rw [hst] at hs
      cases hs
    | take _ _ hst =>
      rw [hst] at hs
      cases hs
    | stopped _ hst =>
      simp only [filter_nil, foldl_nil, Next.cond, reduceCtorEq, if_false] at hb
      have := h1 hst
      simp only
      omega
    | stop =>
      exact hb
  · intro hpos
    cases hv with
    | addTask fn =>
      have h0 := h.tally_eq_zero hrun (by simp)
      simp only [Note.effect, decide_true, filter_cons_of_pos, filter_nil, foldl_cons, foldl_nil, Next.cond, reduceCtorEq, if_false] at hb hg
      simp only [length_append, length_singleton] at hpos ⊢
      omega
    | sleep _ hd _ =>
      simp only [hd]
      exact Nat.zero_le _
    | take _ hd _ =>
      simp only [filter_nil, foldl_nil, Next.cond, reduceCtorEq, if_false] at hb hg
      rw [hd, length_cons] at h2
      simp only at hpos ⊢
      omega
    | stopped _ hst =>
      simp only [filter_nil, foldl_nil, Next.cond, reduceCtorEq, if_false] at hb
      have := h1 hst
      simp only at hpos
      omega
    | stop =>
      simp only [Note.effect, decide_true, filter_cons_of_pos, filter_nil, foldl_cons, foldl_nil, Next.cond, reduceCtorEq, if_false] at hb
      simp only at hpos
      omega

theorem Awake.step (h : Awake s) (hx : (poolMonitor F).exec s a = some (s', e)) : Awake s' := by
  have hpoint : ∀ t c w l, s'.thr t = .waiting c w l → l = .takeWait := by
    refine Monitor.forall_thread (P := fun th => ∀ c w l, th = .waiting c w l → l = .takeWait) hx h.point ?_ ?_ ?_
    · intro _ _ c w l hw
      cases hw
    · exact fun l c w l' hw => (pool_view s.shared l).point hw
    · intro c w l hb c' w' l' hw
      cases hw
      exact hb _ _ _ rfl
  have h1 := h.stopped
  have h2 := h.enough
  cases Monitor.exec_full hx with
  | call t o hi =>
    have hb := waiters_call hi o.entry () .blocked
    have hg := waiters_call hi o.entry () .signalled
    exact ⟨hpoint, fun hs => hb.trans (h1 hs), fun hpos => hg ▸ h2 (hb ▸ hpos)⟩
  | wake t c l hi =>
    obtain ⟨hb, hg, -⟩ := waiters_wake hi ()
    rw [if_pos rfl] at hb
    refine ⟨hpoint, fun hs => ?_, fun hpos => ?_⟩
    · have := h1 hs
      omega
    · grind
  | run t ps l thr hrun hthr => exact h.run_section hrun hthr (pool_view s.shared l) hpoint

/-- The counts are in order in every state of the mutex, whoever calls the operations. -/
theorem run_awake {es : List (MEv Tid (PoolLoc F) Unit (PoolOp F) (PoolRes F))}
    (h : Run (poolMonitor F).exec (Monitor.init Tid ⟨[], true, 0⟩) es s) : Awake s := by
  induction h with
  | nil =>
    have hz : waiters (fun _ : Tid => (.idle : Thread (PoolLoc F) Unit)) () .blocked = 0 := waiters_idle () .blocked
    refine ⟨fun t c w l ht => ?_, fun _ => hz, fun hpos => absurd hz (Nat.ne_of_gt hpos)⟩
    cases ht
  | snoc _ _ hx ih => exact ih.step hx

end Wakeup

/-! ## The pool -/

section Pool

variable {n : Nat} {K F : Type} [Fintype K] {s : PoolState n K F} {es : List (PoolEv n K F)}

/-- The number of workers that have been notified and have not taken the mutex since. -/
def notifiedWorkers (s : PoolState n K F) : Nat :=
  (Finset.univ.filter fun w : Fin n => (s.inner.thr (.inl w)).isWaiting () .signalled = true).card

theorem waiters_eq_notifiedWorkers (hp : Points s) (ha : Awake s.inner) : waiters s.inner.thr () .signalled = notifiedWorkers s := by
  have hclient : ∀ k : K, (s.inner.thr (.inr k)).tally () .signalled = 0 := by
    intro k
    cases hth : s.inner.thr (.inr k) with
    | idle => rfl
    | ready l => rfl
    | waiting c w l =>
      have hl := ha.point _ c w l hth
      subst hl
      exact absurd TakeAt.wait (hp.client k _ (by rw [MState.loc, hth]; rfl))
  rw [waiters, Fintype.sum_sum_type, Finset.sum_eq_zero fun k _ => hclient k, Nat.add_zero, notifiedWorkers, Finset.card_filter]
  rfl

variable [DecidableEq K]

/-- No lost wake-up. In every reachable state of the pool, with any number of workers and spurious wake-ups: once `stop` has cleared
`m_is_started` no worker sleeps on `m_cond`; and before, if one sleeps, there are at least as many notified workers that have not
taken the mutex yet as there are tasks. -/
theorem pool_no_lost_wakeup (h : Run poolExec (poolInit n K F) es s) :
    (s.inner.shared.started = false → ∀ w l, s.inner.thr (.inl w) ≠ .waiting () .blocked l) ∧
    (s.inner.shared.started = true → (∃ w l, s.inner.thr (.inl w) = .waiting () .blocked l) →
      s.inner.shared.tasks.length ≤ notifiedWorkers s) := by
  have ha := run_awake (run_inner h)
  have hp := (run_balanced h).1
  refine ⟨fun hs w l hw => ?_, fun _ hw => ?_⟩
  · exact absurd (ha.stopped hs) (Nat.ne_of_gt (waiters_pos hw))
  · obtain ⟨w, l, hw⟩ := hw
    rw [← waiters_eq_notifiedWorkers hp ha]
    exact ha.enough (waiters_pos hw)

/-- The events of a run: the workers `u` and `v` sleep, a task is added, and one of them is notified. -/
def oneNotified (u v : Fin n) (k : K) : List (PoolEv n K Nat) :=
  [.inner (.call (.inl u) 0 .take), .inner (.wait (.inl u) () .takeWait), .inner (.call (.inl v) 1 .take),
    .inner (.wait (.inl v) () .takeWait), .inner (.call (.inr k) 2 (.addTask (some 7))), .inner (.ret (.inr k) (.added ⟨some 7, 0⟩))]

/-- At the end of `oneNotified` one worker sleeps, and the other one has been notified of the task. -/
theorem pool_no_lost_wakeup_oneNotified : ∃ s, Run poolExec (poolInit 2 Unit Nat) (oneNotified 0 1 ()) s ∧
    s.inner.thr (.inl 1) = .waiting () .blocked .takeWait ∧ s.inner.shared.started = true ∧ s.inner.shared.tasks.length = 1 ∧
    1 ≤ notifiedWorkers s := by
  obtain ⟨s, h, hview⟩ : ∃ s, Run poolExec (poolInit 2 Unit Nat) (oneNotified 0 1 ()) s ∧
      (s.inner.thr (.inl 1), s.inner.shared) = (.waiting () .blocked .takeWait, ⟨[⟨some 7, 0⟩], true, 1⟩) :=
    exists_run_of_view poolExec (fun s => (s.inner.thr (.inl 1), s.inner.shared)) (poolInit 2 Unit Nat)
      [.test 0, .inner (.run (.inl 0) []), .test 1, .inner (.run (.inl 1) []), .addTask (.inr ()) (some 7),
        .inner (.run (.inr ()) [.inl 0])] (by decide +kernel)
  obtain ⟨hthr, hsh⟩ := Prod.mk.inj hview
  have hlen : s.inner.shared.tasks.length = 1 := by rw [hsh]; rfl
  have hst : s.inner.shared.started = true := by rw [hsh]
  refine ⟨s, h, hthr, hst, hlen, ?_⟩
  rw [← hlen]
  exact (pool_no_lost_wakeup h).2 hst ⟨1, _, hthr⟩

end Pool

end CsLearning.Code
