import CsLearning.Chan.Queue

/-!
# `chan.h`: `cv_t` alone

The class `cv_t` under one mutex, with callers of all kinds: the outcomes of the predicates of `wait` are part of the calls, so that every
sequence of them is possible. `thread_count_` is the number of threads inside `wait`, and `wait_count_` is at least the number of those asleep.
`wait_count_` stays behind when threads wake on their own and leave, and `notify_one` then takes one from a `thread_count_` of zero: the counter
wraps to its maximum (`cv_counts_wraps`), and the next waiter is counted as none. `cv_counts_iff` says in which runs that happens.
-/

open List Function

namespace CsLearning.Chan

/-! ## The monitor -/

/-- A call on a `cv_t`: `wait`, with the outcomes of its predicate one after the other, `notify_one` and `notify_all`. -/
inductive CvOp where
  | wait (pred : Nat → Bool)
  | notifyOne
  | notifyAll

/-- The points at which a thread takes the mutex: the start of a call, and the end of `cv_.wait`, with the outcomes to come. -/
inductive CvLoc where
  | start (o : CvOp)
  | asleep (pred : Nat → Bool)

/-- The critical sections of a `cv_t` on the condition variable `c`. -/
def cvCrit (c : Cond) (cv : CvT) : CvLoc → CvT × List (Note Cond) × Next CvLoc Cond Unit
  | .start (.wait pred) => if pred 0 then (cv, [], .ret ()) else (cv.enter, [], .wait c (.asleep fun i => pred (i + 1)))
  | .asleep pred => if pred 0 then (cv.leave, [], .ret ()) else (cv.again, [], .wait c (.asleep fun i => pred (i + 1)))
  | .start .notifyOne => ((cv.notifyOne c).1, (cv.notifyOne c).2, .ret ())
  | .start .notifyAll => ((cv.notifyAll c).1, (cv.notifyAll c).2, .ret ())

def cvMonitor (c : Cond) : Monitor CvT CvLoc Cond CvOp Unit := ⟨fun _ => .start, cvCrit c⟩

abbrev CvState (Tid : Type) := MState Tid CvT CvLoc Cond

/-- A new `cv_t`, with no thread in it. -/
def cvInit (Tid : Type) : CvState Tid := Monitor.init Tid ⟨0, 0⟩

/-! ## The counters -/

/-- A section that increments a counter finds it below its maximum. -/
def CountsFit (cv : CvT) : CvLoc → Prop
  | .start (.wait pred) => pred 0 = true ∨ cv.threadCount + 1 < 2 ^ 32 ∧ cv.waitCount + 1 < 2 ^ 32
  | .asleep pred => pred 0 = true ∨ cv.waitCount + 1 < 2 ^ 32
  | _ => True

instance (cv : CvT) (l : CvLoc) : Decidable (CountsFit cv l) :=
  match l with
  | .start (.wait _) => inferInstanceAs (Decidable (_ ∨ _))
  | .asleep _ => inferInstanceAs (Decidable (_ ∨ _))
  | .start .notifyOne => isTrue trivial
  | .start .notifyAll => isTrue trivial

/-- `notify_one` decrements zero. -/
def Underflows (cv : CvT) (l : CvLoc) : Prop := l = .start .notifyOne ∧ 0 < cv.waitCount ∧ min cv.threadCount cv.waitCount = 0

/-- What a `cv_t` keeps, when `b` threads are asleep, `g` notified and `p` woken on their own: `thread_count_` is their number, and
`wait_count_` is not less than the number of those asleep. -/
structure Counted (cv : CvT) (b g p : Nat) : Prop where
  threads : cv.threadCount = b + g + p
  blocked_le : b ≤ cv.waitCount
  threads_lt : cv.threadCount < 2 ^ 32
  wait_lt : cv.waitCount < 2 ^ 32

/-- The condition variable of a thread inside `wait`. -/
def CvLoc.cond (c : Cond) : CvLoc → Option Cond
  | .start _ => none
  | .asleep _ => some c

section OneCv

variable {c : Cond} {cv : CvT} {b g p b' g' p' dg dp : Nat}

/-- `notify_one` keeps the counts when it does not decrement zero. -/
theorem Counted.notifyOne (h : Counted cv b g p) (hok : ¬Underflows cv (.start .notifyOne)) :
    Counted (cv.notifyOne c).1 ((cv.notifyOne c).2.foldl (fun q m => m.effect q) (b, g)).1
      ((cv.notifyOne c).2.foldl (fun q m => m.effect q) (b, g)).2 p := by
  obtain ⟨h1, h2, h3, h4⟩ := h
  by_cases hw : 0 < cv.waitCount
  · have hmin : (if cv.threadCount < cv.waitCount then cv.threadCount else cv.waitCount) = min cv.threadCount cv.waitCount := by
      split <;> omega
    have hpos : 1 ≤ min cv.threadCount cv.waitCount := Nat.pos_of_ne_zero fun h0 => hok ⟨rfl, hw, h0⟩
    rw [CvT.notifyOne, if_pos hw, hmin, Word.sub_of_le hpos (by omega)]
    simp only [foldl_cons, foldl_nil, Note.effect]
    exact ⟨by simp only; omega, by simp only; omega, by simp only; omega, by simp only; omega⟩
  · rw [CvT.notifyOne, if_neg hw]
    exact ⟨h1, h2, h3, h4⟩

/-- Every section keeps the counts when no counter wraps. `dg` and `dp` say how its thread waited before. -/
theorem Counted.crit (h : Counted cv b g p) {l : CvLoc} (hfit : CountsFit cv l) (hok : ¬Underflows cv l)
    (hd : dg + dp = if l.cond c = some c then 1 else 0) (hdg : dg ≤ g) (hdp : dp ≤ p)
    (hb : b' = (((cvCrit c cv l).2.1.filter fun m => m.cond = c).foldl (fun q m => m.effect q) (b, g)).1 +
      if (cvCrit c cv l).2.2.cond = some c then 1 else 0)
    (hg : g' + dg = (((cvCrit c cv l).2.1.filter fun m => m.cond = c).foldl (fun q m => m.effect q) (b, g)).2) (hp : p' + dp = p) :
    Counted (cvCrit c cv l).1 b' g' p' := by
  cases l with
  | start o =>
    cases o with
    | wait pred =>
      obtain ⟨h1, h2, h3, h4⟩ := h
      by_cases hpred : pred 0 = true
      · simp only [cvCrit, if_pos hpred, CvLoc.cond, filter_nil, foldl_nil, Next.cond, reduceCtorEq, if_false] at hd hb hg ⊢
        exact ⟨by omega, by omega, h3, h4⟩
      · obtain ⟨ht, hw⟩ := hfit.resolve_left hpred
        have e1 : cv.enter.threadCount = cv.threadCount + 1 := Word.add_of_lt ht
        have e2 : cv.enter.waitCount = cv.waitCount + 1 := Word.add_of_lt hw
        simp only [cvCrit, if_neg hpred, CvLoc.cond, filter_nil, foldl_nil, Next.cond, reduceCtorEq, if_true, if_false] at hd hb hg ⊢
        exact ⟨by omega, by omega, by omega, by omega⟩
    | notifyOne =>
      have hnote : (cv.notifyOne c).2.filter (fun m => m.cond = c) = (cv.notifyOne c).2 := by
        rw [CvT.notifyOne]
        split <;> simp [Note.cond]
      simp only [cvCrit, hnote, CvLoc.cond, Next.cond, reduceCtorEq, if_false] at hd hb hg ⊢
      have hone := h.notifyOne (c := c) hok
      rwa [hb, show p' = p by omega, show g' = ((cv.notifyOne c).2.foldl (fun q m => m.effect q) (b, g)).2 by omega]
    | notifyAll =>
      obtain ⟨h1, h2, h3, h4⟩ := h
      simp [cvCrit, CvT.notifyAll, CvLoc.cond, Note.cond, Note.effect, Next.cond] at hd hb hg ⊢
      exact ⟨by simp only; omega, by simp only; omega, h3, by simp⟩
  | asleep pred =>
    obtain ⟨h1, h2, h3, h4⟩ := h
    simp only [CvLoc.cond, if_true] at hd
    by_cases hpred : pred 0 = true
    · obtain ⟨e1, e2⟩ := cv.leave_counts (by omega) h3
      simp only [cvCrit, if_pos hpred, filter_nil, foldl_nil, Next.cond, reduceCtorEq, if_false] at hb hg ⊢
      exact ⟨by omega, by omega, by omega, by omega⟩
    · have hw := hfit.resolve_left hpred
      have e1 : cv.again.threadCount = cv.threadCount := rfl
      have e2 : cv.again.waitCount = cv.waitCount + 1 := Word.add_of_lt hw
      simp only [cvCrit, if_neg hpred, filter_nil, foldl_nil, Next.cond, if_true] at hb hg ⊢
      exact ⟨by omega, by omega, by omega, by omega⟩

end OneCv

/-! ## Runs -/

variable {Tid : Type} {c : Cond} {s s' : CvState Tid} {a : MAct Tid CvOp}

/-- The step runs a section for which `P` holds. -/
def Runs (P : CvT → CvLoc → Prop) (s : CvState Tid) : MAct Tid CvOp → Prop
  | .run t _ => ∃ l ∈ s.loc t, P s.shared l
  | _ => False

instance {P : CvT → CvLoc → Prop} [∀ cv l, Decidable (P cv l)] (s : CvState Tid) (a : MAct Tid CvOp) : Decidable (Runs P s a) :=
  match a with
  | .run t _ => inferInstanceAs (Decidable (∃ l ∈ s.loc t, P s.shared l))
  | .call _ _ => isFalse id
  | .wake _ => isFalse id

/-- No increment wraps in the step. -/
abbrev Fit (s : CvState Tid) (a : MAct Tid CvOp) : Prop := ¬Runs (fun cv l => ¬CountsFit cv l) s a

/-- No thread is inside `wait`. -/
def NobodyWaits (c : Cond) (s : CvState Tid) : Prop := ∀ t w, (s.thr t).isWaiting c w = false

/-- The step runs `notify_one` when `wait_count_` is not zero although no thread is inside `wait`. -/
def Stale (c : Cond) (s : CvState Tid) (a : MAct Tid CvOp) : Prop :=
  Runs (fun cv l => l = .start .notifyOne ∧ 0 < cv.waitCount) s a ∧ NobodyWaits c s

theorem waitsAt_cvCrit (cv : CvT) (l : CvLoc) : WaitsAt (CvLoc.cond c) (cvCrit c cv l).2.2.thread := by
  rcases l with (_ | _ | _) | _ <;> simp only [cvCrit] <;> first | trivial | (split <;> simp [Next.thread, WaitsAt, CvLoc.cond])

variable [Fintype Tid]

/-- The invariant of a `cv_t`: threads wait where their points say, and the counters count them. -/
structure CvCounts (c : Cond) (s : CvState Tid) : Prop where
  fits : ∀ t, WaitsAt (CvLoc.cond c) (s.thr t)
  counted : Counted s.shared (waiters s.thr c .blocked) (waiters s.thr c .signalled) (waiters s.thr c .spurious)

theorem CvCounts.threadCount_eq_zero_iff (h : CvCounts c s) : s.shared.threadCount = 0 ↔ NobodyWaits c s := by
  have hzero : ∀ w, waiters s.thr c w = 0 ↔ ∀ t, (s.thr t).isWaiting c w = false := by
    intro w
    rw [← Nat.le_zero, ← not_lt, waiters_pos_iff]
    simp
  have hthreads := h.counted.threads
  constructor
  · intro h0 t w
    have hn : waiters s.thr c w = 0 := by cases w <;> omega
    exact (hzero w).mp hn t
  · intro hn
    rw [hthreads, (hzero .blocked).mpr fun t => hn t _, (hzero .signalled).mpr fun t => hn t _, (hzero .spurious).mpr fun t => hn t _]

/-- `notify_one` decrements zero exactly when it runs with nobody inside `wait`. -/
theorem CvCounts.underflows_iff (h : CvCounts c s) : Runs Underflows s a ↔ Stale c s a := by
  cases a with
  | call => simp [Stale, Runs]
  | wake => simp [Stale, Runs]
  | run t ps =>
    simp only [Stale, Runs, Underflows, ← h.threadCount_eq_zero_iff]
    grind

variable [DecidableEq Tid]

theorem CvCounts.step {e : MEv Tid CvLoc Cond CvOp Unit} (h : CvCounts c s) (hfit : Fit s a) (hok : ¬Runs Underflows s a)
    (hx : (cvMonitor c).exec s a = some (s', e)) : CvCounts c s' := by
  have hfits : ∀ t, WaitsAt (CvLoc.cond c) (s'.thr t) := Monitor.forall_thread hx h.fits (fun _ _ => rfl) (waitsAt_cvCrit s.shared) fun _ _ _ hf => hf
  cases Monitor.exec_full hx with
  | call t o hi => exact ⟨hfits, by simpa only [waiters_call hi] using h.counted⟩
  | wake t c' l hi =>
    obtain ⟨hb, hg, hp⟩ := waiters_wake hi c
    obtain ⟨h1, h2, h3, h4⟩ := h.counted
    exact ⟨hfits, by simp only; omega, by simp only; omega, h3, h4⟩
  | run t ps l thr hl hthr =>
    have hloc : s.loc t = some l := Thread.loc_of_runnable hl
    have hfit' : CountsFit s.shared l := by
      by_contra hnot
      exact hfit ⟨l, hloc, hnot⟩
    obtain ⟨hb, hg, hp⟩ := waiters_section hl hthr (cvCrit c s.shared l).2.2 c rfl
    have htally := (h.fits t).tally hl c
    exact ⟨hfits, h.counted.crit hfit' (fun hu => hok ⟨l, hloc, hu⟩) htally (tally_le_waiters ..) (tally_le_waiters ..) hb hg hp⟩

variable {es : List (MEv Tid CvLoc Cond CvOp Unit)}

/-- Runs without a wrap keep the counts, and meet every condition that follows from them. -/
theorem run_counts {ok ok' : CvState Tid → MAct Tid CvOp → Prop}
    (hok : ∀ s a, CvCounts c s → ok s a → Fit s a ∧ ¬Runs Underflows s a ∧ ok' s a) (h : RunIf (cvMonitor c).exec ok (cvInit Tid) es s) :
    RunIf (cvMonitor c).exec ok' (cvInit Tid) es s ∧ CvCounts c s := by
  induction h with
  | nil =>
    refine ⟨.nil, fun _ => trivial, ?_⟩
    have hz : ∀ w, waiters (cvInit Tid).thr c w = 0 := waiters_idle c
    rw [hz, hz, hz]
    exact ⟨rfl, Nat.zero_le _, Nat.two_pow_pos 32, Nat.two_pow_pos 32⟩
  | snoc _ ha hx ih =>
    obtain ⟨hfit, hunder, hok'⟩ := hok _ _ ih.2 ha
    exact ⟨ih.1.snoc hok' hx, ih.2.step hfit hunder hx⟩

/-- When a `cv_t` may be relied on. As long as the counters do not overflow, `notify_one` decrements zero in exactly those runs in which it is
called with `wait_count_` not zero although no thread is inside `wait`. In the others `wait_count_` is never less than the number of threads
asleep, so that `notify_one` notifies whenever one is. -/
theorem cv_counts_iff (c : Cond) (es : List (MEv Tid CvLoc Cond CvOp Unit)) (s : CvState Tid) :
    (RunIf (cvMonitor c).exec (fun s a => Fit s a ∧ ¬Runs Underflows s a) (cvInit Tid) es s ↔
      RunIf (cvMonitor c).exec (fun s a => Fit s a ∧ ¬Stale c s a) (cvInit Tid) es s) ∧
    (RunIf (cvMonitor c).exec (fun s a => Fit s a ∧ ¬Stale c s a) (cvInit Tid) es s →
      waiters s.thr c .blocked ≤ s.shared.waitCount ∧
      (0 < waiters s.thr c .blocked → (s.shared.notifyOne c).2 = [.one c] ∧ ¬Underflows s.shared (.start .notifyOne))) := by
  refine ⟨⟨fun h => (run_counts ?_ h).1, fun h => (run_counts ?_ h).1⟩, fun h => ?_⟩
  · exact fun s a hs ha => ⟨ha.1, ha.2, ha.1, fun hst => ha.2 (hs.underflows_iff.mpr hst)⟩
  · exact fun s a hs ha => ⟨ha.1, fun hu => ha.2 (hs.underflows_iff.mp hu), ha.1, fun hu => ha.2 (hs.underflows_iff.mp hu)⟩
  · have hcounted := (run_counts (fun s a hs ha => ⟨ha.1, fun hu => ha.2 (hs.underflows_iff.mp hu), ha⟩) h).2.counted
    have hle := hcounted.blocked_le
    have hthreads := hcounted.threads
    refine ⟨hle, fun hpos => ⟨?_, fun hu => ?_⟩⟩
    · rw [CvT.notifyOne, if_pos (by omega)]
    · have := hu.2.2
      omega

/-- A thread waits, wakes on its own and leaves; then `notify_one` sets `wait_count_` to its maximum. -/
theorem cv_counts_wraps : ∃ es s, RunIf (cvMonitor .cvPop).exec Fit (cvInit (Fin 1)) es s ∧ NobodyWaits .cvPop s ∧ s.shared = ⟨0, 2 ^ 32 - 1⟩ := by
  let acts : List (MAct (Fin 1) CvOp) := [.call 0 (.wait fun i => decide (0 < i)), .run 0 [], .wake 0, .run 0 [], .call 0 .notifyOne, .run 0 []]
  obtain ⟨s, h, hs⟩ := exists_run_of_view (guarded (cvMonitor .cvPop).exec Fit) (fun s => (s.thr 0, s.shared)) (cvInit (Fin 1)) acts rfl
  refine ⟨_, s, runIf_of_guarded h, fun t w => ?_, congrArg Prod.snd hs⟩
  rw [Subsingleton.elim t 0, show s.thr 0 = .idle from congrArg Prod.fst hs]
  rfl

end CsLearning.Chan
