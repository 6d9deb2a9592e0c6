import CsLearning.Lib.Monitor

/-!
# Counting the threads in a wait

`waiters thr c w` is the number of threads that wait on the condition variable `c` in the way `w`: asleep, notified, or woken on
their own. Here how a step changes these numbers: a thread that moves changes those of its old and its new state by one
(`waiters_update`), and the notifications of a section move sleepers to the notified (`notify_waiters`).
-/

open List Function Option

namespace CsLearning

variable {Tid L C R : Type} [DecidableEq C]

/-- One if the thread waits on `c` in the way `w`. -/
def Thread.tally (c : C) (w : Wake) (th : Thread L C) : Nat := if th.isWaiting c w then 1 else 0

/-- The number of threads that wait on `c` in the way `w`. -/
def waiters [Fintype Tid] (thr : Tid → Thread L C) (c : C) (w : Wake) : Nat := ∑ t, (thr t).tally c w

/-- The condition variable a notification is made on. -/
def Note.cond : Note C → C
  | .one c => c
  | .all c => c

/-- What a notification does to the numbers of sleeping and of notified threads. -/
def Note.effect : Note C → Nat × Nat → Nat × Nat
  | .one _, (b, g) => (b - 1, g + min b 1)
  | .all _, (b, g) => (0, g + b)

/-- The condition variable on which a section ends asleep. -/
def Next.cond : Next L C R → Option C
  | .wait c _ => some c
  | .ret _ => none

/-! ## The state of one thread -/

@[simp] theorem Thread.tally_idle (c : C) (w : Wake) : (idle : Thread L C).tally c w = 0 := rfl

@[simp] theorem Thread.tally_ready (c : C) (w : Wake) (l : L) : (ready l : Thread L C).tally c w = 0 := rfl

@[simp] theorem Thread.tally_waiting (c c' : C) (w w' : Wake) (l : L) :
    (waiting c' w' l : Thread L C).tally c w = if c = c' ∧ w = w' then 1 else 0 := by
  simp [tally, isWaiting]

theorem Next.tally_thread (nx : Next L C R) (c : C) (w : Wake) : nx.thread.tally c w = if nx.cond = some c ∧ w = .blocked then 1 else 0 := by
  cases nx with
  | wait c' l => simp [Next.thread, Next.cond, eq_comm]
  | ret r => simp [Next.thread, Next.cond]

/-- A thread asleep on a condition variable, from the test for it. -/
theorem Thread.eq_of_isWaiting {th : Thread L C} {c : C} {w : Wake} (h : th.isWaiting c w = true) : ∃ l, th = waiting c w l := by
  cases th with
  | idle => cases h
  | ready l => cases h
  | waiting c' w' l => grind [isWaiting]

/-- A thread that can run is not asleep. -/
theorem Thread.tally_of_runnable {th : Thread L C} {l : L} (h : th.runnable = some l) (c : C) :
    th.tally c .blocked = 0 ∧ th.tally c .signalled ≤ 1 := by
  cases th with
  | idle => cases h
  | ready l' => simp
  | waiting c' w l' =>
    refine ⟨?_, by rw [tally_waiting]; split <;> omega⟩
    cases w with
    | blocked => cases h
    | signalled => simp
    | spurious => simp

/-- A thread waits on the condition variable of its point, if that has one. -/
def WaitsAt (cond : L → Option C) : Thread L C → Prop
  | .idle => True
  | .ready l => cond l = none
  | .waiting c _ l => cond l = some c

/-- The thread of a section was inside the wait of its point, notified or woken on its own. -/
theorem WaitsAt.tally {cond : L → Option C} {th : Thread L C} {l : L} (h : WaitsAt cond th) (hl : th.runnable = some l) (c : C) :
    th.tally c .signalled + th.tally c .spurious = if cond l = some c then 1 else 0 := by
  cases th with
  | idle => cases hl
  | ready l' =>
    obtain rfl := some.inj hl
    simp [show cond l' = none from h]
  | waiting c' w l' =>
    have hc : cond l' = some c' := h
    cases w with
    | blocked => cases hl
    | signalled =>
      obtain rfl := some.inj hl
      simp [hc, eq_comm]
    | spurious =>
      obtain rfl := some.inj hl
      simp [hc, eq_comm]

/-! ## The numbers -/

section Count

variable [Fintype Tid]

omit [DecidableEq C] in
/-- How a sum over the threads changes when one of them moves. -/
theorem sum_update [DecidableEq Tid] {α : Type} (f : α → Nat) (g : Tid → α) (t : Tid) (x : α) :
    ∑ u, f (update g t x u) + f (g t) = ∑ u, f (g u) + f x := by
  have hr : ∑ u ∈ Finset.univ.erase t, f (update g t x u) = ∑ u ∈ Finset.univ.erase t, f (g u) :=
    Finset.sum_congr rfl fun u hu => by rw [update_of_ne (Finset.ne_of_mem_erase hu)]
  rw [← Finset.add_sum_erase _ _ (Finset.mem_univ t), hr, ← Finset.add_sum_erase _ (fun u => f (g u)) (Finset.mem_univ t), update_self]
  omega

theorem waiters_update [DecidableEq Tid] (thr : Tid → Thread L C) (t : Tid) (th : Thread L C) (c : C) (w : Wake) :
    waiters (update thr t th) c w + (thr t).tally c w = waiters thr c w + th.tally c w :=
  sum_update (Thread.tally c w) thr t th

theorem tally_le_waiters (thr : Tid → Thread L C) (t : Tid) (c : C) (w : Wake) : (thr t).tally c w ≤ waiters thr c w :=
  Finset.single_le_sum (f := fun u => (thr u).tally c w) (fun _ _ => Nat.zero_le _) (Finset.mem_univ t)

variable {thr thr' : Tid → Thread L C}

/-- Some thread waits when the number is not zero. -/
theorem waiters_pos_iff {c : C} {w : Wake} : 0 < waiters thr c w ↔ ∃ t, (thr t).isWaiting c w = true := by
  have one : ∀ th : Thread L C, 0 < th.tally c w ↔ th.isWaiting c w = true := by
    intro th
    unfold Thread.tally
    split <;> simp_all
  simp [waiters, Finset.sum_pos_iff, one]

theorem waiters_pos {t : Tid} {c : C} {w : Wake} {l : L} (h : thr t = .waiting c w l) : 0 < waiters thr c w :=
  waiters_pos_iff.2 ⟨t, by rw [h]; simp [Thread.isWaiting]⟩

theorem waiters_idle (c : C) (w : Wake) : waiters (fun _ : Tid => (.idle : Thread L C)) c w = 0 := by simp [waiters]

theorem waiters_signalAll (thr : Tid → Thread L C) (c c' : C) :
    (waiters (fun t => (thr t).signalAll c') c .blocked, waiters (fun t => (thr t).signalAll c') c .signalled) =
      (if c' = c then Note.effect (.all c') (waiters thr c .blocked, waiters thr c .signalled)
        else (waiters thr c .blocked, waiters thr c .signalled)) ∧
    waiters (fun t => (thr t).signalAll c') c .spurious = waiters thr c .spurious := by
  have one : ∀ th : Thread L C, (th.signalAll c').tally c .spurious = th.tally c .spurious ∧
      (th.signalAll c').tally c .blocked = (if c' = c then 0 else th.tally c .blocked) ∧
      (th.signalAll c').tally c .signalled = th.tally c .signalled + (if c' = c then th.tally c .blocked else 0) := by
    intro th
    cases th with
    | idle => simp [Thread.signalAll, Thread.isWaiting]
    | ready l => simp [Thread.signalAll, Thread.isWaiting]
    | waiting c'' w l =>
      by_cases h1 : c' = c'' <;> by_cases h2 : c' = c <;> cases w <;> simp_all [Thread.signalAll, Thread.isWaiting, Thread.signal, eq_comm]
  refine ⟨?_, Finset.sum_congr rfl fun t _ => (one (thr t)).1⟩
  simp only [waiters, (one _).2.1, (one _).2.2, Finset.sum_add_distrib]
  split <;> simp [Note.effect]

/-- The numbers after the notifications of a section: those on `c` move the sleepers on `c`, one or all, to the notified. -/
theorem notify_waiters [DecidableEq Tid] {ns : List (Note C)} {ps : List Tid} (h : notify thr ns ps = some thr') (c : C) :
    (waiters thr' c .blocked, waiters thr' c .signalled) =
      (ns.filter fun n => n.cond = c).foldl (fun p n => n.effect p) (waiters thr c .blocked, waiters thr c .signalled) ∧
    waiters thr' c .spurious = waiters thr c .spurious := by
  induction ns generalizing thr ps with
  | nil =>
    rw [notify_nil] at h
    split at h
    · rw [some.inj h]
      exact ⟨rfl, rfl⟩
    · cases h
  | cons n ns ih =>
    cases n with
    | all c' =>
      obtain ⟨h1, h2⟩ := ih h
      obtain ⟨h3, h4⟩ := waiters_signalAll thr c c'
      refine ⟨?_, h2.trans h4⟩
      rw [h1, h3]
      by_cases hc : c' = c <;> simp [Note.cond, hc]
    | one c' =>
      obtain ⟨p, ps', rfl, hp, h⟩ | ⟨hno, h⟩ := notify_one h
      · -- The thread `p` asleep on `c'` is notified.
        obtain ⟨h1, h2⟩ := ih h
        obtain ⟨l, hl⟩ := Thread.eq_of_isWaiting hp
        have hup := fun w => waiters_update thr p (thr p).signal c w
        have hle := tally_le_waiters thr p c .blocked
        have hb := hup .blocked
        have hg := hup .signalled
        have hs := hup .spurious
        rw [hl] at hb hg hs h1 h2
        by_cases hc : c' = c
        · subst hc
          simp only [Thread.signal, Thread.tally_waiting, and_self, and_false, if_true, if_false, reduceCtorEq, Nat.add_zero]
            at hb hg hs hle h1 h2
          refine ⟨?_, by rw [h2, hs]⟩
          rw [h1, filter_cons_of_pos (by simp [Note.cond]), foldl_cons]
          congr 1
          simp only [Note.effect, Prod.mk.injEq]
          omega
        · have hc' : c ≠ c' := fun he => hc he.symm
          simp only [Thread.signal, Thread.tally_waiting, hc', false_and, if_false, Nat.add_zero] at hb hg hs h1 h2
          refine ⟨?_, by rw [h2, hs]⟩
          rw [h1, hb, hg, filter_cons_of_neg (by simp [Note.cond, hc])]
      · obtain ⟨h1, h2⟩ := ih h
        refine ⟨?_, h2⟩
        rw [h1]
        by_cases hc : c' = c
        · subst hc
          -- Nobody sleeps: the notification is lost.
          have hz : waiters thr c' .blocked = 0 := by
            by_contra hne
            obtain ⟨t, ht⟩ := waiters_pos_iff.1 (Nat.pos_of_ne_zero hne)
            rw [hno t] at ht
            cases ht
          rw [filter_cons_of_pos (by simp [Note.cond])]
          simp [Note.effect, hz]
        · rw [filter_cons_of_neg (by simp [Note.cond, hc])]

/-- The numbers after a section: its thread leaves the notified, or those woken on their own, if it was one of them, and is asleep if the
section ends so. -/
theorem waiters_section [DecidableEq Tid] {ns : List (Note C)} {ps : List Tid} {t : Tid} {l : L}
    (hl : (thr t).runnable = some l) (h : notify thr ns ps = some thr') (nx : Next L C R) (c : C) {b g : Nat}
    (he : (ns.filter fun n => n.cond = c).foldl (fun p n => n.effect p) (waiters thr c .blocked, waiters thr c .signalled) = (b, g)) :
    waiters (update thr' t nx.thread) c .blocked = b + (if nx.cond = some c then 1 else 0) ∧
    waiters (update thr' t nx.thread) c .signalled + (thr t).tally c .signalled = g ∧
    waiters (update thr' t nx.thread) c .spurious + (thr t).tally c .spurious = waiters thr c .spurious := by
  have hs := notify_of_runnable h hl
  obtain ⟨hb0, _⟩ := Thread.tally_of_runnable hl c
  obtain ⟨hbg, hp'⟩ := notify_waiters h c
  rw [he, Prod.mk.injEq] at hbg
  have hb := waiters_update thr' t nx.thread c .blocked
  have hg := waiters_update thr' t nx.thread c .signalled
  have hp := waiters_update thr' t nx.thread c .spurious
  rw [hs, Next.tally_thread] at hb hg hp
  simp only [hb0, hbg.1, hbg.2, hp', and_true, and_false, reduceCtorEq] at hb hg hp
  exact ⟨hb, hg, hp⟩

/-- A thread that does not wait makes a call: the numbers are as before. -/
theorem waiters_call [DecidableEq Tid] {t : Tid} (h : thr t = .idle) (l : L) (c : C) (w : Wake) :
    waiters (update thr t (.ready l)) c w = waiters thr c w := by
  have := waiters_update thr t (.ready l) c w
  rwa [h] at this

/-- A sleeper wakes on its own: it is no longer asleep, and not notified. -/
theorem waiters_wake [DecidableEq Tid] {t : Tid} {c' : C} {l : L} (h : thr t = .waiting c' .blocked l) (c : C) :
    waiters (update thr t (.waiting c' .spurious l)) c .blocked + (if c = c' then 1 else 0) = waiters thr c .blocked ∧
    waiters (update thr t (.waiting c' .spurious l)) c .signalled = waiters thr c .signalled ∧
    waiters (update thr t (.waiting c' .spurious l)) c .spurious = waiters thr c .spurious + if c = c' then 1 else 0 := by
  have hup := fun w => waiters_update thr t (.waiting c' .spurious l) c w
  have hb := hup .blocked
  have hg := hup .signalled
  have hp := hup .spurious
  rw [h] at hb hg hp
  simp only [Thread.tally_waiting, and_true, and_false, if_false, reduceCtorEq, Nat.add_zero] at hb hg hp
  exact ⟨hb, hg, hp⟩

end Count

end CsLearning
