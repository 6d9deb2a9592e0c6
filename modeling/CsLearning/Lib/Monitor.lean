import CsLearning.Lib.Run

/-!
# Monitors with condition variables

A monitor is an object whose operations run under one mutex and may wait on condition variables. Between two acquisitions of
the mutex an operation is at a program point `l : L`; from a point it runs one critical section, which changes the shared state,
makes some notifications and ends in a wait or in a return (`Monitor.crit`). A wait with a predicate is a point whose section
tests the predicate again.

`Monitor.exec` is the semantics for any number of threads: a thread calls an operation, a waiting thread wakes without being
notified, or a thread that does not sleep takes the mutex and runs its section. `notify_one` wakes one of the threads asleep on
the condition variable when there is one; which one is part of the action. All notifications of a section come before its wait.
-/

open Function

namespace CsLearning

/-- A notification of a condition variable. -/
inductive Note (C : Type) where
  | one (c : C)
  | all (c : C)

/-- How a critical section ends: asleep on a condition variable at a program point, or with a result. -/
inductive Next (L C R : Type) where
  | wait (c : C) (l : L)
  | ret (r : R)

/-- A monitor over the shared state `S`: the program point at which an operation starts (the number is that of the call, for the
history only), and the critical section from each point. -/
structure Monitor (S L C O R : Type) where
  entry : Nat → O → L
  crit : S → L → S × List (Note C) × Next L C R

/-- A waiting thread is asleep, has been notified, or woke on its own; the last two have not taken the mutex yet. -/
inductive Wake where
  | blocked
  | signalled
  | spurious
  deriving DecidableEq, Repr

/-- A thread is outside the monitor, about to take the mutex for its first section, or inside a wait. -/
inductive Thread (L C : Type) where
  | idle
  | ready (l : L)
  | waiting (c : C) (w : Wake) (l : L)
  deriving DecidableEq, Repr

/-- The shared state, the threads, and the number of calls made so far. -/
structure MState (Tid S L C : Type) where
  shared : S
  thr : Tid → Thread L C
  calls : Nat

/-- What may happen next. `picks` are the threads that the `notify_one`s of the section wake, in order. -/
inductive MAct (Tid O : Type) where
  | call (t : Tid) (o : O)
  | wake (t : Tid)
  | run (t : Tid) (picks : List Tid)

/-- What did happen: a call with its number, a wake-up without notification, a section that ended in a wait, a return. -/
inductive MEv (Tid L C O R : Type) where
  | call (t : Tid) (n : Nat) (o : O)
  | wake (t : Tid)
  | wait (t : Tid) (c : C) (l : L)
  | ret (t : Tid) (r : R)
  deriving DecidableEq, Repr

/-- What the callers see: calls and returns. -/
inductive Obs (Tid O R : Type) where
  | call (t : Tid) (o : O)
  | ret (t : Tid) (r : R)
  deriving DecidableEq, Repr

variable {Tid S L C O R : Type}

/-- The observation an event gives. -/
def MEv.obs : MEv Tid L C O R → Option (Obs Tid O R)
  | .call t _ o => some (.call t o)
  | .wake _ => none
  | .wait _ _ _ => none
  | .ret t r => some (.ret t r)

namespace Thread

/-- The program point of a thread inside the monitor. -/
def loc : Thread L C → Option L
  | idle => none
  | ready l => some l
  | waiting _ _ l => some l

/-- The program point from which a thread can run: it does not sleep. -/
def runnable : Thread L C → Option L
  | idle => none
  | ready l => some l
  | waiting _ .blocked _ => none
  | waiting _ _ l => some l

/-- The thread waits on `c` in the given way. -/
def isWaiting [DecidableEq C] (c : C) (w : Wake) : Thread L C → Bool
  | waiting c' w' _ => decide (c = c' ∧ w = w')
  | _ => false

/-- A sleeping thread is notified. -/
def signal : Thread L C → Thread L C
  | waiting c .blocked l => waiting c .signalled l
  | th => th

/-- The thread after a notification of everyone asleep on `c`. -/
def signalAll [DecidableEq C] (c : C) (th : Thread L C) : Thread L C :=
  if th.isWaiting c .blocked then th.signal else th

/-- A notification wakes a sleeper or does nothing. -/
def Woken (th th' : Thread L C) : Prop :=
  th' = th ∨ ∃ c l, th = waiting c .blocked l ∧ th' = waiting c .signalled l

theorem woken_signal (th : Thread L C) : Woken th th.signal := by
  cases th with
  | idle => exact Or.inl rfl
  | ready l => exact Or.inl rfl
  | waiting c w l =>
    cases w with
    | blocked => exact Or.inr ⟨c, l, rfl, rfl⟩
    | signalled => exact Or.inl rfl
    | spurious => exact Or.inl rfl

theorem woken_signalAll [DecidableEq C] (c : C) (th : Thread L C) : Woken th (th.signalAll c) := by
  unfold signalAll
  split
  · exact woken_signal th
  · exact Or.inl rfl

theorem Woken.trans {th th' th'' : Thread L C} (h : Woken th th') (h' : Woken th' th'') : Woken th th'' := by
  rcases h with rfl | ⟨c, l, h1, h2⟩
  · exact h'
  · rcases h' with rfl | ⟨c', l', h3, _⟩
    · exact Or.inr ⟨c, l, h1, h2⟩
    · rw [h2] at h3
      cases h3

/-- A thread that can run is at the point from which it runs. -/
theorem loc_of_runnable {th : Thread L C} {l : L} (h : th.runnable = some l) : th.loc = some l := by
  cases th with
  | idle => cases h
  | ready l' => exact h
  | waiting c w l' => cases w <;> first | exact h | cases h

theorem eq_idle_of_loc {th : Thread L C} (h : th.loc = none) : th = idle := by
  cases th with
  | idle => rfl
  | ready l => cases h
  | waiting c w l => cases h

end Thread

/-- The thread whose section has ended. -/
def Next.thread : Next L C R → Thread L C
  | .wait c l => .waiting c .blocked l
  | .ret _ => .idle

/-- The event of a section of the thread `t`. -/
def Next.event (t : Tid) : Next L C R → MEv Tid L C O R
  | .wait c l => .wait t c l
  | .ret r => .ret t r

section Exec

variable [Fintype Tid] [DecidableEq Tid] [DecidableEq C]

/-- The threads after a list of notifications, in which `picks` are the threads woken by those to one waiter. A notification of
one waiter wakes a thread when some thread is asleep on the condition variable, and is lost otherwise. -/
def notify (thr : Tid → Thread L C) : List (Note C) → List Tid → Option (Tid → Thread L C)
  | [], ps => if ps.isEmpty then some thr else none
  | .all c :: ns, ps => notify (fun t => (thr t).signalAll c) ns ps
  | .one c :: ns, ps =>
    if ∃ t, (thr t).isWaiting c .blocked = true then
      match ps with
      | [] => none
      | p :: ps => if (thr p).isWaiting c .blocked then notify (Function.update thr p (thr p).signal) ns ps else none
    else notify thr ns ps

/-- One step of the monitor's threads. -/
def Monitor.exec (M : Monitor S L C O R) (s : MState Tid S L C) :
    MAct Tid O → Option (MState Tid S L C × MEv Tid L C O R)
  | .call t o =>
    match s.thr t with
    | .idle =>
      some (⟨s.shared, Function.update s.thr t (.ready (M.entry s.calls o)), s.calls + 1⟩, .call t s.calls o)
    | _ => none
  | .wake t =>
    match s.thr t with
    | .waiting c .blocked l => some (⟨s.shared, Function.update s.thr t (.waiting c .spurious l), s.calls⟩, .wake t)
    | _ => none
  | .run t picks =>
    match (s.thr t).runnable with
    | none => none
    | some l =>
      let (sh, ns, nx) := M.crit s.shared l
      match notify s.thr ns picks with
      | none => none
      | some thr => some (⟨sh, Function.update thr t nx.thread, s.calls⟩, nx.event t)

end Exec

/-- All threads outside the monitor, no call made. -/
def Monitor.init (Tid : Type) (sh : S) : MState Tid S L C := ⟨sh, fun _ => .idle, 0⟩

/-- The program points of the threads. -/
def MState.loc (s : MState Tid S L C) (t : Tid) : Option L := (s.thr t).loc

/-- The point after a section. -/
def Next.loc : Next L C R → Option L
  | .wait _ l => some l
  | .ret _ => none

/-- The result of a section that returns. -/
def Next.result : Next L C R → Option R
  | .wait _ _ => none
  | .ret r => some r

theorem Next.obs_event (nx : Next L C R) (t : Tid) : (nx.event t : MEv Tid L C O R).obs = nx.result.map (.ret t) := by
  cases nx <;> rfl

@[simp] theorem Next.loc_thread (nx : Next L C R) : nx.thread.loc = nx.loc := by cases nx <;> rfl

/-! ## What a step does to the shared state and the program points -/

section Steps

variable [DecidableEq Tid]

/-- A step as far as the shared state and the program points go: which threads sleep and which have been notified is left out,
since a thread may wake on its own at any time. -/
inductive MStep (M : Monitor S L C O R) (s : MState Tid S L C) :
    MAct Tid O → MEv Tid L C O R → MState Tid S L C → Prop where
  | call {s' : MState Tid S L C} (t : Tid) (o : O) : s.loc t = none → s'.shared = s.shared →
      s'.loc = Function.update s.loc t (some (M.entry s.calls o)) → s'.calls = s.calls + 1 →
      MStep M s (.call t o) (.call t s.calls o) s'
  | wake {s' : MState Tid S L C} (t : Tid) : s'.shared = s.shared → s'.loc = s.loc → s'.calls = s.calls →
      MStep M s (.wake t) (.wake t) s'
  | run {s' : MState Tid S L C} (t : Tid) (ps : List Tid) (l : L) : s.loc t = some l →
      s'.shared = (M.crit s.shared l).1 → s'.loc = Function.update s.loc t (M.crit s.shared l).2.2.loc →
      s'.calls = s.calls → MStep M s (.run t ps) ((M.crit s.shared l).2.2.event t) s'

variable [Fintype Tid] [DecidableEq C]

theorem notify_nil (thr : Tid → Thread L C) (ps : List Tid) : notify thr [] ps = if ps.isEmpty then some thr else none := rfl

theorem notify_all (thr : Tid → Thread L C) (c : C) (ns : List (Note C)) (ps : List Tid) :
    notify thr (.all c :: ns) ps = notify (fun t => (thr t).signalAll c) ns ps := rfl

variable {thr thr' : Tid → Thread L C} {ns : List (Note C)} {ps : List Tid} {t : Tid} {l : L} {s s' : MState Tid S L C}

/-- A notification of one waiter wakes one of the sleepers, if there is any. -/
theorem notify_one {c : C} (h : notify thr (.one c :: ns) ps = some thr') : (∃ p ps', ps = p :: ps' ∧ (thr p).isWaiting c .blocked = true ∧
      notify (update thr p (thr p).signal) ns ps' = some thr') ∨
    ((∀ t, (thr t).isWaiting c .blocked = false) ∧ notify thr ns ps = some thr') := by
  rw [notify.eq_def] at h
  simp only at h
  split at h
  · cases ps with
    | nil => cases h
    | cons p ps =>
      simp only at h
      split at h
      · rename_i hp
        exact Or.inl ⟨p, ps, rfl, hp, h⟩
      · cases h
  · grind

section

variable (h : notify thr ns ps = some thr')

include h

/-- Notifications wake sleepers and do nothing else. -/
theorem notify_woken (t : Tid) : (thr t).Woken (thr' t) := by
  induction ns generalizing thr ps with
  | nil =>
    rw [notify_nil] at h
    split at h
    · exact Or.inl (by rw [← Option.some.inj h])
    · cases h
  | cons n ns ih =>
    cases n with
    | all c =>
      exact (Thread.woken_signalAll c (thr t)).trans (ih h)
    | one c =>
      obtain ⟨p, ps', rfl, _, h⟩ | ⟨_, h⟩ := notify_one h
      · refine Thread.Woken.trans ?_ (ih h)
        by_cases htp : t = p
        · subst htp
          rw [update_self]
          exact Thread.woken_signal (thr t)
        · exact Or.inl (update_of_ne htp _ _)
      · exact ih h

/-- Notifications move no program point. -/
theorem notify_loc (t : Tid) : (thr' t).loc = (thr t).loc := by
  rcases notify_woken h t with he | ⟨c, l, h1, h2⟩
  · rw [he]
  · rw [h1, h2]
    rfl

/-- Notifications do not change a thread that does not sleep. -/
theorem notify_of_runnable (ht : (thr t).runnable = some l) : thr' t = thr t := by
  rcases notify_woken h t with he | ⟨c, l', h1, _⟩
  · exact he
  · rw [h1] at ht
    cases ht

/-- Whoever is asleep after the notifications was asleep before. -/
theorem notify_asleep {c : C} (hb : thr' t = .waiting c .blocked l) : thr t = .waiting c .blocked l := by
  rcases notify_woken h t with he | ⟨c', l', _, h2⟩
  · rw [← he, hb]
  · rw [h2] at hb
    cases hb

theorem notify_all_awake {c : C} (hb : thr' t = .waiting c .blocked l) : .all c ∉ ns := by
  induction ns generalizing thr ps with
  | nil => exact List.not_mem_nil
  | cons n ns ih =>
    cases n with
    | all c' =>
      rw [notify_all] at h
      rw [List.mem_cons, not_or]
      refine ⟨?_, ih h⟩
      rintro ⟨rfl⟩
      -- Asleep after the rest of the list, so asleep behind its own notification, so asleep before it.
      have h1 : (thr t).signalAll c = .waiting c .blocked l := notify_asleep h hb
      rcases Thread.woken_signalAll c (thr t) with he | ⟨c', l', _, h2⟩
      · have h2 : thr t = .waiting c .blocked l := he.symm.trans h1
        rw [h2] at h1
        simp [Thread.signalAll, Thread.isWaiting, Thread.signal] at h1
      · rw [h2] at h1
        cases h1
    | one c' =>
      obtain ⟨p, ps', rfl, _, h⟩ | ⟨_, h⟩ := notify_one h
      · simpa using ih h
      · simpa using ih h

end

/-- Some choice of waiters makes the notifications possible. -/
theorem exists_notify (thr : Tid → Thread L C) (ns : List (Note C)) : ∃ ps thr', notify thr ns ps = some thr' := by
  induction ns generalizing thr with
  | nil => exact ⟨[], thr, rfl⟩
  | cons n ns ih =>
    cases n with
    | all c =>
      obtain ⟨ps, thr', h⟩ := ih (fun t => (thr t).signalAll c)
      exact ⟨ps, thr', by rw [notify_all, h]⟩
    | one c =>
      by_cases hb : ∃ t, (thr t).isWaiting c .blocked = true
      · obtain ⟨p, hp⟩ := hb
        obtain ⟨ps, thr', h⟩ := ih (update thr p (thr p).signal)
        refine ⟨p :: ps, thr', ?_⟩
        rw [notify.eq_def]
        simp only [if_pos (⟨p, hp⟩ : ∃ t, (thr t).isWaiting c .blocked = true), hp, if_true, h]
      · obtain ⟨ps, thr', h⟩ := ih thr
        refine ⟨ps, thr', ?_⟩
        rw [notify.eq_def]
        simp only [if_neg hb, h]

/-- A step in full, with the threads that sleep and those that have been notified. -/
inductive TStep (M : Monitor S L C O R) (s : MState Tid S L C) :
    MAct Tid O → MEv Tid L C O R → MState Tid S L C → Prop where
  | call (t : Tid) (o : O) : s.thr t = .idle →
      TStep M s (.call t o) (.call t s.calls o)
        ⟨s.shared, Function.update s.thr t (.ready (M.entry s.calls o)), s.calls + 1⟩
  | wake (t : Tid) (c : C) (l : L) : s.thr t = .waiting c .blocked l →
      TStep M s (.wake t) (.wake t) ⟨s.shared, Function.update s.thr t (.waiting c .spurious l), s.calls⟩
  | run (t : Tid) (ps : List Tid) (l : L) (thr : Tid → Thread L C) : (s.thr t).runnable = some l →
      notify s.thr (M.crit s.shared l).2.1 ps = some thr →
      TStep M s (.run t ps) ((M.crit s.shared l).2.2.event t)
        ⟨(M.crit s.shared l).1, Function.update thr t (M.crit s.shared l).2.2.thread, s.calls⟩

theorem Monitor.exec_full {M : Monitor S L C O R} {a : MAct Tid O} {e : MEv Tid L C O R} (h : M.exec s a = some (s', e)) : TStep M s a e s' := by
  cases a with
  | call t o =>
    rw [Monitor.exec] at h
    split at h
    · rename_i hi
      cases h
      exact TStep.call t o hi
    · cases h
  | wake t =>
    rw [Monitor.exec] at h
    split at h
    · grind [TStep.wake]
    · cases h
  | run t ps =>
    rw [Monitor.exec] at h
    split at h
    · cases h
    · rename_i l hl
      simp only at h
      split at h
      · cases h
      · rename_i thr hthr
        cases h
        exact TStep.run t ps l thr hl hthr

/-- What holds of every thread, however it waits, is kept by a step when it holds at the start of a call and at the end of a section. -/
theorem Monitor.forall_thread {M : Monitor S L C O R} {a : MAct Tid O} {e : MEv Tid L C O R} {P : Thread L C → Prop}
    (h : M.exec s a = some (s', e)) (hs : ∀ t, P (s.thr t)) (hc : ∀ n o, P (.ready (M.entry n o)))
    (hn : ∀ l, P (M.crit s.shared l).2.2.thread) (hwake : ∀ c w l, P (.waiting c .blocked l) → P (.waiting c w l)) :
    ∀ t, P (s'.thr t) := by
  cases M.exec_full h with
  | call t o hi => exact (forall_update_iff _ fun _ => P).mpr ⟨hc _ o, fun u _ => hs u⟩
  | wake t c l hi => exact (forall_update_iff _ fun _ => P).mpr ⟨hwake c _ l (hi ▸ hs t), fun u _ => hs u⟩
  | run t ps l thr hl hthr =>
    refine (forall_update_iff _ fun _ => P).mpr ⟨hn l, fun u _ => ?_⟩
    rcases notify_woken hthr u with he | ⟨c, l, hb, he⟩
    · rw [he]
      exact hs u
    · rw [he]
      exact hwake c _ l (hb ▸ hs u)

theorem Monitor.run_call (M : Monitor S L C O R) (o : O) (hi : s.thr t = .idle) :
    ∃ s', Run M.exec s [.call t s.calls o] s' ∧ s'.shared = s.shared ∧ s'.thr t = .ready (M.entry s.calls o) ∧
      (∀ u, u ≠ t → s'.thr u = s.thr u) ∧ s'.calls = s.calls + 1 := by
  refine ⟨⟨s.shared, update s.thr t (.ready (M.entry s.calls o)), s.calls + 1⟩,
    RunIf.single (a := .call t o) trivial ?_, rfl, update_self .., fun u hu => update_of_ne hu .., rfl⟩
  rw [Monitor.exec]
  simp only [hi]

theorem Monitor.run_wake (M : Monitor S L C O R) {c : C} (hi : s.thr t = .waiting c .blocked l) :
    ∃ s', Run M.exec s [.wake t] s' ∧ s'.shared = s.shared ∧ s'.thr t = .waiting c .spurious l ∧
      (∀ u, u ≠ t → s'.thr u = s.thr u) ∧ s'.calls = s.calls := by
  refine ⟨⟨s.shared, update s.thr t (.waiting c .spurious l), s.calls⟩,
    RunIf.single (a := .wake t) trivial ?_, rfl, update_self .., fun u hu => update_of_ne hu .., rfl⟩
  rw [Monitor.exec]
  simp only [hi]

/-- A thread that does not sleep runs its section. -/
theorem Monitor.run_section (M : Monitor S L C O R) {sh0 sh : S}
    {nx : Next L C R} (ps : List Tid) (hl : (s.thr t).runnable = some l) (hsh : s.shared = sh0)
    (hc : M.crit sh0 l = (sh, ns, nx)) (hn : notify s.thr ns ps = some thr) :
    ∃ s', Run M.exec s [nx.event t] s' ∧ s'.shared = sh ∧ s'.thr t = nx.thread ∧ (∀ u, u ≠ t → s'.thr u = thr u) ∧ s'.calls = s.calls := by
  refine ⟨⟨sh, update thr t nx.thread, s.calls⟩, RunIf.single (a := .run t ps) trivial ?_, rfl, update_self .., fun u hu => update_of_ne hu .., rfl⟩
  rw [Monitor.exec]
  simp only [hl, hsh, hc, hn]

omit [Fintype Tid] [DecidableEq C] in
theorem MState.loc_eq_update {ol : Option L} (ht : s'.loc t = ol) (ho : ∀ u, u ≠ t → s'.loc u = s.loc u) : s'.loc = update s.loc t ol := by grind

/-- Every step of the threads is a step on the shared state and the program points. -/
theorem Monitor.exec_step {M : Monitor S L C O R} {a : MAct Tid O} {e : MEv Tid L C O R} (h : M.exec s a = some (s', e)) : MStep M s a e s' := by
  cases M.exec_full h with
  | call t o hi => grind [MStep.call, MState.loc, Thread.loc]
  | wake t c l hi =>
    refine MStep.wake t rfl ?_ rfl
    funext u
    by_cases hu : u = t
    · subst hu; simp [MState.loc, hi, Thread.loc]
    · simp [MState.loc, hu]
  | run t ps l thr hl hthr =>
    refine MStep.run t ps l (Thread.loc_of_runnable hl) rfl (MState.loc_eq_update ?_ ?_) rfl
    · simp [MState.loc]
    · exact fun u hu => by simp [MState.loc, hu, notify_loc hthr u]

/-- A thread inside the monitor can take the mutex and run its section, after waking on its own if it sleeps. -/
theorem Monitor.exists_run (M : Monitor S L C O R) (h : s.loc t = some l) : ∃ es s', Run M.exec s es s' ∧ s'.shared = (M.crit s.shared l).1 ∧
      s'.loc = update s.loc t (M.crit s.shared l).2.2.loc ∧ s'.calls = s.calls ∧
      es.filterMap MEv.obs = ((M.crit s.shared l).2.2.event t : MEv Tid L C O R).obs.toList := by
  -- A thread that does not sleep runs at once.
  have awake : ∀ s1 : MState Tid S L C, (s1.thr t).runnable = some l → s1.shared = s.shared →
      (∀ u, u ≠ t → s1.loc u = s.loc u) → ∃ s', Run M.exec s1 [(M.crit s.shared l).2.2.event t] s' ∧
        s'.shared = (M.crit s.shared l).1 ∧ s'.loc = update s.loc t (M.crit s.shared l).2.2.loc ∧
        s'.calls = s1.calls := by
    intro s1 hrun hsh hloc
    obtain ⟨ps, thr, hthr⟩ := exists_notify s1.thr (M.crit s.shared l).2.1
    obtain ⟨s', hr, h1, h2, h3, h4⟩ := M.run_section ps hrun hsh rfl hthr
    refine ⟨s', hr, h1, MState.loc_eq_update ?_ fun u hu => ?_, h4⟩
    · rw [MState.loc, h2, Next.loc_thread]
    · rw [MState.loc, h3 u hu, notify_loc hthr u, ← hloc u hu, MState.loc]
  have one : ([(M.crit s.shared l).2.2.event t] : List (MEv Tid L C O R)).filterMap MEv.obs =
      ((M.crit s.shared l).2.2.event t : MEv Tid L C O R).obs.toList := by
    cases (M.crit s.shared l).2.2 <;> rfl
  by_cases hrun : (s.thr t).runnable = some l
  · grind
  · -- It sleeps: it wakes on its own first.
    have hw : ∃ c, s.thr t = .waiting c .blocked l := by
      cases hth : s.thr t with
      | idle => rw [MState.loc, hth] at h; cases h
      | ready l' =>
        rw [MState.loc, hth] at h
        exact absurd (by rw [hth]; exact h) hrun
      | waiting c w l' =>
        rw [MState.loc, hth] at h
        obtain rfl : l' = l := by simpa [Thread.loc] using h
        cases w with
        | blocked => exact ⟨c, rfl⟩
        | signalled => exact absurd (by rw [hth]; rfl) hrun
        | spurious => exact absurd (by rw [hth]; rfl) hrun
    obtain ⟨c, hc⟩ := hw
    obtain ⟨s1, hr1, hsh, ht, ho, hcs⟩ := M.run_wake hc
    obtain ⟨s', hr, h1, h2, h3⟩ := awake s1 (by rw [ht]; rfl) hsh fun u hu => by rw [MState.loc, ho u hu, MState.loc]
    exact ⟨_, s', hr1.trans hr, h1, h2, h3.trans hcs, by exact one⟩

theorem Monitor.exists_call (M : Monitor S L C O R) (o : O) (h : s.loc t = none) : ∃ s', Run M.exec s [.call t s.calls o] s' ∧ s'.shared = s.shared ∧
      s'.loc = update s.loc t (some (M.entry s.calls o)) ∧ s'.calls = s.calls + 1 := by
  obtain ⟨s', hr, h1, h2, h3, h4⟩ := M.run_call o (Thread.eq_idle_of_loc h)
  refine ⟨s', hr, h1, MState.loc_eq_update ?_ fun u hu => ?_, h4⟩
  · rw [MState.loc, h2]
    rfl
  · rw [MState.loc, h3 u hu, MState.loc]

end Steps

end CsLearning
