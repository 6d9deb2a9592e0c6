import CsLearning.Code.ThreadPool

/-!
# The thread pool: conservation of tasks

`pool_conserves_tasks`: every task that is added is taken by one worker, in order, and run once, or is still in the deque; and once
`stop` has returned, no task that was taken is left unfinished.
-/

open List Function

namespace CsLearning.Code

/-! ## The points of the threads -/

section Points

variable {n : Nat} {K F : Type} {s s' : PoolState n K F} {e : PoolEv n K F}

/-- The workers that `stop` has joined. -/
def Stop.joined : Stop n → Fin n → Prop
  | .joining rest, w => w ∉ rest
  | .returned, _ => True
  | _, _ => False

/-- A worker runs a task that holds a function; only workers that are in `take` are at its points; the workers that `stop` has joined have
left their loop. -/
structure Points (s : PoolState n K F) : Prop where
  callable : ∀ w x, s.worker w = .running x → x.fn.isSome = true
  inTake : ∀ w l, s.inner.loc (.inl w) = some l → TakeAt l → s.worker w = .inTake
  client : ∀ k l, s.inner.loc (.inr k) = some l → ¬TakeAt l
  joined : ∀ w, s.stop.joined w → s.worker w = .exited

variable {nx : Next (PoolLoc F) Unit (PoolRes F)} {worker : Fin n → Worker F} {i : MState (Fin n ⊕ K) (Pool F) (PoolLoc F) Unit}

theorem PoolState.workerAfter_event (s : PoolState n K F) (t : Fin n ⊕ K)
    (h : ∀ x, nx ≠ .ret (.taken x)) : s.workerAfter (nx.event t) = s.worker := by
  cases nx with
  | wait c l => cases t <;> rfl
  | ret r =>
    cases r with
    | taken x => exact absurd rfl (h x)
    | added x => cases t <;> rfl
    | stopped => cases t <;> rfl

theorem Worker.isSome_of_afterTake (x : Option (Task F)) : ∀ y, Worker.afterTake x = .running y → y.fn.isSome = true := by
  intro y hy
  cases x with
  | none => cases hy
  | some x =>
    unfold Worker.afterTake at hy
    simp only at hy
    split at hy
    · rename_i hx
      cases hy
      exact hx
    · cases hy

/-- A worker that has not left its loop moves. -/
theorem Points.update (h : Points s) {w : Fin n} {x : Worker F} (hw : s.worker w ≠ .exited) (hx : ∀ y, x = .running y → y.fn.isSome = true) :
    (∀ v y, update s.worker w x v = .running y → y.fn.isSome = true) ∧ ∀ v, s.stop.joined v → update s.worker w x v = .exited := by
  constructor
  · intro v y hy
    by_cases hv : v = w
    · subst hv
      rw [update_self] at hy
      exact hx y hy
    · rw [update_of_ne hv] at hy
      exact h.callable v y hy
  · intro v hv
    have he := h.joined v hv
    rw [update_of_ne]
    · exact he
    · rintro rfl
      exact hw he

theorem Points.outside (h : Points s) {stop : Stop n} (ho : Outside s e worker stop) : Points ⟨s.inner, worker, stop⟩ := by
  -- A worker that moves here is not in `take`.
  have move : ∀ w x, s.worker w ≠ .exited → s.worker w ≠ .inTake → (∀ y, x = .running y → y.fn.isSome = true) →
      Points ⟨s.inner, Function.update s.worker w x, s.stop⟩ := by
    intro w x hw ht hx
    obtain ⟨hc, hj⟩ := h.update hw hx
    refine ⟨hc, fun v l hl hta => ?_, h.client, hj⟩
    have hv := h.inTake v l hl hta
    simp only
    rw [update_of_ne]
    · exact hv
    · rintro rfl
      exact ht hv
  cases ho with
  | exit w hw _ => grind
  | finish w x hw _ => grind
  | join w rest hs hw =>
    refine ⟨h.callable, h.inTake, h.client, fun v hv => ?_⟩
    by_cases hvw : v = w
    · rw [hvw]
      exact hw
    · refine h.joined v ?_
      rw [hs]
      exact fun hm => (mem_cons.mp hm).elim hvw hv
  | returned hs =>
    refine ⟨h.callable, h.inTake, h.client, fun v _ => h.joined v ?_⟩
    rw [hs]
    exact not_mem_nil

variable [DecidableEq K]

theorem Points.call (h : Points s) {t : Fin n ⊕ K} {o : PoolOp F} {stop : Stop n} (hc : Called s t o worker stop)
    (hloc : i.loc = Function.update s.inner.loc t (some o.entry)) : Points ⟨i, worker, stop⟩ := by
  have hold : ∀ u l, i.loc u = some l → TakeAt l → u = t ∧ o = .take ∨ s.inner.loc u = some l := by
    intro u l hu hta
    rw [hloc] at hu
    by_cases hut : u = t
    · subst hut
      rw [update_self] at hu
      obtain rfl := Option.some.inj hu
      refine Or.inl ⟨rfl, ?_⟩
      cases o with
      | take => rfl
      | addTask fn => cases hta
      | stop => cases hta
    · rw [update_of_ne hut] at hu
      exact Or.inr hu
  cases hc with
  | addTask t fn hm =>
    refine ⟨h.callable, fun w l hl hta => ?_, fun k l hl hta => ?_, h.joined⟩
    · exact h.inTake w l ((hold _ l hl hta).resolve_left (by simp)) hta
    · exact h.client k l ((hold _ l hl hta).resolve_left (by simp)) hta
  | stop k hs =>
    refine ⟨h.callable, fun w l hl hta => ?_, fun k l hl hta => ?_, fun w hw => hw.elim⟩
    · exact h.inTake w l ((hold _ l hl hta).resolve_left (by simp)) hta
    · exact h.client k l ((hold _ l hl hta).resolve_left (by simp)) hta
  | take w hw hs =>
    obtain ⟨hcall, hj⟩ := h.update (x := .inTake) (w := w) (by rw [hw]; simp) (by simp)
    refine ⟨hcall, fun v l hl hta => ?_, fun k l hl hta => ?_, hj⟩
    · by_cases hv : v = w
      · subst hv
        exact update_self ..
      · simp only
        rw [update_of_ne hv]
        refine h.inTake v l ((hold _ l hl hta).resolve_left fun hf => hv ?_) hta
        exact Sum.inl.inj hf.1
    · exact h.client k l ((hold _ l hl hta).resolve_left (by simp)) hta

/-- The point of `take` of a thread that is not at the end of a section. -/
theorem Points.run (h : Points s) {t : Fin n ⊕ K} {l : PoolLoc F} {ns : List (Note Unit)} (hl : s.inner.loc t = some l)
    (hv : PoolView s.inner.shared l i.shared ns nx) (hloc : i.loc = Function.update s.inner.loc t nx.loc) :
    Points ⟨i, s.workerAfter (nx.event t), s.stopAfter (nx.event t)⟩ := by
  have hold : ∀ u l', u ≠ t → i.loc u = some l' → s.inner.loc u = some l' := by
    intro u l' hut hu
    rwa [hloc, update_of_ne hut] at hu
  have hself : ∀ l', i.loc t = some l' → nx.loc = some l' := by
    intro l' ht
    rwa [hloc, update_self] at ht
  -- A section that does not return from `take` leaves the workers alone.
  have keep : ∀ stop, (∀ w, stop.joined w → s.worker w = .exited) → (∀ l', nx.loc = some l' → TakeAt l' → TakeAt l) → Points ⟨i, s.worker, stop⟩ := by
    intro stop hj hnx
    refine ⟨h.callable, fun w l' hw hta => ?_, fun k l' hk hta => ?_, hj⟩
    · by_cases hwt : Sum.inl w = t
      · subst hwt
        exact h.inTake w l hl (hnx l' (hself l' hw) hta)
      · exact h.inTake w l' (hold _ l' hwt hw) hta
    · by_cases hkt : Sum.inr k = t
      · subst hkt
        exact h.client k l hl (hnx l' (hself l' hk) hta)
      · exact h.client k l' (hold _ l' hkt hk) hta
  -- A section that returns from `take` is one of a worker in `take`.
  have ret : ∀ x, TakeAt l → nx = .ret (.taken x) → Points ⟨i, s.workerAfter (nx.event t), s.stopAfter (nx.event t)⟩ := by
    intro x hta hnx
    subst hnx
    cases t with
    | inr k => exact absurd hta (h.client k l hl)
    | inl w =>
      have hw := h.inTake w l hl hta
      obtain ⟨hcall, hj⟩ := h.update (w := w) (by rw [hw]; simp) (Worker.isSome_of_afterTake x)
      refine ⟨hcall, fun v l' hv' hta' => ?_, fun k l' hk hta' => h.client k l' (hold _ l' (by simp) hk) hta', hj⟩
      by_cases hvw : v = w
      · subst hvw
        cases hself l' hv'
      · have hne : (Sum.inl v : Fin n ⊕ K) ≠ Sum.inl w := fun hf => hvw (Sum.inl.inj hf)
        exact (update_of_ne hvw _ _).trans (h.inTake v l' (hold _ l' hne hv') hta')
  generalize i.shared = p at hv
  cases hv with
  | addTask fn =>
    rw [s.workerAfter_event t (by simp)]
    refine keep s.stop h.joined fun l' hl' => ?_
    cases hl'
  | sleep hta _ _ =>
    exact keep s.stop h.joined fun _ _ _ => hta
  | take hta _ _ => exact ret _ hta rfl
  | stopped hta _ => exact ret _ hta rfl
  | stop =>
    rw [s.workerAfter_event t (by simp)]
    refine keep (.joining (List.finRange n)) (fun w hw => absurd (mem_finRange w) hw) fun l' hl' => ?_
    cases hl'

theorem Points.step (h : Points s) (hx : PStep s e s') : Points s' := by
  cases hx with
  | call t o worker stop hc _ _ hloc => exact h.call hc hloc
  | wake t _ hloc =>
    refine ⟨h.callable, fun w l hl => ?_, fun k l hl => ?_, h.joined⟩
    · simp only [hloc] at hl
      exact h.inTake w l hl
    · simp only [hloc] at hl
      exact h.client k l hl
  | run t l ns nx hl hv hloc => exact h.run hl hv hloc
  | outside e worker stop ho => exact h.outside ho

end Points

/-! ## Conservation of tasks -/

section Conservation

variable {n : Nat} {K F : Type} {s s' : PoolState n K F} {e : PoolEv n K F} {es : List (PoolEv n K F)}

/-- The tasks taken and those in the deque are the tasks added, which are numbered in order; each worker has run the tasks that it took,
up to the one it is in. -/
structure Balanced (es : List (PoolEv n K F)) (s : PoolState n K F) : Prop where
  balance : (takenTasks es).map Prod.snd ++ s.inner.shared.tasks = addedTasks es
  nums : (addedTasks es).map Task.num = List.range s.inner.shared.added
  runs : ∀ w, runsOf w (takenTasks es) = runsOf w (finishedTasks es) ++ (s.worker w).current

theorem runsOf_append (w : Fin n) (xs ys : List (Fin n × Task F)) : runsOf w (xs ++ ys) = runsOf w xs ++ runsOf w ys := by
  simp [runsOf]

theorem runsOf_singleton (w v : Fin n) (x : Task F) : runsOf w [(v, x)] = if v = w ∧ x.fn.isSome then [x] else [] := by
  by_cases h : v = w ∧ x.fn.isSome <;> simp [runsOf, h]

theorem addedTasks_snoc (es : List (PoolEv n K F)) (e : PoolEv n K F) : addedTasks (es ++ [e]) = addedTasks es ++ e.added.toList :=
  filterMap_snoc _ es e

theorem takenTasks_snoc (es : List (PoolEv n K F)) (e : PoolEv n K F) : takenTasks (es ++ [e]) = takenTasks es ++ e.taken.toList :=
  filterMap_snoc _ es e

theorem finishedTasks_snoc (es : List (PoolEv n K F)) (e : PoolEv n K F) : finishedTasks (es ++ [e]) = finishedTasks es ++ e.finished.toList :=
  filterMap_snoc _ es e

/-- What a step has to do to the deque, to the numbers and to the task each worker is in. -/
theorem Balanced.snoc (h : Balanced es s) (hbal : e.taken.toList.map Prod.snd ++ s'.inner.shared.tasks = s.inner.shared.tasks ++ e.added.toList)
    (hnums : List.range s.inner.shared.added ++ e.added.toList.map Task.num = List.range s'.inner.shared.added)
    (hruns : ∀ w, (s.worker w).current ++ runsOf w e.taken.toList = runsOf w e.finished.toList ++ (s'.worker w).current) :
    Balanced (es ++ [e]) s' := by
  refine ⟨?_, ?_, fun w => ?_⟩
  · rw [takenTasks_snoc, addedTasks_snoc, map_append, append_assoc, hbal, ← append_assoc, h.balance]
  · rw [addedTasks_snoc, map_append, h.nums, hnums]
  · rw [takenTasks_snoc, finishedTasks_snoc, runsOf_append, runsOf_append, h.runs w, append_assoc, hruns w, append_assoc]

/-- A step that adds, takes and ends no task. -/
theorem Balanced.quiet (h : Balanced es s) (ha : e.added = none) (ht : e.taken = none) (hf : e.finished = none)
    (htasks : s'.inner.shared.tasks = s.inner.shared.tasks) (hadded : s'.inner.shared.added = s.inner.shared.added)
    (hcur : ∀ w, (s'.worker w).current = (s.worker w).current) : Balanced (es ++ [e]) s' := by
  refine h.snoc ?_ ?_ fun w => ?_
  · simp [ha, ht, htasks]
  · simp [ha, hadded]
  · simp [ht, hf, hcur w, runsOf]

variable {worker : Fin n → Worker F}

/-- A worker that is in no task moves to a point where it is in none. -/
theorem current_update {w : Fin n} {x : Worker F} (hw : (worker w).current = []) (hx : x.current = [])
    (v : Fin n) : (update worker w x v).current = (worker v).current := by grind

theorem Balanced.outside (h : Balanced es s) (hp : Points s) {stop : Stop n}
    (ho : Outside s e worker stop) : Balanced (es ++ [e]) ⟨s.inner, worker, stop⟩ := by
  cases ho with
  | exit w hw _ => exact h.quiet rfl rfl rfl rfl rfl (current_update (by rw [hw]; rfl) rfl)
  | join w rest _ _ => exact h.quiet rfl rfl rfl rfl rfl fun _ => rfl
  | returned _ => exact h.quiet rfl rfl rfl rfl rfl fun _ => rfl
  | finish w x hw _ =>
    refine h.snoc (append_nil _).symm (append_nil _) fun v => ?_
    change (s.worker v).current ++ [] = runsOf v [(w, x)] ++ (update s.worker w .loop v).current
    rw [runsOf_singleton]
    by_cases hv : v = w
    · subst hv
      simp [hw, Worker.current, hp.callable v x hw]
    · simp [hv, Ne.symm hv]

theorem Balanced.run (h : Balanced es s) (hp : Points s) {i : MState (Fin n ⊕ K) (Pool F) (PoolLoc F) Unit} {t : Fin n ⊕ K}
    {l : PoolLoc F} {ns : List (Note Unit)} {nx : Next (PoolLoc F) Unit (PoolRes F)} (hl : s.inner.loc t = some l)
    (hv : PoolView s.inner.shared l i.shared ns nx) :
    Balanced (es ++ [.inner (nx.event t)]) ⟨i, s.workerAfter (nx.event t), s.stopAfter (nx.event t)⟩ := by
  generalize hi : i.shared = p at hv
  cases hv with
  | addTask fn =>
    rw [s.workerAfter_event t (by simp)]
    have ht : (PoolEv.inner (.ret t (.added ⟨fn, s.inner.shared.added⟩)) : PoolEv n K F).taken = none := by cases t <;> rfl
    refine h.snoc ?_ ?_ fun w => ?_
    · simp only [Next.event, ht, hi]
      rfl
    · simp only [hi]
      exact range_succ.symm
    · simp only [Next.event, ht]
      exact append_nil _
  | sleep hta _ _ =>
    refine h.quiet ?_ ?_ rfl (by rw [hi]) (by rw [hi]) fun _ => rfl
    · cases t <;> rfl
    · cases t <;> rfl
  | @take l x rest hta hd _ =>
    cases t with
    | inr k => exact absurd hta (hp.client k l hl)
    | inl w =>
      have hw : (s.worker w).current = [] := by rw [hp.inTake w l hl hta]; rfl
      refine h.snoc ?_ ?_ fun v => ?_
      · rw [hi, hd]
        exact (append_nil _).symm
      · rw [hi]
        exact append_nil _
      · change (s.worker v).current ++ runsOf v [(w, x)] = (s.workerAfter (.ret (.inl w) (.taken (some x))) v).current
        rw [runsOf_singleton]
        by_cases hv : v = w
        · subst hv
          rw [hw]
          by_cases hx : x.fn.isSome <;> simp [hx, PoolState.workerAfter, Worker.afterTake, Worker.current]
        · simp [hv, Ne.symm hv, PoolState.workerAfter]
  | stopped hta _ =>
    cases t with
    | inr k => exact absurd hta (hp.client k l hl)
    | inl w =>
      refine h.quiet rfl rfl rfl (by rw [hi]) (by rw [hi]) (current_update ?_ rfl)
      rw [hp.inTake w l hl hta]
      rfl
  | stop =>
    rw [s.workerAfter_event t (by simp)]
    refine h.quiet ?_ ?_ rfl (by rw [hi]) (by rw [hi]) fun _ => rfl
    · cases t <;> rfl
    · cases t <;> rfl

variable [DecidableEq K]

theorem Balanced.step (h : Balanced es s) (hp : Points s) (hx : PStep s e s') : Balanced (es ++ [e]) s' := by
  cases hx with
  | call t o worker stop hc _ hsh _ =>
    refine h.quiet rfl rfl rfl (by rw [hsh]) (by rw [hsh]) ?_
    cases hc with
    | addTask _ _ _ => exact fun _ => rfl
    | stop _ _ => exact fun _ => rfl
    | take w hw _ => exact current_update (by rw [hw]; rfl) rfl
  | wake t hsh _ => exact h.quiet rfl rfl rfl (by rw [hsh]) (by rw [hsh]) fun _ => rfl
  | run t l ns nx hl hv _ => exact h.run hp hl hv
  | outside e worker stop ho => exact h.outside hp ho

/-- A stopped pool stays stopped, and no task is taken from it. -/
theorem PStep.stopped (h : PStep s e s') (hs : s.inner.shared.started = false) : s'.inner.shared.started = false ∧ e.taken = none := by
  cases h with
  | call t o worker stop _ _ hsh _ => exact ⟨by rw [hsh]; exact hs, rfl⟩
  | wake t hsh _ => exact ⟨by rw [hsh]; exact hs, rfl⟩
  | outside e worker stop ho =>
    refine ⟨hs, ?_⟩
    cases ho <;> rfl
  | @run i t l ns nx _ hv _ =>
    generalize i.shared = p at hv ⊢
    cases hv with
    | addTask fn => exact ⟨hs, by cases t <;> rfl⟩
    | sleep _ _ hst =>
      rw [hst] at hs
      cases hs
    | take _ _ hst =>
      rw [hst] at hs
      cases hs
    | stopped _ _ => exact ⟨hs, by cases t <;> rfl⟩
    | stop => exact ⟨rfl, by cases t <;> rfl⟩

theorem PStep.of_isStop (h : PStep s e s') (he : e.isStop = true) : s'.inner.shared.started = false := by
  cases h with
  | call t o worker stop _ _ _ _ => cases he
  | wake t _ _ => cases he
  | outside e worker stop ho => cases ho <;> cases he
  | @run i t l ns nx _ hv _ =>
    generalize i.shared = p at hv ⊢
    cases hv with
    | stop => rfl
    | addTask fn => cases he
    | sleep _ _ _ => cases he
    | take _ _ _ => cases he
    | stopped _ _ => cases he

variable [Fintype K]

theorem run_balanced (h : Run poolExec (poolInit n K F) es s) : Points s ∧ Balanced es s := by
  induction h with
  | nil =>
    refine ⟨⟨fun w x hx => ?_, fun w l hl => ?_, fun k l hl => ?_, fun w hw => hw.elim⟩, rfl, rfl, fun w => rfl⟩
    · cases hx
    · cases hl
    · cases hl
  | snoc _ _ hx ih =>
    have hs := poolExec_step hx
    exact ⟨ih.1.step hs, ih.2.step ih.1 hs⟩

theorem run_stopped {s₁ : PoolState n K F} (h : Run poolExec s₁ es s) (hs : s₁.inner.shared.started = false) :
    s.inner.shared.started = false ∧ takenTasks es = [] := by
  induction h with
  | nil => exact ⟨hs, rfl⟩
  | snoc _ _ hx ih =>
    obtain ⟨h1, h2⟩ := (poolExec_step hx).stopped ih.1
    refine ⟨h1, ?_⟩
    rw [takenTasks_snoc, ih.2, h2]
    rfl

/-- Conservation of tasks. In every run of the pool, with any number of workers and of threads that add tasks, at any time and from
tasks too: the tasks taken, in order, and then those in the deque are the tasks in the order of `add_task`, all different, so
each is taken once, by one worker; a worker has run the tasks that it took, each once and in order, up to the one it is in (an empty
function is taken but there is nothing to run); no task is taken after `stop` has cleared `m_is_started`; and once `stop` has
returned every worker has left its loop and the tasks that it took have ended. -/
theorem pool_conserves_tasks (h : Run poolExec (poolInit n K F) es s) :
    (takenTasks es).map Prod.snd ++ s.inner.shared.tasks = addedTasks es ∧
    ((addedTasks es).map Task.num).Nodup ∧ ((takenTasks es).map fun x => x.2.num).Nodup ∧
    (∀ w, runsOf w (takenTasks es) = runsOf w (finishedTasks es) ++ (s.worker w).current) ∧
    (∀ es₁ e es₂, es = es₁ ++ e :: es₂ → e.isStop = true → takenTasks es₂ = []) ∧
    (s.stop = .returned → ∀ w, s.worker w = .exited ∧ runsOf w (takenTasks es) = runsOf w (finishedTasks es)) := by
  obtain ⟨hp, hb⟩ := run_balanced h
  have hnd : ((addedTasks es).map Task.num).Nodup := by
    rw [hb.nums]
    exact nodup_range
  refine ⟨hb.balance, hnd, ?_, hb.runs, ?_, fun hs w => ?_⟩
  · have hsub := (sublist_append_left ((takenTasks es).map Prod.snd) s.inner.shared.tasks).map Task.num
    rw [hb.balance, List.map_map] at hsub
    exact hnd.sublist hsub
  · rintro es₁ e es₂ rfl he
    rw [append_cons] at h
    obtain ⟨s₁, h₁, h₂⟩ := h.of_append
    obtain ⟨s₀, a, _, _, hx⟩ := h₁.of_snoc
    exact (run_stopped h₂ ((poolExec_step hx).of_isStop he)).2
  · have hw : s.worker w = .exited := hp.joined w (by rw [hs]; trivial)
    refine ⟨hw, ?_⟩
    rw [hb.runs w, hw]
    exact append_nil _

/-- The events of a run: the worker `u` takes a task; the worker `v` finds none and sleeps; a second task is added, but before `v` takes
it the pool is stopped; both workers leave their loops and `stop` returns. -/
def stoppedEarly (u v : Fin n) (k : K) : List (PoolEv n K Nat) :=
  [.inner (.call (.inr k) 0 (.addTask (some 7))), .inner (.ret (.inr k) (.added ⟨some 7, 0⟩)), .inner (.call (.inl u) 1 .take),
    .inner (.ret (.inl u) (.taken (some ⟨some 7, 0⟩))), .inner (.call (.inl v) 2 .take), .inner (.wait (.inl v) () .takeWait),
    .inner (.call (.inr k) 3 (.addTask (some 8))), .inner (.ret (.inr k) (.added ⟨some 8, 1⟩)), .inner (.call (.inr k) 4 .stop),
    .inner (.ret (.inr k) .stopped), .inner (.ret (.inl v) (.taken none)), .exit v, .finish u ⟨some 7, 0⟩, .exit u, .join u, .join v,
    .returned]

/-- The run `stoppedEarly`, at whose end one task has been run and one is left. -/
theorem pool_conserves_tasks_stoppedEarly : ∃ s, Run poolExec (poolInit 2 Unit Nat) (stoppedEarly 0 1 ()) s ∧
    s.stop = .returned ∧ [⟨some 7, 0⟩] ++ s.inner.shared.tasks = [⟨some 7, 0⟩, ⟨some 8, 1⟩] ∧
    ∀ w, s.worker w = .exited ∧ runsOf w (takenTasks (stoppedEarly 0 1 ())) = runsOf w (finishedTasks (stoppedEarly 0 1 ())) := by
  obtain ⟨s, h, hs⟩ : ∃ s, Run poolExec (poolInit 2 Unit Nat) (stoppedEarly 0 1 ()) s ∧ s.stop = .returned :=
    exists_run_of_view poolExec PoolState.stop (poolInit 2 Unit Nat)
      [.addTask (.inr ()) (some 7), .inner (.run (.inr ()) []), .test 0, .inner (.run (.inl 0) []), .test 1, .inner (.run (.inl 1) []),
        .addTask (.inr ()) (some 8), .inner (.run (.inr ()) [.inl 1]), .stop (), .inner (.run (.inr ()) []),
        .inner (.run (.inl 1) []), .test 1, .finish 0, .test 0, .join, .join, .join] (by decide +kernel)
  have hspec := pool_conserves_tasks h
  exact ⟨s, h, hs, hspec.1, hspec.2.2.2.2.2 hs⟩

end Conservation

end CsLearning.Code
