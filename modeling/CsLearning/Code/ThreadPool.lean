import CsLearning.Lib.Waiters

/-!
# The thread pool

`thread_pool` of `code/threadpool`. The mutex and `m_cond` make a monitor with the operations `add_task`, `take` and the locked part of
`stop`; `add_task` and `stop` are one critical section each, `take` is cut at its wait. Over the monitor stands what a worker does in
`thread_loop` outside of `take`, and the loop of `stop` that joins the workers. A task may itself call `add_task`.

A task carries the number of its `add_task`, which no operation reads.
-/

open Option

namespace CsLearning.Code

/-- A task of the deque: a `std::function`, which may be empty, and the number of its `add_task`. -/
structure Task (F : Type) where
  fn : Option F
  num : Nat
  deriving DecidableEq, Repr

/-- The members of `thread_pool` under the mutex, and the number of tasks added so far. -/
structure Pool (F : Type) where
  tasks : List (Task F)
  started : Bool
  added : Nat
  deriving DecidableEq, Repr

/-- The operations on the mutex. -/
inductive PoolOp (F : Type) where
  | addTask (fn : Option F)
  | take
  | stop
  deriving DecidableEq, Repr

/-- The program points: the start of an operation, or the wait of `take`. -/
inductive PoolLoc (F : Type) where
  | addTask (fn : Option F)
  | take
  | takeWait
  | stop
  deriving DecidableEq, Repr

/-- What an operation did: the task that it added, the task that it took if any. -/
inductive PoolRes (F : Type) where
  | added (x : Task F)
  | taken (x : Option (Task F))
  | stopped
  deriving DecidableEq, Repr

section Sections

variable {F : Type}

/-- What a critical section leaves. -/
abbrev PoolOutcome (F : Type) := Pool F × List (Note Unit) × Next (PoolLoc F) Unit (PoolRes F)

/-- `add_task`. -/
def Pool.addTask (p : Pool F) (fn : Option F) : PoolOutcome F :=
  ({ p with tasks := p.tasks ++ [⟨fn, p.added⟩], added := p.added + 1 }, [.one ()], .ret (.added ⟨fn, p.added⟩))

/-- `take` behind its loop. -/
def Pool.takeTask (p : Pool F) : PoolOutcome F :=
  match p.tasks, p.started with
  | x :: rest, true => ({ p with tasks := rest }, [], .ret (.taken (some x)))
  | _, _ => (p, [], .ret (.taken none))

/-- `take` at the test of its loop. -/
def Pool.take (p : Pool F) : PoolOutcome F := if p.tasks.isEmpty && p.started then (p, [], .wait () .takeWait) else p.takeTask

/-- The locked part of `stop`. -/
def Pool.stop (p : Pool F) : PoolOutcome F := ({ p with started := false }, [.all ()], .ret .stopped)

/-- The critical section of each program point. -/
def Pool.crit (p : Pool F) : PoolLoc F → PoolOutcome F
  | .addTask fn => p.addTask fn
  | .take => p.take
  | .takeWait => p.take
  | .stop => p.stop

/-- The program point at which an operation starts. -/
def PoolOp.entry : PoolOp F → PoolLoc F
  | .addTask fn => .addTask fn
  | .take => .take
  | .stop => .stop

/-- The mutex of the pool with its operations. -/
def poolMonitor (F : Type) : Monitor (Pool F) (PoolLoc F) Unit (PoolOp F) (PoolRes F) := ⟨fun _ o => o.entry, Pool.crit⟩

/-- The points of `take`. -/
inductive TakeAt : PoolLoc F → Prop where
  | start : TakeAt .take
  | wait : TakeAt .takeWait

/-- What a critical section can do, and how it ends. -/
inductive PoolView (p : Pool F) : PoolLoc F → Pool F → List (Note Unit) → Next (PoolLoc F) Unit (PoolRes F) → Prop where
  | addTask (fn : Option F) : PoolView p (.addTask fn) { p with tasks := p.tasks ++ [⟨fn, p.added⟩], added := p.added + 1 } [.one ()]
      (.ret (.added ⟨fn, p.added⟩))
  | sleep {l : PoolLoc F} : TakeAt l → p.tasks = [] → p.started = true → PoolView p l p [] (.wait () .takeWait)
  | take {l : PoolLoc F} {x : Task F} {rest : List (Task F)} : TakeAt l → p.tasks = x :: rest → p.started = true →
      PoolView p l { p with tasks := rest } [] (.ret (.taken (some x)))
  | stopped {l : PoolLoc F} : TakeAt l → p.started = false → PoolView p l p [] (.ret (.taken none))
  | stop : PoolView p .stop { p with started := false } [.all ()] (.ret .stopped)

/-- The critical sections of the source do what `PoolView` says and nothing else. -/
theorem pool_view (p : Pool F) (l : PoolLoc F) : PoolView p l (p.crit l).1 (p.crit l).2.1 (p.crit l).2.2 := by
  have take : ∀ l, TakeAt l → p.crit l = p.take → PoolView p l (p.crit l).1 (p.crit l).2.1 (p.crit l).2.2 := by
    intro l hl hcrit
    rw [hcrit]
    cases hs : p.started with
    | false => grind [Pool.take, Pool.takeTask, PoolView.stopped]
    | true =>
      cases hd : p.tasks with
      | nil => grind [Pool.take, PoolView.sleep]
      | cons x rest =>
        have ht : p.take = ({ p with tasks := rest }, [], .ret (.taken (some x))) := by simp [Pool.take, Pool.takeTask, hs, hd]
        rw [ht]
        exact PoolView.take hl hd hs
  cases l with
  | addTask fn => exact PoolView.addTask fn
  | take => exact take _ TakeAt.start rfl
  | takeWait => exact take _ TakeAt.wait rfl
  | stop => exact PoolView.stop

end Sections

/-! ## The workers and `stop` -/

/-- Where a worker is in `thread_loop`: at the test of the loop, in `take`, in a task, or behind the loop. -/
inductive Worker (F : Type) where
  | loop
  | inTake
  | running (x : Task F)
  | exited
  deriving DecidableEq, Repr

/-- Where the call of `stop` is: not made, before or in its locked part, before the `join` of the first of the workers left, or
returned. -/
inductive Stop (n : Nat) where
  | before
  | locking
  | joining (rest : List (Fin n))
  | returned
  deriving DecidableEq, Repr

/-- The pool with `n` workers and the threads `K` that call `add_task` and `stop`. -/
structure PoolState (n : Nat) (K F : Type) where
  inner : MState (Fin n ⊕ K) (Pool F) (PoolLoc F) Unit
  worker : Fin n → Worker F
  stop : Stop n

/-- An action at the mutex. -/
abbrev PoolInnerAct (n : Nat) (K F : Type) := MAct (Fin n ⊕ K) (PoolOp F)

/-- An event at the mutex. -/
abbrev PoolInnerEv (n : Nat) (K F : Type) := MEv (Fin n ⊕ K) (PoolLoc F) Unit (PoolOp F) (PoolRes F)

/-- What may happen next: a thread or a task calls `add_task`, a thread calls `stop`, a worker tests `m_is_started`, something happens at
the mutex, a task ends, `stop` goes on behind its locked part. -/
inductive PoolAct (n : Nat) (K F : Type) where
  | addTask (t : Fin n ⊕ K) (fn : Option F)
  | stop (k : K)
  | test (w : Fin n)
  | inner (a : PoolInnerAct n K F)
  | finish (w : Fin n)
  | join

/-- What did happen. -/
inductive PoolEv (n : Nat) (K F : Type) where
  | inner (e : PoolInnerEv n K F)
  | exit (w : Fin n)
  | finish (w : Fin n) (x : Task F)
  | join (w : Fin n)
  | returned
  deriving DecidableEq, Repr

section Exec

variable {n : Nat} {K F : Type}

/-- The worker after `take` has returned: `if (task)` runs the task. -/
def Worker.afterTake : Option (Task F) → Worker F
  | some x => if x.fn.isSome then .running x else .loop
  | none => .loop

/-- The threads that may call `add_task`: those outside of the pool, and a worker in a task. -/
def PoolState.mayAdd (s : PoolState n K F) : Fin n ⊕ K → Bool
  | .inr _ => true
  | .inl w =>
    match s.worker w with
    | .running _ => true
    | _ => false

/-- The workers after an event at the mutex. -/
def PoolState.workerAfter (s : PoolState n K F) : PoolInnerEv n K F → Fin n → Worker F
  | .ret (.inl w) (.taken x) => Function.update s.worker w (Worker.afterTake x)
  | _ => s.worker

/-- The call of `stop` after an event at the mutex: behind its locked part all workers are to be joined, in the order of `m_threads`. -/
def PoolState.stopAfter (s : PoolState n K F) : PoolInnerEv n K F → Stop n
  | .ret _ .stopped => .joining (List.finRange n)
  | _ => s.stop

variable [Fintype K] [DecidableEq K]

/-- One step of the pool. -/
def poolExec (s : PoolState n K F) : PoolAct n K F → Option (PoolState n K F × PoolEv n K F)
  | .addTask t fn =>
    if s.mayAdd t then ((poolMonitor F).exec s.inner (.call t (.addTask fn))).map fun r => ({ s with inner := r.1 }, .inner r.2) else none
  | .stop k =>
    match s.stop with
    | .before => ((poolMonitor F).exec s.inner (.call (.inr k) .stop)).map fun r => ({ s with inner := r.1, stop := .locking }, .inner r.2)
    | _ => none
  | .test w =>
    match s.worker w with
    | .loop =>
      if s.inner.shared.started then
        ((poolMonitor F).exec s.inner (.call (.inl w) .take)).map fun r =>
          ({ s with inner := r.1, worker := Function.update s.worker w .inTake }, .inner r.2)
      else some ({ s with worker := Function.update s.worker w .exited }, .exit w)
    | _ => none
  | .inner (.call _ _) => none
  | .inner a =>
    ((poolMonitor F).exec s.inner a).map fun r => (⟨r.1, s.workerAfter r.2, s.stopAfter r.2⟩, .inner r.2)
  | .finish w =>
    match s.worker w, s.inner.thr (.inl w) with
    | .running x, .idle => some ({ s with worker := Function.update s.worker w .loop }, .finish w x)
    | _, _ => none
  | .join =>
    match s.stop with
    | .joining (w :: rest) =>
      match s.worker w with
      | .exited => some ({ s with stop := .joining rest }, .join w)
      | _ => none
    | .joining [] => some ({ s with stop := .returned }, .returned)
    | _ => none

/-- The pool behind its constructor: started, every worker before its loop. -/
def poolInit (n : Nat) (K F : Type) : PoolState n K F := ⟨Monitor.init _ ⟨[], true, 0⟩, fun _ => .loop, .before⟩

end Exec

/-! ## Histories -/

section History

variable {n : Nat} {K F : Type}

/-- The event at the mutex, if it is one. -/
def PoolEv.inner? : PoolEv n K F → Option (PoolInnerEv n K F)
  | .inner e => some e
  | _ => none

/-- The task that an `add_task` added. -/
def PoolEv.added : PoolEv n K F → Option (Task F)
  | .inner (.ret _ (.added x)) => some x
  | _ => none

/-- The task that a `take` took, with the worker. -/
def PoolEv.taken : PoolEv n K F → Option (Fin n × Task F)
  | .inner (.ret (.inl w) (.taken (some x))) => some (w, x)
  | _ => none

/-- The task that ended, with the worker. -/
def PoolEv.finished : PoolEv n K F → Option (Fin n × Task F)
  | .finish w x => some (w, x)
  | _ => none

/-- The locked part of `stop`. -/
def PoolEv.isStop : PoolEv n K F → Bool
  | .inner (.ret _ .stopped) => true
  | _ => false

/-- The tasks in the order of `add_task`. -/
def addedTasks (es : List (PoolEv n K F)) : List (Task F) := es.filterMap PoolEv.added

/-- The tasks in the order in which they were taken, each with the worker that took it. -/
def takenTasks (es : List (PoolEv n K F)) : List (Fin n × Task F) := es.filterMap PoolEv.taken

/-- The tasks in the order in which they ended, each with the worker that ran it. -/
def finishedTasks (es : List (PoolEv n K F)) : List (Fin n × Task F) := es.filterMap PoolEv.finished

/-- The tasks of a worker that hold a function. -/
def runsOf (w : Fin n) (xs : List (Fin n × Task F)) : List (Task F) := (xs.filter fun x => x.1 = w ∧ x.2.fn.isSome).map Prod.snd

/-- The task a worker is in. -/
def Worker.current : Worker F → List (Task F)
  | .running x => [x]
  | _ => []

end History

/-! ## What a step of the pool does -/

section Steps

variable {n : Nat} {K F : Type} {s s' : PoolState n K F} {a : PoolAct n K F} {e : PoolEv n K F}

/-- Who calls which operation, and what the call makes of the workers and of `stop`. -/
inductive Called (s : PoolState n K F) : Fin n ⊕ K → PoolOp F → (Fin n → Worker F) → Stop n → Prop where
  | addTask (t : Fin n ⊕ K) (fn : Option F) : s.mayAdd t = true → Called s t (.addTask fn) s.worker s.stop
  | stop (k : K) : s.stop = .before → Called s (.inr k) .stop s.worker .locking
  | take (w : Fin n) : s.worker w = .loop → s.inner.shared.started = true →
      Called s (.inl w) .take (Function.update s.worker w .inTake) s.stop

/-- A step that does nothing at the mutex. -/
inductive Outside (s : PoolState n K F) : PoolEv n K F → (Fin n → Worker F) → Stop n → Prop where
  | exit (w : Fin n) : s.worker w = .loop → s.inner.shared.started = false →
      Outside s (.exit w) (Function.update s.worker w .exited) s.stop
  | finish (w : Fin n) (x : Task F) : s.worker w = .running x → s.inner.loc (.inl w) = none →
      Outside s (.finish w x) (Function.update s.worker w .loop) s.stop
  | join (w : Fin n) (rest : List (Fin n)) : s.stop = .joining (w :: rest) → s.worker w = .exited →
      Outside s (.join w) s.worker (.joining rest)
  | returned : s.stop = .joining [] → Outside s .returned s.worker .returned

variable [DecidableEq K]

/-- A step, as far as the deque, the program points and the workers go. -/
inductive PStep (s : PoolState n K F) : PoolEv n K F → PoolState n K F → Prop where
  | call {i : MState (Fin n ⊕ K) (Pool F) (PoolLoc F) Unit} (t : Fin n ⊕ K) (o : PoolOp F) (worker : Fin n → Worker F) (stop : Stop n) :
      Called s t o worker stop → s.inner.loc t = none → i.shared = s.inner.shared →
      i.loc = Function.update s.inner.loc t (some o.entry) → PStep s (.inner (.call t s.inner.calls o)) ⟨i, worker, stop⟩
  | wake {i : MState (Fin n ⊕ K) (Pool F) (PoolLoc F) Unit} (t : Fin n ⊕ K) : i.shared = s.inner.shared → i.loc = s.inner.loc →
      PStep s (.inner (.wake t)) ⟨i, s.worker, s.stop⟩
  | run {i : MState (Fin n ⊕ K) (Pool F) (PoolLoc F) Unit} (t : Fin n ⊕ K) (l : PoolLoc F) (ns : List (Note Unit))
      (nx : Next (PoolLoc F) Unit (PoolRes F)) : s.inner.loc t = some l → PoolView s.inner.shared l i.shared ns nx →
      i.loc = Function.update s.inner.loc t nx.loc →
      PStep s (.inner (nx.event t)) ⟨i, s.workerAfter (nx.event t), s.stopAfter (nx.event t)⟩
  | outside (e : PoolEv n K F) (worker : Fin n → Worker F) (stop : Stop n) : Outside s e worker stop →
      PStep s e ⟨s.inner, worker, stop⟩

variable [Fintype K]

/-- A step of the pool with the step of the monitor that it makes. -/
inductive PRaw (s : PoolState n K F) : PoolEv n K F → PoolState n K F → Prop where
  | call {i : MState (Fin n ⊕ K) (Pool F) (PoolLoc F) Unit} {f : PoolInnerEv n K F} (t : Fin n ⊕ K) (o : PoolOp F)
      (worker : Fin n → Worker F) (stop : Stop n) : Called s t o worker stop →
      (poolMonitor F).exec s.inner (.call t o) = some (i, f) → PRaw s (.inner f) ⟨i, worker, stop⟩
  | inner {i : MState (Fin n ⊕ K) (Pool F) (PoolLoc F) Unit} {f : PoolInnerEv n K F} (b : PoolInnerAct n K F) :
      (∀ t o, b ≠ .call t o) → (poolMonitor F).exec s.inner b = some (i, f) → PRaw s (.inner f) ⟨i, s.workerAfter f, s.stopAfter f⟩
  | outside (e : PoolEv n K F) (worker : Fin n → Worker F) (stop : Stop n) : Outside s e worker stop →
      PRaw s e ⟨s.inner, worker, stop⟩

theorem poolExec_raw (h : poolExec s a = some (s', e)) : PRaw s e s' := by
  cases a with
  | addTask t fn =>
    rw [poolExec] at h
    split at h
    · rename_i hm
      obtain ⟨r, hr, he⟩ := map_eq_some_iff.mp h
      obtain ⟨rfl, rfl⟩ := Prod.mk.inj he
      exact PRaw.call t _ _ _ (Called.addTask t fn hm) hr
    · cases h
  | stop k =>
    rw [poolExec] at h
    split at h
    · rename_i hs
      obtain ⟨r, hr, he⟩ := map_eq_some_iff.mp h
      obtain ⟨rfl, rfl⟩ := Prod.mk.inj he
      exact PRaw.call (.inr k) _ _ _ (Called.stop k hs) hr
    · cases h
  | test w =>
    rw [poolExec] at h
    split at h
    · rename_i hw
      split at h
      · rename_i hs
        obtain ⟨r, hr, he⟩ := map_eq_some_iff.mp h
        obtain ⟨rfl, rfl⟩ := Prod.mk.inj he
        exact PRaw.call (.inl w) _ _ _ (Called.take w hw hs) hr
      · grind [PRaw.outside, Outside.exit]
    · cases h
  | inner b =>
    by_cases hb : ∃ t o, b = .call t o
    · obtain ⟨t, o, rfl⟩ := hb
      cases h
    · have hb' : ∀ t o, b ≠ .call t o := fun t o he => hb ⟨t, o, he⟩
      rw [poolExec.eq_5 _ _ hb'] at h
      obtain ⟨r, hr, he⟩ := map_eq_some_iff.mp h
      obtain ⟨rfl, rfl⟩ := Prod.mk.inj he
      exact PRaw.inner b hb' hr
  | finish w =>
    rw [poolExec] at h
    split at h
    · rename_i x hw hi
      cases h
      exact PRaw.outside _ _ _ (Outside.finish w x hw (by rw [MState.loc, hi]; rfl))
    · cases h
  | join =>
    rw [poolExec] at h
    split at h
    · rename_i w rest hs
      split at h
      · rename_i hw
        cases h
        exact PRaw.outside _ _ _ (Outside.join w rest hs hw)
      · cases h
    · grind [PRaw.outside, Outside.returned]
    · cases h

/-- A step does nothing at the mutex, or is a step of the monitor. -/
theorem PRaw.inner_step (h : PRaw s e s') : e.inner? = none ∧ s'.inner = s.inner ∨
    ∃ b f, (poolMonitor F).exec s.inner b = some (s'.inner, f) ∧ e.inner? = some f := by
  cases h with
  | call t o worker stop _ hx => exact Or.inr ⟨_, _, hx, rfl⟩
  | inner b _ hx => exact Or.inr ⟨_, _, hx, rfl⟩
  | outside e worker stop ho =>
    refine Or.inl ⟨?_, rfl⟩
    cases ho <;> rfl

/-- The steps of the source do what `PStep` says and nothing else. -/
theorem poolExec_step (h : poolExec s a = some (s', e)) : PStep s e s' := by
  cases poolExec_raw h with
  | call t o worker stop hc hx =>
    cases Monitor.exec_step hx with
    | call _ _ h1 h2 h3 _ => exact PStep.call t o worker stop hc h1 h2 h3
  | inner b hb hx =>
    cases Monitor.exec_step hx with
    | call t o => exact absurd rfl (hb t o)
    | wake t h1 h2 _ => exact PStep.wake t h1 h2
    | run t ps l h1 h2 h3 _ =>
      have hv := pool_view s.inner.shared l
      rw [← show _ = (s.inner.shared.crit l).1 from h2] at hv
      exact PStep.run t l _ _ h1 hv h3
  | outside e worker stop ho => exact PStep.outside e worker stop ho

theorem run_inner {es : List (PoolEv n K F)} (h : Run poolExec (poolInit n K F) es s) :
    Run (poolMonitor F).exec (Monitor.init _ ⟨[], true, 0⟩) (es.filterMap PoolEv.inner?) s.inner := by
  induction h with
  | nil => exact RunIf.nil
  | snoc _ _ hx ih =>
    rw [filterMap_snoc]
    rcases (poolExec_raw hx).inner_step with ⟨he, hs⟩ | ⟨b, f, hb, he⟩
    · rw [he, hs]
      simpa using ih
    · rw [he]
      exact RunIf.snoc ih trivial hb

end Steps

end CsLearning.Code
