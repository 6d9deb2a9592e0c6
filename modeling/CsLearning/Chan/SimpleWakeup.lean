import CsLearning.Chan.Simple

/-!
# `chan.simple.h`: no lost wake-up

The queue of `chan.simple.h` notifies only on edges: a push when the queue was empty, a pop when it was full, `close` always.
`simple_no_lost_wakeup` says that no thread sleeps while it could go on, for any number of threads, spurious wake-ups included.

One condition is needed. A push without buffer learns that its value has been taken from the counter of pops, which is a `size_t`.
While a push that has been overtaken stays inside its wait, the counter must not come back to the number the push remembers;
after `2 ^ 64` pops it does (`simple_no_lost_wakeup_false`).
-/

open Function

namespace CsLearning.Chan

open Word

variable {Tid T : Type} [DecidableEq Tid] {cfg : SConfig} {s s' : SState Tid T}
  {a : MAct Tid (Op T)} {e : Ev Tid T Unit}

/-- The points of `pop`, as a test. -/
def Loc.isPop : Loc T → Bool
  | .pop => true
  | .popWait => true
  | _ => false

variable {l : Loc T} {q q' : SQueue T} {ns : List (Note Unit)} {nx : Next (Loc T) Unit (Res T)}

theorem PopAt.isPop (h : PopAt l) : l.isPop = true := by cases h <;> rfl

/-- The counter that a push inside its second wait compares. -/
def Loc.old : Loc T → Option Nat
  | .overflowWait _ old => some old
  | _ => none

/-- A pop about to take a value does not bring the counter back to the number remembered by a push inside its second wait. -/
def PopFresh (s : SState Tid T) : MAct Tid (Op T) → Prop
  | .run t _ => ∀ l ∈ s.loc t, l.isPop = true → s.shared.data ≠ [] →
      ∀ u, ∀ l' ∈ s.loc u, ∀ old ∈ l'.old, Word.add 64 s.shared.popCount 1 ≠ old
  | _ => True

instance [Fintype Tid] [DecidableEq T] (s : SState Tid T) (a : MAct Tid (Op T)) : Decidable (PopFresh s a) :=
  match a with
  | .run t _ => inferInstanceAs (Decidable (∀ l ∈ s.loc t, l.isPop = true → s.shared.data ≠ [] →
      ∀ u, ∀ l' ∈ s.loc u, ∀ old ∈ l'.old, Word.add 64 s.shared.popCount 1 ≠ old))
  | .call _ _ => isTrue trivial
  | .wake _ => isTrue trivial

/-- Why a thread may sleep at a point: what it waits for has not happened. -/
def MaySleep (cfg : SConfig) (q : SQueue T) : Loc T → Prop
  | .popWait => q.data = [] ∧ q.closed = false
  | .pushWait _ => q.data.length = cfg.capacity ∧ q.closed = false
  | .overflowWait x _ => x ∈ q.data ∧ q.closed = false
  | _ => True

/-- The invariant: the queue is within its capacity, the value of a push inside its second wait is in the queue until the counter
moves or the queue is closed, and every sleeping thread may sleep. -/
structure SimpleInv (cfg : SConfig) (s : SState Tid T) : Prop where
  length_le : s.shared.data.length ≤ cfg.capacity
  owner : ∀ t x old, s.loc t = some (.overflowWait x old) →
    cfg.overflow = true ∧ (s.shared.closed = false → old = s.shared.popCount → x ∈ s.shared.data)
  asleep : ∀ t l, s.thr t = .waiting () .blocked l → MaySleep cfg s.shared l

theorem SView.maySleep {l l' : Loc T} (h : SView cfg q l q' ns nx) (hlen : q.data.length ≤ cfg.capacity) (hns : .all () ∉ ns) (hm : MaySleep cfg q l')
    (hov : ∀ x old, l' = .overflowWait x old → cfg.overflow = true) : MaySleep cfg q' l' := by
  cases h with
  | pushStore _ _ _ hlt =>
    have hne : q.data ≠ [] := fun h0 => hns (by simp [h0])
    cases l' with
    | popWait => exact absurd hm.1 hne
    | pushWait y => have := hm.1; omega
    | overflowWait y old => exact ⟨List.mem_append_left _ hm.1, hm.2⟩
    | _ => trivial
  | popTake _ hd =>
    have hnf : q.data.length ≠ cfg.capacity := fun hf => hns (by simp [hf])
    cases l' with
    | popWait => exact absurd (hd.symm.trans hm.1) (by simp)
    | pushWait y => exact absurd hm.1 hnf
    | overflowWait y old =>
      -- A queue without buffer is full as soon as it holds a value.
      have hcap := cfg.capacity_of_overflow (hov y old rfl)
      rw [hd, List.length_cons] at hlen hnf
      omega
    | _ => trivial
  | pushOverflow => simp at hns
  | close => simp at hns
  | _ => exact hm

theorem SView.maySleep_self
    (h : SView cfg q l q' ns nx) (hown : ∀ x old, l = .overflowWait x old → q.closed = false → old = q.popCount → x ∈ q.data) :
    ∀ c l', nx = .wait c l' → MaySleep cfg q' l' := by
  intro c l' hn
  cases h with
  | pushSleep _ hf ho => cases hn; exact ⟨hf, ho⟩
  | pushOverflow _ ho _ _ => cases hn; exact ⟨by simp, ho⟩
  | overflowSleep he ho => cases hn; exact ⟨hown _ _ rfl ho he, ho⟩
  | popSleep _ hd ho => cases hn; exact ⟨hd, ho⟩
  | _ => cases hn

/-- A section that takes no value keeps the values of the pushes that wait in the queue, or closes it. -/
theorem SView.owner (h : SView cfg q l q' ns nx) {x : Item T} {old : Nat} (hq : q.closed = false → old = q.popCount → x ∈ q.data)
    (hfresh : l.isPop = true → q.data ≠ [] → add 64 q.popCount 1 ≠ old) :
    q'.closed = false → old = q'.popCount → x ∈ q'.data := by
  intro hc ho
  cases h with
  | pushStore => exact List.mem_append_left _ (hq hc ho)
  | pushOverflow _ _ _ hd =>
    have := hq hc ho
    rw [hd] at this
    cases this
  | popTake hp hd => exact absurd ho.symm (hfresh hp.isPop (by rw [hd]; simp))
  | close => cases hc
  | _ => exact hq hc ho

/-- A section enters the second wait of `push` only in a queue without buffer, with its value in the queue. -/
theorem SView.owner_self (h : SView cfg q l q' ns nx) {x : Item T} {old : Nat} (hnx : nx.loc = some (.overflowWait x old)) :
    l = .overflowWait x old ∨ (cfg.overflow = true ∧ x ∈ q'.data) := by
  cases h with
  | pushOverflow _ _ hov _ => grind [Next.loc, Option.some.injEq]
  | overflowSleep => exact Or.inl (Option.some.inj hnx)
  | _ => cases hnx

section Runs

variable [Fintype Tid]

theorem SimpleInv.step (hI : SimpleInv cfg s) (hok : PopFresh s a) (h : (simple T cfg).exec s a = some (s', e)) : SimpleInv cfg s' := by
  have hview := fun l => simple_view hI.length_le l
  cases Monitor.exec_full h with
  | call t o hi =>
    have hoth : ∀ u l, (update s.thr t (.ready ((simple T cfg).entry s.calls o)) u).loc = some l →
        u = t ∧ l = entry s.calls o ∨ s.loc u = some l := by
      intro u l hl
      by_cases hu : u = t
      · subst hu
        rw [update_self] at hl
        exact Or.inl ⟨rfl, (Option.some.inj hl).symm⟩
      · rw [update_of_ne hu] at hl
        exact Or.inr hl
    refine ⟨hI.length_le, ?_, ?_⟩
    · intro u x old hl
      rcases hoth u _ hl with ⟨_, he⟩ | hl
      · cases o <;> cases he
      · exact hI.owner u x old hl
    · intro u l hl
      by_cases hu : u = t
      · grind
      · simp only [update_of_ne hu] at hl
        exact hI.asleep u l hl
  | wake t c l hi =>
    refine ⟨hI.length_le, ?_, ?_⟩
    · intro u x old hl
      refine hI.owner u x old ?_
      by_cases hu : u = t
      · grind [MState.loc, Thread.loc]
      · simpa [MState.loc, hu] using hl
    · intro u l hl
      by_cases hu : u = t
      · grind
      · simp only [update_of_ne hu] at hl
        exact hI.asleep u l hl
  | run t ps l thr hrun hthr =>
    have hl : s.loc t = some l := Thread.loc_of_runnable hrun
    have hv := hview l
    refine ⟨hv.length_le hI.length_le, ?_, ?_⟩
    · intro u x old hu'
      have hfresh : l.isPop = true → s.shared.data ≠ [] → ∀ v l', s.loc v = some l' → ∀ o ∈ l'.old,
          add 64 s.shared.popCount 1 ≠ o := fun h1 h2 v l' hv' => hok l hl h1 h2 v l' hv'
      by_cases hu : u = t
      · subst hu
        have hnx : ((simple T cfg).crit s.shared l).2.2.loc = some (.overflowWait x old) := by
          simpa [MState.loc] using hu'
        rcases hv.owner_self hnx with rfl | ⟨hov, hx⟩
        · obtain ⟨hov, hq⟩ := hI.owner u x old hl
          refine ⟨hov, hv.owner hq fun h1 => ?_⟩
          cases h1
        · exact ⟨hov, fun _ _ => hx⟩
      · have hlu : s.loc u = some (.overflowWait x old) := by
          simpa [MState.loc, hu, notify_loc hthr u] using hu'
        obtain ⟨hov, hq⟩ := hI.owner u x old hlu
        exact ⟨hov, hv.owner hq (fun h1 h2 => hfresh h1 h2 u _ hlu old rfl)⟩
    · intro u l' hu'
      by_cases hu : u = t
      · subst hu
        simp only [update_self] at hu'
        cases hnx : ((simple T cfg).crit s.shared l).2.2 with
        | ret r => rw [hnx] at hu'; cases hu'
        | wait c l'' =>
          rw [hnx] at hu'
          have he : l'' = l' := by simpa [Next.thread] using hu'
          rw [← he]
          exact hv.maySleep_self (fun x old he => (hI.owner u x old (he ▸ hl)).2) c l'' hnx
      · simp only [update_of_ne hu] at hu'
        have hb := notify_asleep hthr hu'
        refine hv.maySleep hI.length_le (notify_all_awake hthr hu') (hI.asleep u l' hb) ?_
        rintro x old rfl
        exact (hI.owner u x old (by rw [MState.loc, hb]; rfl)).1

/-- No lost wake-up in `chan.simple.h`: in every state of every run in which no pop brings the counter back to the number a waiting
push remembers, a thread asleep in `pop` finds the queue empty and open, one asleep in the first wait of `push` finds it full and
open, and one asleep in the second wait finds its own value in the queue and the queue open. -/
theorem simple_no_lost_wakeup {es : List (Ev Tid T Unit)} (h : RunIf (simple T cfg).exec PopFresh (simpleInit Tid T) es s) :
    (∀ t, s.thr t = .waiting () .blocked .popWait → s.shared.data = [] ∧ s.shared.closed = false) ∧
    (∀ t x, s.thr t = .waiting () .blocked (.pushWait x) → s.shared.data.length = cfg.capacity ∧ s.shared.closed = false) ∧
    (∀ t x old, s.thr t = .waiting () .blocked (.overflowWait x old) → x ∈ s.shared.data ∧ s.shared.closed = false) := by
  have hI : SimpleInv cfg s := by
    induction h with
    | nil =>
      refine ⟨Nat.zero_le _, ?_, ?_⟩
      · intro t x old hl
        cases hl
      · intro t l hl
        cases hl
    | snoc _ hok hx ih => exact ih.step hok hx
  exact ⟨fun t ht => hI.asleep t _ ht, fun t x ht => hI.asleep t _ ht, fun t x old ht => hI.asleep t _ ht⟩

end Runs

/-! ## The counter comes back -/

/-- A queue without buffer. -/
def simpleNoBuffer : SConfig := ⟨0, by decide⟩

/-- The events of a run on `simpleNoBuffer`: the pop of `u` sleeps, the push of `t` stores its value, which wakes the pop, and
sleeps itself. -/
def pushAsleep (t u : Tid) : List (Ev Tid Nat Unit) :=
  [.call u 0 .pop, .wait u () .popWait, .call t 1 (.push 7), .wait t () (.overflowWait ⟨7, 1⟩ 0)]

/-- At the end of `pushAsleep` the push sleeps, and its value is in the open queue. -/
theorem simple_no_lost_wakeup_pushAsleep : ∃ s,
    RunIf (simple Nat simpleNoBuffer).exec PopFresh (simpleInit (Fin 2) Nat) (pushAsleep 0 1) s ∧
    s.thr 0 = .waiting () .blocked (.overflowWait ⟨7, 1⟩ 0) ∧ ⟨7, 1⟩ ∈ s.shared.data ∧ s.shared.closed = false := by
  obtain ⟨s, h, ht⟩ : ∃ s, Run (guarded (simple Nat simpleNoBuffer).exec PopFresh) (simpleInit (Fin 2) Nat) (pushAsleep 0 1) s ∧
      s.thr 0 = .waiting () .blocked (.overflowWait ⟨7, 1⟩ 0) :=
    ⟨_, run_of_execAll [.call 1 .pop, .run 1 [], .call 0 (.push 7), .run 0 []] rfl, rfl⟩
  have h' := runIf_of_guarded h
  exact ⟨s, h', ht, (simple_no_lost_wakeup h').2.2 0 _ _ ht⟩

/-- `push` on the empty queue without buffer: it stores its value, notifies and waits. -/
theorem simpleNoBuffer_push (p : Nat) (x : Item Nat) :
    (simple Nat simpleNoBuffer).crit ⟨[], false, p⟩ (.push x) = (⟨[x], false, p⟩, [.all ()], .wait () (.overflowWait x p)) := by
  have hf : 0 < sub 64 1 0 := by decide
  simp [simple, SQueue.crit, SQueue.pushPred, SQueue.pushBody, SQueue.freeCount, SQueue.isOverflow, SQueue.pushOverflow,
    simpleNoBuffer, SConfig.capacity, SConfig.overflow, hf]

/-- The second wait of `push` behind the wake-up: it returns when the counter is not the one it remembers, and sleeps again
when it is. -/
theorem simpleNoBuffer_overflow (p old : Nat) (x : Item Nat) : (simple Nat simpleNoBuffer).crit ⟨[], false, p⟩ (.overflowWait x old) =
      (⟨[], false, p⟩, [], if old = p then .wait () (.overflowWait x old) else .ret (.pushed x true)) := by
  by_cases h : old = p <;> simp [simple, SQueue.crit, SQueue.pushOverflow, h]

/-- `pop` on the queue without buffer that holds a value: it takes the value, counts and notifies. -/
theorem simpleNoBuffer_pop (p : Nat) (x : Item Nat) :
    (simple Nat simpleNoBuffer).crit ⟨[x], false, p⟩ .pop = (⟨[], false, add 64 p 1⟩, [.all ()], .ret (.popped (some x))) := by
  have hf : sub 64 1 0 = 1 := by decide
  simp [simple, SQueue.crit, SQueue.popPred, SQueue.popBody, SQueue.freeCount, simpleNoBuffer, SConfig.capacity, hf]

/-- After `p` pops the queue is empty; thread 0 has been notified that its value is gone and has not taken the mutex since; the
threads 1 and 2 are outside. -/
structure Overtaken (p : Nat) (s : SState (Fin 3) Nat) : Prop where
  shared : s.shared = ⟨[], false, p⟩
  first : s.thr 0 = .waiting () .signalled (.overflowWait ⟨7, 0⟩ 0)
  second : s.thr 1 = .idle
  third : s.thr 2 = .idle

/-- Threads 1 and 2 hand over one value, while thread 0 does not move. -/
theorem Overtaken.round {p : Nat} {s : SState (Fin 3) Nat} (h : Overtaken p s) : ∃ es s',
    Run (simple Nat simpleNoBuffer).exec s es s' ∧ Overtaken (add 64 p 1) s' := by
  have hne : p ≠ add 64 p 1 := by unfold add; omega
  -- Thread 1 calls `push`, stores its value and waits.
  obtain ⟨s1, r1, q1, t1, o1, _⟩ := (simple Nat simpleNoBuffer).run_call (.push 8) h.second
  obtain ⟨s2, r2, q2, t2, o2, _⟩ := (simple Nat simpleNoBuffer).run_section [] (by rw [t1]; rfl) (q1.trans h.shared) (simpleNoBuffer_push p _) rfl
  -- Thread 2 takes it.
  have i2 : s2.thr 2 = .idle := by rw [o2 2 (by decide), o1 2 (by decide), h.third]; rfl
  obtain ⟨s3, r3, q3, t3, o3, _⟩ := (simple Nat simpleNoBuffer).run_call .pop i2
  obtain ⟨s4, r4, q4, t4, o4, _⟩ := (simple Nat simpleNoBuffer).run_section [] (by rw [t3]; rfl) (q3.trans q2) (simpleNoBuffer_pop p _) rfl
  -- Thread 1 finds that its value has been taken.
  have i4 : s4.thr 1 = .waiting () .signalled (.overflowWait ⟨8, s.calls⟩ p) := by
    rw [o4 1 (by decide), o3 1 (by decide), t2]; rfl
  obtain ⟨s5, r5, q5, t5, o5, _⟩ := (simple Nat simpleNoBuffer).run_section [] (by rw [i4]; rfl) q4 (simpleNoBuffer_overflow _ p _) rfl
  refine ⟨_, s5, (((r1.trans r2).trans r3).trans r4).trans r5, q5, ?_, ?_, ?_⟩
  · rw [o5 0 (by decide), o4 0 (by decide), o3 0 (by decide), o2 0 (by decide), o1 0 (by decide), h.first]
    rfl
  · rw [t5, if_neg hne]
    rfl
  · rw [o5 2 (by decide), t4]
    rfl

/-- A push without buffer stores its value, and a pop takes it before the push has the mutex again. -/
theorem exists_overtaken : ∃ es s, Run (simple Nat simpleNoBuffer).exec (simpleInit (Fin 3) Nat) es s ∧ Overtaken 1 s :=
  ⟨_, _, run_of_execAll [.call 0 (.push 7), .run 0 [], .call 1 .pop, .run 1 []] rfl, rfl, rfl, rfl, rfl⟩

/-- Without the condition a wake-up is lost: after `2 ^ 64` pops the counter is the one that thread 0 remembers, and thread 0 goes
back to sleep although its value was taken long ago. -/
theorem simple_no_lost_wakeup_false : ¬∀ es s, Run (simple Nat simpleNoBuffer).exec (simpleInit (Fin 3) Nat) es s →
    ∀ t x old, s.thr t = .waiting () .blocked (.overflowWait x old) → x ∈ s.shared.data ∧ s.shared.closed = false := by
  intro hall
  obtain ⟨es, s, hr, hs⟩ := exists_overtaken
  obtain ⟨es', s1, hr', hs1⟩ := RunIf.iterate (fun _ _ h => Overtaken.round h) (2 ^ 64 - 1) hs
  rw [iterate_add_one (by decide)] at hs1
  obtain ⟨s2, hr2, hq2, ht2, _⟩ := (simple Nat simpleNoBuffer).run_section [] (by rw [hs1.first]; rfl)
    hs1.shared (simpleNoBuffer_overflow _ 0 _) rfl
  have hb := hall _ s2 ((hr.trans hr').trans hr2) 0 ⟨7, 0⟩ 0 (by rw [ht2]; rfl)
  rw [hq2] at hb
  cases hb.1

end CsLearning.Chan
