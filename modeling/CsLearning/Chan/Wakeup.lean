import CsLearning.Chan.Sections

/-!
# `chan.h`: no lost wake-up

`cv_t` wraps a condition variable and leaves out notifications by two counters: `thread_count_`, the threads inside `wait`, and
`wait_count_`, which is only an upper bound of the threads asleep. `CvInv` is what one `cv_t` keeps, with `n` what its waiters
wait for: values in the queue for `cv_pop_`, free slots for `cv_push_`. `CvMove` lists what a section can do to it. The two
`cv_t`s of a queue are two instances, so the counting argument is made once (`CvInv.move`).

The counters are of type `uint32_t`, and `wait_count_` grows with every wake-up without cause. The result holds for the runs in
which no thread goes to sleep on a `cv_t` whose counter is at its maximum; without that a wake-up is lost
(`no_lost_wakeup_false`).
-/

open List Function Nat

namespace CsLearning.Chan

open Word

/-! ## One `cv_t` -/

/-- What a `cv_t` keeps, when its waiters wait for one of `n` things, `b` of them are asleep, `g` notified and `p` woken on their
own: `thread_count_` is the number of waiters; `wait_count_` is at least the number of sleepers, and zero, or low enough for every
thing to have its waiter left; no sleeper is left on a closed queue; and when someone sleeps, enough have been notified. -/
structure CvInv (closed : Bool) (n : Nat) (cv : CvT) (b g p : Nat) : Prop where
  threads : cv.threadCount = b + g + p
  blocked_le : b ≤ cv.waitCount
  closed : closed = true → cv.waitCount = 0
  herd : 0 < n → cv.waitCount = 0 ∨ cv.waitCount + n ≤ cv.threadCount
  quiet : cv.threadCount = 0 → cv.waitCount = 0
  enough : 0 < b → n ≤ g
  threads_lt : cv.threadCount < 2 ^ 32
  wait_lt : cv.waitCount < 2 ^ 32

/-- What a section can do to a `cv_t`, with `inside` telling whether its thread was inside the `wait`, and `waits` whether it ends
there: nothing; enter the `wait`; sleep once more; leave the `wait`, with one of the things or on a closed queue; bring one thing
and call `notify_one`; close and call `notify_all`. -/
inductive CvMove (c : Cond) (n : Nat) (cv : CvT) :
    (closed inside closed' : Bool) → (n' : Nat) → CvT → List (Note Cond) → (waits : Bool) → Prop where
  | pass {b : Bool} {n' : Nat} : n' ≤ n → CvMove c n cv b false b n' cv [] false
  | enter : n = 0 → cv.threadCount + 1 < 2 ^ 32 → cv.waitCount + 1 < 2 ^ 32 →
      CvMove c n cv false false false n cv.enter [] true
  | again : n = 0 → cv.waitCount + 1 < 2 ^ 32 → CvMove c n cv false true false n cv.again [] true
  | leave {b : Bool} {n' : Nat} : n' ≤ n → (b = true ∨ n' < n) → CvMove c n cv b true b n' cv.leave [] false
  | one {b : Bool} {n' : Nat} : n' ≤ n + 1 → CvMove c n cv b false b n' (cv.notifyOne c).1 (cv.notifyOne c).2 false
  | all {b : Bool} {n' : Nat} : CvMove c n cv b false true n' (cv.notifyAll c).1 (cv.notifyAll c).2 false

section OneCv

variable {closed closed' inside waits : Bool} {n n' : Nat} {c : Cond} {cv cv' : CvT} {ns : List (Note Cond)} {b g p : Nat}

theorem CvInv.leave {dg dp : Nat} (h : CvInv closed n cv b g p) (hd : dg + dp = 1) (hg : dg ≤ g) (hp : dp ≤ p) (hn : n' ≤ n)
    (hc : closed = true ∨ n' < n) : CvInv closed n' cv.leave b (g - dg) (p - dp) := by
  obtain ⟨h1, h2, h3, h4, h5, h6, h7, h8⟩ := h
  obtain ⟨ht, hw⟩ := cv.leave_counts (by omega) h7
  generalize cv.leave = cv1 at ht hw ⊢
  refine ⟨by omega, by omega, fun hcl => by rw [hw, h3 hcl], ?_, ?_, ?_, by omega, by omega⟩
  · intro h0
    have := h4 (by omega)
    rcases hc with hc | hc
    · have := h3 hc
      omega
    · omega
  · intro h0
    rcases hc with hc | hc
    · have := h3 hc
      omega
    · have := h4 (by omega)
      omega
  · intro hb
    have := h6 hb
    rcases hc with hc | hc
    · have := h3 hc
      omega
    · omega

/-- Something the waiters wait for has come, and one of them is notified, if the counters say that someone sleeps. -/
theorem CvInv.notifyOne (h : CvInv closed n cv b g p) (hn : n' ≤ n + 1) :
    CvInv closed n' (cv.notifyOne c).1 ((cv.notifyOne c).2.foldl (fun q m => m.effect q) (b, g)).1
      ((cv.notifyOne c).2.foldl (fun q m => m.effect q) (b, g)).2 p := by
  obtain ⟨h1, h2, h3, h4, h5, h6, h7, h8⟩ := h
  by_cases hw : 0 < cv.waitCount
  · -- The counter drops to the number of waiters less one, or by one.
    have hcl : closed = false := by
      cases hc : closed with
      | false => rfl
      | true => have := h3 hc; omega
    have ht : 0 < cv.threadCount := by
      rcases Nat.eq_zero_or_pos cv.threadCount with h0 | h0
      · have := h5 h0; omega
      · exact h0
    have he : cv.notifyOne c = ({ cv with waitCount := (min cv.threadCount cv.waitCount) - 1 }, [.one c]) := by
      have hmin : (if cv.threadCount < cv.waitCount then cv.threadCount else cv.waitCount) = min cv.threadCount cv.waitCount := by
        split <;> omega
      rw [CvT.notifyOne, if_pos hw, hmin, sub_of_le (by omega) (by omega)]
    rw [he]
    simp only [foldl_cons, foldl_nil, Note.effect]
    refine ⟨by simp only; omega, by simp only; omega, fun hc => absurd hc (by simp [hcl]), ?_, ?_, ?_, by simp only; omega, by simp only; omega⟩
    · intro _
      right
      simp only
      rcases Nat.eq_zero_or_pos n with h0 | h0
      · omega
      · have := h4 h0
        omega
    · intro h0
      simp only at h0
      omega
    · intro hb
      have := h6 (by omega)
      omega
  · have he : cv.notifyOne c = (cv, []) := by rw [CvT.notifyOne, if_neg hw]
    rw [he]
    simp only [foldl_nil]
    exact ⟨h1, h2, h3, fun _ => .inl (by omega), h5, fun hb => by omega, h7, h8⟩

/-- Every move keeps what a `cv_t` keeps. `dg` and `dp` say how the section's thread waited before. -/
theorem CvInv.move {b' g' p' dg dp : Nat} (h : CvInv closed n cv b g p) (hm : CvMove c n cv closed inside closed' n' cv' ns waits)
    (hd : dg + dp = if inside then 1 else 0) (hdg : dg ≤ g) (hdp : dp ≤ p)
    (hb : b' = (ns.foldl (fun q m => m.effect q) (b, g)).1 + if waits then 1 else 0)
    (hg : g' + dg = (ns.foldl (fun q m => m.effect q) (b, g)).2) (hp : p' + dp = p) : CvInv closed' n' cv' b' g' p' := by
  cases hm with
  | pass hn =>
    obtain ⟨h1, h2, h3, h4, h5, h6, h7, h8⟩ := h
    simp at hd hb hg
    exact ⟨by omega, by omega, h3, fun h0 => by have := h4 (by omega); omega, h5, fun h0 => by have := h6 (by omega); omega, h7, h8⟩
  | enter hn ht hw =>
    obtain ⟨h1, h2, h3, h4, h5, h6, h7, h8⟩ := h
    simp at hd hb hg
    have e1 : cv.enter.threadCount = cv.threadCount + 1 := add_of_lt ht
    have e2 : cv.enter.waitCount = cv.waitCount + 1 := add_of_lt hw
    exact ⟨by omega, by omega, (fun hc => nomatch hc), fun h0 => by omega, fun h0 => by omega, fun _ => by omega, by omega, by omega⟩
  | again hn hw =>
    obtain ⟨h1, h2, h3, h4, h5, h6, h7, h8⟩ := h
    simp at hd hb hg
    have e1 : cv.again.threadCount = cv.threadCount := rfl
    have e2 : cv.again.waitCount = cv.waitCount + 1 := add_of_lt hw
    exact ⟨by omega, by omega, (fun hc => nomatch hc), fun h0 => by omega, fun h0 => by omega, fun _ => by omega, by omega, by omega⟩
  | leave hn hc =>
    simp at hd hb hg
    have := h.leave hd hdg hdp hn hc
    rwa [hb, show g' = g - dg by omega, show p' = p - dp by omega]
  | one hn =>
    simp at hd hb
    have := h.notifyOne (c := c) hn
    rwa [hb, show p' = p by omega, show g' = ((cv.notifyOne c).2.foldl (fun q m => m.effect q) (b, g)).2 by omega]
  | all =>
    obtain ⟨h1, h2, h3, h4, h5, h6, h7, h8⟩ := h
    simp [CvT.notifyAll, Note.effect] at hd hb hg
    have e1 : (cv.notifyAll c).1.threadCount = cv.threadCount := rfl
    have e2 : (cv.notifyAll c).1.waitCount = 0 := rfl
    exact ⟨by omega, by omega, fun _ => rfl, fun _ => .inl rfl, fun _ => rfl, fun h0 => by omega, by omega, by omega⟩

end OneCv

/-! ## The two `cv_t`s of a queue -/

/-- The condition variable of a wait. -/
def Loc.cond {T : Type} : Loc T → Option Cond
  | .pushWait _ => some .cvPush
  | .overflowWait _ _ => some .cvOverflow
  | .popWait => some .cvPop
  | _ => none

/-- A thread that is about to sleep on a `cv_t` finds the counters it increments below their maximum. -/
def RoomToWait {T : Type} (cfg : Config) (q : QueueT (Item T)) : Loc T → Prop
  | .push _ => pushPred cfg q = true ∨ (q.cvPush.threadCount + 1 < 2 ^ 32 ∧ q.cvPush.waitCount + 1 < 2 ^ 32)
  | .pushWait _ => pushPred cfg q = true ∨ q.cvPush.waitCount + 1 < 2 ^ 32
  | .pop => popPred q = true ∨ (q.cvPop.threadCount + 1 < 2 ^ 32 ∧ q.cvPop.waitCount + 1 < 2 ^ 32)
  | .popWait => popPred q = true ∨ q.cvPop.waitCount + 1 < 2 ^ 32
  | _ => True

/-- What the section of a point does to the `cv_t` on the condition variable `c`, in the words of `CvMove`. -/
def Moves {T : Type} (c : Cond) (cv : QueueT (Item T) → CvT) (n : QueueT (Item T) → Nat) (q : QueueT (Item T)) (l : Loc T)
    (o : Outcome T) : Prop :=
  CvMove c (n q) (cv q) q.closed (decide (l.cond = some c)) o.1.closed (n o.1) (cv o.1) (o.2.1.filter fun m => m.cond = c)
    (decide (o.2.2.cond = some c))

section Sections

variable {T : Type} {cfg : Config} {q p : QueueT (Item T)}

namespace WakeupAux

/-- `notify_one` notifies its own condition variable only. -/
theorem filter_notifyOne (cv : CvT) (c c' : Cond) : ((cv.notifyOne c).2.filter fun m => m.cond = c') = if c = c' then (cv.notifyOne c).2 else [] := by
  unfold CvT.notifyOne
  split <;> by_cases h : c = c' <;> simp [Note.cond, h]

theorem pushBody_cvs (cfg : Config) (q : QueueT (Item T)) (x : Item T) : (pushBody cfg q x).1.cvPush = q.cvPush ∧
    ((pushBody cfg q x).2 = ([], .ret (.pushed x false)) ∧ (pushBody cfg q x).1.cvPop = q.cvPop ∨
      (pushBody cfg q x).2.1 = (q.cvPop.notifyOne .cvPop).2 ∧ (pushBody cfg q x).1.cvPop = (q.cvPop.notifyOne .cvPop).1 ∧
      (pushBody cfg q x).2.2.cond ≠ some .cvPush ∧ (pushBody cfg q x).2.2.cond ≠ some .cvPop) := by
  obtain ⟨_, h1, h2⟩ := SectionsAux.pushThreadUnsafe_frame cfg q x
  unfold pushBody
  split
  · exact ⟨rfl, .inl ⟨rfl, rfl⟩⟩
  · split
    · rename_i q' he
      rw [he] at h1 h2
      exact ⟨h1, .inl ⟨rfl, h2⟩⟩
    · rename_i q' he
      rw [he] at h1 h2
      simp only at h1 h2
      rw [← h2, ← h1]
      simp only
      split
      · unfold pushOverflow
        split <;> exact ⟨rfl, .inr ⟨rfl, rfl, by simp [Next.cond], by simp [Next.cond]⟩⟩
      · exact ⟨rfl, .inr ⟨rfl, rfl, by simp [Next.cond], by simp [Next.cond]⟩⟩

theorem popBody_cvs (cfg : Config) (q : QueueT (Item T)) : (popBody cfg q).1.cvPop = q.cvPop ∧
    ((popBody cfg q).2 = ([], .ret (.popped none)) ∧ (popBody cfg q).1.cvPush = q.cvPush ∨
      (popBody cfg q).2.1 = (if cfg.overflow then [.one .cvOverflow] else []) ++ (q.cvPush.notifyOne .cvPush).2 ∧
      (popBody cfg q).1.cvPush = (q.cvPush.notifyOne .cvPush).1 ∧ (popBody cfg q).2.2.cond = none) := by
  unfold popBody
  split
  · exact ⟨rfl, .inl ⟨rfl, rfl⟩⟩
  · exact ⟨rfl, .inr ⟨rfl, rfl, rfl⟩⟩

variable {nx : Next (Loc T) Cond (Res T)}

/-- What `push` behind its first wait does to the number of values, from how it ends. -/
theorem push_sizes {q' : QueueT (Item T)} {l : Loc T} {x : Item T} (hv : View cfg q l q' nx)
    (hl : PushAt x l) (hp : cfg.policy = .blocking) (hnx : nx.cond ≠ some .cvPush) : q'.closed = q.closed ∧
    (nx = .ret (.pushed x false) ∧ q.closed = true ∧ (contents cfg q').length = (contents cfg q).length ∨
      nx ≠ .ret (.pushed x false) ∧ (contents cfg q').length = (contents cfg q).length + 1) := by
  have stored : ∀ {y : Item T}, Stored cfg q y q' → (contents cfg q').length = (contents cfg q).length + 1 := by
    intro y hst
    rcases hst.contents with ⟨_, hc⟩ | ⟨_, hd, _⟩
    · rw [hc, length_append, length_singleton]
    · rw [hp] at hd; cases hd
  cases hv with
  | pushSleep _ _ _ _ _ => simp [Next.cond] at hnx
  | pushClosed hl' hc hs =>
    cases hl <;> cases hl'
    all_goals exact ⟨hs.closed, .inl ⟨rfl, hc, by rw [hs.contents]⟩⟩
  | pushDiscard _ hd _ _ _ => rw [hp] at hd; cases hd
  | pushStore _ ho _ hst => exact ⟨hst.closed.trans ho.symm, .inr ⟨by simp, stored hst⟩⟩
  | pushOverflow _ ho _ hst => exact ⟨hst.closed.trans ho.symm, .inr ⟨by simp, stored hst⟩⟩
  | overflowSleep _ _ _ => cases hl
  | overflowRet _ _ => cases hl
  | popSleep h _ _ _ => cases h <;> cases hl
  | popClosed h _ _ _ => cases h <;> cases hl
  | popTake h _ => cases h <;> cases hl
  | close _ => cases hl
  | isClosed _ => cases hl

theorem pop_sizes {q' : QueueT (Item T)} {l : Loc T} (hv : View cfg q l q' nx) (hl : PopAt l) (hnx : nx.cond ≠ some .cvPop) : q'.closed = q.closed ∧
    (nx = .ret (.popped none) ∧ q.closed = true ∧ (contents cfg q').length = (contents cfg q).length ∨
      nx ≠ .ret (.popped none) ∧ (contents cfg q').length + 1 = (contents cfg q).length) := by
  cases hv with
  | popSleep _ _ _ _ => simp [Next.cond] at hnx
  | popClosed _ _ hc hs => exact ⟨hs.closed, .inl ⟨rfl, hc, by rw [hs.contents]⟩⟩
  | popTake _ ht => exact ⟨ht.closed, .inr ⟨by simp, by rw [ht.contents, length_cons]⟩⟩
  | pushSleep h _ _ _ _ => cases h <;> cases hl
  | pushClosed h _ _ => cases h <;> cases hl
  | pushDiscard h _ _ _ _ => cases h <;> cases hl
  | pushStore h _ _ _ => cases h <;> cases hl
  | pushOverflow h _ _ _ => cases h <;> cases hl
  | overflowSleep _ _ _ => cases hl
  | overflowRet _ _ => cases hl
  | close _ => cases hl
  | isClosed _ => cases hl

theorem moves_of {c : Cond} {cv : QueueT (Item T) → CvT} {n : QueueT (Item T) → Nat} {l : Loc T} {o : Outcome T}
    {inside closed' waits : Bool} {n' : Nat} {cv' : CvT} {ns : List (Note Cond)}
    (hm : CvMove c (n q) (cv q) q.closed inside closed' n' cv' ns waits) (h1 : decide (l.cond = some c) = inside)
    (h2 : o.1.closed = closed') (h3 : n o.1 = n') (h4 : cv o.1 = cv') (h5 : (o.2.1.filter fun m => m.cond = c) = ns)
    (h6 : decide (o.2.2.cond = some c) = waits) : Moves c cv n q l o := by
  subst h1 h2 h3 h4 h5 h6
  exact hm

end WakeupAux

open WakeupAux

/-- The moves of the section of a point: on `cv_pop_`, whose waiters wait for values, and on `cv_push_`, whose waiters wait for
free slots. -/
def BothMove (cfg : Config) (q : QueueT (Item T)) (l : Loc T) (o : Outcome T) : Prop :=
  Moves .cvPop QueueT.cvPop (fun r => (contents cfg r).length) q l o ∧ Moves .cvPush QueueT.cvPush (freeCount cfg) q l o

/-- A section that notifies nobody on `c` and does not wait there keeps the waiters' things, or takes one; its thread leaves the wait, if it
was inside. -/
theorem moves_own {c : Cond} {cv : QueueT (Item T) → CvT} {n : QueueT (Item T) → Nat} {l : Loc T} {o : Outcome T}
    (hcl : o.1.closed = q.closed) (hcv : cv o.1 = if l.cond = some c then (cv q).leave else cv q)
    (hns : (o.2.1.filter fun m => m.cond = c) = []) (hnx : o.2.2.cond ≠ some c)
    (hn : q.closed = true ∧ n o.1 = n q ∨ n o.1 < n q) : Moves c cv n q l o := by
  by_cases hin : l.cond = some c
  · rw [if_pos hin] at hcv
    refine moves_of (CvMove.leave ?_ ?_) (by simp [hin]) hcl rfl hcv hns (by simp [hnx])
    · omega
    · exact hn.imp_left And.left
  · rw [if_neg hin] at hcv
    refine moves_of (CvMove.pass ?_) (by simp [hin]) hcl rfl hcv hns (by simp [hnx])
    omega

/-- A section whose thread does not wait on `c`, before or behind, does nothing to the `cv_t`, or calls its `notify_one`. -/
theorem moves_other {c : Cond} {cv : QueueT (Item T) → CvT} {n : QueueT (Item T) → Nat} {l : Loc T} {o : Outcome T}
    (hl : l.cond ≠ some c) (hcl : o.1.closed = q.closed) (hnx : o.2.2.cond ≠ some c)
    (h : (o.2.1.filter fun m => m.cond = c) = [] ∧ cv o.1 = cv q ∧ n o.1 ≤ n q ∨
      (o.2.1.filter fun m => m.cond = c) = ((cv q).notifyOne c).2 ∧ cv o.1 = ((cv q).notifyOne c).1 ∧ n o.1 ≤ n q + 1) :
    Moves c cv n q l o := by
  rcases h with ⟨hns, hcv, hn⟩ | ⟨hns, hcv, hn⟩
  · exact moves_of (CvMove.pass hn) (by simp [hl]) hcl rfl hcv hns (by simp [hnx])
  · exact moves_of (CvMove.one hn) (by simp [hl]) hcl rfl hcv hns (by simp [hnx])

theorem pushBody_moves {l : Loc T} {x : Item T} (hl : PushAt x l) (hp : cfg.policy = .blocking) (hq : RingOk cfg q) (hs : Same q p)
    (hpop : p.cvPop = q.cvPop) (hpush : p.cvPush = if l.cond = some .cvPush then q.cvPush.leave else q.cvPush)
    (hpred : pushPred cfg q = true) : BothMove cfg q l (pushBody cfg p x) := by
  have hv := SectionsAux.pushBody_view hq hs hpred hl
  obtain ⟨hcvPush, hcv⟩ := pushBody_cvs cfg p x
  generalize pushBody cfg p x = o at hv hcvPush hcv ⊢
  have hnx : o.2.2.cond ≠ some .cvPush ∧ o.2.2.cond ≠ some .cvPop := by
    rcases hcv with ⟨h, _⟩ | ⟨_, _, h⟩
    · rw [h]; simp [Next.cond]
    · exact h
  obtain ⟨hcl, hsz⟩ := push_sizes hv hl hp hnx.1
  have hf : freeCount cfg o.1 = cfg.capacity - (contents cfg o.1).length := (hv.ringOk hq).freeCount_eq
  have hf' : freeCount cfg q = cfg.capacity - (contents cfg q).length := hq.freeCount_eq
  have hle := (hv.ringOk hq).length_le
  rw [hpop] at hcv
  constructor
  · refine moves_other (by cases hl <;> simp [Loc.cond]) hcl hnx.2 ?_
    rcases hcv with ⟨h, hcv⟩ | ⟨h, hcv, _⟩
    · refine .inl ⟨by rw [h]; rfl, hcv, ?_⟩
      rcases hsz with ⟨_, _, hlen⟩ | ⟨he, _⟩
      · exact le_of_eq hlen
      · exact absurd (by rw [h]) he
    · exact .inr ⟨by rw [h, filter_notifyOne, if_pos rfl], hcv, by omega⟩
  · refine moves_own hcl (hcvPush.trans hpush) ?_ hnx.1 ?_
    · rcases hcv with ⟨h, _⟩ | ⟨h, _⟩
      · rw [h]; rfl
      · rw [h, filter_notifyOne]; rfl
    · rcases hsz with ⟨_, hc, hlen⟩ | ⟨_, hlen⟩
      · exact .inl ⟨hc, by rw [hf, hf', hlen]⟩
      · right; omega

theorem popBody_moves {l : Loc T} (hl : PopAt l) (hq : RingOk cfg q) (hs : Same q p)
    (hp : p.cvPush = q.cvPush) (hpop : p.cvPop = if l.cond = some .cvPop then q.cvPop.leave else q.cvPop)
    (hpred : popPred q = true) : BothMove cfg q l (popBody cfg p) := by
  have hv : View cfg q l (popBody cfg p).1 (popBody cfg p).2.2 := SectionsAux.popBody_view hq hs hpred hl
  obtain ⟨hcvPop, hcv⟩ := popBody_cvs cfg p
  generalize popBody cfg p = o at hv hcvPop hcv ⊢
  have hnx : o.2.2.cond = none := by
    rcases hcv with ⟨h, _⟩ | ⟨_, _, h⟩
    · rw [h]; rfl
    · exact h
  obtain ⟨hcl, hsz⟩ := pop_sizes hv hl (by simp [hnx])
  have hf : freeCount cfg o.1 = cfg.capacity - (contents cfg o.1).length := (hv.ringOk hq).freeCount_eq
  have hf' : freeCount cfg q = cfg.capacity - (contents cfg q).length := hq.freeCount_eq
  have hle := hq.length_le
  have hfil : ∀ c, c ≠ .cvOverflow →
      (((if cfg.overflow then [Note.one Cond.cvOverflow] else []) ++ (q.cvPush.notifyOne .cvPush).2).filter fun m => m.cond = c) =
        if .cvPush = c then (q.cvPush.notifyOne .cvPush).2 else [] := by
    intro c hc
    rw [filter_append, filter_notifyOne]
    cases cfg.overflow <;> simp [Note.cond, hc.symm]
  rw [hp] at hcv
  constructor
  · refine moves_own hcl (hcvPop.trans hpop) ?_ (by simp [hnx]) ?_
    · rcases hcv with ⟨h, _⟩ | ⟨h, _⟩
      · rw [h]; rfl
      · rw [h, hfil _ (by decide)]; rfl
    · exact hsz.imp And.right fun h => by omega
  · refine moves_other (by cases hl <;> simp [Loc.cond]) hcl (by simp [hnx]) ?_
    rcases hcv with ⟨h, hcv⟩ | ⟨h, hcv, _⟩
    · refine .inl ⟨by rw [h]; rfl, hcv, ?_⟩
      rcases hsz with ⟨_, _, hlen⟩ | ⟨he, _⟩
      · omega
      · exact absurd (by rw [h]) he
    · exact .inr ⟨by rw [h, hfil _ (by decide), if_pos rfl], hcv, by omega⟩

theorem crit_moves (hp : cfg.policy = .blocking) (hq : RingOk cfg q) (l : Loc T) (hroom : RoomToWait cfg q l) : BothMove cfg q l (crit cfg q l) := by
  have pass : ∀ {l : Loc T} {ns : List (Note Cond)} {nx : Next (Loc T) Cond (Res T)}, l.cond ≠ some .cvPop →
      l.cond ≠ some .cvPush → ns = [] → nx.cond ≠ some .cvPop → nx.cond ≠ some .cvPush → BothMove cfg q l (q, ns, nx) := by
    rintro l ns nx h1 h2 rfl h3 h4
    exact ⟨moves_of (CvMove.pass (le_refl _)) (by simp [h1]) rfl rfl rfl rfl (by simp [h3]),
      moves_of (CvMove.pass (le_refl _)) (by simp [h2]) rfl rfl rfl rfl (by simp [h4])⟩
  have full : ¬pushPred cfg q = true → freeCount cfg q = 0 ∧ q.closed = false := by
    intro h
    obtain ⟨_, h2, h3⟩ := SectionsAux.full_of_not_pushPred hq h
    exact ⟨by rw [hq.freeCount_eq]; omega, h3⟩
  have empty : ¬popPred q = true → (contents cfg q).length = 0 ∧ q.closed = false := by
    intro h
    obtain ⟨h1, h2⟩ := SectionsAux.empty_of_not_popPred hq h
    exact ⟨by rw [h1]; rfl, h2⟩
  cases l with
  | push x =>
    rw [crit]
    split
    · rename_i hpred
      exact pushBody_moves PushAt.start hp hq ⟨rfl, rfl, rfl, rfl⟩ rfl rfl hpred
    · rename_i hpred
      obtain ⟨hn, hc⟩ := full hpred
      obtain ⟨ht, hw⟩ := hroom.resolve_left hpred
      refine ⟨moves_of (CvMove.pass (le_refl _)) rfl rfl rfl rfl rfl rfl, moves_of ?_ rfl hc rfl rfl rfl rfl⟩
      rw [hc]
      exact CvMove.enter hn ht hw
  | pushWait x =>
    rw [crit]
    split
    · rename_i hpred
      exact pushBody_moves PushAt.wait hp hq ⟨rfl, rfl, rfl, rfl⟩ rfl rfl hpred
    · rename_i hpred
      obtain ⟨hn, hc⟩ := full hpred
      refine ⟨moves_of (CvMove.pass (le_refl _)) rfl rfl rfl rfl rfl rfl, moves_of ?_ rfl hc rfl rfl rfl rfl⟩
      rw [hc]
      exact CvMove.again hn (hroom.resolve_left hpred)
  | overflowWait x old =>
    rw [crit, pushOverflow]
    split
    · exact pass (by simp [Loc.cond]) (by simp [Loc.cond]) rfl (by simp [Next.cond]) (by simp [Next.cond])
    · exact pass (by simp [Loc.cond]) (by simp [Loc.cond]) rfl (by simp [Next.cond]) (by simp [Next.cond])
  | pop =>
    rw [crit]
    split
    · rename_i hpred
      exact popBody_moves PopAt.start hq ⟨rfl, rfl, rfl, rfl⟩ rfl rfl hpred
    · rename_i hpred
      obtain ⟨hn, hc⟩ := empty hpred
      obtain ⟨ht, hw⟩ := hroom.resolve_left hpred
      refine ⟨moves_of ?_ rfl hc rfl rfl rfl rfl, moves_of (CvMove.pass (le_refl _)) rfl rfl rfl rfl rfl rfl⟩
      rw [hc]
      exact CvMove.enter hn ht hw
  | popWait =>
    rw [crit]
    split
    · rename_i hpred
      exact popBody_moves PopAt.wait hq ⟨rfl, rfl, rfl, rfl⟩ rfl rfl hpred
    · rename_i hpred
      obtain ⟨hn, hc⟩ := empty hpred
      refine ⟨moves_of ?_ rfl hc rfl rfl rfl rfl, moves_of (CvMove.pass (le_refl _)) rfl rfl rfl rfl rfl rfl⟩
      rw [hc]
      exact CvMove.again hn (hroom.resolve_left hpred)
  | close =>
    rw [crit, closeBody]
    simp only
    split
    · exact ⟨moves_of CvMove.all rfl rfl rfl rfl rfl rfl, moves_of CvMove.all rfl rfl rfl rfl rfl rfl⟩
    · exact ⟨moves_of CvMove.all rfl rfl rfl rfl rfl rfl, moves_of CvMove.all rfl rfl rfl rfl rfl rfl⟩
  | isClosed => exact pass (by simp [Loc.cond]) (by simp [Loc.cond]) rfl (by simp [Next.cond]) (by simp [Next.cond])

end Sections

/-! ## Runs -/

section Runs

variable {Tid T : Type} [Fintype Tid] [DecidableEq Tid] {cfg : Config} {s s' : QState Tid T} {a : MAct Tid (Op T)}
  {e : Ev Tid T Cond}

/-- A thread waits on the condition variable of its point. -/
def Fits : Thread (Loc T) Cond → Prop
  | .idle => True
  | .ready l => l.cond = none
  | .waiting c _ l => l.cond = some c

variable {l : Loc T}

omit [Fintype Tid] [DecidableEq Tid] in
theorem View.fits {q q' : QueueT (Item T)} {nx : Next (Loc T) Cond (Res T)} (h : View cfg q l q' nx) : Fits nx.thread := by
  cases h <;> first | rfl | trivial

/-- What a `cv_t` on the condition variable `c` keeps in a state. -/
def CvOk (c : Cond) (cv : CvT) (n : Nat) (s : QState Tid T) : Prop :=
  CvInv s.shared.closed n cv (waiters s.thr c .blocked) (waiters s.thr c .signalled) (waiters s.thr c .spurious)

/-- The invariant of a queue: threads wait where their points say, and the two `cv_t`s keep their counts. -/
structure WakeInv (cfg : Config) (s : QState Tid T) : Prop where
  fits : ∀ t, Fits (s.thr t)
  pop : CvOk .cvPop s.shared.cvPop (contents cfg s.shared).length s
  push : CvOk .cvPush s.shared.cvPush (freeCount cfg s.shared) s

omit [Fintype Tid] [DecidableEq Tid] in
theorem Fits.waitsAt {th : Thread (Loc T) Cond} (h : Fits th) : WaitsAt Loc.cond th := by
  cases th <;> exact h

theorem CvOk.run {c : Cond} {cv : QueueT (Item T) → CvT} {n : QueueT (Item T) → Nat} {t : Tid} {ps : List Tid}
    {o : Outcome T} {thr : Tid → Thread (Loc T) Cond} (h : CvOk c (cv s.shared) (n s.shared) s) (hf : Fits (s.thr t))
    (hl : (s.thr t).runnable = some l) (hm : Moves c cv n s.shared l o) (hthr : notify s.thr o.2.1 ps = some thr) :
    CvOk c (cv o.1) (n o.1) (⟨o.1, update thr t o.2.2.thread, s.calls⟩ : QState Tid T) := by
  obtain ⟨hb, hg, hp⟩ := waiters_section hl hthr o.2.2 c rfl
  refine CvInv.move h hm ?_ (tally_le_waiters ..) (tally_le_waiters ..) ?_ hg hp
  · simpa only [decide_eq_true_eq] using hf.waitsAt.tally hl c
  · simpa only [decide_eq_true_eq] using hb

/-- No thread goes to sleep on a `cv_t` whose counters are at their maximum. -/
def CountersFit (cfg : Config) (s : QState Tid T) : MAct Tid (Op T) → Prop
  | .run t _ => ∀ l ∈ s.loc t, RoomToWait cfg s.shared l
  | _ => True

instance {T : Type} (cfg : Config) (q : QueueT (Item T)) (l : Loc T) : Decidable (RoomToWait cfg q l) :=
  match l with
  | .push _ => inferInstanceAs (Decidable (_ ∨ _))
  | .pushWait _ => inferInstanceAs (Decidable (_ ∨ _))
  | .pop => inferInstanceAs (Decidable (_ ∨ _))
  | .popWait => inferInstanceAs (Decidable (_ ∨ _))
  | .overflowWait _ _ => isTrue trivial
  | .close => isTrue trivial
  | .isClosed => isTrue trivial

instance (s : QState Tid T) (a : MAct Tid (Op T)) : Decidable (CountersFit cfg s a) :=
  match a with
  | .run t _ => inferInstanceAs (Decidable (∀ l ∈ s.loc t, RoomToWait cfg s.shared l))
  | .call _ _ => isTrue trivial
  | .wake _ => isTrue trivial

/-- A thread that does not wait calls an operation: nothing is counted anew. -/
theorem CvOk.call {c : Cond} {cv : CvT} {n : Nat} {t : Tid} (h : CvOk c cv n s) (hi : s.thr t = .idle) :
    CvOk c cv n (⟨s.shared, update s.thr t (.ready l), s.calls + 1⟩ : QState Tid T) := by
  simpa only [CvOk, waiters_call hi] using h

/-- A sleeper wakes on its own: it is no longer asleep, and not notified. -/
theorem CvOk.wake {c c' : Cond} {cv : CvT} {n : Nat} {t : Tid} (h : CvOk c cv n s) (hi : s.thr t = .waiting c' .blocked l) :
    CvOk c cv n (⟨s.shared, update s.thr t (.waiting c' .spurious l), s.calls⟩ : QState Tid T) := by
  obtain ⟨ub, ug, us⟩ := waiters_wake hi c
  obtain ⟨h1, h2, h3, h4, h5, h6, h7, h8⟩ := h
  exact ⟨by simp only; omega, by simp only; omega, h3, h4, h5, fun hb => by simp only at hb ⊢; have := h6 (by omega); omega, h7, h8⟩

theorem WakeInv.step (hI : WakeInv cfg s) (hp : cfg.policy = .blocking) (hq : RingOk cfg s.shared) (hok : CountersFit cfg s a)
    (h : (queue T cfg).exec s a = some (s', e)) : WakeInv cfg s' := by
  have hfits : ∀ t, Fits (s'.thr t) :=
    Monitor.forall_thread h hI.fits (fun _ o => by cases o <;> rfl) (fun l => (crit_view hq l).fits) fun _ _ _ hf => hf
  cases Monitor.exec_full h with
  | call t o hi => exact ⟨hfits, hI.pop.call hi, hI.push.call hi⟩
  | wake t c l hi => exact ⟨hfits, hI.pop.wake hi, hI.push.wake hi⟩
  | run t ps l thr hl hthr =>
    have hm := crit_moves hp hq l (hok l (Thread.loc_of_runnable hl))
    exact ⟨hfits, hI.pop.run (hI.fits t) hl hm.1 hthr, hI.push.run (hI.fits t) hl hm.2 hthr⟩

/-- No lost wake-up in `chan.h`: in every state of every run in which no thread goes to sleep on a `cv_t` whose counters are at
their maximum, nobody sleeps on a closed queue, a pop sleeps only if as many pops have been notified as there are values, and a
push sleeps in its first wait only if as many pushes have been notified as there are free slots. -/
theorem no_lost_wakeup {raw : Nat → Item T} {es : List (Ev Tid T Cond)} (hp : cfg.policy = .blocking)
    (h : RunIf (queue T cfg).exec (CountersFit cfg) (queueInit Tid raw) es s) :
    (s.shared.closed = true → ∀ t l, s.thr t ≠ .waiting .cvPop .blocked l ∧ s.thr t ≠ .waiting .cvPush .blocked l) ∧
    (∀ t l, s.thr t = .waiting .cvPop .blocked l → (contents cfg s.shared).length ≤ waiters s.thr .cvPop .signalled) ∧
    (∀ t l, s.thr t = .waiting .cvPush .blocked l → freeCount cfg s.shared ≤ waiters s.thr .cvPush .signalled) := by
  have hI : WakeInv cfg s := by
    induction h with
    | nil =>
      have hidle : ∀ c w, waiters (queueInit Tid raw : QState Tid T).thr c w = 0 := waiters_idle
      have h0 : ∀ c n, CvOk c ⟨0, 0⟩ n (queueInit Tid raw : QState Tid T) := by
        intro c n
        simp only [CvOk, hidle]
        exact ⟨rfl, le_refl _, fun _ => rfl, fun _ => .inl rfl, fun _ => rfl, fun hb => absurd hb (lt_irrefl _),
          by decide, by decide⟩
      exact ⟨fun _ => trivial, h0 _ _, h0 _ _⟩
    | snoc hr hok hx ih => exact ih.step hp (run_ringOk hr) hok hx
  have awake : ∀ {c : Cond} {cv : CvT} {n : Nat}, CvOk c cv n s → s.shared.closed = true → ∀ t l,
      s.thr t ≠ .waiting c .blocked l := by
    intro c cv n hcv hc t l ht
    have h1 := hcv.blocked_le
    have h2 := hcv.closed hc
    have h3 := waiters_pos ht
    omega
  exact ⟨fun hc t l => ⟨awake hI.pop hc t l, awake hI.push hc t l⟩, fun t l ht => hI.pop.enough (waiters_pos ht),
    fun t l ht => hI.push.enough (waiters_pos ht)⟩

end Runs

/-- A queue of one slot that blocks. -/
def oneSlot : Config := .ofArgs 1#63 .blocking

/-- The events of a run on `oneSlot`: the pops of `t` and `u` sleep, and the value that `v` pushes wakes the first. -/
def oneOfTwo {Tid : Type} (t u v : Tid) : List (Ev Tid Nat Cond) :=
  [.call t 0 .pop, .wait t .cvPop .popWait, .call u 1 .pop, .wait u .cvPop .popWait, .call v 2 (.push 7),
    .ret v (.pushed ⟨7, 2⟩ true)]

/-- At the end of `oneOfTwo` thread 1 sleeps although there is a value, and there is a notified pop to take it. -/
theorem no_lost_wakeup_oneOfTwo : ∃ s,
    RunIf (queue Nat oneSlot).exec (CountersFit oneSlot) (queueInit (Fin 3) fun _ => ⟨0, 0⟩) (oneOfTwo 0 1 2) s ∧
    s.thr 1 = .waiting .cvPop .blocked .popWait ∧ (contents oneSlot s.shared).length = 1 ∧
    1 ≤ waiters s.thr .cvPop .signalled := by
  obtain ⟨s, h, ht, hlen⟩ : ∃ s, Run (guarded (queue Nat oneSlot).exec (CountersFit oneSlot)) (queueInit (Fin 3) fun _ => ⟨0, 0⟩)
      (oneOfTwo 0 1 2) s ∧ s.thr 1 = .waiting .cvPop .blocked .popWait ∧ (contents oneSlot s.shared).length = 1 :=
    ⟨_, run_of_execAll [.call 0 .pop, .run 0 [], .call 1 .pop, .run 1 [], .call 2 (.push 7), .run 2 [0]] rfl, rfl, rfl⟩
  have h' := runIf_of_guarded h
  exact ⟨s, h', ht, hlen, hlen ▸ (no_lost_wakeup rfl h').2.1 1 _ ht⟩

/-! ## The counter comes round -/

/-- The empty queue of one slot, with one pop inside `cv_pop_`, whose `wait_count_` is `w`. -/
def dozed (w : Nat) : QueueT (Item Nat) := ⟨⟨0, 0⟩, ⟨1, w⟩, false, 0, 0, fun _ => ⟨0, 0⟩⟩

/-- Thread 0 sleeps in `pop`, thread 1 is outside, and `wait_count_` is `w`. -/
structure Dozing (w : Nat) (s : QState (Fin 2) Nat) : Prop where
  shared : s.shared = dozed w
  first : s.thr 0 = .waiting .cvPop .blocked .popWait
  second : s.thr 1 = .idle

theorem dozed_popWait (w : Nat) : (queue Nat oneSlot).crit (dozed w) .popWait = (dozed (add 32 w 1), [], .wait .cvPop .popWait) := rfl

theorem dozed_push (x : Item Nat) : (queue Nat oneSlot).crit (dozed 0) (.push x) =
    ({ dozed 0 with new := 1, data := update (fun _ => ⟨0, 0⟩) 0 x }, [], .ret (.pushed x true)) := rfl

/-- Thread 0 wakes without cause and goes back to sleep. -/
theorem Dozing.round {w : Nat} {s : QState (Fin 2) Nat} (h : Dozing w s) : ∃ es s',
    Run (queue Nat oneSlot).exec s es s' ∧ Dozing (add 32 w 1) s' := by
  obtain ⟨s1, r1, q1, t1, o1, _⟩ := (queue Nat oneSlot).run_wake h.first
  obtain ⟨s2, r2, q2, t2, o2, _⟩ := (queue Nat oneSlot).run_section [] (by rw [t1]; rfl) (q1.trans h.shared) (dozed_popWait w) rfl
  exact ⟨_, s2, r1.trans r2, q2, t2, by rw [o2 1 (by decide), o1 1 (by decide), h.second]⟩

theorem exists_dozing : ∃ es s, Run (queue Nat oneSlot).exec (queueInit (Fin 2) fun _ => ⟨0, 0⟩) es s ∧ Dozing 1 s :=
  ⟨_, _, run_of_execAll [.call 0 .pop, .run 0 []] rfl, rfl, rfl, rfl⟩

/-- Without the condition a wake-up is lost: after `2 ^ 32 - 1` wake-ups without cause `wait_count_` is zero although thread 0
sleeps, and the value that thread 1 pushes does not wake it. -/
theorem no_lost_wakeup_false : ¬∀ es s, Run (queue Nat oneSlot).exec (queueInit (Fin 2) fun _ => ⟨0, 0⟩) es s →
    ∀ t l, s.thr t = .waiting .cvPop .blocked l → (contents oneSlot s.shared).length ≤ waiters s.thr .cvPop .signalled := by
  intro hall
  obtain ⟨es, s, hr, hs⟩ := exists_dozing
  obtain ⟨es', s1, hr', hs1⟩ := RunIf.iterate (fun _ _ h => Dozing.round h) (2 ^ 32 - 1) hs
  have h0 : add 32 1 (2 ^ 32 - 1) = 0 := by decide
  rw [iterate_add_one (by decide), h0] at hs1
  -- Thread 1 pushes.
  obtain ⟨s2, r2, q2, t2, o2, _⟩ := (queue Nat oneSlot).run_call (.push 7) hs1.second
  obtain ⟨s3, r3, q3, t3, o3, _⟩ := (queue Nat oneSlot).run_section [] (by rw [t2]; rfl) (q2.trans hs1.shared) (dozed_push _) rfl
  have i3 : s3.thr 0 = .waiting .cvPop .blocked .popWait := by rw [o3 0 (by decide), o2 0 (by decide), hs1.first]
  have hlen := hall _ s3 (((hr.trans hr').trans r2).trans r3) 0 _ i3
  have hsig : waiters s3.thr .cvPop .signalled = 0 := by
    rw [waiters, Fin.sum_univ_two, i3, t3]
    rfl
  rw [hsig, q3, length_contents] at hlen
  cases hlen

end CsLearning.Chan
