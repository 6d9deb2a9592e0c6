import CsLearning.Chan.Rendezvous

/-!
# `chan.h`: the release of a rendezvous producer

A push on a queue without buffer remembers `first_` and waits until it has changed. `first_` goes up with every value taken and back to zero by
`reset_pos`, so with `n` values taken before it, a value finds `first_` at `n` modulo `CHAN_MAX_COUNTER - 1`. A push that stays in its wait
while others go on can find its number again and wait on although its value has been taken (`released_again`); `released_iff` says
after which numbers of values that is so.
-/

open List Option Function Nat

namespace CsLearning.Chan

variable {Tid T : Type} [DecidableEq Tid] {cfg : Config} {es : List (Ev Tid T Cond)} {s s' : QState Tid T} {a : MAct Tid (Op T)}
  {e : Ev Tid T Cond} {t : Tid} {x : Item T} {l : Loc T}

/-- `first_` of an open queue after `n` values have been taken, while it holds a value and while it is empty. -/
def turn (cfg : Config) (n : Nat) (empty : Bool) : Nat :=
  if empty then if n = 0 then 0 else (n - 1) % (cfg.maxCounter - 1) + 1 else n % (cfg.maxCounter - 1)

/-- The invariant of a queue without buffer: the counter follows the number of values taken, and each push inside its wait remembers the one with
which its value was stored. -/
structure Turns (cfg : Config) (es : List (Ev Tid T Cond)) (s : QState Tid T) : Prop where
  before : ∀ t l x, s.loc t = some l → PushAt x l → x ∉ delivered es ∧ x ∉ contents cfg s.shared
  dropped : s.shared.closed = true → contents cfg s.shared = []
  first : s.shared.closed = false → s.shared.first = turn cfg (delivered es).length (contents cfg s.shared).isEmpty
  queued : ∀ t x old, s.loc t = some (.overflowWait x old) → x ∈ contents cfg s.shared → old = turn cfg (delivered es).length false
  taken : ∀ t x old, s.loc t = some (.overflowWait x old) → ∀ b d, delivered es = b ++ x :: d → old = turn cfg b.length false

omit [DecidableEq Tid] in
/-- A step that leaves the queue alone. -/
theorem Turns.quiet (h : Turns cfg es s) (hs : Same s.shared s'.shared) (hd : e.delivered = none) (hst : Stands cfg es s s') :
    Turns cfg (es ++ [e]) s' := by
  have hc : contents cfg s'.shared = contents cfg s.shared := hs.contents
  have hd' : delivered (es ++ [e]) = delivered es := by rw [delivered_snoc, hd]; simp
  constructor
  · intro u l x hl hp
    rw [hc, hd']
    rcases hst.push u l x hl hp with ⟨l0, hl0, hp0⟩ | hnew
    · exact h.before u l0 x hl0 hp0
    · exact ⟨fun hm => hnew (Or.inr (Or.inr (Or.inl hm))), fun hm => hnew (Or.inr (Or.inl hm))⟩
  · rw [hc, hs.closed]
    exact h.dropped
  · rw [hc, hd', hs.closed, hs.first]
    exact h.first
  · intro u x old hl
    rw [hc, hd']
    exact h.queued u x old (hst.waits u x old hl)
  · intro u x old hl
    rw [hd']
    exact h.taken u x old (hst.waits u x old hl)

/-! ## `first_` when a value is stored -/

omit [DecidableEq Tid] in
theorem pushThreadUnsafe_first {q : QueueT (Item T)} (hf : 0 < freeCount cfg q) (x : Item T) : (pushThreadUnsafe cfg q x).2 = true ∧
    (pushThreadUnsafe cfg q x).1.first = if cfg.maxCounter ≤ Word.add 64 q.new 1 then q.first % cfg.capacity else q.first := by
  rw [pushThreadUnsafe, if_pos hf]
  refine ⟨rfl, ?_⟩
  unfold boundPos
  split_ifs with h
  · rfl
  · rfl

theorem pushBody_first {q : QueueT (Item T)} (hov : cfg.overflow = true) (hq : RingOk cfg q) (hc : contents cfg q = []) (ho : q.closed = false)
    (x : Item T) : (pushBody cfg q x).1.first = if cfg.maxCounter ≤ q.first + 1 then 0 else q.first := by
  have hone := cfg.capacity_of_overflow hov
  have hlen : q.new - q.first = 0 := by rw [← length_contents, hc]; rfl
  have hnew : q.new = q.first := by
    have := hq.first_le
    omega
  have hf : 0 < freeCount cfg q := by
    rw [hq.freeCount_eq, hc, hone]
    exact one_pos
  obtain ⟨hst, hfst⟩ := pushThreadUnsafe_first hf x
  rw [Word.add_of_lt hq.new_succ_lt, hnew, hone, mod_one] at hfst
  rw [← hfst, pushBody, if_neg (by simp [ho])]
  cases hrun : pushThreadUnsafe cfg q x with
  | mk q' b =>
    rw [hrun] at hst
    subst hst
    simp only [hov, if_true, pushOverflow]
    split <;> rfl

/-- A value that is stored in the empty queue leaves `first_` alone, or `reset_pos` sets it to zero. -/
theorem crit_first {q : QueueT (Item T)} (hov : cfg.overflow = true) (hq : RingOk cfg q) (hc : contents cfg q = []) (ho : q.closed = false)
    (hp : PushAt x l) : (crit cfg q l).1.first = if cfg.maxCounter ≤ q.first + 1 then 0 else q.first := by
  have hpred : pushPred cfg q = true := by
    have hf : 0 < freeCount cfg q := by
      rw [hq.freeCount_eq, hc, cfg.capacity_of_overflow hov]
      exact one_pos
    simp [pushPred, hf]
  cases hp with
  | start =>
    rw [crit, if_pos hpred]
    exact pushBody_first hov hq hc ho x
  | wait =>
    rw [crit, if_pos hpred]
    have hs : Same q { q with cvPush := q.cvPush.leave } := ⟨rfl, rfl, rfl, rfl⟩
    exact pushBody_first hov (hs.ringOk hq) (hs.contents.trans hc) ho x

theorem turn_store (hmax : 2 ≤ cfg.maxCounter) (n : Nat) :
    (if cfg.maxCounter ≤ turn cfg n true + 1 then 0 else turn cfg n true) = turn cfg n false := by
  obtain ⟨m, hm⟩ : ∃ m, cfg.maxCounter = m + 2 := ⟨cfg.maxCounter - 2, by omega⟩
  simp only [turn, hm, if_true, Bool.false_eq_true, if_false, Nat.add_succ_sub_one]
  cases n with
  | zero => simp
  | succ n =>
    have hlt : n % (m + 1) < m + 1 := Nat.mod_lt n (Nat.succ_pos m)
    rw [if_neg (Nat.succ_ne_zero n), Nat.add_sub_cancel, ← Nat.mod_add_mod n]
    split_ifs with hwrap
    · rw [show n % (m + 1) + 1 = m + 1 by omega, Nat.mod_self]
    · rw [Nat.mod_eq_of_lt (by omega : n % (m + 1) + 1 < m + 1)]

/-! ## Every step keeps the turns -/

/-- A value is stored. -/
theorem Turns.store (hmax : 2 ≤ cfg.maxCounter) (hL : Labelled cfg es s) (h : Turns cfg es s)
    (hl : s.loc t = some l) (hp : PushAt x l) (ho : s.shared.closed = false) (hc : contents cfg s.shared = [])
    (hst : Stored cfg s.shared x s'.shared) (hc' : contents cfg s'.shared = [x])
    (hfst : s'.shared.first = if cfg.maxCounter ≤ s.shared.first + 1 then 0 else s.shared.first)
    (hloc : s'.loc = update s.loc t (some (.overflowWait x s'.shared.first))) :
    Turns cfg (es ++ [.wait t .cvOverflow (.overflowWait x s'.shared.first)]) s' := by
  have hd : delivered (es ++ [MEv.wait t .cvOverflow (.overflowWait x s'.shared.first)]) = delivered es := by
    rw [delivered_snoc]
    simp [Ev.delivered]
  have hturn : s'.shared.first = turn cfg (delivered es).length false := by
    rw [hfst, h.first ho, hc]
    exact turn_store hmax _
  have hx := h.before t l x hl hp
  have hne : ∀ u l' y, s.loc u = some l' → l'.item = some y → u ≠ t → y ≠ x := by
    rintro u l' y hl' hy hu rfl
    exact hu (hL.apart u t y y ⟨l', hl', hy⟩ ⟨l, hl, hp.item⟩ rfl)
  refine ⟨fun u l' y hl' hy => ?_, fun hcl => ?_, fun _ => ?_, fun u y old hl' hy => ?_, fun u y old hl' b d hbd => ?_⟩
  · rcases loc_cases hloc hl' with ⟨-, hl'⟩ | ⟨hu, hl0⟩
    · cases hl'
      cases hy
    · rw [hd, hc']
      exact ⟨(h.before u l' y hl0 hy).1, by simpa using hne u l' y hl0 hy.item hu⟩
  · rw [hst.closed] at hcl
    cases hcl
  · rw [hd, hc', hturn]
    rfl
  · rw [hd]
    rcases loc_cases hloc hl' with ⟨-, hl'⟩ | ⟨hu, hl0⟩
    · cases hl'
      exact hturn
    · rw [hc', mem_singleton] at hy
      exact absurd hy (hne u _ y hl0 rfl hu)
  · rw [hd] at hbd
    rcases loc_cases hloc hl' with ⟨-, hl'⟩ | ⟨-, hl0⟩
    · cases hl'
      exact absurd (by rw [hbd]; simp) hx.1
    · exact h.taken u y old hl0 b d hbd

/-- The value in the queue is taken. -/
theorem Turns.take (hov : cfg.overflow = true) (hr : RingOk cfg s.shared) (h : Turns cfg es s) (ht : Taken cfg s.shared x s'.shared)
    (hloc : s'.loc = update s.loc t none) : Turns cfg (es ++ [.ret t (.popped (some x))]) s' := by
  have hd : delivered (es ++ [MEv.ret t (.popped (some x))]) = delivered es ++ [x] := by
    rw [delivered_snoc]
    rfl
  obtain ⟨hc, hc'⟩ := contents_of_take hov hr ht
  refine ⟨fun u l' y hl' hy => ?_, fun _ => hc', fun ho => ?_, fun u y old _ hy => ?_, fun u y old hl' b d hbd => ?_⟩
  · obtain ⟨h1, h2⟩ := h.before u l' y (loc_of_return hloc hl').2 hy
    rw [hc] at h2
    rw [hd, hc']
    simp_all
  · rw [ht.first, h.first (ht.closed.symm.trans ho), hd, hc, hc']
    simp [turn]
  · rw [hc'] at hy
    cases hy
  · obtain ⟨-, hl0⟩ := loc_of_return hloc hl'
    rw [hd] at hbd
    rcases eq_nil_or_concat' d with rfl | ⟨d, z, rfl⟩
    · -- The value just taken: its push remembers the counter with which the queue held it.
      obtain ⟨rfl, hxy⟩ := append_inj' hbd rfl
      cases hxy
      exact h.queued u _ old hl0 (by simp [hc])
    · rw [← cons_append, ← append_assoc] at hbd
      exact h.taken u y old hl0 b d (append_inj' hbd rfl).1

/-- `close` drops the value nobody took. -/
theorem Turns.close (hov : cfg.overflow = true) (h : Turns cfg es s) (hcl : Closing cfg s.shared s'.shared) (hloc : s'.loc = update s.loc t none) :
    Turns cfg (es ++ [.ret t .closed]) s' := by
  have hd : delivered (es ++ [MEv.ret t .closed]) = delivered es := by
    rw [delivered_snoc]
    simp [Ev.delivered]
  have hc' : contents cfg s'.shared = [] := by rw [hcl.contents, if_pos hov]
  refine ⟨fun u l' y hl' hy => ?_, fun _ => hc', fun ho => ?_, fun u y old _ hy => ?_, fun u y old hl' b d hbd => ?_⟩
  · rw [hd, hc']
    exact ⟨(h.before u l' y (loc_of_return hloc hl').2 hy).1, not_mem_nil⟩
  · rw [hcl.closed] at ho
    cases ho
  · rw [hc'] at hy
    cases hy
  · exact h.taken u y old (loc_of_return hloc hl').2 b d (hd ▸ hbd)

theorem Turns.step [Fintype Tid] (hmax : 2 ≤ cfg.maxCounter) (hov : cfg.overflow = true) (hr : RingOk cfg s.shared) (hL : Labelled cfg es s)
    (h : Turns cfg es s) (hx : (queue T cfg).exec s a = some (s', e)) : Turns cfg (es ++ [e]) s' := by
  have hshared : ∀ t ps l, a = .run t ps → s.loc t = some l → s'.shared = (crit cfg s.shared l).1 := by
    rintro t ps l rfl hl
    cases Monitor.exec_step hx with
    | run _ _ l' hl' hsh =>
      rw [hl] at hl'
      cases hl'
      exact hsh
  cases (queue_step hr hx).handStep hov hL with
  | quiet hs hd _ hst => exact h.quiet hs hd hst
  | refuse _ _ hs hloc => exact h.quiet hs rfl (.update hloc (by simp) (by simp))
  | release _ _ hs hloc => exact h.quiet hs rfl (.update hloc (by simp) (by simp))
  | store hl hp ho hst hloc =>
    obtain ⟨hc, hc'⟩ := contents_of_store hst hov
    have hfst := crit_first hov hr hc ho hp
    rw [← hshared _ _ _ rfl hl] at hfst
    exact h.store hmax hL hl hp ho hc hst hc' hfst hloc
  | take ht hloc => exact h.take hov hr ht hloc
  | close _ hc hloc => exact h.close hov hc hloc

/-! ## When the wait predicate holds -/

/-- The number of a value comes again after a multiple of `CHAN_MAX_COUNTER - 1` values. -/
theorem turn_eq_iff (hmax : 2 ≤ cfg.maxCounter) (b d : Nat) (empty : Bool) : turn cfg (b + (d + 1)) empty = turn cfg b false ↔
      cfg.maxCounter - 1 ∣ d + 1 ∧ (empty = true → turn cfg b false ≠ 0) := by
  have hst : turn cfg (b + (d + 1)) false = turn cfg b false ↔ cfg.maxCounter - 1 ∣ d + 1 := by
    have hmod := Nat.modEq_iff_dvd' (n := cfg.maxCounter - 1) (Nat.le_add_right b (d + 1))
    rw [Nat.add_sub_cancel_left] at hmod
    exact eq_comm.trans hmod
  cases empty with
  | false => simpa using hst
  | true =>
    -- Unless it was at its end, the counter of the empty queue is that of the next value.
    have hlt : turn cfg b false < cfg.maxCounter - 1 := Nat.mod_lt _ (by omega)
    have hpos : 0 < turn cfg (b + (d + 1)) true := by simp [turn]
    have hn := turn_store hmax (b + (d + 1))
    rw [← hst, ← hn]
    split_ifs with hend <;> grind

section Runs

variable [Fintype Tid] {raw : Nat → Item T}

theorem run_turns (hmax : 2 ≤ cfg.maxCounter) (hov : cfg.overflow = true) (h : Run (queue T cfg).exec (queueInit Tid raw) es s) :
    Labelled cfg es s ∧ Turns cfg es s := by
  have hn : ∀ t, (queueInit Tid raw : QState Tid T).loc t = none := fun _ => rfl
  induction h with
  | nil =>
    refine ⟨.init raw, ?_, fun _ => rfl, fun _ => rfl, ?_, ?_⟩
    · intro t l x hl
      cases (hn t).symm.trans hl
    · intro t x old hl
      cases (hn t).symm.trans hl
    · intro t x old hl
      cases (hn t).symm.trans hl
  | snoc hrun _ hx ih => exact ⟨ih.1.step (queue_step (run_ringOk hrun) hx), ih.2.step hmax hov (run_ringOk hrun) ih.1 hx⟩

/-- When a push whose value has been taken may return. The `d` are the values taken after it: the predicate of its wait on `cv_overflow_` holds
if the queue has been closed, or the number of the `d` and one is no multiple of `CHAN_MAX_COUNTER - 1`, or the queue is empty and the push remembers
zero; and otherwise it does not hold. -/
theorem released_iff (hcap : cfg.arg = 0) (hp : cfg.policy = .blocking) (hmax : 2 ≤ cfg.maxCounter)
    (h : Run (queue T cfg).exec (queueInit Tid raw) es s) {t : Tid} {x : Item T} {old : Nat} (hl : s.loc t = some (.overflowWait x old))
    {b d : List (Item T)} (hx : delivered es = b ++ x :: d) :
    (old ≠ s.shared.first ∨ s.shared.closed = true) ↔
      s.shared.closed = true ∨ ¬cfg.maxCounter - 1 ∣ d.length + 1 ∨ contents cfg s.shared = [] ∧ old = 0 := by
  have hov : cfg.overflow = true := by simp [Config.overflow, Config.made, hcap, hp]
  obtain ⟨-, hturns⟩ := run_turns hmax hov h
  cases hclosed : s.shared.closed with
  | true => simp
  | false =>
    have hiff := turn_eq_iff hmax b.length d.length (contents cfg s.shared).isEmpty
    have hfirst := hturns.first hclosed
    rw [hx, length_append, length_cons] at hfirst
    rw [← hfirst, ← hturns.taken t x old hl b d hx, List.isEmpty_iff] at hiff
    rw [ne_comm, ne_eq, hiff]
    simp only [Bool.false_eq_true, or_false, false_or]
    tauto

end Runs

/-- A queue without buffer whose counters are set back at two. -/
def twoCounts : Config := ⟨0, .blocking, 2, by decide, by decide⟩

/-- The events of a run on `twoCounts`: `t` pushes a value and `u` takes it. -/
def takenBy (t u : Tid) : List (Ev Tid Nat Cond) :=
  [.call t 0 (.push 7), .wait t .cvOverflow (.overflowWait ⟨7, 0⟩ 0), .call u 1 .pop, .ret u (.popped (some ⟨7, 0⟩))]

theorem released_iff_takenBy : ∃ s, Run (queue Nat twoCounts).exec (queueInit (Fin 2) fun _ => ⟨0, 0⟩) (takenBy 0 1) s ∧
    s.loc 0 = some (.overflowWait ⟨7, 0⟩ 0) ∧ (0 ≠ s.shared.first ∨ s.shared.closed = true) := by
  obtain ⟨s, h, hs⟩ : ∃ s, Run (queue Nat twoCounts).exec (queueInit (Fin 2) fun _ => ⟨0, 0⟩) (takenBy 0 1) s ∧
      (s.loc 0, contents twoCounts s.shared) = (some (.overflowWait ⟨7, 0⟩ 0), []) :=
    exists_run_of_view (queue Nat twoCounts).exec (fun s => (s.loc 0, contents twoCounts s.shared)) _
      [.call 0 (.push 7), .run 0 [], .call 1 .pop, .run 1 [0]] rfl
  obtain ⟨hloc, hempty⟩ := Prod.mk.inj hs
  exact ⟨s, h, hloc, (released_iff rfl rfl (by decide) h hloc (b := []) (d := []) rfl).mpr (Or.inr (Or.inr ⟨hempty, rfl⟩))⟩

/-- The next value finds the counter set back: the first push does not see that its value has been taken. -/
theorem released_again : ∃ es s, Run (queue Nat twoCounts).exec (queueInit (Fin 3) fun _ => ⟨0, 0⟩) es s ∧
    s.loc 0 = some (.overflowWait ⟨7, 0⟩ 0) ∧ ⟨7, 0⟩ ∈ delivered es ∧ ¬(0 ≠ s.shared.first ∨ s.shared.closed = true) := by
  obtain ⟨s, h, hs⟩ : ∃ s, Run (queue Nat twoCounts).exec (queueInit (Fin 3) fun _ => ⟨0, 0⟩)
      (takenBy 0 1 ++ [.call 2 2 (.push 8), .wait 2 .cvOverflow (.overflowWait ⟨8, 2⟩ 0)]) s ∧
      (s.loc 0, s.shared.first, s.shared.closed) = (some (.overflowWait ⟨7, 0⟩ 0), 0, false) :=
    exists_run_of_view (queue Nat twoCounts).exec (fun s => (s.loc 0, s.shared.first, s.shared.closed)) _
      [.call 0 (.push 7), .run 0 [], .call 1 .pop, .run 1 [0], .call 2 (.push 8), .run 2 []] rfl
  obtain ⟨hloc, hrest⟩ := Prod.mk.inj hs
  obtain ⟨hfirst, hclosed⟩ := Prod.mk.inj hrest
  exact ⟨_, s, h, hloc, by decide, by simp [hfirst, hclosed]⟩

end CsLearning.Chan
