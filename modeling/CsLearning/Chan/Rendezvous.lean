import CsLearning.Chan.Delivery

/-!
# `chan.h`: rendezvous

A queue without buffer hands a value over: `push` waits on `cv_overflow_` until its value has been taken or the queue is closed, and
then returns `!closed_`. The flag is read after the wait, so a `close` that runs between the taking and the return makes the push
return false although its value was delivered (`rendezvous_outcome_false`). When no `close` runs in that window, a push returns
true exactly when its value was delivered (`rendezvous_outcome`).
-/

open List Option Function

namespace CsLearning.Chan

variable {Tid T : Type} [DecidableEq Tid] {cfg : Config} {es : List (Ev Tid T Cond)} {s s' : QState Tid T}
  {a : MAct Tid (Op T)} {e : Ev Tid T Cond}

/-- The value a thread at this point is pushing. -/
def Loc.item : Loc T → Option (Item T)
  | .push x => some x
  | .pushWait x => some x
  | .overflowWait x _ => some x
  | _ => none

/-- The thread is inside the push of `x`. -/
def Holds (s : QState Tid T) (t : Tid) (x : Item T) : Prop := ∃ l, s.loc t = some l ∧ l.item = some x

/-! ## Values are told apart by their calls -/

/-- The value has been seen: some thread pushes it, it is in the queue, it has been delivered, or its push has returned. -/
def Known (cfg : Config) (es : List (Ev Tid T Cond)) (s : QState Tid T) (x : Item T) : Prop :=
  (∃ t, Holds s t x) ∨ x ∈ contents cfg s.shared ∨ x ∈ delivered es ∨ ∃ t b, MEv.ret t (.pushed x b) ∈ es

/-- Every value seen comes from a call already made, and no two threads push the value of one call. -/
structure Labelled (cfg : Config) (es : List (Ev Tid T Cond)) (s : QState Tid T) : Prop where
  known_lt : ∀ x, Known cfg es s x → x.call < s.calls
  apart : ∀ t u x y, Holds s t x → Holds s u y → x.call = y.call → t = u

section Sections

omit [DecidableEq Tid]

variable {q q' : QueueT (Item T)} {l : Loc T} {nx : Next (Loc T) Cond (Res T)}

theorem PushAt.item {x : Item T} (h : PushAt x l) : l.item = some x := by cases h <;> rfl

theorem PopAt.item (h : PopAt l) : l.item = none := by cases h <;> rfl

theorem View.item_of_wait (h : View cfg q l q' nx) : ∀ c l', nx = .wait c l' → l'.item = l.item := by
  intro c l' hn
  cases h with
  | pushSleep h => cases hn; exact h.item.symm
  | pushOverflow h => cases hn; exact h.item.symm
  | overflowSleep => cases hn; rfl
  | popSleep h => cases hn; exact h.item.symm
  | _ => cases hn

theorem View.item_of_pushed (h : View cfg q l q' nx) : ∀ x b, nx = .ret (.pushed x b) → l.item = some x := by
  intro x b hn
  cases h with
  | pushClosed h => cases hn; exact h.item
  | pushDiscard h => cases hn; exact h.item
  | pushStore h => cases hn; exact h.item
  | overflowRet => cases hn; rfl
  | _ => cases hn

/-- A section delivers only what was in the queue. -/
theorem View.mem_of_popped (h : View cfg q l q' nx) : ∀ x, nx = .ret (.popped (some x)) → x ∈ contents cfg q := by
  intro x hn
  cases h with
  | popTake _ ht => cases hn; rw [ht.contents]; simp
  | _ => cases hn

/-- In a queue without buffer there is room for one value only. -/
theorem contents_of_store {x : Item T} (h : Stored cfg q x q') (hov : cfg.overflow = true) : contents cfg q = [] ∧ contents cfg q' = [x] := by
  rcases h.contents with ⟨hlen, hc⟩ | ⟨_, hdo, _⟩
  · rw [cfg.capacity_of_overflow hov] at hlen
    have h0 : contents cfg q = [] := length_eq_zero_iff.mp (by omega)
    exact ⟨h0, by rw [hc, h0]; rfl⟩
  · rw [cfg.blocking_of_overflow hov] at hdo
    cases hdo

/-- A section leaves in the queue what was in it and the value it pushes, no other. -/
theorem View.mem_contents (h : View cfg q l q' nx) {x : Item T} (hx : x ∈ contents cfg q') : x ∈ contents cfg q ∨ l.item = some x := by
  rcases h.change with ⟨_, hs | ⟨y, hy, _, hs⟩ | ⟨y, ht⟩⟩ | ⟨_, _, hc⟩
  · exact .inl (hs.contents ▸ hx)
  · rcases hs.contents with ⟨_, hc⟩ | ⟨_, _, hc⟩ <;> rw [hc, mem_append, mem_singleton] at hx
    · rcases hx with hx | rfl
      · exact .inl hx
      · exact .inr hy.item
    · rcases hx with hx | rfl
      · exact .inl (mem_of_mem_tail hx)
      · exact .inr hy.item
  · rw [ht.contents]
    exact .inl (mem_cons_of_mem _ hx)
  · rw [hc.contents] at hx
    split at hx
    · cases hx
    · exact .inl hx

end Sections

variable {t u : Tid} {l : Loc T} {nx : Next (Loc T) Cond (Res T)} {x : Item T}

section

variable (hl : s.loc t = some l) (hv : View cfg s.shared l s'.shared nx) (hloc : s'.loc = update s.loc t nx.loc)

include hl hv hloc

/-- A section adds no value to those being pushed. -/
theorem holds_of_run
    (h : Holds s' u x) : Holds s u x := by
  obtain ⟨l', hl', hx⟩ := h
  rw [hloc] at hl'
  by_cases hu : u = t
  · subst hu
    rw [update_self] at hl'
    cases nx with
    | ret r => cases hl'
    | wait c l'' =>
      obtain rfl := some.inj hl'
      exact ⟨l, hl, by rw [← hv.item_of_wait c l'' rfl]; exact hx⟩
  · rw [update_of_ne hu] at hl'
    exact ⟨l', hl', hx⟩

/-- A section adds no value to those seen. -/
theorem known_of_run
    (h : Known cfg (es ++ [nx.event t]) s' x) : Known cfg es s x := by
  rcases h with ⟨u, hu⟩ | hx | hx | ⟨u, b, hx⟩
  · exact .inl ⟨u, holds_of_run hl hv hloc hu⟩
  · rcases hv.mem_contents hx with hx | hx
    · exact .inr (.inl hx)
    · exact .inl ⟨t, l, hl, hx⟩
  · rw [delivered_snoc, mem_append] at hx
    rcases hx with hx | hx
    · exact .inr (.inr (.inl hx))
    · refine .inr (.inl (hv.mem_of_popped x ?_))
      cases nx with
      | wait c l' => cases hx
      | ret r =>
        cases r with
        | popped y => rw [mem_toList] at hx; rw [show y = some x from hx]
        | _ => cases hx
  · rcases mem_append.mp hx with hx | hx
    · exact .inr (.inr (.inr ⟨u, b, hx⟩))
    · refine .inl ⟨t, l, hl, hv.item_of_pushed x b ?_⟩
      have he := mem_singleton.mp hx
      cases nx with
      | wait c l' => cases he
      | ret r => cases he; rfl

end

/-- After a call the caller pushes a value with the number of the call, if any; the other threads push what they pushed. -/
theorem holds_of_call {o : Op T} (hloc : s'.loc = update s.loc t (some (entry s.calls o)))
    (h : Holds s' u x) : (Holds s u x ∧ u ≠ t) ∨ (u = t ∧ x.call = s.calls) := by
  obtain ⟨l, hl, hx⟩ := h
  rw [hloc] at hl
  by_cases hu : u = t
  · subst hu
    rw [update_self] at hl
    obtain rfl := some.inj hl
    cases o <;> simp only [entry, Loc.item, some.injEq, reduceCtorEq] at hx
    exact .inr ⟨rfl, by rw [← hx]⟩
  · rw [update_of_ne hu] at hl
    exact .inl ⟨⟨l, hl, hx⟩, hu⟩

omit [DecidableEq Tid] in
theorem Labelled.init (raw : Nat → Item T) : Labelled cfg [] (queueInit Tid raw) := by
  have hn : ∀ t, (queueInit Tid raw : QState Tid T).loc t = none := fun _ => rfl
  constructor
  · rintro x (⟨u, l, hl, _⟩ | hx | hx | ⟨u, b, hx⟩)
    · cases (hn u).symm.trans hl
    · cases hx
    · cases hx
    · cases hx
  · rintro t u x y ⟨l, hl, _⟩
    cases (hn t).symm.trans hl

theorem Labelled.step (hI : Labelled cfg es s) (h : QStep cfg s a e s') : Labelled cfg (es ++ [e]) s' := by
  cases h with
  | call t o _ hsh hloc hcs =>
    constructor
    · intro x hx
      have hk : Known cfg es s x ∨ x.call = s.calls := by
        rcases hx with ⟨u, hu⟩ | hx | hx | ⟨u, b, hx⟩
        · rcases holds_of_call hloc hu with ⟨h, _⟩ | ⟨_, h⟩
          · exact .inl (.inl ⟨u, h⟩)
          · exact .inr h
        · exact .inl (.inr (.inl (hsh ▸ hx)))
        · rw [delivered_snoc] at hx
          exact .inl (.inr (.inr (.inl (by simpa [Ev.delivered] using hx))))
        · exact .inl (.inr (.inr (.inr ⟨u, b, by simpa using hx⟩)))
      rcases hk with h | h
      · have := hI.known_lt x h; omega
      · omega
    · intro u v x y hx hy hxy
      rcases holds_of_call hloc hx with ⟨h, _⟩ | ⟨rfl, h⟩ <;> rcases holds_of_call hloc hy with ⟨h', _⟩ | ⟨rfl, h'⟩
      · exact hI.apart u v x y h h' hxy
      · have := hI.known_lt x (.inl ⟨u, h⟩); omega
      · have := hI.known_lt y (.inl ⟨v, h'⟩); omega
      · rfl
  | wake t hsh hloc hcs =>
    have hh : ∀ u x, Holds s' u x → Holds s u x := by
      rintro u x ⟨l, hl, hx⟩
      exact ⟨l, by rw [← hloc]; exact hl, hx⟩
    constructor
    · rw [hcs]
      rintro x (⟨u, hu⟩ | hx | hx | ⟨u, b, hx⟩)
      · exact hI.known_lt x (.inl ⟨u, hh u x hu⟩)
      · exact hI.known_lt x (.inr (.inl (hsh ▸ hx)))
      · rw [delivered_snoc] at hx
        exact hI.known_lt x (.inr (.inr (.inl (by simpa [Ev.delivered] using hx))))
      · exact hI.known_lt x (.inr (.inr (.inr ⟨u, b, by simpa using hx⟩)))
    · exact fun u v x y hx hy => hI.apart u v x y (hh u x hx) (hh v y hy)
  | run t ps l nx hl hv hloc hcs =>
    constructor
    · rw [hcs]
      exact fun x hx => hI.known_lt x (known_of_run hl hv hloc hx)
    · exact fun u v x y hx hy => hI.apart u v x y (holds_of_run hl hv hloc hx) (holds_of_run hl hv hloc hy)

/-! ## What becomes of a value -/

/-- The value whose taking a push at this point waits for. -/
def Loc.overflowing : Loc T → Option (Item T)
  | .overflowWait x _ => some x
  | _ => none

/-- A `close` about to run on an open queue finds, for every push inside its overflow wait, the value still in the queue: no value
has been taken whose push has not yet returned. -/
def CloseApart (cfg : Config) (s : QState Tid T) : MAct Tid (Op T) → Prop
  | .run t _ => s.loc t = some .close → s.shared.closed = false →
      ∀ u, ∀ l ∈ s.loc u, ∀ x ∈ l.overflowing, x ∈ contents cfg s.shared
  | _ => True

instance [Fintype Tid] [DecidableEq T] (s : QState Tid T) (a : MAct Tid (Op T)) : Decidable (CloseApart cfg s a) :=
  match a with
  | .run t _ => inferInstanceAs (Decidable (s.loc t = some .close → s.shared.closed = false →
      ∀ u, ∀ l ∈ s.loc u, ∀ x ∈ l.overflowing, x ∈ contents cfg s.shared))
  | .call _ _ => isTrue trivial
  | .wake _ => isTrue trivial

/-- What may have become of the value of a push inside its overflow wait: it is in the queue, it has been taken, or `close` has
dropped it. -/
inductive Fate (cfg : Config) (es : List (Ev Tid T Cond)) (s : QState Tid T) (x : Item T) (old : Nat) : Prop where
  | queued : s.shared.closed = false → contents cfg s.shared = [x] → old = s.shared.first → x ∉ delivered es → Fate cfg es s x old
  | taken : s.shared.closed = false → x ∈ delivered es → Fate cfg es s x old
  | dropped : s.shared.closed = true → x ∉ delivered es → Fate cfg es s x old

omit [DecidableEq Tid] in
/-- What became of a value is read off the flag, the values in the queue, `first_` and the deliveries. -/
theorem Fate.congr {es' : List (Ev Tid T Cond)} {old : Nat} (h : Fate cfg es s x old)
    (hs : Same s.shared s'.shared) (hd : delivered es' = delivered es) : Fate cfg es' s' x old := by
  cases h with
  | queued h1 h2 h3 h4 =>
    exact Fate.queued (hs.closed.trans h1) (hs.contents.trans h2) (h3.trans hs.first.symm) (by rw [hd]; exact h4)
  | taken h1 h2 => exact Fate.taken (hs.closed.trans h1) (by rw [hd]; exact h2)
  | dropped h1 h2 => exact Fate.dropped (hs.closed.trans h1) (by rw [hd]; exact h2)

/-- The invariant of a queue without buffer, over the events so far. -/
structure Handover (cfg : Config) (es : List (Ev Tid T Cond)) (s : QState Tid T) : Prop where
  before : ∀ t l x, s.loc t = some l → PushAt x l → x ∉ delivered es ∧ x ∉ contents cfg s.shared
  waiting : ∀ t x old, s.loc t = some (.overflowWait x old) → Fate cfg es s x old
  queued : ∀ x ∈ contents cfg s.shared, x ∉ delivered es ∧ s.shared.closed = false
  returned : ∀ t x b, MEv.ret t (.pushed x b) ∈ es →
    (b = true ↔ x ∈ delivered es) ∧ x ∉ contents cfg s.shared ∧ ∀ u, ¬Holds s u x

/-! ## What a step of a queue without buffer can do -/

theorem loc_cases {o : Option (Loc T)} (hloc : s'.loc = update s.loc t o) (h : s'.loc u = some l) :
    u = t ∧ o = some l ∨ u ≠ t ∧ s.loc u = some l := by
  rw [hloc] at h
  by_cases hu : u = t
  · subst hu
    rw [update_self] at h
    exact .inl ⟨rfl, h⟩
  · rw [update_of_ne hu] at h
    exact .inr ⟨hu, h⟩

theorem loc_of_return (hloc : s'.loc = update s.loc t none) (h : s'.loc u = some l) : u ≠ t ∧ s.loc u = some l := by
  rcases loc_cases hloc h with ⟨_, h⟩ | h
  · cases h
  · exact h

/-- Every push stands where it stood, apart from new ones whose value no one has seen. -/
structure Stands (cfg : Config) (es : List (Ev Tid T Cond)) (s s' : QState Tid T) : Prop where
  push : ∀ u l x, s'.loc u = some l → PushAt x l → (∃ l₀, s.loc u = some l₀ ∧ PushAt x l₀) ∨ ¬Known cfg es s x
  waits : ∀ u x old, s'.loc u = some (.overflowWait x old) → s.loc u = some (.overflowWait x old)

theorem Stands.update {o : Option (Loc T)} (hloc : s'.loc = update s.loc t o)
    (hpush : ∀ l' ∈ o, ∀ x, PushAt x l' → (∃ l₀, s.loc t = some l₀ ∧ PushAt x l₀) ∨ ¬Known cfg es s x)
    (hover : ∀ x old, o = some (.overflowWait x old) → s.loc t = some (.overflowWait x old)) : Stands cfg es s s' := by
  constructor
  · intro u l x hl hp
    rcases loc_cases hloc hl with ⟨rfl, hl⟩ | ⟨_, hl⟩
    · exact hpush l hl x hp
    · exact .inl ⟨l, hl, hp⟩
  · intro u x old hl
    rcases loc_cases hloc hl with ⟨rfl, hl⟩ | ⟨_, hl⟩
    · exact hover x old hl
    · exact hl

omit [DecidableEq Tid] in
theorem Stands.holds (h : Stands cfg es s s') (hx : Holds s' u x) : Holds s u x ∨ ¬Known cfg es s x := by
  obtain ⟨l, hl, hi⟩ := hx
  have pushed : PushAt x l → Holds s u x ∨ ¬Known cfg es s x := by
    intro hp
    rcases h.push u l x hl hp with ⟨l₀, hl₀, hp₀⟩ | hnew
    · exact .inl ⟨l₀, hl₀, hp₀.item⟩
    · exact .inr hnew
  cases l with
  | push y => cases hi; exact pushed .start
  | pushWait y => cases hi; exact pushed .wait
  | overflowWait y old => cases hi; exact .inl ⟨_, h.waits u x old hl, rfl⟩
  | _ => cases hi

/-- The steps of a queue without buffer: those that leave the queue alone, of which some return from a push, and those that store the value, take
it and close the queue. -/
inductive HandStep (cfg : Config) (es : List (Ev Tid T Cond)) (s s' : QState Tid T) : MAct Tid (Op T) → Ev Tid T Cond → Prop where
  | quiet {a : MAct Tid (Op T)} {e : Ev Tid T Cond} : Same s.shared s'.shared → e.delivered = none → (∀ u x b, e ≠ .ret u (.pushed x b)) →
      Stands cfg es s s' → HandStep cfg es s s' a e
  | refuse {t : Tid} {ps : List Tid} {l : Loc T} {x : Item T} : s.loc t = some l → PushAt x l → Same s.shared s'.shared →
      s'.loc = update s.loc t none → HandStep cfg es s s' (.run t ps) (.ret t (.pushed x false))
  | release {t : Tid} {ps : List Tid} {x : Item T} {old : Nat} : s.loc t = some (.overflowWait x old) →
      old ≠ s.shared.first ∨ s.shared.closed = true → Same s.shared s'.shared → s'.loc = update s.loc t none →
      HandStep cfg es s s' (.run t ps) (.ret t (.pushed x (!s.shared.closed)))
  | store {t : Tid} {ps : List Tid} {l : Loc T} {x : Item T} : s.loc t = some l → PushAt x l → s.shared.closed = false →
      Stored cfg s.shared x s'.shared → s'.loc = update s.loc t (some (.overflowWait x s'.shared.first)) →
      HandStep cfg es s s' (.run t ps) (.wait t .cvOverflow (.overflowWait x s'.shared.first))
  | take {t : Tid} {ps : List Tid} {x : Item T} : Taken cfg s.shared x s'.shared → s'.loc = update s.loc t none →
      HandStep cfg es s s' (.run t ps) (.ret t (.popped (some x)))
  | close {t : Tid} {ps : List Tid} : s.loc t = some .close → Closing cfg s.shared s'.shared → s'.loc = update s.loc t none →
      HandStep cfg es s s' (.run t ps) (.ret t .closed)

theorem QStep.handStep (hov : cfg.overflow = true) (hL : Labelled cfg es s) (h : QStep cfg s a e s') : HandStep cfg es s s' a e := by
  cases h with
  | call t o _ hsh hloc _ =>
    refine .quiet (by rw [hsh]; exact ⟨rfl, rfl, rfl, rfl⟩) rfl (by simp) (.update hloc ?_ ?_)
    · rintro _ ⟨⟩ x hx
      refine .inr fun hk => ?_
      have hcall : x.call = s.calls := by cases o <;> cases hx; rfl
      have := hL.known_lt x hk
      omega
    · intro x old ho
      cases o <;> simp [entry] at ho
  | wake t hsh hloc _ =>
    refine .quiet (by rw [hsh]; exact ⟨rfl, rfl, rfl, rfl⟩) rfl (by simp) ⟨fun u l x hl hp => ?_, fun u x old hl => ?_⟩
    · exact .inl ⟨l, by rwa [← hloc], hp⟩
    · rwa [← hloc]
  | run t ps l nx hl hv hloc _ =>
    cases hv with
    | pushSleep hp _ _ _ hs =>
      refine .quiet hs rfl (by simp [Next.event]) (.update hloc ?_ (by simp [Next.loc]))
      rintro _ ⟨⟩ x ⟨⟩
      exact .inl ⟨l, hl, hp⟩
    | pushClosed hp _ hs => exact .refuse hl hp hs hloc
    | pushDiscard _ hd _ _ _ => rw [cfg.blocking_of_overflow hov] at hd; cases hd
    | pushStore _ _ ho _ => rw [hov] at ho; cases ho
    | pushOverflow hp ho _ hst => exact .store hl hp ho hst hloc
    | overflowSleep _ _ hs =>
      refine .quiet hs rfl (by simp [Next.event]) (.update hloc ?_ ?_)
      · rintro _ ⟨⟩ x ⟨⟩
      · rintro x old ⟨⟩
        exact hl
    | overflowRet hw hs => exact .release hl hw hs hloc
    | popSleep _ _ _ hs =>
      refine .quiet hs rfl (by simp [Next.event]) (.update hloc ?_ (by simp [Next.loc]))
      rintro _ ⟨⟩ x ⟨⟩
    | popClosed _ _ _ hs => exact .quiet hs rfl (by simp [Next.event]) (.update hloc (by simp [Next.loc]) (by simp [Next.loc]))
    | popTake _ ht => exact .take ht hloc
    | close hc => exact .close hl hc hloc
    | isClosed hs => exact .quiet hs rfl (by simp [Next.event]) (.update hloc (by simp [Next.loc]) (by simp [Next.loc]))

/-! ## The invariant is kept, step by step -/

omit [DecidableEq Tid] in
/-- A step that leaves the queue alone. A push that returns does so with true exactly when its value has been delivered. -/
theorem Handover.quiet (hI : Handover cfg es s) (hs : Same s.shared s'.shared) (hd : e.delivered = none) (hst : Stands cfg es s s')
    (hr : ∀ u x b, e = .ret u (.pushed x b) → (b = true ↔ x ∈ delivered es) ∧ x ∉ contents cfg s.shared ∧ ∀ v, ¬Holds s' v x) :
    Handover cfg (es ++ [e]) s' := by
  have hc : contents cfg s'.shared = contents cfg s.shared := hs.contents
  have hd' : delivered (es ++ [e]) = delivered es := by rw [delivered_snoc, hd]; simp
  constructor
  · intro u l x hl hp
    rw [hc, hd']
    rcases hst.push u l x hl hp with ⟨l₀, hl₀, hp₀⟩ | hnew
    · exact hI.before u l₀ x hl₀ hp₀
    · exact ⟨fun hm => hnew (.inr (.inr (.inl hm))), fun hm => hnew (.inr (.inl hm))⟩
  · exact fun u x old hl => (hI.waiting u x old (hst.waits u x old hl)).congr hs hd'
  · intro x hx
    rw [hd', hs.closed]
    exact hI.queued x (hc ▸ hx)
  · intro u x b hx
    rw [hd', hc]
    rcases mem_append.mp hx with hm | hm
    · obtain ⟨h1, h2, h3⟩ := hI.returned u x b hm
      refine ⟨h1, h2, fun v hv => ?_⟩
      rcases hst.holds hv with h | hnew
      · exact h3 v h
      · exact hnew (.inr (.inr (.inr ⟨u, b, hm⟩)))
    · exact hr u x b (mem_singleton.mp hm).symm

/-- The push of `x` returns, with true exactly when `x` has been delivered. -/
theorem Handover.release {b : Bool} (hL : Labelled cfg es s) (hI : Handover cfg es s)
    (hl : s.loc t = some l) (hx : l.item = some x) (hs : Same s.shared s'.shared)
    (hloc : s'.loc = update s.loc t none) (hb : b = true ↔ x ∈ delivered es) (hq : x ∉ contents cfg s.shared) :
    Handover cfg (es ++ [.ret t (.pushed x b)]) s' := by
  refine hI.quiet hs rfl (.update hloc (by simp) (by simp)) ?_
  rintro u y c ⟨⟩
  refine ⟨hb, hq, ?_⟩
  -- No other thread pushes the value that has just been returned for.
  rintro v ⟨l', hl', hy⟩
  obtain ⟨hv, hl'⟩ := loc_of_return hloc hl'
  exact hv (hL.apart v t x x ⟨l', hl', hy⟩ ⟨l, hl, hx⟩ rfl)

/-- The push of `x` stores its value in the empty queue and begins to wait for a taker. -/
theorem Handover.store (hov : cfg.overflow = true) (hL : Labelled cfg es s)
    (hI : Handover cfg es s) (hl : s.loc t = some l) (hp : PushAt x l) (ho : s.shared.closed = false)
    (hst : Stored cfg s.shared x s'.shared)
    (hloc : s'.loc = update s.loc t (some (.overflowWait x s'.shared.first))) :
    Handover cfg (es ++ [.wait t .cvOverflow (.overflowWait x s'.shared.first)]) s' := by
  have hd : delivered (es ++ [MEv.wait t .cvOverflow (.overflowWait x s'.shared.first)]) = delivered es := by
    rw [delivered_snoc]; simp [Ev.delivered]
  obtain ⟨hc, hc'⟩ := contents_of_store hst hov
  have hxt : Holds s t x := ⟨l, hl, hp.item⟩
  obtain ⟨hxd, _⟩ := hI.before t l x hl hp
  constructor
  · intro u l' y hl' hp'
    rcases loc_cases hloc hl' with ⟨_, hl'⟩ | ⟨hu, hl'⟩
    · cases hl'
      cases hp'
    · refine ⟨by rw [hd]; exact (hI.before u l' y hl' hp').1, ?_⟩
      rw [hc', mem_singleton]
      rintro rfl
      exact hu (hL.apart u t y y ⟨l', hl', hp'.item⟩ hxt rfl)
  · intro u y old hl'
    rcases loc_cases hloc hl' with ⟨_, hl'⟩ | ⟨_, hl'⟩
    · cases hl'
      exact Fate.queued hst.closed hc' rfl (by rw [hd]; exact hxd)
    · cases hI.waiting u y old hl' with
      | queued _ h2 _ _ => rw [hc] at h2; cases h2
      | taken _ h2 => exact Fate.taken hst.closed (by rw [hd]; exact h2)
      | dropped h1 _ => rw [ho] at h1; cases h1
  · intro y hy
    rw [hc', mem_singleton] at hy
    subst hy
    exact ⟨by rw [hd]; exact hxd, hst.closed⟩
  · intro u y b hy
    obtain ⟨h1, _, h3⟩ := hI.returned u y b (by simpa using hy)
    refine ⟨by rw [hd]; exact h1, ?_, fun v hv => h3 v (holds_of_run hl (View.pushOverflow hp ho hov hst) hloc hv)⟩
    rw [hc', mem_singleton]
    rintro rfl
    exact h3 t hxt

omit [DecidableEq Tid] in
theorem contents_of_take (hov : cfg.overflow = true) (hr : RingOk cfg s.shared) (ht : Taken cfg s.shared x s'.shared) :
    contents cfg s.shared = [x] ∧ contents cfg s'.shared = [] := by
  have h1 := ht.contents
  have h2 := hr.length_le
  rw [cfg.capacity_of_overflow hov, h1, length_cons] at h2
  have h3 : contents cfg s'.shared = [] := length_eq_zero_iff.mp (by omega)
  exact ⟨by rw [h1, h3], h3⟩

/-- The value in the queue is taken: its push, still waiting, will find it delivered. -/
theorem Handover.take (hov : cfg.overflow = true) (hr : RingOk cfg s.shared) (hI : Handover cfg es s)
    (ht : Taken cfg s.shared x s'.shared) (hloc : s'.loc = update s.loc t none) :
    Handover cfg (es ++ [.ret t (.popped (some x))]) s' := by
  have hd : delivered (es ++ [MEv.ret t (.popped (some x))]) = delivered es ++ [x] := by
    rw [delivered_snoc]; rfl
  obtain ⟨hc, hc'⟩ := contents_of_take hov hr ht
  obtain ⟨_, ho⟩ := hI.queued x (by rw [hc]; simp)
  have ho' : s'.shared.closed = false := ht.closed.trans ho
  constructor
  · intro u l' y hl' hp'
    obtain ⟨h1, h2⟩ := hI.before u l' y (loc_of_return hloc hl').2 hp'
    rw [hc] at h2
    rw [hd, hc']
    simp [h1, h2]
  · intro u y old hl'
    cases hI.waiting u y old (loc_of_return hloc hl').2 with
    | queued _ h2 _ _ => grind [Fate.taken]
    | taken _ h2 => exact Fate.taken ho' (by rw [hd]; simp [h2])
    | dropped h1 _ => rw [ho] at h1; cases h1
  · intro y hy
    rw [hc'] at hy
    cases hy
  · intro u y b hy
    obtain ⟨h1, h2, h3⟩ := hI.returned u y b (by simpa using hy)
    rw [hc] at h2
    refine ⟨?_, by rw [hc']; simp, fun v ⟨l', hl', hy'⟩ => h3 v ⟨l', (loc_of_return hloc hl').2, hy'⟩⟩
    rw [hd, h1]
    simp [h2]

/-- `close` drops the value nobody took. Every push inside its wait still had its value in the queue, so it will return false and
its value has not been delivered. -/
theorem Handover.close (hov : cfg.overflow = true) (hI : Handover cfg es s)
    (hcl : Closing cfg s.shared s'.shared) (hloc : s'.loc = update s.loc t none)
    (hapart : s.shared.closed = false → ∀ u, ∀ l ∈ s.loc u, ∀ x ∈ l.overflowing, x ∈ contents cfg s.shared) :
    Handover cfg (es ++ [.ret t .closed]) s' := by
  have hd : delivered (es ++ [MEv.ret t .closed]) = delivered es := by rw [delivered_snoc]; simp [Ev.delivered]
  have hc' : contents cfg s'.shared = [] := by rw [hcl.contents, if_pos hov]
  constructor
  · intro u l' y hl' hp'
    rw [hd, hc']
    exact ⟨(hI.before u l' y (loc_of_return hloc hl').2 hp').1, by simp⟩
  · intro u y old hl'
    obtain ⟨_, hl'⟩ := loc_of_return hloc hl'
    refine Fate.dropped hcl.closed ?_
    rw [hd]
    cases hI.waiting u y old hl' with
    | queued _ _ _ h4 => exact h4
    | taken h1 _ => exact (hI.queued y (hapart h1 u _ hl' y rfl)).1
    | dropped _ h2 => exact h2
  · intro y hy
    rw [hc'] at hy
    cases hy
  · intro u y b hy
    obtain ⟨h1, _, h3⟩ := hI.returned u y b (by simpa using hy)
    rw [hd, hc']
    refine ⟨h1, by simp, ?_⟩
    rintro v ⟨l', hl', hy'⟩
    exact h3 v ⟨l', (loc_of_return hloc hl').2, hy'⟩

/-- One step keeps the invariant of the handover, when a `close` finds no value taken from a push that has not returned. -/
theorem Handover.step (hov : cfg.overflow = true) (hr : RingOk cfg s.shared) (hL : Labelled cfg es s) (hI : Handover cfg es s)
    (hok : CloseApart cfg s a) (h : QStep cfg s a e s') : Handover cfg (es ++ [e]) s' := by
  cases h.handStep hov hL with
  | quiet hs hd he hst => exact hI.quiet hs hd hst fun u x b hx => absurd hx (he u x b)
  | refuse hl hp hs hloc =>
    obtain ⟨h1, h2⟩ := hI.before _ _ _ hl hp
    exact hI.release hL hl hp.item hs hloc (by simp [h1]) h2
  | release hl hw hs hloc =>
    cases hI.waiting _ _ _ hl with
    | queued h1 _ h3 _ => grind
    | taken h1 h2 =>
      refine hI.release hL hl rfl hs hloc (by simp [h1, h2]) ?_
      exact fun hm => (hI.queued _ hm).1 h2
    | dropped h1 h2 =>
      refine hI.release hL hl rfl hs hloc (by simp [h1, h2]) ?_
      intro hm
      have := (hI.queued _ hm).2
      rw [h1] at this
      cases this
  | store hl hp ho hst hloc => exact hI.store hov hL hl hp ho hst hloc
  | take ht hloc => exact hI.take hov hr ht hloc
  | close hl hc hloc => exact hI.close hov hc hloc (hok hl)

section Runs

variable [Fintype Tid] {raw : Nat → Item T}

/-- In a queue without buffer a push returns true exactly when the value it brought has been delivered, in every run in which no
`close` runs between the taking of a value and the return of its push. -/
theorem rendezvous_outcome (hcap : cfg.arg = 0) (hp : cfg.policy = .blocking)
    (h : RunIf (queue T cfg).exec (CloseApart cfg) (queueInit Tid raw) es s) {t : Tid} {x : Item T} {b : Bool}
    (hr : MEv.ret t (.pushed x b) ∈ es) : b = true ↔ x ∈ delivered es := by
  have hov : cfg.overflow = true := by simp [Config.overflow, Config.made, hcap, hp]
  have hnone : ∀ t, (queueInit Tid raw : QState Tid T).loc t = none := fun _ => rfl
  have hI : Labelled cfg es s ∧ Handover cfg es s := by
    refine run_invariant (P := fun es s => Labelled cfg es s ∧ Handover cfg es s) ⟨.init raw, ⟨?_, ?_, ?_, ?_⟩⟩ ?_ h
    · intro t l x hl
      cases (hnone t).symm.trans hl
    · intro t x old hl
      cases (hnone t).symm.trans hl
    · intro x hx
      cases hx
    · intro t x b hx
      cases hx
    · exact fun es s a e s' ih hok hq hst => ⟨ih.1.step hst, Handover.step hov hq ih.1 ih.2 hok hst⟩
  exact (hI.2.returned t x b hr).1

end Runs

/-- A queue without buffer. -/
def noBuffer : Config := .ofArgs 0#63 .blocking

/-- The events of a run on `noBuffer`: `t` hands a value over to `u` and its push returns true; `close` runs later, and the next push
returns false. -/
def handedOver (t u : Tid) : List (Ev Tid Nat Cond) :=
  [.call t 0 (.push 7), .wait t .cvOverflow (.overflowWait ⟨7, 0⟩ 0), .call u 1 .pop, .ret u (.popped (some ⟨7, 0⟩)),
    .ret t (.pushed ⟨7, 0⟩ true), .call u 2 .close, .ret u .closed, .call t 3 (.push 8), .ret t (.pushed ⟨8, 3⟩ false)]

/-- On the run `handedOver` the two results tell which value was delivered. -/
theorem rendezvous_outcome_noBuffer : ∃ s,
    RunIf (queue Nat noBuffer).exec (CloseApart noBuffer) (queueInit (Fin 2) fun _ => ⟨0, 0⟩) (handedOver 0 1) s ∧
    ⟨7, 0⟩ ∈ delivered (handedOver (0 : Fin 2) 1) ∧ ⟨8, 3⟩ ∉ delivered (handedOver (0 : Fin 2) 1) := by
  have hrun : ∃ s, Run (guarded (queue Nat noBuffer).exec (CloseApart noBuffer)) (queueInit (Fin 2) fun _ => ⟨0, 0⟩)
      (handedOver 0 1) s :=
    exists_run_of_events _ _ [.call 0 (.push 7), .run 0 [], .call 1 .pop, .run 1 [0], .run 0 [], .call 1 .close, .run 1 [],
      .call 0 (.push 8), .run 0 []] rfl
  obtain ⟨s, h⟩ := hrun
  have h' := runIf_of_guarded h
  refine ⟨s, h', (rendezvous_outcome rfl rfl h' (t := 0) (b := true) (by simp [handedOver])).1 rfl, ?_⟩
  intro hm
  cases (rendezvous_outcome rfl rfl h' (t := 0) (b := false) (by simp [handedOver])).2 hm

/-- The events of a run on `noBuffer` in which `v` closes the queue between the taking of the value of `t` and the return of its
push. -/
def closedBetween (t u v : Tid) : List (Ev Tid Nat Cond) :=
  [.call t 0 (.push 7), .wait t .cvOverflow (.overflowWait ⟨7, 0⟩ 0), .call u 1 .pop, .ret u (.popped (some ⟨7, 0⟩)),
    .call v 2 .close, .ret v .closed, .ret t (.pushed ⟨7, 0⟩ false)]

/-- Without the condition the outcome is wrong: on the run `closedBetween` the push returns false and its value has been
delivered. -/
theorem rendezvous_outcome_false : ¬∀ es s,
    Run (queue Nat noBuffer).exec (queueInit (Fin 3) fun _ => ⟨0, 0⟩) es s →
    ∀ t x b, MEv.ret t (.pushed x b) ∈ es → (b = true ↔ x ∈ delivered es) := by
  intro hall
  have hrun : ∃ s, Run (queue Nat noBuffer).exec (queueInit (Fin 3) fun _ => ⟨0, 0⟩) (closedBetween 0 1 2) s :=
    exists_run_of_events _ _ [.call 0 (.push 7), .run 0 [], .call 1 .pop, .run 1 [0], .call 2 .close, .run 2 [], .run 0 []] rfl
  obtain ⟨s, h⟩ := hrun
  cases (hall _ s h 0 ⟨7, 0⟩ false (by simp [closedBetween])).2 (by decide)

end CsLearning.Chan
