import CsLearning.Lib.Word
import CsLearning.Chan.Ops

/-!
# `chan.simple.h`: the queue

The class `chan::queue_t` of `chan.simple.h`: a list of values, one condition variable for all waits, and a counter of pops by which
a push without buffer learns that its value has been taken. `simple` is the monitor; `SView` lists what each of its critical
sections can do.
-/

open List

namespace CsLearning.Chan

/-- The argument of the constructor, a `size_t`. -/
structure SConfig where
  arg : Nat
  arg_lt : arg < 2 ^ 64

namespace SConfig

variable (cfg : SConfig)

/-- The member `capacity_`. -/
def capacity : Nat := if cfg.arg = 0 then 1 else cfg.arg

/-- The member `enable_overflow_`. -/
def overflow : Bool := decide (cfg.arg = 0)

theorem capacity_pos : 0 < cfg.capacity := by
  unfold capacity
  split <;> omega

theorem capacity_lt : cfg.capacity < 2 ^ 64 := by
  have := cfg.arg_lt
  unfold capacity
  split <;> omega

theorem capacity_of_overflow (h : cfg.overflow = true) : cfg.capacity = 1 := by
  have ha : cfg.arg = 0 := by simpa [overflow] using h
  rw [capacity, if_pos ha]

end SConfig

/-- The members of `queue_t` that change. -/
structure SQueue (T : Type) where
  data : List (Item T)
  closed : Bool
  popCount : Nat

section Sections

variable {T : Type} (cfg : SConfig)

/-- `free_count`. -/
def SQueue.freeCount (q : SQueue T) : Nat := Word.sub 64 cfg.capacity q.data.length

/-- `is_overflow`. -/
def SQueue.isOverflow (q : SQueue T) : Bool := cfg.overflow && decide (cfg.capacity ≤ q.data.length)

/-- What a critical section leaves: the queue, its notifications, and how it ends. -/
abbrev SOutcome (T : Type) := SQueue T × List (Note Unit) × Next (Loc T) Unit (Res T)

/-- The predicate of the first wait of `push`. -/
def SQueue.pushPred (q : SQueue T) : Bool := decide (0 < q.freeCount cfg) || q.closed

/-- The test of the second wait of `push`, and the return behind it. -/
def SQueue.pushOverflow (q : SQueue T) (ns : List (Note Unit)) (x : Item T) (old : Nat) : SOutcome T :=
  if decide (old ≠ q.popCount) || q.closed then (q, ns, .ret (.pushed x (!q.closed)))
  else (q, ns, .wait () (.overflowWait x old))

/-- `push` behind its first wait. -/
def SQueue.pushBody (q : SQueue T) (x : Item T) : SOutcome T :=
  if q.closed then (q, [], .ret (.pushed x false))
  else
    let q := { q with data := q.data ++ [x] }
    let ns := if q.data.length = 1 then [.all ()] else []
    if q.isOverflow cfg then q.pushOverflow ns x q.popCount else (q, ns, .ret (.pushed x (!q.closed)))

/-- The predicate of the wait of `pop`. -/
def SQueue.popPred (q : SQueue T) : Bool := !q.data.isEmpty || q.closed

/-- `pop` behind its wait. -/
def SQueue.popBody (q : SQueue T) : SOutcome T :=
  match q.data with
  | [] => (q, [], .ret (.popped none))
  | x :: rest =>
    let q := { q with data := rest, popCount := Word.add 64 q.popCount 1 }
    (q, if q.freeCount cfg = 1 then [.all ()] else [], .ret (.popped (some x)))

/-- `close`. -/
def SQueue.closeBody (q : SQueue T) : SOutcome T :=
  let q := { q with closed := true }
  (if q.isOverflow cfg then { q with data := q.data.dropLast } else q, [.all ()], .ret .closed)

/-- The critical section of each program point. -/
def SQueue.crit (q : SQueue T) : Loc T → SOutcome T
  | .push x => if q.pushPred cfg then q.pushBody cfg x else (q, [], .wait () (.pushWait x))
  | .pushWait x => if q.pushPred cfg then q.pushBody cfg x else (q, [], .wait () (.pushWait x))
  | .overflowWait x old => q.pushOverflow [] x old
  | .pop => if q.popPred then q.popBody cfg else (q, [], .wait () .popWait)
  | .popWait => if q.popPred then q.popBody cfg else (q, [], .wait () .popWait)
  | .close => q.closeBody cfg
  | .isClosed => (q, [], .ret (.isClosed q.closed))

/-- The queue of `chan.simple.h` as a monitor. -/
def simple (T : Type) (cfg : SConfig) : Monitor (SQueue T) (Loc T) Unit (Op T) (Res T) := ⟨entry, SQueue.crit cfg⟩

/-- A state of the queue and the threads that use it. -/
abbrev SState (Tid T : Type) := MState Tid (SQueue T) (Loc T) Unit

/-- A new queue, with no thread in it. -/
def simpleInit (Tid T : Type) : SState Tid T := Monitor.init Tid ⟨[], false, 0⟩

end Sections

/-! ## What each critical section does -/

section View

variable {T : Type} (cfg : SConfig)

/-- What the critical section of a point can do to a queue within its capacity, and how it ends. -/
inductive SView (q : SQueue T) : Loc T → SQueue T → List (Note Unit) → Next (Loc T) Unit (Res T) → Prop where
  | pushSleep {l : Loc T} {x : Item T} : PushAt x l → q.data.length = cfg.capacity → q.closed = false →
      SView q l q [] (.wait () (.pushWait x))
  | pushClosed {l : Loc T} {x : Item T} : PushAt x l → q.closed = true → SView q l q [] (.ret (.pushed x false))
  | pushStore {l : Loc T} {x : Item T} : PushAt x l → q.closed = false → cfg.overflow = false →
      q.data.length < cfg.capacity →
      SView q l { q with data := q.data ++ [x] } (if q.data = [] then [.all ()] else []) (.ret (.pushed x true))
  | pushOverflow {l : Loc T} {x : Item T} : PushAt x l → q.closed = false → cfg.overflow = true → q.data = [] →
      SView q l { q with data := [x] } [.all ()] (.wait () (.overflowWait x q.popCount))
  | overflowSleep {x : Item T} {old : Nat} : old = q.popCount → q.closed = false →
      SView q (.overflowWait x old) q [] (.wait () (.overflowWait x old))
  | overflowRet {x : Item T} {old : Nat} : old ≠ q.popCount ∨ q.closed = true →
      SView q (.overflowWait x old) q [] (.ret (.pushed x (!q.closed)))
  | popSleep {l : Loc T} : PopAt l → q.data = [] → q.closed = false → SView q l q [] (.wait () .popWait)
  | popClosed {l : Loc T} : PopAt l → q.data = [] → q.closed = true → SView q l q [] (.ret (.popped none))
  | popTake {l : Loc T} {x : Item T} {rest : List (Item T)} : PopAt l → q.data = x :: rest →
      SView q l { q with data := rest, popCount := Word.add 64 q.popCount 1 }
        (if q.data.length = cfg.capacity then [.all ()] else []) (.ret (.popped (some x)))
  | close : SView q .close { q with closed := true, data := if cfg.overflow then [] else q.data } [.all ()] (.ret .closed)
  | isClosed : SView q .isClosed q [] (.ret (.isClosed q.closed))

variable {cfg} {q : SQueue T}

theorem SQueue.freeCount_eq (h : q.data.length ≤ cfg.capacity) : q.freeCount cfg = cfg.capacity - q.data.length := Word.sub_of_le h cfg.capacity_lt

/-- `pop` behind its wait, on a queue that holds a value. The pop notifies when the queue was full. -/
theorem SQueue.popBody_cons {x : Item T} {rest : List (Item T)} (h : q.data.length ≤ cfg.capacity) (hd : q.data = x :: rest) :
    q.popBody cfg = ({ q with data := rest, popCount := Word.add 64 q.popCount 1 },
      if q.data.length = cfg.capacity then [.all ()] else [], .ret (.popped (some x))) := by
  have hlen : q.data.length = rest.length + 1 := by rw [hd, length_cons]
  have hf : ({ q with data := rest, popCount := Word.add 64 q.popCount 1 } : SQueue T).freeCount cfg =
      cfg.capacity - rest.length := freeCount_eq (by simp only; omega)
  have he : (cfg.capacity - rest.length = 1) = (q.data.length = cfg.capacity) := by
    rw [eq_iff_iff]
    omega
  rw [SQueue.popBody]
  simp only [hd, hf, he]

/-- `close`, which drops the value of a queue without buffer. -/
theorem SQueue.closeBody_eq (h : q.data.length ≤ cfg.capacity) : q.closeBody cfg =
    ({ q with closed := true, data := if cfg.overflow then [] else q.data }, [.all ()], .ret .closed) := by
  cases hov : cfg.overflow with
  | false => simp [SQueue.closeBody, SQueue.isOverflow, hov]
  | true =>
    have hcap := cfg.capacity_of_overflow hov
    have hd : q.data.dropLast = [] := length_eq_zero_iff.mp (by rw [length_dropLast]; omega)
    have hshort : ¬1 ≤ q.data.length → q.data = [] := fun hn => length_eq_zero_iff.mp (by omega)
    simp only [SQueue.closeBody, SQueue.isOverflow, hov, hcap, Bool.true_and, decide_eq_true_eq, hd, if_true]
    split
    · rfl
    · rename_i hn
      rw [hshort hn]

variable {nx : Next (Loc T) Unit (Res T)}

theorem SView.crit_eq {q' : SQueue T} {l : Loc T} {ns : List (Note Unit)}
    (h : SView cfg q l q' ns nx) (hlen : q.data.length ≤ cfg.capacity) : q.crit cfg l = (q', ns, nx) := by
  have hfree := SQueue.freeCount_eq hlen
  have push : ∀ {x : Item T} {l : Loc T}, PushAt x l →
      q.crit cfg l = if q.pushPred cfg then q.pushBody cfg x else (q, [], .wait () (.pushWait x)) := by
    intro x l hl
    cases hl <;> rfl
  have pop : ∀ {l : Loc T}, PopAt l → q.crit cfg l = if q.popPred then q.popBody cfg else (q, [], .wait () .popWait) := by
    intro l hl
    cases hl <;> rfl
  cases h with
  | pushSleep hl hf ho => rw [push hl, if_neg (by simp [SQueue.pushPred, hfree, hf, ho])]
  | pushClosed hl hc => rw [push hl, if_pos (by simp [SQueue.pushPred, hc]), SQueue.pushBody, if_pos hc]
  | pushStore hl ho hov hlt =>
    rw [push hl, if_pos (by simp [SQueue.pushPred, hfree, Nat.sub_pos_of_lt hlt])]
    simp [SQueue.pushBody, SQueue.isOverflow, ho, hov]
  | pushOverflow hl ho hov hd =>
    have hcap := cfg.capacity_of_overflow hov
    rw [push hl, if_pos (by simp [SQueue.pushPred, hfree, hd, hcap])]
    simp [SQueue.pushBody, SQueue.isOverflow, SQueue.pushOverflow, ho, hov, hd, hcap]
  | overflowSleep he ho => simp [SQueue.crit, SQueue.pushOverflow, he, ho]
  | overflowRet hw => rw [SQueue.crit, SQueue.pushOverflow, if_pos (by simpa using hw)]
  | popSleep hl hd ho => rw [pop hl, if_neg (by simp [SQueue.popPred, hd, ho])]
  | popClosed hl hd hc =>
    rw [pop hl, if_pos (by simp [SQueue.popPred, hc])]
    simp [SQueue.popBody, hd]
  | popTake hl hd => rw [pop hl, if_pos (by simp [SQueue.popPred, hd]), SQueue.popBody_cons hlen hd]
  | close => exact SQueue.closeBody_eq hlen
  | isClosed => rfl

/-- One of the cases of `SView` applies at every point of a queue within its capacity. -/
theorem exists_view (h : q.data.length ≤ cfg.capacity) (l : Loc T) : ∃ q' ns nx, SView cfg q l q' ns nx := by
  have push : ∀ (x : Item T) (l : Loc T), PushAt x l → ∃ q' ns nx, SView cfg q l q' ns nx := by
    intro x l hl
    cases hc : q.closed with
    | true => exact ⟨_, _, _, SView.pushClosed hl hc⟩
    | false =>
      by_cases hf : q.data.length = cfg.capacity
      · exact ⟨_, _, _, SView.pushSleep hl hf hc⟩
      · cases hov : cfg.overflow with
        | true =>
          have hcap := cfg.capacity_of_overflow hov
          exact ⟨_, _, _, SView.pushOverflow hl hc hov (length_eq_zero_iff.mp (by omega))⟩
        | false => exact ⟨_, _, _, SView.pushStore hl hc hov (by omega)⟩
  have pop : ∀ l : Loc T, PopAt l → ∃ q' ns nx, SView cfg q l q' ns nx := by
    intro l hl
    cases hd : q.data with
    | nil =>
      cases hc : q.closed with
      | true => exact ⟨_, _, _, SView.popClosed hl hd hc⟩
      | false => exact ⟨_, _, _, SView.popSleep hl hd hc⟩
    | cons x rest => exact ⟨_, _, _, SView.popTake hl hd⟩
  cases l with
  | push x => exact push x _ PushAt.start
  | pushWait x => exact push x _ PushAt.wait
  | overflowWait x old =>
    by_cases hw : old ≠ q.popCount ∨ q.closed = true
    · exact ⟨_, _, _, SView.overflowRet hw⟩
    · rw [not_or, not_not] at hw
      exact ⟨_, _, _, SView.overflowSleep hw.1 (by simpa using hw.2)⟩
  | pop => exact pop _ PopAt.start
  | popWait => exact pop _ PopAt.wait
  | close => exact ⟨_, _, _, SView.close⟩
  | isClosed => exact ⟨_, _, _, SView.isClosed⟩

/-- The critical sections of the source do what `SView` says and nothing else. -/
theorem simple_view (h : q.data.length ≤ cfg.capacity) (l : Loc T) : SView cfg q l (q.crit cfg l).1 (q.crit cfg l).2.1 (q.crit cfg l).2.2 := by
  obtain ⟨q', ns, nx, hv⟩ := exists_view h l
  rw [hv.crit_eq h]
  exact hv

theorem SView.length_le {q' : SQueue T} {l : Loc T} {ns : List (Note Unit)}
    (h : SView cfg q l q' ns nx) (hq : q.data.length ≤ cfg.capacity) : q'.data.length ≤ cfg.capacity := by
  cases h with
  | pushStore _ _ _ hlt => simp only [length_append, length_singleton]; omega
  | pushOverflow => exact cfg.capacity_pos
  | popTake _ hd => rw [hd, length_cons] at hq; simp only; omega
  | close => grind
  | _ => exact hq

end View

end CsLearning.Chan
