import CsLearning.Lib.Word
import CsLearning.Chan.Ops

/-!
# `chan.h`: the queue

The class `ns_chan::queue_t` with its condition variables `cv_t`, as the source has them: a ring of `capacity_` slots between two
counters `first_` and `new_`, machine arithmetic (`size_t` of 64 bits, the counters of `cv_t` of 32), and the critical sections of
`push`, `pop`, `close` and `is_closed`, cut at the waits. `queue` is the monitor they make.
-/

namespace CsLearning.Chan

/-- What `push` does on a full queue (`push_policy`). -/
inductive PushPolicy where
  | blocking
  | discardOld
  | discard
  deriving DecidableEq, Repr

/-- What a queue is built from: the arguments of `make_queue`, and the macro `CHAN_MAX_COUNTER`. The slots are part of one
object, whose size in bytes fits `ptrdiff_t`; the macro is compared with a `size_t`. -/
structure Config where
  arg : Nat
  policy : PushPolicy
  maxCounter : Nat
  arg_lt : arg < 2 ^ 63
  maxCounter_lt : maxCounter < 2 ^ 64

namespace Config

variable (cfg : Config)

/-- The arguments of `make_queue`, the capacity as a word of 63 bits, with the default of `CHAN_MAX_COUNTER`. -/
def ofArgs (capacity : BitVec 63) (policy : PushPolicy) : Config := ⟨capacity.toNat, policy, 2 ^ 64 - 1, capacity.isLt, by decide⟩

/-- The capacity with which `make_queue` calls the constructor: only a blocking queue may have none. -/
def made : Nat := if cfg.policy ≠ .blocking ∧ cfg.arg = 0 then 1 else cfg.arg

/-- The member `capacity_`. -/
def capacity : Nat := if cfg.made = 0 then 1 else cfg.made

/-- Whether the member `cv_overflow_` is not null. -/
def overflow : Bool := decide (cfg.made = 0)

end Config

/-- The condition variables of `queue_t`. -/
inductive Cond where
  | cvPush
  | cvPop
  | cvOverflow
  deriving DecidableEq, Repr

/-! ## `cv_t` -/

/-- The counters of `cv_t`, of type `uint32_t`. -/
structure CvT where
  threadCount : Nat
  waitCount : Nat
  deriving DecidableEq, Repr

namespace CvT

/-- `wait` up to its first sleep, when the predicate is false. -/
def enter (cv : CvT) : CvT := ⟨Word.add 32 cv.threadCount 1, Word.add 32 cv.waitCount 1⟩

/-- One more round of the loop of `wait`: the predicate is false again. -/
def again (cv : CvT) : CvT := { cv with waitCount := Word.add 32 cv.waitCount 1 }

/-- The end of `wait` after a sleep. -/
def leave (cv : CvT) : CvT := { cv with threadCount := Word.sub 32 cv.threadCount 1 }

/-- `notify_one`: the counters after it, and the notification it makes, if any. -/
def notifyOne (cv : CvT) (c : Cond) : CvT × List (Note Cond) :=
  if 0 < cv.waitCount then
    ({ cv with waitCount := Word.sub 32 (if cv.threadCount < cv.waitCount then cv.threadCount else cv.waitCount) 1 },
      [.one c])
  else (cv, [])

/-- `notify_all`. -/
def notifyAll (cv : CvT) (c : Cond) : CvT × List (Note Cond) := ({ cv with waitCount := 0 }, [.all c])

theorem leave_counts (cv : CvT) (h : 0 < cv.threadCount) (hlt : cv.threadCount < 2 ^ 32) :
    cv.leave.threadCount = cv.threadCount - 1 ∧ cv.leave.waitCount = cv.waitCount := by
  cases cv with
  | mk t w => exact ⟨Word.sub_of_le h hlt, show w = w from rfl⟩

end CvT

/-! ## The ring -/

/-- The members of `queue_t` that change. A slot that holds no value holds whatever is in memory. -/
structure QueueT (α : Type) where
  cvPush : CvT
  cvPop : CvT
  closed : Bool
  first : Nat
  new : Nat
  data : Nat → α

section Ring

variable {α : Type} (cfg : Config)

/-- The queue after its constructor, over the memory `raw`. -/
def QueueT.make (raw : Nat → α) : QueueT α := ⟨⟨0, 0⟩, ⟨0, 0⟩, false, 0, 0, raw⟩

/-- `free_count`. -/
def freeCount (q : QueueT α) : Nat := Word.sub 64 (Word.add 64 q.first cfg.capacity) q.new

/-- `is_empty`. -/
def isEmpty (q : QueueT α) : Bool := decide (q.new ≤ q.first)

/-- The index of the slot `data(pos)`. -/
def slot (pos : Nat) : Nat := pos % cfg.capacity

/-- `reset_pos`. -/
def resetPos (q : QueueT α) : QueueT α :=
  { q with new := Word.sub 64 q.new (Word.sub 64 q.first (q.first % cfg.capacity)), first := q.first % cfg.capacity }

/-- The end of `push_thread_unsafe`: the counters are kept from overflowing. -/
def boundPos (q : QueueT α) : QueueT α := if cfg.maxCounter ≤ q.new then resetPos cfg q else q

/-- `push_thread_unsafe`. The last branch is the one that asserts the policy `discard`. -/
def pushThreadUnsafe (q : QueueT α) (d : α) : QueueT α × Bool :=
  if 0 < freeCount cfg q then
    (boundPos cfg { q with data := Function.update q.data (slot cfg q.new) d, new := Word.add 64 q.new 1 }, true)
  else if cfg.policy = .discardOld then
    (boundPos cfg { q with
      first := Word.add 64 q.first 1, data := Function.update q.data (slot cfg q.new) d, new := Word.add 64 q.new 1 }, true)
  else (q, false)

end Ring

/-! ## The critical sections -/

section Sections

variable {T : Type} (cfg : Config)

/-- What a critical section leaves: the queue, its notifications, and how it ends. -/
abbrev Outcome (T : Type) := QueueT (Item T) × List (Note Cond) × Next (Loc T) Cond (Res T)

/-- The predicate of the first wait of `push`. -/
def pushPred (q : QueueT (Item T)) : Bool := decide (cfg.policy ≠ .blocking) || decide (0 < freeCount cfg q) || q.closed

/-- The test of the second wait of `push`, on `cv_overflow_`, and the return behind it. -/
def pushOverflow (q : QueueT (Item T)) (ns : List (Note Cond)) (x : Item T) (old : Nat) : Outcome T :=
  if decide (old ≠ q.first) || q.closed then (q, ns, .ret (.pushed x (!q.closed)))
  else (q, ns, .wait .cvOverflow (.overflowWait x old))

/-- `push` behind its first wait. -/
def pushBody (q : QueueT (Item T)) (x : Item T) : Outcome T :=
  if q.closed then (q, [], .ret (.pushed x false))
  else
    match pushThreadUnsafe cfg q x with
    | (q, false) => (q, [], .ret (.pushed x false))
    | (q, true) =>
      let (cv, ns) := q.cvPop.notifyOne .cvPop
      let q := { q with cvPop := cv }
      if cfg.overflow then pushOverflow q ns x q.first else (q, ns, .ret (.pushed x (!q.closed)))

/-- The predicate of the wait of `pop`. -/
def popPred (q : QueueT (Item T)) : Bool := !isEmpty q || q.closed

/-- `pop` behind its wait. -/
def popBody (q : QueueT (Item T)) : Outcome T :=
  if isEmpty q then (q, [], .ret (.popped none))
  else
    let x := q.data (slot cfg q.first)
    let q := { q with first := Word.add 64 q.first 1 }
    let ns := if cfg.overflow then [.one .cvOverflow] else []
    let (cv, ns') := q.cvPush.notifyOne .cvPush
    ({ q with cvPush := cv }, ns ++ ns', .ret (.popped (some x)))

/-- `close`. -/
def closeBody (q : QueueT (Item T)) : Outcome T :=
  let q := { q with closed := true }
  let drop := cfg.overflow && !isEmpty q
  let q := if drop then { q with new := Word.sub 64 q.new 1 } else q
  let (cvPush, ns) := q.cvPush.notifyAll .cvPush
  let (cvPop, ns') := q.cvPop.notifyAll .cvPop
  ({ q with cvPush := cvPush, cvPop := cvPop }, (if drop then [.all .cvOverflow] else []) ++ ns ++ ns', .ret .closed)

/-- The critical section of each program point. -/
def crit (q : QueueT (Item T)) : Loc T → Outcome T
  | .push x =>
    if pushPred cfg q then pushBody cfg q x else ({ q with cvPush := q.cvPush.enter }, [], .wait .cvPush (.pushWait x))
  | .pushWait x =>
    if pushPred cfg q then pushBody cfg { q with cvPush := q.cvPush.leave } x
    else ({ q with cvPush := q.cvPush.again }, [], .wait .cvPush (.pushWait x))
  | .overflowWait x old => pushOverflow q [] x old
  | .pop => if popPred q then popBody cfg q else ({ q with cvPop := q.cvPop.enter }, [], .wait .cvPop .popWait)
  | .popWait =>
    if popPred q then popBody cfg { q with cvPop := q.cvPop.leave }
    else ({ q with cvPop := q.cvPop.again }, [], .wait .cvPop .popWait)
  | .close => closeBody cfg q
  | .isClosed => (q, [], .ret (.isClosed q.closed))

/-- The queue of `chan.h` as a monitor. -/
def queue (T : Type) (cfg : Config) : Monitor (QueueT (Item T)) (Loc T) Cond (Op T) (Res T) := ⟨entry, crit cfg⟩

/-- A state of the queue and the threads that use it. -/
abbrev QState (Tid T : Type) := MState Tid (QueueT (Item T)) (Loc T) Cond

/-- A new queue, with no thread in it. -/
def queueInit (Tid : Type) (raw : Nat → Item T) : QState Tid T := Monitor.init Tid (QueueT.make raw)

end Sections

end CsLearning.Chan
