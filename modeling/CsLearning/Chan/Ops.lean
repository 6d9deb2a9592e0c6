import CsLearning.Lib.Waiters

/-!
# The operations of a channel queue and their history

`chan.h` and `chan.simple.h` each have a class `queue_t` with the same operations. Here what the two models share: the operations,
their results, the program points at which a thread stands between two critical sections, and what a list of events says about the
values accepted and delivered.

Each pushed value carries the number of the call that pushes it. No operation reads the number: it tells apart two pushes of
equal values in the history.
-/

namespace CsLearning.Chan

/-- A value on its way through the channel, with the number of the call of `push` that brought it. -/
structure Item (T : Type) where
  val : T
  call : Nat
  deriving DecidableEq, Repr

/-- The operations of `queue_t`. -/
inductive Op (T : Type) where
  | push (v : T)
  | pop
  | close
  | isClosed
  deriving DecidableEq, Repr

/-- The result of an operation: whether `push` succeeded, what `pop` handed to its caller (nothing when it returns false), the
return of `close`, the answer of `is_closed`. -/
inductive Res (T : Type) where
  | pushed (x : Item T) (b : Bool)
  | popped (x : Option (Item T))
  | closed
  | isClosed (b : Bool)
  deriving DecidableEq, Repr

/-- The points at which an operation takes the mutex: its start, and the waits of `push` and `pop`. In its second wait `push`
remembers the counter it compares. -/
inductive Loc (T : Type) where
  | push (x : Item T)
  | pushWait (x : Item T)
  | overflowWait (x : Item T) (old : Nat)
  | pop
  | popWait
  | close
  | isClosed
  deriving DecidableEq, Repr

variable {Tid T C : Type}

/-- Where the call with number `n` of an operation starts. -/
def entry (n : Nat) : Op T → Loc T
  | .push v => .push ⟨v, n⟩
  | .pop => .pop
  | .close => .close
  | .isClosed => .isClosed

/-- The points of `push` before it stores its value. -/
inductive PushAt (x : Item T) : Loc T → Prop where
  | start : PushAt x (.push x)
  | wait : PushAt x (.pushWait x)

/-- One for a thread inside `push` that has not stored its value. -/
def pushTally : Option (Loc T) → Nat
  | some (.push _) => 1
  | some (.pushWait _) => 1
  | _ => 0

/-- The number of threads inside `push` that have not stored their value. -/
def pushing [Fintype Tid] (loc : Tid → Option (Loc T)) : Nat := ∑ t, pushTally (loc t)

theorem PushAt.tally {x : Item T} {l : Loc T} (h : PushAt x l) : pushTally (some l) = 1 := by cases h <;> rfl

/-- The points of `pop`. -/
inductive PopAt : Loc T → Prop where
  | start : PopAt .pop
  | wait : PopAt .popWait

/-- The events of a channel queue whose condition variables are `C`. -/
abbrev Ev (Tid T C : Type) := MEv Tid (Loc T) C (Op T) (Res T)

/-- The value whose push returned true by this event. -/
def Ev.accepted : Ev Tid T C → Option (Item T)
  | .ret _ (.pushed x true) => some x
  | _ => none

/-- The value handed to the caller of `pop` by this event. -/
def Ev.delivered : Ev Tid T C → Option (Item T)
  | .ret _ (.popped x) => x
  | _ => none

/-- The event is a call of `push`. -/
def Ev.isPushCall : Ev Tid T C → Bool
  | .call _ _ (.push _) => true
  | _ => false

/-- The values whose push returned true, in the order of the returns. -/
def accepted (es : List (Ev Tid T C)) : List (Item T) := es.filterMap Ev.accepted

/-- The values handed to the callers of `pop`, in order. -/
def delivered (es : List (Ev Tid T C)) : List (Item T) := es.filterMap Ev.delivered

/-- The number of calls of `push`. -/
def pushCalls (es : List (Ev Tid T C)) : Nat := es.countP Ev.isPushCall

section

variable (es : List (Ev Tid T C)) (e : Ev Tid T C)

include es e

theorem accepted_snoc : accepted (es ++ [e]) = accepted es ++ e.accepted.toList := filterMap_snoc _ es e

theorem delivered_snoc : delivered (es ++ [e]) = delivered es ++ e.delivered.toList := filterMap_snoc _ es e

theorem pushCalls_snoc : pushCalls (es ++ [e]) = pushCalls es + if e.isPushCall then 1 else 0 := by
  simp [pushCalls, List.countP_append]

end

end CsLearning.Chan
