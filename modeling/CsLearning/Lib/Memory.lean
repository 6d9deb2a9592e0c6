import Mathlib

/-!
# Memory cells

A memory maps an address to the cell allocated there, if any, and a pointer is an address or null. Reading or writing through a null
pointer, or through one to memory that is not allocated, gives nothing. `part f` is one part of all cells at once, so that an
assignment to one part of a cell is an update of one function and leaves the other parts alone, whichever pointers are equal.
-/

open Function

namespace CsLearning

/-- An address. -/
abbrev Addr := Nat

/-- A pointer: an address, or null. -/
abbrev Ptr := Option Addr

/-- The cells that are allocated. -/
abbrev Mem (α : Type*) := Addr → Option α

namespace Mem

variable {α β : Type*}

/-- `p->f`. -/
def read (m : Mem α) (p : Ptr) (f : α → β) : Option β := (p.bind m).map f

/-- An assignment through `p`. -/
def write (m : Mem α) (p : Ptr) (g : α → α) : Option (Mem α) :=
  p.bind fun a => (m a).map fun x => Function.update m a (some (g x))

/-- The cell `x` is allocated at the address `a`, which must be free. -/
def new (m : Mem α) (a : Addr) (x : α) : Option (Mem α) := if (m a).isNone then some (Function.update m a (some x)) else none

/-- The cell at `p` is freed. -/
def delete (m : Mem α) (p : Ptr) : Option (Mem α) := p.bind fun a => (m a).map fun _ => Function.update m a none

/-- A part of the cells, as a function of the address. -/
def part (m : Mem α) (f : α → Option β) : Addr → Option β := fun a => (m a).bind f

variable {m : Mem α} {a : Addr} {x : α}

theorem part_update (m : Mem α) (f : α → Option β) (a : Addr) (c : Option α) : part (update m a c) f = update (m.part f) a (c.bind f) := by
  funext b
  by_cases hb : b = a
  · subst hb
    simp [part]
  · simp [part, hb]

variable {f : α → Option β}

/-- A part that an assignment does not change. -/
theorem part_update_eq {y : α} (h : m a = some x) (hf : f y = f x) : part (update m a (some y)) f = m.part f := by
  have hx : m.part f a = f x := by simp [part, h]
  rw [part_update, Option.bind_some, hf, ← hx, update_eq_self]

theorem exists_of_part {b : β} (h : m.part f a = some b) : ∃ x, m a = some x ∧ f x = some b := Option.bind_eq_some_iff.mp h

theorem read_of_part {b : β} (h : m.part f a = some b) : m.read (some a) f = some (some b) := by
  obtain ⟨x, hx, hf⟩ := exists_of_part h
  simp [read, hx, hf]

theorem read_of_some (h : m a = some x) (f : α → β) : m.read (some a) f = some (f x) := by simp [read, h]

theorem write_of_some (h : m a = some x) (g : α → α) : m.write (some a) g = some (update m a (some (g x))) := by
  simp [write, h]

theorem new_of_free (h : m a = none) (x : α) : m.new a x = some (update m a (some x)) := by simp [new, h]

theorem new_eq_none (h : m a ≠ none) (x : α) : m.new a x = none := by simp [new, h]

theorem delete_of_some (h : m a = some x) : m.delete (some a) = some (update m a none) := by simp [delete, h]

/-! ## Following pointers -/

/-- The pointer that is reached from `p` by following the pointers `f` of `n` cells. -/
def follow (m : Mem α) (f : α → Ptr) : Nat → Ptr → Option Ptr
  | 0, p => some p
  | n + 1, p => (m.read p f).bind (m.follow f n)

theorem follow_of_isChain {f : α → Ptr} {l : List Addr} (h : (a :: l).IsChain fun x y => m.part f x = some y) {n : Nat}
    (hn : n ≤ l.length) : m.follow f n (some a) = some (a :: l)[n]? := by
  induction n generalizing a l with
  | zero => rfl
  | succ n ih =>
    cases l with
    | nil => simp at hn
    | cons b l =>
      rw [List.isChain_cons_cons] at h
      rw [follow, read_of_part h.1, Option.bind_some, ih h.2 (by simpa using hn)]
      rfl

end Mem

/-! ## Positions in a list -/

variable {α : Type*}

theorem insertIdx_length_append (a b : List α) (x : α) : (a ++ b).insertIdx a.length x = a ++ x :: b := by
  induction a with
  | nil => rfl
  | cons y a ih => simpa using ih

theorem eraseIdx_length_append (a b : List α) (x : α) : (a ++ x :: b).eraseIdx a.length = a ++ b := by grind

theorem exists_split_at {l : List α} {i : Nat} (h : i < l.length) : ∃ a x b, l = a ++ x :: b ∧ a.length = i :=
  ⟨l.take i, l[i], l.drop (i + 1), by simp, by simp; omega⟩

end CsLearning
