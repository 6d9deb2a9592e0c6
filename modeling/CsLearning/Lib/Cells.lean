import Mathlib

/-!
# Arrays with cells that may not be initialised

The cells of an array are a function of the index, none where nothing was written yet and outside of the array. Reading such a cell has no outcome.
`Holds c k xs` says that the cells from `k` on hold the list `xs`, and `store c k xs` are the cells after `xs` was written there.
-/

open List Option Function Nat

namespace CsLearning

abbrev Cells (α : Type*) := Nat → Option α

namespace Cells

variable {α : Type*} {c src : Cells α} {k n : Nat} {x : α} {xs ys : List α}

/-- An array that holds a list. -/
def ofList (xs : List α) : Cells α := fun i => xs[i]?

/-- The cells from `k` on hold the list. -/
def Holds (c : Cells α) : Nat → List α → Prop
  | _, [] => True
  | k, x :: xs => c k = some x ∧ Holds c (k + 1) xs

/-- The cells after the list was written to them, from `k` on. -/
def store (c : Cells α) : Nat → List α → Cells α
  | _, [] => c
  | k, x :: xs => store (Function.update c k (some x)) (k + 1) xs

/-- `while (i < stop) dst[k++] = src[i++];`. -/
def copy (src : Cells α) (stop i : Nat) (dst : Cells α) (k : Nat) : Option (Cells α × Nat) :=
  if i < stop then do
    let x ← src i
    copy src stop (i + 1) (Function.update dst k (some x)) (k + 1)
  else some (dst, k)
termination_by stop - i

/-- The cells from `left` to `right` only: all others cannot be read. -/
def clip (c : Cells α) (left right : Nat) : Cells α := fun i => if left ≤ i ∧ i ≤ right then c i else none

/-- `c[i]` for an index that may be negative. -/
def get (c : Cells α) (i : Int) : Option α := if 0 ≤ i then c i.toNat else none

/-- `c[i] = x`, for an array all of whose cells are initialised: a cell that cannot be read is outside of the array. -/
def set (c : Cells α) (i : Int) (x : α) : Option (Cells α) := (c.get i).map fun _ => Function.update c i.toNat (some x)

/-- The list with two of its elements exchanged. -/
def exchange (xs : List α) (p q : Nat) : List α :=
  match xs[p]?, xs[q]? with
  | some a, some b => (xs.set p b).set q a
  | _, _ => xs

/-! ## What the cells hold -/

theorem holds_iff : Holds c k xs ↔ ∀ p < xs.length, c (k + p) = xs[p]? := by
  induction xs generalizing k with
  | nil => simp [Holds]
  | cons x xs ih =>
    rw [Holds, ih]
    constructor
    · rintro ⟨hx, hxs⟩ p hp
      cases p with
      | zero => exact hx
      | succ p =>
        rw [length_cons] at hp
        have h := hxs p (by omega)
        rwa [add_assoc, add_comm 1 p] at h
    · intro h
      refine ⟨h 0 (by simp), fun p hp => ?_⟩
      have h' := h (p + 1) (by rw [length_cons]; omega)
      rwa [add_assoc, add_comm 1 p]

theorem holds_append : Holds c k (xs ++ ys) ↔ Holds c k xs ∧ Holds c (k + xs.length) ys := by
  induction xs generalizing k with
  | nil => simp [Holds]
  | cons x xs ih =>
    rw [cons_append, Holds, Holds, ih, length_cons, and_assoc, add_right_comm, add_assoc]

theorem holds_ofList (xs : List α) : Holds (ofList xs) 0 xs := by
  rw [holds_iff]
  intro p _
  rw [zero_add, ofList]

theorem Holds.update_before (h : Holds c k (x :: xs)) (y : α) : Holds (update c k (some y)) (k + 1) xs := by
  have hr := h.2
  rw [holds_iff] at hr ⊢
  intro p hp
  rw [update_of_ne (by omega), hr p hp]

theorem Holds.part (h : Holds c k xs) (i n : Nat) : Holds c (k + i) ((xs.drop i).take n) := by
  rw [holds_iff] at h ⊢
  intro p hp
  rw [length_take, length_drop] at hp
  rw [getElem?_take, if_pos (by omega), getElem?_drop, add_assoc, h (i + p) (by omega)]

theorem exists_holds {P : α → Prop} (h : ∀ i, k ≤ i → i < k + n → ∃ x, c i = some x ∧ P x) : ∃ xs, xs.length = n ∧ Holds c k xs ∧ ∀ x ∈ xs, P x := by
  induction n generalizing k with
  | zero => exact ⟨[], rfl, trivial, by simp⟩
  | succ n ih =>
    obtain ⟨x, hx, hP⟩ := h k (le_refl k) (by omega)
    have hnext : ∀ i, k + 1 ≤ i → i < k + 1 + n → ∃ x, c i = some x ∧ P x := by
      intro i hi hn
      exact h i (by omega) (by omega)
    obtain ⟨xs, hlen, hxs, hPs⟩ := ih hnext
    refine ⟨x :: xs, by rw [length_cons, hlen], ⟨hx, hxs⟩, ?_⟩
    intro y hy
    rcases mem_cons.mp hy with rfl | hy
    · exact hP
    · exact hPs y hy

/-! ## Writing a list -/

theorem store_apply (c : Cells α) (k : Nat) (xs : List α) (i : Nat) : store c k xs i = if k ≤ i ∧ i < k + xs.length then xs[i - k]? else c i := by
  induction xs generalizing c k with
  | nil => rw [store, if_neg (by simp)]
  | cons x xs ih =>
    rw [store, ih, length_cons]
    rcases lt_trichotomy i k with hlt | rfl | hgt
    · grind
    · simp
    · grind

variable {i stop p q : Nat}

theorem store_of_lt (h : i < k) : store c k xs i = c i := by
  rw [store_apply, if_neg (by omega)]

theorem store_of_ge (h : k + xs.length ≤ i) : store c k xs i = c i := by
  rw [store_apply, if_neg (by omega)]

theorem holds_store (c : Cells α) (k : Nat) (xs : List α) : Holds (store c k xs) k xs := by
  rw [holds_iff]
  intro p hp
  rw [store_apply, if_pos (by omega), Nat.add_sub_cancel_left]

theorem store_eq_self (h : Holds c k xs) : store c k xs = c := by
  funext i
  rw [store_apply]
  split_ifs with hin
  · have hi := (holds_iff.mp h) (i - k) (by omega)
    rw [← hi, Nat.add_sub_cancel' hin.1]
  · rfl

theorem Holds.store_before {j : Nat} (h : Holds c j ys) (hj : k + xs.length ≤ j) : Holds (store c k xs) j ys := by
  grind [holds_iff, store_of_ge]

theorem store_store_append (c : Cells α) (k : Nat) (xs ys : List α) : store (store c k xs) (k + xs.length) ys = store c k (xs ++ ys) := by
  induction xs generalizing c k with
  | nil => rfl
  | cons x xs ih =>
    rw [cons_append, store, store, ← ih, length_cons, add_right_comm, add_assoc]

/-- A list written over another one that is not longer. -/
theorem store_store_of_le (c : Cells α) (k : Nat) (h : xs.length ≤ ys.length) : store (store c k xs) k ys = store c k ys := by
  funext i
  rw [store_apply, store_apply c k ys]
  split_ifs with hin
  · rfl
  · rw [store_apply, if_neg (by omega)]

theorem store_ofList (h : xs.length = ys.length) : store (ofList xs) 0 ys = ofList ys := by
  funext i
  rw [store_apply]
  split_ifs with hin
  · rfl
  · grind [ofList]

/-! ## Copying -/

theorem copy_eq (h : Holds src i xs) (hs : i + xs.length = stop) (dst : Cells α) (k : Nat) :
    copy src stop i dst k = some (store dst k xs, k + xs.length) := by
  induction xs generalizing i dst k with
  | nil =>
    rw [copy, if_neg (by rw [← hs]; simp)]
    rfl
  | cons x xs ih =>
    rw [length_cons] at hs
    rw [copy, if_pos (by omega), h.1]
    have hr := ih h.2 (by omega) (update dst k (some x)) (k + 1)
    rw [length_cons, add_comm xs.length 1, ← add_assoc]
    exact hr

/-- The first cell that is copied was never written. -/
theorem copy_of_none (hi : i < stop) (h : src i = none) (dst : Cells α) (k : Nat) : copy src stop i dst k = none := by
  rw [copy, if_pos hi, h]
  rfl

theorem copy_of_lt {stop i k' p : Nat} {dst dst' : Cells α} (h : copy src stop i dst k = some (dst', k')) (hp : p < k) : dst' p = dst p := by
  induction hn : stop - i generalizing i dst k with
  | zero =>
    rw [copy, if_neg (by omega), some.injEq, Prod.mk.injEq] at h
    rw [h.1]
  | succ n ih =>
    rw [copy, if_pos (by omega)] at h
    obtain ⟨x, -, hr⟩ := bind_eq_some_iff.mp h
    rw [ih hr (by omega) (by omega), update_of_ne (by omega)]

/-! ## Reading and writing one cell -/

theorem get_natCast (c : Cells α) (i : Nat) : c.get i = c i := by
  rw [get, if_pos (by omega), Int.toNat_natCast]

theorem get_ofList (h : i < xs.length) : (ofList xs).get i = some xs[i] := by
  rw [get_natCast, ofList, getElem?_eq_getElem h]

theorem set_natCast {y : α} (h : c i = some y) (x : α) : c.set i x = some (update c i (some x)) := by
  rw [set, get_natCast, h]
  rfl

theorem get_store (c : Cells α) (k : Nat) (hp : p < xs.length) : (c.store k xs).get (k + p : Nat) = xs[p]? := by
  rw [get_natCast, store_apply, if_pos (by omega), Nat.add_sub_cancel_left]

theorem update_store (c : Cells α) (k : Nat) (hp : p < xs.length) (x : α) : update (c.store k xs) (k + p) (some x) = c.store k (xs.set p x) := by
  funext i
  rw [update_apply, store_apply, store_apply]
  by_cases hi : i = k + p
  · grind
  · grind

theorem set_store (c : Cells α) (k : Nat) (hp : p < xs.length) (x : α) : (c.store k xs).set (k + p : Nat) x = some (c.store k (xs.set p x)) := by
  have hc : c.store k xs (k + p) = some xs[p] := by
    rw [store_apply, if_pos (by omega), Nat.add_sub_cancel_left, getElem?_eq_getElem hp]
  rw [set_natCast hc, update_store c k hp]

theorem store_update_comm (hi : i < k ∨ k + xs.length ≤ i) (y : Option α) : store (update c i y) k xs = update (store c k xs) i y := by
  funext j
  rw [update_apply, store_apply, store_apply, update_apply]
  by_cases hj : j = i
  · rw [if_pos hj, if_pos hj, if_neg (by omega)]
  · rw [if_neg hj, if_neg hj]

/-! ## Exchanging two elements -/

section

variable (hp : p < xs.length) (hq : q < xs.length)

include hp hq

theorem exchange_eq : exchange xs p q = (xs.set p xs[q]).set q xs[p] := by
  rw [exchange, getElem?_eq_getElem hp, getElem?_eq_getElem hq]

theorem exchange_perm : (exchange xs p q).Perm xs := by
  rw [exchange_eq hp hq]
  exact set_set_perm hp hq

theorem getElem?_exchange (i : Nat) :
    (exchange xs p q)[i]? = if i = q then xs[p]? else if i = p then xs[q]? else xs[i]? := by
  rw [exchange_eq hp hq]
  by_cases hiq : i = q
  · grind
  · grind

end

theorem exchange_append (ys : List α) (hp : p < xs.length) (hq : q < xs.length) :
    exchange (ys ++ xs) (ys.length + p) (ys.length + q) = ys ++ exchange xs p q := by
  rw [exchange, exchange, getElem?_append_right (Nat.le_add_right _ _), getElem?_append_right (Nat.le_add_right _ _),
    Nat.add_sub_cancel_left, Nat.add_sub_cancel_left, getElem?_eq_getElem hp, getElem?_eq_getElem hq]
  dsimp only
  rw [set_append_right _ _ (Nat.le_add_right _ _), set_append_right _ _ (Nat.le_add_right _ _), Nat.add_sub_cancel_left, Nat.add_sub_cancel_left]

theorem exchange_zero (hp : xs[p]? = some x) : ∃ rest, exchange xs 0 p = x :: rest := by
  obtain ⟨hlt, -⟩ := List.getElem?_eq_some_iff.mp hp
  have hpos : 0 < xs.length := zero_lt_of_lt hlt
  have hfst : (exchange xs 0 p)[0]? = some x := by
    rw [getElem?_exchange hpos hlt, if_pos rfl]
    split_ifs with h
    · rwa [h]
    · exact hp
  cases he : exchange xs 0 p with
  | nil =>
    rw [he] at hfst
    cases hfst
  | cons y rest => grind

/-! ## The values as a function of the index -/

section OfFn

variable {f : Nat → α} {i : Nat}

/-- An array of `n` cells. -/
def ofFn (n : Nat) (f : Nat → α) : Cells α := fun i => if i < n then some (f i) else none

theorem ofFn_of_lt (h : i < n) : ofFn n f i = some (f i) := if_pos h

theorem update_ofFn (h : i < n) (x : α) : update (ofFn n f) i (some x) = ofFn n (update f i x) := by
  funext j
  simp only [ofFn, update_apply]
  by_cases hj : j = i
  · rw [if_pos hj, if_pos hj, if_pos (hj ▸ h)]
  · rw [if_neg hj, if_neg hj]

theorem ofFn_eq_ofList (n : Nat) (f : Nat → α) : ofFn n f = ofList ((List.range n).map f) := by
  funext i
  rw [ofFn, ofList, getElem?_map]
  by_cases hi : i < n
  · rw [if_pos hi, getElem?_range hi, map_some]
  · grind

theorem exists_range_map [Inhabited α] (xs : List α) : ∃ f : Nat → α, (List.range xs.length).map f = xs := by
  refine ⟨fun i => xs.getD i default, ext_getElem (by simp) ?_⟩
  intro i h₁ h₂
  simp [h₂]

end OfFn

/-! ## A part of an array -/

section Clip

variable {left right : Nat}

theorem Holds.clip (h : Holds c k xs) (hl : left ≤ k) (hr : k + xs.length ≤ right + 1) : Holds (c.clip left right) k xs := by
  rw [holds_iff] at h ⊢
  intro p hp
  rw [Cells.clip, if_pos (by omega), h p hp]

theorem clip_store (c : Cells α) (hl : left ≤ k) (hr : k + xs.length ≤ right + 1) :
    (c.store k xs).clip left right = (c.clip left right).store k xs := by
  funext i
  rw [clip, store_apply, store_apply]
  by_cases hin : k ≤ i ∧ i < k + xs.length
  · rw [if_pos (by omega), if_pos hin, if_pos hin]
  · rw [if_neg hin, if_neg hin, clip]

end Clip

end Cells

/-! ## The cells that are accessed -/

/-- An array with the indices of the cells that were read or written. -/
structure Watched (α : Type*) where
  cells : Cells α
  seen : List Nat

namespace Watched

variable {α : Type*} {s : Watched α} {i : Nat} {x y : α}

/-- `A[i]`. -/
def read (s : Watched α) (i : Nat) : Option (α × Watched α) := (s.cells i).map fun x => (x, ⟨s.cells, s.seen ++ [i]⟩)

/-- `A[i] = x`. -/
def write (s : Watched α) (i : Nat) (x : α) : Option (Watched α) := (s.cells i).map fun _ => ⟨Function.update s.cells i (some x), s.seen ++ [i]⟩

theorem read_eq (h : s.cells i = some x) : s.read i = some (x, ⟨s.cells, s.seen ++ [i]⟩) := by
  rw [read, h, map_some]

theorem write_eq (h : s.cells i = some y) (x : α) : s.write i x = some ⟨update s.cells i (some x), s.seen ++ [i]⟩ := by
  rw [write, h, map_some]

end Watched

end CsLearning
