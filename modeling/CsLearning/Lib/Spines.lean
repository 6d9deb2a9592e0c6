import CsLearning.Lib.TreeCells

/-!
# Reversing a right spine

The nodes of a right spine are linked by their right pointers like the cells of a list. `reversed m xs pre` is the memory after the pointers of the
nodes `xs` were turned around, one after another, and the first of them to `pre`. Turning them around twice leaves the memory as it was.
-/

open List Function Prod

namespace CsLearning

variable {V : Type*}

/-- The pointer to the first of some nodes, with `q` if there are none. -/
def start : List (Addr × V) → Ptr → Ptr
  | [], q => q
  | x :: _, _ => some x.1

theorem start_append (xs ys : List (Addr × V)) (q : Ptr) : start (xs ++ ys) q = start xs (start ys q) := by
  cases xs with
  | nil => rfl
  | cons x xs => rfl

theorem start_spine (t : BinaryTree (Addr × V)) (q : Ptr) : start (spine t) q = entry t q := by
  cases t with
  | nil => rfl
  | node x l r => rfl

namespace Mem

variable {m m' : Mem (TreeCell V)} {xs ys : List (Addr × V)} {q : Ptr} {a : Addr}

/-- The right pointer of each node leads to the next one, that of the last node is `q`. -/
def Chain (m : Mem (TreeCell V)) : List (Addr × V) → Ptr → Prop
  | [], _ => True
  | x :: xs, q => (∃ c, m x.1 = some c ∧ c.val = x.2 ∧ c.right = start xs q) ∧ Chain m xs q

/-- `a->right = p`. -/
def setRight (m : Mem (TreeCell V)) (a : Addr) (p : Ptr) : Mem (TreeCell V) := Function.update m a ((m a).map fun c => { c with right := p })

/-- The memory after the right pointers were turned around. -/
def reversed (m : Mem (TreeCell V)) : List (Addr × V) → Ptr → Mem (TreeCell V)
  | [], _ => m
  | x :: xs, pre => reversed (m.setRight x.1 pre) xs (some x.1)

/-- The value and the left pointer of a cell. -/
def unlinked (m : Mem (TreeCell V)) (a : Addr) : Option (V × Ptr) := (m a).map fun c => (c.val, c.left)

theorem Holds.chain {t : BinaryTree (Addr × V)} (h : m.Holds t q) : m.Chain (spine t) q := by
  induction t generalizing q with
  | nil => trivial
  | node x l r _ ihr =>
    obtain ⟨hx, -, hr⟩ := h
    exact ⟨⟨_, hx, rfl, (start_spine r q).symm⟩, ihr hr⟩

theorem chain_append : m.Chain (xs ++ ys) q ↔ m.Chain xs (start ys q) ∧ m.Chain ys q := by
  induction xs with
  | nil => exact (and_iff_right trivial).symm
  | cons x xs ih => rw [cons_append, Chain, Chain, ih, start_append, and_assoc]

theorem Chain.congr (h : m.Chain xs q) (hm : ∀ x ∈ xs, m' x.1 = m x.1) : m'.Chain xs q := by
  induction xs with
  | nil => trivial
  | cons x xs ih =>
    obtain ⟨hx, hxs⟩ := h
    refine ⟨?_, ih hxs fun y hy => hm y (mem_cons_of_mem x hy)⟩
    rwa [hm x mem_cons_self]

theorem setRight_of_ne {p : Ptr} {b : Addr} (h : b ≠ a) : m.setRight a p b = m b := update_of_ne h ..

/-- The rest of a chain, when the pointer of its first node changes. -/
theorem Chain.setRight {x : Addr × V} (h : m.Chain xs q) (hx : x.1 ∉ xs.map fst) (p : Ptr) : (m.setRight x.1 p).Chain xs q := by
  refine h.congr fun y hy => setRight_of_ne ?_
  intro heq
  exact hx (heq ▸ mem_map_of_mem hy)

theorem reversed_of_notMem (h : a ∉ xs.map fst) (pre : Ptr) : m.reversed xs pre a = m a := by
  induction xs generalizing m pre with
  | nil => rfl
  | cons x xs ih =>
    rw [map_cons, mem_cons, not_or] at h
    rw [reversed, ih h.2, setRight_of_ne h.1]

/-- Values and left pointers do not change. -/
theorem unlinked_reversed (m : Mem (TreeCell V)) (xs : List (Addr × V)) (pre : Ptr) (a : Addr) : (m.reversed xs pre).unlinked a = m.unlinked a := by
  induction xs generalizing m pre with
  | nil => rfl
  | cons x xs ih =>
    rw [reversed, ih, unlinked, unlinked, Mem.setRight]
    by_cases ha : a = x.1
    · subst ha
      rw [update_self, Option.map_map]
      rfl
    · rw [update_of_ne ha]

theorem Chain.reversed (h : m.Chain xs q) (hnd : (xs.map fst).Nodup) (pre : Ptr) : (m.reversed xs pre).Chain xs.reverse pre := by
  induction xs generalizing m pre with
  | nil => trivial
  | cons x xs ih =>
    obtain ⟨⟨c, hc, hval, -⟩, hxs⟩ := h
    rw [map_cons, nodup_cons] at hnd
    rw [reverse_cons, chain_append]
    refine ⟨ih (hxs.setRight hnd.1 pre) hnd.2 (some x.1), ⟨{ c with right := pre }, ?_, hval, rfl⟩, trivial⟩
    rw [Mem.reversed, reversed_of_notMem hnd.1, Mem.setRight, update_self, hc]
    rfl

/-- The right pointers of a chain are those of every chain of the same nodes. -/
theorem Chain.right_eq (h : m.Chain xs q) (h' : m'.Chain xs q) {x : Addr × V} (hx : x ∈ xs) :
    ∃ c c', m x.1 = some c ∧ m' x.1 = some c' ∧ c.right = c'.right := by
  induction xs with
  | nil => simp at hx
  | cons y xs ih =>
    obtain ⟨⟨c, hc, -, hr⟩, hxs⟩ := h
    obtain ⟨⟨c', hc', -, hr'⟩, hxs'⟩ := h'
    rcases mem_cons.mp hx with rfl | hx
    · exact ⟨c, c', hc, hc', hr.trans hr'.symm⟩
    · exact ih hxs hxs' hx

theorem reversed_reversed (h : m.Chain xs none) (hnd : (xs.map fst).Nodup) : (m.reversed xs none).reversed xs.reverse none = m := by
  have hmap : xs.reverse.map fst = (xs.map fst).reverse := map_reverse
  have hb : ((m.reversed xs none).reversed xs.reverse none).Chain xs none := by
    have htwice := (h.reversed hnd none).reversed (by rwa [hmap, nodup_reverse]) none
    rwa [reverse_reverse] at htwice
  funext a
  have hrest := (unlinked_reversed (m.reversed xs none) xs.reverse none a).trans (unlinked_reversed m xs none a)
  by_cases ha : a ∈ xs.map fst
  · obtain ⟨x, hx, rfl⟩ := mem_map.mp ha
    obtain ⟨c, c', hc, hc', hr⟩ := hb.right_eq h hx
    rw [unlinked, unlinked, hc, hc', Option.map_some, Option.map_some, Option.some.injEq] at hrest
    obtain ⟨val, left, right⟩ := c
    obtain ⟨val', left', right'⟩ := c'
    obtain ⟨rfl, rfl⟩ := hrest
    obtain rfl : right = right' := hr
    rw [hc, hc']
  · rw [reversed_of_notMem (by rwa [hmap, mem_reverse]), reversed_of_notMem ha]

end Mem

end CsLearning
