import CsLearning.Lib.Memory
import CsLearning.Lib.Traversals

/-!
# Binary trees in memory

A cell with a value and two pointers. The tree in a memory is given with the addresses of its nodes: `Mem.Holds m t q` says that the cells
of `m` are linked as `t` is, except that the pointer `q` stands where the right spine of `t` ends, which is a null pointer in a
tree of its own.
-/

open List Function

namespace CsLearning

/-- A node of a binary tree. -/
structure TreeCell (V : Type*) where
  val : V
  left : Ptr
  right : Ptr
  deriving DecidableEq, Repr

variable {V : Type*}

/-- The pointer to a tree, with `q` for the empty one. -/
def entry : BinaryTree (Addr × V) → Ptr → Ptr
  | .nil, q => q
  | .node (a, _) _ _, _ => some a

/-- The pointer to the last node of the right spine. -/
def rightEnd : BinaryTree (Addr × V) → Ptr
  | .nil => none
  | .node (a, _) _ .nil => some a
  | .node _ _ r => rightEnd r

/-- The addresses of the nodes, in order. -/
def addrs (t : BinaryTree (Addr × V)) : List Addr := (inorder t).map Prod.fst

@[simp] theorem entry_nil (q : Ptr) : entry (.nil : BinaryTree (Addr × V)) q = q := rfl

@[simp] theorem entry_node (x : Addr × V) (l r : BinaryTree (Addr × V)) (q : Ptr) : entry (.node x l r) q = some x.1 := rfl

theorem entry_map (g : Addr × V → V) (t : BinaryTree (Addr × V)) (q : Ptr) : entry (t.map fun n => (n.1, g n)) q = entry t q := by
  cases t with
  | nil => rfl
  | node x l r => rfl

@[simp] theorem addrs_nil : addrs (.nil : BinaryTree (Addr × V)) = [] := rfl

@[simp] theorem addrs_node (x : Addr × V) (l r : BinaryTree (Addr × V)) : addrs (.node x l r) = addrs l ++ x.1 :: addrs r := by
  simp [addrs]

namespace Mem

variable {m m' : Mem (TreeCell V)}

/-- The cells of the tree `t`; its right spine ends in the pointer `q`. -/
def Holds (m : Mem (TreeCell V)) : BinaryTree (Addr × V) → Ptr → Prop
  | .nil, _ => True
  | .node (a, v) l r, q => m a = some ⟨v, entry l none, entry r q⟩ ∧ Holds m l none ∧ Holds m r q

/-- The pointer `p` leads to the tree `t`. -/
def IsTree (m : Mem (TreeCell V)) (p : Ptr) (t : BinaryTree V) : Prop := ∃ s, m.Holds s none ∧ entry s none = p ∧ s.map Prod.snd = t

variable {t : BinaryTree (Addr × V)} {q : Ptr}

theorem Holds.exists_cell (h : m.Holds t q) {n : Addr × V} (hn : n ∈ inorder t) : ∃ c, m n.1 = some c ∧ c.val = n.2 := by
  induction t generalizing q with
  | nil => simp at hn
  | node x l r ihl ihr =>
    obtain ⟨hx, hl, hr⟩ := h
    rw [inorder_node, mem_append, mem_cons] at hn
    rcases hn with hn | rfl | hn
    · exact ihl hl hn
    · exact ⟨_, hx, rfl⟩
    · exact ihr hr hn

theorem Holds.congr (h : m.Holds t q) (hm : ∀ a ∈ addrs t, m' a = m a) : m'.Holds t q := by
  induction t generalizing q with
  | nil => trivial
  | node x l r ihl ihr =>
    obtain ⟨hx, hl, hr⟩ := h
    refine ⟨(hm x.1 (by simp)).trans hx, ihl hl fun a ha => hm a ?_, ihr hr fun a ha => hm a ?_⟩
    · simp [ha]
    · simp [ha]

/-- The last node of the right spine holds the pointer `q`, and with another pointer there the spine ends in that one. -/
theorem Holds.rightEnd (h : m.Holds t q) (ht : t ≠ .nil) (hnd : (addrs t).Nodup) :
    ∃ b c, rightEnd t = some b ∧ b ∈ addrs t ∧ m b = some c ∧ c.right = q ∧ ∀ q', Holds (update m b (some { c with right := q' })) t q' := by
  induction t with
  | nil => exact absurd rfl ht
  | node x l r _ ihr =>
    obtain ⟨a, v⟩ := x
    obtain ⟨hx, hl, hr⟩ := h
    rw [addrs_node, nodup_append, nodup_cons] at hnd
    obtain ⟨-, ⟨har, hndr⟩, hdisj⟩ := hnd
    -- the cells of the left subtree are not those of the right spine
    have hleft : ∀ b ∈ a :: addrs r, ∀ c', Holds (update m b c') l none := by
      intro b hb c'
      exact hl.congr fun d hd => update_of_ne (hdisj d hd b hb) ..
    cases r with
    | nil =>
      refine ⟨a, ⟨v, entry l none, q⟩, rfl, by simp, hx, rfl, fun q' => ?_⟩
      exact ⟨update_self .., hleft a (by simp) _, trivial⟩
    | node y rl rr =>
      obtain ⟨b, c, hend, hmem, hb, hc, hq⟩ := ihr hr (by simp) hndr
      have hab : a ≠ b := by
        rintro rfl
        exact har hmem
      refine ⟨b, c, hend, by simp only [addrs_node] at hmem ⊢; simp [hmem], hb, hc, fun q' => ?_⟩
      refine ⟨?_, hleft b (mem_cons_of_mem a hmem) _, hq q'⟩
      rw [update_of_ne hab, hx]
      rfl

theorem Holds.revalue (h : m.Holds t q) (g : Addr × V → V)
    (hg : ∀ n ∈ inorder t, m' n.1 = (m n.1).map fun c => { c with val := g n }) : m'.Holds (t.map fun n => (n.1, g n)) q := by
  induction t generalizing q with
  | nil => trivial
  | node x l r ihl ihr =>
    obtain ⟨a, v⟩ := x
    obtain ⟨hx, hl, hr⟩ := h
    refine ⟨?_, ihl hl fun n hn => hg n ?_, ihr hr fun n hn => hg n ?_⟩
    · rw [entry_map, entry_map, hg (a, v) (by simp), hx]
      rfl
    · simp [hn]
    · simp [hn]

theorem Holds.unique {s t : BinaryTree (Addr × V)} (hs : m.Holds s none) (ht : m.Holds t none) (h : entry s none = entry t none) : s = t := by
  induction s generalizing t with
  | nil =>
    cases t with
    | nil => rfl
    | node y l r => simp at h
  | node x l r ihl ihr =>
    cases t with
    | nil => simp at h
    | node y l' r' =>
      obtain ⟨a, v⟩ := x
      obtain ⟨b, w⟩ := y
      obtain rfl : a = b := Option.some.inj h
      obtain ⟨hx, hl, hr⟩ := hs
      obtain ⟨hy, hl', hr'⟩ := ht
      have hc := Option.some.inj (hx.symm.trans hy)
      simp only [TreeCell.mk.injEq] at hc
      obtain ⟨rfl, hel, her⟩ := hc
      rw [ihl hl hl' hel, ihr hr hr' her]

theorem IsTree.unique {p : Ptr} {t t' : BinaryTree V} (h : m.IsTree p t) (h' : m.IsTree p t') : t = t' := by
  obtain ⟨s, hs, hp, rfl⟩ := h
  obtain ⟨s', hs', hp', rfl⟩ := h'
  rw [hs.unique hs' (hp.trans hp'.symm)]

end Mem

end CsLearning
