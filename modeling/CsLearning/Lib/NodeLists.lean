import CsLearning.Lib.Memory

/-!
# Linked lists of nodes

Nodes with a key and a pointer to the next one. `Mem.NodeList m p ns q` says that the nodes `ns`, each with its address, stand one after another from
the pointer `p` on, and that the last one points to `q`. Nodes at other addresses do not matter, so an assignment to one of them keeps the list.

`malloc` takes the address from a function of the calls so far and of the memory, which stands for an allocator: `Fresh` says that it finds an address
that is free as long as only finitely many are in use.
-/

open List Function

namespace CsLearning

/-- A node. -/
structure KeyNode (K : Type*) where
  key : K
  next : Ptr

variable {K : Type*}

namespace Mem

variable {m : Mem (KeyNode K)} {p q r : Ptr} {a : Addr} {x : K} {xs ys ns : List (Addr × K)}

/-- The nodes from `p` on, up to a pointer `q`. -/
def NodeList (m : Mem (KeyNode K)) : Ptr → List (Addr × K) → Ptr → Prop
  | p, [], q => p = q
  | p, n :: ns, q => p = some n.1 ∧ ∃ next, m n.1 = some ⟨n.2, next⟩ ∧ NodeList m next ns q

/-- The addresses of nodes. -/
def addrsOf (ns : List (Addr × K)) : List Addr := ns.map Prod.fst

variable {n : Addr × K}

theorem mem_addrsOf (h : n ∈ ns) : n.1 ∈ addrsOf ns := mem_map_of_mem h

theorem eq_of_addr_eq (hnd : (addrsOf ns).Nodup) {n n' : Addr × K} (h : n ∈ ns) (h' : n' ∈ ns) (heq : n.1 = n'.1) : n = n' :=
  inj_on_of_nodup_map hnd h h' heq

theorem nodeList_append : NodeList m p (xs ++ ys) q ↔ ∃ r, NodeList m p xs r ∧ NodeList m r ys q := by
  induction xs generalizing p with
  | nil => simp [NodeList]
  | cons n xs ih =>
    constructor
    · rintro ⟨hp, next, hn, hr⟩
      obtain ⟨r, hxs, hys⟩ := ih.mp hr
      exact ⟨r, ⟨hp, next, hn, hxs⟩, hys⟩
    · rintro ⟨r, ⟨hp, next, hn, hxs⟩, hys⟩
      exact ⟨hp, next, hn, ih.mpr ⟨r, hxs, hys⟩⟩

theorem NodeList.congr {m' : Mem (KeyNode K)} (h : NodeList m p ns q) (hm : ∀ n ∈ ns, m' n.1 = m n.1) : NodeList m' p ns q := by
  induction ns generalizing p with
  | nil => exact h
  | cons n ns ih =>
    obtain ⟨hp, next, hn, hr⟩ := h
    refine ⟨hp, next, ?_, ih hr fun n' hn' => hm n' (mem_cons_of_mem n hn')⟩
    rw [hm n mem_cons_self, hn]

section

variable (h : NodeList m p ns q)

include h

theorem NodeList.cell (hn : n ∈ ns) : ∃ next, m n.1 = some ⟨n.2, next⟩ := by
  induction ns generalizing p with
  | nil => cases hn
  | cons n' ns ih =>
    obtain ⟨-, next, hn', hr⟩ := h
    rcases mem_cons.mp hn with rfl | hn
    · exact ⟨next, hn'⟩
    · exact ih hr hn

theorem NodeList.ne_none (hn : n ∈ ns) : m n.1 ≠ none := by
  obtain ⟨next, hnext⟩ := h.cell hn
  rw [hnext]
  exact Option.some_ne_none _

theorem NodeList.ne_end (hne : ns ≠ []) (hq : ∀ n ∈ ns, some n.1 ≠ q) : p ≠ q := by
  cases ns with
  | nil => exact absurd rfl hne
  | cons n ns =>
    rw [h.1]
    exact hq n mem_cons_self

theorem NodeList.notMem_of_free (ha : m a = none) : a ∉ addrsOf ns := by
  intro hmem
  obtain ⟨n, hn, rfl⟩ := mem_map.mp hmem
  exact h.ne_none hn ha

theorem NodeList.update (ha : a ∉ addrsOf ns) (c : Option (KeyNode K)) : NodeList (update m a c) p ns q := by
  refine h.congr fun n hn => update_of_ne ?_ _ _
  rintro rfl
  exact ha (mem_addrsOf hn)

end

theorem NodeList.relink (h : NodeList m p (ns ++ [(a, x)]) q) (ha : a ∉ addrsOf ns) (r : Ptr) :
    NodeList (Function.update m a (some ⟨x, r⟩)) p (ns ++ [(a, x)]) r := by
  obtain ⟨s, hns, hs, -⟩ := nodeList_append.mp h
  exact nodeList_append.mpr ⟨s, hns.update ha _, hs, r, update_self .., rfl⟩

/-- A node points to another one. -/
def redirect (m : Mem (KeyNode K)) (n : Addr × K) (r : Ptr) : Mem (KeyNode K) := Function.update m n.1 (some ⟨n.2, r⟩)

section Redirect

variable {n : Addr × K}

theorem redirect_self (m : Mem (KeyNode K)) (n : Addr × K) (r : Ptr) : m.redirect n r n.1 = some ⟨n.2, r⟩ := update_self ..

theorem redirect_of_ne (h : a ≠ n.1) (r : Ptr) : m.redirect n r a = m a := update_of_ne h ..

theorem read_next (h : m n.1 = some ⟨n.2, q⟩) : m.read (some n.1) (·.next) = some q := read_of_some h _

theorem write_next (h : m n.1 = some ⟨n.2, q⟩) (r : Ptr) : m.write (some n.1) (fun c => { c with next := r }) = some (m.redirect n r) :=
  write_of_some h _

theorem NodeList.redirect (h : NodeList m p ns q) (hn : n.1 ∉ addrsOf ns) (r : Ptr) : NodeList (m.redirect n r) p ns q := h.update hn _

end Redirect

theorem NodeList.cons (h : NodeList m p ns q) (ha : a ∉ addrsOf ns) (x : K) :
    NodeList (Function.update m a (some ⟨x, p⟩)) (some a) ((a, x) :: ns) q :=
  ⟨rfl, p, update_self .., h.update ha _⟩

/-- The memory without some nodes. -/
def without (m : Mem (KeyNode K)) (ns : List (Addr × K)) : Mem (KeyNode K) := fun a => if a ∈ addrsOf ns then none else m a

theorem without_nil (m : Mem (KeyNode K)) : m.without [] = m := by
  funext a
  exact if_neg not_mem_nil

theorem without_append (m : Mem (KeyNode K)) (xs ys : List (Addr × K)) : Mem.without (m.without xs) ys = m.without (xs ++ ys) := by
  funext a
  have happ : a ∈ addrsOf (xs ++ ys) ↔ a ∈ addrsOf xs ∨ a ∈ addrsOf ys := by
    rw [addrsOf, map_append, mem_append]
    rfl
  unfold without
  by_cases hys : a ∈ addrsOf ys
  · rw [if_pos hys, if_pos (happ.mpr (Or.inr hys))]
  · grind

theorem without_singleton (m : Mem (KeyNode K)) (n : Addr × K) : m.without [n] = update m n.1 none := by
  funext a
  have hmem : a ∈ addrsOf [n] ↔ a = n.1 := mem_singleton
  unfold without
  by_cases ha : a = n.1
  · rw [if_pos (hmem.mpr ha), ha, update_self]
  · rw [if_neg (mt hmem.mp ha), update_of_ne ha]

theorem NodeList.without (h : NodeList m p ns q) (hxs : ∀ n ∈ ns, n.1 ∉ addrsOf xs) : NodeList (m.without xs) p ns q :=
  h.congr fun n hn => if_neg (hxs n hn)

/-! ## Allocation -/

/-- Finitely many cells are allocated. -/
def IsFinite (m : Mem (KeyNode K)) : Prop := {a | m a ≠ none}.Finite

theorem isFinite_none : IsFinite (fun _ => none : Mem (KeyNode K)) := by
  refine Set.Finite.subset Set.finite_empty fun a ha => ?_
  exact absurd rfl ha

theorem IsFinite.update (h : m.IsFinite) (a : Addr) (c : Option (KeyNode K)) : IsFinite (update m a c) := by
  refine (Set.Finite.insert a h).subset fun b hb => ?_
  by_cases hba : b = a
  · exact Set.mem_insert_iff.mpr (Or.inl hba)
  · grind

theorem IsFinite.of_frame {m' : Mem (KeyNode K)} (h : m.IsFinite) {l : List Addr} (hfr : ∀ a, a ∉ l → m' a = m a) : m'.IsFinite := by
  refine (Set.Finite.union h l.finite_toSet).subset fun a ha => ?_
  by_cases hl : a ∈ l
  · exact Or.inr hl
  · grind

theorem IsFinite.without (h : m.IsFinite) (ns : List (Addr × K)) : (m.without ns).IsFinite := h.of_frame fun _ ha => if_neg ha

end Mem

/-- The memory and the number of calls of `malloc` so far. -/
structure HeapState (K : Type*) where
  mem : Mem (KeyNode K)
  calls : Nat

/-- Where `malloc` places the next node. -/
abbrev Placement (K : Type*) := Nat → Mem (KeyNode K) → Addr

/-- `malloc` finds an address that is free. -/
def Placement.Fresh (place : Placement K) : Prop := ∀ (calls : Nat) (m : Mem (KeyNode K)), m.IsFinite → m (place calls m) = none

/-- The first address that is free. -/
noncomputable def Placement.firstFit : Placement K := fun _ m => sInf {a | m a = none}

theorem Placement.firstFit_fresh : (Placement.firstFit : Placement K).Fresh := by
  intro calls m hfin
  have hf : {a | m a = none}.Nonempty := by
    obtain ⟨a, ha⟩ := hfin.exists_notMem
    exact ⟨a, not_not.mp ha⟩
  exact Nat.sInf_mem hf

/-- `malloc(sizeof(Node))` and the assignments to both fields: the address and the memory. -/
def HeapState.malloc (place : Placement K) (h : HeapState K) (x : KeyNode K) : Option (Addr × HeapState K) := do
  let m ← h.mem.new (place h.calls h.mem) x
  return (place h.calls h.mem, ⟨m, h.calls + 1⟩)

theorem HeapState.malloc_eq {place : Placement K} (hpl : place.Fresh) {h : HeapState K} (hfin : h.mem.IsFinite) (x : KeyNode K) :
    h.mem (place h.calls h.mem) = none ∧
      h.malloc place x = some (place h.calls h.mem, ⟨update h.mem (place h.calls h.mem) (some x), h.calls + 1⟩) := by
  have hf := hpl h.calls h.mem hfin
  refine ⟨hf, ?_⟩
  rw [malloc, Mem.new_of_free hf]
  rfl

end CsLearning
