import CsLearning.Lib.Loop
import CsLearning.Lib.NodeLists

/-!
# Reversing the nodes of a list in groups

Problem 25, on nodes in memory. `pre` is the node before a group, `head` the first and `tail` the last one of it. The group is reversed by moving
the node behind `pre` to the place behind `tail` until `tail` itself stands behind `pre`. The node `dummy` is a local variable, at an address that is
free before the call and after it.
-/

open List Option Function Prod

namespace CsLearning.LeetCode.ReverseKGroup

abbrev ListNode := KeyNode Int

/-- The loop that moves `tail` on, for at most so many nodes. -/
def advance (m : Mem ListNode) : Nat → Ptr → Option Ptr
  | 0, tail => some tail
  | i + 1, tail =>
    match tail with
    | none => some none
    | some a => do
      let next ← m.read (some a) (·.next)
      advance m i next

/-- A round of the loop that moves the node behind `pre` to the place behind `tail`. -/
def moveRound (pre tail : Ptr) (m : Mem ListNode) : Option (Round (Mem ListNode) (Mem ListNode)) := do
  let cur ← m.read pre (·.next)
  if cur = tail then return .stop m
  else
    let next ← m.read cur (·.next)
    let m ← m.write pre fun c => { c with next := next }
    let next ← m.read tail (·.next)
    let m ← m.write cur fun c => { c with next := next }
    let m ← m.write tail fun c => { c with next := cur }
    return .again m

/-- The memory and the variables of the outer loop. -/
structure State where
  m : Mem ListNode
  pre : Ptr
  tail : Ptr
  head : Ptr

/-- A round of the outer loop. -/
def groupRound (n k : Nat) (s : State) : Option (Round State (Mem ListNode)) := do
  let tail ← advance s.m (k - 1) s.tail
  if tail = none then return .stop s.m
  else
    let m ← loop (moveRound s.pre tail) n s.m
    let next ← m.read s.head (·.next)
    return .again ⟨m, s.head, next, next⟩

/-- `reverseKGroup(head, k)`, with `dummy` at the address `d`: the memory and the pointer that is returned. -/
def reverseKGroup (n : Nat) (d : Addr) (m : Mem ListNode) (head : Ptr) (k : Nat) : Option (Mem ListNode × Ptr) := do
  let m ← m.new d ⟨-1, head⟩
  let m ← loop (groupRound n k) n ⟨m, some d, head, head⟩
  let first ← m.read (some d) (·.next)
  let m ← m.delete (some d)
  return (m, first)

open Mem

/-! ## Moving nodes -/

variable {m m' : Mem ListNode} {p t x : Addr × Int} {b c ds rest before : List (Addr × Int)} {q r : Ptr} {n k : Nat}

theorem advance_eq (h : m.NodeList q c r) : advance m c.length q = some r := by
  induction c generalizing q with
  | nil => exact congrArg some h
  | cons x c ih =>
    obtain ⟨rfl, next, hx, hc⟩ := h
    rw [length_cons, advance, read_of_some hx]
    exact ih hc

theorem advance_end (h : m.NodeList q c none) (hk : c.length ≤ k) : advance m k q = some none := by
  induction c generalizing q k with
  | nil =>
    obtain rfl : q = none := h
    cases k <;> rfl
  | cons x c ih =>
    obtain ⟨rfl, next, hx, hc⟩ := h
    obtain ⟨k, rfl⟩ : ∃ j, k = j + 1 := ⟨k - 1, by rw [length_cons] at hk; omega⟩
    rw [advance, read_of_some hx]
    exact ih hc (by simpa using hk)

theorem moveRound_spec (h : m.NodeList (some p.1) (p :: x :: (c ++ t :: ds)) q) (hnd : (addrsOf (p :: x :: (c ++ t :: ds))).Nodup) :
    ∃ m', moveRound (some p.1) (some t.1) m = some (.again m') ∧ m'.NodeList (some p.1) (p :: (c ++ t :: x :: ds)) q ∧
      ∀ a, a ≠ p.1 → a ≠ x.1 → a ≠ t.1 → m' a = m a := by
  obtain ⟨-, _, hp, rfl, next, hx, hr⟩ := h
  obtain ⟨_, hc, rfl, behind, ht, hds⟩ := nodeList_append.1 hr
  simp only [addrsOf, map_cons, map_append, nodup_cons, nodup_append, mem_cons, mem_append, not_or] at hnd
  obtain ⟨⟨hpx, hpc, hpt, hpds⟩, ⟨hxc, hxt, hxds⟩, hcnd, ⟨htds, -⟩, hcdis⟩ := hnd
  have htc : t.1 ∉ addrsOf c := fun hmem => hcdis _ hmem _ (Or.inl rfl) rfl
  have hxne : some x.1 ≠ some t.1 := fun heq => hxt (some.inj heq)
  have hx1 : m.redirect p next x.1 = some ⟨x.2, next⟩ := by rw [redirect_of_ne (Ne.symm hpx), hx]
  have ht1 : m.redirect p next t.1 = some ⟨t.2, behind⟩ := by rw [redirect_of_ne (Ne.symm hpt), ht]
  have ht2 : (m.redirect p next).redirect x behind t.1 = some ⟨t.2, behind⟩ := by rw [redirect_of_ne (Ne.symm hxt), ht1]
  refine ⟨((m.redirect p next).redirect x behind).redirect t (some x.1), ?_, ⟨rfl, next, ?_, ?_⟩, ?_⟩
  · simp only [moveRound, read_next hp, bind_eq_bind, bind_some, if_neg hxne, read_next hx, write_next hp, read_next ht1,
      write_next hx1, write_next ht2]
    rfl
  · rw [redirect_of_ne hpt, redirect_of_ne hpx, redirect_self]
  · refine nodeList_append.2 ⟨some t.1, ((hc.redirect hpc _).redirect hxc _).redirect htc _, rfl, some x.1, redirect_self .., rfl, behind, ?_, ?_⟩
    · rw [redirect_of_ne hxt, redirect_self]
    · exact ((hds.redirect hpds _).redirect hxds _).redirect htds _
  · grind [redirect_of_ne]

theorem moveRound_stop (h : m.NodeList (some p.1) (p :: t :: ds) q) : moveRound (some p.1) (some t.1) m = some (.stop m) := by
  obtain ⟨-, next, hp, rfl, -⟩ := h
  unfold moveRound
  rw [read_next hp, bind_eq_bind, bind_some, if_pos rfl]
  rfl

theorem loop_move (h : m.NodeList (some p.1) (p :: (c ++ t :: ds)) q) (hnd : (addrsOf (p :: (c ++ t :: ds))).Nodup) (hn : c.length < n) :
    ∃ m', loop (moveRound (some p.1) (some t.1)) n m = some m' ∧ m'.NodeList (some p.1) (p :: t :: (c.reverse ++ ds)) q ∧
      ∀ a, a ∉ addrsOf (p :: (c ++ [t])) → m' a = m a := by
  induction c generalizing m ds n with
  | nil =>
    obtain ⟨n, rfl⟩ : ∃ j, n = j + 1 := ⟨n - 1, by omega⟩
    exact ⟨m, loop_of_stop (moveRound_stop h) n, h, fun _ _ => rfl⟩
  | cons x c ih =>
    obtain ⟨n, rfl⟩ : ∃ j, n = j + 1 := ⟨n - 1, by omega⟩
    obtain ⟨m1, hrd, h1, hframe1⟩ := moveRound_spec h hnd
    have hp : (p :: (c ++ t :: x :: ds)).Perm (p :: (x :: c ++ t :: ds)) := by grind
    obtain ⟨m2, hl, h2, hframe2⟩ := ih h1 ((hp.map fst).nodup_iff.2 hnd) (Nat.lt_of_succ_lt_succ hn)
    refine ⟨m2, ?_, ?_, ?_⟩
    · rw [loop_of_again hrd, hl]
    · grind
    · intro a ha
      simp only [addrsOf, map_cons, map_append, cons_append, mem_cons, mem_append, not_or] at ha hframe2
      rw [hframe2 a ⟨ha.1, ha.2.2⟩, hframe1 a ha.1 ha.2.1 ha.2.2.2.1]

/-! ## Groups -/

/-- The state between two rounds: `pre` points to the node `p`, and the nodes behind it are still to be looked at. -/
structure Between (d : Addr) (before : List (Addr × Int)) (p : Addr × Int) (rest : List (Addr × Int)) (s : State) : Prop where
  list : s.m.NodeList (some d) (before ++ [p]) s.head
  rest : s.m.NodeList s.head rest none
  pre : s.pre = some p.1
  tail : s.tail = s.head

theorem groupRound_spec {d : Addr} {s : State} {f : Addr × Int} (h : Between d before p (f :: c ++ rest) s)
    (hnd : (addrsOf (before ++ p :: (f :: c ++ rest))).Nodup) (hk : c.length + 1 = k) (hn : c.length < n) :
    ∃ s', groupRound n k s = some (.again s') ∧ Between d (before ++ p :: c.reverse) f rest s' ∧
      ∀ a, a ∉ addrsOf (before ++ p :: (f :: c ++ rest)) → s'.m a = s.m a := by
  -- the same group, from its last node
  obtain ⟨e, t, hlast⟩ : ∃ e t, f :: c = e ++ [t] := ⟨_, _, (dropLast_append_getLast (cons_ne_nil f c)).symm⟩
  have hlen : e.length = k - 1 := by
    have := congrArg length hlast
    simp only [length_cons, length_append, length_nil] at this
    omega
  have hreverse : t :: (e.reverse ++ rest) = c.reverse ++ f :: rest := by grind
  have hsp : f :: c ++ rest = e ++ t :: rest := by rw [hlast, append_assoc, singleton_append]
  obtain ⟨r, hbef, rfl, _, hp, rfl⟩ := nodeList_append.1 h.list
  have hhead : s.head = some f.1 := h.rest.1
  have hrest := h.rest
  rw [hsp] at hrest hnd
  have hadvance : advance s.m (k - 1) s.tail = some (some t.1) := by
    obtain ⟨r, he, rfl, -⟩ := nodeList_append.1 hrest
    rw [h.tail, ← hlen]
    exact advance_eq he
  have hdisj := (nodup_append.1 (by rw [← map_append]; exact hnd : (before.map fst ++ (p :: (e ++ t :: rest)).map fst).Nodup))
  have hfrom : s.m.NodeList (some p.1) (p :: (e ++ t :: rest)) none := ⟨rfl, _, hp, hrest⟩
  obtain ⟨m', hloop, hmoved, hframe⟩ := loop_move hfrom hdisj.2.1 (by omega : e.length < n)
  have hsub : ∀ a, a ∈ addrsOf (p :: (e ++ [t])) → a ∈ addrsOf (p :: (e ++ t :: rest)) := by
    intro a ha
    simp only [addrsOf, map_cons, map_append, mem_cons, mem_append] at ha ⊢
    tauto
  rw [hreverse] at hmoved
  obtain ⟨_, hgroup, rfl, next, hf, hnext⟩ := nodeList_append.1 (show m'.NodeList (some p.1) ((p :: c.reverse) ++ f :: rest) none from hmoved)
  refine ⟨⟨m', s.head, next, next⟩, ?_, ⟨?_, hnext, hhead, rfl⟩, ?_⟩
  · simp only [groupRound, hadvance, bind_eq_bind, bind_some, h.pre, hloop, hhead, read_next hf]
    rfl
  · have hbef' : m'.NodeList (some d) before (some p.1) := by
      refine hbef.congr ?_
      intro x hx
      refine hframe _ fun hmem => ?_
      exact hdisj.2.2 _ (mem_map_of_mem hx) _ (hsub _ hmem) rfl
    rw [append_assoc]
    refine nodeList_append.2 ⟨_, hbef', ?_⟩
    exact nodeList_append.2 ⟨_, hgroup, rfl, next, hf, rfl⟩
  · intro a ha
    rw [hsp] at ha
    refine hframe a fun hmem => ha ?_
    rw [addrsOf, map_append]
    exact mem_append_right _ (hsub a hmem)

/-- A group that is not complete is left as it is. -/
theorem groupRound_stop {d : Addr} {s : State} (h : Between d before p rest s) (hl : rest.length < k) : groupRound n k s = some (.stop s.m) := by
  unfold groupRound
  rw [h.tail, advance_end h.rest (by omega), bind_eq_bind, bind_some]
  rfl

theorem loop_groups {d : Addr} {blocks : List (List (Addr × Int))} {last : List (Addr × Int)} {s : State} (hk : 1 ≤ k)
    (hblocks : ∀ b ∈ blocks, b.length = k) (hl : last.length < k) (h : Between d before p (blocks.flatten ++ last) s)
    (hnd : (addrsOf (before ++ p :: (blocks.flatten ++ last))).Nodup) {j : Nat} (hn : (blocks.flatten ++ last).length < n)
    (hj : blocks.length < j) : ∃ m', loop (groupRound n k) j s = some m' ∧
      m'.NodeList (some d) (before ++ p :: ((blocks.map reverse).flatten ++ last)) none ∧
      ∀ a, a ∉ addrsOf (before ++ p :: (blocks.flatten ++ last)) → m' a = s.m a := by
  induction blocks generalizing before p s j with
  | nil =>
    obtain ⟨j, rfl⟩ : ∃ i, j = i + 1 := ⟨j - 1, by omega⟩
    refine ⟨s.m, loop_of_stop (groupRound_stop h hl) j, ?_, fun _ _ => rfl⟩
    obtain ⟨r, hbef, rfl, _, hp, rfl⟩ := nodeList_append.1 h.list
    exact nodeList_append.2 ⟨_, hbef, rfl, _, hp, h.rest⟩
  | cons b blocks ih =>
    obtain ⟨j, rfl⟩ : ∃ i, j = i + 1 := ⟨j - 1, by omega⟩
    have hb : b.length = k := hblocks b mem_cons_self
    obtain ⟨f, c, rfl⟩ : ∃ f c, b = f :: c := exists_cons_of_length_pos (by omega)
    rw [flatten_cons, append_assoc] at h hnd hn
    have hlen : c.length < n := by
      simp only [length_append, length_cons] at hn
      omega
    obtain ⟨s', hrd, h', hfr⟩ := groupRound_spec h hnd hb hlen
    have hperm : ((before ++ p :: c.reverse) ++ f :: (blocks.flatten ++ last)).Perm (before ++ p :: (f :: c ++ (blocks.flatten ++ last))) := by
      grind
    have hnd' := (hperm.map fst).nodup_iff.2 hnd
    obtain ⟨m', hloop, hlist, hfr'⟩ := ih (fun b hb => hblocks b (mem_cons_of_mem _ hb)) h' hnd'
      (by simp only [length_append] at hn ⊢; omega) (Nat.lt_of_succ_lt_succ hj)
    refine ⟨m', ?_, ?_, ?_⟩
    · rw [loop_of_again hrd, hloop]
    · grind
    · intro a ha
      rw [flatten_cons, append_assoc] at ha
      rw [hfr' a fun hmem => ha ((hperm.map fst).mem_iff.1 hmem), hfr a ha]

theorem exists_blocks {α : Type} (hk : 1 ≤ k) (l : List α) :
    ∃ blocks last, l = flatten blocks ++ last ∧ (∀ b ∈ blocks, b.length = k) ∧ last.length < k := by
  induction hlen : l.length using Nat.strong_induction_on generalizing l with
  | h len ih =>
    by_cases hlast : l.length < k
    · exact ⟨[], l, rfl, by simp, hlast⟩
    · obtain ⟨blocks, last, heq, hblocks, hl⟩ := ih (l.drop k).length (by rw [length_drop]; omega) (l.drop k) rfl
      refine ⟨l.take k :: blocks, last, ?_, ?_, hl⟩
      · rw [flatten_cons, append_assoc, ← heq, take_append_drop]
      · grind

theorem length_le_flatten {α : Type} {blocks : List (List α)} (hk : 1 ≤ k) (h : ∀ b ∈ blocks, b.length = k) :
    blocks.length ≤ blocks.flatten.length := by
  induction blocks with
  | nil => exact Nat.le_refl 0
  | cons b blocks ih => grind

theorem flatten_reverse_perm {α : Type} (blocks : List (List α)) : (blocks.map reverse).flatten.Perm blocks.flatten := by
  induction blocks with
  | nil => exact Perm.nil
  | cons b blocks ih =>
    exact (reverse_perm b).append ih

/-- For every list and every `k` from 1 on: the same nodes, with each complete group reversed, and nothing else in the memory has changed. -/
theorem reverseKGroup_spec {m : Mem ListNode} {head : Ptr} {ns : List (Addr × Int)} {d : Addr} {n k : Nat} (hlist : m.NodeList head ns none)
    (hnd : (addrsOf ns).Nodup) (hd : m d = none) (hk : 1 ≤ k) (hn : ns.length < n) :
    ∃ blocks last, ns = List.flatten blocks ++ last ∧ (∀ b ∈ blocks, b.length = k) ∧ last.length < k ∧
      ∃ m' first, reverseKGroup n d m head k = some (m', first) ∧ m'.NodeList first ((blocks.map List.reverse).flatten ++ last) none ∧
        ((blocks.map List.reverse).flatten ++ last).Perm ns ∧ ∀ a, a ∉ addrsOf ns → m' a = m a := by
  obtain ⟨blocks, last, rfl, hblocks, hlast⟩ := exists_blocks hk ns
  refine ⟨blocks, last, rfl, hblocks, hlast, ?_⟩
  have hfree := hlist.notMem_of_free hd
  have hperm : ((blocks.map reverse).flatten ++ last).Perm (blocks.flatten ++ last) := (flatten_reverse_perm blocks).append_right last
  have hstart : Between d [] (d, -1) (blocks.flatten ++ last) ⟨update m d (some ⟨-1, head⟩), some d, head, head⟩ :=
    ⟨⟨rfl, head, update_self .., rfl⟩, hlist.update hfree _, rfl, rfl⟩
  have hj : blocks.length < n := by
    have := length_le_flatten hk hblocks
    rw [length_append] at hn
    omega
  obtain ⟨m', hloop, hresult, hframe⟩ := loop_groups hk hblocks hlast hstart (nodup_cons.2 ⟨hfree, hnd⟩) hn hj
  obtain ⟨-, first, hdummy, hout⟩ := hresult
  refine ⟨update m' d none, first, ?_, ?_, hperm, ?_⟩
  · simp only [reverseKGroup, new_of_free hd, bind_eq_bind, bind_some, hloop, read_of_some hdummy, delete_of_some hdummy]
    rfl
  · exact hout.update (fun hmem => hfree ((hperm.map fst).mem_iff.1 hmem)) _
  · intro a ha
    by_cases had : a = d
    · rw [had, update_self, hd]
    · have hother : a ∉ addrsOf ([] ++ (d, -1) :: (blocks.flatten ++ last)) := fun hmem => (mem_cons.1 hmem).elim had ha
      rw [update_of_ne had, hframe a hother]
      exact update_of_ne had ..

/-- Three nodes in groups of two. -/
def threeNodes : Mem ListNode
  | 1 => some ⟨10, some 2⟩
  | 2 => some ⟨20, some 3⟩
  | 3 => some ⟨30, none⟩
  | _ => none

theorem reverseKGroup_spec_three : ∃ blocks last, [(1, 10), (2, 20), (3, 30)] = List.flatten blocks ++ last ∧ (∀ b ∈ blocks, b.length = 2) ∧
    last.length < 2 ∧ ∃ m' first, reverseKGroup 4 0 threeNodes (some 1) 2 = some (m', first) ∧
      m'.NodeList first ((blocks.map List.reverse).flatten ++ last) none ∧
        ((blocks.map List.reverse).flatten ++ last).Perm [(1, 10), (2, 20), (3, 30)] ∧
          ∀ a, a ∉ addrsOf [(1, (10 : Int)), (2, 20), (3, 30)] → m' a = threeNodes a := by
  have hlist : threeNodes.NodeList (some 1) [(1, 10), (2, 20), (3, 30)] none := ⟨rfl, _, rfl, rfl, _, rfl, rfl, _, rfl, rfl⟩
  exact reverseKGroup_spec hlist (by decide) rfl (by decide) (by decide)

end CsLearning.LeetCode.ReverseKGroup
