import CsLearning.Lib.BalancedTrees
import CsLearning.Lib.Cells
import CsLearning.Lib.Cpp
import CsLearning.Lib.Loop
import CsLearning.Lib.NodeLists
import CsLearning.Lib.Traversals
import CsLearning.Lib.Word

/-!
# From a sorted list to a balanced search tree

Problem 109, in three versions: the values are copied to a vector, or a slow and a fast pointer find the middle of the list, which is then cut before
the middle or passed on with a pointer to where it ends.

The version with the vector adds two indices as `int`s. The last call that makes a node has both at the last element, so the sum fits for every list
of at most `2 ^ 30` nodes and for no longer one. The other two versions add nothing.
-/

open List Option Nat Prod

namespace CsLearning.LeetCode.SortedListToBST

open Word

abbrev ListNode := KeyNode CInt

/-! ## The code -/

namespace Vector

/-- A round of the loop that copies the values. -/
def pushRound (m : Mem ListNode) : Ptr × List CInt → Option (Round (Ptr × List CInt) (List CInt))
  | (none, vec) => some (.stop vec)
  | (some a, vec) => do
    let val ← m.read (some a) (·.key)
    let next ← m.read (some a) (·.next)
    return .again (next, vec ++ [val])

/-- `helper(vec, left, right)`, with calls that are at most `n` deep. -/
def helper (vec : List CInt) : Nat → Int → Int → Option (BinaryTree CInt)
  | 0, _, _ => none
  | n + 1, left, right =>
    if left > right then some .nil
    else do
      let sum ← Word.addInt left right
      let center := sum >>> (1 : Nat)
      let val ← (Cells.ofList vec).get center
      let l ← helper vec n left (center - 1)
      let r ← helper vec n (center + 1) right
      return .node val l r

def sortedListToBST (n : Nat) (m : Mem ListNode) (head : Ptr) : Option (BinaryTree CInt) := do
  let vec ← loop (pushRound m) n (head, [])
  helper vec n 0 (Word.toInt (Word.sub 64 vec.length 1))

end Vector

/-- The pointers of the loop that finds the middle. -/
structure Middle where
  slow : Ptr
  fast : Ptr
  preSlow : Ptr

/-- A round of `while (fast != tail && fast->next != tail)`, which is `while (fast && fast->next)` when `tail` is null. Only the version that cuts
the list looks at `pre_slow`. -/
def middleRound (m : Mem ListNode) (tail : Ptr) (s : Middle) : Option (Round Middle Middle) :=
  if s.fast = tail then some (.stop s)
  else do
    let next ← m.read s.fast (·.next)
    if next = tail then return .stop s
    else
      let fast ← m.read next (·.next)
      let slow ← m.read s.slow (·.next)
      return .again ⟨slow, fast, s.slow⟩

/-- The version that cuts the list, with calls that are at most `n` deep: the tree and the memory after the call. -/
def Cut.sortedListToBST : Nat → Mem ListNode → Ptr → Option (BinaryTree CInt × Mem ListNode)
  | 0, _, _ => none
  | n + 1, m, head =>
    if head = none then some (.nil, m)
    else do
      let s ← loop (middleRound m none) (n + 1) ⟨head, head, none⟩
      let val ← m.read s.slow (·.key)
      let (left, m) ← (
        if s.preSlow = none then some (.nil, m)
        else do
          let m ← m.write s.preSlow fun c => { c with next := none }
          Cut.sortedListToBST n m head)
      let next ← m.read s.slow (·.next)
      let (right, m) ← Cut.sortedListToBST n m next
      return (.node val left right, m)

namespace Tail

/-- `helper(head, tail)`, with calls that are at most `n` deep. -/
def helper (m : Mem ListNode) : Nat → Ptr → Ptr → Option (BinaryTree CInt)
  | 0, _, _ => none
  | n + 1, head, tail =>
    if head = tail then some .nil
    else do
      let s ← loop (middleRound m tail) (n + 1) ⟨head, head, none⟩
      let val ← m.read s.slow (·.key)
      let left ← helper m n head s.slow
      let next ← m.read s.slow (·.next)
      let right ← helper m n next tail
      return .node val left right

def sortedListToBST (n : Nat) (m : Mem ListNode) (head : Ptr) : Option (BinaryTree CInt) := helper m n head none

end Tail

/-- A version comes to an end with a balanced tree of the values in their order. -/
def Converts (vals : List CInt) (version : Nat → Option (BinaryTree CInt)) : Prop :=
  ∃ n t, version n = some t ∧ inorder t = vals ∧ HeightBalanced t

open Mem

variable {m m' : Mem ListNode} {head tail slow fast : Ptr} {ns us ws xs ys zs : List (Addr × CInt)} {v : Addr × CInt} {n : Nat}
  {l r t : BinaryTree CInt} {vec : List CInt}

/-- A tree of the values in which every node is in the middle of its own subtree. -/
structure Builds (vals : List CInt) (t : BinaryTree CInt) : Prop where
  inorder_eq : inorder t = vals
  halved : Halved t

namespace Builds

variable {vals before after : List CInt} {val : CInt}

theorem nil : Builds [] .nil := ⟨rfl, trivial⟩

theorem numNodes_eq (h : Builds vals t) : t.numNodes = vals.length := by
  rw [← length_inorder, h.inorder_eq]

theorem node (hl : Builds before l) (hr : Builds after r) (hlr : before.length ≤ after.length + 1) (hrl : after.length ≤ before.length + 1) :
    Builds (before ++ val :: after) (.node val l r) := by
  refine ⟨by rw [inorder_node, hl.inorder_eq, hr.inorder_eq], ?_, ?_, hl.halved, hr.halved⟩
  · rwa [hl.numNodes_eq, hr.numNodes_eq]
  · rwa [hl.numNodes_eq, hr.numNodes_eq]

theorem converts (h : Builds vals t) {version : Nat → Option (BinaryTree CInt)} (hrun : version n = some t) : Converts vals version :=
  ⟨n, t, hrun, h.inorder_eq, h.halved.heightBalanced⟩

end Builds

/-! ## The middle of a list -/

/-- While the fast pointer passes the nodes `zs` the slow one passes half as many of `ys`. -/
theorem loop_middleRound (pre : Ptr) (hzs : m.NodeList fast zs tail) (hys : m.NodeList slow ys tail) (hle : zs.length ≤ ys.length)
    (ht : ∀ x ∈ zs, some x.1 ≠ tail) (hn : zs.length < n) :
    ∃ s us ws, loop (middleRound m tail) n ⟨slow, fast, pre⟩ = some s ∧ ys = us ++ ws ∧ us.length = zs.length / 2 ∧
      m.NodeList slow us s.slow ∧ m.NodeList s.slow ws tail ∧ s.preSlow = us.getLast?.elim pre (fun x => some x.1) := by
  induction n generalizing slow fast pre ys zs with
  | zero => omega
  | succ n ih =>
    rcases zs with _ | ⟨z, _ | ⟨z', zs⟩⟩
    · have hrd : middleRound m tail ⟨slow, fast, pre⟩ = some (.stop ⟨slow, fast, pre⟩) := if_pos hzs
      exact ⟨_, [], ys, loop_of_stop hrd n, rfl, rfl, rfl, hys, rfl⟩
    · obtain ⟨rfl, next, hz, rfl⟩ := hzs
      have hrd : middleRound m next ⟨slow, some z.1, pre⟩ = some (.stop ⟨slow, some z.1, pre⟩) := by
        simp only [middleRound, if_neg (ht z mem_cons_self), read_next hz, bind_eq_bind, bind_some]
        rfl
      exact ⟨_, [], ys, loop_of_stop hrd n, rfl, by simp, rfl, hys, rfl⟩
    · cases ys with
      | nil =>
        rw [length_nil, length_cons] at hle
        omega
      | cons y ys =>
        simp only [length_cons] at hle hn
        obtain ⟨rfl, _, hz, rfl, fast', hz', hfast⟩ := hzs
        obtain ⟨rfl, slow', hy, hslow⟩ := hys
        have hne' : some z'.1 ≠ tail := ht z' (mem_cons_of_mem z mem_cons_self)
        have hrd : middleRound m tail ⟨some y.1, some z.1, pre⟩ = some (.again ⟨slow', fast', some y.1⟩) := by
          simp only [middleRound, if_neg (ht z mem_cons_self), if_neg hne', read_next hz, read_next hz', read_next hy, bind_eq_bind, bind_some]
          rfl
        have hr : ∀ x ∈ zs, some x.1 ≠ tail := fun x hx => ht x (mem_cons_of_mem z (mem_cons_of_mem z' hx))
        obtain ⟨s, us, ws, hs, rfl, hlen, hus, hws, hpre⟩ := ih (some y.1) hfast hslow (by omega) hr (by omega)
        refine ⟨s, y :: us, ws, by rw [loop_of_again hrd, hs], rfl, ?_, ⟨rfl, slow', hy, hus⟩, hws, ?_⟩
        · simp only [length_cons]
          omega
        · grind

/-- The slow pointer ends up at the node in the middle, and `pre_slow` at the one before it. -/
theorem exists_middle (h : m.NodeList head xs tail) (ht : ∀ x ∈ xs, some x.1 ≠ tail) (hpos : xs ≠ []) (hn : xs.length < n) :
    ∃ s us v ws next, loop (middleRound m tail) n ⟨head, head, none⟩ = some s ∧ xs = us ++ v :: ws ∧ us.length = xs.length / 2 ∧
      s.slow = some v.1 ∧ s.preSlow = us.getLast?.map fst ∧ m.NodeList head us (some v.1) ∧ m v.1 = some ⟨v.2, next⟩ ∧
      m.NodeList next ws tail := by
  obtain ⟨s, us, ws, hs, rfl, hlen, hus, hws, hpre⟩ := loop_middleRound none h h le_rfl ht hn
  have hlt := length_pos_of_ne_nil hpos
  rw [length_append] at hlen hlt
  cases ws with
  | nil =>
    rw [length_nil] at hlen hlt
    omega
  | cons v ws =>
    obtain ⟨hslow, next, hv, hnext⟩ := hws
    refine ⟨s, us, v, ws, next, hs, rfl, by rw [hlen, length_append], hslow, ?_, hslow ▸ hus, hv, hnext⟩
    rw [hpre]
    cases us.getLast? <;> rfl

theorem builds_middle (hlen : us.length = (us ++ v :: ws).length / 2) (hl : Builds (us.map snd) l) (hr : Builds (ws.map snd) r) :
    Builds ((us ++ v :: ws).map snd) (.node v.2 l r) := by
  rw [length_append, length_cons] at hlen
  rw [map_append]
  refine hl.node hr ?_ ?_
  · rw [length_map, length_map]
    omega
  · rw [length_map, length_map]
    omega

/-! ## The version with a pointer to the end -/

theorem Tail.helper_spec (h : m.NodeList head xs tail) (hnd : (addrsOf xs).Nodup) (ht : ∀ x ∈ xs, some x.1 ≠ tail) (hn : xs.length < n) :
    ∃ t, Tail.helper m n head tail = some t ∧ Builds (xs.map snd) t := by
  induction n generalizing head tail xs with
  | zero => omega
  | succ n ih =>
    by_cases hxs : xs = []
    · subst hxs
      exact ⟨.nil, if_pos h, Builds.nil⟩
    · have hh : head ≠ tail := h.ne_end hxs ht
      obtain ⟨s, us, v, ws, next, hs, rfl, hlen, hslow, -, hus, hv, hws⟩ := exists_middle h ht hxs hn
      simp only [addrsOf, map_append, map_cons, nodup_append, nodup_cons] at hnd
      obtain ⟨hnus, ⟨hvws, hnws⟩, hdis⟩ := hnd
      rw [length_append, length_cons] at hn
      have hbef : ∀ x ∈ us, some x.1 ≠ some v.1 := by
        intro x hx heq
        exact hdis x.1 (mem_addrsOf hx) v.1 mem_cons_self (some.inj heq)
      have hbh : ∀ x ∈ ws, some x.1 ≠ tail := fun x hx => ht x (mem_append_right us (mem_cons_of_mem v hx))
      obtain ⟨l, hl, hbl⟩ := ih hus hnus hbef (by omega)
      obtain ⟨r, hr, hbr⟩ := ih hws hnws hbh (by omega)
      refine ⟨.node v.2 l r, ?_, builds_middle hlen hbl hbr⟩
      simp only [Tail.helper, if_neg hh, hs, hslow, read_of_some hv, hl, hr, bind_eq_bind, bind_some]
      rfl

theorem Tail.sortedListToBST_spec (h : m.NodeList head ns none) (hnd : (addrsOf ns).Nodup) :
    Converts (ns.map snd) fun n => Tail.sortedListToBST n m head := by
  obtain ⟨t, ht, hbuilds⟩ := Tail.helper_spec h hnd (fun x _ => some_ne_none x.1) (lt_succ_self _)
  exact hbuilds.converts ht

/-! ## The version that cuts the list -/

theorem nodeList_cut {u : Addr × CInt} (hus : m.NodeList head (us ++ [u]) tail) (hnd : (addrsOf (us ++ [u])).Nodup) :
    ∃ q, m u.1 = some ⟨u.2, q⟩ ∧ (m.redirect u none).NodeList head (us ++ [u]) none := by
  obtain ⟨s, -, rfl, q, hu, -⟩ := nodeList_append.mp hus
  rw [addrsOf, map_append, nodup_append] at hnd
  obtain ⟨-, -, hdis⟩ := hnd
  exact ⟨q, hu, hus.relink (fun hmem => hdis _ hmem _ mem_cons_self rfl) none⟩

theorem Cut.sortedListToBST_builds (h : m.NodeList head xs none) (hnd : (addrsOf xs).Nodup) (hn : xs.length < n) :
    ∃ t m', Cut.sortedListToBST n m head = some (t, m') ∧ Builds (xs.map snd) t ∧ ∀ a, a ∉ addrsOf xs → m' a = m a := by
  induction n generalizing m head xs with
  | zero => omega
  | succ n ih =>
    have ht : ∀ x ∈ xs, some x.1 ≠ none := fun x _ => some_ne_none x.1
    by_cases hxs : xs = []
    · subst hxs
      exact ⟨.nil, m, if_pos h, Builds.nil, fun _ _ => rfl⟩
    · have hh : head ≠ none := h.ne_end hxs ht
      obtain ⟨s, us, v, ws, next, hs, rfl, hlen, hslow, hpre, hus, hv, hws⟩ := exists_middle h ht hxs hn
      simp only [addrsOf, map_append, map_cons, nodup_append, nodup_cons] at hnd
      obtain ⟨hnus, ⟨hvws, hnws⟩, hdis⟩ := hnd
      rw [length_append, length_cons] at hn
      -- the memory after the part before the middle is done
      obtain ⟨l, m1, hl, hbl, hfr⟩ : ∃ l m1, (if s.preSlow = none then some (.nil, m)
            else (m.write s.preSlow fun c => { c with next := none }).bind fun m => Cut.sortedListToBST n m head) = some (l, m1) ∧
          Builds (us.map snd) l ∧ ∀ a, a ∉ addrsOf us → m1 a = m a := by
        rcases eq_nil_or_concat us with rfl | ⟨us, u, rfl⟩
        · exact ⟨.nil, m, if_pos hpre, Builds.nil, fun _ _ => rfl⟩
        · rw [concat_eq_append] at hus hnus hpre hn ⊢
          have hpre' : s.preSlow = some u.1 := by rw [hpre, getLast?_concat, map_some]
          obtain ⟨q, hu, hcut⟩ := nodeList_cut hus hnus
          obtain ⟨l, m1, hl, hbl, hfr⟩ := ih hcut hnus (by omega)
          refine ⟨l, m1, ?_, hbl, fun a ha => ?_⟩
          · rw [hpre', if_neg (some_ne_none _), write_next hu, bind_some, hl]
          · grind [redirect_of_ne, mem_addrsOf, mem_append_right]
      -- the middle and the part behind it are as before
      have hsame : ∀ x ∈ v :: ws, m1 x.1 = m x.1 := by
        intro x hx
        exact hfr x.1 fun hmem => hdis x.1 hmem x.1 (mem_addrsOf hx) rfl
      have hv1 : m1 v.1 = some ⟨v.2, next⟩ := by rw [hsame v mem_cons_self, hv]
      have hws1 : m1.NodeList next ws none := hws.congr fun x hx => hsame x (mem_cons_of_mem v hx)
      obtain ⟨r, m2, hr, hbr, hfr2⟩ := ih hws1 hnws (by omega)
      refine ⟨.node v.2 l r, m2, ?_, builds_middle hlen hbl hbr, fun a ha => ?_⟩
      · simp only [Cut.sortedListToBST, if_neg hh, hs, hslow, read_of_some hv, hl, read_of_some hv1, hr, bind_eq_bind, bind_some]
        rfl
      · rw [addrsOf, map_append, mem_append, map_cons, mem_cons, not_or, not_or] at ha
        rw [hfr2 a ha.2.2, hfr a ha.1]

theorem Cut.sortedListToBST_spec (h : m.NodeList head ns none) (hnd : (addrsOf ns).Nodup) :
    Converts (ns.map snd) fun n => (Cut.sortedListToBST n m head).map fst := by
  obtain ⟨t, m', ht, hbuilds, -⟩ := Cut.sortedListToBST_builds h hnd (lt_succ_self _)
  refine hbuilds.converts (n := ns.length + 1) ?_
  rw [ht, map_some]

/-! ## The version with the vector -/

theorem Vector.loop_pushRound (h : m.NodeList head ns none) (hn : ns.length < n) :
    loop (Vector.pushRound m) n (head, vec) = some (vec ++ ns.map snd) := by
  induction ns generalizing head vec n with
  | nil =>
    obtain ⟨n, rfl⟩ : ∃ k, n = k + 1 := ⟨n - 1, by omega⟩
    obtain rfl : head = none := h
    rw [loop_of_stop rfl, map_nil, append_nil]
  | cons v ns ih =>
    obtain ⟨rfl, next, hv, hr⟩ := h
    rw [length_cons] at hn
    obtain ⟨n, rfl⟩ : ∃ k, n = k + 1 := ⟨n - 1, by omega⟩
    have hrd : Vector.pushRound m (some v.1, vec) = some (.again (next, vec ++ [v.2])) := by
      simp only [Vector.pushRound, read_of_some hv, bind_eq_bind]
      rfl
    rw [loop_of_again hrd, ih hr (by omega), map_cons, append_assoc, singleton_append]

theorem window_eq {i j k : Nat} (hj : j < k) (hlt : i + j < vec.length) :
    (vec.drop i).take k = (vec.drop i).take j ++ vec[i + j] :: (vec.drop (i + j + 1)).take (k - j - 1) := by
  obtain ⟨d, rfl⟩ : ∃ d, k = j + (d + 1) := ⟨k - j - 1, by omega⟩
  have hd : j + (d + 1) - j - 1 = d := by omega
  rw [take_add, drop_drop, drop_eq_getElem_cons hlt, take_succ_cons, hd]

variable {i k N : Nat}

theorem Vector.helper_spec (hk : i + k ≤ vec.length) (hlen : vec.length ≤ 2 ^ 30) (hn : k < n) :
    ∃ t, Vector.helper vec n i (i + k - 1) = some t ∧ Builds ((vec.drop i).take k) t := by
  induction n generalizing i k with
  | zero => omega
  | succ n ih =>
    rcases Nat.eq_zero_or_pos k with rfl | hpos
    · exact ⟨.nil, if_pos (by omega), Builds.nil⟩
    · obtain ⟨j, hj⟩ : ∃ j, j = (k - 1) / 2 := ⟨_, rfl⟩
      have hcenter : ((i : Int) + (i + k - 1)) >>> (1 : Nat) = (i + j : Nat) := by
        rw [Word.shiftRight_one]
        omega
      have hlt : i + j < vec.length := by omega
      obtain ⟨l, hl, hbl⟩ := ih (i := i) (k := j) (by omega) (by omega)
      obtain ⟨r, hr, hbr⟩ := ih (i := i + j + 1) (k := k - j - 1) (by omega) (by omega)
      have hright : ((i + j + 1 : Nat) : Int) + (k - j - 1 : Nat) - 1 = i + k - 1 := by omega
      rw [hright, Nat.cast_succ] at hr
      refine ⟨.node vec[i + j] l r, ?_, ?_⟩
      · have hf : Word.addInt (i : Int) (i + k - 1) = some ((i : Int) + (i + k - 1)) := Word.addInt_of_fits (by omega) (by omega)
        have hval := Cells.get_ofList hlt
        rw [Nat.cast_add i j] at hr hcenter hval
        simp only [Vector.helper, if_neg (show ¬ (i : Int) > i + k - 1 by omega), hf, bind_eq_bind, bind_some, hcenter, hval, hl, hr]
        rfl
      · rw [window_eq (show j < k by omega) hlt]
        refine hbl.node hbr ?_ ?_
        · simp only [length_take, length_drop]
          omega
        · simp only [length_take, length_drop]
          omega

theorem Vector.sortedListToBST_spec (h : m.NodeList head ns none) (hlen : ns.length ≤ 2 ^ 30) :
    Converts (ns.map snd) fun n => Vector.sortedListToBST n m head := by
  have hvec : (ns.map snd).length = ns.length := length_map _
  have hn : ns.length < ns.length + 1 := lt_succ_self _
  obtain ⟨t, ht, hbuilds⟩ := Vector.helper_spec (i := 0) (show 0 + ns.length ≤ (ns.map snd).length by omega) (by omega) hn
  rw [drop_zero, take_of_length_le (by omega)] at hbuilds
  refine hbuilds.converts (n := ns.length + 1) ?_
  unfold Vector.sortedListToBST
  rw [Vector.loop_pushRound h hn, bind_eq_bind, bind_some, nil_append, toInt_sub_one (by omega), ← ht]
  norm_num

/-- Whichever window the calls on the right come to, the last one has a sum that does not fit. -/
theorem Vector.helper_overflows (hlong : 2 ^ 30 < vec.length) (hi : i < vec.length) (n : Nat) : Vector.helper vec n i (vec.length - 1) = none := by
  induction n generalizing i with
  | zero => rfl
  | succ n ih =>
    rw [Vector.helper, if_neg (by omega)]
    rcases lt_or_ge (i + (vec.length - 1)) (2 ^ 31) with hf | hlarge
    · have hcenter : ((i : Int) + (vec.length - 1)) >>> (1 : Nat) = ((i + (vec.length - 1)) / 2 : Nat) := by
        rw [Word.shiftRight_one]
        omega
      have hn := ih (i := (i + (vec.length - 1)) / 2 + 1) (by omega)
      rw [cast_succ] at hn
      have hsum : Word.addInt (i : Int) (vec.length - 1) = some ((i : Int) + (vec.length - 1)) := Word.addInt_of_fits (by omega) (by omega)
      simp only [hsum, bind_eq_bind, bind_some, hcenter, hn, bind_none, bind_fun_none]
    · rw [Word.addInt_of_large (by omega)]
      rfl

theorem Vector.helper_of_run (h : m.NodeList head ns none) (hrun : Vector.sortedListToBST n m head = some t) :
    Vector.helper (ns.map snd) n 0 (toInt (sub 64 ns.length 1)) = some t := by
  obtain ⟨vec, hl, hhelper⟩ := bind_eq_some_iff.mp hrun
  have hf : loop (Vector.pushRound m) (max n (ns.length + 1)) (head, []) = some ([] ++ ns.map snd) := Vector.loop_pushRound h (by omega)
  rw [loop_mono hl (le_max_left _ _), nil_append] at hf
  cases hf
  rwa [length_map] at hhelper

/-- A list that is too long: the sum overflows, or the last index is negative from the start. -/
theorem Vector.not_converts (h : m.NodeList head ns none) (hlong : 2 ^ 30 < ns.length) (hmax : ns.length ≤ 2 ^ 32) :
    ¬ Converts (ns.map snd) fun n => Vector.sortedListToBST n m head := by
  intro hconverts
  obtain ⟨n, t, hrun, hinorder, -⟩ := hconverts
  have hhelper := Vector.helper_of_run h hrun
  have hvec : (ns.map snd).length = ns.length := length_map _
  rcases lt_or_ge (2 ^ 31) ns.length with hwraps | hf
  · have hneg := toInt_sub_one_neg hwraps hmax
    cases n with
    | zero => cases hhelper
    | succ n =>
      rw [Vector.helper, if_pos hneg] at hhelper
      cases hhelper
      rw [← hinorder, inorder_nil, length_nil] at hvec
      omega
  · have hn := Vector.helper_overflows (i := 0) (show 2 ^ 30 < (ns.map snd).length by omega) (by omega) n
    rw [hvec, cast_zero, ← toInt_sub_one hf, hhelper] at hn
    cases hn

/-! ## The result -/

theorem nodup_addrs (h : m.NodeList head ns tail) (hvals : (ns.map snd).Nodup) : (addrsOf ns).Nodup := by
  have hk : (addrsOf ns).map (fun a => m.read (some a) (·.key)) = (ns.map snd).map some := by
    rw [addrsOf, List.map_map, List.map_map]
    refine map_congr_left fun x hx => ?_
    obtain ⟨next, hn⟩ := h.cell hx
    exact read_of_some hn _
  have hnd : ((ns.map snd).map some).Nodup := hvals.map (some_injective _)
  rw [← hk] at hnd
  exact Nodup.of_map _ hnd

/-- The nodes of a list of the numbers below `N`. -/
def counted (N : Nat) : List (Addr × CInt) := (List.range N).map fun i => (i, CInt.clamp i)

/-- They stand at the addresses from zero on. -/
def countedMem (N : Nat) : Mem ListNode := fun a => if a < N then some ⟨CInt.clamp a, if a + 1 < N then some (a + 1) else none⟩ else none

theorem length_counted (N : Nat) : (counted N).length = N := by
  rw [counted, length_map, length_range]

theorem pairwise_counted (hN : N ≤ 2 ^ 31) : ((counted N).map snd).Pairwise (· < ·) := by
  rw [counted, List.map_map]
  exact CInt.pairwise_clamp_range hN

theorem nodeList_countedMem (h : i + k = N) :
    (countedMem N).NodeList (if i < N then some i else none) ((range' i k).map fun i => (i, CInt.clamp i)) none := by
  induction k generalizing i with
  | zero => exact if_neg (by omega)
  | succ k ih =>
    have hi : i < N := by omega
    have hr := ih (i := i + 1) (by omega)
    exact ⟨if_pos hi, _, if_pos hi, hr⟩

theorem nodeList_counted (hN : 0 < N) : (countedMem N).NodeList (some 0) (counted N) none := by
  have h := nodeList_countedMem (zero_add N)
  rwa [if_pos hN, ← range_eq_range'] at h

theorem not_converts_counted (hlong : 2 ^ 30 < N) (hN : N ≤ 2 ^ 31) :
    (countedMem N).NodeList (some 0) (counted N) none ∧ ((counted N).map snd).Pairwise (· < ·) ∧
      ¬ Converts ((counted N).map snd) fun n => Vector.sortedListToBST n (countedMem N) (some 0) := by
  grind [nodeList_counted, length_counted, pairwise_counted, Vector.not_converts]

/-- The numbers up to `2 ^ 30`: the version with the vector returns nothing. -/
theorem sortedListToBST_overflows :
    (countedMem (2 ^ 30 + 1)).NodeList (some 0) (counted (2 ^ 30 + 1)) none ∧ ((counted (2 ^ 30 + 1)).map Prod.snd).Pairwise (· < ·) ∧
      ¬ Converts ((counted (2 ^ 30 + 1)).map Prod.snd) fun n => Vector.sortedListToBST n (countedMem (2 ^ 30 + 1)) (some 0) :=
  not_converts_counted (lt_succ_self _) (by decide)

/-- The ascending lists of `int`s that all three versions turn into a balanced search tree. -/
theorem sortedListToBST_iff (h : m.NodeList head ns none) (hasc : (ns.map Prod.snd).Pairwise (· < ·)) :
    (Converts (ns.map Prod.snd) (fun n => Vector.sortedListToBST n m head) ∧
      Converts (ns.map Prod.snd) (fun n => (Cut.sortedListToBST n m head).map Prod.fst) ∧
      Converts (ns.map Prod.snd) fun n => Tail.sortedListToBST n m head) ↔ ns.length ≤ 2 ^ 30 := by
  have hvals : (ns.map snd).Nodup := hasc.imp fun hlt => hlt.ne
  have hnd := nodup_addrs h hvals
  constructor
  · intro hall
    by_contra hlong
    have hmax := CInt.length_le_of_nodup hvals
    rw [length_map] at hmax
    exact Vector.not_converts h (by omega) hmax hall.1
  · intro hlength
    exact ⟨Vector.sortedListToBST_spec h hlength, Cut.sortedListToBST_spec h hnd, Tail.sortedListToBST_spec h hnd⟩

/-- The list `0, 1, 2, 3, 4`. -/
theorem sortedListToBST_iff_five :
    (countedMem 5).NodeList (some 0) (counted 5) none ∧ ((counted 5).map Prod.snd).Pairwise (· < ·) ∧
      ((Converts ((counted 5).map Prod.snd) (fun n => Vector.sortedListToBST n (countedMem 5) (some 0)) ∧
        Converts ((counted 5).map Prod.snd) (fun n => (Cut.sortedListToBST n (countedMem 5) (some 0)).map Prod.fst) ∧
        Converts ((counted 5).map Prod.snd) fun n => Tail.sortedListToBST n (countedMem 5) (some 0)) ↔ (counted 5).length ≤ 2 ^ 30) := by
  have hlist := nodeList_counted (N := 5) (by decide)
  have hasc := pairwise_counted (N := 5) (by decide)
  exact ⟨hlist, hasc, sortedListToBST_iff hlist hasc⟩

end CsLearning.LeetCode.SortedListToBST
