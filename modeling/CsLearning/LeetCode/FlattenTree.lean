import CsLearning.Lib.Loop
import CsLearning.Lib.Spines

/-!
# Flattening a tree to a list

Problem 114 on nodes in memory, with a stack of the right subtrees that wait, and in place, where a right subtree is put below the last node of the
left one. Both versions rewire the tree while they walk along it. What they have passed is a chain of right pointers that leads to what is left, and
the nodes that they have passed and those that are left make up the preorder of the tree at any time.
-/

open List Option Function Prod

namespace CsLearning.LeetCode.FlattenTree

abbrev Cells := Mem (TreeCell Int)

abbrev Tree := BinaryTree (Addr × Int)

/-! ## With a stack -/

/-- The memory, `tmp` and `mystack`, with its top first. -/
structure State where
  m : Cells
  tmp : Ptr
  mystack : List Ptr

/-- A round of the inner loop. -/
def descendRound (s : State) : Option (Round State State) :=
  match s.tmp with
  | none => some (.stop s)
  | some a => do
    let right ← s.m.read (some a) (·.right)
    let mystack := if right = none then s.mystack else right :: s.mystack
    let left ← s.m.read (some a) (·.left)
    if left = none then return .stop { s with mystack := mystack }
    else
      let m ← s.m.write (some a) fun c => { c with right := left }
      let m ← m.write (some a) fun c => { c with left := none }
      let next ← m.read (some a) (·.right)
      return .again ⟨m, next, mystack⟩

/-- A round of the outer loop. -/
def popRound (n : Nat) (s : State) : Option (Round State Cells) := do
  let s ← loop descendRound n s
  match s.mystack with
  | [] => return .stop s.m
  | top :: mystack =>
    let m ← s.m.write s.tmp fun c => { c with right := top }
    let next ← m.read s.tmp (·.right)
    return .again ⟨m, next, mystack⟩

/-- `flatten(root)` with a stack. -/
def Stack.flatten (n : Nat) (m : Cells) (root : Ptr) : Option Cells := loop (popRound n) n ⟨m, root, []⟩

/-! ## In place -/

/-- A round of the loop that looks for the last node of the right spine. -/
def mostRightRound (m : Cells) (p : Ptr) : Option (Round Ptr Ptr) := do
  let right ← m.read p (·.right)
  if right = none then return .stop p else return .again right

/-- The body of `if (root->left != nullptr)`. -/
def splice (n : Nat) (m : Cells) (a : Addr) : Option Cells := do
  let left ← m.read (some a) (·.left)
  let most_right ← loop (mostRightRound m) n left
  let right ← m.read (some a) (·.right)
  let m ← m.write most_right fun c => { c with right := right }
  let left ← m.read (some a) (·.left)
  let m ← m.write (some a) fun c => { c with right := left }
  m.write (some a) fun c => { c with left := none }

/-- A round of the loop over the nodes. -/
def spliceRound (n : Nat) (s : Cells × Ptr) : Option (Round (Cells × Ptr) Cells) :=
  match s.2 with
  | none => some (.stop s.1)
  | some a => do
    let left ← s.1.read (some a) (·.left)
    let m ← if left = none then some s.1 else splice n s.1 a
    let next ← m.read (some a) (·.right)
    return .again (m, next)

/-- `flatten(root)` in place. -/
def InPlace.flatten (n : Nat) (m : Cells) (root : Ptr) : Option Cells := loop (spliceRound n) n (m, root)

open Mem

/-! ## Flat lists -/

/-- The left pointers of the nodes are null, and each right pointer leads to the next node, that of the last one to `q`. -/
def Flat (m : Cells) : List (Addr × Int) → Ptr → Prop
  | [], _ => True
  | x :: xs, q => m x.1 = some ⟨x.2, none, start xs q⟩ ∧ Flat m xs q

variable {m m' m₀ : Cells} {t l r u : Tree} {ts : List Tree} {done all xs ys : List (Addr × Int)} {x : Addr × Int} {q : Ptr} {n : Nat} {s : State}

theorem flat_append : Flat m (xs ++ ys) q ↔ Flat m xs (start ys q) ∧ Flat m ys q := by
  induction xs with
  | nil => exact (and_iff_right trivial).symm
  | cons x xs ih => rw [cons_append, Flat, Flat, ih, start_append, and_assoc]

theorem Flat.congr (h : Flat m xs q) (hm : ∀ x ∈ xs, m' x.1 = m x.1) : Flat m' xs q := by
  induction xs with
  | nil => trivial
  | cons x xs ih =>
    obtain ⟨hx, hxs⟩ := h
    refine ⟨?_, ih hxs fun y hy => hm y (mem_cons_of_mem x hy)⟩
    rw [hm x mem_cons_self, hx]

theorem Flat.unique (h : Flat m xs q) (h' : Flat m' xs q) (hx : x ∈ xs) : m x.1 = m' x.1 := by
  induction xs with
  | nil => cases hx
  | cons y xs ih =>
    rcases mem_cons.1 hx with rfl | hx
    · rw [h.1, h'.1]
    · exact ih h.2 h'.2 hx

theorem mem_addrs (h : x ∈ preorder t) : x.1 ∈ addrs t := mem_map_of_mem ((preorder_perm_inorder t).subset h)

theorem holds_congr (h : m.Holds t q) (hm : ∀ x ∈ preorder t, m' x.1 = m x.1) : m'.Holds t q := by
  refine h.congr ?_
  intro a ha
  obtain ⟨x, hx, rfl⟩ := mem_map.1 ha
  exact hm x ((preorder_perm_inorder t).symm.subset hx)

theorem start_preorder (t : Tree) (q : Ptr) : start (preorder t) q = entry t q := by
  cases t with
  | nil => rfl
  | node x l r => rfl

/-! ## The stack -/

/-- What waits after a right subtree was pushed. -/
def pushed (r : Tree) (ts : List Tree) : List Tree :=
  match r with
  | .nil => ts
  | .node x l r => .node x l r :: ts

theorem flatMap_pushed (r : Tree) (ts : List Tree) : (pushed r ts).flatMap preorder = preorder r ++ ts.flatMap preorder := by
  cases r with
  | nil => rfl
  | node x l r => rfl

/-- The trees that wait are in memory and not empty, and the stack points to them. -/
structure Waiting (m : Cells) (ts : List Tree) (stack : List Ptr) : Prop where
  holds : ∀ u ∈ ts, m.Holds u none
  ne_nil : ∀ u ∈ ts, u ≠ .nil
  stack : stack = ts.map (entry · none)

theorem Waiting.pushed {stack : List Ptr} (h : Waiting m ts stack) (hr : m.Holds r none) :
    Waiting m (pushed r ts) (if entry r none = none then stack else entry r none :: stack) := by
  cases r with
  | nil => exact h
  | node x l r =>
    refine ⟨?_, ?_, ?_⟩
    · intro u hu
      rcases mem_cons.1 hu with rfl | hu
      · exact hr
      · exact h.holds u hu
    · intro u hu
      rcases mem_cons.1 hu with rfl | hu
      · simp
      · exact h.ne_nil u hu
    · rw [h.stack]
      rfl

theorem Waiting.congr {stack : List Ptr} (h : Waiting m ts stack) (hm : ∀ x ∈ ts.flatMap preorder, m' x.1 = m x.1) : Waiting m' ts stack :=
  ⟨fun u hu => holds_congr (h.holds u hu) fun x hx => hm x (mem_flatMap.2 ⟨u, hu, hx⟩), h.ne_nil, h.stack⟩

/-- The state when the walk comes to the tree `t`: the nodes `done` lead to it, and the trees `ts` wait. -/
structure Ready (m₀ : Cells) (all done : List (Addr × Int)) (t : Tree) (ts : List Tree) (s : State) : Prop where
  flat : Flat s.m done (entry t none)
  tree : s.m.Holds t none
  waiting : Waiting s.m ts s.mystack
  tmp : s.tmp = entry t none
  order : done ++ (preorder t ++ ts.flatMap preorder) = all
  frame : ∀ a, a ∉ all.map Prod.fst → s.m a = m₀ a

/-- The state when the walk stops at a node without a left subtree. -/
structure Paused (m₀ : Cells) (all done : List (Addr × Int)) (x : Addr × Int) (ts : List Tree) (s : State) : Prop where
  flat : Flat s.m done (some x.1)
  cell : ∃ q, s.m x.1 = some ⟨x.2, none, q⟩ ∧ (ts = [] → q = none)
  waiting : Waiting s.m ts s.mystack
  tmp : s.tmp = some x.1
  order : done ++ x :: ts.flatMap preorder = all
  frame : ∀ a, a ∉ all.map Prod.fst → s.m a = m₀ a

/-- A node of a list without repeated addresses is not at the address of another one. -/
theorem ne_of_split (hnd : (all.map fst).Nodup) (hall : xs ++ x :: ys = all) : (∀ y ∈ xs, y.1 ≠ x.1) ∧ ∀ y ∈ ys, y.1 ≠ x.1 := by grind

theorem mem_of_split (hall : xs ++ x :: ys = all) : x.1 ∈ all.map fst := by
  rw [← hall]
  simp

theorem descendRound_left (hnd : (all.map fst).Nodup) (hl : l ≠ .nil) (h : Ready m₀ all done (.node x l r) ts s) :
    ∃ s', descendRound s = some (.again s') ∧ Ready m₀ all (done ++ [x]) l (pushed r ts) s' := by
  obtain ⟨hx, hleft, hr⟩ := h.tree
  have hentry : ∃ b, entry l none = some b := by
    cases l with
    | nil => exact absurd rfl hl
    | node y ll lr => exact ⟨y.1, rfl⟩
  obtain ⟨b, hb⟩ := hentry
  have horder : done ++ x :: (preorder l ++ (pushed r ts).flatMap preorder) = all := by
    rw [flatMap_pushed, ← h.order]
    simp
  obtain ⟨hdone, hrest⟩ := ne_of_split hnd horder
  have hwait := h.waiting.pushed hr
  refine ⟨⟨update s.m x.1 (some ⟨x.2, none, entry l none⟩), entry l none, _⟩, ?_, ?_, ?_, hwait.congr ?_, rfl, ?_, ?_⟩
  · have hfst : (update s.m x.1 (some ⟨x.2, entry l none, entry l none⟩)) x.1 = some ⟨x.2, entry l none, entry l none⟩ := update_self ..
    have hsnd : (update s.m x.1 (some ⟨x.2, none, entry l none⟩)) x.1 = some ⟨x.2, none, entry l none⟩ := update_self ..
    simp only [descendRound, h.tmp, entry_node, read_of_some hx, bind_eq_bind, bind_some, hb, write_of_some hx]
    simp only [hb] at hfst hsnd
    simp only [write_of_some hfst, bind_some, update_idem, read_of_some hsnd]
    rfl
  · rw [flat_append]
    refine ⟨h.flat.congr fun y hy => update_of_ne (hdone y hy) .., ?_, trivial⟩
    exact update_self ..
  · exact holds_congr hleft fun y hy => update_of_ne (hrest y (mem_append_left _ hy)) ..
  · exact fun y hy => update_of_ne (hrest y (mem_append_right _ hy)) ..
  · rw [append_assoc]
    exact horder
  · intro a ha
    have hne : a ≠ x.1 := by
      rintro rfl
      exact ha (mem_of_split horder)
    exact (update_of_ne hne ..).trans (h.frame a ha)

theorem descendRound_stop (h : Ready m₀ all done (.node x .nil r) ts s) :
    ∃ s', descendRound s = some (.stop s') ∧ Paused m₀ all done x (pushed r ts) s' := by
  obtain ⟨hx, -, hr⟩ := h.tree
  refine ⟨{ s with mystack := if entry r none = none then s.mystack else entry r none :: s.mystack }, ?_, h.flat, ?_,
    h.waiting.pushed hr, h.tmp, ?_, h.frame⟩
  · simp only [descendRound, h.tmp, entry_node, read_of_some hx, entry_nil]
    rfl
  · refine ⟨_, hx, ?_⟩
    cases r with
    | nil => exact fun _ => rfl
    | node y rl rr => exact fun hnil => absurd hnil (cons_ne_nil _ _)
  · rw [flatMap_pushed, ← h.order]
    simp

section

variable (hnd : (all.map fst).Nodup) (ht : t ≠ .nil) (h : Ready m₀ all done t ts s) (hn : t.numNodes < n)

include hnd ht h hn

theorem loop_descend :
    ∃ s' done' x ts', loop descendRound n s = some s' ∧ Paused m₀ all done' x ts' s' ∧ done.length ≤ done'.length := by
  induction t generalizing done ts s n with
  | nil => exact absurd rfl ht
  | node x l r ihl _ =>
    obtain ⟨n, rfl⟩ : ∃ k, n = k + 1 := ⟨n - 1, by omega⟩
    by_cases hl : l = .nil
    · subst hl
      obtain ⟨s', hrd, hpause⟩ := descendRound_stop h
      exact ⟨s', done, x, _, loop_of_stop hrd n, hpause, Nat.le_refl _⟩
    · obtain ⟨s1, hrd, hready⟩ := descendRound_left hnd hl h
      have hlt : l.numNodes < n := by
        rw [BinaryTree.numNodes] at hn
        omega
      obtain ⟨s', done', y, ts', hloop, hpause, hle⟩ := ihl hl hready hlt
      refine ⟨s', done', y, ts', by rw [loop_of_again hrd, hloop], hpause, ?_⟩
      rw [length_append] at hle
      omega

theorem popRound_spec :
    (∃ m, popRound n s = some (.stop m) ∧ Flat m all none ∧ ∀ a, a ∉ all.map fst → m a = m₀ a) ∨
      ∃ s' done' u ts', popRound n s = some (.again s') ∧ u ≠ .nil ∧ Ready m₀ all done' u ts' s' ∧ done.length < done'.length := by
  obtain ⟨s1, done1, x, ts1, hl, hpause, hle⟩ := loop_descend hnd ht h hn
  obtain ⟨q, hx, hq⟩ := hpause.cell
  cases ts1 with
  | nil =>
    refine Or.inl ⟨s1.m, ?_, ?_, hpause.frame⟩
    · simp only [popRound, hl, bind_eq_bind, bind_some, hpause.waiting.stack]
      rfl
    · have horder : done1 ++ [x] = all := hpause.order
      rw [← horder, flat_append]
      refine ⟨hpause.flat, ?_, trivial⟩
      rw [hx, hq rfl]
      rfl
  | cons u ts2 =>
    obtain ⟨hdone, hr⟩ := ne_of_split hnd hpause.order
    have hself : (update s1.m x.1 (some ⟨x.2, none, entry u none⟩)) x.1 = some ⟨x.2, none, entry u none⟩ := update_self ..
    have hwait : Waiting (update s1.m x.1 (some ⟨x.2, none, entry u none⟩)) (u :: ts2) s1.mystack :=
      hpause.waiting.congr fun y hy => update_of_ne (hr y hy) ..
    refine Or.inr ⟨⟨_, entry u none, ts2.map (entry · none)⟩, done1 ++ [x], u, ts2, ?_, hwait.ne_nil u mem_cons_self,
      ⟨?_, hwait.holds u mem_cons_self, ?_, rfl, ?_, ?_⟩, ?_⟩
    · simp only [popRound, hl, bind_eq_bind, bind_some, hpause.waiting.stack, map_cons, hpause.tmp, write_of_some hx, read_of_some hself]
      rfl
    · rw [flat_append]
      exact ⟨hpause.flat.congr fun y hy => update_of_ne (hdone y hy) .., hself, trivial⟩
    · exact ⟨fun v hv => hwait.holds v (mem_cons_of_mem u hv), fun v hv => hwait.ne_nil v (mem_cons_of_mem u hv), rfl⟩
    · rw [append_assoc, singleton_append, ← hpause.order, flatMap_cons]
    · intro a ha
      have hne : a ≠ x.1 := by
        rintro rfl
        exact ha (mem_of_split hpause.order)
      exact (update_of_ne hne ..).trans (hpause.frame a ha)
    · rw [length_append, length_singleton]
      omega

end

theorem Ready.numNodes_le (h : Ready m₀ all done t ts s) : done.length + t.numNodes ≤ all.length := by
  have := congrArg length h.order
  rw [length_append, length_append, length_preorder] at this
  omega

theorem loop_pop (hnd : (all.map fst).Nodup) (ht : t ≠ .nil) (h : Ready m₀ all done t ts s) (hn : all.length < n) {j : Nat}
    (hj : all.length - done.length < j) :
    ∃ m, loop (popRound n) j s = some m ∧ Flat m all none ∧ ∀ a, a ∉ all.map fst → m a = m₀ a := by
  induction j generalizing done t ts s with
  | zero => omega
  | succ j ih =>
    have hle := h.numNodes_le
    rcases popRound_spec hnd ht h (by omega : t.numNodes < n) with ⟨m, hrd, hflat, hfr⟩ | ⟨s', done', u, ts', hrd, hu, hready, hlt⟩
    · exact ⟨m, loop_of_stop hrd j, hflat, hfr⟩
    · rw [loop_of_again hrd]
      have hle' := hready.numNodes_le
      exact ih hu hready (by omega)

theorem stack_flatten (h : m.Holds t none) (hnd : ((preorder t).map fst).Nodup) (hn : t.numNodes < n) :
    ∃ m', Stack.flatten n m (entry t none) = some m' ∧ Flat m' (preorder t) none ∧ ∀ a, a ∉ (preorder t).map fst → m' a = m a := by
  by_cases ht : t = .nil
  · subst ht
    obtain ⟨n, rfl⟩ : ∃ k, n = k + 1 := ⟨n - 1, by omega⟩
    refine ⟨m, loop_of_stop ?_ n, trivial, fun _ _ => rfl⟩
    rfl
  · have hst : Ready m (preorder t) [] t [] ⟨m, entry t none, []⟩ := ⟨trivial, h, ⟨by simp, by simp, rfl⟩, rfl, by simp, fun _ _ => rfl⟩
    rw [← length_preorder] at hn
    exact loop_pop hnd ht hst hn (by simpa using hn)

/-! ## In place -/

/-- The tree `r` below the last node of the right spine. -/
def graft : Tree → Tree → Tree
  | .nil, r => r
  | .node x l l', r => .node x l (graft l' r)

theorem preorder_graft (l r : Tree) : preorder (graft l r) = preorder l ++ preorder r := by
  induction l with
  | nil => rfl
  | node x l l' _ ih => simp [graft, ih]

theorem entry_graft (l r : Tree) (q : Ptr) : entry (graft l r) q = entry l (entry r q) := by
  cases l with
  | nil => rfl
  | node x l l' => rfl

theorem holds_graft (hl : m.Holds l (entry r q)) (hr : m.Holds r q) : m.Holds (graft l r) q := by
  induction l with
  | nil => exact hr
  | node x l l' _ ih =>
    obtain ⟨hx, hleft, hright⟩ := hl
    refine ⟨?_, hleft, ih hright⟩
    rw [entry_graft]
    exact hx

theorem loop_mostRight (h : m.Holds l none) (hl : l ≠ .nil) (hn : l.numNodes < n) : loop (mostRightRound m) n (entry l none) = some (rightEnd l) := by
  induction l generalizing n with
  | nil => exact absurd rfl hl
  | node x l l' _ ih =>
    obtain ⟨hx, -, hr⟩ := h
    obtain ⟨n, rfl⟩ : ∃ k, n = k + 1 := ⟨n - 1, by omega⟩
    have hread : m.read (some x.1) (·.right) = some (entry l' none) := read_of_some hx _
    cases l' with
    | nil =>
      refine loop_of_stop ?_ n
      rw [entry_node, mostRightRound, hread]
      rfl
    | node y u v =>
      have hlt : (BinaryTree.node y u v).numNodes < n := by
        rw [BinaryTree.numNodes] at hn
        omega
      have hagain : mostRightRound m (entry (.node x l (.node y u v)) none) = some (.again (entry (.node y u v) none)) := by
        rw [entry_node, mostRightRound, hread]
        rfl
      rw [loop_of_again hagain, ih hr (by simp) hlt]
      rfl

theorem splice_spec (h : m.Holds (.node x l r) none) (hnd : ((preorder (.node x l r)).map fst).Nodup) (hl : l ≠ .nil) (hn : l.numNodes < n) :
    ∃ m', splice n m x.1 = some m' ∧ m' x.1 = some ⟨x.2, none, entry (graft l r) none⟩ ∧ m'.Holds (graft l r) none ∧
      ∀ a, a ∉ (preorder (.node x l r)).map fst → m' a = m a := by
  obtain ⟨hx, hleft, hr⟩ := h
  rw [preorder_node, map_cons, map_append, nodup_cons, mem_append, not_or, nodup_append] at hnd
  obtain ⟨⟨hxl, hxr⟩, hndl, -, hlr⟩ := hnd
  have haddrs : ∀ (u : Tree) a, a ∈ addrs u ↔ a ∈ (preorder u).map fst := fun u a => ((preorder_perm_inorder u).map fst).mem_iff.symm
  obtain ⟨b, c, hend, hb, hc, hnull, hspliced⟩ := hleft.rightEnd hl (((preorder_perm_inorder l).map fst).nodup_iff.1 hndl)
  rw [haddrs] at hb
  have hxb : x.1 ≠ b := by
    rintro rfl
    exact hxl hb
  obtain ⟨m1, hm1⟩ : ∃ m1 : Cells, m1 = update m b (some { c with right := entry r none }) := ⟨_, rfl⟩
  have hx1 : m1 x.1 = some ⟨x.2, entry l none, entry r none⟩ := by rw [hm1, update_of_ne hxb, hx]
  have hself : (update m1 x.1 (some ⟨x.2, entry l none, entry l none⟩)) x.1 = some ⟨x.2, entry l none, entry l none⟩ := update_self ..
  have hgraft : m1.Holds (graft l r) none := by
    refine holds_graft ?_ ?_
    · rw [hm1]
      exact hspliced _
    · refine holds_congr hr ?_
      intro y hy
      rw [hm1]
      exact update_of_ne (fun heq => hlr _ hb _ (mem_map_of_mem hy) heq.symm) ..
  have hentry : entry (graft l r) none = entry l none := by
    cases l with
    | nil => exact absurd rfl hl
    | node y u v => rfl
  refine ⟨update m1 x.1 (some ⟨x.2, none, entry l none⟩), ?_, ?_, ?_, ?_⟩
  · unfold splice
    simp only [read_of_some hx, bind_eq_bind, bind_some, loop_mostRight hleft hl hn, hend, write_of_some hc]
    rw [← hm1]
    simp only [read_of_some hx1, bind_some, write_of_some hx1, write_of_some hself, update_idem]
  · rw [update_self, hentry]
  · refine holds_congr hgraft ?_
    intro y hy
    refine update_of_ne ?_ ..
    intro heq
    rw [preorder_graft, mem_append] at hy
    rcases hy with hy | hy
    · exact hxl (heq ▸ mem_map_of_mem hy)
    · exact hxr (heq ▸ mem_map_of_mem hy)
  · intro a ha
    rw [preorder_node, map_cons, mem_cons, map_append, mem_append, not_or, not_or] at ha
    have hab : a ≠ b := by
      rintro rfl
      exact ha.2.1 hb
    rw [update_of_ne ha.1, hm1, update_of_ne hab]

/-- The state when the walk comes to the tree `t`. -/
structure Current (m₀ : Cells) (all done : List (Addr × Int)) (t : Tree) (s : Cells × Ptr) : Prop where
  flat : Flat s.1 done (entry t none)
  tree : s.1.Holds t none
  root : s.2 = entry t none
  order : done ++ preorder t = all
  frame : ∀ a, a ∉ all.map Prod.fst → s.1 a = m₀ a

theorem spliceRound_spec {s : Cells × Ptr} (hnd : (all.map fst).Nodup) (h : Current m₀ all done (.node x l r) s) (hn : l.numNodes < n) :
    ∃ s', spliceRound n s = some (.again s') ∧ Current m₀ all (done ++ [x]) (graft l r) s' := by
  obtain ⟨hx, hleft, hr⟩ := h.tree
  have horder : (done ++ [x]) ++ preorder (graft l r) = all := by
    rw [preorder_graft, ← h.order, preorder_node, append_assoc, singleton_append]
  by_cases hl : l = .nil
  · subst hl
    refine ⟨(s.1, entry r none), ?_, ?_, hr, rfl, horder, h.frame⟩
    · simp only [spliceRound, h.root, entry_node, read_of_some hx, bind_eq_bind, bind_some, entry_nil]
      rfl
    · rw [flat_append]
      exact ⟨h.flat, hx, trivial⟩
  · have hentry : entry l none ≠ none := by
      cases l with
      | nil => exact absurd rfl hl
      | node y u v => exact some_ne_none _
    have hsp := hnd
    rw [← h.order, map_append, nodup_append] at hsp
    obtain ⟨-, hndt, hdone⟩ := hsp
    obtain ⟨m', hrun, hx', hgraft, hfr⟩ := splice_spec h.tree hndt hl hn
    refine ⟨(m', entry (graft l r) none), ?_, ?_, hgraft, rfl, horder, ?_⟩
    · simp only [spliceRound, h.root, entry_node, read_of_some hx, bind_eq_bind, bind_some, if_neg hentry, hrun, read_of_some hx']
      rfl
    · rw [flat_append]
      refine ⟨h.flat.congr ?_, hx', trivial⟩
      intro y hy
      exact hfr _ fun hmem => hdone _ (mem_map_of_mem hy) _ hmem rfl
    · intro a ha
      refine (hfr a ?_).trans (h.frame a ha)
      intro hmem
      apply ha
      rw [← h.order, map_append]
      exact mem_append_right _ hmem

theorem loop_splice {s : Cells × Ptr} (hnd : (all.map fst).Nodup) (h : Current m₀ all done t s) (hn : all.length < n) {j : Nat}
    (hj : t.numNodes < j) : ∃ m, loop (spliceRound n) j s = some m ∧ Flat m all none ∧ ∀ a, a ∉ all.map fst → m a = m₀ a := by
  induction j generalizing done t s with
  | zero => omega
  | succ j ih =>
    cases t with
    | nil =>
      refine ⟨s.1, loop_of_stop ?_ j, ?_, h.frame⟩
      · simp only [spliceRound, h.root, entry_nil]
      · have horder : done = all := by rw [← h.order, preorder_nil, append_nil]
        rw [← horder]
        exact h.flat
    | node x l r =>
      have hlen := congrArg length h.order
      rw [length_append, length_preorder] at hlen
      rw [BinaryTree.numNodes] at hlen hj
      obtain ⟨s', hrd, hnext⟩ := spliceRound_spec hnd h (by omega : l.numNodes < n)
      rw [loop_of_again hrd]
      refine ih hnext ?_
      have hgraft := congrArg length (preorder_graft l r)
      rw [length_append, length_preorder, length_preorder, length_preorder] at hgraft
      omega

theorem inPlace_flatten (h : m.Holds t none) (hnd : ((preorder t).map fst).Nodup) (hn : t.numNodes < n) :
    ∃ m', InPlace.flatten n m (entry t none) = some m' ∧ Flat m' (preorder t) none ∧ ∀ a, a ∉ (preorder t).map fst → m' a = m a := by
  have hst : Current m (preorder t) [] t (m, entry t none) := ⟨trivial, h, rfl, rfl, fun _ _ => rfl⟩
  refine loop_splice hnd hst ?_ hn
  rwa [length_preorder]

/-- Both versions leave the same memory, in which the nodes are a flat list in preorder from the root on and everything else is as it was. -/
theorem flatten_agree {m : Cells} {t : Tree} {n : Nat} (h : m.Holds t none) (hnd : (addrs t).Nodup) (hn : t.numNodes < n) :
    ∃ m', Stack.flatten n m (entry t none) = some m' ∧ InPlace.flatten n m (entry t none) = some m' ∧
      entry t none = start (preorder t) none ∧ Flat m' (preorder t) none ∧ ∀ a, a ∉ addrs t → m' a = m a := by
  have hperm := (preorder_perm_inorder t).map fst
  have hnd' : ((preorder t).map fst).Nodup := hperm.nodup_iff.2 hnd
  obtain ⟨m1, hrun1, hflat1, hframe1⟩ := stack_flatten h hnd' hn
  obtain ⟨m2, hrun2, hflat2, hframe2⟩ := inPlace_flatten h hnd' hn
  have hsame : m2 = m1 := by
    funext a
    by_cases ha : a ∈ (preorder t).map fst
    · obtain ⟨x, hx, rfl⟩ := mem_map.1 ha
      exact hflat2.unique hflat1 hx
    · rw [hframe1 a ha, hframe2 a ha]
  refine ⟨m1, hrun1, hsame ▸ hrun2, (start_preorder t none).symm, hflat1, ?_⟩
  intro a ha
  exact hframe1 a fun hmem => ha (hperm.mem_iff.1 hmem)

/-- A root with two children, the left one with a child of its own on the right. -/
def fourNodes : Cells
  | 1 => some ⟨10, some 2, some 3⟩
  | 2 => some ⟨20, none, some 4⟩
  | 3 => some ⟨30, none, none⟩
  | 4 => some ⟨40, none, none⟩
  | _ => none

def fourTree : Tree := .node (1, 10) (.node (2, 20) .nil (.node (4, 40) .nil .nil)) (.node (3, 30) .nil .nil)

theorem flatten_agree_four : ∃ m', Stack.flatten 5 fourNodes (some 1) = some m' ∧ InPlace.flatten 5 fourNodes (some 1) = some m' ∧
    some 1 = start (preorder fourTree) none ∧ Flat m' (preorder fourTree) none ∧ ∀ a, a ∉ addrs fourTree → m' a = fourNodes a := by
  have hholds : fourNodes.Holds fourTree none := ⟨rfl, ⟨rfl, trivial, rfl, trivial, trivial⟩, rfl, trivial, trivial⟩
  exact flatten_agree hholds (by decide) (by decide)

end CsLearning.LeetCode.FlattenTree
