import CsLearning.Lib.Cpp
import CsLearning.Lib.Loop
import CsLearning.Lib.TreeCells

/-!
# Recovering a search tree

Problem 99, with the traversal that needs no stack. Before the loop goes down into the left subtree of `cur`, it lets the last node of
that subtree point back to `cur`; when it comes to `cur` the second time it takes this thread out again. Two keys of a search tree that have been exchanged
show as one or two inversions between neighbours of the inorder sequence.

A round of the model is a round of the outer or of the inner loop. Following a null pointer has no outcome.
-/

open List Function

namespace CsLearning.LeetCode.RecoverTree

/-! ## The function of the source -/

/-- Where the loops stand: at the head of the outer one, or at the head of the inner one with the variable `find`. -/
inductive Phase where
  | outer
  | search (find : Ptr)

/-- The variables, and the nodes that `pre` has pointed to. -/
structure Vars where
  mem : Mem (TreeCell CInt)
  cur : Ptr
  phase : Phase
  s1 : Ptr
  s2 : Ptr
  pre : Ptr
  visited : List Addr

/-- The comparison of `cur` with `pre`, and `pre = cur`. -/
def visit (x : Vars) (cur : Addr) : Option Vars :=
  match x.pre with
  | none => some { x with pre := some cur, visited := x.visited ++ [cur] }
  | some pre => do
    let v ← x.mem.read (some cur) TreeCell.val
    let w ← x.mem.read (some pre) TreeCell.val
    if v.1 < w.1 then
      let s1 := if x.s1 = none then some pre else x.s1
      return { x with s1 := s1, s2 := some cur, pre := some cur, visited := x.visited ++ [cur] }
    else return { x with pre := some cur, visited := x.visited ++ [cur] }

/-- The exchange of the two values at the end. -/
def finish (x : Vars) : Option Vars := do
  let t ← x.mem.read x.s1 TreeCell.val
  let w ← x.mem.read x.s2 TreeCell.val
  let mem ← x.mem.write x.s1 fun c => { c with val := w }
  let mem ← mem.write x.s2 fun c => { c with val := t }
  return { x with mem := mem }

def recoverRound (x : Vars) : Option (Round Vars Vars) :=
  match x.cur, x.phase with
  | none, _ => (finish x).map .stop
  | some cur, .outer => do
    let find ← x.mem.read (some cur) TreeCell.left
    if find ≠ none then return .again { x with phase := .search find }
    else
      let x ← visit x cur
      let right ← x.mem.read (some cur) TreeCell.right
      return .again { x with cur := right }
  | some cur, .search find => do
    let next ← x.mem.read find TreeCell.right
    if next ≠ none ∧ next ≠ some cur then return .again { x with phase := .search next }
    else if next = none then
      let mem ← x.mem.write find fun c => { c with right := some cur }
      let left ← mem.read (some cur) TreeCell.left
      return .again { x with mem := mem, cur := left, phase := .outer }
    else
      let x ← visit x cur
      let mem ← x.mem.write find fun c => { c with right := none }
      let right ← mem.read (some cur) TreeCell.right
      return .again { x with mem := mem, cur := right, phase := .outer }

/-- `recoverTree(root)`, in at most `n` rounds: the memory it leaves and the nodes it has visited. -/
def recoverTree (n : Nat) (mem : Mem (TreeCell CInt)) (root : Ptr) : Option (Mem (TreeCell CInt) × List Addr) :=
  if root = none then some (mem, [])
  else (loop recoverRound n ⟨mem, root, .outer, none, none, none, []⟩).map fun x => (x.mem, x.visited)

/-! ## What has been seen -/

/-- What a traversal knows of the nodes it has visited; `pre` is kept with its value. -/
structure Seen where
  s1 : Ptr
  s2 : Ptr
  pre : Option (Addr × CInt)
  visited : List Addr

/-- Before the first node. -/
def Seen.start : Seen := ⟨none, none, none, []⟩

/-- The node `n` comes after one with a greater value. -/
def Seen.inverts (f : Seen) (n : Addr × CInt) : Bool := f.pre.any fun p => n.2.1 < p.2.1

/-- One more node. -/
def Seen.note (f : Seen) (n : Addr × CInt) : Seen :=
  if f.inverts n then ⟨if f.s1 = none then f.pre.map Prod.fst else f.s1, some n.1, some n, f.visited ++ [n.1]⟩
  else ⟨f.s1, f.s2, some n, f.visited ++ [n.1]⟩

/-- The value of `pre` is that in the memory. -/
def Seen.In (f : Seen) (m : Mem (TreeCell CInt)) : Prop := ∀ p, f.pre = some p → m.read (some p.1) TreeCell.val = some p.2

/-- The variables of a traversal. -/
def Seen.vars (f : Seen) (m : Mem (TreeCell CInt)) (cur : Ptr) (phase : Phase) : Vars :=
  ⟨m, cur, phase, f.s1, f.s2, f.pre.map Prod.fst, f.visited⟩

variable {m : Mem (TreeCell CInt)} {f : Seen} {a : Addr} {v : CInt} {cur : Ptr} {phase : Phase}

@[simp] theorem Seen.note_pre (f : Seen) (n : Addr × CInt) : (f.note n).pre = some n := by
  unfold Seen.note
  split <;> rfl

@[simp] theorem Seen.note_visited (f : Seen) (n : Addr × CInt) : (f.note n).visited = f.visited ++ [n.1] := by
  unfold Seen.note
  split <;> rfl

theorem visit_vars (hf : f.In m) (ha : m.read (some a) TreeCell.val = some v) :
    visit (f.vars m cur phase) a = some ((f.note (a, v)).vars m cur phase) := by
  unfold visit Seen.note
  cases hp : f.pre with
  | none => simp [Seen.vars, Seen.inverts, hp]
  | some p =>
    have hr := hf p hp
    by_cases hlt : v < p.2
    · simp [Seen.vars, Seen.inverts, hp, ha, hr, hlt]
    · simp [Seen.vars, Seen.inverts, hp, ha, hr, hlt]

/-! ## The rounds -/

variable {b d : Addr} {c : TreeCell CInt} {q : Ptr}

theorem round_no_left (ha : m a = some c) (hl : c.left = none) (hf : f.In m) :
    recoverRound (f.vars m (some a) .outer) = some (.again ((f.note (a, c.val)).vars m c.right .outer)) := by
  have hval : m.read (some a) TreeCell.val = some c.val := by simp [Mem.read, ha]
  have hleft : m.read (some a) TreeCell.left = some none := by simp [Mem.read, ha, hl]
  have hr : m.read (some a) TreeCell.right = some c.right := by simp [Mem.read, ha]
  have hvisit : visit (f.vars m (some a) .outer) a = some ((f.note (a, c.val)).vars m (some a) .outer) := visit_vars hf hval
  simp only [Seen.vars] at hvisit ⊢
  simp [recoverRound, hleft, hvisit, hr]

theorem round_enter (ha : m a = some c) (hl : c.left = some b) :
    recoverRound (f.vars m (some a) .outer) = some (.again (f.vars m (some a) (.search (some b)))) := by
  simp [recoverRound, Seen.vars, Mem.read, ha, hl]

theorem round_search (hb : m b = some c) (hr : c.right = some d) (hne : d ≠ a) :
    recoverRound (f.vars m (some a) (.search (some b))) = some (.again (f.vars m (some a) (.search (some d)))) := by
  simp [recoverRound, Seen.vars, Mem.read, hb, hr, hne]

/-- The inner loop ends at a null pointer: the thread is put in, and the traversal goes to the left. -/
theorem round_thread {ca : TreeCell CInt} (hb : m b = some c) (hr : c.right = none) (ha : m a = some ca) (hab : a ≠ b) :
    recoverRound (f.vars m (some a) (.search (some b))) = some (.again (f.vars (update m b (some { c with right := some a })) ca.left .outer)) := by
  simp [recoverRound, Seen.vars, Mem.read, Mem.write, hb, hr, hab, ha]

/-- The inner loop ends at a thread: the thread is taken out, the node is visited, and the traversal goes to the right. -/
theorem round_unthread {ca : TreeCell CInt} (hb : m b = some c) (hr : c.right = some a) (ha : m a = some ca) (hab : a ≠ b) (hf : f.In m) :
    recoverRound (f.vars m (some a) (.search (some b))) =
      some (.again ((f.note (a, ca.val)).vars (update m b (some { c with right := none })) ca.right .outer)) := by
  have hval : m.read (some a) TreeCell.val = some ca.val := by simp [Mem.read, ha]
  have hvisit : visit (f.vars m (some a) (.search (some b))) a = some ((f.note (a, ca.val)).vars m (some a) (.search (some b))) := visit_vars hf hval
  simp only [Seen.vars] at hvisit ⊢
  simp [recoverRound, hvisit, Mem.write_of_some hb, Mem.read, ha, hb, hr, hab]

/-- The inner loop goes down the right spine to its last node, whether that is threaded or not. -/
theorem leads_search {l : BinaryTree (Addr × CInt)} (h : m.Holds l q) (hq : q = none ∨ q = some a) (ha : a ∉ addrs l) (hl : l ≠ .nil) :
    Leads recoverRound (f.vars m (some a) (.search (entry l none))) (f.vars m (some a) (.search (rightEnd l))) := by
  induction l with
  | nil => exact absurd rfl hl
  | node x ll lr _ ihr =>
    obtain ⟨hb, -, hr⟩ := h
    cases lr with
    | nil => exact .refl
    | node y rl rr =>
      have hya : y.1 ≠ a := by
        rintro rfl
        simp at ha
      have hrd := round_search (f := f) hb rfl hya
      exact .head hrd (ihr hr (by simp at ha ⊢; tauto) (by simp))

/-! ## The traversal -/

/-- A pointer of one cell changes no value. -/
theorem Seen.In.update (h : f.In m) (hb : m b = some c) (q : Ptr) : f.In (Function.update m b (some { c with right := q })) := by
  intro p hp
  rw [← h p hp]
  by_cases hpb : p.1 = b
  · simp [Mem.read, hpb, hb]
  · simp [Mem.read, hpb]

theorem Seen.In.note (ha : m a = some c) : (f.note (a, c.val)).In m := by
  intro p hp
  rw [Seen.note_pre] at hp
  obtain rfl := Option.some.inj hp
  simp [Mem.read, ha]

variable {t : BinaryTree (Addr × CInt)} {B A C : List (Addr × CInt)} {kx ky : CInt}

/-- The traversal of a tree that ends in the pointer `q` comes to `q` with the nodes noted in order and the memory as it was; the induction
is over the tree. Its left subtree is traversed when its last node is threaded to the root. -/
theorem leads_traversal (h : m.Holds t q) (hnd : (addrs t).Nodup) (hf : f.In m) :
    Leads recoverRound (f.vars m (entry t q) .outer) (((inorder t).foldl Seen.note f).vars m q .outer) ∧ ((inorder t).foldl Seen.note f).In m := by
  induction t generalizing m q f with
  | nil => exact ⟨.refl, hf⟩
  | node x l r ihl ihr =>
    obtain ⟨a, v⟩ := x
    obtain ⟨ha, hl, hr⟩ := h
    rw [addrs_node, nodup_append, nodup_cons] at hnd
    obtain ⟨hndl, ⟨-, hndr⟩, hdisj⟩ := hnd
    rw [inorder_node, foldl_append, foldl_cons]
    cases l with
    | nil =>
      have hnote : (f.note (a, v)).In m := Seen.In.note ha
      obtain ⟨hleads, hin⟩ := ihr hr hndr hnote
      exact ⟨.head (round_no_left ha rfl hf) hleads, hin⟩
    | node y ll lr =>
      obtain ⟨b, c, hend, hmem, hb, hc, hq⟩ := hl.rightEnd (by simp) hndl
      have hab : a ≠ b := (hdisj b hmem a (by simp)).symm
      have hal : a ∉ addrs (.node y ll lr) := fun hmem => hdisj a hmem a (by simp) rfl
      -- down to the last node of the left subtree, which gets its thread
      have hdown := leads_search (f := f) hl (.inl rfl) hal (by simp)
      rw [hend] at hdown
      -- the left subtree
      have hb1 : update m b (some { c with right := some a }) b = some { c with right := some a } := update_self ..
      have ha1 : update m b (some { c with right := some a }) a = some ⟨v, entry (.node y ll lr) none, entry r q⟩ := by
        rw [update_of_ne hab, ha]
      obtain ⟨hleft, hin⟩ := ihl (hq (some a)) hndl (hf.update hb (some a))
      -- down to the last node again, whose thread is taken out
      have hagain := leads_search (f := (inorder (.node y ll lr)).foldl Seen.note f) (hq (some a)) (.inr rfl) hal (by simp)
      rw [hend] at hagain
      have hback := round_unthread hb1 rfl ha1 hab hin
      have hm : update (update m b (some { c with right := some a })) b (some { c with right := none }) = m := by
        rw [update_idem, ← hc, ← hb, update_eq_self]
      simp only [hm] at hback
      -- the right subtree
      obtain ⟨hright, hin'⟩ := ihr hr hndr (Seen.In.note ha)
      refine ⟨?_, hin'⟩
      refine .head (round_enter ha rfl) (hdown.trans (.head (round_thread hb hc ha hab) (hleft.trans ?_)))
      exact .head (round_enter ha1 rfl) (hagain.trans (.head hback hright))

/-! ## The inversions -/

/-- The order of the nodes of a search tree with distinct keys. -/
def Ascending (l : List (Addr × CInt)) : Prop := l.Pairwise fun n n' => n.2.1 < n'.2.1

theorem visited_foldl (l : List (Addr × CInt)) (f : Seen) : (l.foldl Seen.note f).visited = f.visited ++ l.map Prod.fst := by
  induction l generalizing f with
  | nil => simp
  | cons n l ih => simp [ih]

theorem note_of_lt {p n : Addr × CInt} (hp : f.pre = some p) (h : n.2.1 < p.2.1) :
    f.note n = ⟨if f.s1 = none then some p.1 else f.s1, some n.1, some n, f.visited ++ [n.1]⟩ := by
  have hinv : f.inverts n = true := by
    unfold Seen.inverts
    rw [hp]
    exact decide_eq_true h
  unfold Seen.note
  rw [if_pos hinv, hp]
  rfl

/-- Nodes that ascend show no inversion. -/
theorem foldl_ascending {l : List (Addr × CInt)} (h : Ascending (f.pre.toList ++ l)) :
    (l.foldl Seen.note f).s1 = f.s1 ∧ (l.foldl Seen.note f).s2 = f.s2 ∧ (l.foldl Seen.note f).pre = l.getLast?.or f.pre := by
  induction l generalizing f with
  | nil => simp
  | cons n l ih =>
    have hinv : f.inverts n = false := by
      unfold Seen.inverts
      cases hp : f.pre with
      | none => rfl
      | some p =>
        rw [hp] at h
        have hlt := (pairwise_cons.mp h).1 n (by simp)
        exact decide_eq_false (by omega)
    have hnote : f.note n = ⟨f.s1, f.s2, some n, f.visited ++ [n.1]⟩ := by
      unfold Seen.note
      rw [if_neg (by simp [hinv])]
    have ht : Ascending ((f.note n).pre.toList ++ l) := by
      rw [Seen.note_pre]
      exact h.sublist (sublist_append_right ..)
    obtain ⟨h1, h2, h3⟩ := ih ht
    rw [foldl_cons, h1, h2, h3, hnote]
    refine ⟨rfl, rfl, ?_⟩
    rw [getLast?_cons]
    cases l.getLast? <;> rfl

/-- After the greater key at `x` come smaller ones that ascend, and then the least one at `y`. Between neighbours there is one inversion,
else there are two. -/
theorem foldl_inversions {x y : Addr} (hpre : f.pre = some (x, ky)) (hs : f.s1 = none)
    (hB : Ascending B) (hlow : ∀ n ∈ B, kx.1 < n.2.1) (hhigh : ∀ n ∈ B, n.2.1 < ky.1) (hxy : kx.1 < ky.1) :
    ((B ++ [(y, kx)]).foldl Seen.note f).s1 = some x ∧ ((B ++ [(y, kx)]).foldl Seen.note f).s2 = some y ∧
      ((B ++ [(y, kx)]).foldl Seen.note f).pre = some (y, kx) := by
  rw [foldl_append]
  cases B with
  | nil =>
    have hnote := note_of_lt (n := (y, kx)) hpre hxy
    simp [hnote, hs]
  | cons b B =>
    have hnote := note_of_lt hpre (hhigh b (by simp))
    rw [if_pos hs] at hnote
    have hasc : Ascending ((f.note b).pre.toList ++ B) := by
      rw [Seen.note_pre]
      exact hB
    obtain ⟨h1, h2, h3⟩ := foldl_ascending hasc
    -- the last of the nodes in between
    obtain ⟨p, hp, hl⟩ : ∃ p ∈ b :: B, (B.foldl Seen.note (f.note b)).pre = some p := by
      rw [h3, Seen.note_pre]
      cases hB' : B.getLast? with
      | none => exact ⟨b, by simp, rfl⟩
      | some p => exact ⟨p, mem_cons_of_mem b (mem_of_getLast? hB'), rfl⟩
    have hnote' := note_of_lt (n := (y, kx)) hl (hlow p hp)
    rw [foldl_cons, foldl_cons, hnote', h1, hnote]
    simp

/-- Two keys of a search tree that have been exchanged, `x` being the earlier node: the traversal finds these nodes. -/
theorem foldl_exchanged {x y : Addr} (h : Ascending (A ++ (x, kx) :: (B ++ (y, ky) :: C))) :
    ((A ++ (x, ky) :: (B ++ (y, kx) :: C)).foldl Seen.note .start).s1 = some x ∧
      ((A ++ (x, ky) :: (B ++ (y, kx) :: C)).foldl Seen.note .start).s2 = some y := by
  have hsp : A ++ (x, ky) :: (B ++ (y, kx) :: C) = A ++ [(x, ky)] ++ (B ++ [(y, kx)]) ++ C := by simp
  simp only [Ascending, pairwise_append, pairwise_cons, mem_append, mem_cons] at h
  obtain ⟨hA, ⟨hx, hB, ⟨hy, hC⟩, hBC⟩, hAx⟩ := h
  have hxy : kx.1 < ky.1 := hx (y, ky) (by simp)
  -- up to `x` nothing shows
  have hst : Ascending (A ++ [(x, ky)]) := by
    refine pairwise_append.mpr ⟨hA, pairwise_singleton .., ?_⟩
    intro n hn n' hn'
    obtain rfl := mem_singleton.mp hn'
    exact hAx n hn (y, ky) (by simp)
  obtain ⟨h1, -, -⟩ := foldl_ascending (f := .start) hst
  have hpre : ((A ++ [(x, ky)]).foldl Seen.note .start).pre = some (x, ky) := by simp
  -- the inversions
  obtain ⟨h4, h5, h6⟩ := foldl_inversions (y := y) hpre h1 hB (fun n hn => hx n (by simp [hn])) (fun n hn => hBC n hn (y, ky) (by simp)) hxy
  -- after `y` nothing shows
  have hend : Ascending (((B ++ [(y, kx)]).foldl Seen.note ((A ++ [(x, ky)]).foldl Seen.note .start)).pre.toList ++ C) := by
    rw [h6]
    exact pairwise_cons.mpr ⟨fun n hn => hx n (.inr (.inr hn)), hC⟩
  obtain ⟨h7, h8, -⟩ := foldl_ascending hend
  rw [hsp, foldl_append, foldl_append, h7, h8, h4, h5]
  exact ⟨rfl, rfl⟩

/-! ## The whole call -/

/-- The memory in which the values of two nodes have been exchanged. -/
def exchange (m : Mem (TreeCell CInt)) (x y : Addr) : Mem (TreeCell CInt) :=
  match m x, m y with
  | some cx, some cy => Function.update (Function.update m x (some { cx with val := cy.val })) y (some { cy with val := cx.val })
  | _, _ => m

variable {x y : Addr} {cx cy : TreeCell CInt}

theorem exchange_eq (hx : m x = some cx) (hy : m y = some cy) : exchange m x y =
    update (update m x (some { cx with val := cy.val })) y (some { cy with val := cx.val }) := by
  simp [exchange, hx, hy]

theorem exchange_comm (hxy : x ≠ y) : exchange m x y = exchange m y x := by
  unfold exchange
  cases hx : m x with
  | none => cases hy : m y <;> rfl
  | some cx =>
    cases hy : m y with
    | none => rfl
    | some cy => exact (update_comm hxy ..)

theorem exchange_exchange (hx : m x = some cx) (hy : m y = some cy) (hxy : x ≠ y) : exchange (exchange m x y) x y = m := by
  have hy' : exchange m x y y = some { cy with val := cx.val } := by
    rw [exchange_eq hx hy]
    exact update_self ..
  have hx' : exchange m x y x = some { cx with val := cy.val } := by
    rw [exchange_eq hx hy, update_of_ne hxy]
    exact update_self ..
  rw [exchange_eq hx' hy', exchange_eq hx hy]
  funext b
  by_cases hby : b = y
  · subst hby
    simp [hy]
  · by_cases hbx : b = x
    · subst hbx
      simp [hby, hx]
    · simp [hby, hbx]

theorem finish_vars (hx : m x = some cx) (hy : m y = some cy) (hxy : x ≠ y) (h1 : f.s1 = some x) (h2 : f.s2 = some y) :
    finish (f.vars m none .outer) = some (f.vars (exchange m x y) none .outer) := by
  have hy' : update m x (some { cx with val := cy.val }) y = some cy := by
    rw [update_of_ne hxy.symm, hy]
  rw [exchange_eq hx hy]
  simp [finish, Seen.vars, h1, h2, Mem.read, hx, hy, Mem.write_of_some hx, Mem.write_of_some hy']

/-- The key of a node after the exchange of `kx` and `ky`. -/
def exchangedKey (x y : Addr) (kx ky : CInt) (n : Addr × CInt) : CInt := if n.1 = x then ky else if n.1 = y then kx else n.2

theorem holds_exchange (hm : m.Holds t none) (hx : m x = some cx) (hy : m y = some cy) (hxy : x ≠ y) :
    (exchange m x y).Holds (t.map fun n => (n.1, exchangedKey x y cx.val cy.val n)) none := by
  apply hm.revalue
  intro n hn
  obtain ⟨c, hc, hval⟩ := hm.exists_cell hn
  rw [exchange_eq hx hy]
  unfold exchangedKey
  by_cases hnx : n.1 = x
  · simp [hnx, hxy, hx]
  · by_cases hny : n.1 = y
    · simp [hny, hxy.symm, hy]
    · simp [hnx, hny, hc, ← hval]

theorem map_exchangedKey (hnd : ((A ++ (x, kx) :: (B ++ (y, ky) :: C)).map Prod.fst).Nodup) :
    (A ++ (x, kx) :: (B ++ (y, ky) :: C)).map (fun n => (n.1, exchangedKey x y kx ky n)) = A ++ (x, ky) :: (B ++ (y, kx) :: C) := by
  have hother : ∀ D : List (Addr × CInt), x ∉ D.map Prod.fst → y ∉ D.map Prod.fst → D.map (fun n => (n.1, exchangedKey x y kx ky n)) = D := by
    intro D hx hy
    have hself : ∀ n ∈ D, (n.1, exchangedKey x y kx ky n) = n := by
      intro n hn
      have hnx : n.1 ≠ x := fun h => hx (h ▸ mem_map_of_mem hn)
      have hny : n.1 ≠ y := fun h => hy (h ▸ mem_map_of_mem hn)
      rw [exchangedKey, if_neg hnx, if_neg hny]
    rw [map_congr_left hself, map_id']
  simp only [map_append, map_cons, nodup_append, nodup_cons, mem_append, mem_cons, not_or] at hnd
  obtain ⟨hA, ⟨⟨hxB, hxy, hxC⟩, hB, ⟨hyC, hC⟩, hBC⟩, hAx⟩ := hnd
  have hxA : x ∉ A.map Prod.fst := fun h => hAx x h x (.inl rfl) rfl
  have hyA : y ∉ A.map Prod.fst := fun h => hAx y h y (.inr (.inr (.inl rfl))) rfl
  have hyB : y ∉ B.map Prod.fst := fun h => hBC y h y (.inl rfl) rfl
  rw [map_append, map_cons, map_append, map_cons, hother A hxA hyA, hother B hxB hyB, hother C hxC hyC]
  simp [exchangedKey, Ne.symm hxy]

theorem ne_of_nodup (h : ((A ++ (x, kx) :: (B ++ (y, ky) :: C)).map Prod.fst).Nodup) : x ≠ y := by
  rw [map_append] at h
  have hx := (nodup_cons.mp h.of_append_right).1
  rintro rfl
  apply hx
  rw [map_append]
  exact mem_append_cons_self

/-- The call on a search tree two of whose keys have been exchanged, `x` being the earlier node. -/
theorem recoverTree_ordered (hm : m.Holds t none)
    (hnd : (addrs t).Nodup) (ht : inorder t = A ++ (x, kx) :: (B ++ (y, ky) :: C)) (hasc : Ascending (inorder t)) :
    ∃ n, recoverTree n (exchange m x y) (entry t none) = some (m, addrs t) := by
  obtain ⟨cx, hx, rfl⟩ := hm.exists_cell (n := (x, kx)) (by simp [ht])
  obtain ⟨cy, hy, rfl⟩ := hm.exists_cell (n := (y, ky)) (by simp [ht])
  have haddrs : addrs t = (A ++ (x, cx.val) :: (B ++ (y, cy.val) :: C)).map Prod.fst := by rw [addrs, ht]
  have hxy : x ≠ y := ne_of_nodup (haddrs ▸ hnd)
  -- the tree after the exchange
  have hm' := holds_exchange hm hx hy hxy
  obtain ⟨t', ht'⟩ : ∃ t', t' = t.map fun n => (n.1, exchangedKey x y cx.val cy.val n) := ⟨_, rfl⟩
  have hin : inorder t' = A ++ (x, cy.val) :: (B ++ (y, cx.val) :: C) := by
    rw [ht', inorder_map, ht, map_exchangedKey (haddrs ▸ hnd)]
  have haddrs' : addrs t' = addrs t := by
    rw [haddrs, addrs, hin]
    simp
  rw [← ht'] at hm'
  -- the traversal
  obtain ⟨hleads, -⟩ := leads_traversal (f := .start) hm' (haddrs' ▸ hnd) (by simp [Seen.In, Seen.start])
  rw [ht] at hasc
  obtain ⟨h1, h2⟩ := foldl_exchanged hasc
  rw [← hin] at h1 h2
  -- the exchange of the values that were found
  have hx' : exchange m x y x = some { cx with val := cy.val } := by
    rw [exchange_eq hx hy, update_of_ne hxy, update_self]
  have hy' : exchange m x y y = some { cy with val := cx.val } := by
    rw [exchange_eq hx hy, update_self]
  have hfinish := finish_vars hx' hy' hxy h1 h2
  rw [exchange_exchange hx hy hxy] at hfinish
  have hstop : Returns recoverRound (((inorder t').foldl Seen.note .start).vars (exchange m x y) none .outer)
      (((inorder t').foldl Seen.note .start).vars m none .outer) := by
    apply Returns.of_stop
    simp only [Seen.vars] at hfinish ⊢
    simp [recoverRound, hfinish]
  obtain ⟨n, hn⟩ := hstop.of_leads hleads
  have hroot : entry t' none = entry t none := by rw [ht', entry_map]
  have hne : entry t none ≠ none := by
    cases t with
    | nil => simp at ht
    | node z l r => simp
  refine ⟨n, ?_⟩
  rw [hroot] at hn
  unfold recoverTree
  rw [if_neg hne]
  change (loop recoverRound n (Seen.start.vars (exchange m x y) (entry t none) .outer)).map _ = _
  rw [hn]
  simp only [Seen.vars, visited_foldl]
  rw [← haddrs']
  rfl

/-- The exchange changes the values only. -/
theorem part_exchange {β : Type} {g : TreeCell CInt → Option β} (hg : ∀ c w, g { c with val := w } = g c) (hx : m x = some cx)
    (hy : m y = some cy) (hxy : x ≠ y) : (exchange m x y).part g = m.part g := by
  have hy' : update m x (some { cx with val := cy.val }) y = some cy := by
    rw [update_of_ne hxy.symm, hy]
  rw [exchange_eq hx hy, Mem.part_update_eq hy' (hg cy cx.val), Mem.part_update_eq hx (hg cx cy.val)]

theorem perm_exchanged {K : Type} (A B C : List K) (k k' : K) : (A ++ k :: (B ++ k' :: C)).Perm (A ++ k' :: (B ++ k :: C)) := by
  apply Perm.append_left
  have h1 : (k :: (B ++ k' :: C)).Perm (k :: k' :: (B ++ C)) := perm_middle.cons k
  have h2 : (k' :: (B ++ k :: C)).Perm (k' :: k :: (B ++ C)) := perm_middle.cons k'
  exact h1.trans ((Perm.swap k' k _).trans h2.symm)

/-- What is to hold of a call on the memory `m`, at the root of `t`: it returns and has visited every node once and in order. Every pointer is as
it was, and the keys, which are the same, ascend. -/
def Recovers (m : Mem (TreeCell CInt)) (t : BinaryTree (Addr × CInt)) : Prop :=
  ∃ n m', recoverTree n m (entry t none) = some (m', addrs t) ∧
    m'.part TreeCell.left = m.part TreeCell.left ∧ m'.part TreeCell.right = m.part TreeCell.right ∧
    ∃ s s', m.Holds s none ∧ entry s none = entry t none ∧ m'.Holds s' none ∧ entry s' none = entry t none ∧
      Ascending (inorder s') ∧ ((inorder s').map Prod.snd).Perm ((inorder s).map Prod.snd)

theorem recovers_ordered (hm : m.Holds t none)
    (hnd : (addrs t).Nodup) (hbst : Ascending (inorder t)) (ht : inorder t = A ++ (x, kx) :: (B ++ (y, ky) :: C)) :
    Recovers (exchange m x y) t := by
  obtain ⟨n, hn⟩ := recoverTree_ordered hm hnd ht hbst
  obtain ⟨cx, hx, rfl⟩ := hm.exists_cell (n := (x, kx)) (by simp [ht])
  obtain ⟨cy, hy, rfl⟩ := hm.exists_cell (n := (y, ky)) (by simp [ht])
  rw [addrs, ht] at hnd
  have hxy := ne_of_nodup hnd
  refine ⟨n, m, hn, ?_, ?_, _, t, holds_exchange hm hx hy hxy, entry_map .., hm, rfl, hbst, ?_⟩
  · exact (part_exchange (fun _ _ => rfl) hx hy hxy).symm
  · exact (part_exchange (fun _ _ => rfl) hx hy hxy).symm
  · rw [inorder_map, ht, map_exchangedKey hnd]
    simpa using perm_exchanged (A.map Prod.snd) (B.map Prod.snd) (C.map Prod.snd) cx.val cy.val

/-- `recoverTree` recovers every search tree with distinct keys of which the values of two nodes have been exchanged. -/
theorem recoverTree_restores (m : Mem (TreeCell CInt)) (t : BinaryTree (Addr × CInt)) (x y : Addr) (hm : m.Holds t none)
    (hnd : (addrs t).Nodup) (hbst : Ascending (inorder t)) (hx : x ∈ addrs t) (hy : y ∈ addrs t) (hxy : x ≠ y) :
    Recovers (exchange m x y) t := by
  obtain ⟨⟨x, kx⟩, hxin, rfl⟩ := List.mem_map.mp hx
  obtain ⟨⟨y, ky⟩, hyin, rfl⟩ := List.mem_map.mp hy
  obtain ⟨A, D, ht⟩ := append_of_mem hxin
  rw [ht, mem_append, mem_cons] at hyin
  rcases hyin with hyin | hyin | hyin
  · -- `y` comes first
    obtain ⟨A, B, rfl⟩ := append_of_mem hyin
    rw [exchange_comm hxy]
    exact recovers_ordered hm hnd hbst (by simpa using ht)
  · exact absurd (congrArg Prod.fst hyin).symm hxy
  · obtain ⟨B, C, rfl⟩ := append_of_mem hyin
    exact recovers_ordered hm hnd hbst ht

/-- Three nodes: the root at the address 0 and its children. -/
def threeNodes : BinaryTree (Addr × CInt) :=
  .node (0, CInt.clamp 2) (.node (1, CInt.clamp 1) .nil .nil) (.node (2, CInt.clamp 3) .nil .nil)

def threeCells : Mem (TreeCell CInt)
  | 0 => some ⟨CInt.clamp 2, some 1, some 2⟩
  | 1 => some ⟨CInt.clamp 1, none, none⟩
  | 2 => some ⟨CInt.clamp 3, none, none⟩
  | _ => none

theorem recoverTree_restores_three : threeCells.Holds threeNodes none ∧ Recovers (exchange threeCells 1 2) threeNodes := by
  have hm : threeCells.Holds threeNodes none := ⟨rfl, ⟨rfl, trivial, trivial⟩, ⟨rfl, trivial, trivial⟩⟩
  have hbst : Ascending (inorder threeNodes) := by
    unfold Ascending
    decide
  exact ⟨hm, recoverTree_restores threeCells threeNodes 1 2 hm (by decide) hbst (by decide) (by decide) (by decide)⟩

end CsLearning.LeetCode.RecoverTree
