import CsLearning.Lib.Loop
import CsLearning.Lib.Spines

/-!
# Traversals without a stack

The three traversals of `二叉树的Morris遍历算法.md`. They walk in the same way: before the walk goes down into the left subtree of a node it lets the
last node of that subtree point back to the node, and when it comes to the node the second time it takes this thread out again. The versions differ in
what they print where. The post-order version prints the right spine of the left subtree backwards each time a thread is taken out, and that of
the whole tree at the end; to do so it turns the pointers of the spine around and back.
-/

open List Option Function Prod BinaryTree

namespace CsLearning.DsAlgo.MorrisTraversal

variable {V : Type}

/-! ## The code -/

/-- One round of the loop of `reverseEdge`, in which the memory, `head` and `pre` are the variables. -/
def reverseRound : Mem (TreeCell V) × Ptr × Ptr → Option (Round (Mem (TreeCell V) × Ptr × Ptr) (Mem (TreeCell V) × Ptr))
  | (m, head, pre) =>
    if head ≠ none then do
      let next ← m.read head TreeCell.right
      let m ← m.write head fun c => { c with right := pre }
      return .again (m, next, head)
    else some (.stop (m, pre))

/-- `reverseEdge(head)`, with at most `n` rounds of its loop. -/
def reverseEdge (n : Nat) (m : Mem (TreeCell V)) (head : Ptr) : Option (Mem (TreeCell V) × Ptr) := loop reverseRound n (m, head, none)

/-- One round of the loop of `printEdge`: `cur` and what was printed. -/
def printRound (m : Mem (TreeCell V)) : Ptr × List V → Option (Round (Ptr × List V) (List V))
  | (cur, out) =>
    if cur ≠ none then do
      let v ← m.read cur TreeCell.val
      let next ← m.read cur TreeCell.right
      return .again (next, out ++ [v])
    else some (.stop out)

/-- `printEdge(head)`, with at most `n` rounds of each loop: the memory at its end and what was printed. -/
def printEdge (n : Nat) (m : Mem (TreeCell V)) (head : Ptr) : Option (Mem (TreeCell V) × List V) := do
  let (m, lastNode) ← reverseEdge n m head
  let out ← loop (printRound m) n (lastNode, [])
  let (m, _) ← reverseEdge n m lastNode
  return (m, out)

/-- Something that a version does at the node `p1`. -/
abbrev Action (V : Type) := Nat → Mem (TreeCell V) → Addr → Option (Mem (TreeCell V) × List V)

def doNothing : Action V := fun _ m _ => some (m, [])

/-- `cout << p1->val`. -/
def printVal : Action V := fun _ m p1 => do
  let v ← m.read (some p1) TreeCell.val
  return (m, [v])

/-- `printEdge(p1->left)`. -/
def printLeftEdge : Action V := fun n m p1 => do
  let left ← m.read (some p1) TreeCell.left
  printEdge n m left

/-- What a version does after the thread was put in, at a node without left subtree, and after the thread was taken out. -/
structure Version (V : Type) where
  threaded : Action V
  noLeft : Action V
  unthreaded : Action V

/-- The variables of the walk, and what was printed. -/
structure Walk (V : Type) where
  mem : Mem (TreeCell V)
  p1 : Ptr
  out : List V

/-- `while (p2->right != NULL && p2->right != p1) p2 = p2->right;`, with at most `n` rounds. -/
def search (n : Nat) (m : Mem (TreeCell V)) (p1 : Addr) (p2 : Ptr) : Option Ptr :=
  loop (fun p2 => do
    let right ← m.read p2 TreeCell.right
    return if right ≠ none ∧ right ≠ some p1 then .again right else .stop p2) n p2

/-- One round of the outer loop, with at most `n` rounds of each inner loop. -/
def walkRound (ver : Version V) (n : Nat) (w : Walk V) : Option (Round (Walk V) (Mem (TreeCell V) × List V)) :=
  match w.p1 with
  | none => some (.stop (w.mem, w.out))
  | some p1 => do
    let p2 ← w.mem.read (some p1) TreeCell.left
    if p2 ≠ none then
      let p2 ← search n w.mem p1 p2
      let right ← w.mem.read p2 TreeCell.right
      if right = none then
        let m ← w.mem.write p2 fun c => { c with right := some p1 }
        let (m, out) ← ver.threaded n m p1
        let left ← m.read (some p1) TreeCell.left
        return .again ⟨m, left, w.out ++ out⟩
      else
        let m ← w.mem.write p2 fun c => { c with right := none }
        let (m, out) ← ver.unthreaded n m p1
        let right ← m.read (some p1) TreeCell.right
        return .again ⟨m, right, w.out ++ out⟩
    else
      let (m, out) ← ver.noLeft n w.mem p1
      let right ← m.read (some p1) TreeCell.right
      return .again ⟨m, right, w.out ++ out⟩

/-- The walk of a version, with at most `n` rounds of each loop: the memory at its end and what was printed. -/
def walk (ver : Version V) (n : Nat) (m : Mem (TreeCell V)) (head : Ptr) : Option (Mem (TreeCell V) × List V) :=
  loop (walkRound ver n) n ⟨m, head, []⟩

def inOrder : Version V := ⟨doNothing, printVal, printVal⟩

def preOrder : Version V := ⟨printVal, printVal, doNothing⟩

def postOrder : Version V := ⟨doNothing, doNothing, printLeftEdge⟩

/-- `MorrisInOrderTraverse(head)`. -/
def morrisInOrderTraverse (n : Nat) (m : Mem (TreeCell V)) (head : Ptr) : Option (Mem (TreeCell V) × List V) :=
  if head = none then some (m, []) else walk inOrder n m head

/-- `MorrisPreOrderTraverse(head)`. -/
def morrisPreOrderTraverse (n : Nat) (m : Mem (TreeCell V)) (head : Ptr) : Option (Mem (TreeCell V) × List V) :=
  if head = none then some (m, []) else walk preOrder n m head

/-- `MorrisPostOrderTraverse(head)`. -/
def morrisPostOrderTraverse (n : Nat) (m : Mem (TreeCell V)) (head : Ptr) : Option (Mem (TreeCell V) × List V) :=
  if head = none then some (m, [])
  else do
    let (m, out) ← walk postOrder n m head
    let (m, last) ← printEdge n m head
    return (m, out ++ last)

/-! ## The inner loops -/

variable {m : Mem (TreeCell V)} {xs : List (Addr × V)} {l t : BinaryTree (Addr × V)} {a b : Addr} {c : TreeCell V} {q : Ptr} {n : Nat}

theorem loop_reverseRound (h : m.Chain xs none) (hnd : (xs.map fst).Nodup) (hn : xs.length < n) (pre : Ptr) :
    loop reverseRound n (m, start xs none, pre) = some (m.reversed xs pre, start xs.reverse pre) := by
  induction xs generalizing m n pre with
  | nil =>
    obtain ⟨n, rfl⟩ : ∃ k, n = k + 1 := ⟨n - 1, by omega⟩
    exact loop_of_stop rfl n
  | cons x xs ih =>
    rw [length_cons] at hn
    obtain ⟨n, rfl⟩ : ∃ k, n = k + 1 := ⟨n - 1, by omega⟩
    obtain ⟨⟨c, hc, -, hr⟩, hxs⟩ := h
    rw [map_cons, nodup_cons] at hnd
    have hrd : reverseRound (m, some x.1, pre) = some (.again (m.setRight x.1 pre, start xs none, some x.1)) := by
      simp [reverseRound, Mem.read, Mem.write, Mem.setRight, hc, hr]
    rw [start, loop_of_again hrd, ih (hxs.setRight hnd.1 pre) hnd.2 (by omega), reverse_cons, start_append]
    rfl

theorem loop_printRound (h : m.Chain xs none) (hn : xs.length < n) (out : List V) :
    loop (printRound m) n (start xs none, out) = some (out ++ xs.map snd) := by
  induction xs generalizing n out with
  | nil =>
    obtain ⟨n, rfl⟩ : ∃ k, n = k + 1 := ⟨n - 1, by omega⟩
    rw [map_nil, append_nil]
    exact loop_of_stop rfl n
  | cons x xs ih =>
    rw [length_cons] at hn
    obtain ⟨n, rfl⟩ : ∃ k, n = k + 1 := ⟨n - 1, by omega⟩
    obtain ⟨⟨c, hc, hval, hr⟩, hxs⟩ := h
    have hrd : printRound m (some x.1, out) = some (.again (start xs none, out ++ [x.2])) := by
      simp [printRound, Mem.read, hc, hval, hr]
    rw [start, loop_of_again hrd, ih hxs (by omega), map_cons, append_assoc, singleton_append]

/-- `printEdge` prints the right spine of a tree backwards, and leaves the memory as it was. -/
theorem printEdge_eq (h : m.Holds l none) (hnd : (addrs l).Nodup) (hn : l.numNodes < n) :
    printEdge n m (entry l none) = some (m, (spine l).reverse.map snd) := by
  have hchain := h.chain
  have hdist : ((spine l).map fst).Nodup := ((spine_sublist_inorder l).map fst).nodup hnd
  have hlen := length_spine_le l
  have hdist' : ((spine l).reverse.map fst).Nodup := by rwa [map_reverse, nodup_reverse]
  have hb := hchain.reversed hdist none
  have hfst := loop_reverseRound hchain hdist (by omega : (spine l).length < n) none
  have hprint := loop_printRound hb (by rw [length_reverse]; omega : (spine l).reverse.length < n) []
  have hsnd := loop_reverseRound hb hdist' (by rw [length_reverse]; omega : (spine l).reverse.length < n) none
  rw [Mem.reversed_reversed hchain hdist] at hsnd
  rw [start_spine] at hfst
  simp only [printEdge, reverseEdge, hfst, hprint, hsnd, bind_eq_bind, bind_some]
  rfl

/-- The search goes down the right spine to its last node, whether that is threaded or not. -/
theorem search_eq (h : m.Holds l q) (hq : q = none ∨ q = some a) (ha : a ∉ addrs l) (hl : l ≠ .nil) (hn : l.numNodes < n) :
    search n m a (entry l none) = some (rightEnd l) := by
  induction l generalizing n with
  | nil => exact absurd rfl hl
  | node x ll lr _ ihr =>
    obtain ⟨hx, -, hr⟩ := h
    obtain ⟨n, rfl⟩ : ∃ k, n = k + 1 := ⟨n - 1, by omega⟩
    cases lr with
    | nil =>
      refine loop_of_stop ?_ n
      rcases hq with rfl | rfl
      · simp [Mem.read, hx, rightEnd]
      · simp [Mem.read, hx, rightEnd]
    | node y rl rr =>
      have hya : y.1 ≠ a := by
        rintro rfl
        simp at ha
      have hrest := ihr hr (by simp at ha ⊢; tauto) (by simp) (by simp [numNodes] at hn ⊢; omega : _ < n)
      refine (loop_of_again ?_ n).trans hrest
      simp [Mem.read, hx, hya]

/-! ## The rounds of the walk -/

variable {ver : Version V} {o : List V} {cb : TreeCell V}

theorem walkRound_noLeft (ha : m a = some c) (hl : c.left = none) (hact : ver.noLeft n m a = some (m, o)) (out : List V) :
    walkRound ver n ⟨m, some a, out⟩ = some (.again ⟨m, c.right, out ++ o⟩) := by
  simp [walkRound, Mem.read, ha, hl, hact]

variable {m₁ : Mem (TreeCell V)}

section

variable (ha : m a = some c) (hl : c.left ≠ none) (hsearch : search n m a c.left = some (some b)) (hb : m b = some cb)

include ha hl hsearch hb

/-- The search ends at a null pointer: the thread is put in, and the walk goes to the left. -/
theorem walkRound_thread
    (hr : cb.right = none) (hab : a ≠ b) (hm1 : m₁ = update m b (some { cb with right := some a }))
    (hact : ver.threaded n m₁ a = some (m₁, o)) (out : List V) : walkRound ver n ⟨m, some a, out⟩ = some (.again ⟨m₁, c.left, out ++ o⟩) := by
  have hread : m.read (some a) TreeCell.left = some c.left := by simp [Mem.read, ha]
  have hright : m.read (some b) TreeCell.right = some none := by simp [Mem.read, hb, hr]
  have hwrite : m.write (some b) (fun c => { c with right := some a }) = some m₁ := by rw [Mem.write_of_some hb, hm1]
  have hleft : m₁.read (some a) TreeCell.left = some c.left := by simp [hm1, Mem.read, hab, ha]
  simp only [walkRound, hread, bind_eq_bind, bind_some, if_pos hl, hsearch, hright, hwrite, hact, hleft]
  rfl

theorem walkRound_unthread
    (hr : cb.right = some a) (hab : a ≠ b) (hm1 : m₁ = update m b (some { cb with right := none }))
    (hact : ver.unthreaded n m₁ a = some (m₁, o)) (out : List V) : walkRound ver n ⟨m, some a, out⟩ = some (.again ⟨m₁, c.right, out ++ o⟩) := by
  have hread : m.read (some a) TreeCell.left = some c.left := by simp [Mem.read, ha]
  have hright : m.read (some b) TreeCell.right = some (some a) := by simp [Mem.read, hb, hr]
  have hwrite : m.write (some b) (fun c => { c with right := none }) = some m₁ := by rw [Mem.write_of_some hb, hm1]
  have hn : m₁.read (some a) TreeCell.right = some c.right := by simp [hm1, Mem.read, hab, ha]
  simp only [walkRound, hread, bind_eq_bind, bind_some, if_pos hl, hsearch, hright, hwrite, hact, hn]
  rfl

end

/-! ## The walk -/

/-- What a version prints: at a node with a left subtree when it is threaded and when the thread is taken out, and at one without. -/
structure Outputs (V : Type) where
  threaded : V → List V
  noLeft : V → List V
  unthreaded : V → BinaryTree (Addr × V) → List V

/-- What a version prints during the walk over a tree. -/
def Outputs.walk (o : Outputs V) : BinaryTree (Addr × V) → List V
  | .nil => []
  | .node x .nil r => o.noLeft x.2 ++ o.walk r
  | .node x (.node y ll lr) r => o.threaded x.2 ++ (o.walk (.node y ll lr) ++ (o.unthreaded x.2 (.node y ll lr) ++ o.walk r))

/-- The number of rounds of the walk over a tree. -/
def walkRounds : BinaryTree (Addr × V) → Nat
  | .nil => 0
  | .node _ .nil r => walkRounds r + 1
  | .node _ (.node y ll lr) r => walkRounds (.node y ll lr) + walkRounds r + 2

theorem walkRounds_le (t : BinaryTree (Addr × V)) : walkRounds t ≤ 2 * t.numNodes := by
  induction t with
  | nil => exact le_refl 0
  | node x l r ihl ihr =>
    cases l with
    | nil =>
      simp only [walkRounds, numNodes] at ihr ⊢
      omega
    | node y ll lr =>
      simp only [walkRounds, numNodes] at ihl ihr ⊢
      omega

/-- The actions of a version print this, and leave the memory as it is. -/
structure Prints (ver : Version V) (n : Nat) (o : Outputs V) : Prop where
  threaded : ∀ {m a c}, m a = some c → ver.threaded n m a = some (m, o.threaded c.val)
  noLeft : ∀ {m a c}, m a = some c → ver.noLeft n m a = some (m, o.noLeft c.val)
  unthreaded : ∀ {m a c l}, m a = some c → c.left = entry l none → m.Holds l none → (addrs l).Nodup → l.numNodes < n →
    ver.unthreaded n m a = some (m, o.unthreaded c.val l)

/-- The walk over a tree that ends in the pointer `q` comes to `q` with the memory as it was; the induction is over the tree. Its left subtree is
walked over when its last node is threaded to the root. -/
theorem loop_walkRound {o : Outputs V} (hver : Prints ver n o) (h : m.Holds t q) (hnd : (addrs t).Nodup) (hn : t.numNodes < n) (k : Nat)
    (out : List V) : loop (walkRound ver n) (walkRounds t + k) ⟨m, entry t q, out⟩ = loop (walkRound ver n) k ⟨m, q, out ++ o.walk t⟩ := by
  induction t generalizing m q k out with
  | nil => rw [walkRounds, Nat.zero_add, entry_nil, Outputs.walk, append_nil]
  | node x l r ihl ihr =>
    obtain ⟨a, v⟩ := x
    obtain ⟨ha, hl, hr⟩ := h
    rw [addrs_node, nodup_append, nodup_cons] at hnd
    obtain ⟨hndl, ⟨-, hndr⟩, hdisj⟩ := hnd
    rw [numNodes] at hn
    rw [entry_node]
    cases l with
    | nil =>
      have hrd := walkRound_noLeft ha rfl (hver.noLeft ha) out
      rw [walkRounds, Nat.add_right_comm, loop_of_again hrd, ihr hr hndr (by omega), Outputs.walk, append_assoc]
    | node y ll lr =>
      obtain ⟨b, c, hend, hmem, hb, hc, hq⟩ := hl.rightEnd (by simp) hndl
      have hab : a ≠ b := (hdisj b hmem a (by simp)).symm
      have hal : a ∉ addrs (.node y ll lr) := fun hmem => hdisj a hmem a (by simp) rfl
      -- the last node of the left subtree gets its thread
      obtain ⟨m₁, hm1⟩ : ∃ m₁ : Mem (TreeCell V), m₁ = update m b (some { c with right := some a }) := ⟨_, rfl⟩
      have hl1 : m₁.Holds (.node y ll lr) (some a) := hm1 ▸ hq (some a)
      have ha1 : m₁ a = some ⟨v, entry (.node y ll lr) none, entry r q⟩ := by rw [hm1, update_of_ne hab, ha]
      have hb1 : m₁ b = some { c with right := some a } := by rw [hm1, update_self]
      have hdown := search_eq hl (.inl rfl) hal (by simp) (by omega : _ < n)
      rw [hend] at hdown
      have hthread := walkRound_thread ha (by simp) hdown hb hc hab hm1 (hver.threaded ha1) out
      -- the thread is taken out again
      have hm : m = update m₁ b (some { c with right := none }) := by
        rw [hm1, update_idem, ← hc, ← hb, update_eq_self]
      have hagain := search_eq hl1 (.inr rfl) hal (by simp) (by omega : _ < n)
      rw [hend] at hagain
      have hback := walkRound_unthread ha1 (by simp) hagain hb1 rfl hab hm (hver.unthreaded ha rfl hl hndl (by omega))
      have hrounds : walkRounds (.node (a, v) (.node y ll lr) r) + k = (walkRounds (.node y ll lr) + (walkRounds r + k + 1)) + 1 := by
        rw [walkRounds]
        omega
      rw [hrounds]
      calc loop (walkRound ver n) (walkRounds (.node y ll lr) + (walkRounds r + k + 1) + 1) ⟨m, some a, out⟩
          = loop (walkRound ver n) (walkRounds (.node y ll lr) + (walkRounds r + k + 1)) ⟨m₁, some y.1, out ++ o.threaded v⟩ :=
            loop_of_again hthread _
        _ = loop (walkRound ver n) (walkRounds r + k + 1) ⟨m₁, some a, out ++ o.threaded v ++ o.walk (.node y ll lr)⟩ := ihl hl1 hndl (by omega) _ _
        _ = loop (walkRound ver n) (walkRounds r + k)
              ⟨m, entry r q, out ++ o.threaded v ++ o.walk (.node y ll lr) ++ o.unthreaded v (.node y ll lr)⟩ := loop_of_again (hback _) _
        _ = loop (walkRound ver n) k
              ⟨m, q, out ++ o.threaded v ++ o.walk (.node y ll lr) ++ o.unthreaded v (.node y ll lr) ++ o.walk r⟩ := ihr hr hndr (by omega) _ _
        _ = loop (walkRound ver n) k ⟨m, q, out ++ o.walk (.node (a, v) (.node y ll lr) r)⟩ := by
            rw [Outputs.walk]
            simp only [append_assoc]

theorem walk_eq {o : Outputs V} (hver : Prints ver n o) (h : m.Holds t none) (hnd : (addrs t).Nodup) (hn : 2 * t.numNodes < n) :
    walk ver n m (entry t none) = some (m, o.walk t) := by
  have hle := walkRounds_le t
  obtain ⟨k, rfl⟩ : ∃ k, n = walkRounds t + (k + 1) := ⟨n - walkRounds t - 1, by omega⟩
  rw [walk, loop_walkRound hver h hnd (by omega)]
  exact loop_of_stop rfl k

/-! ## The three versions -/

theorem printVal_eq (ha : m a = some c) (n : Nat) : printVal n m a = some (m, [c.val]) := by
  simp [printVal, Mem.read, ha]

/-- The in-order version prints a node without left subtree, and one with a left subtree when its thread is taken out. -/
theorem prints_inOrder (n : Nat) : Prints (V := V) inOrder n ⟨fun _ => [], fun v => [v], fun v _ => [v]⟩ where
  threaded _ := rfl
  noLeft ha := printVal_eq ha n
  unthreaded ha _ _ _ _ := printVal_eq ha n

theorem prints_preOrder (n : Nat) : Prints (V := V) preOrder n ⟨fun v => [v], fun v => [v], fun _ _ => []⟩ where
  threaded ha := printVal_eq ha n
  noLeft ha := printVal_eq ha n
  unthreaded _ _ _ _ _ := rfl

/-- The post-order version prints the right spine of the left subtree when the thread is taken out. -/
theorem prints_postOrder (n : Nat) : Prints (V := V) postOrder n ⟨fun _ => [], fun _ => [], fun _ l => (spine l).reverse.map snd⟩ where
  threaded _ := rfl
  noLeft _ := rfl
  unthreaded := by
    intro m a c l ha hleft hl hnd hn
    have hr : m.read (some a) TreeCell.left = some (entry l none) := by simp [Mem.read, ha, hleft]
    simp only [postOrder, printLeftEdge, hr, bind_eq_bind, bind_some, printEdge_eq hl hnd hn]

theorem walk_inOrder (t : BinaryTree (Addr × V)) : Outputs.walk ⟨fun _ => [], fun v => [v], fun v _ => [v]⟩ t = (inorder t).map snd := by
  induction t with
  | nil => rfl
  | node x l r ihl ihr =>
    cases l with
    | nil => simp [Outputs.walk, ihr]
    | node y ll lr => simp [Outputs.walk, ihl, ihr]

theorem walk_preOrder (t : BinaryTree (Addr × V)) : Outputs.walk ⟨fun v => [v], fun v => [v], fun _ _ => []⟩ t = (preorder t).map snd := by
  induction t with
  | nil => rfl
  | node x l r ihl ihr =>
    cases l with
    | nil => simp [Outputs.walk, ihr]
    | node y ll lr => simp [Outputs.walk, ihl, ihr]

theorem walk_postOrder (t : BinaryTree (Addr × V)) :
    Outputs.walk ⟨fun _ => [], fun _ => [], fun _ l => (spine l).reverse.map snd⟩ t ++ (spine t).reverse.map snd = (postorder t).map snd := by
  induction t with
  | nil => rfl
  | node x l r ihl ihr =>
    rw [postorder_node, map_append, map_append, ← ihl, ← ihr]
    cases l with
    | nil => simp [Outputs.walk]
    | node y ll lr => simp [Outputs.walk]

/-- For a tree in memory, whose nodes have different addresses, the three traversals return. They print the values in order, in pre-order and in
post-order, and leave the memory as it was. -/
theorem morris_traversals {m : Mem (TreeCell V)} {t : BinaryTree (Addr × V)} (h : m.Holds t none) (hnd : (addrs t).Nodup) :
    ∃ n₀, ∀ n ≥ n₀,
      morrisInOrderTraverse n m (entry t none) = some (m, (inorder t).map Prod.snd) ∧
      morrisPreOrderTraverse n m (entry t none) = some (m, (preorder t).map Prod.snd) ∧
      morrisPostOrderTraverse n m (entry t none) = some (m, (postorder t).map Prod.snd) := by
  refine ⟨2 * t.numNodes + 1, ?_⟩
  intro n hn
  cases t with
  | nil => exact ⟨rfl, rfl, rfl⟩
  | node x l r =>
    have hhead : entry (.node x l r) none ≠ none := some_ne_none x.1
    refine ⟨?_, ?_, ?_⟩
    · rw [morrisInOrderTraverse, if_neg hhead, walk_eq (prints_inOrder n) h hnd hn, walk_inOrder]
    · rw [morrisPreOrderTraverse, if_neg hhead, walk_eq (prints_preOrder n) h hnd hn, walk_preOrder]
    · have hsmall : (BinaryTree.node x l r).numNodes < n := by omega
      rw [morrisPostOrderTraverse, walk_eq (prints_postOrder n) h hnd hn]
      simp only [bind_eq_bind, bind_some, printEdge_eq h hnd hsmall, ← walk_postOrder]
      rfl

/-- A root with two children. -/
def threeNodes : Mem (TreeCell Int)
  | 0 => some ⟨2, some 1, some 2⟩
  | 1 => some ⟨1, none, none⟩
  | 2 => some ⟨3, none, none⟩
  | _ => none

theorem morris_traversals_threeNodes : ∃ n₀, ∀ n ≥ n₀, morrisPostOrderTraverse n threeNodes (some 0) = some (threeNodes, [1, 3, 2]) := by
  obtain ⟨n₀, h⟩ := morris_traversals (m := threeNodes)
    (t := .node (0, 2) (.node (1, 1) .nil .nil) (.node (2, 3) .nil .nil)) ⟨rfl, ⟨rfl, trivial, trivial⟩, rfl, trivial, trivial⟩ (by decide)
  refine ⟨n₀, ?_⟩
  intro n hn
  exact (h n hn).2.2

end CsLearning.DsAlgo.MorrisTraversal
