import CsLearning.Lib.Cpp
import CsLearning.Lib.Traversals

/-!
# A tree from its preorder and inorder traversals

Problem 105. `buildTree` records the position of every value in the inorder traversal and `myBuildTree` goes down both traversals at once:
a subtree is a window of either, and the window is empty when its left end is past its right end. A position outside of its vector has no
outcome, and so has a recursion that is deeper than its bound.
-/

open List Option

namespace CsLearning.LeetCode

/-- The hash map from the values to their positions; `operator[]` gives zero for a key that is not there. -/
abbrev Index := CInt → Int

/-- The loop that records the positions, after `n` rounds. -/
def recordIndex (inorder : List CInt) : Nat → Option Index
  | 0 => some fun _ => 0
  | i + 1 => do
    let index ← recordIndex inorder i
    let v ← inorder[i]?
    return Function.update index v i

/-- `v[i]` for a vector `v` and an `int i`. -/
def vectorAt (v : List CInt) (i : Int) : Option CInt := if 0 ≤ i then v[i.toNat]? else none

def myBuildTree (index : Index) (preorder : List CInt) : Nat → Int → Int → Int → Int → Option (BinaryTree CInt)
  | 0, _, _, _, _ => none
  | n + 1, preorderLeft, preorderRight, inorderLeft, inorderRight =>
    if preorderLeft > preorderRight then some .nil
    else do
      let preorderRoot := preorderLeft
      let v ← vectorAt preorder preorderRoot
      let inorderRoot := index v
      let sizeLeftSubtree := inorderRoot - inorderLeft
      let left ← myBuildTree index preorder n (preorderLeft + 1) (preorderLeft + sizeLeftSubtree) inorderLeft (inorderRoot - 1)
      let right ← myBuildTree index preorder n (preorderLeft + sizeLeftSubtree + 1) preorderRight (inorderRoot + 1) inorderRight
      return .node v left right

def buildTree (preorder inorder : List CInt) : Option (BinaryTree CInt) := do
  let n := preorder.length
  let index ← recordIndex inorder n
  myBuildTree index preorder (n + 1) 0 (n - 1) 0 (n - 1)

/-! ## The positions -/

/-- The map holds the position of every value. -/
def Index.Locates (index : Index) (l : List CInt) : Prop := ∀ (i : Nat) v, l[i]? = some v → index v = i

theorem exists_recordIndex {l : List CInt} (hl : l.Nodup) {n : Nat} (hn : n ≤ l.length) :
    ∃ index, recordIndex l n = some index ∧ index.Locates (l.take n) := by
  induction n with
  | zero => exact ⟨_, rfl, by simp [Index.Locates]⟩
  | succ n ih =>
    obtain ⟨index, hrec, hloc⟩ := ih (by omega)
    have hget : l[n]? = some l[n] := getElem?_eq_getElem (by omega)
    refine ⟨Function.update index l[n] n, by simp [recordIndex, hrec, hget], ?_⟩
    intro i v hi
    rw [getElem?_take] at hi
    split at hi
    · by_cases hv : v = l[n]
      · grind [getElem?_inj]
      · have hne : i ≠ n := by grind
        rw [Function.update_of_ne hv]
        apply hloc
        rw [getElem?_take, if_pos (by omega), hi]
    · cases hi

theorem vectorAt_append (a b : List CInt) (v : CInt) : vectorAt (a ++ v :: b) a.length = some v := by
  unfold vectorAt
  rw [if_pos (by omega)]
  simp

/-! ## The windows of a subtree -/

/-- One call of `myBuildTree` on a window that is not empty. -/
theorem myBuildTree_node {index : Index} {p : List CInt} {n : Nat} {pl pr il ir : Int} {v : CInt} {l r : BinaryTree CInt} (h : pl ≤ pr)
    (hv : vectorAt p pl = some v) (hl : myBuildTree index p n (pl + 1) (pl + (index v - il)) il (index v - 1) = some l)
    (hr : myBuildTree index p n (pl + (index v - il) + 1) pr (index v + 1) ir = some r) :
    myBuildTree index p (n + 1) pl pr il ir = some (.node v l r) := by
  rw [myBuildTree, if_neg (by omega)]
  simp only [hv, hl, hr, bind_eq_bind, bind_some]
  rfl

/-- A subtree is rebuilt from the windows that hold its traversals; the induction is over the subtree, and the windows of its children
stand inside of its own. -/
theorem myBuildTree_window {index : Index} (t : BinaryTree CInt) (p1 p2 i1 i2 : List CInt)
    (hidx : index.Locates (i1 ++ inorder t ++ i2)) {n : Nat} (hn : t.height < n) :
    myBuildTree index (p1 ++ preorder t ++ p2) n p1.length (p1.length + t.numNodes - 1) i1.length (i1.length + t.numNodes - 1) = some t := by
  obtain ⟨n, rfl⟩ : ∃ k, n = k + 1 := ⟨n - 1, by omega⟩
  induction t generalizing p1 p2 i1 i2 n with
  | nil =>
    rw [myBuildTree]
    simp [BinaryTree.numNodes]
  | node v l r ihl ihr =>
    simp only [BinaryTree.height] at hn
    obtain ⟨n, rfl⟩ : ∃ k, n = k + 1 := ⟨n - 1, by omega⟩
    have el : i1 ++ inorder (.node v l r) ++ i2 = i1 ++ inorder l ++ (v :: inorder r ++ i2) := by simp
    have er : i1 ++ inorder (.node v l r) ++ i2 = i1 ++ inorder l ++ [v] ++ inorder r ++ i2 := by simp
    have pl : p1 ++ preorder (.node v l r) ++ p2 = p1 ++ [v] ++ preorder l ++ (preorder r ++ p2) := by simp
    have pr : p1 ++ preorder (.node v l r) ++ p2 = p1 ++ [v] ++ preorder l ++ preorder r ++ p2 := by simp
    have hv : vectorAt (p1 ++ preorder (.node v l r) ++ p2) p1.length = some v := by
      rw [pl, append_assoc, append_assoc]
      exact vectorAt_append _ _ _
    have hroot : index v = i1.length + l.numNodes := by
      have hat : (i1 ++ inorder (.node v l r) ++ i2)[i1.length + l.numNodes]? = some v := by
        rw [el, getElem?_append_right (by simp)]
        simp
      exact_mod_cast hidx _ _ hat
    have hl := ihl (p1 ++ [v]) (preorder r ++ p2) i1 (v :: inorder r ++ i2) (el ▸ hidx) n (by omega)
    have hr := ihr (p1 ++ [v] ++ preorder l) p2 (i1 ++ inorder l ++ [v]) i2 (er ▸ hidx) n (by omega)
    rw [← pr] at hr
    -- where the windows of the children begin
    have hl0 : (p1 ++ [v]).length = p1.length + 1 := length_append
    have hr0 : (p1 ++ [v] ++ preorder l).length = p1.length + 1 + l.numNodes := by rw [length_append, length_preorder, hl0]
    have hi0 : (i1 ++ inorder l ++ [v]).length = i1.length + l.numNodes + 1 := by
      rw [length_append, length_append, length_inorder, length_singleton]
    have hs : (BinaryTree.node v l r).numNodes = l.numNodes + r.numNodes + 1 := rfl
    refine myBuildTree_node (by omega) hv ?_ ?_
    · rw [hroot, ← hl]
      congr 1
      · omega
      · omega
    · rw [← hr]
      congr 1
      · omega
      · omega
      · omega
      · omega

theorem exists_index {t : BinaryTree CInt} (h : (preorder t).Nodup) :
    ∃ index, recordIndex (inorder t) (preorder t).length = some index ∧ index.Locates (inorder t) := by
  have hin : (inorder t).Nodup := (preorder_perm_inorder t).nodup_iff.mp h
  have hlen : (preorder t).length = (inorder t).length := by simp
  obtain ⟨index, hrec, hloc⟩ := exists_recordIndex hin (Nat.le_of_eq hlen)
  rw [hlen, take_length] at hloc
  exact ⟨index, hrec, hloc⟩

theorem buildTree_eq {t : BinaryTree CInt} (h : (preorder t).Nodup) : buildTree (preorder t) (inorder t) = some t := by
  obtain ⟨index, hrec, hloc⟩ := exists_index h
  have hdep : t.height < (preorder t).length + 1 := by
    rw [length_preorder]
    exact Nat.lt_succ_of_le t.height_le_numNodes
  have hwin := myBuildTree_window t [] [] [] [] (by simpa using hloc) hdep
  unfold buildTree
  simp only [hrec, bind_eq_bind]
  simpa using hwin

/-- With distinct values, `buildTree` gives back the tree of two traversals. Each position that `myBuildTree` takes from the map is one of
the inorder traversal, and no other tree has these traversals. -/
theorem buildTree_traversals (t : BinaryTree CInt) (h : (preorder t).Nodup) :
    buildTree (preorder t) (inorder t) = some t ∧
    (∃ index, recordIndex (inorder t) (preorder t).length = some index ∧
      ∀ v ∈ preorder t, vectorAt (inorder t) (index v) = some v) ∧
    ∀ t', preorder t' = preorder t → inorder t' = inorder t → t' = t := by
  refine ⟨buildTree_eq h, ?_, ?_⟩
  · obtain ⟨index, hrec, hloc⟩ := exists_index h
    refine ⟨index, hrec, fun v hv => ?_⟩
    obtain ⟨i, hi⟩ := mem_iff_getElem?.mp ((preorder_perm_inorder t).subset hv)
    rw [hloc i v hi]
    unfold vectorAt
    rw [if_pos (by omega), Int.toNat_natCast, hi]
  · intro t' hpre hin
    have ht := buildTree_eq h
    have ht' := buildTree_eq (t := t') (hpre ▸ h)
    rw [hpre, hin, ht] at ht'
    exact (some.inj ht').symm

/-- The tree of the problem's example. -/
def exampleTree : BinaryTree CInt :=
  .node (CInt.clamp 3) (.node (CInt.clamp 9) .nil .nil)
    (.node (CInt.clamp 20) (.node (CInt.clamp 15) .nil .nil) (.node (CInt.clamp 7) .nil .nil))

theorem buildTree_traversals_example :
    (preorder exampleTree).Nodup ∧ buildTree (preorder exampleTree) (inorder exampleTree) = some exampleTree :=
  ⟨by decide, (buildTree_traversals exampleTree (by decide)).1⟩

end CsLearning.LeetCode
