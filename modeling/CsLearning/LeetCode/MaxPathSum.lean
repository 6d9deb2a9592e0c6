import CsLearning.Lib.TreePositions
import CsLearning.Lib.Word

/-!
# The greatest sum of a path in a tree

Problem 124: a search returns the greatest sum of a path down from the root, where a branch with a negative sum is left out, and keeps the greatest
sum of any path in the member `val`. Sums that do not fit in an `int` have no outcome.
-/

open Option Set

namespace CsLearning.LeetCode.MaxPathSum

open Word

open Pointwise

/-- `dfs(root)`: what it returns, and `val`. -/
def dfs : BinaryTree Int → Int → Option (Int × Int)
  | .nil, val => some (0, val)
  | .node x l r, val => do
    let (down, val) ← dfs l val
    let left := max 0 down
    let (down, val) ← dfs r val
    let right := max 0 down
    let ret ← Word.addInt x (max left right)
    let tmp ← Word.addInt x left
    let tmp ← Word.addInt tmp right
    return (ret, max val tmp)

/-- `maxPathSum(root)` on a fresh `Solution`. -/
def maxPathSum (root : BinaryTree Int) : Option Int := (dfs root (-2 ^ 31)).map Prod.snd

/-! ## What the search finds -/

variable {t l r : BinaryTree Int} {x val v : Int}

/-- The search for the branches gives the longest ways down and the greatest sum so far. -/
structure Found (t : BinaryTree Int) (val : Int) (found : Int × Int) : Prop where
  stem : IsGreatest (Stems t) (max 0 found.1)
  best : IsGreatest ({val} ∪ PathSums t) found.2

theorem found_nil (val : Int) : Found .nil val (0, val) := by
  refine ⟨?_, ?_⟩
  · rw [stems_nil]
    exact isGreatest_singleton
  · rw [pathSums_nil, union_empty]
    exact isGreatest_singleton

theorem Found.node {foundl foundr : Int × Int} (hl : Found l val foundl) (hr : Found r foundl.2 foundr) :
    Found (.node x l r) val (x + max (max 0 foundl.1) (max 0 foundr.1), max foundr.2 (x + max 0 foundl.1 + max 0 foundr.1)) := by
  refine ⟨?_, ?_⟩
  · rw [stems_node]
    exact isGreatest_singleton.union (isGreatest_add isGreatest_singleton (hl.stem.union hr.stem))
  · rw [pathSums_node, ← union_assoc, ← union_assoc, add_assoc x]
    refine IsGreatest.union ?_ (isGreatest_add isGreatest_singleton (isGreatest_add hl.stem hr.stem))
    -- the best of the left branch is where the search of the right one begins
    refine ⟨?_, ?_⟩
    · rcases hr.best.1 with heq | hmem
      · rw [mem_singleton_iff.1 heq]
        exact .inl hl.best.1
      · exact .inr hmem
    · intro w hw
      rcases hw with hw | hw
      · exact (hl.best.2 hw).trans (hr.best.2 (.inl rfl))
      · exact hr.best.2 (.inr hw)

theorem dfs_eq (x : Int) (l r : BinaryTree Int) (val : Int) :
    dfs (.node x l r) val = (dfs l val).bind fun foundl => (dfs r foundl.2).bind fun foundr =>
    (addInt x (max (max 0 foundl.1) (max 0 foundr.1))).bind fun ret => (addInt x (max 0 foundl.1)).bind fun tmp =>
      (addInt tmp (max 0 foundr.1)).bind fun sum => some (ret, max foundr.2 sum) := rfl

theorem dfs_node {found : Int × Int} (h : dfs (.node x l r) val = some found) :
    ∃ foundl foundr, dfs l val = some foundl ∧ dfs r foundl.2 = some foundr ∧
      found = (x + max (max 0 foundl.1) (max 0 foundr.1), max foundr.2 (x + max 0 foundl.1 + max 0 foundr.1)) ∧
      -2 ^ 31 ≤ x + max 0 foundl.1 + max 0 foundr.1 := by
  obtain ⟨foundl, hl, h⟩ := bind_eq_some_iff.1 h
  obtain ⟨foundr, hr, h⟩ := bind_eq_some_iff.1 h
  obtain ⟨ret, hret, h⟩ := bind_eq_some_iff.1 h
  obtain ⟨tmp, htmp, h⟩ := bind_eq_some_iff.1 h
  obtain ⟨sum, hsum, h⟩ := bind_eq_some_iff.1 h
  obtain ⟨hret, -⟩ := eq_add_of_addInt hret
  obtain ⟨htmp, -⟩ := eq_add_of_addInt htmp
  obtain ⟨hsum, hlow, -⟩ := eq_add_of_addInt hsum
  rw [htmp] at hsum
  cases h
  refine ⟨foundl, foundr, hl, hr, ?_, ?_⟩
  · rw [hret, hsum]
  · rw [← hsum]
    exact hlow

theorem dfs_found {found : Int × Int} (h : dfs t val = some found) : Found t val found := by
  induction t generalizing val found with
  | nil =>
    cases h
    exact found_nil val
  | node x l r ihl ihr =>
    obtain ⟨foundl, foundr, hl, hr, rfl, -⟩ := dfs_node h
    exact (ihl hl).node (ihr hr)

/-- The first value of `val` is not greater than a sum that was computed, so that it does not count. -/
theorem maxPathSum_greatest (h : maxPathSum (.node x l r) = some v) : IsGreatest (PathSums (.node x l r)) v := by
  obtain ⟨found, hdfs, hv⟩ := map_eq_some_iff.1 h
  have hbest := (dfs_found hdfs).best
  rw [hv] at hbest
  refine ⟨?_, fun w hw => hbest.2 (.inr hw)⟩
  rcases hbest.1 with heq | hmem
  · obtain ⟨foundl, foundr, hl, hr, -, hlow⟩ := dfs_node hdfs
    have hsum : x + max 0 foundl.1 + max 0 foundr.1 ∈ PathSums (.node x l r) := by
      rw [pathSums_node, add_assoc]
      exact .inr (add_mem_add rfl (add_mem_add (dfs_found hl).stem.1 (dfs_found hr).stem.1))
    have hle := hbest.2 (.inr hsum)
    rw [mem_singleton_iff.1 heq] at hle ⊢
    rwa [le_antisymm hle hlow] at hsum
  · exact hmem

/-! ## The search returns -/

/-- The sums of all paths fit in an `int`. -/
def Fits (t : BinaryTree Int) : Prop := ∀ w ∈ PathSums t, -2 ^ 31 ≤ w ∧ w < 2 ^ 31

theorem dfs_returns (hf : Fits t) (val : Int) : ∃ found, dfs t val = some found := by
  induction t generalizing val with
  | nil => exact ⟨_, rfl⟩
  | node x l r ihl ihr =>
    have hl : Fits l := fun w hw => hf w (by rw [pathSums_node]; exact .inl (.inl hw))
    have hr : Fits r := fun w hw => hf w (by rw [pathSums_node]; exact .inl (.inr hw))
    have hsum : ∀ y ∈ Stems l, ∀ z ∈ Stems r, -2 ^ 31 ≤ x + (y + z) ∧ x + (y + z) < 2 ^ 31 := by
      intro y hy z hz
      apply hf
      rw [pathSums_node]
      exact .inr (add_mem_add rfl (add_mem_add hy hz))
    obtain ⟨foundl, hrunl⟩ := ihl hl val
    obtain ⟨foundr, hrunr⟩ := ihr hr foundl.2
    have hy := (dfs_found hrunl).stem.1
    have hz := (dfs_found hrunr).stem.1
    have hleft := hsum _ hy 0 (zero_mem_stems r)
    have hright := hsum 0 (zero_mem_stems l) _ hz
    have hboth := hsum _ hy _ hz
    rw [dfs_eq, hrunl, bind_some, hrunr, bind_some, addInt_of_fits (by omega) (by omega),
      bind_some, addInt_of_fits (by omega) (by omega), bind_some, addInt_of_fits (by omega) (by omega)]
    exact ⟨_, rfl⟩

/-- For a tree that is not empty: the greatest sum, if nothing overflows, and nothing does when the sums of the paths fit in an `int`. -/
theorem maxPathSum_spec (x : Int) (l r : BinaryTree Int) :
    (∀ v, maxPathSum (.node x l r) = some v →
      IsGreatest {w | ∃ ps, TreePath (.node x l r) ps ∧ total (.node x l r) ps = w} v) ∧
      ((∀ ps, TreePath (.node x l r) ps → -2 ^ 31 ≤ total (.node x l r) ps ∧ total (.node x l r) ps < 2 ^ 31) →
        ∃ v, maxPathSum (.node x l r) = some v) := by
  refine ⟨fun v hv => maxPathSum_greatest hv, ?_⟩
  intro hfits
  have hall : Fits (.node x l r) := by
    intro w hw
    obtain ⟨ps, hps, rfl⟩ := hw
    exact hfits ps hps
  obtain ⟨found, hrun⟩ := dfs_returns hall (-2 ^ 31)
  exact ⟨found.2, by rw [maxPathSum, hrun, map_some]⟩

/-- The path goes from 15 over 20 to 7. -/
theorem maxPathSum_spec_bend :
    IsGreatest {w | ∃ ps, TreePath (.node (-10) (.node 9 .nil .nil) (.node 20 (.node 15 .nil .nil) (.node 7 .nil .nil))) ps ∧
      total (.node (-10) (.node 9 .nil .nil) (.node 20 (.node 15 .nil .nil) (.node 7 .nil .nil))) ps = w} 42 :=
  (maxPathSum_spec (-10) (.node 9 .nil .nil) (.node 20 (.node 15 .nil .nil) (.node 7 .nil .nil))).1 42 (by decide)

end CsLearning.LeetCode.MaxPathSum
