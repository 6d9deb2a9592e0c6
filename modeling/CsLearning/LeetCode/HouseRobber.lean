import CsLearning.Lib.Loop
import CsLearning.Lib.Memory
import CsLearning.Lib.Traversals
import CsLearning.Lib.TreePositions
import CsLearning.Lib.Word

/-!
# Robbing the houses of a tree

Problem 337 in three versions: a recursion that goes from the root to its grandchildren, the same with a table of the results by node, and one that
returns a pair of numbers, without the root and with it. Sums that do not fit in an `int` have no outcome.

All three are right as long as what they are to find fits in an `int`: every sum they form is the total of some set of nodes, or zero.
-/

open Option Prod Set

namespace CsLearning.LeetCode.HouseRobber

open Word

open Pointwise

/-! ## The recursion -/

mutual

/-- `rob(root)` by recursion. -/
def rob : BinaryTree Int → Option Int
  | .nil => some 0
  | .node x l r => do
    let money ← gather x l
    let money ← gather money r
    let a ← rob l
    let b ← rob r
    let sum ← Word.addInt a b
    return max money sum

/-- `if (NULL != child) money += rob(child->left) + rob(child->right)`. -/
def gather (money : Int) : BinaryTree Int → Option Int
  | .nil => some money
  | .node _ l r => do
    let a ← rob l
    let b ← rob r
    let sum ← Word.addInt a b
    Word.addInt money sum

end

/-! ## The table of results -/

/-- An `unordered_map<TreeNode *, int>`. -/
abbrev Memo := Addr → Option Int

/-- `memo.insert(make_pair(a, v))`, which keeps what is there. -/
def Memo.insert (memo : Memo) (a : Addr) (v : Int) : Memo := if memo a = none then Function.update memo a (some v) else memo

mutual

/-- `helper(root, memo)`, on nodes with their addresses: what it returns, and `memo`. -/
def Memo.helper : BinaryTree (Addr × Int) → Memo → Option (Int × Memo)
  | .nil, memo => some (0, memo)
  | .node root l r, memo =>
    match memo root.1 with
    | some v => some (v, memo)
    | none => do
      let (money, memo) ← Memo.gather root.2 l memo
      let (money, memo) ← Memo.gather money r memo
      let (a, memo) ← Memo.helper l memo
      let (b, memo) ← Memo.helper r memo
      let sum ← Word.addInt a b
      return (max money sum, memo.insert root.1 (max money sum))

/-- `if (NULL != child) money += helper(child->left, memo) + helper(child->right, memo)`. -/
def Memo.gather (money : Int) : BinaryTree (Addr × Int) → Memo → Option (Int × Memo)
  | .nil, memo => some (money, memo)
  | .node _ l r, memo => do
    let (a, memo) ← Memo.helper l memo
    let (b, memo) ← Memo.helper r memo
    let sum ← Word.addInt a b
    let money ← Word.addInt money sum
    return (money, memo)

end

/-- `rob(root)` with the table. -/
def Memo.rob (root : BinaryTree (Addr × Int)) : Option Int := (Memo.helper root fun _ => none).map Prod.fst

/-! ## Pairs -/

/-- `helper(root)`: without the root, and with it. -/
def Pair.helper : BinaryTree Int → Option (Int × Int)
  | .nil => some (0, 0)
  | .node x l r => do
    let left ← Pair.helper l
    let right ← Pair.helper r
    let without ← Word.addInt (max left.1 left.2) (max right.1 right.2)
    let sum ← Word.addInt left.1 right.1
    let withRoot ← Word.addInt sum x
    return (without, withRoot)

/-- `rob(root)` with pairs. -/
def Pair.rob (root : BinaryTree Int) : Option Int := do
  let res ← Pair.helper root
  return max res.1 res.2

/-! ## The recursion finds the greatest total -/

variable {t l r : BinaryTree Int} {x money v : Int}

/-- What a call that returns has found. -/
def Right (t : BinaryTree Int) : Prop := ∀ v, rob t = some v → IsGreatest (Totals t) v ∧ v < 2 ^ 31

/-- What the grandchildren add, if it is computed. -/
def GatherRight (t : BinaryTree Int) : Prop :=
  ∀ money v, money < 2 ^ 31 → gather money t = some v → (∃ g, IsGreatest (Skips t) g ∧ v = money + g) ∧ v < 2 ^ 31

theorem gatherRight_node (hl : Right l) (hr : Right r) : GatherRight (.node x l r) := by
  intro money v _ h
  obtain ⟨a, ha, h⟩ := bind_eq_some_iff.1 h
  obtain ⟨b, hb, h⟩ := bind_eq_some_iff.1 h
  obtain ⟨sum, hsum, h⟩ := bind_eq_some_iff.1 h
  obtain ⟨hsum, -⟩ := eq_add_of_addInt hsum
  obtain ⟨hv, -, hf⟩ := eq_add_of_addInt h
  rw [skips_node]
  exact ⟨⟨sum, hsum ▸ isGreatest_add (hl a ha).1 (hr b hb).1, hv⟩, hf⟩

theorem right_node (hx : x < 2 ^ 31) (hl : Right l) (hgl : GatherRight l) (hr : Right r) (hgr : GatherRight r) : Right (.node x l r) := by
  intro v h
  obtain ⟨money, hmoney, h⟩ := bind_eq_some_iff.1 h
  obtain ⟨money', hmoney', h⟩ := bind_eq_some_iff.1 h
  obtain ⟨a, ha, h⟩ := bind_eq_some_iff.1 h
  obtain ⟨b, hb, h⟩ := bind_eq_some_iff.1 h
  obtain ⟨sum, hsum, h⟩ := bind_eq_some_iff.1 h
  obtain ⟨hsum, -, hf⟩ := eq_add_of_addInt hsum
  cases h
  obtain ⟨⟨g, hg, heq⟩, hlt⟩ := hgl x money hx hmoney
  obtain ⟨⟨g', hg', heq'⟩, hlt'⟩ := hgr money money' hlt hmoney'
  refine ⟨?_, max_lt hlt' hf⟩
  rw [totals_node, skips_node, max_comm, heq', heq, hsum, add_assoc]
  exact (isGreatest_add (hl a ha).1 (hr b hb).1).union (isGreatest_add isGreatest_singleton (isGreatest_add hg hg'))

/-- The values in the tree are those of `int`s. -/
def Ints (t : BinaryTree Int) : Prop := ∀ y ∈ preorder t, -2 ^ 31 ≤ y ∧ y < 2 ^ 31

theorem ints_node (h : Ints (.node x l r)) : (-2 ^ 31 ≤ x ∧ x < 2 ^ 31) ∧ Ints l ∧ Ints r := by
  exact ⟨h x (by simp), fun y hy => h y (by simp [hy]), fun y hy => h y (by simp [hy])⟩

theorem rob_right (hint : Ints t) : Right t ∧ GatherRight t := by
  induction t with
  | nil =>
    refine ⟨?_, ?_⟩
    · intro v h
      cases h
      rw [totals_nil]
      exact ⟨isGreatest_singleton, by decide⟩
    · intro money v hmoney h
      cases h
      rw [skips_nil]
      exact ⟨⟨0, isGreatest_singleton, (add_zero money).symm⟩, hmoney⟩
  | node x l r ihl ihr =>
    obtain ⟨hx, hl, hr⟩ := ints_node hint
    obtain ⟨hright, hgather⟩ := ihl hl
    obtain ⟨hright', hgather'⟩ := ihr hr
    exact ⟨right_node hx.2 hright hgather hright' hgather', gatherRight_node hright hright'⟩

/-! ## The recursion returns -/

/-- The totals of all sets of nodes without adjacent ones fit in an `int`. -/
def Fits (t : BinaryTree Int) : Prop := ∀ w ∈ Totals t, w < 2 ^ 31

theorem fits_node (h : Fits (.node x l r)) : Fits l ∧ Fits r := by
  have hsum : ∀ y ∈ Totals l, ∀ z ∈ Totals r, y + z < 2 ^ 31 := by
    intro y hy z hz
    apply h
    rw [totals_node, skips_node]
    exact Or.inl (add_mem_add hy hz)
  refine ⟨?_, ?_⟩
  · intro y hy
    have := hsum y hy 0 (skips_subset_totals r (zero_mem_skips r))
    omega
  · intro z hz
    have := hsum 0 (skips_subset_totals l (zero_mem_skips l)) z hz
    omega

/-- The greatest total is not negative. -/
theorem nonneg_of_greatest (h : IsGreatest (Totals t) v) : 0 ≤ v := h.2 (skips_subset_totals t (zero_mem_skips t))

/-- The grandchildren can be added, when the sums fit. -/
def GatherReturns (t : BinaryTree Int) : Prop :=
  ∀ money, -2 ^ 31 ≤ money → money < 2 ^ 31 → (∀ g ∈ Skips t, money + g < 2 ^ 31) → ∃ v, gather money t = some v

theorem rob_returns (hint : Ints t) (hf : Fits t) : (∃ v, rob t = some v) ∧ GatherReturns t := by
  induction t with
  | nil => exact ⟨⟨0, rfl⟩, fun money _ _ _ => ⟨money, rfl⟩⟩
  | node x l r ihl ihr =>
    obtain ⟨hx, hl, hr⟩ := ints_node hint
    obtain ⟨hfl, hfr⟩ := fits_node hf
    obtain ⟨⟨a, ha⟩, hgl⟩ := ihl hl hfl
    obtain ⟨⟨b, hb⟩, hgr⟩ := ihr hr hfr
    obtain ⟨hright, hgather⟩ := rob_right hl
    obtain ⟨hright', hgather'⟩ := rob_right hr
    have hga := (hright a ha).1
    have hgb := (hright' b hb).1
    have hskip : a + b ∈ Skips (.node x l r) := by
      rw [skips_node]
      exact add_mem_add hga.1 hgb.1
    have hpos := nonneg_of_greatest hga
    have hpos' := nonneg_of_greatest hgb
    have hlt := hf _ (skips_subset_totals _ hskip)
    have hsum : addInt a b = some (a + b) := addInt_of_fits (by omega) hlt
    have hroot : ∀ g ∈ Skips l, ∀ g' ∈ Skips r, x + (g + g') < 2 ^ 31 := by
      intro g hg g' hg'
      apply hf
      rw [totals_node]
      exact Or.inr (add_mem_add rfl (add_mem_add hg hg'))
    refine ⟨?_, ?_⟩
    · obtain ⟨money, hmoney⟩ := hgl x hx.1 hx.2 fun g hg => by
        have := hroot g hg 0 (zero_mem_skips r)
        omega
      obtain ⟨⟨g, hg, heq⟩, hltm⟩ := hgather x money hx.2 hmoney
      have hgpos := hg.2 (zero_mem_skips l)
      obtain ⟨money', hmoney'⟩ := hgr money (by omega) hltm fun g' hg' => by
        have := hroot g hg.1 g' hg'
        omega
      unfold rob
      rw [hmoney, bind_eq_bind, bind_some, hmoney', bind_some, ha, bind_some, hb, bind_some, hsum]
      exact ⟨_, rfl⟩
    · intro money hlow _ hg
      have := hg _ hskip
      unfold gather
      rw [ha, bind_eq_bind, bind_some, hb, bind_some, hsum, bind_some, addInt_of_fits (by omega) (by omega)]
      exact ⟨_, rfl⟩

/-! ## The table holds results of the recursion -/

section Table

variable {T : BinaryTree (Addr × Int)} {memo : Memo}

/-- The results that are stored are those of the recursion. -/
def Good (T : BinaryTree (Addr × Int)) (memo : Memo) : Prop :=
  ∀ a v, memo a = some v → ∀ y l r, Subtree (.node (a, y) l r) T → rob (.node y (l.map Prod.snd) (r.map Prod.snd)) = some v

/-- A version with the table and one without compute the same, and the table stays good. -/
def Agrees (T : BinaryTree (Addr × Int)) : Option (Int × Memo) → Option Int → Prop := Option.Rel fun found v => found.1 = v ∧ Good T found.2

variable {l r : BinaryTree (Addr × Int)}

theorem Good.insert (hT : ((preorder T).map fst).Nodup) (h : Good T memo) {a : Addr} {y : Int}
    (hsub : Subtree (.node (a, y) l r) T) (hv : rob (.node y (l.map snd) (r.map snd)) = some v) : Good T (memo.insert a v) := by
  unfold Memo.insert
  split_ifs
  · intro a' w hw y' l' r' hsub'
    by_cases heq : a' = a
    · rw [heq, Function.update_self] at hw
      cases hw
      have hs := hsub.unique hT hsub' heq.symm
      obtain ⟨⟨-, rfl⟩, rfl, rfl⟩ := hs
      exact hv
    · rw [Function.update_of_ne heq] at hw
      exact h a' w hw y' l' r' hsub'
  · exact h

theorem agrees_gather_node {n : Addr × Int} (hl : ∀ memo, Good T memo → Agrees T (Memo.helper l memo) (rob (l.map snd)))
    (hr : ∀ memo, Good T memo → Agrees T (Memo.helper r memo) (rob (r.map snd))) (money : Int) (hgood : Good T memo) :
    Agrees T (Memo.gather money (.node n l r) memo) (gather money (.node n.2 (l.map snd) (r.map snd))) := by
  refine rel_bind (hl memo hgood) ?_
  intro ⟨a, memo1⟩ _ _ ⟨rfl, hgood1⟩
  refine rel_bind (hr memo1 hgood1) ?_
  intro ⟨b, memo2⟩ _ _ ⟨rfl, hgood2⟩
  simp only
  cases addInt a b with
  | none => exact Rel.none
  | some sum =>
    simp only [bind_eq_bind, bind_some]
    cases addInt money sum with
    | none => exact Rel.none
    | some money' => exact Rel.some ⟨rfl, hgood2⟩

theorem agrees_helper_node (hT : ((preorder T).map fst).Nodup) {n : Addr × Int} (hsub : Subtree (.node n l r) T)
    (hl : ∀ memo, Good T memo → Agrees T (Memo.helper l memo) (rob (l.map snd)))
    (hr : ∀ memo, Good T memo → Agrees T (Memo.helper r memo) (rob (r.map snd)))
    (hgl : ∀ money memo, Good T memo → Agrees T (Memo.gather money l memo) (gather money (l.map snd)))
    (hgr : ∀ money memo, Good T memo → Agrees T (Memo.gather money r memo) (gather money (r.map snd))) (hgood : Good T memo) :
    Agrees T (Memo.helper (.node n l r) memo) (rob (.node n.2 (l.map snd) (r.map snd))) := by
  unfold Memo.helper
  cases hst : memo n.1 with
  | some v =>
    rw [hgood n.1 v hst n.2 l r hsub]
    exact Rel.some ⟨rfl, hgood⟩
  | none =>
    have hrob := rob.eq_2 n.2 (l.map snd) (r.map snd)
    refine rel_bind (hgl n.2 memo hgood) ?_
    intro ⟨money, memo1⟩ _ hmoney ⟨rfl, hgood1⟩
    refine rel_bind (hgr money memo1 hgood1) ?_
    intro ⟨money', memo2⟩ _ hmoney' ⟨rfl, hgood2⟩
    refine rel_bind (hl memo2 hgood2) ?_
    intro ⟨a, memo3⟩ _ ha ⟨rfl, hgood3⟩
    refine rel_bind (hr memo3 hgood3) ?_
    intro ⟨b, memo4⟩ _ hb ⟨rfl, hgood4⟩
    cases hsum : addInt a b with
    | none =>
      simp only [hsum]
      exact Rel.none
    | some sum =>
      simp only [hsum]
      refine Rel.some ⟨rfl, hgood4.insert hT hsub ?_⟩
      rw [hrob, hmoney, bind_eq_bind, bind_some, hmoney', bind_some, ha, bind_some, hb, bind_some, hsum]
      rfl

theorem helper_agrees (hT : ((preorder T).map fst).Nodup) {t : BinaryTree (Addr × Int)} (hsub : Subtree t T) :
    (∀ memo, Good T memo → Agrees T (Memo.helper t memo) (rob (t.map snd))) ∧
      ∀ money memo, Good T memo → Agrees T (Memo.gather money t memo) (gather money (t.map snd)) := by
  induction t with
  | nil => exact ⟨fun memo hgood => Rel.some ⟨rfl, hgood⟩, fun money memo hgood => Rel.some ⟨rfl, hgood⟩⟩
  | node n l r ihl ihr =>
    obtain ⟨hl, hgl⟩ := ihl ((Subtree.left n r (Subtree.refl l)).trans hsub)
    obtain ⟨hr, hgr⟩ := ihr ((Subtree.right n l (Subtree.refl r)).trans hsub)
    exact ⟨fun memo hgood => agrees_helper_node hT hsub hl hr hgl hgr hgood, fun money memo hgood => agrees_gather_node hl hr money hgood⟩

theorem memo_rob_eq (hT : ((preorder T).map fst).Nodup) : Memo.rob T = rob (T.map snd) := by
  have hnil : Good T fun _ => none := by
    intro a v hv
    cases hv
  have hrel := (helper_agrees hT (Subtree.refl T)).1 _ hnil
  unfold Memo.rob
  rw [map_eq_bind, ← bind_fun_some (rob (T.map snd))]
  refine eq_of_rel (rel_bind hrel ?_)
  intro found v _ hf
  exact Rel.some hf.1

end Table

/-! ## Pairs -/

theorem pair_right {res : Int × Int} (h : Pair.helper t = some res) :
    IsGreatest (Skips t) res.1 ∧ IsGreatest (Totals t) (max res.1 res.2) ∧ max res.1 res.2 < 2 ^ 31 := by
  induction t generalizing res with
  | nil =>
    cases h
    rw [skips_nil, totals_nil]
    exact ⟨isGreatest_singleton, isGreatest_singleton, by decide⟩
  | node x l r ihl ihr =>
    obtain ⟨left, hl, h⟩ := bind_eq_some_iff.1 h
    obtain ⟨right, hr, h⟩ := bind_eq_some_iff.1 h
    obtain ⟨without, hwithout, h⟩ := bind_eq_some_iff.1 h
    obtain ⟨sum, hsum, h⟩ := bind_eq_some_iff.1 h
    obtain ⟨withRoot, hwith, h⟩ := bind_eq_some_iff.1 h
    cases h
    obtain ⟨hskip, htotal, -⟩ := ihl hl
    obtain ⟨hskip', htotal', -⟩ := ihr hr
    obtain ⟨hwithout, -, hf⟩ := eq_add_of_addInt hwithout
    obtain ⟨hsum, -⟩ := eq_add_of_addInt hsum
    obtain ⟨hwith, -, hf'⟩ := eq_add_of_addInt hwith
    have hroot : IsGreatest (Skips (.node x l r)) without := by
      rw [skips_node, hwithout]
      exact isGreatest_add htotal htotal'
    refine ⟨hroot, ?_, max_lt hf hf'⟩
    rw [totals_node, hwith, hsum, add_comm _ x]
    exact hroot.union (isGreatest_add isGreatest_singleton (isGreatest_add hskip hskip'))

theorem pair_returns (hint : Ints t) (hf : Fits t) : ∃ res, Pair.helper t = some res := by
  induction t with
  | nil => exact ⟨_, rfl⟩
  | node x l r ihl ihr =>
    obtain ⟨hx, hl, hr⟩ := ints_node hint
    obtain ⟨hfl, hfr⟩ := fits_node hf
    obtain ⟨left, hleft⟩ := ihl hl hfl
    obtain ⟨right, hright⟩ := ihr hr hfr
    obtain ⟨hskip, htotal, -⟩ := pair_right hleft
    obtain ⟨hskip', htotal', -⟩ := pair_right hright
    have hwithout : max left.1 left.2 + max right.1 right.2 ∈ Totals (.node x l r) := by
      rw [totals_node, skips_node]
      exact Or.inl (add_mem_add htotal.1 htotal'.1)
    have hwith : x + (left.1 + right.1) ∈ Totals (.node x l r) := by
      rw [totals_node]
      exact Or.inr (add_mem_add rfl (add_mem_add hskip.1 hskip'.1))
    have hlt := hf _ hwithout
    have hlt' := hf _ hwith
    have hpos := hskip.2 (zero_mem_skips l)
    have hpos' := hskip'.2 (zero_mem_skips r)
    unfold Pair.helper
    rw [hleft, hright]
    simp only [bind_eq_bind, bind_some]
    rw [addInt_of_fits (by omega) hlt, bind_some, addInt_of_fits (by omega) (by omega), bind_some, addInt_of_fits (by omega) (by omega)]
    exact ⟨_, rfl⟩

/-! ## The three versions -/

/-- A root without value, and two children with the greatest `int`. -/
def rich : BinaryTree (Addr × Int) := .node (0, 0) (.node (1, 2 ^ 31 - 1) .nil .nil) (.node (2, 2 ^ 31 - 1) .nil .nil)

/-- The children together are worth more than an `int` can hold. -/
theorem rob_overflows : (rob (rich.map Prod.snd) = none ∧ Memo.rob rich = none ∧ Pair.rob (rich.map Prod.snd) = none) ∧
    ∃ s, Independent (rich.map Prod.snd) s ∧ gain (rich.map Prod.snd) s = 2 ^ 32 - 2 := by
  refine ⟨by decide, {[false], [true]}, ⟨?_, ?_⟩, by decide⟩
  · simp [rich, BinaryTree.map, valueAt]
  · simp [Adjacent]

/-- For nodes at different addresses: the three versions return the greatest total if and only if the totals fit in an `int`. -/
theorem rob_agree_iff {t : BinaryTree (Addr × Int)} (haddrs : ((preorder t).map Prod.fst).Nodup)
    (hint : ∀ n ∈ preorder t, -2 ^ 31 ≤ n.2 ∧ n.2 < 2 ^ 31) :
    (∃ v, (rob (t.map Prod.snd) = some v ∧ Memo.rob t = some v ∧ Pair.rob (t.map Prod.snd) = some v) ∧
        IsGreatest {w | ∃ s, Independent (t.map Prod.snd) s ∧ gain (t.map Prod.snd) s = w} v) ↔
      ∀ s, Independent (t.map Prod.snd) s → gain (t.map Prod.snd) s < 2 ^ 31 := by
  have hints : Ints (t.map snd) := by
    intro y hy
    rw [preorder_map] at hy
    obtain ⟨n, hn, rfl⟩ := List.mem_map.1 hy
    exact hint n hn
  constructor
  · intro h s hs
    obtain ⟨v, ⟨hrob, -⟩, hgreatest⟩ := h
    exact (hgreatest.2 ⟨s, hs, rfl⟩).trans_lt ((rob_right hints).1 v hrob).2
  · intro h
    have hfits : Fits (t.map snd) := by
      intro w hw
      obtain ⟨s, hs, rfl⟩ := hw
      exact h s hs
    obtain ⟨⟨v, hv⟩, -⟩ := rob_returns hints hfits
    obtain ⟨res, hres⟩ := pair_returns hints hfits
    have hgreatest := ((rob_right hints).1 v hv).1
    have hpair : Pair.rob (t.map snd) = some v := by
      unfold Pair.rob
      rw [hres, hgreatest.unique (pair_right hres).2.1]
      rfl
    exact ⟨v, ⟨hv, (memo_rob_eq haddrs).trans hv, hpair⟩, hgreatest⟩

/-- A root with two children and a grandchild on either side. -/
def street : BinaryTree (Addr × Int) :=
  .node (0, 3) (.node (1, 2) .nil (.node (2, 3) .nil .nil)) (.node (3, 3) .nil (.node (4, 1) .nil .nil))

theorem rob_agree_iff_street : ∃ v, (rob (street.map Prod.snd) = some v ∧ Memo.rob street = some v ∧ Pair.rob (street.map Prod.snd) = some v) ∧
    IsGreatest {w | ∃ s, Independent (street.map Prod.snd) s ∧ gain (street.map Prod.snd) s = w} v := by
  have hint : ∀ n ∈ preorder street, -2 ^ 31 ≤ n.2 ∧ n.2 < 2 ^ 31 := by decide
  refine (rob_agree_iff (by decide) hint).2 ?_
  intro s hs
  have hints : Ints (street.map snd) := by
    unfold Ints
    decide
  have hgreatest := ((rob_right hints).1 7 (by decide)).1
  exact (hgreatest.2 ⟨s, hs, rfl⟩).trans_lt (by decide)

end CsLearning.LeetCode.HouseRobber
