import CsLearning.Lib.TreeEnumeration

/-!
# All search trees with keys 1..n

The three `generateTrees` of `95_unique-binary-search-trees-ii.md` (by recursion on an interval of keys, by a table over the number of keys, and
by inserting one more key into every tree) and `numTrees` of `96_unique-binary-search-trees.md`, which counts the trees.

The trees the functions return share subtrees, and no node is written once its tree has been returned: a tree is modelled by its value.
-/

open List Option Function Nat

namespace CsLearning.LeetCode.GenerateTrees

abbrev Tree := BinaryTree Int

/-! ## Intervals of keys -/

/-- The values of `i` in `for (int i = a; i <= b; i++)`. -/
def interval (a b : Int) : List Int := (List.range (b + 1 - a).toNat).map fun k : Nat => a + k

variable {a b i start stop : Int} {root t : Tree} {n len j m intMax k : Nat}

@[simp] theorem mem_interval : i ∈ interval a b ↔ a ≤ i ∧ i ≤ b := by
  simp only [interval, List.mem_map, mem_range]
  constructor
  · omega
  · rintro ⟨ha, hb⟩
    exact ⟨(i - a).toNat, by omega, by omega⟩

theorem interval_pairwise (a b : Int) : (interval a b).Pairwise (· < ·) := by
  rw [interval, pairwise_map]
  refine pairwise_lt_range.imp fun {j k} hjk => ?_
  omega

theorem interval_nodup (a b : Int) : (interval a b).Nodup := (interval_pairwise a b).imp fun h => h.ne

@[simp] theorem length_interval (a b : Int) : (interval a b).length = (b + 1 - a).toNat := by
  rw [interval, length_map, length_range]

/-- An interval is the only ascending list of its members. -/
theorem eq_interval {ks : List Int} (hks : ks.Pairwise (· < ·)) (h : ∀ k, k ∈ ks ↔ a ≤ k ∧ k ≤ b) : ks = interval a b := by
  have hnd : ks.Nodup := hks.imp fun h => h.ne
  have hp : ks.Perm (interval a b) := by
    rw [perm_ext_iff_of_nodup hnd (interval_nodup a b)]
    intro k
    rw [h k, mem_interval]
  exact hp.eq_of_pairwise (fun x y _ _ hxy hyx => absurd hxy hyx.asymm) hks (interval_pairwise a b)

theorem interval_empty (h : b < a) : interval a b = [] := by
  rw [← length_eq_zero_iff, length_interval]
  omega

theorem interval_split (ha : a ≤ i) (hb : i ≤ b) : interval a b = interval a (i - 1) ++ i :: interval (i + 1) b := by
  symm
  apply eq_interval
  · rw [pairwise_append, pairwise_cons]
    refine ⟨interval_pairwise _ _, ⟨?_, interval_pairwise _ _⟩, ?_⟩
    · intro k hk
      rw [mem_interval] at hk
      omega
    · intro j hj k hk
      simp only [mem_cons, mem_interval] at hj hk
      omega
  · simp only [mem_append, mem_cons, mem_interval]
    omega

theorem interval_succ (n : Nat) : interval 1 (n + 1 : Nat) = interval 1 n ++ [(n + 1 : Int)] := by
  rw [interval_split (i := (n + 1 : Int)) (by omega) (by omega), interval_empty (a := (n + 1 : Int) + 1) (by omega)]
  congr 2
  omega

theorem interval_shift (a b c : Int) : (interval a b).map (· + c) = interval (a + c) (b + c) := by
  apply eq_interval
  · rw [pairwise_map]
    exact (interval_pairwise a b).imp fun h => by omega
  · intro k
    simp only [List.mem_map, mem_interval]
    constructor
    · omega
    · intro hk
      exact ⟨k - c, by omega, by omega⟩

theorem interval_sides {a b root : Int} {left right : List Int} (h : left ++ root :: right = interval a b) :
    a ≤ root ∧ root ≤ b ∧ left = interval a (root - 1) ∧ right = interval (root + 1) b := by
  have hmem : root ∈ interval a b := h ▸ mem_append_cons_self
  obtain ⟨ha, hb⟩ := mem_interval.mp hmem
  have hnd : (left ++ root :: right).Nodup := h ▸ interval_nodup a b
  rw [interval_split ha hb] at h
  have hl : root ∉ left := by grind
  have hr : root ∉ right := (nodup_cons.mp hnd.of_append_right).1
  obtain ⟨h1, -, h2⟩ := (append_cons_inj_of_notMem hl hr).mp h
  exact ⟨ha, hb, h1, h2⟩

theorem searchTree_iff : (IsSearchTree t ∧ ∀ k, k ∈ inorder t ↔ 1 ≤ k ∧ k ≤ n) ↔ inorder t = interval 1 n := by
  rw [isSearchTree_iff]
  constructor
  · rintro ⟨hasc, hk⟩
    exact eq_interval hasc hk
  · intro h
    rw [h]
    exact ⟨interval_pairwise 1 n, fun k => mem_interval⟩

/-! ## By recursion on the interval of keys -/

/-- `helper(start, end)`. -/
def helper (start stop : Int) : List Tree :=
  if start > stop then [.nil]
  else if start = stop then [.node start .nil .nil]
  else
    (interval start stop).attach.flatMap fun i =>
      (helper start (i.1 - 1)).flatMap fun left_tree =>
        (helper (i.1 + 1) stop).map fun right_tree => .node i.1 left_tree right_tree
termination_by (stop + 1 - start).toNat
decreasing_by
  all_goals
    have hi := mem_interval.mp i.2
    omega

def generateTrees (n : Nat) : List Tree :=
  if n = 0 then [] else helper 1 n

theorem helper_of_gt (h : stop < start) : helper start stop = [.nil] := by
  rw [helper, if_pos h]

theorem helper_of_le (h : start ≤ stop) : helper start stop = (interval start stop).flatMap fun i =>
      (helper start (i - 1)).flatMap fun l => (helper (i + 1) stop).map fun r => .node i l r := by
  rw [helper, if_neg (by omega)]
  split_ifs with heq
  · subst heq
    have hone : interval start start = [start] := by simp [interval]
    rw [hone, flatMap_singleton, helper_of_gt (by omega : start - 1 < start), helper_of_gt (by omega : start < start + 1)]
    rfl
  · simp

theorem helper_enumerates (len : Nat) (start stop : Int) (hlen : (stop + 1 - start).toNat = len) :
    Enumerates (helper start stop) (interval start stop) := by
  induction len using Nat.strong_induction_on generalizing start stop with
  | _ len ih =>
    by_cases h : stop < start
    · rw [helper_of_gt h, interval_empty h]
      exact .empty
    · rw [not_lt] at h
      rw [helper_of_le h]
      refine .join ?_ (interval_nodup start stop) ?_
      · exact ne_nil_of_mem (mem_interval.mpr ⟨le_refl start, h⟩)
      · intro left root right hsp
        obtain ⟨ha, hb, rfl, rfl⟩ := interval_sides hsp
        exact ⟨ih _ (by omega) _ _ rfl, ih _ (by omega) _ _ rfl⟩

theorem generateTrees_enumerates (hn : 1 ≤ n) : Enumerates (generateTrees n) (interval 1 n) := by
  rw [generateTrees, if_neg (by omega)]
  exact helper_enumerates _ 1 n rfl

/-! ## By a table over the number of keys -/

/-- The copy of a tree with an offset on every key. -/
def clone : Tree → Int → Tree
  | .nil, _ => .nil
  | .node v left right, offset => .node (v + offset) (clone left offset) (clone right offset)

/-- The table: the trees with keys `1..len` at `len`. -/
abbrev Table := Int → List Tree

/-- One round of the loop over `len`. -/
def lenRound (dp : Table) (len : Int) : Table :=
  Function.update dp len <| dp len ++ (interval 1 len).flatMap fun root_val =>
    (dp (root_val - 1)).flatMap fun left_tree =>
      (dp (len - root_val)).map fun right_tree => .node root_val left_tree (clone right_tree root_val)

/-- The table before the loop: the empty tree at 0. -/
def firstTable : Table := Function.update (fun _ => []) 0 [.nil]

def generateTreesDP (n : Nat) : List Tree :=
  if n = 0 then [] else (interval 1 n).foldl lenRound firstTable n

theorem clone_eq_map (t : Tree) (offset : Int) : clone t offset = t.map (· + offset) := by
  induction t with
  | nil => rfl
  | node v l r ihl ihr => rw [clone, ihl, ihr, BinaryTree.map]

/-- After `len` rounds the first `len + 1` entries of the table are filled. -/
structure Filled (dp : Table) (len : Nat) : Prop where
  enumerates : ∀ k : Nat, k ≤ len → Enumerates (dp k) (interval 1 k)
  empty : ∀ k : Nat, len < k → dp k = []

theorem filled_firstTable : Filled firstTable 0 where
  enumerates k hk := by
    obtain rfl := le_zero.mp hk
    exact .empty
  empty k hk := update_of_ne (by omega) _ _

/-- The trees over all keys, from those of the table: the right subtrees are copies with the root as offset. -/
theorem Filled.join {dp : Table} (h : Filled dp len) : Enumerates ((interval 1 (len + 1)).flatMap fun root => (dp (root - 1)).flatMap fun l =>
      ((dp (len + 1 - root)).map (BinaryTree.map (· + root))).map fun r => .node root l r) (interval 1 (len + 1)) := by
  refine .join ?_ (interval_nodup _ _) ?_
  · exact ne_nil_of_mem (mem_interval.mpr ⟨le_refl 1, by omega⟩)
  · intro left root right hsp
    obtain ⟨ha, hb, rfl, rfl⟩ := interval_sides hsp
    obtain ⟨i, hi⟩ : ∃ i : Nat, root - 1 = i := ⟨(root - 1).toNat, by omega⟩
    obtain ⟨j, hj⟩ : ∃ j : Nat, len + 1 - root = j := ⟨(len + 1 - root).toNat, by omega⟩
    have hr : interval (root + 1) (len + 1) = (interval 1 j).map (· + root) := by grind [interval_shift]
    rw [hi, hj, hr]
    exact ⟨h.enumerates i (by omega), (h.enumerates j (by omega)).map _⟩

theorem Filled.round {dp : Table} (h : Filled dp len) : Filled (lenRound dp (len + 1)) (len + 1) where
  enumerates k hk := by
    rcases lt_or_ge len k with hlt | hle
    · -- the entry of this round, from those of the rounds before
      obtain rfl : k = len + 1 := by omega
      have hnil : dp (len + 1 : Int) = [] := h.empty (len + 1) hlt
      have hcopies : ∀ root : Int, ∀ l : Tree,
          ((dp (len + 1 - root)).map fun r => BinaryTree.node root l (clone r root)) =
            ((dp (len + 1 - root)).map (BinaryTree.map (· + root))).map fun r => .node root l r := by
        intro root l
        simp only [clone_eq_map, List.map_map]
        rfl
      rw [lenRound, cast_add_one, update_self, hnil, nil_append]
      simp only [hcopies]
      exact h.join
    · rw [lenRound, update_of_ne (by omega)]
      exact h.enumerates k hle
  empty k hk := by
    rw [lenRound, update_of_ne (by omega)]
    exact h.empty k (by omega)

theorem filled_rounds (n : Nat) : Filled ((interval 1 n).foldl lenRound firstTable) n := by
  induction n with
  | zero => exact filled_firstTable
  | succ n ih =>
    rw [interval_succ, foldl_append]
    exact ih.round

theorem generateTreesDP_enumerates (hn : 1 ≤ n) : Enumerates (generateTreesDP n) (interval 1 n) := by
  rw [generateTreesDP, if_neg (by omega)]
  exact (filled_rounds n).enumerates n (le_refl n)

/-! ## By inserting one more key -/

/-- The copy of a tree in which the `j`-th node of the right spine gets `i` as its right child, above the old right subtree; none where the walk
to the right comes to a null pointer. -/
def insertAt (i : Int) : Nat → Tree → Option Tree
  | _, .nil => none
  | 0, .node v left right_tree => some (.node v left (.node i right_tree .nil))
  | j + 1, .node v left right => (insertAt i j right).map fun right => .node v left right

/-- The rounds of the loop over `j`, which ends at the first null pointer. -/
def insertLoop (i : Int) (root : Tree) : Nat → Nat → List Tree
  | 0, _ => []
  | rounds + 1, j =>
    match insertAt i j root with
    | none => []
    | some root_copy => root_copy :: insertLoop i root rounds (j + 1)

/-- The trees made from one tree: `i` at the root, and then along the right spine for `j = 0, ..., n`. -/
def insertions (n : Nat) (i : Int) (root : Tree) : List Tree :=
  .node i root .nil :: insertLoop i root (n + 1) 0

/-- One round of the loop over `i`: from `pre` to `cur`. -/
def insertRound (n : Nat) (pre : List Tree) (i : Int) : List Tree := pre.flatMap (insertions n i)

def generateTreesInc (n : Nat) : List Tree :=
  if n = 0 then [] else (interval 1 n).foldl (insertRound n) [.nil]

/-- The nodes on the right spine. -/
def spine : Tree → Nat
  | .nil => 0
  | .node _ _ r => spine r + 1

/-- The tree without the last node of its right spine. -/
def init : Tree → Tree
  | .nil => .nil
  | .node _ l .nil => l
  | .node v l (.node w rl rr) => .node v l (init (.node w rl rr))

theorem spine_le (t : Tree) : spine t ≤ t.numNodes := by
  induction t with
  | nil => exact le_refl _
  | node v l r _ ihr =>
    simp only [spine, BinaryTree.numNodes]
    omega

theorem init_node {v : Int} {l r : Tree} (hr : r ≠ .nil) : init (.node v l r) = .node v l (init r) := by
  cases r with
  | nil => exact absurd rfl hr
  | node w rl rr => rfl

theorem inorder_ne_nil (h : t ≠ .nil) : inorder t ≠ [] := by
  cases t with
  | nil => exact absurd rfl h
  | node v l r => simp

theorem inorder_init (t : Tree) : inorder (init t) = (inorder t).dropLast := by
  induction t with
  | nil => rfl
  | node v l r _ ihr =>
    by_cases hr : r = .nil
    · subst hr
      simp [init]
    · have hne := inorder_ne_nil hr
      rw [init_node hr, inorder_node, inorder_node, ihr, dropLast_append_of_ne_nil (cons_ne_nil _ _), dropLast_cons_of_ne_nil hne]

theorem insertAt_spec (h : insertAt i j root = some t) : init t = root ∧ spine t = j + 2 ∧ inorder t = inorder root ++ [i] := by
  induction root generalizing j t with
  | nil => simp [insertAt] at h
  | node v l r _ ihr =>
    cases j with
    | zero =>
      simp only [insertAt, some.injEq] at h
      subst h
      simp [init, spine]
    | succ j =>
      simp only [insertAt, map_eq_some_iff] at h
      obtain ⟨r', hr', rfl⟩ := h
      obtain ⟨hinit, hspine, hinorder⟩ := ihr hr'
      have hne : r' ≠ .nil := by
        rintro rfl
        simp [spine] at hspine
      rw [init_node hne, hinit, spine, hspine, inorder_node, hinorder]
      simp

theorem insertAt_eq_none : insertAt i j root = none ↔ spine root ≤ j := by
  induction root generalizing j with
  | nil => simp [insertAt, spine]
  | node v l r _ ihr =>
    cases j with
    | zero => simp [insertAt, spine]
    | succ j => simp [insertAt, spine, ihr]

/-- Every tree whose last key is `i` comes from the tree without that node. -/
theorem exists_insertAt (h : (inorder t).getLast? = some i) : t = .node i (init t) .nil ∨ ∃ j, insertAt i j (init t) = some t := by
  induction t with
  | nil => simp at h
  | node v l r _ ihr =>
    by_cases hr : r = .nil
    · subst hr
      obtain rfl : v = i := by simpa using h
      exact .inl rfl
    · have hl : (inorder r).getLast? = some i := by grind [inorder_node, inorder_ne_nil]
      rw [init_node hr]
      rcases ihr hl with heq | ⟨j, hj⟩
      · refine .inr ⟨0, ?_⟩
        rw [insertAt, ← heq]
      · refine .inr ⟨j + 1, ?_⟩
        rw [insertAt, hj, map_some]

theorem mem_insertLoop {rounds j : Nat} : t ∈ insertLoop i root rounds j ↔ ∃ k, j ≤ k ∧ k < j + rounds ∧ insertAt i k root = some t := by
  induction rounds generalizing j with
  | zero =>
    simp only [insertLoop, not_mem_nil, false_iff]
    omega
  | succ rounds ih =>
    unfold insertLoop
    cases hj : insertAt i j root with
    | none =>
      simp only [not_mem_nil, false_iff, not_exists]
      rintro k ⟨hjk, -, hk⟩
      have hn : insertAt i k root = none := insertAt_eq_none.mpr ((insertAt_eq_none.mp hj).trans hjk)
      rw [hn] at hk
      exact absurd hk (by simp)
    | some root_copy =>
      simp only [mem_cons, ih]
      constructor
      · grind
      · grind

theorem insertLoop_nodup (i : Int) (root : Tree) (rounds j : Nat) : (insertLoop i root rounds j).Nodup := by
  induction rounds generalizing j with
  | zero => exact nodup_nil
  | succ rounds ih =>
    unfold insertLoop
    cases hj : insertAt i j root with
    | none => exact nodup_nil
    | some root_copy =>
      refine nodup_cons.mpr ⟨?_, ih (j + 1)⟩
      intro hmem
      obtain ⟨k, hjk, -, hk⟩ := mem_insertLoop.mp hmem
      have h1 := (insertAt_spec hj).2.1
      have h2 := (insertAt_spec hk).2.1
      omega

/-- The trees made from `root` are those with last key `i` that leave `root` when that key is taken out: the bound on `j` cuts none off. -/
theorem mem_insertions (hn : spine root ≤ n) : t ∈ insertions n i root ↔ init t = root ∧ inorder t = inorder root ++ [i] := by
  rw [insertions, mem_cons, mem_insertLoop]
  constructor
  · rintro (rfl | ⟨k, -, -, hk⟩)
    · exact ⟨rfl, by simp⟩
    · grind [insertAt_spec]
  · rintro ⟨rfl, hinorder⟩
    have hl : (inorder t).getLast? = some i := by rw [hinorder, getLast?_concat]
    refine (exists_insertAt hl).imp id ?_
    rintro ⟨j, hj⟩
    have hspine : j < spine (init t) := by
      by_contra hge
      rw [insertAt_eq_none.mpr (not_lt.mp hge)] at hj
      exact absurd hj (by simp)
    exact ⟨j, zero_le j, by omega, hj⟩

theorem insertions_nodup (n : Nat) (i : Int) (root : Tree) : (insertions n i root).Nodup := by
  refine nodup_cons.mpr ⟨?_, insertLoop_nodup i root (n + 1) 0⟩
  intro hmem
  obtain ⟨k, -, -, hk⟩ := mem_insertLoop.mp hmem
  have hspine := (insertAt_spec hk).2.1
  simp only [spine] at hspine
  omega

theorem insertRound_enumerates {pre : List Tree} {keys : List Int} (h : Enumerates pre keys) (hn : keys.length ≤ n) (i : Int) :
    Enumerates (insertRound n pre i) (keys ++ [i]) := by
  have hspine : ∀ root ∈ pre, spine root ≤ n := by
    intro root hr
    have hlen := length_inorder root
    rw [(h.mem_iff root).mp hr] at hlen
    exact (spine_le root).trans (by omega)
  constructor
  · rw [insertRound, nodup_flatMap]
    refine ⟨fun root _ => insertions_nodup n i root, ?_⟩
    -- two trees whose last keys are taken out leave the same tree only if they were made from the same one
    refine Pairwise.imp_of_mem ?_ h.nodup
    intro a b ha hb hab t hta htb
    have h1 := ((mem_insertions (hspine a ha)).mp hta).1
    have h2 := ((mem_insertions (hspine b hb)).mp htb).1
    exact hab (h1.symm.trans h2)
  · intro t
    rw [insertRound, mem_flatMap]
    constructor
    · rintro ⟨root, hr, ht⟩
      rw [((mem_insertions (hspine root hr)).mp ht).2, (h.mem_iff root).mp hr]
    · intro ht
      have hinit : inorder (init t) = keys := by rw [inorder_init, ht, dropLast_concat]
      have hmem : init t ∈ pre := (h.mem_iff _).mpr hinit
      exact ⟨init t, hmem, (mem_insertions (hspine _ hmem)).mpr ⟨rfl, by rw [hinit, ht]⟩⟩

theorem insertRounds_enumerates (hm : m ≤ n) : Enumerates ((interval 1 m).foldl (insertRound n) [.nil]) (interval 1 m) := by
  induction m with
  | zero => exact .empty
  | succ m ih =>
    rw [interval_succ, foldl_append]
    refine insertRound_enumerates (ih (by omega)) ?_ _
    rw [length_interval]
    omega

theorem generateTreesInc_enumerates (hn : 1 ≤ n) : Enumerates (generateTreesInc n) (interval 1 n) := by
  rw [generateTreesInc, if_neg (by omega)]
  exact insertRounds_enumerates (le_refl n)

/-! ## Their number -/

/-- An `int` value, unless it overflows. -/
def checked (intMax v : Nat) : Option Nat :=
  if v ≤ intMax then some v else none

/-- `G[i] += G[j] * G[i - 1 - j]`. -/
def addProduct (intMax i : Nat) (G : Nat → Nat) (j : Nat) : Option (Nat → Nat) := do
  let product ← checked intMax (G j * G (i - 1 - j))
  let sum ← checked intMax (G i + product)
  return Function.update G i sum

/-- The vector before the loops: `G[0]` and `G[1]` are 1, the rest is 0. -/
def firstCounts : Nat → Nat := Function.update (Function.update (fun _ => 0) 0 1) 1 1

/-- `numTrees(n)`, where `intMax` is the greatest `int`; none where a product or a sum overflows. -/
def numTrees (intMax n : Nat) : Option Nat :=
  if n < 2 then some 1
  else do
    let G ← (List.range' 2 (n - 1)).foldlM (fun G i => (List.range i).foldlM (addProduct intMax i) G) firstCounts
    return G n

/-- The first `m` terms of the sum that makes `G[i]`. -/
def products (i m : Nat) : Nat := ∑ j ∈ Finset.range m, catalan j * catalan (i - 1 - j)

theorem products_succ (i m : Nat) : products i (m + 1) = products i m + catalan m * catalan (i - 1 - m) := Finset.sum_range_succ _ _

theorem products_self (i : Nat) : products (i + 1) (i + 1) = catalan (i + 1) := by
  rw [catalan_succ, products, Finset.sum_range]
  simp

theorem catalan_le_succ (n : Nat) : catalan n ≤ catalan (n + 1) := by
  rw [← products_self, products_succ]
  simp

theorem addProducts {intMax i : Nat} {G : Nat → Nat} (hG : ∀ k < i, G k = catalan k) (hi : G i = 0) (hm : m ≤ i) :
    (range m).foldlM (addProduct intMax i) G = (checked intMax (products i m)).map (update G i) := by
  induction m with
  | zero =>
    have hself : update G i 0 = G := by rw [← hi, update_eq_self]
    simp [products, checked, hself]
  | succ m ih =>
    rw [range_succ, foldlM_append, ih (by omega), products_succ]
    have hfst : ∀ s, update G i s m = catalan m := by
      intro s
      rw [update_of_ne (by omega), hG m (by omega)]
    have hsnd : ∀ s, update G i s (i - 1 - m) = catalan (i - 1 - m) := by
      intro s
      rw [update_of_ne (by omega), hG _ (by omega)]
    by_cases hf : products i m ≤ intMax
    · by_cases hprod : catalan m * catalan (i - 1 - m) ≤ intMax
      · by_cases hsum : products i m + catalan m * catalan (i - 1 - m) ≤ intMax
        · simp [checked, hf, addProduct, hfst, hsnd, hprod, hsum]
        · simp [checked, hf, addProduct, hfst, hsnd, hprod, hsum]
      · grind [checked, addProduct]
    · grind [checked]

/-- The vector after the rounds up to `m`. -/
def counts (m : Nat) : Nat → Nat := fun k => if k ≤ m then catalan k else 0

theorem counts_of_le (h : k ≤ m) : counts m k = catalan k := if_pos h

theorem counts_of_gt (h : m < k) : counts m k = 0 := if_neg (by omega)

theorem firstCounts_eq : firstCounts = counts 1 := by
  funext k
  match k with
  | 0 => simp [firstCounts, counts]
  | 1 => simp [firstCounts, counts]
  | k + 2 => simp [firstCounts, counts]

theorem counts_update (m : Nat) : update (counts m) (m + 1) (catalan (m + 1)) = counts (m + 1) := by
  funext k
  rcases lt_trichotomy k (m + 1) with hlt | rfl | hgt
  · grind [counts_of_le]
  · rw [update_self, counts_of_le (le_refl _)]
  · grind [counts_of_gt]

theorem countRounds (hmax : 1 ≤ intMax) (m : Nat) : (range' 2 m).foldlM (fun G i => (range i).foldlM (addProduct intMax i) G) firstCounts =
      (checked intMax (catalan (m + 1))).map fun _ => counts (m + 1) := by
  induction m with
  | zero => simp [checked, hmax, firstCounts_eq]
  | succ m ih =>
    rw [range'_concat, foldlM_append, ih]
    have hrd : (range (m + 2)).foldlM (addProduct intMax (m + 2)) (counts (m + 1)) =
        (checked intMax (catalan (m + 2))).map fun _ => counts (m + 2) := by
      rw [addProducts (fun k hk => counts_of_le (by omega)) (counts_of_gt (by omega)) (le_refl _), products_self]
      unfold checked
      split_ifs
      · rw [map_some, map_some, counts_update]
      · rfl
    by_cases hf : catalan (m + 1) ≤ intMax
    · simp only [checked, if_pos hf, map_some, bind_eq_bind, bind_some, foldlM_cons, foldlM_nil, one_mul, add_comm 2 m, hrd, bind_pure]
    · have hn : ¬ catalan (m + 2) ≤ intMax := fun h => hf ((catalan_le_succ _).trans h)
      simp only [checked, if_neg hf, if_neg hn, map_none, bind_eq_bind, bind_none]

theorem numTrees_eq (hmax : 1 ≤ intMax) (n : Nat) : numTrees intMax n = checked intMax (catalan n) := by
  unfold numTrees
  split_ifs with hn
  · have hone : catalan n = 1 := by grind [catalan_zero, catalan_one]
    rw [hone, checked, if_pos hmax]
  · rw [countRounds hmax (n - 1), Nat.sub_add_cancel (by omega)]
    unfold checked
    split_ifs
    · simp [counts]
    · rfl

/-- Each of the three functions returns every search tree with keys `1..n` once and nothing else, and `numTrees` returns their number whenever it
is an `int`. -/
theorem generateTrees_all (n : Nat) (hn : 1 ≤ n) :
    (∀ trees ∈ [generateTrees n, generateTreesDP n, generateTreesInc n],
      trees.Nodup ∧ ∀ t, t ∈ trees ↔ IsSearchTree t ∧ ∀ k, k ∈ inorder t ↔ 1 ≤ k ∧ k ≤ n) ∧
    (generateTreesDP n).Perm (generateTrees n) ∧ (generateTreesInc n).Perm (generateTrees n) ∧
    ∀ intMax, 1 ≤ intMax → ∀ number, numTrees intMax n = some number ↔ number = (generateTrees n).length ∧ number ≤ intMax := by
  have h1 := generateTrees_enumerates hn
  have h2 := generateTreesDP_enumerates hn
  have h3 := generateTreesInc_enumerates hn
  refine ⟨?_, h2.perm h1, h3.perm h1, ?_⟩
  · have hall : ∀ trees ∈ [generateTrees n, generateTreesDP n, generateTreesInc n], Enumerates trees (interval 1 n) := by
      intro trees htrees
      simp only [mem_cons, not_mem_nil, or_false] at htrees
      rcases htrees with rfl | rfl | rfl
      · exact h1
      · exact h2
      · exact h3
    intro trees htrees
    refine ⟨(hall trees htrees).nodup, fun t => ?_⟩
    rw [(hall trees htrees).mem_iff, searchTree_iff]
  · intro intMax hmax number
    have hlen : (generateTrees n).length = catalan n := by
      rw [h1.length_eq, length_interval]
      congr 1
      omega
    rw [numTrees_eq hmax, hlen, checked]
    split_ifs with hfits
    · rw [some.injEq]
      constructor
      · rintro rfl
        exact ⟨rfl, hfits⟩
      · intro h
        exact h.1.symm
    · constructor
      · intro h
        exact absurd h (by simp)
      · rintro ⟨rfl, h⟩
        exact absurd h hfits

theorem generateTrees_all_three : (generateTrees 3).length = 5 ∧ (generateTreesInc 3).Perm (generateTrees 3) := by
  obtain ⟨-, -, hperm, hnum⟩ := generateTrees_all 3 (by decide)
  have hfive : numTrees (2 ^ 31 - 1) 3 = some 5 := by decide
  exact ⟨((hnum (2 ^ 31 - 1) (by decide) 5).mp hfive).1.symm, hperm⟩

end CsLearning.LeetCode.GenerateTrees
