import CsLearning.Lib.Cpp
import CsLearning.Lib.Loop
import CsLearning.Lib.TreeCells

/-!
# A tree from its dashed preorder

Problem 1028. `recoverFromPreorder` reads a depth and a value at a time, makes a node and links it to its parent through the stack of
the nodes from the root to the last one. The nodes are made at the addresses 0, 1, 2 and so on. Popping or reading an empty stack
has no outcome.
-/

open List Option Function Nat

namespace CsLearning.LeetCode

/-! ## The function of the source -/

/-- The variables of `recoverFromPreorder` besides `index`: the memory, the number of nodes made, the depth of the last node, and the stack
with its top first. -/
structure Recovering where
  mem : Mem (TreeCell CInt)
  made : Nat
  depth : Int
  mystack : List Addr

/-- `pop` called `n` times. -/
def pops {α : Type} : Nat → List α → Option (List α)
  | 0, s => some s
  | _ + 1, [] => none
  | n + 1, _ :: s => pops n s

/-- The part of a round that makes the node and links it. -/
def place (x : Recovering) (curdepth : Int) (val : CInt) : Option Recovering := do
  let res := x.made
  let mem ← x.mem.new res ⟨val, none, none⟩
  if curdepth = x.depth + 1 then
    let top ← x.mystack.head?
    let mem ← mem.write (some top) fun c => { c with left := some res }
    return ⟨mem, x.made + 1, curdepth, res :: x.mystack⟩
  else
    let delta := x.depth - curdepth + 1
    let mystack ← pops delta.toNat x.mystack
    let top ← mystack.head?
    let mem ← mem.write (some top) fun c => { c with right := some res }
    return ⟨mem, x.made + 1, curdepth, res :: mystack⟩

/-- The loop, over `index` and the other variables. -/
def recoverRound (S : Text) (x : Nat × Recovering) : Option (Round (Nat × Recovering) (Mem (TreeCell CInt))) :=
  if x.1 < S.length then do
    let index := Text.skip (· == '-') S x.1
    let curdepth : Int := index - x.1
    let next := Text.skip (· != '-') S index
    let val ← (Text.stoi (Text.substr S index (next - index))).toOption
    let y ← place x.2 curdepth val
    return .again (next, y)
  else some (.stop x.2.mem)

/-- The memory and the pointer to the root. Every round but the last moves `index` on. -/
def recoverFromPreorder (S : Text) : Option (Mem (TreeCell CInt) × Ptr) := do
  let next := Text.skip (· != '-') S 0
  let val ← (Text.stoi (Text.substr S 0 next)).toOption
  let mem ← Mem.new (fun _ => none) 0 ⟨val, none, none⟩
  let mem ← loop (recoverRound S) (S.length + 1) (next, ⟨mem, 1, 0, [0]⟩)
  return (mem, some 0)

/-! ## The text of a tree -/

/-- A tree whose root has the depth `d`, printed in preorder: as many dashes as the node is deep, and its value. -/
def dashed (d : Nat) : BinaryTree CInt → Text
  | .nil => []
  | .node v l r => List.replicate d '-' ++ Text.toString v ++ (dashed (d + 1) l ++ dashed (d + 1) r)

/-- A node with one child has it on the left. -/
def LeftFirst : BinaryTree CInt → Prop
  | .nil => True
  | .node _ l r => (l = .nil → r = .nil) ∧ LeftFirst l ∧ LeftFirst r

/-- The depths and values of a tree in preorder. -/
def levels (d : Nat) : BinaryTree CInt → List (Nat × CInt)
  | .nil => []
  | .node v l r => (d, v) :: (levels (d + 1) l ++ levels (d + 1) r)

/-- The text of depths and values. -/
def printed (ls : List (Nat × CInt)) : Text := ls.flatMap fun x => List.replicate x.1 '-' ++ Text.toString x.2

theorem dashed_eq (d : Nat) (t : BinaryTree CInt) : dashed d t = printed (levels d t) := by
  induction t generalizing d with
  | nil => rfl
  | node v l r ihl ihr => simp [dashed, printed, levels, ihl, ihr]

/-! ## The nodes -/

/-- The nodes of a tree at the addresses from `k` on, in preorder. -/
def numbered (k : Nat) : BinaryTree CInt → BinaryTree (Addr × CInt)
  | .nil => .nil
  | .node v l r => .node (k, v) (numbered (k + 1) l) (numbered (k + 1 + l.numNodes) r)

theorem map_numbered (k : Nat) (t : BinaryTree CInt) : (numbered k t).map Prod.snd = t := by
  induction t generalizing k with
  | nil => rfl
  | node v l r ihl ihr => simp [numbered, BinaryTree.map, ihl, ihr]

variable {t r : BinaryTree CInt} {v : CInt} {ls : List (Nat × CInt)}

theorem of_mem_addrs_numbered {k a : Nat} (h : a ∈ addrs (numbered k t)) : k ≤ a ∧ a < k + t.numNodes := by
  induction t generalizing k with
  | nil => simp [numbered] at h
  | node v l r ihl ihr =>
    simp only [numbered, addrs_node, mem_append, mem_cons, BinaryTree.numNodes] at h ⊢
    rcases h with h | h | h
    · have := ihl h
      omega
    · omega
    · have := ihr h
      omega

theorem entry_numbered (k : Nat) (h : t ≠ .nil) : entry (numbered k t) none = some k := by
  cases t with
  | nil => exact absurd rfl h
  | node v l r => rfl

theorem pops_append {α : Type} (a b : List α) : pops a.length (a ++ b) = some b := by
  induction a with
  | nil => rfl
  | cons x a ih => exact ih

/-- The stack is the path from the root to the last node, and `p` with the cell `c` is on it; the nodes of `above` are below it in
the tree, and those of `below` are its ancestors. -/
structure OnPath (x : Recovering) (above : List Addr) (p : Addr) (below : List Addr) (c : TreeCell CInt) : Prop where
  mystack : x.mystack = above ++ p :: below
  depth : x.depth = above.length + below.length
  free : ∀ a, x.made ≤ a → x.mem a = none
  cell : x.mem p = some c

/-- The cell of a parent with one more child at `k`: the left one if the parent is the last node, else the right one. -/
def linked (above : List Addr) (c : TreeCell CInt) (k : Addr) : TreeCell CInt :=
  if above = [] then { c with left := some k } else { c with right := some k }

variable {x y : Recovering} {above below : List Addr} {p : Addr} {c : TreeCell CInt}

theorem OnPath.lt_made (h : OnPath x above p below c) : p < x.made := by
  by_contra hp
  have hn := h.free p (Nat.le_of_not_lt hp)
  rw [h.cell] at hn
  cases hn

/-- A node whose depth is that of a child of `p` is linked to `p`, and is then the last node. -/
theorem OnPath.place (h : OnPath x above p below c) (v : CInt) :
    ∃ y, place x (below.length + 1 : Nat) v = some y ∧ OnPath y [] x.made (p :: below) ⟨v, none, none⟩ ∧ y.made = x.made + 1 ∧
      y.mem p = some (linked above c x.made) ∧ ∀ a, a < x.made → a ≠ p → y.mem a = x.mem a := by
  have hlt := h.lt_made
  have hnew := Mem.new_of_free (h.free x.made (Nat.le_refl _)) (⟨v, none, none⟩ : TreeCell CInt)
  have hc : update x.mem x.made (some (⟨v, none, none⟩ : TreeCell CInt)) p = some c := by
    rw [update_of_ne (Nat.ne_of_lt hlt), h.cell]
  have hpl : LeetCode.place x (below.length + 1 : Nat) v = some ⟨update (update x.mem x.made (some ⟨v, none, none⟩)) p
      (some (linked above c x.made)), x.made + 1, (below.length + 1 : Nat), x.made :: p :: below⟩ := by
    unfold LeetCode.place
    cases above with
    | nil =>
      have hdep : ((below.length + 1 : Nat) : Int) = x.depth + 1 := by simp [h.depth]
      simp only [hnew, if_pos hdep, h.mystack, bind_eq_bind, bind_some, nil_append, head?_cons, Mem.write_of_some hc]
      rfl
    | cons b above =>
      have hdep : ((below.length + 1 : Nat) : Int) ≠ x.depth + 1 := by
        rw [h.depth]
        simp only [length_cons]
        omega
      have hdelta : (x.depth - (below.length + 1 : Nat) + 1).toNat = (b :: above).length := by
        rw [h.depth]
        omega
      simp only [hnew, if_neg hdep, h.mystack, hdelta, pops_append, bind_eq_bind, bind_some, head?_cons, Mem.write_of_some hc]
      rfl
  refine ⟨_, hpl, ⟨rfl, by simp, ?_, ?_⟩, rfl, ?_, ?_⟩
  · intro a ha
    have hmade : x.made < a := ha
    simp only
    rw [update_of_ne (Nat.ne_of_gt (Nat.lt_trans hlt hmade)), update_of_ne (Nat.ne_of_gt hmade), h.free a (Nat.le_of_lt hmade)]
  · grind
  · exact update_self ..
  · grind

/-- Placing several nodes. -/
def placeAll (ls : List (Nat × CInt)) (x : Recovering) : Option Recovering := ls.foldlM (fun x l => LeetCode.place x l.1 l.2) x

theorem placeAll_node (d : Nat) (v : CInt) (l r : BinaryTree CInt) (x : Recovering) : placeAll (levels d (.node v l r)) x =
      (LeetCode.place x d v).bind fun y => (placeAll (levels (d + 1) l) y).bind (placeAll (levels (d + 1) r)) := by
  simp only [placeAll, levels, foldlM_cons, List.foldlM_append]
  rfl

/-- What placing the nodes of a tree below `p` gives. -/
structure Placed (x y : Recovering) (above : List Addr) (p : Addr) (below : List Addr) (c : TreeCell CInt) (t : BinaryTree CInt) :
    Prop where
  path : ∃ above', above' ≠ [] ∧ OnPath y above' p below (linked above c x.made)
  made : y.made = x.made + t.numNodes
  frame : ∀ a, a < x.made → a ≠ p → y.mem a = x.mem a
  holds : y.mem.Holds (numbered x.made t) none

/-- The nodes of the tree `t` can be placed below every node on the path. -/
def Places (t : BinaryTree CInt) : Prop :=
  ∀ {x : Recovering} {above : List Addr} {p : Addr} {below : List Addr} {c : TreeCell CInt}, OnPath x above p below c →
    ∃ y, placeAll (levels (below.length + 1) t) x = some y ∧ Placed x y above p below c t

/-- A right subtree, which may be empty, below a node whose left subtree has been placed. -/
theorem OnPath.right {q : Ptr} (h : OnPath x above p below ⟨v, q, none⟩) (ha : above ≠ []) (hr : r ≠ .nil → Places r) :
    ∃ y above', placeAll (levels (below.length + 1) r) x = some y ∧
      OnPath y above' p below ⟨v, q, entry (numbered x.made r) none⟩ ∧ y.made = x.made + r.numNodes ∧
      (∀ a, a < x.made → a ≠ p → y.mem a = x.mem a) ∧ y.mem.Holds (numbered x.made r) none := by
  by_cases hnil : r = .nil
  · subst hnil
    exact ⟨x, above, rfl, h, rfl, fun _ _ _ => rfl, trivial⟩
  · obtain ⟨y, hy, hplaced⟩ := hr hnil h
    obtain ⟨above', _, hpath⟩ := hplaced.path
    rw [linked, if_neg ha] at hpath
    exact ⟨y, above', hy, by rwa [entry_numbered _ hnil], hplaced.made, hplaced.frame, hplaced.holds⟩

/-- The subtrees of the last node: the left one finds its parent on top of the stack, and the right one finds it under the nodes of
the left. -/
theorem OnPath.children {l r : BinaryTree CInt} (h : OnPath x [] p below ⟨v, none, none⟩) (hlr : l = .nil → r = .nil)
    (hl : l ≠ .nil → Places l) (hr : r ≠ .nil → Places r) :
    ∃ y above', (placeAll (levels (below.length + 1) l) x).bind (placeAll (levels (below.length + 1) r)) = some y ∧
      OnPath y above' p below ⟨v, entry (numbered x.made l) none, entry (numbered (x.made + l.numNodes) r) none⟩ ∧
      y.made = x.made + l.numNodes + r.numNodes ∧ (∀ a, a < x.made → a ≠ p → y.mem a = x.mem a) ∧
      y.mem.Holds (numbered x.made l) none ∧ y.mem.Holds (numbered (x.made + l.numNodes) r) none := by
  by_cases hnil : l = .nil
  · obtain rfl := hlr hnil
    subst hnil
    exact ⟨x, [], rfl, h, rfl, fun _ _ _ => rfl, trivial, trivial⟩
  · obtain ⟨y, hy, hplaced⟩ := hl hnil h
    obtain ⟨above₁, hne, hpath⟩ := hplaced.path
    obtain ⟨z, above₂, hz, hpath₂, hmade, hfr, hholds⟩ := hpath.right hne hr
    have hlt := h.lt_made
    have hmade₁ := hplaced.made
    refine ⟨z, above₂, ?_, ?_, ?_, ?_, ?_, ?_⟩
    · rw [hy, bind_some, hz]
    · grind [entry_numbered]
    · omega
    · intro a ha hap
      rw [hfr a (by omega) hap, hplaced.frame a ha hap]
    · apply hplaced.holds.congr
      intro a ha
      have hrange := of_mem_addrs_numbered ha
      exact hfr a (by omega) (ne_of_gt (lt_of_lt_of_le hlt hrange.1))
    · rw [← hmade₁]
      exact hholds

theorem places (ht : t ≠ .nil) (hleft : LeftFirst t) : Places t := by
  induction t with
  | nil => exact absurd rfl ht
  | node v l r ihl ihr =>
    intro x above p below c h
    obtain ⟨hlr, hleftl, hleftr⟩ := hleft
    obtain ⟨y, hy, hpath, hmade, hp, hfr⟩ := h.place v
    obtain ⟨z, above', hz, hpath', hmade', hfr', hholdsl, hholdsr⟩ := hpath.children hlr (fun hl => ihl hl hleftl) (fun hr => ihr hr hleftr)
    -- the subtrees leave the older nodes alone
    have hold : ∀ a, a < x.made → z.mem a = y.mem a := by grind
    rw [placeAll_node, hy]
    rw [hmade] at hpath' hholdsl hholdsr
    refine ⟨z, hz, ⟨above' ++ [x.made], by simp, ?_⟩, ?_, ?_, ?_⟩
    · refine ⟨by simp [hpath'.mystack], ?_, hpath'.free, ?_⟩
      · rw [hpath'.depth]
        simp only [length_append, length_cons, length_nil]
        omega
      · rw [hold p h.lt_made, hp]
    · simp only [BinaryTree.numNodes]
      omega
    · intro a ha hne
      rw [hold a ha, hfr a ha hne]
    · exact ⟨hpath'.cell, hholdsl, hholdsr⟩

/-! ## The scanner -/

theorem printed_cons (l : Nat × CInt) (ls : List (Nat × CInt)) :
    printed (l :: ls) = replicate l.1 '-' ++ Text.toString l.2 ++ printed ls := by
  simp [printed]

/-- After a value comes a dash, or nothing. -/
theorem head_printed (h : ∀ l ∈ ls, 1 ≤ l.1) : ∀ c ∈ (printed ls).head?, (c != '-') = false := by
  intro c hc
  cases ls with
  | nil => simp [printed] at hc
  | cons l ls =>
    have hl := h l mem_cons_self
    obtain ⟨d, hd⟩ : ∃ d, l.1 = d + 1 := ⟨l.1 - 1, by omega⟩
    rw [printed_cons, hd, replicate_succ] at hc
    obtain rfl : '-' = c := by simpa using hc
    rfl

/-- A value that is not negative is printed without a dash. -/
theorem ne_dash_of_mem (hv : 0 ≤ v.1) : ∀ c ∈ Text.toString v, (c != '-') = true := by
  intro c hc
  unfold Text.toString at hc
  rw [if_neg (by omega), nil_append] at hc
  have hdigit : c.isDigit := isDigit_of_mem_toDigits (by decide) (by decide) hc
  simp [(Text.of_isDigit hdigit).2.1]

theorem skip_value (hv : 0 ≤ v.1) (a : Text) (hs : ∀ l ∈ ls, 1 ≤ l.1) :
    Text.skip (· != '-') (a ++ Text.toString v ++ printed ls) a.length = a.length + (Text.toString v).length :=
  Text.skip_append (ne_dash_of_mem hv) (head_printed hs)

theorem skip_dashes (hv : 0 ≤ v.1) (a s : Text) (d : Nat) :
    Text.skip (· == '-') (a ++ replicate d '-' ++ (Text.toString v ++ s)) a.length = a.length + d := by
  have hskip := Text.skip_append (p := (· == '-')) (w := replicate d '-') (a := a) (s := Text.toString v ++ s)
    (fun c hc => by simp [eq_of_mem_replicate hc]) ?_
  · rw [hskip, length_replicate]
  · intro c hc
    obtain ⟨e, w, hw⟩ : ∃ e w, Text.toString v = e :: w := exists_cons_of_ne_nil (Text.toString_ne_nil v)
    obtain rfl : e = c := by simpa [hw] using hc
    have hne := ne_dash_of_mem hv e (by simp [hw])
    simpa using hne

theorem loop_recoverRound (hls : ∀ l ∈ ls, 1 ≤ l.1 ∧ 0 ≤ l.2.1) (a : Text) (hx : placeAll ls x = some y)
    {n : Nat} (hn : ls.length < n) : loop (recoverRound (a ++ printed ls)) n (a.length, x) = some y.mem := by
  obtain ⟨n, rfl⟩ : ∃ k, n = k + 1 := ⟨n - 1, by omega⟩
  induction ls generalizing a x n with
  | nil =>
    obtain rfl : x = y := some.inj hx
    apply loop_of_stop
    simp [recoverRound, printed]
  | cons l ls ih =>
    obtain ⟨d, v⟩ := l
    obtain ⟨z, hz, hy⟩ := bind_eq_some_iff.mp hx
    obtain ⟨hd, hv⟩ := hls (d, v) mem_cons_self
    have ht : ∀ l ∈ ls, 1 ≤ l.1 ∧ 0 ≤ l.2.1 := fun l hl => hls l (mem_cons_of_mem _ hl)
    simp only [length_cons] at hn
    obtain ⟨n, rfl⟩ : ∃ k, n = k + 1 := ⟨n - 1, by omega⟩
    have hS : a ++ printed ((d, v) :: ls) = a ++ replicate d '-' ++ Text.toString v ++ printed ls := by
      simp [printed_cons]
    have hrd : recoverRound (a ++ printed ((d, v) :: ls)) (a.length, x) =
        some (.again ((a ++ replicate d '-' ++ Text.toString v).length, z)) := by
      have hlt : a.length < (a ++ printed ((d, v) :: ls)).length := by grind
      have hidx : Text.skip (· == '-') (a ++ printed ((d, v) :: ls)) a.length = (a ++ replicate d '-').length := by
        rw [hS, append_assoc, skip_dashes hv]
        simp
      have hnext : Text.skip (· != '-') (a ++ printed ((d, v) :: ls)) (a ++ replicate d '-').length =
          (a ++ replicate d '-').length + (Text.toString v).length := by
        rw [hS, skip_value hv _ fun l hl => (ht l hl).1]
      have hval : Text.substr (a ++ printed ((d, v) :: ls)) (a ++ replicate d '-').length (Text.toString v).length =
          Text.toString v := by
        rw [hS, Text.substr_append]
      have hdep : ((a ++ replicate d '-').length : Int) - a.length = d := by simp
      have hlen : (a ++ replicate d '-' ++ Text.toString v).length = (a ++ replicate d '-').length + (Text.toString v).length :=
        length_append
      unfold recoverRound
      simp only [if_pos hlt, hidx, hnext, Nat.add_sub_cancel_left, hval, Text.stoi_toString, Except.toOption, hdep, bind_eq_bind, bind_some, hz]
      rw [hlen]
      rfl
    rw [loop_of_again hrd, hS]
    exact ih ht _ hy n (by omega)

/-! ## The round trip -/

theorem of_mem_levels {d : Nat} {l : Nat × CInt} (h : l ∈ levels d t) : d ≤ l.1 ∧ l.2 ∈ preorder t := by
  induction t generalizing d with
  | nil => simp [levels] at h
  | node v lt rt ihl ihr =>
    simp only [levels, mem_cons, mem_append] at h
    rcases h with rfl | h | h
    · simp
    · have := ihl h
      exact ⟨by omega, by simp [this.2]⟩
    · have := ihr h
      exact ⟨by omega, by simp [this.2]⟩

theorem length_le_printed (ls : List (Nat × CInt)) : ls.length ≤ (printed ls).length := by
  induction ls with
  | nil => simp
  | cons l ls ih =>
    have hpos := length_pos_of_ne_nil (Text.toString_ne_nil l.2)
    simp only [printed_cons, length_append, length_cons]
    omega

/-- The tree of the problem's third example. -/
def chainTree : BinaryTree CInt :=
  .node (CInt.clamp 1)
    (.node (CInt.clamp 401) (.node (CInt.clamp 349) (.node (CInt.clamp 90) .nil .nil) .nil) (.node (CInt.clamp 88) .nil .nil)) .nil

end CsLearning.LeetCode
