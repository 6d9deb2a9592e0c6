import CsLearning.Lib.Cpp
import CsLearning.Lib.Loop

/-!
# Serialising a binary tree

The codecs of problem 297. All of them write the values in preorder with a mark for every null pointer. The first writes them with an
explicit stack and reads the words from a queue; the second writes them by recursion, splits the text and reads the words at an index; the
third has the serialiser of the second and reads the text itself. A recursion that is deeper than its bound is counted as undefined
behaviour; every call of a reader takes a word, so that the number of words is bound enough.
-/

open List BinaryTree

namespace CsLearning.LeetCode

open Text

/-- The tree below a `TreeNode *`. -/
abbrev IntTree := BinaryTree CInt

/-- The words of a tree in preorder. -/
def words : IntTree → List Text
  | .nil => ["null".toList]
  | .node v l r => Text.toString v :: (words l ++ words r)

/-- A printed value is not the mark of a null pointer. -/
theorem toString_ne_null (v : CInt) : Text.toString v ≠ "null".toList := by
  intro h
  have hmem : 'n' ∈ Text.toString v := by simp [h]
  rcases Text.mem_toString hmem with hc | hc
  · exact absurd hc (by decide)
  · exact absurd hc (by decide)

/-- No word is empty, and no word holds a separator. -/
theorem of_mem_words {t : IntTree} {w : Text} (h : w ∈ words t) : w ≠ [] ∧ ' ' ∉ w ∧ ',' ∉ w := by
  induction t with
  | nil =>
    rw [words, mem_singleton] at h
    subst h
    decide
  | node v l r ihl ihr =>
    rw [words, mem_cons, mem_append] at h
    rcases h with h | h | h
    · subst h
      refine ⟨toString_ne_nil v, fun hc => ?_, fun hc => ?_⟩
      · exact absurd (mem_toString hc) (by decide)
      · exact absurd (mem_toString hc) (by decide)
    · exact ihl h
    · exact ihr h

theorem exists_words_eq (t : IntTree) : ∃ ws, words t = ws ++ ["null".toList] := by
  induction t with
  | nil => exact ⟨[], rfl⟩
  | node v l r _ ihr => grind [words]

/-- A recursion over a tree is not deeper than the tree has words. -/
theorem height_lt_length_words (t : IntTree) : t.height < (words t).length := by
  induction t with
  | nil => simp [words]
  | node v l r ihl ihr =>
    simp only [words, BinaryTree.height, length_cons, length_append]
    omega

/-! ## Words separated by spaces -/

namespace SpaceCodec

/-- The inner loop of `serialize`, down the left pointers from `tmp`; the stack has its top first. -/
def descend : IntTree → Text → List IntTree → Text × List IntTree
  | .nil, res, s => (res, s)
  | .node v l r, res, s => descend l (res ++ Text.toString v ++ " ".toList) (.node v l r :: s)

/-- The variables of `serialize`. -/
structure Vars where
  res : Text
  s : List IntTree
  tmp : IntTree

/-- The outer loop of `serialize`. -/
def serializeRound (x : Vars) : Option (Round Vars Text) :=
  if x.tmp = .nil ∧ x.s = [] then some (.stop (x.res ++ "null".toList))
  else
    match descend x.tmp x.res x.s with
    | (res, .node _ _ right :: s) => some (.again ⟨res ++ "null ".toList, s, right⟩)
    | _ => none

-- every round but the last takes a node off the stack
def serialize (root : IntTree) : Option Text := loop serializeRound (root.numNodes + 1) ⟨[], [], root⟩

def buildTree : Nat → List Text → Except Fault (IntTree × List Text)
  | 0, _ => .error .undefined
  | _ + 1, [] => .error .undefined
  | n + 1, front :: strs => do
    if front = "null".toList then return (.nil, strs)
    let (left, strs) ← buildTree n strs
    let (right, strs) ← buildTree n strs
    return (.node (Text.extract front) left right, strs)

def deserialize (data : Text) : Except Fault IntTree := do
  let strs := Text.getlines ' ' data
  let (root, _) ← buildTree (strs.length + 1) strs
  return root

/-- What is still to be written of the trees on the stack. -/
def pending (s : List IntTree) : Text := s.flatMap fun t => Text.joined ' ' (words t.right)

/-- The nodes that are still to be taken off the stack when those on it are `s`. -/
def weight (s : List IntTree) : Nat := (s.map fun t => t.right.numNodes + 1).sum

/-- The inner loop moves what is to be written from `tmp` to the stack, less one mark. -/
theorem descend_pending (t : IntTree) (res : Text) (s : List IntTree) :
    (descend t res s).1 ++ "null ".toList ++ pending (descend t res s).2 = res ++ joined ' ' (words t) ++ pending s := by
  induction t generalizing res s with
  | nil => simp [descend, words]
  | node v l r ihl _ =>
    rw [descend, ihl]
    simp [words, pending]

theorem weight_descend (t : IntTree) (res : Text) (s : List IntTree) : weight (descend t res s).2 = t.numNodes + weight s := by
  induction t generalizing res s with
  | nil => simp [descend]
  | node v l r ihl _ =>
    rw [descend, ihl]
    simp only [weight, map_cons, sum_cons, right, numNodes]
    omega

theorem ne_nil_of_mem_descend (t : IntTree) (res : Text) {s : List IntTree} (hs : ∀ x ∈ s, x ≠ .nil) : ∀ x ∈ (descend t res s).2, x ≠ .nil := by
  induction t generalizing res s with
  | nil => exact hs
  | node v l r ihl _ =>
    apply ihl
    intro x hx
    rcases mem_cons.mp hx with rfl | hx
    · simp
    · exact hs x hx

theorem loop_serializeRound (n : Nat) (x : Vars) (hx : ∀ t ∈ x.s, t ≠ .nil) (hn : x.tmp.numNodes + weight x.s = n) :
    ∃ data, loop serializeRound (n + 1) x = some data ∧ data ++ " ".toList = x.res ++ joined ' ' (words x.tmp) ++ pending x.s := by
  induction n generalizing x with
  | zero =>
    obtain ⟨res, s, tmp⟩ := x
    have htmp : tmp = .nil := by
      cases tmp with
      | nil => rfl
      | node v l r => simp [numNodes] at hn
    have hs : s = [] := by
      cases s with
      | nil => rfl
      | cons t s => simp [weight] at hn
    subst htmp hs
    exact ⟨res ++ "null".toList, rfl, by simp [words, pending]⟩
  | succ n ih =>
    have hgo : ¬(x.tmp = .nil ∧ x.s = []) := by
      rintro ⟨htmp, hs⟩
      simp [htmp, hs, weight] at hn
    have hpend := descend_pending x.tmp x.res x.s
    have hweight := weight_descend x.tmp x.res x.s
    have hnode := ne_nil_of_mem_descend x.tmp x.res hx
    obtain ⟨res, s, hd⟩ : ∃ res s, descend x.tmp x.res x.s = (res, s) := ⟨_, _, rfl⟩
    rw [hd] at hpend hweight hnode
    cases s with
    | nil => grind [weight]
    | cons top s =>
      cases top with
      | nil => exact absurd rfl (hnode .nil mem_cons_self)
      | node v l r =>
        have hrd : serializeRound x = some (.again ⟨res ++ "null ".toList, s, r⟩) := by
          unfold serializeRound
          rw [if_neg hgo, hd]
        have hn' : r.numNodes + weight s = n := by
          simp only [weight, map_cons, sum_cons, right] at hweight hn ⊢
          omega
        obtain ⟨data, hl, hdata⟩ := ih ⟨res ++ "null ".toList, s, r⟩ (fun t ht => hnode t (mem_cons_of_mem _ ht)) hn'
        refine ⟨data, by rw [loop_of_again hrd, hl], ?_⟩
        rw [hdata, ← hpend]
        simp [pending]

theorem serialize_eq (t : IntTree) {ws : List Text} (h : words t = ws ++ ["null".toList]) :
    serialize t = some (joined ' ' ws ++ "null".toList) := by
  obtain ⟨data, hl, hd⟩ := loop_serializeRound t.numNodes ⟨[], [], t⟩ (by simp) (by simp [weight])
  have hspace : data ++ " ".toList = joined ' ' ws ++ "null".toList ++ " ".toList := by
    rw [hd, h]
    simp [pending]
  unfold serialize
  rw [hl, append_cancel_right hspace]

theorem getlines_serialize {t : IntTree} {data : Text} (h : serialize t = some data) : getlines ' ' data = words t := by
  obtain ⟨ws, hws⟩ := exists_words_eq t
  rw [serialize_eq t hws] at h
  cases h
  rw [hws]
  apply getlines_joined
  · grind [of_mem_words]
  · decide
  · decide

/-- `buildTree` takes the words of a tree from the queue and no others. -/
theorem buildTree_words (t : IntTree) (rest : List Text) {n : Nat} (h : t.height < n) : buildTree n (words t ++ rest) = .ok (t, rest) := by
  induction t generalizing rest n with
  | nil =>
    obtain ⟨n, rfl⟩ : ∃ k, n = k + 1 := ⟨n - 1, by omega⟩
    rfl
  | node v l r ihl ihr =>
    obtain ⟨n, rfl⟩ : ∃ k, n = k + 1 := ⟨n - 1, by omega⟩
    simp only [BinaryTree.height] at h
    have hl := ihl (words r ++ rest) (n := n) (by omega)
    have hr := ihr rest (n := n) (by omega)
    rw [words, cons_append, append_assoc]
    simp only [buildTree, if_neg (toString_ne_null v), hl, hr, Fault.ok_bind, Text.extract_toString]
    rfl

end SpaceCodec

/-! ## Words ended by commas -/

namespace CommaCodec

def dfs : IntTree → Text → Text
  | .nil, ret => ret ++ "null,".toList
  | .node v l r, ret => dfs r (dfs l (ret ++ Text.toString v ++ ",".toList))

def serialize (root : IntTree) : Text := dfs root []

/-- The loop of `split`, over `start` and `res`. -/
def splitRound (data : Text) (x : Nat × List Text) : Option (Round (Nat × List Text) (List Text)) :=
  match Text.find data ',' x.1 with
  | none => some (.stop x.2)
  | some stop => some (.again (stop + 1, x.2 ++ [Text.substr data x.1 (stop - x.1)]))

-- every round but the last moves `start` on
def split (data : Text) : Option (List Text) := loop (splitRound data) (data.length + 1) (0, [])

def buildTree (strs : List Text) : Nat → Nat → Except Fault (IntTree × Nat)
  | 0, _ => .error .undefined
  | n + 1, i => do
    if i = strs.length then return (.nil, i)
    let word ← strs[i]?.elim (.error .undefined) .ok
    if word = "null".toList then return (.nil, i)
    let v ← Text.stoi word
    let (left, i) ← buildTree strs n (i + 1)
    let (right, i) ← buildTree strs n (i + 1)
    return (.node v left right, i)

def deserialize (data : Text) : Except Fault IntTree := do
  let strs ← (split data).elim (.error .undefined) .ok
  let (root, _) ← buildTree strs (strs.length + 1) 0
  return root

theorem dfs_eq (t : IntTree) (ret : Text) : dfs t ret = ret ++ joined ',' (words t) := by
  induction t generalizing ret with
  | nil => rfl
  | node v l r ihl ihr =>
    rw [dfs, ihl, ihr]
    simp [words]

/-- The loop of `split` takes the words one by one; `before` is the text in front of `start`. -/
theorem loop_splitRound (ws : List Text) (before : Text) (res : List Text) (h : ∀ w ∈ ws, ',' ∉ w) {n : Nat} (hn : ws.length < n) :
    loop (splitRound (before ++ joined ',' ws)) n (before.length, res) = some (res ++ ws) := by
  obtain ⟨n, rfl⟩ : ∃ k, n = k + 1 := ⟨n - 1, by omega⟩
  induction ws generalizing before res n with
  | nil =>
    rw [loop_of_stop (r := res)]
    · simp
    · unfold splitRound
      simp [find_eq_none]
  | cons w ws ih =>
    have hw : ',' ∉ w := h w mem_cons_self
    obtain ⟨n, rfl⟩ : ∃ k, n = k + 1 := ⟨n - 1, by simp only [length_cons] at hn; omega⟩
    have hrd : splitRound (before ++ joined ',' (w :: ws)) (before.length, res) =
        some (.again ((before ++ w ++ [',']).length, res ++ [w])) := by
      unfold splitRound
      rw [joined_cons, ← append_assoc, find_append hw]
      simp only [Nat.add_sub_cancel_left, substr_append]
      simp [Nat.add_assoc]
    have hd : before ++ joined ',' (w :: ws) = before ++ w ++ [','] ++ joined ',' ws := by simp
    rw [loop_of_again hrd, hd, ih (before ++ w ++ [',']) (res ++ [w]) (fun u hu => h u (mem_cons_of_mem w hu)) n]
    · simp
    · simp only [length_cons] at hn
      omega

theorem split_serialize (t : IntTree) : split (serialize t) = some (words t) := by
  have hser : serialize t = joined ',' (words t) := dfs_eq t []
  have hlen := length_le_joined ',' (words t)
  rw [hser]
  exact loop_splitRound (words t) [] [] (fun w hw => (of_mem_words hw).2.2) (by omega)

/-- `buildTree` reads the words of a tree and no others: it starts at the first of them and leaves the index at the last. -/
theorem buildTree_words (t : IntTree) (before rest : List Text) {n : Nat} (h : t.height < n) :
    buildTree (before ++ words t ++ rest) n before.length = .ok (t, before.length + (words t).length - 1) := by
  obtain ⟨n, rfl⟩ : ∃ k, n = k + 1 := ⟨n - 1, by omega⟩
  induction t generalizing before rest n with
  | nil =>
    simp [buildTree, words]
    rfl
  | node v l r ihl ihr =>
    simp only [BinaryTree.height] at h
    obtain ⟨n, rfl⟩ : ∃ k, n = k + 1 := ⟨n - 1, by omega⟩
    have hl := ihl (before ++ [Text.toString v]) (words r ++ rest) n (by omega)
    have hr := ihr (before ++ [Text.toString v] ++ words l) rest n (by omega)
    -- the words of the tree, of its left subtree and of its right subtree are in the same vector
    have el : before ++ words (.node v l r) ++ rest = before ++ [Text.toString v] ++ words l ++ (words r ++ rest) := by simp [words]
    have er : before ++ words (.node v l r) ++ rest = before ++ [Text.toString v] ++ words l ++ words r ++ rest := by simp [words]
    have hne : before.length ≠ (before ++ words (.node v l r) ++ rest).length := by simp [words]
    have hget : (before ++ words (.node v l r) ++ rest)[before.length]? = some (Text.toString v) := by simp [words]
    have hlen : (words (.node v l r)).length = (words l).length + (words r).length + 1 := by simp [words]
    rw [← el] at hl
    rw [← er] at hr
    have hi : before.length + 1 + (words l).length - 1 + 1 = before.length + 1 + (words l).length := by omega
    have hj : before.length + 1 + (words l).length + (words r).length - 1 = before.length + (words (.node v l r)).length - 1 := by omega
    simp only [length_append, length_singleton] at hl hr
    unfold buildTree
    simp only [if_neg hne, hget, Option.elim, Fault.ok_bind, if_neg (toString_ne_null v), Text.stoi_toString, hl, hi, hr, hj]
    rfl

end CommaCodec

/-- Both codecs give back the tree they were given, and `buildTree` takes the words that the serialisation of its subtree gave and no
others, whatever words stand around them. -/
theorem codecs_round_trip (t : IntTree) :
    (∃ data, SpaceCodec.serialize t = some data ∧ SpaceCodec.deserialize data = .ok t ∧
      ∀ rest k, SpaceCodec.buildTree ((Text.getlines ' ' data).length + k) (Text.getlines ' ' data ++ rest) = .ok (t, rest)) ∧
    CommaCodec.deserialize (CommaCodec.serialize t) = .ok t ∧
    ∃ strs, CommaCodec.split (CommaCodec.serialize t) = some strs ∧
      ∀ before rest k, CommaCodec.buildTree (before ++ strs ++ rest) (strs.length + k) before.length =
        .ok (t, before.length + strs.length - 1) := by
  have hheight := height_lt_length_words t
  obtain ⟨ws, hws⟩ := exists_words_eq t
  have hspace := SpaceCodec.serialize_eq t hws
  have hlines := SpaceCodec.getlines_serialize hspace
  refine ⟨⟨_, hspace, ?_, ?_⟩, ?_, words t, CommaCodec.split_serialize t, ?_⟩
  · have hbuild := SpaceCodec.buildTree_words t [] (n := (words t).length + 1) (by omega)
    rw [append_nil] at hbuild
    simp only [SpaceCodec.deserialize, hlines, hbuild]
    rfl
  · intro rest k
    rw [hlines]
    exact SpaceCodec.buildTree_words t rest (by omega)
  · have hbuild := CommaCodec.buildTree_words t [] [] (n := (words t).length + 1) (by omega)
    rw [append_nil, nil_append, length_nil] at hbuild
    simp only [CommaCodec.deserialize, CommaCodec.split_serialize, Option.elim, Fault.ok_bind, hbuild]
    rfl
  · intro before rest k
    exact CommaCodec.buildTree_words t before rest (by omega)

/-! ## Reading the text itself -/

namespace RawCodec

/-- The serialiser, which is that of the codec with commas. -/
def serialize (root : IntTree) : Text := CommaCodec.dfs root []

/-- The loop that looks for the comma from `next` on. -/
def scanRound (data : Text) (next : Nat) : Option (Round Nat Nat) :=
  match Text.charAt data next with
  | .error _ => none
  | .ok c => if c = ',' then some (.stop next) else some (.again (next + 1))

-- the loop has no outcome once `next` is past the end
def scan (data : Text) (next : Nat) : Except Fault Nat := (loop (scanRound data) (data.length + 2) next).elim (.error .undefined) .ok

def rdfs (data : Text) : Nat → Nat → Except Fault (IntTree × Nat)
  | 0, _ => .error .undefined
  | n + 1, i => do
    let c ← Text.charAt data i
    if c = '#' then return (.nil, i + 2)
    let next ← scan data i
    let val ← Text.stoi (Text.substr data i (next - i))
    let (left, i) ← rdfs data n (next + 1)
    let (right, i) ← rdfs data n i
    return (.node val left right, i)

def deserialize (data : Text) : Except Fault IntTree := do
  let (root, _) ← rdfs data (data.length + 1) 0
  return root

theorem loop_scanRound (w a s : Text) (h : ',' ∉ w) {n : Nat} (hn : w.length < n) :
    loop (scanRound (a ++ w ++ ',' :: s)) n a.length = some (a.length + w.length) := by
  obtain ⟨n, rfl⟩ : ∃ k, n = k + 1 := ⟨n - 1, by omega⟩
  induction w generalizing a n with
  | nil =>
    apply loop_of_stop
    simp [scanRound, charAt_append]
  | cons d w ih =>
    simp only [mem_cons, not_or] at h
    obtain ⟨n, rfl⟩ : ∃ k, n = k + 1 := ⟨n - 1, by simp only [length_cons] at hn; omega⟩
    have hd : a ++ d :: w ++ ',' :: s = a ++ [d] ++ w ++ ',' :: s := by simp
    have hrd : scanRound (a ++ d :: w ++ ',' :: s) a.length = some (.again (a ++ [d]).length) := by
      unfold scanRound
      rw [append_assoc, cons_append, charAt_append]
      simp [Ne.symm h.1]
    rw [loop_of_again hrd, hd, ih (a ++ [d]) h.2 n (by simp only [length_cons] at hn; omega)]
    simp only [length_append, length_cons, length_nil]
    congr 1
    omega

theorem scan_append (w a s : Text) (h : ',' ∉ w) : scan (a ++ w ++ ',' :: s) a.length = .ok (a.length + w.length) := by
  grind [scan, loop_scanRound]

/-- `rdfs` at a word that does not start with the mark it looks for: the word has to be a number. -/
theorem rdfs_word {c : Char} {w a s : Text} (hc : c ≠ '#') (h : ',' ∉ c :: w) (n : Nat) :
    rdfs (a ++ c :: w ++ ',' :: s) (n + 1) a.length = (do
      let val ← stoi (c :: w)
      let (left, i) ← rdfs (a ++ c :: w ++ ',' :: s) n (a ++ c :: w ++ [',']).length
      let (right, i) ← rdfs (a ++ c :: w ++ ',' :: s) n i
      return (.node val left right, i)) := by
  have hat : charAt (a ++ c :: w ++ ',' :: s) a.length = .ok c := by
    rw [append_assoc, cons_append, charAt_append]
  have hi : a.length + (c :: w).length + 1 = (a ++ c :: w ++ [',']).length := by
    simp only [length_append, length_cons, length_nil]
  rw [rdfs]
  simp only [hat, Fault.ok_bind, if_neg hc, scan_append (c :: w) a s h, Nat.add_sub_cancel_left, substr_append, hi]

/-- Every serialised tree has the mark of a null pointer in it, and the first one that `rdfs` comes to is read as a number. -/
theorem rdfs_words (t : IntTree) (a s : Text) {n : Nat} (h : t.height < n) :
    rdfs (a ++ Text.joined ',' (words t) ++ s) n a.length = .error .invalidArgument := by
  obtain ⟨n, rfl⟩ : ∃ k, n = k + 1 := ⟨n - 1, by omega⟩
  induction t generalizing a s n with
  | nil =>
    have hd : a ++ Text.joined ',' (words .nil) ++ s = a ++ 'n' :: "ull".toList ++ ',' :: s := by simp [words]
    rw [hd, rdfs_word (by decide) (by decide)]
    rfl
  | node v l r ihl _ =>
    simp only [BinaryTree.height] at h
    obtain ⟨n, rfl⟩ : ∃ k, n = k + 1 := ⟨n - 1, by omega⟩
    obtain ⟨c, w, hv⟩ : ∃ c w, Text.toString v = c :: w := exists_cons_of_ne_nil (Text.toString_ne_nil v)
    have hc : c ≠ '#' := by
      rintro rfl
      have hmem : '#' ∈ Text.toString v := by simp [hv]
      exact absurd (Text.mem_toString hmem) (by decide)
    have hcomma : ',' ∉ c :: w := by
      rw [← hv]
      exact (of_mem_words (t := .node v l r) (by simp [words])).2.2
    have hd : a ++ Text.joined ',' (words (.node v l r)) ++ s =
        a ++ c :: w ++ ',' :: (Text.joined ',' (words l) ++ (Text.joined ',' (words r) ++ s)) := by
      simp [words, hv]
    have hleft : a ++ c :: w ++ ',' :: (Text.joined ',' (words l) ++ (Text.joined ',' (words r) ++ s)) =
        a ++ c :: w ++ [','] ++ Text.joined ',' (words l) ++ (Text.joined ',' (words r) ++ s) := by simp
    have hl := ihl (a ++ c :: w ++ [',']) (Text.joined ',' (words r) ++ s) n (by omega)
    rw [← hleft] at hl
    rw [hd, rdfs_word hc hcomma, ← hv, Text.stoi_toString, hv, hl]
    rfl

/-- The codec gives back the tree, and `rdfs` stops at the end of the text of its subtree, whatever stands around it. -/
def RoundTrips (t : IntTree) : Prop :=
  deserialize (serialize t) = .ok t ∧
    ∀ before rest, ∃ n, rdfs (before ++ serialize t ++ rest) n before.length = .ok (t, (before ++ serialize t).length)

/-- The codec gives no tree back: `stoi` throws at the first null pointer. -/
theorem raw_codec_throws (t : IntTree) : deserialize (serialize t) = .error .invalidArgument ∧ ¬RoundTrips t := by
  have hser : serialize t = Text.joined ',' (words t) := CommaCodec.dfs_eq t []
  have hheight := height_lt_length_words t
  have hlen := Text.length_le_joined ',' (words t)
  have hrdfs := rdfs_words t [] [] (n := (serialize t).length + 1) (by rw [hser]; omega)
  rw [append_nil, nil_append, ← hser, length_nil] at hrdfs
  have hthrow : deserialize (serialize t) = .error .invalidArgument := by
    simp only [deserialize, hrdfs, Fault.error_bind]
  refine ⟨hthrow, ?_⟩
  rintro ⟨hok, -⟩
  rw [hthrow] at hok
  cases hok

/-- The empty tree is serialised to a text that is not read back. -/
theorem raw_codec_null_false : ¬RoundTrips .nil := by
  rintro ⟨hok, -⟩
  exact absurd hok (by decide)

end RawCodec

end CsLearning.LeetCode
