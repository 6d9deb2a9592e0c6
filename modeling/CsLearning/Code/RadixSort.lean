import CsLearning.Lib.Cells
import CsLearning.Lib.Loop
import CsLearning.Lib.NodeLists
import CsLearning.Lib.StableSort

/-!
# Radix sort from the last digit on

`LSDRadixSort` of `LSDradix_sort.c`: the array is stored in a linked list, in reverse order. For each of the last `MaxDigit` digits the nodes of the
list are appended to the queues of ten buckets, and the queues are put together again. At the end the list is poured into the array and its nodes are
freed.

A pass leaves the nodes of each digit in the order they had, so that after `D` passes the list is sorted by the number that the last `D` digits are,
and stably so. `GetDigit`, the buckets and the loop that stores a part of an array are those of `MSDradix_sort.c`, too.
-/

open List Option Function Nat Prod

namespace CsLearning.Code.RadixSort

open Cells

/-! ## The code -/

def MaxDigit : Nat := 4

def Radix : Nat := 10

/-- `GetDigit(X, D)`. Nothing is assigned to the result when `D` is zero. -/
def getDigit (X : Int) (D : Nat) : Option Int :=
  ((List.range' 1 D).foldl (fun (s : Option Int × Int) _ => (some (s.2.tmod Radix), s.2.tdiv Radix)) (none, X)).1

/-- The head of a bucket. -/
structure HeadNode where
  head : Ptr
  tail : Ptr
  deriving DecidableEq

abbrev Bucket := Nat → HeadNode

def emptyBucket : Bucket := fun _ => ⟨none, none⟩

/-- The index of a bucket, which must be one of the array. -/
def bucketIndex (Di : Int) : Option Nat := if 0 ≤ Di ∧ Di < Radix then some Di.toNat else none

/-- The body of the loop that stores elements of the array in the list. -/
def storeStep (place : Placement Int) (A : Cells Int) : HeapState Int × Ptr → Nat → Option (HeapState Int × Ptr)
  | (h, list), i => do
    let x ← A i
    let (tmp, h) ← h.malloc place ⟨x, list⟩
    return (h, some tmp)

/-- One round of `while (p)` in the distribution: the node goes to the end of the queue of its bucket. -/
def distributeRound (D : Nat) : Mem (KeyNode Int) × Bucket × Ptr → Option (Round (Mem (KeyNode Int) × Bucket × Ptr) (Mem (KeyNode Int) × Bucket))
  | (m, B, none) => some (.stop (m, B))
  | (m, B, some a) => do
    let key ← m.read (some a) KeyNode.key
    let d ← getDigit key D
    let Di ← bucketIndex d
    let p ← m.read (some a) KeyNode.next
    let m ← m.write (some a) fun n => { n with next := none }
    if (B Di).head = none then return .again (m, Function.update B Di ⟨some a, some a⟩, p)
    else
      let m ← m.write (B Di).tail fun n => { n with next := some a }
      return .again (m, Function.update B Di ⟨(B Di).head, some a⟩, p)

/-- The body of the loop that collects the queues: a queue that is not empty goes before the list. -/
def collectStep : Mem (KeyNode Int) × Bucket × Ptr → Nat → Option (Mem (KeyNode Int) × Bucket × Ptr)
  | (m, B, list), Di =>
    if (B Di).head ≠ none then do
      let m ← m.write (B Di).tail fun n => { n with next := list }
      return (m, Function.update B Di ⟨none, none⟩, (B Di).head)
    else some (m, B, list)

/-- The pass for the digit `D`, with at most `n` rounds of its loop. -/
def pass (n : Nat) : Mem (KeyNode Int) × Bucket × Ptr → Nat → Option (Mem (KeyNode Int) × Bucket × Ptr)
  | (m, B, list), D => do
    let (m, B) ← loop (distributeRound D) n (m, B, list)
    (List.range Radix).reverse.foldlM collectStep (m, B, none)

/-- `tmp = p; p = p->next; A[j] = tmp->key; free(tmp);`. -/
def pourNode : Cells Int × Mem (KeyNode Int) × Ptr → Nat → Option (Cells Int × Mem (KeyNode Int) × Ptr)
  | (A, m, p), j => do
    let next ← m.read p KeyNode.next
    let key ← m.read p KeyNode.key
    let A ← A.set j key
    let m ← m.delete p
    return (A, m, next)

/-- `LSDRadixSort(A, N)`, with at most `n` rounds of the loops over lists. -/
def lsdRadixSort (n : Nat) (place : Placement Int) (A : Cells Int) (N : Nat) (h : HeapState Int) : Option (Cells Int × HeapState Int) := do
  let (h, list) ← (List.range' 0 N).foldlM (storeStep place A) (h, none)
  let (m, _, list) ← (List.range' 1 MaxDigit).foldlM (pass n) (h.mem, emptyBucket, list)
  let (A, m, _) ← (List.range' 0 N).foldlM pourNode (A, m, list)
  return (A, ⟨m, h.calls⟩)

/-! ## Digits -/

/-- The digit of `x` that has the weight `10 ^ D`. -/
def digit (D : Nat) (x : Int) : Nat := (x / 10 ^ D % 10).toNat

theorem digit_lt (D : Nat) (x : Int) : digit D x < Radix := by
  have h : x / 10 ^ D % 10 < 10 := Int.emod_lt_of_pos _ (by decide)
  unfold digit Radix
  omega

theorem natCast_digit (D : Nat) (x : Int) : (digit D x : Int) = x / 10 ^ D % 10 := by grind [digit]

theorem foldl_getDigit {X : Int} (hX : 0 ≤ X) (D : Nat) :
    (range' 1 (D + 1)).foldl (fun (s : Option Int × Int) _ => (some (s.2.tmod Radix), s.2.tdiv Radix)) (none, X) =
      (some (X / 10 ^ D % 10), X / 10 ^ (D + 1)) := by
  induction D with
  | zero =>
    have hdiv : X.tdiv (Radix : Nat) = X / 10 := Int.tdiv_eq_ediv_of_nonneg hX
    have hmod : X.tmod (Radix : Nat) = X % 10 := Int.tmod_eq_emod_of_nonneg hX
    simp [hdiv, hmod]
  | succ D ih =>
    have hpos : 0 ≤ X / 10 ^ (D + 1) := Int.ediv_nonneg hX (by positivity)
    have hdiv : (X / 10 ^ (D + 1)).tdiv (Radix : Nat) = X / 10 ^ (D + 1) / 10 := Int.tdiv_eq_ediv_of_nonneg hpos
    have hmod : (X / 10 ^ (D + 1)).tmod (Radix : Nat) = X / 10 ^ (D + 1) % 10 := Int.tmod_eq_emod_of_nonneg hpos
    rw [range'_concat, foldl_append, ih]
    simp only [foldl_cons, foldl_nil]
    rw [hdiv, hmod, Int.ediv_ediv_of_nonneg (by positivity), ← pow_succ]

theorem getDigit_eq {X : Int} (hX : 0 ≤ X) (D : Nat) : (getDigit X (D + 1)).bind bucketIndex = some (digit D X) := by
  have hlt := digit_lt D X
  rw [getDigit, foldl_getDigit hX, bind_some, bucketIndex, if_pos]
  · rfl
  · rw [← natCast_digit]
    omega

/-- The number of the last digits is compared by its first digit, then by the others. -/
theorem splits_mod (D : Nat) (xs : List Int) : StableSort.Splits (fun x : Int => x % 10 ^ (D + 1)) (digit D) (fun x : Int => x % 10 ^ D) xs := by
  intro a _ b _
  have hpow : (0 : Int) < 10 ^ D := by positivity
  have hsp : ∀ x : Int, x % 10 ^ (D + 1) = (digit D x : Int) * 10 ^ D + x % 10 ^ D := by
    intro x
    rw [natCast_digit, pow_succ, Int.emod_def x (10 ^ D * 10), Int.emod_def (x / 10 ^ D), Int.emod_def x, ← Int.ediv_ediv_of_nonneg hpow.le]
    ring
  have hlow : ∀ x : Int, 0 ≤ x % 10 ^ D ∧ x % 10 ^ D < 10 ^ D := fun x => ⟨Int.emod_nonneg _ hpow.ne', Int.emod_lt_of_pos _ hpow⟩
  obtain ⟨ha, ha'⟩ := hlow a
  obtain ⟨hb, hb'⟩ := hlow b
  simp only [hsp]
  rcases lt_trichotomy (digit D a) (digit D b) with hlt | heq | hgt
  · have hle : ((digit D a : Int) + 1) * 10 ^ D ≤ (digit D b : Int) * 10 ^ D := Int.mul_le_mul_of_nonneg_right (by exact_mod_cast hlt) hpow.le
    rw [add_mul, one_mul] at hle
    exact iff_of_true (by linarith) (Or.inl hlt)
  · rw [heq]
    simp
  · have hle : ((digit D b : Int) + 1) * 10 ^ D ≤ (digit D a : Int) * 10 ^ D := Int.mul_le_mul_of_nonneg_right (by exact_mod_cast hgt) hpow.le
    rw [add_mul, one_mul] at hle
    refine iff_of_false (by linarith) ?_
    rintro (h | ⟨h, -⟩)
    · exact absurd h hgt.asymm
    · exact absurd h hgt.ne'

/-! ## Storing a part of an array in a list -/

open Mem

variable {m : Mem (KeyNode Int)} {B : Bucket} {p list : Ptr} {ns rest : List (Addr × Int)} {c : Cells Int} {xs : List Int} {D n k : Nat}

/-- The elements `xs` stand in a list of new nodes, in reverse order. -/
structure Stored (before after : Mem (KeyNode Int)) (p : Ptr) (ns : List (Addr × Int)) (xs : List Int) : Prop where
  nodes : NodeList after p ns none
  keys : ns.map Prod.snd = xs.reverse
  nodup : (addrsOf ns).Nodup
  fresh : ∀ n ∈ ns, before n.1 = none
  frame : ∀ a, a ∉ addrsOf ns → after a = before a

theorem store_spec {place : Placement Int} (hpl : place.Fresh) {h : HeapState Int} (hfin : h.mem.IsFinite) {L : Nat} (hxs : c.Holds L xs) :
    ∃ h' p ns, (range' L xs.length).foldlM (storeStep place c) (h, none) = some (h', p) ∧ Stored h.mem h'.mem p ns xs ∧ h'.mem.IsFinite ∧
      h'.calls = h.calls + xs.length := by
  induction xs using reverseRecOn with
  | nil => exact ⟨h, none, [], rfl, ⟨rfl, rfl, nodup_nil, by simp, fun _ _ => rfl⟩, hfin, rfl⟩
  | append_singleton xs x ih =>
    obtain ⟨hxs', hx, -⟩ := holds_append.mp hxs
    obtain ⟨h', p, ns, hrun, hst, hfin', hcs⟩ := ih hxs'
    obtain ⟨hf, hmalloc⟩ := h'.malloc_eq hpl hfin' ⟨x, p⟩
    obtain ⟨a, ha⟩ : ∃ a, a = place h'.calls h'.mem := ⟨_, rfl⟩
    rw [← ha] at hf hmalloc
    have hnew : a ∉ addrsOf ns := hst.nodes.notMem_of_free hf
    refine ⟨⟨update h'.mem a (some ⟨x, p⟩), h'.calls + 1⟩, some a, (a, x) :: ns, ?_, ⟨hst.nodes.cons hnew x, ?_, ?_, ?_, ?_⟩, hfin'.update a _, ?_⟩
    · rw [length_append, length_singleton, range'_concat, foldlM_append, hrun, one_mul]
      simp [storeStep, hx, hmalloc]
    · rw [map_cons, hst.keys, reverse_append, reverse_singleton, singleton_append]
    · exact nodup_cons.mpr ⟨hnew, hst.nodup⟩
    · intro n hn
      rcases mem_cons.mp hn with rfl | hn
      · rw [← hst.frame _ hnew, hf]
      · exact hst.fresh n hn
    · intro b hb
      have hb' : b ≠ a ∧ b ∉ addrsOf ns := by
        rw [addrsOf, map_cons, mem_cons, not_or] at hb
        exact hb
      dsimp only
      rw [update_of_ne hb'.1, hst.frame b hb'.2]
    · grind

variable {before after : Mem (KeyNode Int)} {ns done : List (Addr × Int)} {node : Addr × Int}

theorem Stored.length_eq {p : Ptr} (h : Stored before after p ns xs) : ns.length = xs.length := by
  rw [← length_map snd, h.keys, length_reverse]

theorem Stored.nonneg {p : Ptr} (h : Stored before after p ns xs) (hpos : ∀ x ∈ xs, 0 ≤ x) : ∀ node ∈ ns, 0 ≤ node.2 := by
  intro node hnode
  have hmem : node.2 ∈ ns.map snd := mem_map_of_mem hnode
  rw [h.keys, mem_reverse] at hmem
  exact hpos _ hmem

/-- The memory after the nodes of the list were freed is that before they were allocated. -/
theorem Stored.without {before after m : Mem (KeyNode Int)} {p : Ptr} {ns ns' : List (Addr × Int)} (h : Stored before after p ns xs)
    (hm : ∀ a, a ∉ addrsOf ns → m a = after a) (hp : ns'.Perm ns) : m.without ns' = before := by
  have haddrs : ∀ a, a ∈ addrsOf ns' ↔ a ∈ addrsOf ns := fun a => (hp.map fst).mem_iff
  funext a
  rw [Mem.without]
  by_cases ha : a ∈ addrsOf ns
  · obtain ⟨n, hn, rfl⟩ := mem_map.mp ha
    rw [if_pos ((haddrs _).mpr ha), h.fresh n hn]
  · rw [if_neg fun ha' => ha ((haddrs a).mp ha'), hm a ha, h.frame a ha]

/-! ## Distribution -/

/-- A round over a list of nodes that keeps an invariant of the buckets and the nodes it has come past, and the cells elsewhere. -/
def DistributesBy (round : Mem (KeyNode Int) × Bucket × Ptr → Option (Round (Mem (KeyNode Int) × Bucket × Ptr) (Mem (KeyNode Int) × Bucket)))
    (I : Mem (KeyNode Int) → Bucket → List (Addr × Int) → Prop) : Prop :=
  ∀ (done : List (Addr × Int)) (node : Addr × Int) (rest : List (Addr × Int)) (m : Mem (KeyNode Int)) (B : Bucket) (p : Ptr),
    (addrsOf (done ++ node :: rest)).Nodup → 0 ≤ node.2 → NodeList m p (node :: rest) none → I m B done →
      ∃ m' B' p', round (m, B, p) = some (.again (m', B', p')) ∧ NodeList m' p' rest none ∧ I m' B' (done ++ [node]) ∧
        ∀ a, a ∉ addrsOf (done ++ [node]) → m' a = m a

theorem DistributesBy.loop {round : Mem (KeyNode Int) × Bucket × Ptr → Option (Round (Mem (KeyNode Int) × Bucket × Ptr) (Mem (KeyNode Int) × Bucket))}
    {I : Mem (KeyNode Int) → Bucket → List (Addr × Int) → Prop} (hrd : DistributesBy round I)
    (hstop : ∀ m B, round (m, B, none) = some (.stop (m, B))) (done : List (Addr × Int)) (hnd : (addrsOf (done ++ rest)).Nodup)
    (hpos : ∀ node ∈ rest, 0 ≤ node.2) (hl : NodeList m p rest none) (hinv : I m B done) (hn : rest.length < n) :
    ∃ m' B', loop round n (m, B, p) = some (m', B') ∧ I m' B' (done ++ rest) ∧ ∀ a, a ∉ addrsOf (done ++ rest) → m' a = m a := by
  induction rest generalizing done m B p n with
  | nil =>
    obtain ⟨n, rfl⟩ : ∃ k, n = k + 1 := exists_eq_succ_of_ne_zero (ne_of_gt hn)
    have hend : p = none := hl
    subst hend
    refine ⟨m, B, loop_of_stop (hstop m B) n, ?_, fun _ _ => rfl⟩
    rwa [append_nil]
  | cons node rest ih =>
    obtain ⟨n, rfl⟩ : ∃ k, n = k + 1 := exists_eq_succ_of_ne_zero (ne_of_gt (zero_lt_of_lt hn))
    have hassoc : done ++ node :: rest = done ++ [node] ++ rest := by simp
    obtain ⟨m1, B1, p1, hs, hr, hinv1, hframe1⟩ := hrd done node rest m B p hnd (hpos node mem_cons_self) hl hinv
    rw [hassoc] at hnd ⊢
    obtain ⟨m', B', hrun, hinv', hframe'⟩ :=
      ih (done ++ [node]) hnd (fun node' h => hpos node' (mem_cons_of_mem node h)) hr hinv1 (lt_of_succ_lt_succ hn)
    refine ⟨m', B', ?_, hinv', fun a ha => ?_⟩
    · rw [loop_of_again hs, hrun]
    · rw [hframe' a ha, hframe1 a]
      intro hmem
      rw [addrsOf, map_append] at ha
      exact ha (mem_append_left _ hmem)

/-- A bucket holds a queue of nodes. -/
def Queue (m : Mem (KeyNode Int)) (b : HeadNode) (ns : List (Addr × Int)) : Prop := NodeList m b.head ns none ∧ b.tail = ns.getLast?.map Prod.fst

theorem Queue.update {b : HeadNode} (h : Queue m b ns) {a : Addr} (ha : a ∉ addrsOf ns) (x : Option (KeyNode Int)) :
    Queue (Function.update m a x) b ns :=
  ⟨h.1.update ha x, h.2⟩

theorem Queue.eq_nil_or_last {b : HeadNode} (h : Queue m b ns) (hnd : (addrsOf ns).Nodup) :
    ns = [] ∧ b = ⟨none, none⟩ ∨ ∃ last ∈ ns, b.head ≠ none ∧ b.tail = some last.1 ∧ (∃ q, m last.1 = some ⟨last.2, q⟩) ∧
      ∀ r, NodeList (Function.update m last.1 (some ⟨last.2, r⟩)) b.head ns r := by
  obtain ⟨head, tail⟩ := b
  obtain ⟨hchain, ht⟩ := h
  dsimp only at hchain ht
  rcases eq_nil_or_concat ns with rfl | ⟨ys, ⟨a, y⟩, rfl⟩
  · have hh : head = none := hchain
    have ht' : tail = none := ht
    exact Or.inl ⟨rfl, by rw [hh, ht']⟩
  · rw [concat_eq_append] at hchain ht hnd ⊢
    rw [getLast?_concat, map_some] at ht
    obtain ⟨r, -, -, q, hc, -⟩ := nodeList_append.mp hchain
    have hys : a ∉ addrsOf ys := by
      rw [addrsOf, map_append] at hnd
      intro hmem
      exact (nodup_append.mp hnd).2.2 a hmem a (mem_singleton_self a) rfl
    refine Or.inr ⟨(a, y), mem_append_right ys (mem_singleton_self _), ?_, ht, ⟨q, hc⟩, fun r => hchain.relink hys r⟩
    rintro rfl
    cases ys with
    | nil => cases hchain.1
    | cons z ys => cases hchain.1

/-- The nodes of a digit. -/
abbrev ofDigit (D : Nat) (ns : List (Addr × Int)) (i : Nat) : List (Addr × Int) := ns.filter fun n => digit D n.2 = i

theorem notMem_ofDigit {a : Addr} (ha : a ∉ addrsOf ns) (D i : Nat) : a ∉ addrsOf (ofDigit D ns i) := by
  intro hmem
  obtain ⟨n, hn, rfl⟩ := mem_map.mp hmem
  exact ha (mem_addrsOf (mem_of_mem_filter hn))

/-- A node is in the queue of its own digit only. -/
theorem notMem_ofDigit_of_ne (hnd : (addrsOf ns).Nodup) {b : Addr × Int} {i j : Nat} (hb : b ∈ ofDigit D ns i) (hij : j ≠ i) :
    b.1 ∉ addrsOf (ofDigit D ns j) := by
  intro hmem
  obtain ⟨n, hn, hna⟩ := mem_map.mp hmem
  obtain ⟨hbns, hbi⟩ := mem_filter.mp hb
  obtain ⟨hnns, hnj⟩ := mem_filter.mp hn
  have heq := eq_of_addr_eq hnd hnns hbns hna
  subst heq
  exact hij ((of_decide_eq_true hnj).symm.trans (of_decide_eq_true hbi))

theorem nodup_ofDigit (hnd : (addrsOf ns).Nodup) (D i : Nat) : (addrsOf (ofDigit D ns i)).Nodup := hnd.sublist (filter_sublist.map fst)

theorem ofDigit_concat_of_ne {i : Nat} (hi : i ≠ digit D node.2) : ofDigit D (done ++ [node]) i = ofDigit D done i := by grind

theorem ofDigit_concat_self (D : Nat) (done : List (Addr × Int)) (node : Addr × Int) :
    ofDigit D (done ++ [node]) (digit D node.2) = ofDigit D done (digit D node.2) ++ [node] := by simp

theorem nodup_around (hnd : (addrsOf (done ++ node :: rest)).Nodup) :
    (addrsOf done).Nodup ∧ node.1 ∉ addrsOf done ∧ node.1 ∉ addrsOf rest ∧ ∀ a ∈ addrsOf done, a ∉ addrsOf rest := by
  rw [addrsOf, map_append, map_cons] at hnd
  obtain ⟨hdone, hr, hdisj⟩ := nodup_append.mp hnd
  refine ⟨hdone, fun hmem => ?_, (nodup_cons.mp hr).1, fun a ha hmem => ?_⟩
  · exact hdisj node.1 hmem node.1 mem_cons_self rfl
  · exact hdisj a ha a (mem_cons_of_mem _ hmem) rfl

theorem distributeRound_distributes (D : Nat) : DistributesBy (distributeRound (D + 1)) fun m B ns => ∀ i, Queue m (B i) (ofDigit D ns i) := by
  rintro done ⟨a, x⟩ rest m B p hnd hpos ⟨rfl, next, hc, hrest⟩ hqueues
  obtain ⟨hnd1, hadone, harest, hdisj⟩ := nodup_around hnd
  have hdigit := getDigit_eq hpos D
  obtain ⟨d, hd, hidx⟩ := bind_eq_some_iff.mp hdigit
  dsimp only at hd hc hidx
  rw [distributeRound, read_of_some hc]
  simp only [bind_eq_bind, bind_some, hd, hidx, read_of_some hc, write_of_some hc]
  obtain ⟨m1, hm1⟩ : ∃ m1 : Mem (KeyNode Int), m1 = update m a (some ⟨x, none⟩) := ⟨_, rfl⟩
  rw [← hm1]
  have hself : m1 a = some ⟨x, none⟩ := by rw [hm1, update_self]
  have hqueues1 : ∀ i, Queue m1 (B i) (ofDigit D done i) := by
    intro i
    rw [hm1]
    exact (hqueues i).update (notMem_ofDigit hadone D i) _
  have hrest1 : NodeList m1 next rest none := by
    rw [hm1]
    exact hrest.update harest _
  have hframe1 : ∀ b, b ≠ a → m1 b = m b := by
    intro b hb
    rw [hm1, update_of_ne hb]
  have hsame := ofDigit_concat_self D done (a, x)
  have hlast : a ∈ addrsOf (done ++ [(a, x)]) := mem_addrsOf (mem_append_right done (mem_singleton_self (a, x)))
  rcases (hqueues1 (digit D x)).eq_nil_or_last (nodup_ofDigit hnd1 D _) with
    ⟨hnil, hempty⟩ | ⟨⟨b, y⟩, hb, hhead, htail, ⟨q, hcellb⟩, hrelink⟩
  · -- the first node of its bucket
    rw [if_pos (by rw [hempty])]
    refine ⟨m1, _, next, rfl, hrest1, fun i => ?_, fun b hb => hframe1 b fun heq => hb (heq ▸ hlast)⟩
    by_cases hi : i = digit D x
    · subst hi
      rw [update_self, hsame, hnil, nil_append]
      exact ⟨⟨rfl, none, hself, rfl⟩, rfl⟩
    · grind
  · -- behind the last node of its bucket
    have hbdone : b ∈ addrsOf done := mem_addrsOf (mem_of_mem_filter hb)
    have hab : b ≠ a := fun heq => hadone (heq ▸ hbdone)
    rw [if_neg hhead, htail, write_of_some hcellb, bind_some]
    refine ⟨update m1 b (some ⟨y, some a⟩), _, next, rfl, ?_, fun i => ?_, fun b' hb' => ?_⟩
    · exact hrest1.update (hdisj b hbdone) _
    · by_cases hi : i = digit D x
      · subst hi
        rw [update_self, hsame]
        refine ⟨nodeList_append.mpr ⟨some a, hrelink (some a), rfl, none, ?_, rfl⟩, ?_⟩
        · rw [update_of_ne (Ne.symm hab), hself]
        · rw [getLast?_concat, map_some]
      · rw [update_of_ne hi, ofDigit_concat_of_ne hi]
        exact (hqueues1 i).update (notMem_ofDigit_of_ne hnd1 hb hi) _
    · have hne : b' ≠ b := by
        rintro rfl
        rw [addrsOf, map_append] at hb'
        exact hb' (mem_append_left _ hbdone)
      rw [update_of_ne hne, hframe1 b' fun heq => hb' (heq ▸ hlast)]

/-! ## Collection -/

/-- The nodes of all digits, one digit after the other. -/
def collected (D : Nat) (ns : List (Addr × Int)) : List (Addr × Int) := (List.range Radix).flatMap (ofDigit D ns)

theorem collected_stable (D : Nat) (ns : List (Addr × Int)) : StableSort (fun n : Addr × Int => digit D n.2) ns (collected D ns) :=
  StableSort.of_filters pairwise_lt_range fun n _ => mem_range.mpr (digit_lt D n.2)

/-- The queues from the bucket `k` on are collected; the others are collected one after another. -/
theorem collect_spec (hnd : (addrsOf ns).Nodup) (hk : k ≤ Radix) (hlist : NodeList m list ((range' k (Radix - k)).flatMap (ofDigit D ns)) none)
    (hqueues : ∀ i, i < k → Queue m (B i) (ofDigit D ns i)) (hempty : ∀ i, k ≤ i → B i = ⟨none, none⟩) :
    ∃ m' list', (range k).reverse.foldlM collectStep (m, B, list) = some (m', emptyBucket, list') ∧
      NodeList m' list' (collected D ns) none ∧ ∀ a, a ∉ addrsOf ns → m' a = m a := by
  induction k generalizing m B list with
  | zero =>
    have hB : B = emptyBucket := funext fun i => hempty i (Nat.zero_le i)
    refine ⟨m, list, by rw [hB]; rfl, ?_, fun _ _ => rfl⟩
    rwa [Nat.sub_zero, ← range_eq_range'] at hlist
  | succ k ih =>
    have hrange : range' k (Radix - k) = k :: range' (k + 1) (Radix - (k + 1)) := by
      obtain ⟨l, hl⟩ : ∃ l, Radix - k = l + 1 := ⟨Radix - (k + 1), by omega⟩
      have hl' : Radix - (k + 1) = l := by omega
      rw [hl, hl', range'_succ]
    rw [foldlM_range_reverse, collectStep]
    rcases (hqueues k (Nat.lt_succ_self k)).eq_nil_or_last (nodup_ofDigit hnd D k) with
      ⟨hnil, hnone⟩ | ⟨⟨b, y⟩, hb, hhead, htail, ⟨q, hc⟩, hrelink⟩
    · -- an empty bucket
      rw [if_neg (by simp [hnone])]
      refine ih (Nat.le_of_succ_le hk) ?_ (fun i hi => hqueues i (Nat.lt_succ_of_lt hi)) fun i hi => ?_
      · rwa [hrange, flatMap_cons, hnil, nil_append]
      · grind
    · have hbns : b ∈ addrsOf ns := mem_addrsOf (mem_of_mem_filter hb)
      rw [if_pos hhead, htail, write_of_some hc]
      obtain ⟨m1, hm1⟩ : ∃ m1 : Mem (KeyNode Int), m1 = update m b (some ⟨y, list⟩) := ⟨_, rfl⟩
      have hlist1 : NodeList m1 (B k).head ((range' k (Radix - k)).flatMap (ofDigit D ns)) none := by
        rw [hrange, flatMap_cons, hm1]
        refine nodeList_append.mpr ⟨list, hrelink list, hlist.update (fun hmem => ?_) _⟩
        obtain ⟨n, hn, hnb⟩ := mem_map.mp hmem
        obtain ⟨i, hi, hni⟩ := mem_flatMap.mp hn
        have hik : i ≠ k := by grind
        have hmem' := mem_addrsOf hni
        rw [hnb] at hmem'
        exact notMem_ofDigit_of_ne hnd hb hik hmem'
      have hqueues1 : ∀ i, i < k → Queue m1 (update B k ⟨none, none⟩ i) (ofDigit D ns i) := by
        intro i hi
        rw [update_of_ne hi.ne, hm1]
        exact (hqueues i (Nat.lt_succ_of_lt hi)).update (notMem_ofDigit_of_ne hnd hb hi.ne) _
      have hempty1 : ∀ i, k ≤ i → update B k ⟨none, none⟩ i = ⟨none, none⟩ := by grind
      obtain ⟨m', list', hrun, hlist', hframe⟩ := ih (Nat.le_of_succ_le hk) hlist1 hqueues1 hempty1
      refine ⟨m', list', ?_, hlist', fun a ha => ?_⟩
      · rw [hm1] at hrun
        exact hrun
      · have hab : a ≠ b := fun heq => ha (heq ▸ hbns)
        rw [hframe a ha, hm1, update_of_ne hab]

theorem pass_spec (hnd : (addrsOf ns).Nodup) (hpos : ∀ node ∈ ns, 0 ≤ node.2) (hlist : NodeList m list ns none) (hn : ns.length < n) (D : Nat) :
    ∃ m' list', pass n (m, emptyBucket, list) (D + 1) = some (m', emptyBucket, list') ∧ NodeList m' list' (collected D ns) none ∧
      ∀ a, a ∉ addrsOf ns → m' a = m a := by
  have hst : ∀ i, Queue m (emptyBucket i) (ofDigit D [] i) := fun i => ⟨rfl, rfl⟩
  obtain ⟨m1, B1, hrun, hqueues, hfr⟩ := (distributeRound_distributes D).loop (fun _ _ => rfl) [] hnd hpos hlist hst hn
  rw [nil_append] at hqueues hfr
  have hout : ∀ i, Radix ≤ i → ofDigit D ns i = [] := by
    intro i hi
    rw [filter_eq_nil_iff]
    intro node _ hnode
    exact absurd (of_decide_eq_true hnode) ((digit_lt D node.2).trans_le hi).ne
  have hnil : ∀ i, Radix ≤ i → B1 i = ⟨none, none⟩ := by
    intro i hi
    rcases (hqueues i).eq_nil_or_last (nodup_ofDigit hnd D i) with ⟨-, hnone⟩ | ⟨last, hl, -⟩
    · exact hnone
    · rw [hout i hi] at hl
      cases hl
  have hnothing : NodeList m1 none ((range' Radix (Radix - Radix)).flatMap (ofDigit D ns)) none := by
    rw [Nat.sub_self]
    rfl
  obtain ⟨m', list', hrun', hlist', hfr'⟩ := collect_spec hnd (le_refl Radix) hnothing (fun i _ => hqueues i) hnil
  refine ⟨m', list', ?_, hlist', fun a ha => (hfr' a ha).trans (hfr a ha)⟩
  rw [pass, hrun]
  exact hrun'

theorem passes_spec (hnd : (addrsOf ns).Nodup) (hpos : ∀ node ∈ ns, 0 ≤ node.2) (hl : NodeList m list ns none) (hn : ns.length < n) (D : Nat) :
    ∃ m' list' ns', (range' 1 D).foldlM (pass n) (m, emptyBucket, list) = some (m', emptyBucket, list') ∧ NodeList m' list' ns' none ∧
      StableSort (fun node : Addr × Int => node.2 % 10 ^ D) ns ns' ∧ ∀ a, a ∉ addrsOf ns → m' a = m a := by
  induction D with
  | zero =>
    refine ⟨m, list, ns, rfl, hl, StableSort.of_forall_eq (k := 0) fun node _ => ?_, fun _ _ => rfl⟩
    rw [pow_zero, Int.emod_one]
  | succ D ih =>
    obtain ⟨m1, list1, ns1, hrun, hl1, hstab, hfr⟩ := ih
    have haddrs : (addrsOf ns1).Perm (addrsOf ns) := hstab.perm.map fst
    obtain ⟨m', list', hrun', hl', hfr'⟩ := pass_spec (haddrs.nodup_iff.mpr hnd) (fun node h => hpos node (hstab.perm.subset h)) hl1
      (hstab.length_eq ▸ hn) D
    have hsplits : StableSort.Splits (fun node : Addr × Int => node.2 % 10 ^ (D + 1)) (fun node => digit D node.2)
        (fun node => node.2 % 10 ^ D) ns := by
      intro a _ b _
      exact splits_mod D [a.2, b.2] a.2 (by simp) b.2 (by simp)
    refine ⟨m', list', collected D ns1, ?_, hl', StableSort.trans_digit hsplits hstab (collected_stable D ns1), fun a ha => ?_⟩
    · rw [range'_concat, foldlM_append, hrun, one_mul, add_comm 1 D]
      simp [hrun']
    · grind

/-! ## Pouring the list into the array -/

theorem pourNode_cons (hl : NodeList m p (node :: ns) none) (ha : node.1 ∉ addrsOf ns) {y : Int} (hc : c k = some y) :
    ∃ next, pourNode (c, m, p) k = some (update c k (some node.2), update m node.1 none, next) ∧ NodeList (update m node.1 none) next ns none := by
  obtain ⟨rfl, next, hnode, hr⟩ := hl
  refine ⟨next, ?_, hr.update ha none⟩
  rw [pourNode, read_of_some hnode, read_of_some hnode]
  simp [set_natCast hc, delete_of_some hnode]

theorem without_cons (m : Mem (KeyNode Int)) (node : Addr × Int) (ns : List (Addr × Int)) :
    (Mem.without (update m node.1 none) ns : Mem (KeyNode Int)) = m.without (node :: ns) := by
  rw [← without_singleton, without_append, singleton_append]

theorem pour_spec (hl : NodeList m p ns none) (hnd : (addrsOf ns).Nodup) {zs : List Int} (hcs : c.Holds k zs) (hlen : zs.length = ns.length) :
    (range' k ns.length).foldlM pourNode (c, m, p) = some (c.store k (ns.map snd), m.without ns, none) := by
  induction ns generalizing c m p k zs with
  | nil =>
    have hend : p = none := hl
    rw [hend, without_nil]
    rfl
  | cons node ns ih =>
    obtain ⟨hnew, hnd'⟩ := nodup_cons.mp hnd
    cases zs with
    | nil => cases hlen
    | cons z zs =>
      obtain ⟨next, hrun, hr⟩ := pourNode_cons hl hnew hcs.1
      rw [length_cons, range'_succ, foldlM_cons, hrun, bind_eq_bind, bind_some,
        ih hr hnd' (hcs.update_before node.2) (succ.inj hlen), without_cons]
      rfl

/-! ## The result -/

/-- The last digits of a number that has no more are the number. -/
theorem emod_eq_self {xs : List Int} (hpos : ∀ x ∈ xs, 0 ≤ x) (hlt : ∀ x ∈ xs, x < 10 ^ MaxDigit) {x : Int} (hx : x ∈ xs) : x % 10 ^ MaxDigit = x :=
  Int.emod_eq_of_lt (hpos x hx) (hlt x hx)

/-- Sorting by the last digits sorts numbers that have no more. -/
theorem sorted_of_stable {xs ys : List Int} (h : StableSort (fun x : Int => x % 10 ^ MaxDigit) xs ys) (hpos : ∀ x ∈ xs, 0 ≤ x)
    (hlt : ∀ x ∈ xs, x < 10 ^ MaxDigit) : ys.Pairwise (· ≤ ·) := by
  refine h.sorted.imp_of_mem fun {a b} ha hb hab => ?_
  rwa [emod_eq_self hpos hlt (h.perm.subset ha), emod_eq_self hpos hlt (h.perm.subset hb)] at hab

/-- `LSDRadixSort` leaves the reverse of its input, stably sorted by the last `MaxDigit` digits. It frees what it allocates. -/
theorem lsdRadixSort_spec {place : Placement Int} (hpl : place.Fresh) {h : HeapState Int} (hfin : h.mem.IsFinite) {xs : List Int}
    (hpos : ∀ x ∈ xs, 0 ≤ x) :
    ∃ n ys h', lsdRadixSort n place (ofList xs) xs.length h = some (ofList ys, h') ∧ h'.mem = h.mem ∧
      StableSort (fun x : Int => x % 10 ^ MaxDigit) xs.reverse ys := by
  obtain ⟨h1, p, ns, hrun1, hst, -, -⟩ := store_spec hpl hfin (holds_ofList xs)
  obtain ⟨m, p', ns', hrun2, hl, hstab, hfr⟩ := passes_spec hst.nodup (hst.nonneg hpos) hst.nodes (lt_succ_self ns.length) MaxDigit
  have hnd' : (addrsOf ns').Nodup := (hstab.perm.map fst).nodup_iff.mpr hst.nodup
  have hlen' : xs.length = ns'.length := by rw [hstab.length_eq, hst.length_eq]
  have hpour := pour_spec hl hnd' (holds_ofList xs) hlen'
  refine ⟨ns.length + 1, ns'.map snd, ⟨m.without ns', h1.calls⟩, ?_, hst.without hfr hstab.perm, ?_⟩
  · grind [store_ofList, length_map, lsdRadixSort]
  · have hmap : StableSort (fun x : Int => x % 10 ^ MaxDigit) (ns.map snd) (ns'.map snd) := StableSort.map hstab
    rwa [hst.keys] at hmap

/-- `LSDRadixSort` leaves the stable sort of the reversed input by the last `MaxDigit` digits, which is the sorted input when no number has more. -/
theorem lsdRadixSort_sorts {place : Placement Int} (hplace : place.Fresh) {h : HeapState Int} (hfin : h.mem.IsFinite) {xs : List Int}
    (hpos : ∀ x ∈ xs, 0 ≤ x) :
    ∃ n ys h', lsdRadixSort n place (Cells.ofList xs) xs.length h = some (Cells.ofList ys, h') ∧ h'.mem = h.mem ∧
      StableSort (fun x : Int => x % 10 ^ MaxDigit) xs.reverse ys ∧ ((∀ x ∈ xs, x < 10 ^ MaxDigit) → ys.Pairwise (· ≤ ·) ∧ ys.Perm xs) := by
  obtain ⟨n, ys, h', hrun, hmem, hstable⟩ := lsdRadixSort_spec hplace hfin hpos
  refine ⟨n, ys, h', hrun, hmem, hstable, fun hlt => ⟨sorted_of_stable hstable ?_ ?_, hstable.perm.trans xs.reverse_perm⟩⟩
  · intro x hx
    exact hpos x (mem_reverse.mp hx)
  · intro x hx
    exact hlt x (mem_reverse.mp hx)

/-- The numbers of `main`. -/
theorem lsdRadixSort_sorts_main :
    ∃ n ys h', lsdRadixSort n Placement.firstFit (Cells.ofList [876, 45, 354, 98, 3, 7644, 65, 98, 342, 0]) 10 ⟨fun _ => none, 0⟩ =
        some (Cells.ofList ys, h') ∧ h'.mem = (fun _ => none) ∧
      StableSort (fun x : Int => x % 10 ^ MaxDigit) [0, 342, 98, 65, 7644, 3, 98, 354, 45, 876] ys ∧
      ((∀ x ∈ ([876, 45, 354, 98, 3, 7644, 65, 98, 342, 0] : List Int), x < 10 ^ MaxDigit) →
        ys.Pairwise (· ≤ ·) ∧ ys.Perm [876, 45, 354, 98, 3, 7644, 65, 98, 342, 0]) :=
  lsdRadixSort_sorts (h := ⟨fun _ => none, 0⟩) Placement.firstFit_fresh Mem.isFinite_none (by decide)

end CsLearning.Code.RadixSort
