import CsLearning.Code.RadixSort

/-!
# Radix sort from the first digit on

`MSDRadixSort` of `MSDradix_sort.c`: a part of the array is stored in a linked list, in reverse order, and the nodes of the list are pushed on the
lists of ten buckets, which reverses them once more. Each list is poured back into the array, its nodes are freed, and the part of the array where it
went is sorted by the next digit.

`digitSort` says what a call leaves in its part of the array. A call leaves the memory as it was, since it frees all its nodes, so the lists of the
buckets that are not poured yet survive the calls for those that are.
-/

open List Option Function Nat Prod

namespace CsLearning.Code.RadixSort

open Cells

open Mem

namespace MSD

/-! ## The code -/

/-- One round of `while (p)` in the distribution: the node goes to the front of the list of its bucket. -/
def distributeRound (D : Nat) : Mem (KeyNode Int) × Bucket × Ptr → Option (Round (Mem (KeyNode Int) × Bucket × Ptr) (Mem (KeyNode Int) × Bucket))
  | (m, B, none) => some (.stop (m, B))
  | (m, B, some a) => do
    let key ← m.read (some a) KeyNode.key
    let d ← getDigit key D
    let Di ← bucketIndex d
    let p ← m.read (some a) KeyNode.next
    let tail := if (B Di).head = none then some a else (B Di).tail
    let m ← m.write (some a) fun n => { n with next := (B Di).head }
    return .again (m, Function.update B Di ⟨some a, tail⟩, p)

/-- One round of the loop that pours a list into the array, from the cell `j` on. -/
def pourRound : Cells Int × Mem (KeyNode Int) × Ptr × Nat →
    Option (Round (Cells Int × Mem (KeyNode Int) × Ptr × Nat) (Cells Int × Mem (KeyNode Int) × Nat))
  | (A, m, none, j) => some (.stop (A, m, j))
  | (A, m, some a, j) => do
    let (A, m, p) ← pourNode (A, m, some a) j
    return .again (A, m, p, j + 1)

/-- The body of the loop over the buckets, in which `A`, the memory, `i` and `j` are the variables. -/
def bucketStep (n : Nat) (recurse : Cells Int → Nat → Int → HeapState Int → Option (Cells Int × HeapState Int)) (B : Bucket) :
    Cells Int × HeapState Int × Nat × Nat → Nat → Option (Cells Int × HeapState Int × Nat × Nat)
  | (A, h, i, j), Di =>
    if (B Di).head ≠ none then do
      let (A, m, j) ← loop pourRound n (A, h.mem, (B Di).head, j)
      let (A, h) ← recurse A i (j - 1) ⟨m, h.calls⟩
      return (A, h, j, j)
    else some (A, h, i, j)

end MSD

/-- `MSD(A, L, R, D)`, with at most `n` rounds of each loop over a list. -/
def msd (n : Nat) (place : Placement Int) : Nat → Cells Int → Nat → Int → HeapState Int → Option (Cells Int × HeapState Int)
  | 0, A, _, _, h => some (A, h)
  | D + 1, A, L, R, h => do
    let (h, list) ← (List.range' L (R + 1 - L).toNat).foldlM (storeStep place A) (h, none)
    let (m, B) ← loop (MSD.distributeRound (D + 1)) n (h.mem, emptyBucket, list)
    let (A, h, _, _) ← (List.range Radix).foldlM (MSD.bucketStep n (msd n place D) B) (A, ⟨m, h.calls⟩, L, L)
    return (A, h)

/-- `MSDRadixSort(A, N)`. -/
def msdRadixSort (n : Nat) (place : Placement Int) (A : Cells Int) (N : Nat) (h : HeapState Int) : Option (Cells Int × HeapState Int) :=
  msd n place MaxDigit A 0 (N - 1) h

/-! ## Sorting by the first digit, then by the next -/

/-- The elements of each digit, sorted by the digits that follow. -/
def digitSort : Nat → List Int → List Int
  | 0, xs => xs
  | D + 1, xs => (List.range Radix).flatMap fun d => digitSort D (xs.filter fun x => digit D x = d)

theorem digitSort_stable (D : Nat) (xs : List Int) : StableSort (fun x : Int => x % 10 ^ D) xs (digitSort D xs) := by
  induction D generalizing xs with
  | zero =>
    refine StableSort.of_forall_eq (k := 0) fun x _ => ?_
    rw [pow_zero, Int.emod_one]
  | succ D ih =>
    refine StableSort.of_buckets (splits_mod D xs) pairwise_lt_range (fun x _ => mem_range.mpr (digit_lt D x)) fun d _ => ?_
    exact ih _

theorem length_digitSort (D : Nat) (xs : List Int) : (digitSort D xs).length = xs.length := (digitSort_stable D xs).length_eq

/-- The part that the digits below `k` take. -/
def sortedBelow (D : Nat) (xs : List Int) (k : Nat) : List Int := (List.range k).flatMap fun d => digitSort D (xs.filter fun x => digit D x = d)

theorem sortedBelow_succ (D : Nat) (xs : List Int) (k : Nat) :
    sortedBelow D xs (k + 1) = sortedBelow D xs k ++ digitSort D (xs.filter fun x => digit D x = k) := by
  rw [sortedBelow, range_succ, flatMap_append, flatMap_singleton, sortedBelow]

/-- The digits below `k` do not take more than the whole part. -/
theorem length_sortedBelow_le (D : Nat) (xs : List Int) {k : Nat} (hk : k ≤ Radix) : (sortedBelow D xs k).length ≤ xs.length := by
  have hmono : Monotone fun k => (sortedBelow D xs k).length := by
    refine monotone_nat_of_le_succ fun k => ?_
    rw [sortedBelow_succ, length_append]
    exact le_add_right _ _
  calc (sortedBelow D xs k).length ≤ (sortedBelow D xs Radix).length := hmono hk
    _ = xs.length := length_digitSort (D + 1) xs

/-! ## Distribution and pouring -/

variable {m : Mem (KeyNode Int)} {B : Bucket} {p : Ptr} {ns : List (Addr × Int)} {c : Cells Int} {xs : List Int} {D n k j L : Nat}

theorem mem_addrsOf_reverse {a : Addr} : a ∈ addrsOf ns.reverse ↔ a ∈ addrsOf ns := by
  rw [addrsOf, map_reverse, mem_reverse, addrsOf]

theorem MSD.distributeRound_distributes (D : Nat) :
    DistributesBy (MSD.distributeRound (D + 1)) fun m B ns => ∀ i, NodeList m (B i).head (ofDigit D ns i).reverse none := by
  rintro done ⟨a, x⟩ rest m B p hnd hpos ⟨rfl, next, hc, hr⟩ hlists
  obtain ⟨-, hadone, harest, -⟩ := nodup_around hnd
  obtain ⟨d, hd, hidx⟩ := bind_eq_some_iff.mp (getDigit_eq hpos D)
  have hl : a ∈ addrsOf (done ++ [(a, x)]) := mem_addrsOf (mem_append_right done (mem_singleton_self (a, x)))
  have hother : ∀ i, a ∉ addrsOf (ofDigit D done i).reverse := fun i hmem => notMem_ofDigit hadone D i (mem_addrsOf_reverse.mp hmem)
  rw [MSD.distributeRound]
  simp only [bind_eq_bind, bind_some, hd, hidx, read_of_some hc, write_of_some hc]
  refine ⟨_, _, next, rfl, hr.update harest _, fun i => ?_, fun b hb => ?_⟩
  · by_cases hi : i = digit D x
    · subst hi
      rw [update_self, ofDigit_concat_self, reverse_append, reverse_singleton]
      exact (hlists _).cons (hother _) x
    · rw [update_of_ne hi, ofDigit_concat_of_ne hi]
      exact (hlists i).update (hother i) _
  · grind

theorem loop_pour (hl : NodeList m p ns none) (hnd : (addrsOf ns).Nodup) {zs : List Int} (hcs : c.Holds j zs) (hlen : zs.length = ns.length)
    (hn : ns.length < n) : loop MSD.pourRound n (c, m, p, j) = some (c.store j (ns.map snd), m.without ns, j + ns.length) := by
  induction ns generalizing c m p j zs n with
  | nil =>
    obtain ⟨n, rfl⟩ : ∃ k, n = k + 1 := exists_eq_succ_of_ne_zero (ne_of_gt hn)
    have hend : p = none := hl
    rw [hend, loop_of_stop rfl]
    rfl
  | cons node ns ih =>
    obtain ⟨n, rfl⟩ : ∃ k, n = k + 1 := exists_eq_succ_of_ne_zero (ne_of_gt (zero_lt_of_lt hn))
    obtain ⟨hnew, hnd'⟩ := nodup_cons.mp hnd
    cases zs with
    | nil => cases hlen
    | cons z zs =>
      obtain ⟨next, hpour, hr⟩ := pourNode_cons hl hnew hcs.1
      have hrd : MSD.pourRound (c, m, p, j) = some (.again (update c j (some node.2), update m node.1 none, next, j + 1)) := by
        have hst : p = some node.1 := hl.1
        subst hst
        rw [MSD.pourRound, hpour]
        rfl
      rw [loop_of_again hrd, ih hr hnd' (hcs.update_before node.2) (succ.inj hlen) (lt_of_succ_lt_succ hn), without_cons, add_right_comm]
      rfl

/-! ## The buckets -/

/-- The nodes that the digits below `k` free. -/
def freedBelow (D : Nat) (ns : List (Addr × Int)) (k : Nat) : List (Addr × Int) := (List.range k).flatMap fun d => (ofDigit D ns d).reverse

theorem freedBelow_succ (D : Nat) (ns : List (Addr × Int)) (k : Nat) : freedBelow D ns (k + 1) = freedBelow D ns k ++ (ofDigit D ns k).reverse := by
  rw [freedBelow, range_succ, flatMap_append, flatMap_singleton, freedBelow]

theorem freedBelow_perm (D : Nat) (ns : List (Addr × Int)) : (freedBelow D ns Radix).Perm ns :=
  (Perm.flatMap_left _ fun _ _ => reverse_perm _).trans (collected_stable D ns).perm

/-- The nodes of a digit are not freed by other digits. -/
theorem notMem_freedBelow (hnd : (addrsOf ns).Nodup) {node : Addr × Int} (hnode : node ∈ (ofDigit D ns k).reverse) :
    node.1 ∉ addrsOf (freedBelow D ns k) := by
  intro hmem
  obtain ⟨node', hnode', haddr⟩ := List.mem_map.mp hmem
  obtain ⟨d, hd, hdigit⟩ := mem_flatMap.mp hnode'
  have hne : d ≠ k := (mem_range.mp hd).ne
  have hin : node.1 ∈ addrsOf (ofDigit D ns d) := by grind [mem_addrsOf]
  exact notMem_ofDigit_of_ne hnd (mem_reverse.mp hnode) hne hin

theorem keys_ofDigit (hk : ns.map snd = xs.reverse) (D k : Nat) : (ofDigit D ns k).reverse.map snd = xs.filter fun x => digit D x = k := by
  have hfilter : (ofDigit D ns k).map snd = (ns.map snd).filter fun x => digit D x = k := by
    rw [List.filter_map]
    rfl
  rw [map_reverse, hfilter, hk, filter_reverse, reverse_reverse]

/-- What a call of `MSD` for the digit `D` does with a part of an array. -/
def SortsParts (n : Nat) (place : Placement Int) (D : Nat) : Prop :=
  ∀ (c : Cells Int) (L : Nat) (xs : List Int) (h : HeapState Int), c.Holds L xs → (∀ x ∈ xs, 0 ≤ x) → h.mem.IsFinite → xs.length < n →
    msd n place D c L ((L + xs.length : Nat) - 1) h = some (c.store L (digitSort D xs), ⟨h.mem, h.calls + D * xs.length⟩)

variable {place : Placement Int}

/-- The loop over the buckets: those below `k` are sorted into the array, and their nodes are freed. -/
theorem buckets_spec (calls : Nat) (hrec : SortsParts n place D) (hxs : c.Holds L xs) (hpos : ∀ x ∈ xs, 0 ≤ x)
    (hkeys : ns.map snd = xs.reverse) (hnd : (addrsOf ns).Nodup) (hfin : m.IsFinite)
    (hlists : ∀ i, NodeList m (B i).head (ofDigit D ns i).reverse none) (hn : xs.length < n) (hk : k ≤ Radix) :
    (List.range k).foldlM (MSD.bucketStep n (msd n place D) B) (c, ⟨m, calls⟩, L, L) =
      some (c.store L (sortedBelow D xs k), ⟨m.without (freedBelow D ns k), calls + D * (sortedBelow D xs k).length⟩,
        L + (sortedBelow D xs k).length, L + (sortedBelow D xs k).length) := by
  induction k with
  | zero =>
    rfl
  | succ k ih =>
    obtain ⟨part, hpart⟩ : ∃ part, part = xs.filter fun x => digit D x = k := ⟨_, rfl⟩
    obtain ⟨zs, hzs⟩ : ∃ zs, zs = sortedBelow D xs k := ⟨_, rfl⟩
    obtain ⟨q, hq⟩ : ∃ q, q = (ofDigit D ns k).reverse := ⟨_, rfl⟩
    have hkeysq : q.map snd = part := by rw [hq, keys_ofDigit hkeys, hpart]
    have hlenq : q.length = part.length := by rw [← hkeysq, length_map]
    have hlist : NodeList (m.without (freedBelow D ns k)) (B k).head q none := by
      rw [hq]
      exact (hlists k).without fun node hnode => notMem_freedBelow hnd hnode
    have hsorted : sortedBelow D xs (k + 1) = zs ++ digitSort D part := by rw [sortedBelow_succ, hzs, hpart]
    have hfreed : freedBelow D ns (k + 1) = freedBelow D ns k ++ q := by rw [freedBelow_succ, hq]
    rw [range_succ, List.foldlM_append, ih (le_of_succ_le hk), ← hzs]
    simp only [foldlM_cons, bind_eq_bind, bind_some]
    rw [MSD.bucketStep, hsorted, hfreed]
    by_cases hnil : q = []
    · -- no element has this digit
      have hhead : (B k).head = none := by
        rw [hnil] at hlist
        exact hlist
      have hnone : part = [] := by
        rw [← hkeysq, hnil]
        rfl
      have hsort : digitSort D part = [] := by
        rw [← length_eq_zero_iff, length_digitSort, hnone]
        rfl
      rw [if_neg (by simp [hhead]), hsort, hnil, append_nil, append_nil]
      rfl
    · have hhead : (B k).head ≠ none := by
        cases q with
        | nil => exact absurd rfl hnil
        | cons node q =>
          rw [hlist.1]
          exact some_ne_none _
      have hfits : zs.length + part.length ≤ xs.length := by
        have hle := length_sortedBelow_le D xs hk
        rwa [hsorted, length_append, length_digitSort] at hle
      have hndq : (addrsOf q).Nodup := by
        rw [hq, addrsOf, map_reverse, nodup_reverse]
        exact nodup_ofDigit hnd D k
      have hcs : (c.store L zs).Holds (L + zs.length) ((xs.drop zs.length).take part.length) := (hxs.part _ _).store_before (le_refl _)
      have hlen : ((xs.drop zs.length).take part.length).length = q.length := by
        rw [length_take, length_drop]
        omega
      have hpour := loop_pour (n := n) hlist hndq hcs hlen (by omega)
      have hcall := hrec ((c.store L zs).store (L + zs.length) part) (L + zs.length) part
        ⟨(m.without (freedBelow D ns k)).without q, calls + D * zs.length⟩ (holds_store _ _ _)
        (fun x hx => hpos x (mem_of_mem_filter (hpart ▸ hx))) ((hfin.without _).without q) (by omega)
      rw [if_pos hhead, hpour, hkeysq, hlenq]
      simp only [bind_eq_bind, bind_some, hcall]
      rw [store_store_of_le _ _ (length_digitSort D part).ge, store_store_append, without_append, length_append,
        length_digitSort, mul_add, ← add_assoc, ← add_assoc]
      rfl

/-- Every call of `MSD` on a part of an array sorts it, and leaves the memory as it was. -/
theorem sortsParts (hpl : place.Fresh) (n D : Nat) : SortsParts n place D := by
  induction D with
  | zero =>
    intro c L xs h hxs _ _ _
    rw [msd, digitSort, store_eq_self hxs, zero_mul, add_zero]
  | succ D ih =>
    intro c L xs h hxs hpos hfin hn
    obtain ⟨h₁, p, ns, hrun, hst, hfin₁, hcs⟩ := store_spec hpl hfin hxs
    have hstart : ∀ i, NodeList h₁.mem (emptyBucket i).head (ofDigit D [] i).reverse none := fun _ => rfl
    obtain ⟨m, B, hrun', hlists, hfr⟩ :=
      (MSD.distributeRound_distributes D).loop (fun _ _ => rfl) [] hst.nodup (hst.nonneg hpos) hst.nodes hstart (hst.length_eq ▸ hn)
    have hbuckets := buckets_spec h₁.calls ih hxs hpos hst.keys hst.nodup (hfin₁.of_frame hfr) hlists hn (le_refl Radix)
    have hcnt : (((L + xs.length : Nat) : Int) - 1 + 1 - L).toNat = xs.length := by omega
    have hsort : sortedBelow D xs Radix = digitSort (D + 1) xs := rfl
    rw [hsort, length_digitSort, hst.without hfr (freedBelow_perm D ns), hcs] at hbuckets
    rw [msd, hcnt, hrun]
    simp only [bind_eq_bind, bind_some, hrun', hbuckets, hcs]
    rw [succ_mul, add_comm (D * xs.length), add_assoc]
    rfl

/-! ## The result -/

/-- A call returns, and of the array it reads and writes the cells from `L` to `R` only: it comes to the same result when all others are taken away,
and it leaves the others as they were. -/
def StaysWithin (L R : Nat) (f : Cells Int → Option (Cells Int × HeapState Int)) (A : Cells Int) : Prop :=
  ∃ A' h', f A = some (A', h') ∧ f (A.clip L R) = some (A'.clip L R, h') ∧ ∀ i, ¬(L ≤ i ∧ i ≤ R) → A' i = A i

theorem msd_staysWithin (hpl : place.Fresh) {h : HeapState Int} (hfin : h.mem.IsFinite) {A : List Int}
    (hpos : ∀ x ∈ A, 0 ≤ x) {R : Nat} (hLR : L ≤ R) (hR : R < A.length) (hn : A.length < n) (D : Nat) :
    StaysWithin L R (fun A => msd n place D A L R h) (ofList A) := by
  obtain ⟨xs, hxs⟩ : ∃ xs, xs = (A.drop L).take (R + 1 - L) := ⟨_, rfl⟩
  have hlen : L + xs.length = R + 1 := by
    rw [hxs, length_take, length_drop]
    omega
  have hcs : (ofList A).Holds L xs := by
    have hpart := (holds_ofList A).part L (R + 1 - L)
    rwa [zero_add, ← hxs] at hpart
  have hxpos : ∀ x ∈ xs, 0 ≤ x := fun x hx => hpos x (mem_of_mem_drop (mem_of_mem_take (hxs ▸ hx)))
  have hR' : ((L + xs.length : Nat) : Int) - 1 = R := by omega
  have hf := sortsParts hpl n D (ofList A) L xs h hcs hxpos hfin (by omega)
  have hclip := sortsParts hpl n D ((ofList A).clip L R) L xs h (hcs.clip (le_refl L) hlen.le) hxpos hfin (by omega)
  rw [hR'] at hf hclip
  have hlen' : L + (digitSort D xs).length = R + 1 := by rw [length_digitSort, hlen]
  refine ⟨_, _, hf, ?_, fun i hi => ?_⟩
  · grind [clip_store]
  · rw [store_apply, if_neg (by omega)]

/-- `MSDRadixSort` leaves the input stably sorted by the last `MaxDigit` digits. When no number has more, `LSDRadixSort` leaves the same array. Every
call of `MSD` on a part of an array stays within that part. -/
theorem msdRadixSort_sorts {place : Placement Int} (hplace : place.Fresh) {h : HeapState Int} (hfin : h.mem.IsFinite) {xs : List Int}
    (hpos : ∀ x ∈ xs, 0 ≤ x) :
    (∃ n ys h', msdRadixSort n place (Cells.ofList xs) xs.length h = some (Cells.ofList ys, h') ∧ h'.mem = h.mem ∧
      StableSort (fun x : Int => x % 10 ^ MaxDigit) xs ys ∧
      ((∀ x ∈ xs, x < 10 ^ MaxDigit) → ∃ n' h'', lsdRadixSort n' place (Cells.ofList xs) xs.length h = some (Cells.ofList ys, h''))) ∧
    ∀ (A : List Int) (D L R : Nat), (∀ x ∈ A, 0 ≤ x) → L ≤ R → R < A.length →
      ∃ n, StaysWithin L R (fun A => msd n place D A L R h) (Cells.ofList A) := by
  refine ⟨?_, fun A D L R hA hLR hR => ⟨A.length + 1, msd_staysWithin hplace hfin hA hLR hR (lt_succ_self _) D⟩⟩
  have hrun := sortsParts hplace (xs.length + 1) MaxDigit (ofList xs) 0 xs h (holds_ofList xs) hpos hfin (lt_succ_self _)
  have hstable := digitSort_stable MaxDigit xs
  rw [zero_add, store_ofList (length_digitSort MaxDigit xs).symm] at hrun
  refine ⟨xs.length + 1, digitSort MaxDigit xs, _, hrun, rfl, hstable, fun hlt => ?_⟩
  obtain ⟨n, ys, h', hlsd, -, hstable'⟩ := lsdRadixSort_spec hplace hfin hpos
  have hsame : digitSort MaxDigit xs = ys := by
    have hsorted := sorted_of_stable hstable hpos hlt
    have hsorted' := sorted_of_stable hstable' (fun x hx => hpos x (mem_reverse.mp hx)) fun x hx => hlt x (mem_reverse.mp hx)
    exact (hstable.perm.trans (hstable'.perm.trans xs.reverse_perm).symm).eq_of_pairwise' hsorted hsorted'
  rw [hsame]
  exact ⟨n, h', hlsd⟩

/-- Three numbers, two of which differ only in the digits that are not compared. -/
theorem msdRadixSort_sorts_three :
    ∃ n ys h', msdRadixSort n Placement.firstFit (Cells.ofList [20007, 12, 10007]) 3 ⟨fun _ => none, 0⟩ = some (Cells.ofList ys, h') ∧
      StableSort (fun x : Int => x % 10 ^ MaxDigit) [20007, 12, 10007] ys := by
  obtain ⟨⟨n, ys, h', hrun, -, hstable, -⟩, -⟩ :=
    msdRadixSort_sorts (h := ⟨fun _ => none, 0⟩) Placement.firstFit_fresh Mem.isFinite_none
      (show ∀ x ∈ ([20007, 12, 10007] : List Int), 0 ≤ x by decide)
  exact ⟨n, ys, h', hrun, hstable⟩

end CsLearning.Code.RadixSort
