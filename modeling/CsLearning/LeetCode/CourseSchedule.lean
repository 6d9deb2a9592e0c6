import CsLearning.Lib.Loop
import CsLearning.Lib.Topological

/-!
# Course schedule

Problem 207: can all courses be taken when some of them need others first? Courses without an open prerequisite go into a queue, and each of them
that is taken out lowers the degrees of those that need it.

The program is a machine whose rounds are those of its loops, so that what holds in all states it comes to can be said. `pushed` is no variable of
the program: it has all the courses that were put into the queue, in their order.
-/

open List Option

namespace CsLearning.LeetCode.CourseSchedule

/-- The loop that the program is in, with its variables: over the pairs, over the courses, over the queue, or over `adjacency[tmp]`. -/
inductive Phase where
  | edges (i : Nat)
  | collect (i : Nat)
  | take
  | lower (tmp j : Nat)

structure State where
  phase : Phase
  degrees : List Int
  adjacency : List (List Nat)
  zero : List Nat
  num : Int
  pushed : List Nat

/-- The vector with another value at an index. -/
def modify {A : Type} (l : List A) (i : Nat) (f : A → A) : Option (List A) := l[i]?.map fun x => l.set i (f x)

/-- `zero.push(v); num--;`. -/
def State.push (s : State) (v : Nat) : State := { s with zero := s.zero ++ [v], num := s.num - 1, pushed := s.pushed ++ [v] }

/-- `if (d == 0)` the vertex is put into the queue. -/
def State.pushIf (s : State) (d : Int) (v : Nat) : State := if d = 0 then s.push v else s

def courseRound (numCourses : Nat) (prerequisites : List (Nat × Nat)) (s : State) : Option (Round State Bool) :=
  match s.phase with
  | .edges i =>
    if i < prerequisites.length then do
      let e ← prerequisites[i]?
      let degrees ← modify s.degrees e.1 (· + 1)
      let adjacency ← modify s.adjacency e.2 (· ++ [e.1])
      return .again { s with phase := .edges (i + 1), degrees := degrees, adjacency := adjacency }
    else some (.again { s with phase := .collect 0 })
  | .collect i =>
    if i < numCourses then do
      let d ← s.degrees[i]?
      return .again { s.pushIf d i with phase := .collect (i + 1) }
    else some (.again { s with phase := .take })
  | .take =>
    match s.zero with
    | [] => some (.stop (decide (s.num = 0)))
    | tmp :: zero => some (.again { s with phase := .lower tmp 0, zero := zero })
  | .lower tmp j => do
    let next ← s.adjacency[tmp]?
    if j < next.length then
      let v ← next[j]?
      let degrees ← modify s.degrees v (· - 1)
      let d ← degrees[v]?
      return .again { { s with degrees := degrees }.pushIf d v with phase := .lower tmp (j + 1) }
    else return .again { s with phase := .take }

/-- The variables at their declarations. -/
def start (numCourses : Nat) : State := ⟨.edges 0, List.replicate numCourses 0, List.replicate numCourses [], [], numCourses, []⟩

/-- `canFinish(numCourses, prerequisites)`, with at most `k` rounds. -/
def canFinish (k numCourses : Nat) (prerequisites : List (Nat × Nat)) : Option Bool :=
  loop (courseRound numCourses prerequisites) k (start numCourses)

/-! ## The degrees -/

variable {n i j tmp u v : Nat} {edges : List (Nat × Nat)} {P part : List Nat} {s : State}

/-- The degree of a course when those in `P` have lowered it, and one more has lowered those in `part`. -/
def left (edges : List (Nat × Nat)) (P part : List Nat) (v : Nat) : Int := waiting edges P v - part.count v

theorem left_nil (edges : List (Nat × Nat)) (P : List Nat) (v : Nat) : left edges P [] v = waiting edges P v := by
  rw [left, count_nil]
  omega

theorem left_append (edges : List (Nat × Nat)) (P part : List Nat) (w v : Nat) :
    left edges P (part ++ [w]) v = left edges P part v - if v = w then 1 else 0 := by
  rw [left, left, count_append]
  by_cases hv : v = w
  · simp [hv]
    omega
  · simp [hv, Ne.symm hv]

theorem left_append_self (edges : List (Nat × Nat)) (P part : List Nat) (v : Nat) : left edges P (part ++ [v]) v = left edges P part v - 1 := by
  rw [left_append, if_pos rfl]

theorem left_append_of_ne {w : Nat} (hw : w ≠ v) : left edges P (part ++ [v]) w = left edges P part w := by
  rw [left_append, if_neg hw, Int.sub_zero]

theorem left_targets (htmp : tmp ∉ P) : left edges P (targets edges tmp) v = left edges (P ++ [tmp]) [] v := by
  rw [left, left_nil, waiting_eq_add htmp]
  omega

theorem left_nonneg (htmp : tmp ∉ P) : 0 ≤ left edges P ((targets edges tmp).take j) v := by
  have hle := (take_sublist j (targets edges tmp)).count_le v
  rw [left, waiting_eq_add htmp]
  omega

/-- A course whose degree is zero needs nothing but what has been taken. -/
theorem mem_of_left_eq_zero (htmp : tmp ∉ P) (h : left edges P ((targets edges tmp).take j) v = 0) (he : Edge edges u v) : u ∈ P ∨ u = tmp := by
  have hle := (take_sublist j (targets edges tmp)).count_le v
  have hwait : waiting edges (P ++ [tmp]) v = 0 := by
    rw [left, waiting_eq_add htmp] at h
    omega
  rw [← mem_singleton, ← mem_append]
  exact waiting_eq_zero_iff.mp hwait u he

/-! ## What holds in all states -/

/-- The vectors belong to the edges, and the courses below `i` with the degree zero were put into the queue, each after those it needs. -/
structure Sorting (n : Nat) (edges : List (Nat × Nat)) (i : Nat) (P part : List Nat) (s : State) : Prop where
  length : s.degrees.length = n
  degrees : ∀ v < n, s.degrees[v]? = some (left edges P part v)
  adjacency : ∀ u < n, s.adjacency[u]? = some (targets edges u)
  order : Topological (Edge edges) s.pushed
  mem_pushed : ∀ v, v ∈ s.pushed ↔ v < i ∧ left edges P part v = 0
  num : s.num + s.pushed.length = n

/-- The invariant, for each of the loops. -/
def At (n : Nat) (edges : List (Nat × Nat)) (s : State) : Phase → Prop
  | .edges k => k ≤ edges.length ∧ Sorting n (edges.take k) 0 [] [] s ∧ s.zero = s.pushed
  | .collect i => i ≤ n ∧ Sorting n edges i [] [] s ∧ s.zero = s.pushed
  | .take => ∃ P, Sorting n edges n P [] s ∧ s.pushed = P ++ s.zero
  | .lower tmp j => ∃ P, Sorting n edges n P ((targets edges tmp).take j) s ∧ s.pushed = P ++ tmp :: s.zero ∧ j ≤ (targets edges tmp).length

/-- All pairs are about courses. -/
def Courses (n : Nat) (edges : List (Nat × Nat)) : Prop := ∀ e ∈ edges, e.1 < n ∧ e.2 < n

theorem Sorting.goto (h : Sorting n edges i P part s) (phase : Phase) (zero : List Nat) :
    Sorting n edges i P part { s with phase := phase, zero := zero } := ⟨h.length, h.degrees, h.adjacency, h.order, h.mem_pushed, h.num⟩

theorem modify_spec {A : Type} {l : List A} {x : A} (hx : l[i]? = some x) (f : A → A) :
    ∃ l', modify l i f = some l' ∧ l'.length = l.length ∧ ∀ v y, l[v]? = some y → l'[v]? = some (if v = i then f y else y) := by
  refine ⟨l.set i (f x), by rw [modify, hx, map_some], length_set, fun v y hy => ?_⟩
  rw [getElem?_set]
  by_cases hv : v = i
  · grind
  · rw [if_neg (Ne.symm hv), if_neg hv, hy]

theorem Sorting.push (h : Sorting n edges i P part s) {i' : Nat} {part' : List Nat} {degrees : List Int} (hlen : degrees.length = n)
    (hdegrees : ∀ v < n, degrees[v]? = some (left edges P part' v)) (hnew : v ∉ s.pushed) (hpred : ∀ u, Edge edges u v → u ∈ s.pushed)
    (hmem : ∀ w, w ∈ s.pushed ∨ w = v ↔ w < i' ∧ left edges P part' w = 0) : Sorting n edges i' P part' ({ s with degrees := degrees }.push v) := by
  refine ⟨hlen, hdegrees, h.adjacency, h.order.push hnew hpred, fun w => ?_, ?_⟩
  · unfold State.push
    rw [mem_append, mem_singleton]
    exact hmem w
  · have hnum := h.num
    unfold State.push
    rw [length_append, length_singleton]
    simp only
    omega

/-- The course that is taken out is not one of those before it. -/
theorem Sorting.taken (h : Sorting n edges n P part s) {zero : List Nat} (hp : s.pushed = P ++ tmp :: zero) : tmp ∉ P ∧ tmp < n := by
  constructor
  · have hnd := h.order.nodup
    rw [hp] at hnd
    exact fun hmem => disjoint_of_nodup_append hnd hmem mem_cons_self
  · refine ((h.mem_pushed tmp).mp ?_).1
    rw [hp]
    exact mem_append_right P mem_cons_self

/-- A target that has nothing left can be put into the queue. -/
theorem Sorting.pred_pushed (h : Sorting n edges n P part s) {zero : List Nat} (hp : s.pushed = P ++ tmp :: zero)
    (h0 : left edges P ((targets edges tmp).take j) v = 0) (he : Edge edges u v) : u ∈ s.pushed := by
  rw [hp]
  rcases mem_of_left_eq_zero (h.taken hp).1 h0 he with hmem | rfl
  · exact mem_append_left _ hmem
  · exact mem_append_right P mem_cons_self

theorem Sorting.length_pushed_le (h : Sorting n edges n P part s) : s.pushed.length ≤ n := by
  have hsub : s.pushed ⊆ List.range n := fun v hv => mem_range.mpr ((h.mem_pushed v).mp hv).1
  have hle := (h.order.nodup.subperm hsub).length_le
  rwa [length_range] at hle

/-! ## The rounds -/

theorem edges_round {k : Nat} (hcs : Courses n edges) (hph : s.phase = .edges k) (h : At n edges s (.edges k)) (hk : k < edges.length) :
    ∃ s', courseRound n edges s = some (.again s') ∧ s'.phase = .edges (k + 1) ∧ At n edges s' (.edges (k + 1)) := by
  obtain ⟨-, hsort, h0⟩ := h
  obtain ⟨htarget, hsource⟩ := hcs edges[k] (getElem_mem hk)
  obtain ⟨degrees, hdegrees, hlen, hdegree⟩ := modify_spec (hsort.degrees _ htarget) (· + 1)
  obtain ⟨adjacency, hadjacency, -, hn⟩ := modify_spec (hsort.adjacency _ hsource) (· ++ [edges[k].1])
  have ht : edges.take (k + 1) = edges.take k ++ [edges[k]] := by rw [take_add_one, getElem?_eq_getElem hk, toList_some]
  have hnil : s.pushed = [] := eq_nil_iff_forall_not_mem.mpr fun v hv => Nat.not_lt_zero v ((hsort.mem_pushed v).mp hv).1
  rw [courseRound, hph]
  simp only [if_pos hk, getElem?_eq_getElem hk, bind_eq_bind, bind_some, hdegrees, hadjacency]
  refine ⟨_, rfl, rfl, hk, ⟨hlen.trans hsort.length, fun v hv => ?_, fun u hu => ?_, ?_, fun v => ?_, hsort.num⟩, h0⟩
  · rw [hdegree v _ (hsort.degrees v hv), ht, left_nil, left_nil, waiting_append_singleton]
    split_ifs <;> simp
  · rw [hn u _ (hsort.adjacency u hu), ht, targets_append_singleton]
  · simp only [hnil]
    exact Topological.nil
  · grind

theorem collect_round (hph : s.phase = .collect i) (h : At n edges s (.collect i)) (hi : i < n) :
    ∃ s', courseRound n edges s = some (.again s') ∧ s'.phase = .collect (i + 1) ∧ At n edges s' (.collect (i + 1)) := by
  obtain ⟨-, hsort, h0⟩ := h
  have hdegree := hsort.degrees i hi
  rw [courseRound, hph]
  simp only [if_pos hi, hdegree, bind_eq_bind]
  refine ⟨_, rfl, rfl, hi, ?_⟩
  rw [State.pushIf]
  by_cases hl : left edges [] [] i = 0
  · have hnew : i ∉ s.pushed := fun hmem => Nat.lt_irrefl i ((hsort.mem_pushed i).mp hmem).1
    have hpred : ∀ u, Edge edges u i → u ∈ s.pushed := by
      intro u he
      exact absurd (waiting_eq_zero_iff.mp (Int.ofNat_eq_zero.mp hl) u he) not_mem_nil
    have hmem : ∀ w, w ∈ s.pushed ∨ w = i ↔ w < i + 1 ∧ left edges [] [] w = 0 := by
      intro w
      rw [hsort.mem_pushed, Nat.lt_succ_iff_lt_or_eq, or_and_right]
      refine or_congr Iff.rfl ⟨?_, And.left⟩
      rintro rfl
      exact ⟨rfl, hl⟩
    rw [if_pos hl]
    refine ⟨(hsort.push hsort.length hsort.degrees hnew hpred hmem).goto _ _, ?_⟩
    simp only [State.push, h0]
  · rw [if_neg hl]
    refine ⟨⟨hsort.length, hsort.degrees, hsort.adjacency, hsort.order, fun w => ?_, hsort.num⟩, h0⟩
    rw [hsort.mem_pushed, Nat.lt_succ_iff_lt_or_eq, or_and_right]
    refine (or_iff_left ?_).symm
    rintro ⟨rfl, hzeroLeft⟩
    exact hl hzeroLeft

theorem lower_round (hcs : Courses n edges) (hph : s.phase = .lower tmp j) (h : At n edges s (.lower tmp j))
    (hj : j < (targets edges tmp).length) :
    ∃ s', courseRound n edges s = some (.again s') ∧ s'.phase = .lower tmp (j + 1) ∧ At n edges s' (.lower tmp (j + 1)) ∧
      s'.pushed.length - s'.zero.length = s.pushed.length - s.zero.length := by
  obtain ⟨P, hsort, hpush, -⟩ := h
  obtain ⟨htmp, htmpn⟩ := hsort.taken hpush
  generalize hv : (targets edges tmp)[j] = v
  have hvn : v < n := by
    have hmem : v ∈ targets edges tmp := hv ▸ getElem_mem hj
    obtain ⟨e, he, rfl⟩ := List.mem_map.mp hmem
    exact (hcs e (mem_of_mem_filter he)).1
  have htake : (targets edges tmp).take (j + 1) = (targets edges tmp).take j ++ [v] := by
    rw [take_add_one, getElem?_eq_getElem hj, toList_some, hv]
  obtain ⟨degrees, hmodify, hlen, hdegree⟩ := modify_spec (hsort.degrees v hvn) (· - 1)
  have hdegrees : ∀ w < n, degrees[w]? = some (left edges P ((targets edges tmp).take (j + 1)) w) := by
    intro w hw
    rw [hdegree w _ (hsort.degrees w hw), htake, left_append]
    split_ifs <;> simp
  have hnonneg : 0 ≤ left edges P ((targets edges tmp).take (j + 1)) v := left_nonneg htmp
  have hnew : v ∉ s.pushed := by
    -- the degree was not zero before
    intro hmem
    have h0 := ((hsort.mem_pushed v).mp hmem).2
    rw [htake, left_append_self] at hnonneg
    omega
  rw [courseRound, hph]
  simp only [hsort.adjacency tmp htmpn, bind_eq_bind, bind_some, if_pos hj, getElem?_eq_getElem hj, hv, hmodify, hdegrees v hvn]
  rw [State.pushIf]
  by_cases h0 : left edges P ((targets edges tmp).take (j + 1)) v = 0
  · rw [if_pos h0]
    have hpred : ∀ u, Edge edges u v → u ∈ s.pushed := fun u hedge => hsort.pred_pushed hpush h0 hedge
    have hmem : ∀ w, w ∈ s.pushed ∨ w = v ↔ w < n ∧ left edges P ((targets edges tmp).take (j + 1)) w = 0 := by
      intro w
      by_cases hw : w = v
      · grind
      · rw [htake, left_append_of_ne hw, or_iff_left hw, hsort.mem_pushed]
    refine ⟨_, rfl, rfl, ⟨P, (hsort.push (hlen.trans hsort.length) hdegrees hnew hpred hmem).goto _ _, ?_, hj⟩, ?_⟩
    · simp only [State.push, hpush, append_assoc, cons_append]
    · simp only [State.push, length_append]
      omega
  · rw [if_neg h0]
    have hmem : ∀ w, w ∈ s.pushed ↔ w < n ∧ left edges P ((targets edges tmp).take (j + 1)) w = 0 := by
      intro w
      by_cases hw : w = v
      · grind
      · rw [htake, left_append_of_ne hw, hsort.mem_pushed]
    exact ⟨_, rfl, rfl, ⟨P, ⟨hlen.trans hsort.length, hdegrees, hsort.adjacency, hsort.order, hmem, hsort.num⟩, hpush, hj⟩, rfl⟩

/-! ## The end -/

theorem num_eq_zero_iff (hcs : Courses n edges) (h : Sorting n edges n P [] s) (hpush : s.pushed = P) :
    s.num = 0 ↔ ¬ ∃ v, Relation.TransGen (Edge edges) v v := by
  have hnum := h.num
  constructor
  · rintro h0 ⟨v, hcycle⟩
    -- all courses are in the list
    have hall : ∀ v < n, v ∈ s.pushed := by
      have hsub : s.pushed ⊆ List.range n := fun v hv => mem_range.mpr ((h.mem_pushed v).mp hv).1
      have hp := (h.order.nodup.subperm hsub).perm_of_length_le (by rw [length_range]; omega)
      exact fun v hv => hp.mem_iff.mpr (mem_range.mpr hv)
    obtain ⟨u, -, he⟩ := Relation.TransGen.tail'_iff.mp hcycle
    exact h.order.not_cycle (hall v (hcs (v, u) he).1) hcycle
  · intro hacyclic
    by_contra hne
    apply hacyclic
    have hmiss : ∃ v < n, v ∉ s.pushed := by
      by_contra hall
      have hsub : List.range n ⊆ s.pushed := fun v hv => by_contra fun hnot => hall ⟨v, mem_range.mp hv, hnot⟩
      have hle := (nodup_range.subperm hsub).length_le
      have hge := h.length_pushed_le
      rw [length_range] at hle
      omega
    refine exists_cycle (S := {v | v < n ∧ v ∉ s.pushed}) ((Set.finite_lt_nat n).subset fun v hv => hv.1) hmiss ?_
    rintro v ⟨hvn, hv⟩
    have hwait : waiting edges P v ≠ 0 := by
      intro h0
      rw [h.mem_pushed, left_nil, h0] at hv
      exact hv ⟨hvn, rfl⟩
    rw [ne_eq, waiting_eq_zero_iff, not_forall] at hwait
    obtain ⟨u, hu⟩ := hwait
    obtain ⟨he, hu⟩ := Classical.not_imp.mp hu
    exact ⟨u, ⟨(hcs (v, u) he).2, hpush ▸ hu⟩, he⟩

/-- The number of rounds that are left. -/
def rounds (n m : Nat) (s : State) : Nat :=
  match s.phase with
  | .edges i => m - i + 1 + (n + 1) + n * (m + 2)
  | .collect i => n - i + 1 + n * (m + 2)
  | .take => (n - (s.pushed.length - s.zero.length)) * (m + 2)
  | .lower _ j => (n - (s.pushed.length - s.zero.length)) * (m + 2) + (m + 1 - j)

theorem length_targets_le (edges : List (Nat × Nat)) (u : Nat) : (targets edges u).length ≤ edges.length := by
  rw [targets, length_map]
  exact length_filter_le _ _

/-- Each round keeps the invariant and comes nearer to the end, where the result is right. -/
theorem round_spec (hcs : Courses n edges) (h : At n edges s s.phase) :
    (∃ r, courseRound n edges s = some (.stop r) ∧ (r = true ↔ ¬ ∃ v, Relation.TransGen (Edge edges) v v)) ∨
      ∃ s', courseRound n edges s = some (.again s') ∧ At n edges s' s'.phase ∧ rounds n edges.length s' < rounds n edges.length s := by
  cases hph : s.phase with
  | edges k =>
    rw [hph] at h
    rcases Nat.lt_or_ge k edges.length with hk | hk
    · grind [edges_round, rounds]
    · obtain ⟨hle, hsort, h0⟩ := h
      rw [take_of_length_le hk] at hsort
      refine Or.inr ⟨{ s with phase := .collect 0 }, ?_, ⟨Nat.zero_le n, hsort.goto _ _, h0⟩, ?_⟩
      · rw [courseRound, hph]
        exact if_neg (not_lt.mpr hk)
      · simp only [rounds, hph]
        omega
  | collect i =>
    rw [hph] at h
    rcases Nat.lt_or_ge i n with hi | hi
    · grind [collect_round, rounds]
    · obtain ⟨hle, hsort, h0⟩ := h
      obtain rfl := le_antisymm hle hi
      refine Or.inr ⟨{ s with phase := .take }, ?_, ⟨[], hsort.goto _ _, h0.symm⟩, ?_⟩
      · rw [courseRound, hph]
        exact if_neg (Nat.lt_irrefl i)
      · simp only [rounds, hph, h0]
        rw [Nat.sub_self, Nat.sub_zero]
        omega
  | take =>
    rw [hph] at h
    obtain ⟨P, hsort, hpush⟩ := h
    have hle := hsort.length_pushed_le
    cases h0 : s.zero with
    | nil =>
      rw [h0, append_nil] at hpush
      refine Or.inl ⟨decide (s.num = 0), ?_, ?_⟩
      · rw [courseRound, hph]
        simp only [h0]
      · rw [decide_eq_true_iff]
        exact num_eq_zero_iff hcs hsort hpush
    | cons tmp zero =>
      rw [h0] at hpush
      refine Or.inr ⟨{ s with phase := .lower tmp 0, zero := zero }, ?_, ⟨P, hsort.goto _ _, hpush, Nat.zero_le _⟩, ?_⟩
      · rw [courseRound, hph]
        simp only [h0]
      · rw [hpush, length_append, length_cons] at hle
        simp only [rounds, hph, h0, hpush, length_append, length_cons]
        obtain ⟨q, hq⟩ : ∃ q, n = P.length + 1 + q := ⟨n - (P.length + 1), by omega⟩
        have hbef : n - (P.length + (zero.length + 1) - (zero.length + 1)) = q + 1 := by omega
        have hafter : n - (P.length + (zero.length + 1) - zero.length) = q := by omega
        rw [hbef, hafter, Nat.succ_mul]
        omega
  | lower tmp j =>
    rw [hph] at h
    have htargets := length_targets_le edges tmp
    rcases Nat.lt_or_ge j (targets edges tmp).length with hj | hj
    · grind [lower_round, rounds]
    · obtain ⟨P, hsort, hpush, hle⟩ := h
      obtain ⟨htmp, htmpn⟩ := hsort.taken hpush
      rw [take_of_length_le hj] at hsort
      have hdone : Sorting n edges n (P ++ [tmp]) [] s := by
        refine ⟨hsort.length, fun v hv => ?_, hsort.adjacency, hsort.order, fun v => ?_, hsort.num⟩
        · rw [hsort.degrees v hv, left_targets htmp]
        · rw [hsort.mem_pushed, left_targets htmp]
      refine Or.inr ⟨{ s with phase := .take }, ?_, ⟨P ++ [tmp], hdone.goto _ _, ?_⟩, ?_⟩
      · rw [courseRound, hph]
        simp only [hsort.adjacency tmp htmpn, bind_eq_bind, bind_some, if_neg (not_lt.mpr hj)]
        rfl
      · rw [hpush, append_assoc, singleton_append]
      · simp only [rounds, hph]
        omega

theorem at_start (n : Nat) (edges : List (Nat × Nat)) : At n edges (start n) (start n).phase := by
  refine ⟨Nat.zero_le _, ⟨length_replicate, fun v hv => ?_, fun u hu => ?_, Topological.nil, fun v => ?_, ?_⟩, rfl⟩
  · exact getElem?_replicate_of_lt hv
  · exact getElem?_replicate_of_lt hu
  · exact iff_of_false not_mem_nil fun hv => Nat.not_lt_zero v hv.1
  · exact Int.add_zero _

/-- No degree is negative, and no course was put into the queue twice. -/
theorem At.safe (h : At n edges s s.phase) : (∀ d ∈ s.degrees, 0 ≤ d) ∧ s.pushed.Nodup := by
  have hs : ∀ {edges i P part}, Sorting n edges i P part s → (∀ v, 0 ≤ left edges P part v) → (∀ d ∈ s.degrees, 0 ≤ d) ∧ s.pushed.Nodup := by
    intro edges i P part hsort hl
    refine ⟨fun d hd => ?_, hsort.order.nodup⟩
    obtain ⟨v, hv, rfl⟩ := mem_iff_getElem.mp hd
    have hdegree := hsort.degrees v (hsort.length ▸ hv)
    rw [getElem?_eq_getElem hv, some.injEq] at hdegree
    rw [hdegree]
    exact hl v
  have hnil : ∀ (edges : List (Nat × Nat)) (P : List Nat) (v : Nat), 0 ≤ left edges P [] v := by
    intro edges P v
    exact Int.natCast_nonneg _
  cases hph : s.phase with
  | edges k =>
    rw [hph] at h
    exact hs h.2.1 (hnil _ _)
  | collect i =>
    rw [hph] at h
    exact hs h.2.1 (hnil _ _)
  | take =>
    rw [hph] at h
    obtain ⟨P, hsort, -⟩ := h
    exact hs hsort (hnil _ _)
  | lower tmp j =>
    rw [hph] at h
    obtain ⟨P, hsort, hp, -⟩ := h
    exact hs hsort fun v => left_nonneg (hsort.taken hp).1

/-- `canFinish` returns whether there is no cycle. In all states on the way no degree is negative and no course was put into the queue twice. -/
theorem canFinish_iff {numCourses : Nat} {prerequisites : List (Nat × Nat)} (h : Courses numCourses prerequisites) :
    (∃ k r, canFinish k numCourses prerequisites = some r ∧ (r = true ↔ ¬ ∃ v, Relation.TransGen (Edge prerequisites) v v)) ∧
      ∀ s, Leads (courseRound numCourses prerequisites) (start numCourses) s → (∀ d ∈ s.degrees, 0 ≤ d) ∧ s.pushed.Nodup := by
  constructor
  · have hround := fun s (hs : At numCourses prerequisites s s.phase) => round_spec h hs
    exact ⟨_, loop_of_invariant hround (at_start _ _) (Nat.lt_succ_self _)⟩
  · intro s hleads
    suffices hat : At numCourses prerequisites s s.phase from hat.safe
    refine hleads.invariant (I := fun s => At numCourses prerequisites s s.phase) ?_ (at_start _ _)
    intro s s' hs hround
    rcases round_spec h hs with ⟨r, hstop, -⟩ | ⟨s'', hagain, hs'', -⟩
    · rw [hstop] at hround
      cases hround
    · rw [hagain, some.injEq, Round.again.injEq] at hround
      exact hround ▸ hs''

/-- Two courses that need each other. -/
theorem canFinish_two : Courses 2 [(0, 1), (1, 0)] ∧
    (∃ k r, canFinish k 2 [(0, 1), (1, 0)] = some r ∧ (r = true ↔ ¬ ∃ v, Relation.TransGen (Edge [(0, 1), (1, 0)]) v v)) ∧
      ∀ s, Leads (courseRound 2 [(0, 1), (1, 0)]) (start 2) s → (∀ d ∈ s.degrees, 0 ≤ d) ∧ s.pushed.Nodup := by
  have hcourses : Courses 2 [(0, 1), (1, 0)] := by simp [Courses]
  exact ⟨hcourses, canFinish_iff hcourses⟩

end CsLearning.LeetCode.CourseSchedule
