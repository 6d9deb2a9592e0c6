import CsLearning.Lib.Flooding
import CsLearning.Lib.Grid

/-!
# Surrounded regions

Problem 130: the `O` cells that are connected to the edge stay, all others become `X`. Those that stay are marked with `#` by a search from each
open cell on the edge, and there are three of them: a function that calls itself, a stack the top of which is looked at until all its neighbours are
marked, and a queue.
-/

open List Option Set

namespace CsLearning.LeetCode.SurroundedRegions

abbrev Board := Grid Char

abbrev Pos := Int × Int

inductive Direction where
  | up
  | down
  | left
  | right
  deriving DecidableEq

/-- The four directions in the order of the source. -/
def Direction.all : List Direction := [.up, .down, .left, .right]

/-- The neighbour in a direction. -/
def Direction.of (p : Pos) : Direction → Pos
  | .up => (p.1 - 1, p.2)
  | .down => (p.1 + 1, p.2)
  | .left => (p.1, p.2 - 1)
  | .right => (p.1, p.2 + 1)

/-! ## What all versions share -/

section Solve

variable (search : Board → Pos → Option Board)

/-- The body of the first two loops: a search from an open cell on the edge. -/
def edgeBody (width length i : Nat) (board : Board) (j : Nat) : Option Board :=
  if 0 = i ∨ 0 = j ∨ width - 1 = i ∨ length - 1 = j then do
    let c ← Grid.cell board i j
    if 'O' = c then search board (i, j) else return board
  else some board

/-- The body of the last two loops. -/
def finishBody (i : Nat) (board : Board) (j : Nat) : Option Board := do
  let c ← Grid.cell board i j
  if 'O' = c then Grid.put board i j 'X'
  else if '#' = c then Grid.put board i j 'O'
  else return board

/-- `solve(board)` with a search, and the board at the end. -/
def solveWith (board : Board) : Option Board :=
  if 0 = board.length then some board
  else do
    let row ← board[0]?
    let marked ← (List.range' 0 board.length).foldlM
      (fun b i => (List.range' 0 row.length).foldlM (edgeBody search board.length row.length i) b) board
    (List.range' 0 board.length).foldlM (fun b i => (List.range' 0 row.length).foldlM (finishBody i) b) marked

end Solve

/-! ## The function that calls itself -/

/-- The condition for an immediate return. -/
def closedAt (board : Board) (p : Pos) : Option Bool :=
  if p.1 < 0 ∨ p.2 < 0 ∨ p.1 ≥ board.length then some true
  else do
    let row ← board[0]?
    if p.2 ≥ row.length then return true
    else
      let c ← Grid.look board p
      return 'X' == c || '#' == c

/-- `dfs(board, i, j)`, with calls of a depth less than `fuel`. -/
def Recursive.dfs : (fuel : Nat) → Board → Pos → Option Board
  | 0, _, _ => none
  | fuel + 1, board, p => do
    let closed ← closedAt board p
    if closed then return board
    else
      let board ← Grid.mark board p '#'
      Direction.all.foldlM (fun board d => Recursive.dfs fuel board (d.of p)) board

def Recursive.solve (fuel : Nat) (board : Board) : Option Board := solveWith (Recursive.dfs fuel) board

/-! ## The stack -/

/-- Whether the neighbour is on the board, as each of the conditions says it. -/
def Direction.inside (board : Board) (cur : Pos) : Direction → Option Bool
  | .up => some (decide (cur.1 - 1 ≥ 0))
  | .down => some (decide (cur.1 + 1 < board.length))
  | .left => some (decide (cur.2 - 1 ≥ 0))
  | .right => board[0]?.map fun row => decide (cur.2 + 1 < row.length)

/-- The condition for a direction: the neighbour is on the board and open. -/
def opens (board : Board) (cur : Pos) (d : Direction) : Option Bool := do
  let inside ← d.inside board cur
  if inside then (Grid.look board (d.of cur)).map ('O' == ·) else return false

/-- The first of the directions with an open neighbour. -/
def firstOpen (board : Board) (cur : Pos) : List Direction → Option (Option Direction)
  | [] => some none
  | d :: ds => do
    let found ← opens board cur d
    if found then return some d else firstOpen board cur ds

/-- A round of the loop, for the stack, its top first, and the board. -/
def Stack.round : List Pos × Board → Option (Round (List Pos × Board) Board)
  | ([], board) => some (.stop board)
  | (cur :: s, board) => do
    match ← firstOpen board cur Direction.all with
    | some d =>
      let board ← Grid.mark board (d.of cur) '#'
      return .again (d.of cur :: cur :: s, board)
    | none => return .again (s, board)

/-- `dfs(board, i, j)` with a stack, and at most `fuel` rounds. -/
def Stack.dfs (fuel : Nat) (board : Board) (p : Pos) : Option Board := do
  let board ← Grid.mark board p '#'
  loop Stack.round fuel ([p], board)

def Stack.solve (fuel : Nat) (board : Board) : Option Board := solveWith (Stack.dfs fuel) board

/-! ## The queue -/

/-- What is done for a direction. -/
def Queue.visit (cur : Pos) (x : List Pos × Board) (d : Direction) : Option (List Pos × Board) := do
  let found ← opens x.2 cur d
  if found then
    let board ← Grid.mark x.2 (d.of cur) '#'
    return (x.1 ++ [d.of cur], board)
  else return x

/-- A round of the loop, for the queue and the board. -/
def Queue.round : List Pos × Board → Option (Round (List Pos × Board) Board)
  | ([], board) => some (.stop board)
  | (cur :: q, board) => do
    let x ← Direction.all.foldlM (Queue.visit cur) (q, board)
    return .again x

/-- `bfs(board, i, j)`, with at most `fuel` rounds. -/
def Queue.bfs (fuel : Nat) (board : Board) (p : Pos) : Option Board := do
  let board ← Grid.mark board p '#'
  loop Queue.round fuel ([p], board)

def Queue.solve (fuel : Nat) (board : Board) : Option Board := solveWith (Queue.bfs fuel) board

/-! ## Open cells and marked cells -/

/-- The cell is next to the other one. -/
def Adjacent (p q : Pos) : Prop := ∃ d : Direction, q = d.of p

/-- The places of the `O` cells. -/
def openCells (board : Board) : Set Pos := {p | Grid.look board p = some 'O'}

/-- The places on the edge. -/
def border (m n : Nat) : Set Pos := {p | Grid.Inside m n p ∧ (p.1 = 0 ∨ p.2 = 0 ∨ p.1 = m - 1 ∨ p.2 = n - 1)}

/-- All cells are `X` or `O`. -/
def Plain (board : Board) : Prop := ∀ p c, Grid.look board p = some c → c = 'X' ∨ c = 'O'

/-- The board with `#` at the marked cells. -/
structure Shows (m n : Nat) (board₀ : Board) (M : Set Pos) (board : Board) : Prop where
  rect : Grid.Rect m n board
  marked : ∀ p ∈ M, Grid.look board p = some '#'
  kept : ∀ p ∉ M, Grid.look board p = Grid.look board₀ p
  subset : M ⊆ openCells board₀

theorem Direction.mem_all (d : Direction) : d ∈ Direction.all := by cases d <;> decide

section Marking

variable {m n : Nat} {board₀ board : Board} {M : Set Pos} {p cur : Pos}

theorem Shows.look_eq_open (h : Shows m n board₀ M board) : Grid.look board p = some 'O' ↔ p ∈ openCells board₀ \ M := by
  by_cases hp : p ∈ M
  · rw [h.marked p hp]
    exact iff_of_false (by decide) fun hmem => hmem.2 hp
  · rw [h.kept p hp]
    exact ⟨fun ho => ⟨ho, hp⟩, fun hmem => hmem.1⟩

theorem inside_of_mem (h0 : Grid.Rect m n board₀) (hp : p ∈ openCells board₀) : Grid.Inside m n p := (Grid.look_eq_some_iff h0).mp ⟨'O', hp⟩

theorem finite_openCells (h0 : Grid.Rect m n board₀) : (openCells board₀).Finite := by
  refine ((finite_Ico (0 : Int) m).prod (finite_Ico (0 : Int) n)).subset fun p hp => ?_
  exact inside_of_mem h0 hp

theorem Shows.mark (h : Shows m n board₀ M board) (h0 : Grid.Rect m n board₀) (hp : p ∈ openCells board₀) :
    ∃ board', Grid.mark board p '#' = some board' ∧ Shows m n board₀ (insert p M) board' := by
  obtain ⟨board', hmark, hrect, hlook⟩ := Grid.mark_spec h.rect (inside_of_mem h0 hp) '#'
  refine ⟨board', hmark, hrect, fun q hq => ?_, fun q hq => ?_, insert_subset hp h.subset⟩
  · rw [hlook]
    by_cases hqp : q = p
    · rw [if_pos hqp]
    · rw [if_neg hqp, h.marked q (hq.resolve_left hqp)]
  · rw [hlook, if_neg fun hqp => hq (.inl hqp), h.kept q fun hM => hq (.inr hM)]

theorem first_row (h : Grid.Rect m n board) (hm : 0 < m) : ∃ row, board[0]? = some row ∧ row.length = n := by
  have hlt : 0 < board.length := h.length ▸ hm
  exact ⟨_, getElem?_eq_getElem hlt, h.rows _ (getElem_mem hlt)⟩

theorem closedAt_spec (h : Shows m n board₀ M board) (h0 : Grid.Rect m n board₀) (hplain : Plain board₀) (p : Pos) :
    ∃ closed, closedAt board p = some closed ∧ (closed = true ↔ p ∉ openCells board₀ \ M) := by
  by_cases hin : Grid.Inside m n p
  · obtain ⟨c, hc⟩ := (Grid.look_eq_some_iff h.rect).mpr hin
    obtain ⟨⟨h1, h2⟩, h3, h4⟩ := hin
    obtain ⟨row, hrow, hlen⟩ := first_row h.rect (by omega)
    have hkind : c = 'O' ∨ c = 'X' ∨ c = '#' := by
      by_cases hp : p ∈ M
      · rw [h.marked p hp, some.injEq] at hc
        exact .inr (.inr hc.symm)
      · rw [h.kept p hp] at hc
        exact (hplain p c hc).elim (fun hx => .inr (.inl hx)) .inl
    refine ⟨'X' == c || '#' == c, ?_, ?_⟩
    · rw [closedAt, if_neg (by rw [h.rect.length]; omega), hrow]
      simp only [bind_eq_bind, bind_some, hlen, if_neg (show ¬ p.2 ≥ n by omega), hc]
      rfl
    · rw [← h.look_eq_open, hc, some.injEq]
      rcases hkind with rfl | rfl | rfl <;> decide
  · refine ⟨true, ?_, iff_of_true rfl fun hp => hin (inside_of_mem h0 hp.1)⟩
    rw [closedAt]
    split_ifs with hout
    · rfl
    · rw [h.rect.length] at hout
      obtain ⟨row, hrow, hlen⟩ := first_row h.rect (by omega)
      have hcolumn : p.2 ≥ n := by
        unfold Grid.Inside at hin
        omega
      rw [hrow]
      simp only [bind_eq_bind, bind_some, hlen, if_pos hcolumn]
      rfl

theorem inside_spec (h : Grid.Rect m n board) (hcur : Grid.Inside m n cur) (d : Direction) :
    ∃ inside, d.inside board cur = some inside ∧ (inside = true ↔ Grid.Inside m n (d.of cur)) := by
  obtain ⟨⟨h1, h2⟩, h3, h4⟩ := hcur
  obtain ⟨row, hrow, hlen⟩ := first_row h (by omega)
  cases d with
  | up =>
    refine ⟨_, rfl, ?_⟩
    simp only [decide_eq_true_eq, Grid.Inside, Direction.of]
    omega
  | down =>
    refine ⟨_, rfl, ?_⟩
    simp only [decide_eq_true_eq, Grid.Inside, Direction.of, h.length]
    omega
  | left =>
    refine ⟨_, rfl, ?_⟩
    simp only [decide_eq_true_eq, Grid.Inside, Direction.of]
    omega
  | right =>
    refine ⟨decide (cur.2 + 1 < row.length), by rw [Direction.inside, hrow, map_some], ?_⟩
    simp only [decide_eq_true_eq, Grid.Inside, Direction.of, hlen]
    omega

theorem opens_spec (h : Shows m n board₀ M board) (h0 : Grid.Rect m n board₀) (hcur : Grid.Inside m n cur) (d : Direction) :
    ∃ found, opens board cur d = some found ∧ (found = true ↔ d.of cur ∈ openCells board₀ \ M) := by
  obtain ⟨inside, hrun, hin⟩ := inside_spec h.rect hcur d
  rw [opens, hrun]
  cases inside with
  | true =>
    obtain ⟨c, hc⟩ := (Grid.look_eq_some_iff h.rect).mpr (hin.mp rfl)
    refine ⟨'O' == c, ?_, ?_⟩
    · simp only [bind_eq_bind, bind_some, if_true, hc, map_some]
    · rw [← h.look_eq_open, hc, some.injEq, beq_iff_eq, eq_comm]
  | false =>
    refine ⟨false, rfl, iff_of_false Bool.false_ne_true fun hmem => ?_⟩
    exact Bool.false_ne_true (hin.mpr (inside_of_mem h0 hmem.1))

end Marking

/-! ## The three searches -/

section Searches

variable {m n : Nat} {board₀ : Board} (h0 : Grid.Rect m n board₀)

/-- A search from an open cell marks what has to be marked. -/
def Searches (m n : Nat) (board₀ : Board) (search : Board → Pos → Option Board) : Prop :=
  ∀ M board p, Shows m n board₀ M board → p ∈ openCells board₀ → p ∉ M →
    ∃ board' M', search board p = some board' ∧ Shows m n board₀ M' board' ∧ Flooded Adjacent (openCells board₀) M M' {p}

include h0

variable {search : Board → Pos → Option Board} {p cur : Pos} {M : Set Pos} {board : Board} {fuel : Nat}

theorem Recursive.calls_spec {k : Nat} (hc : ∀ M board q, Shows m n board₀ M board → (openCells board₀ \ M).ncard < k →
      ∃ board' M', search board q = some board' ∧ Shows m n board₀ M' board' ∧ Flooded Adjacent (openCells board₀) M M' {q})
    (h : Shows m n board₀ M board) (hk : (openCells board₀ \ M).ncard < k) (ds : List Direction) :
    ∃ board' M', ds.foldlM (fun board d => search board (d.of p)) board = some board' ∧ Shows m n board₀ M' board' ∧
      Flooded Adjacent (openCells board₀) M M' {q | ∃ d ∈ ds, q = Direction.of p d} := by
  induction ds generalizing M board with
  | nil =>
    refine ⟨board, M, rfl, h, (Flooded.refl Adjacent _ M).of_eq ?_⟩
    exact (eq_empty_of_forall_notMem fun q hq => not_mem_nil hq.choose_spec.1).symm
  | cons d ds ih =>
    obtain ⟨board1, M1, hrun, h₁, hfst⟩ := hc M board (d.of p) h hk
    obtain ⟨board2, M2, hr, h₂, hothers⟩ := ih h₁ ((ncard_diff_le (finite_openCells h0) hfst.subset).trans_lt hk)
    refine ⟨board2, M2, ?_, h₂, (hfst.trans hothers).of_eq ?_⟩
    · rw [foldlM_cons, hrun]
      exact hr
    · ext q
      simp only [mem_union, mem_singleton_iff, mem_ofPred_eq, mem_cons, exists_eq_or_imp]

theorem Recursive.dfs_spec (hplain : Plain board₀) (p : Pos) (h : Shows m n board₀ M board) (hfuel : (openCells board₀ \ M).ncard < fuel) :
    ∃ board' M', Recursive.dfs fuel board p = some board' ∧ Shows m n board₀ M' board' ∧ Flooded Adjacent (openCells board₀) M M' {p} := by
  induction fuel generalizing M board p with
  | zero => omega
  | succ fuel ih =>
    obtain ⟨closed, hcl, hiff⟩ := closedAt_spec h h0 hplain p
    rw [Recursive.dfs, hcl]
    cases closed with
    | false =>
      have hp : p ∈ openCells board₀ \ M := by
        by_contra hp
        exact Bool.false_ne_true (hiff.mpr hp)
      obtain ⟨board1, hmark, h₁⟩ := h.mark h0 hp.1
      have hl := ncard_insert_lt (finite_openCells h0) hp.1 hp.2
      obtain ⟨board', M', hrun, h', hflood⟩ := Recursive.calls_spec h0 (p := p) (fun M board q h hk => ih q h hk) h₁ (by omega) Direction.all
      refine ⟨board', M', ?_, h', Flooded.visit hp.1 (hflood.of_eq ?_)⟩
      · simp only [bind_eq_bind, bind_some, Bool.false_eq_true, if_false, hmark]
        exact hrun
      · ext q
        exact exists_congr fun d => and_iff_right d.mem_all
    | true =>
      refine ⟨board, M, rfl, h, Flooded.skip fun ho => ?_⟩
      by_contra hM
      exact hiff.mp rfl ⟨ho, hM⟩

theorem Recursive.searches (hplain : Plain board₀) (hfuel : (openCells board₀).ncard < fuel) : Searches m n board₀ (Recursive.dfs fuel) := by
  intro M board p h _ _
  refine Recursive.dfs_spec h0 hplain p h (lt_of_le_of_lt ?_ hfuel)
  exact ncard_le_ncard sdiff_subset (finite_openCells h0)

/-- The number of `O` cells on a board, as long as a search goes on. -/
noncomputable def remaining (board : Board) : Nat := (openCells board).ncard

omit h0 in
theorem Shows.remaining_eq (h : Shows m n board₀ M board) : remaining board = (openCells board₀ \ M).ncard := by
  have hset : openCells board = openCells board₀ \ M := by
    ext p
    exact h.look_eq_open
  rw [remaining, hset]

theorem Shows.mark_remaining {q : Pos} (h : Shows m n board₀ M board) (hq : q ∈ openCells board₀ \ M) :
    ∃ board', Grid.mark board q '#' = some board' ∧ Shows m n board₀ (insert q M) board' ∧ remaining board' + 1 = remaining board := by
  obtain ⟨board', hmark, h'⟩ := h.mark h0 hq.1
  refine ⟨board', hmark, h', ?_⟩
  rw [h.remaining_eq, h'.remaining_eq, ncard_insert_lt (finite_openCells h0) hq.1 hq.2]

theorem firstOpen_spec (h : Shows m n board₀ M board) (hcur : Grid.Inside m n cur) (ds : List Direction) :
    (∃ d, firstOpen board cur ds = some (some d) ∧ d.of cur ∈ openCells board₀ \ M) ∨
      firstOpen board cur ds = some none ∧ ∀ d ∈ ds, d.of cur ∈ openCells board₀ → d.of cur ∈ M := by
  induction ds with
  | nil => exact .inr ⟨rfl, fun d hd => absurd hd not_mem_nil⟩
  | cons d ds ih =>
    obtain ⟨found, hopens, hd⟩ := opens_spec h h0 hcur d
    rw [firstOpen, hopens]
    cases found with
    | true => exact .inl ⟨d, rfl, hd.mp rfl⟩
    | false =>
      refine ih.imp_right fun hr => ⟨hr.1, fun e he ho => ?_⟩
      rcases mem_cons.mp he with rfl | he
      · by_contra hM
        exact Bool.false_ne_true (hd.mpr ⟨ho, hM⟩)
      · exact hr.2 e he ho

/-- What holds between two rounds, for both lists. -/
def Searching (m n : Nat) (board₀ : Board) (M : Set Pos) (p : Pos) (F : List Pos) (board : Board) : Prop :=
  ∃ M', Shows m n board₀ M' board ∧ Agenda Adjacent (openCells board₀) M M' p F

omit h0 in
theorem Searching.done (h : Searching m n board₀ M p [] board) (hp : p ∈ openCells board₀) :
    ∃ M', Shows m n board₀ M' board ∧ Flooded Adjacent (openCells board₀) M M' {p} := by
  obtain ⟨M', hshows, hagenda⟩ := h
  exact ⟨M', hshows, hagenda.flooded hp⟩

theorem Stack.round_spec {s : List Pos} (h : Searching m n board₀ M p (cur :: s) board) :
    ∃ x, Stack.round (cur :: s, board) = some (.again x) ∧ Searching m n board₀ M p x.1 x.2 ∧
      2 * remaining x.2 + x.1.length < 2 * remaining board + (cur :: s).length := by
  obtain ⟨M', hshows, hagenda⟩ := h
  have hcur : Grid.Inside m n cur := inside_of_mem h0 (hshows.subset (hagenda.front cur mem_cons_self).1)
  rw [Stack.round]
  rcases firstOpen_spec h0 hshows hcur Direction.all with ⟨d, hfst, hd⟩ | ⟨hfst, hall⟩
  · obtain ⟨board', hmark, hshows', hl⟩ := hshows.mark_remaining h0 hd
    simp only [hfst, bind_eq_bind, bind_some, hmark]
    refine ⟨_, rfl, ⟨_, hshows', hagenda.push mem_cons_self ⟨d, rfl⟩ hd.1 hd.2 fun v => mem_cons⟩, ?_⟩
    simp only [length_cons]
    omega
  · simp only [hfst, bind_eq_bind, bind_some]
    refine ⟨_, rfl, ⟨M', hshows, hagenda.pop ?_⟩, ?_⟩
    · rintro r ⟨d, rfl⟩ ho
      exact hall d d.mem_all ho
    · simp only [length_cons]
      omega

/-- The directions of a round, while the cell itself still counts as one that has to be looked at. -/
theorem Queue.visits_spec {M M' : Set Pos} {q : List Pos} (hshows : Shows m n board₀ M' board)
    (hagenda : Agenda Adjacent (openCells board₀) M M' p (cur :: q)) (ds : List Direction) :
    ∃ x M'', ds.foldlM (Queue.visit cur) (q, board) = some x ∧ Shows m n board₀ M'' x.2 ∧
      Agenda Adjacent (openCells board₀) M M'' p (cur :: x.1) ∧ M' ⊆ M'' ∧ (∀ d ∈ ds, d.of cur ∈ openCells board₀ → d.of cur ∈ M'') ∧
      2 * remaining x.2 + x.1.length ≤ 2 * remaining board + q.length := by
  induction ds generalizing M' q board with
  | nil => exact ⟨(q, board), M', rfl, hshows, hagenda, subset_rfl, fun d hd => absurd hd not_mem_nil, Nat.le_refl _⟩
  | cons d ds ih =>
    have hcur : Grid.Inside m n cur := inside_of_mem h0 (hshows.subset (hagenda.front cur mem_cons_self).1)
    obtain ⟨found, hopens, hiff⟩ := opens_spec hshows h0 hcur d
    rw [foldlM_cons, Queue.visit, hopens]
    simp only [bind_eq_bind, bind_some]
    cases found with
    | true =>
      have hd := hiff.mp rfl
      obtain ⟨board', hmark, hshows', hl⟩ := hshows.mark_remaining h0 hd
      have hlist : ∀ v, v ∈ cur :: (q ++ [d.of cur]) ↔ v = d.of cur ∨ v ∈ cur :: q := by
        intro v
        simp only [mem_cons, mem_append, not_mem_nil, or_false]
        tauto
      obtain ⟨x, M'', hrun, hx, hxagenda, hsubset, hall, hle⟩ := ih hshows' (hagenda.push mem_cons_self ⟨d, rfl⟩ hd.1 hd.2 hlist)
      refine ⟨x, M'', ?_, hx, hxagenda, (subset_insert _ M').trans hsubset, fun e he ho => ?_, ?_⟩
      · rw [if_pos rfl, hmark]
        exact hrun
      · rcases mem_cons.mp he with rfl | he
        · exact hsubset (mem_insert _ M')
        · exact hall e he ho
      · rw [length_append, length_singleton] at hle
        omega
    | false =>
      obtain ⟨x, M'', hrun, hx, hxagenda, hsubset, hall, hle⟩ := ih hshows hagenda
      refine ⟨x, M'', hrun, hx, hxagenda, hsubset, fun e he ho => ?_, hle⟩
      rcases mem_cons.mp he with rfl | he
      · by_contra hM
        exact Bool.false_ne_true (hiff.mpr ⟨ho, fun hM' => hM (hsubset hM')⟩)
      · exact hall e he ho

theorem Queue.round_spec {q : List Pos} (h : Searching m n board₀ M p (cur :: q) board) :
    ∃ x, Queue.round (cur :: q, board) = some (.again x) ∧ Searching m n board₀ M p x.1 x.2 ∧
      2 * remaining x.2 + x.1.length < 2 * remaining board + (cur :: q).length := by
  obtain ⟨M', hshows, hagenda⟩ := h
  obtain ⟨x, M'', hrun, hx, hxagenda, -, hall, hle⟩ := Queue.visits_spec h0 hshows hagenda Direction.all
  rw [Queue.round, hrun]
  refine ⟨x, rfl, ⟨M'', hx, hxagenda.pop ?_⟩, ?_⟩
  · rintro r ⟨d, rfl⟩ ho
    exact hall d d.mem_all ho
  · rw [length_cons]
    omega

theorem searches_of_round {round : List Pos × Board → Option (Round (List Pos × Board) Board)}
    (hsearch : ∀ board p, search board p = (Grid.mark board p '#').bind fun board => loop round fuel ([p], board))
    (hs : ∀ board, round ([], board) = some (.stop board))
    (hrd : ∀ M p cur s board, Searching m n board₀ M p (cur :: s) board →
      ∃ x, round (cur :: s, board) = some (.again x) ∧ Searching m n board₀ M p x.1 x.2 ∧
        2 * remaining x.2 + x.1.length < 2 * remaining board + (cur :: s).length)
    (hfuel : 2 * (openCells board₀).ncard + 1 < fuel) : Searches m n board₀ search := by
  intro M board p h hp hM
  obtain ⟨board1, hmark, h₁, hl⟩ := h.mark_remaining h0 ⟨hp, hM⟩
  have hbound : remaining board ≤ (openCells board₀).ncard := by
    rw [h.remaining_eq]
    exact ncard_le_ncard sdiff_subset (finite_openCells h0)
  have hloop : ∃ board', loop round fuel ([p], board1) = some board' ∧
      ∃ M', Shows m n board₀ M' board' ∧ Flooded Adjacent (openCells board₀) M M' {p} := by
    refine loop_of_invariant (μ := fun x => 2 * remaining x.2 + x.1.length) (I := fun x => Searching m n board₀ M p x.1 x.2) ?_ ?_ ?_
    · rintro ⟨F, board⟩ hx
      cases F with
      | nil => exact .inl ⟨board, hs board, hx.done hp⟩
      | cons cur s => exact .inr (hrd M p cur s board hx)
    · exact ⟨_, h₁, Agenda.single Adjacent _ hM⟩
    · simp only [length_singleton]
      omega
  obtain ⟨board', hrun, M', h', hflood⟩ := hloop
  refine ⟨board', M', ?_, h', hflood⟩
  rw [hsearch, hmark]
  exact hrun

end Searches

/-! ## The whole program -/

section Whole

variable {m n : Nat} {board₀ : Board} (h0 : Grid.Rect m n board₀) (hplain : Plain board₀)

/-- The places of some cells on the edge. -/
def edgesOf (m n : Nat) (S : Set (Nat × Nat)) : Set Pos := {p | ∃ q ∈ S, p = ((q.1 : Int), (q.2 : Int)) ∧ p ∈ border m n}

variable {S : Set (Nat × Nat)} {i j : Nat} {search : Board → Pos → Option Board}

theorem edgesOf_insert_edge (h : ((i : Int), (j : Int)) ∈ border m n) : edgesOf m n (insert (i, j) S) = edgesOf m n S ∪ {((i : Int), (j : Int))} := by
  ext p
  constructor
  · rintro ⟨q, rfl | hq, rfl, hp⟩
    · exact .inr rfl
    · exact .inl ⟨q, hq, rfl, hp⟩
  · rintro (⟨q, hq, rfl, hp⟩ | rfl)
    · exact ⟨q, .inr hq, rfl, hp⟩
    · exact ⟨(i, j), .inl rfl, rfl, h⟩

theorem edgesOf_insert_inner (h : ((i : Int), (j : Int)) ∉ border m n) : edgesOf m n (insert (i, j) S) = edgesOf m n S := by
  ext p
  constructor
  · rintro ⟨q, rfl | hq, rfl, hp⟩
    · exact absurd hp h
    · exact ⟨q, hq, rfl, hp⟩
  · rintro ⟨q, hq, rfl, hp⟩
    exact ⟨q, .inr hq, rfl, hp⟩

theorem edgeBody_spec (hsearch : Searches m n board₀ search) (hi : i < m) (hj : j < n) {M : Set Pos} {board : Board} (h : Shows m n board₀ M board)
    (hflood : Flooded Adjacent (openCells board₀) ∅ M (edgesOf m n S)) :
    ∃ board' M', edgeBody search m n i board j = some board' ∧ Shows m n board₀ M' board' ∧
      Flooded Adjacent (openCells board₀) ∅ M' (edgesOf m n (insert (i, j) S)) := by
  have hin := Grid.inside_natCast hi hj
  have hborder : ((i : Int), (j : Int)) ∈ border m n ↔ 0 = i ∨ 0 = j ∨ m - 1 = i ∨ n - 1 = j := by
    have he : ((i : Int) = 0 ∨ (j : Int) = 0 ∨ (i : Int) = m - 1 ∨ (j : Int) = n - 1) ↔ 0 = i ∨ 0 = j ∨ m - 1 = i ∨ n - 1 = j := by omega
    exact Iff.trans (and_iff_right hin) he
  rw [edgeBody]
  by_cases he : ((i : Int), (j : Int)) ∈ border m n
  · rw [if_pos (hborder.mp he), edgesOf_insert_edge he]
    obtain ⟨c, hc⟩ := (Grid.look_eq_some_iff h.rect).mpr hin
    have ho := h.look_eq_open (p := ((i : Int), (j : Int)))
    rw [hc, some.injEq, eq_comm] at ho
    rw [← Grid.look_natCast, hc]
    simp only [bind_eq_bind, bind_some]
    by_cases hO : 'O' = c
    · rw [if_pos hO]
      obtain ⟨board', M', hrun, h', hnew⟩ := hsearch M board _ h (ho.mp hO).1 (ho.mp hO).2
      exact ⟨board', M', hrun, h', hflood.trans hnew⟩
    · rw [if_neg hO]
      refine ⟨board, M, rfl, h, hflood.trans (Flooded.skip fun hmem => ?_)⟩
      by_contra hM
      exact hO (ho.mpr ⟨hmem, hM⟩)
  · rw [if_neg fun hcond => he (hborder.mpr hcond), edgesOf_insert_inner he]
    exact ⟨board, M, rfl, h, hflood⟩

include h0

theorem edges_spec (hsearch : Searches m n board₀ search) :
    ∃ board', (range' 0 m).foldlM (fun b i => (range' 0 n).foldlM (edgeBody search m n i) b) board₀ = some board' ∧
      Shows m n board₀ (reached Adjacent (openCells board₀) (border m n)) board' := by
  have hst : Shows m n board₀ ∅ board₀ := ⟨h0, fun p hp => hp.elim, fun p _ => rfl, empty_subset _⟩
  have hnil : edgesOf m n ∅ = ∅ := eq_empty_of_forall_notMem fun p ⟨q, hq, _⟩ => hq
  obtain ⟨board', hrun, M, h, hflood⟩ := Grid.foldlM_cells (m := m) (n := n) (.of_eq range_eq_range'.symm)
    (.of_eq range_eq_range'.symm) (f := edgeBody search m n) (b := board₀)
    (P := fun S board => ∃ M, Shows m n board₀ M board ∧ Flooded Adjacent (openCells board₀) ∅ M (edgesOf m n S))
    (fun i j S board hi hj _ ⟨M, h, hflood⟩ => by
      obtain ⟨board', M', hrun, h', hflood'⟩ := edgeBody_spec hsearch hi hj h hflood
      exact ⟨board', hrun, M', h', hflood'⟩)
    ⟨∅, hst, (Flooded.refl Adjacent _ ∅).of_eq hnil.symm⟩
  have hall : edgesOf m n {q | q.1 < m ∧ q.2 < n} = border m n := by
    ext p
    constructor
    · rintro ⟨q, -, -, hp⟩
      exact hp
    · intro hp
      obtain ⟨r, c, rfl, hr, hc⟩ := hp.1.exists_natCast
      exact ⟨(r, c), ⟨hr, hc⟩, rfl, hp⟩
  rw [hall] at hflood
  exact ⟨board', hrun, hflood.eq ▸ h⟩

/-- What the last two loops make of a cell. -/
def finish (c : Char) : Char := if 'O' = c then 'X' else if '#' = c then 'O' else c

/-- The cells in `S` are finished, all others are as they were. -/
structure Finished (m n : Nat) (board : Board) (S : Set (Nat × Nat)) (b : Board) : Prop where
  rect : Grid.Rect m n b
  done : ∀ r c, (r, c) ∈ S → Grid.cell b r c = (Grid.cell board r c).map finish
  kept : ∀ r c, (r, c) ∉ S → Grid.cell b r c = Grid.cell board r c

omit h0 in
theorem finishBody_spec {board b : Board} (hi : i < m) (hj : j < n) (hnew : (i, j) ∉ S)
    (h : Finished m n board S b) : ∃ b', finishBody i b j = some b' ∧ Finished m n board (insert (i, j) S) b' := by
  obtain ⟨c0, hc0⟩ := (Grid.cell_eq_some_iff h.rect).mpr ⟨hi, hj⟩
  have hold : Grid.cell board i j = some c0 := by rw [← h.kept i j hnew, hc0]
  obtain ⟨b', hrun, hrect, hc⟩ : ∃ b', finishBody i b j = some b' ∧ Grid.Rect m n b' ∧
      ∀ r c, Grid.cell b' r c = if r = i ∧ c = j then some (finish c0) else Grid.cell b r c := by
    rw [finishBody, hc0]
    simp only [bind_eq_bind, bind_some, finish]
    split_ifs with hO hmark
    · exact Grid.put_spec h.rect hi hj 'X'
    · exact Grid.put_spec h.rect hi hj 'O'
    · refine ⟨b, rfl, h.rect, fun r c => ?_⟩
      split_ifs with heq
      · rw [heq.1, heq.2, hc0]
      · rfl
  refine ⟨b', hrun, hrect, fun r c hmem => ?_, fun r c hnot => ?_⟩
  · rw [hc]
    split_ifs with heq
    · rw [heq.1, heq.2, hold, map_some]
    · exact h.done r c (hmem.resolve_left fun hs => heq (Prod.mk.inj hs))
  · rw [hc, if_neg fun heq => hnot (.inl (Prod.ext heq.1 heq.2))]
    exact h.kept r c fun hmem => hnot (.inr hmem)

omit h0 in
theorem finish_spec {board : Board} (h : Grid.Rect m n board) :
    ∃ board', (range' 0 m).foldlM (fun b i => (range' 0 n).foldlM (finishBody i) b) board = some board' ∧ Grid.Rect m n board' ∧
      ∀ p, Grid.look board' p = (Grid.look board p).map finish := by
  have hst : Finished m n board ∅ board := ⟨h, fun r c hmem => hmem.elim, fun r c _ => rfl⟩
  obtain ⟨board', hrun, hfinished⟩ := Grid.foldlM_cells (m := m) (n := n) (.of_eq range_eq_range'.symm)
    (.of_eq range_eq_range'.symm) (f := finishBody) (P := Finished m n board)
    (fun i j S b hi hj hnew hb => finishBody_spec hi hj hnew hb) hst
  refine ⟨board', hrun, hfinished.rect, fun p => ?_⟩
  by_cases hp : Grid.Inside m n p
  · obtain ⟨r, c, rfl, hr, hc⟩ := hp.exists_natCast
    rw [Grid.look_natCast, Grid.look_natCast]
    exact hfinished.done r c ⟨hr, hc⟩
  · rw [Grid.look_eq_none hfinished.rect hp, Grid.look_eq_none h hp]
    rfl

include hplain

open Classical in
theorem solveWith_spec (hsearch : Searches m n board₀ search) : ∃ board', solveWith search board₀ = some board' ∧ Grid.Rect m n board' ∧
      ∀ p, Grid.Inside m n p → Grid.look board' p = some (if p ∈ reached Adjacent (openCells board₀) (border m n) then 'O' else 'X') := by
  rw [solveWith, h0.length]
  by_cases hm : 0 = m
  · rw [if_pos hm]
    refine ⟨board₀, rfl, h0, fun p hp => ?_⟩
    have := hp.1
    omega
  · obtain ⟨row, hrow, hlen⟩ := first_row h0 (by omega)
    obtain ⟨board1, hrun1, h₁⟩ := edges_spec h0 hsearch
    obtain ⟨board2, hrun2, h₂, hlook⟩ := finish_spec h₁.rect
    refine ⟨board2, ?_, h₂, fun p hp => ?_⟩
    · rw [if_neg hm, hrow]
      simp only [bind_eq_bind, bind_some, hlen, hrun1, hrun2]
    · rw [hlook]
      by_cases hmem : p ∈ reached Adjacent (openCells board₀) (border m n)
      · rw [if_pos hmem, h₁.marked p hmem]
        rfl
      · obtain ⟨c, hc⟩ := (Grid.look_eq_some_iff h0).mpr hp
        rw [if_neg hmem, h₁.kept p hmem, hc]
        rcases hplain p c hc with rfl | rfl <;> rfl

end Whole

end CsLearning.LeetCode.SurroundedRegions
