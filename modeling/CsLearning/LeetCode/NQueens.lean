import CsLearning.Lib.Backtracking
import CsLearning.Lib.Grid
import CsLearning.Lib.Text

/-!
# N queens

Problem 51, twice: the rows are pushed to a path and popped again, or a queen is put on the board and taken away again. Before a queen is placed
only the rows above it are looked at, by one loop over the distance or by three loops, for the column and for the two diagonals.
-/

open List Option Nat

namespace CsLearning.LeetCode.NQueens

/-! ## Placements -/

/-- Two squares in the same row or column or on the same diagonal. -/
def Attack (r c r' c' : Nat) : Prop := r = r' ∨ c = c' ∨ r + c = r' + c' ∨ r + c' = r' + c

/-- An `n` times `n` board with `n` queens, none of which attacks another one. -/
structure Placement (n : Nat) (b : List Text) : Prop where
  rows : b.length = n
  columns : ∀ line ∈ b, line.length = n
  marks : ∀ line ∈ b, ∀ x ∈ line, x = '.' ∨ x = 'Q'
  queens : (b.map (·.count 'Q')).sum = n
  peaceful : ∀ r c r' c', Grid.cell b r c = some 'Q' → Grid.cell b r' c' = some 'Q' → (r, c) ≠ (r', c') → ¬ Attack r c r' c'

/-! ## Rows that are pushed and popped -/

/-- `b[r][c] == 'Q'`. -/
def queenAt (b : List Text) (r c : Nat) : Option Bool := (Grid.cell b r c).map (· == 'Q')

/-- `inside && b[r][c] == 'Q'`. -/
def queenIf (inside : Bool) (b : List Text) (r c : Nat) : Option Bool := if inside then queenAt b r c else some false

/-- `s[i] = x`. -/
def setAt (s : Text) (i : Nat) (x : Char) : Option Text := s[i]?.map fun _ => s.set i x

/-- `path.pop_back()`. -/
def popBack (path : List Text) : Option (List Text) := if path.isEmpty then none else some path.dropLast

/-- The members of `Solution`, and `line`. -/
structure Rows.State where
  res : List (List Text)
  path : List Text
  line : Text

/-- The loop of `checkAll` for the distances in the list. -/
def Rows.checkFrom (path : List Text) (row col n : Nat) : List Nat → Option Bool
  | [] => some true
  | i :: is => do
    let upLeft ← queenIf (decide (i ≤ col)) path (row - i) (col - i)
    if upLeft then return false
    else
      let upRight ← queenIf (decide (col + i < n)) path (row - i) (col + i)
      if upRight then return false
      else
        let up ← queenAt path (row - i) col
        if up then return false else Rows.checkFrom path row col n is

/-- `checkAll(row, col, n)`. -/
def Rows.checkAll (path : List Text) (row col n : Nat) : Option Bool := Rows.checkFrom path row col n (List.range' 1 row)

/-- The body of the loop in `backtrack`, where `next` is the recursive call. -/
def Rows.body (next : Rows.State → Option Rows.State) (row n : Nat) (s : Rows.State) (i : Nat) : Option Rows.State := do
  let free ← Rows.checkAll s.path row i n
  if free then
    let line ← setAt s.line i 'Q'
    let path := s.path ++ [line]
    let line ← setAt line i '.'
    let s ← next { s with path := path, line := line }
    let path ← popBack s.path
    return { s with path := path }
  else return s

/-- `backtrack(line, row, n)`, with calls of a depth less than `fuel`. -/
def Rows.backtrack : (fuel row n : Nat) → Rows.State → Option Rows.State
  | 0, _, _, _ => none
  | fuel + 1, row, n, s =>
    if n = s.path.length then some { s with res := s.res ++ [s.path] }
    else (List.range n).foldlM (Rows.body (Rows.backtrack fuel (row + 1) n) row n) s

/-- `solveNQueens(n)` with a path, and the variables at the end. -/
def Rows.solveNQueens (fuel n : Nat) : Option Rows.State := Rows.backtrack fuel 0 n ⟨[], [], List.replicate n '.'⟩

/-! ## A board -/

/-- `res` and `board`. -/
structure Board.State where
  res : List (List Text)
  board : List Text

/-- The loop over the column, for the rows in the list. -/
def columnFree (board : List Text) (col : Nat) : List Nat → Option Bool
  | [] => some true
  | i :: is => do
    let queen ← queenAt board i col
    if queen then return false else columnFree board col is

/-- The loop to the upper right, with `i = rows - 1`. -/
def upRightFree (board : List Text) (n : Nat) : (rows j : Nat) → Option Bool
  | 0, _ => some true
  | i + 1, j =>
    if j < n then do
      let queen ← queenAt board i j
      if queen then return false else upRightFree board n i (j + 1)
    else some true

/-- The loop to the upper left, with `i = rows - 1` and `j = columns - 1`. -/
def upLeftFree (board : List Text) : (rows columns : Nat) → Option Bool
  | 0, _ => some true
  | _ + 1, 0 => some true
  | i + 1, j + 1 => do
    let queen ← queenAt board i j
    if queen then return false else upLeftFree board i j

/-- `isValid(board, row, col)`. -/
def isValid (board : List Text) (row col : Nat) : Option Bool := do
  let column ← columnFree board col (List.range board.length)
  if column then
    let right ← upRightFree board board.length row (col + 1)
    if right then upLeftFree board row col else return false
  else return false

/-- The body of the loop in `backtrack`, where `next` is the recursive call. -/
def Board.body (next : Board.State → Option Board.State) (row : Nat) (s : Board.State) (col : Nat) : Option Board.State := do
  let free ← isValid s.board row col
  if free then
    let board ← Grid.put s.board row col 'Q'
    let s ← next { s with board := board }
    let board ← Grid.put s.board row col '.'
    return { s with board := board }
  else return s

/-- `backtrack(board, row)`, with calls of a depth less than `fuel`. -/
def Board.backtrack : (fuel row : Nat) → Board.State → Option Board.State
  | 0, _, _ => none
  | fuel + 1, row, s =>
    if row = s.board.length then some { s with res := s.res ++ [s.board] }
    else do
      let line ← s.board[row]?
      (List.range line.length).foldlM (Board.body (Board.backtrack fuel (row + 1)) row) s

/-- `solveNQueens(n)` with a board, and the variables at the end. -/
def Board.solveNQueens (fuel n : Nat) : Option Board.State := Board.backtrack fuel 0 ⟨[], List.replicate n (List.replicate n '.')⟩

/-! ## Boards from the columns of their queens -/

variable {n r c col fuel : Nat} {cs : List Nat} {b : List Text}

/-- A row without a queen. -/
def blank (n : Nat) : Text := List.replicate n '.'

/-- A row with a queen. -/
def line (n c : Nat) : Text := (blank n).set c 'Q'

/-- The rows with queens in these columns. -/
def drawn (n : Nat) (cs : List Nat) : List Text := cs.map (line n)

/-- These rows, and below them those that are left. -/
def board (n : Nat) (cs : List Nat) : List Text := drawn n cs ++ List.replicate (n - cs.length) (blank n)

/-- A queen in this column is not attacked by those in the rows above. -/
def Safe (cs : List Nat) (c : Nat) : Prop := ∀ r c', cs[r]? = some c' → ¬ Attack r c' cs.length c

theorem length_line (n c : Nat) : (line n c).length = n := by
  rw [line, length_set, blank, length_replicate]

theorem getElem?_blank (hc : c < n) : (blank n)[c]? = some '.' := getElem?_replicate_of_lt hc

theorem getElem?_line {c' : Nat} (hc : c < n) : (line n c')[c]? = some (if c = c' then 'Q' else '.') := by
  rw [line, getElem?_set, getElem?_blank hc, blank, length_replicate]
  by_cases heq : c = c'
  · rw [if_pos heq.symm, if_pos heq, if_pos (heq ▸ hc)]
  · rw [if_neg (Ne.symm heq), if_neg heq]

theorem length_drawn (n : Nat) (cs : List Nat) : (drawn n cs).length = cs.length := length_map _

theorem cell_drawn (hc : c < n) : Grid.cell (drawn n cs) r c = cs[r]?.map fun c' => if c = c' then 'Q' else '.' := by
  rw [Grid.cell, drawn, getElem?_map]
  cases hr : cs[r]? with
  | none => rfl
  | some c' => exact getElem?_line hc

/-- The first `m` rows have the queens of the list and no others. -/
def Shows (m n : Nat) (cs : List Nat) (b : List Text) : Prop := ∀ r c, r < m → c < n → queenAt b r c = some (decide (cs[r]? = some c))

theorem shows_drawn (n : Nat) (cs : List Nat) : Shows cs.length n cs (drawn n cs) := by
  intro r c hr hc
  rw [queenAt, cell_drawn hc, getElem?_eq_getElem hr, map_some]
  by_cases heq : cs[r] = c
  · grind
  · rw [if_neg (Ne.symm heq), decide_eq_false fun hsome => heq (some.inj hsome)]
    rfl

theorem length_board (h : cs.length ≤ n) : (board n cs).length = n := by
  rw [board, length_append, length_drawn, length_replicate]
  omega

theorem shows_board (n : Nat) (cs : List Nat) : Shows n n cs (board n cs) := by
  intro r c hr hc
  rcases lt_or_ge r cs.length with hlt | hge
  · have hrow : (board n cs)[r]? = (drawn n cs)[r]? := getElem?_append_left (by rwa [length_drawn])
    have hshows := shows_drawn n cs r c hlt hc
    rw [queenAt, Grid.cell] at hshows ⊢
    rwa [hrow]
  · have hrow : (board n cs)[r]? = some (blank n) := by
      rw [board, getElem?_append_right (by rwa [length_drawn]), length_drawn]
      exact getElem?_replicate_of_lt (by omega)
    rw [queenAt, Grid.cell, hrow, bind_some, getElem?_blank hc, getElem?_eq_none hge]
    rfl

/-! ## The checks -/

theorem stop_eq_decide (p q : Prop) [Decidable p] [Decidable q] : (if p then some false else some (decide q)) = some (decide (¬ p ∧ q)) := by
  grind

theorem diagonal_succ {i j : Nat} {D E : Nat → Nat → Prop} (hrow : ∀ c, D i c ↔ c = j) (hrest : ∀ r c, E r c ↔ D r c) :
    (∀ r < i + 1, ∀ c, cs[r]? = some c → ¬ D r c) ↔ ¬ cs[i]? = some j ∧ ∀ r < i, ∀ c, cs[r]? = some c → ¬ E r c := by
  constructor
  · intro hall
    refine ⟨fun hqueen => hall i (lt_succ_self i) j hqueen ((hrow j).mpr rfl), fun r hr c hc hE => ?_⟩
    exact hall r (lt_succ_of_lt hr) c hc ((hrest r c).mp hE)
  · grind

section Checks

variable (hcs : ∀ c ∈ cs, c < n) (hcol : col < n)

include hcs hcol

open Classical in
theorem Rows.checkFrom_spec (h : Shows cs.length n cs b) {is : List Nat} (his : ∀ i ∈ is, 1 ≤ i ∧ i ≤ cs.length) :
    Rows.checkFrom b cs.length col n is =
      some (decide (∀ i ∈ is, ∀ c', cs[cs.length - i]? = some c' → ¬ Attack (cs.length - i) c' cs.length col)) := by
  induction is with
  | nil => simp [Rows.checkFrom]
  | cons i is ih =>
    obtain ⟨hi, hile⟩ := his i mem_cons_self
    have hlt : cs.length - i < cs.length := by omega
    obtain ⟨c', hc'⟩ : ∃ c', cs[cs.length - i]? = some c' := ⟨_, getElem?_eq_getElem hlt⟩
    have hc'n := hcs c' (mem_of_getElem? hc')
    have hl : queenIf (decide (i ≤ col)) b (cs.length - i) (col - i) = some (decide (c' + i = col)) := by
      rw [queenIf]
      by_cases hin : i ≤ col
      · rw [if_pos (decide_eq_true hin), h _ _ hlt (by omega), hc', some.injEq, decide_eq_decide, some.injEq]
        omega
      · rw [if_neg (by simpa using hin), decide_eq_false (by omega)]
    have hr : queenIf (decide (col + i < n)) b (cs.length - i) (col + i) = some (decide (c' = col + i)) := by
      rw [queenIf]
      by_cases hin : col + i < n
      · rw [if_pos (decide_eq_true hin), h _ _ hlt hin, hc', some.injEq, decide_eq_decide, some.injEq]
      · rw [if_neg (by simpa using hin), decide_eq_false (by omega)]
    have hup : queenAt b (cs.length - i) col = some (decide (c' = col)) := by
      rw [h _ _ hlt hcol, hc', some.injEq, decide_eq_decide, some.injEq]
    have hattack : Attack (cs.length - i) c' cs.length col ↔ c' + i = col ∨ c' = col + i ∨ c' = col := by
      unfold Attack
      omega
    rw [Rows.checkFrom, hl, hr, hup, ih fun j hj => his j (mem_cons_of_mem i hj)]
    have hfst : (∀ c'', cs[cs.length - i]? = some c'' → ¬ Attack (cs.length - i) c'' cs.length col) ↔
        ¬ (c' + i = col ∨ c' = col + i ∨ c' = col) := by
      rw [← hattack, hc']
      exact ⟨fun hall => hall c' rfl, fun hnot c'' heq => some.inj heq ▸ hnot⟩
    simp only [forall_mem_cons, hfst, bind_eq_bind, bind_some, Option.pure_def, decide_eq_true_eq]
    rw [stop_eq_decide, stop_eq_decide, stop_eq_decide, some.injEq, decide_eq_decide, not_or, not_or, and_assoc, and_assoc]

open Classical in
theorem Rows.checkAll_spec (h : Shows cs.length n cs b) : Rows.checkAll b cs.length col n = some (decide (Safe cs col)) := by
  have his : ∀ i ∈ range' 1 cs.length, 1 ≤ i ∧ i ≤ cs.length := by
    intro i hi
    rw [mem_range'_1] at hi
    omega
  rw [Rows.checkAll, Rows.checkFrom_spec hcs hcol h his, some.injEq, decide_eq_decide]
  constructor
  · intro hall r c' hr
    obtain ⟨hlt, -⟩ := List.getElem?_eq_some_iff.mp hr
    have hrow := hall (cs.length - r) (mem_range'_1.mpr (by omega))
    rw [Nat.sub_sub_self hlt.le] at hrow
    exact hrow c' hr
  · intro hs i _ c' hc'
    exact hs _ c' hc'

open Classical in
omit hcs in
theorem columnFree_spec (h : Shows n n cs b) {is : List Nat} (his : ∀ i ∈ is, i < n) :
    columnFree b col is = some (decide (∀ i ∈ is, cs[i]? ≠ some col)) := by
  induction is with
  | nil => simp [columnFree]
  | cons i is ih =>
    rw [columnFree, h i col (his i mem_cons_self) hcol, ih fun j hj => his j (mem_cons_of_mem i hj)]
    simp only [forall_mem_cons, bind_eq_bind, bind_some, Option.pure_def, decide_eq_true_eq]
    rw [stop_eq_decide]

open Classical in
omit hcol in
theorem upRightFree_spec (h : Shows n n cs b) {rows : Nat} (hrows : rows ≤ n) (j : Nat) :
    upRightFree b n rows j = some (decide (∀ r < rows, ∀ c', cs[r]? = some c' → c' + r + 1 ≠ j + rows)) := by
  induction rows generalizing j with
  | zero => simp [upRightFree]
  | succ i ih =>
    rw [upRightFree]
    by_cases hj : j < n
    · rw [if_pos hj, h i j hrows hj, ih (by omega)]
      simp only [bind_eq_bind, bind_some, Option.pure_def, decide_eq_true_eq]
      rw [stop_eq_decide, some.injEq, decide_eq_decide]
      exact (diagonal_succ (fun c => by omega) (fun r c => by omega)).symm
    · rw [if_neg hj, eq_comm, some.injEq, decide_eq_true_iff]
      intro r hr c' hc'
      have := hcs c' (mem_of_getElem? hc')
      omega

open Classical in
omit hcs hcol in
theorem upLeftFree_spec (h : Shows n n cs b) {rows columns : Nat} (hrows : rows ≤ n) (hcolumns : columns ≤ n) :
    upLeftFree b rows columns = some (decide (∀ r < rows, ∀ c', cs[r]? = some c' → c' + rows ≠ columns + r)) := by
  induction rows generalizing columns with
  | zero => simp [upLeftFree]
  | succ i ih =>
    cases columns with
    | zero =>
      rw [upLeftFree, eq_comm, some.injEq, decide_eq_true_iff]
      intro r hr c' _
      omega
    | succ j =>
      rw [upLeftFree, h i j hrows hcolumns, ih (by omega) (by omega)]
      simp only [bind_eq_bind, bind_some, Option.pure_def, decide_eq_true_eq]
      rw [stop_eq_decide, some.injEq, decide_eq_decide]
      exact (diagonal_succ (fun c => by omega) (fun r c => by omega)).symm

open Classical in
theorem isValid_spec (h : Shows n n cs b) (hb : b.length = n) (hle : cs.length ≤ n) : isValid b cs.length col = some (decide (Safe cs col)) := by
  rw [isValid, hb, columnFree_spec hcol h (fun i hi => mem_range.mp hi), upRightFree_spec hcs h hle, upLeftFree_spec h hle hcol.le]
  have hs : Safe cs col ↔ (∀ i ∈ List.range n, cs[i]? ≠ some col) ∧ (∀ r < cs.length, ∀ c', cs[r]? = some c' → c' + r + 1 ≠ col + 1 + cs.length) ∧
      ∀ r < cs.length, ∀ c', cs[r]? = some c' → c' + cs.length ≠ col + r := by
    constructor
    · intro hs
      refine ⟨fun r _ hr => hs r col hr (Or.inr (Or.inl rfl)), fun r _ c' hc' heq => hs r c' hc' ?_, fun r _ c' hc' heq => hs r c' hc' ?_⟩
      · exact Or.inr (Or.inr (Or.inl (by omega)))
      · exact Or.inr (Or.inr (Or.inr (by omega)))
    · rintro ⟨hcolumn, hright, hl⟩ r c' hc'
      obtain ⟨hlt, -⟩ := List.getElem?_eq_some_iff.mp hc'
      rintro (hrow | rfl | hdiagonal | hdiagonal)
      · omega
      · exact hcolumn r (mem_range.mpr (by omega)) hc'
      · exact hright r hlt c' hc' (by omega)
      · exact hl r hlt c' hc' (by omega)
  simp only [hs, bind_eq_bind, bind_some, decide_eq_true_eq]
  split_ifs with h1 h2 <;> simp_all

end Checks

/-! ## Both searches -/

theorem setAt_blank (hc : c < n) : setAt (blank n) c 'Q' = some (line n c) := by
  rw [setAt, getElem?_blank hc, map_some, line]

theorem set_line (n c : Nat) : (line n c).set c '.' = blank n := by
  rw [line, set_set, blank, set_replicate_self]

theorem setAt_line (hc : c < n) : setAt (line n c) c '.' = some (blank n) := by
  rw [setAt, getElem?_line hc, map_some, set_line]

theorem drawn_concat (n : Nat) (cs : List Nat) (c : Nat) : drawn n (cs ++ [c]) = drawn n cs ++ [line n c] := by
  rw [drawn, map_append, map_singleton, drawn]

theorem popBack_concat (path : List Text) (s : Text) : popBack (path ++ [s]) = some path := by
  rw [popBack, if_neg (by simp), dropLast_concat]

open Classical in
/-- A column of the first version: the path and the line are what they were before. -/
theorem Rows.body_eq {next : Rows.State → Option Rows.State} {res out : List (List Text)} (hcs : ∀ c ∈ cs, c < n) (hc : c < n)
    (hn : Safe cs c → next ⟨res, drawn n (cs ++ [c]), blank n⟩ = some ⟨res ++ out, drawn n (cs ++ [c]), blank n⟩) :
    Rows.body next cs.length n ⟨res, drawn n cs, blank n⟩ c = some ⟨res ++ if Safe cs c then out else [], drawn n cs, blank n⟩ := by
  rw [Rows.body, Rows.checkAll_spec hcs hc (shows_drawn n cs)]
  by_cases hs : Safe cs c
  · simp only [bind_eq_bind, bind_some, decide_eq_true hs, if_true, if_pos hs, setAt_blank hc, setAt_line hc]
    rw [← drawn_concat, hn hs]
    simp only [bind_some, drawn_concat, popBack_concat]
    rfl
  · grind

/-- The first version finds all completions and leaves the path and the line as they were. -/
theorem Rows.solveNQueens_eq (n : Nat) : Rows.solveNQueens (n + 1) n = some ⟨(completions Safe (range n) n []).map (drawn n), [], blank n⟩ := by
  refine search_completions (n := n) (fun fuel cs => Rows.backtrack fuel cs.length n) (fun cs res => ⟨res, drawn n cs, blank n⟩) (drawn n) ?_ ?_
    [] (fun c hc => absurd hc not_mem_nil) (zero_add n) []
  · intro fuel cs res _ hlen
    simp only [Rows.backtrack]
    rw [if_pos (by rw [length_drawn, hlen])]
  · intro fuel cs res out hcs hlt hcalls
    simp only [Rows.backtrack]
    rw [if_neg (by rw [length_drawn]; omega)]
    refine foldlM_out (fun res => (⟨res, drawn n cs, blank n⟩ : Rows.State)) (fun c hc res => ?_) res
    refine Rows.body_eq (fun d hd => mem_range.mp (hcs d hd)) (mem_range.mp hc) fun hs => ?_
    have hcall := hcalls c hc hs res
    rwa [length_append] at hcall

theorem board_eq (h : cs.length < n) : board n cs = drawn n cs ++ blank n :: replicate (n - (cs.length + 1)) (blank n) := by
  rw [board, ← replicate_succ]
  congr 2
  omega

theorem board_concat (n : Nat) (cs : List Nat) (c : Nat) :
    board n (cs ++ [c]) = drawn n cs ++ line n c :: replicate (n - (cs.length + 1)) (blank n) := by
  rw [board, drawn_concat, length_append, length_singleton, append_assoc, singleton_append]

open Classical in
theorem Board.body_eq {next : Board.State → Option Board.State} {res out : List (List Text)} (hcs : ∀ c ∈ cs, c < n) (hc : c < n)
    (hlt : cs.length < n) (hn : Safe cs c → next ⟨res, board n (cs ++ [c])⟩ = some ⟨res ++ out, board n (cs ++ [c])⟩) :
    Board.body next cs.length ⟨res, board n cs⟩ c = some ⟨res ++ if Safe cs c then out else [], board n cs⟩ := by
  have hpl : Grid.put (board n cs) cs.length c 'Q' = some (board n (cs ++ [c])) := by
    rw [board_eq hlt, board_concat, ← length_drawn n cs]
    exact Grid.put_append _ _ (by rwa [blank, length_replicate])
  have ht : Grid.put (board n (cs ++ [c])) cs.length c '.' = some (board n cs) := by
    rw [board_eq hlt, board_concat, ← length_drawn n cs, Grid.put_append _ _ (by rwa [length_line]), set_line]
  rw [Board.body, isValid_spec hcs hc (shows_board n cs) (length_board hlt.le) hlt.le]
  by_cases hs : Safe cs c
  · simp only [bind_eq_bind, bind_some, decide_eq_true hs, if_true, if_pos hs, hpl, hn hs, ht]
    rfl
  · grind

theorem Board.solveNQueens_eq (n : Nat) :
    Board.solveNQueens (n + 1) n = some ⟨(completions Safe (range n) n []).map (drawn n), replicate n (blank n)⟩ := by
  refine search_completions (n := n) (fun fuel cs => Board.backtrack fuel cs.length) (fun cs res => ⟨res, board n cs⟩) (drawn n) ?_ ?_
    [] (fun c hc => absurd hc not_mem_nil) (Nat.zero_add n) []
  · intro fuel cs res _ hlen
    have hboard : board n cs = drawn n cs := by rw [board, hlen, Nat.sub_self, replicate_zero, append_nil]
    simp only [Board.backtrack]
    rw [if_pos (by rw [length_board hlen.le, hlen]), hboard]
  · intro fuel cs res out hcs hlt hcalls
    have hrow : (board n cs)[cs.length]? = some (blank n) := by
      rw [board_eq hlt, getElem?_append_right (length_drawn n cs).le, length_drawn, Nat.sub_self]
      rfl
    simp only [Board.backtrack]
    rw [if_neg (by rw [length_board hlt.le]; omega), hrow]
    simp only [bind_eq_bind, bind_some]
    rw [blank, length_replicate]
    refine foldlM_out (fun res => (⟨res, board n cs⟩ : Board.State)) (fun c hc res => ?_) res
    refine Board.body_eq (fun d hd => mem_range.mp (hcs d hd)) (mem_range.mp hc) hlt fun hs => ?_
    have hcall := hcalls c hc hs res
    rwa [length_append] at hcall

/-! ## The completions are the placements -/

/-- The columns of `n` queens in different rows, none of which attacks another one. -/
def Solution (n : Nat) (cs : List Nat) : Prop :=
  cs.length = n ∧ (∀ c ∈ cs, c < n) ∧ ∀ r c r' c', r < r' → cs[r]? = some c → cs[r']? = some c' → ¬ Attack r c r' c'

theorem mem_completions_iff : cs ∈ completions Safe (List.range n) n [] ↔ Solution n cs := by
  rw [mem_completions, length_nil, zero_add]
  constructor
  · rintro ⟨-, hlen, hall⟩
    refine ⟨hlen, fun c hc => ?_, fun r c r' c' hlt hr hr' => ?_⟩
    · obtain ⟨i, hi⟩ := mem_iff_getElem?.mp hc
      exact mem_range.mp (hall i c (zero_le i) hi).1
    · have hle := (List.getElem?_eq_some_iff.mp hr').1
      have hs := (hall r' c' (zero_le r') hr').2 r c (by rw [getElem?_take, if_pos hlt, hr])
      rwa [length_take, min_eq_left hle.le] at hs
  · rintro ⟨hlen, hcs, hpeaceful⟩
    refine ⟨ nil_prefix, hlen, fun i c _ hi => ⟨mem_range.mpr (hcs c (mem_of_getElem? hi)), fun r c' hr => ?_⟩⟩
    have hle := (List.getElem?_eq_some_iff.mp hi).1
    rw [getElem?_take] at hr
    split_ifs at hr with hlt
    rw [length_take, min_eq_left hle.le]
    exact hpeaceful r c' i c hlt hr hi

theorem count_line (hc : c < n) : (line n c).count 'Q' = 1 := by
  rw [line, count_set (by rwa [blank, length_replicate])]
  simp [blank, count_replicate]

theorem cell_drawn_eq_queen (hcs : ∀ c ∈ cs, c < n) : Grid.cell (drawn n cs) r c = some 'Q' ↔ cs[r]? = some c := by
  rcases lt_or_ge c n with hc | hc
  · rw [cell_drawn hc]
    cases hr : cs[r]? with
    | none => simp
    | some c' => grind
  · have hn : Grid.cell (drawn n cs) r c = none := by
      rw [Grid.cell, drawn, getElem?_map]
      cases cs[r]? with
      | none => rfl
      | some c' => exact getElem?_eq_none (by rwa [length_line])
    rw [hn]
    refine iff_of_false (some_ne_none _).symm fun hr => ?_
    have := hcs c (mem_of_getElem? hr)
    omega

theorem Attack.symm {r' c' : Nat} (h : Attack r c r' c') : Attack r' c' r c := by
  unfold Attack at h ⊢
  omega

theorem placement_drawn (h : Solution n cs) : Placement n (drawn n cs) := by
  obtain ⟨hlen, hcs, hpeaceful⟩ := h
  have hl : ∀ s ∈ drawn n cs, ∃ c < n, s = line n c := by
    intro s hs
    obtain ⟨c, hc, rfl⟩ := mem_map.mp hs
    exact ⟨c, hcs c hc, rfl⟩
  refine ⟨by rw [length_drawn, hlen], fun s hs => ?_, fun s hs x hx => ?_, ?_, fun r c r' c' hr hr' hne => ?_⟩
  · grind [length_line]
  · obtain ⟨c, -, rfl⟩ := hl s hs
    rcases mem_or_eq_of_mem_set hx with hx | hx
    · exact Or.inl (eq_of_mem_replicate hx)
    · exact Or.inr hx
  · have hcounts : (drawn n cs).map (·.count 'Q') = replicate n 1 := by
      refine eq_replicate_iff.mpr ⟨by rw [length_map, length_drawn, hlen], fun k hk => ?_⟩
      obtain ⟨s, hs, rfl⟩ := mem_map.mp hk
      obtain ⟨c, hc, rfl⟩ := hl s hs
      exact count_line hc
    rw [hcounts, sum_replicate, smul_eq_mul, mul_one]
  · rw [cell_drawn_eq_queen hcs] at hr hr'
    rcases lt_trichotomy r r' with hlt | rfl | hgt
    · exact hpeaceful r c r' c' hlt hr hr'
    · grind
    · exact fun hattack => hpeaceful r' c' r c hgt hr' hr hattack.symm

theorem eq_one_of_sum_eq_length {l : List Nat} (hle : ∀ k ∈ l, k ≤ 1) (hsum : l.sum = l.length) : ∀ k ∈ l, k = 1 := by
  induction l with
  | nil => exact fun k hk => absurd hk not_mem_nil
  | cons a l ih =>
    have ha := hle a mem_cons_self
    have hr : l.sum ≤ l.length := by
      have hbound := sum_le_card_nsmul l 1 fun k hk => hle k (mem_cons_of_mem a hk)
      rwa [smul_eq_mul, mul_one] at hbound
    rw [sum_cons, length_cons] at hsum
    intro k hk
    rcases mem_cons.mp hk with rfl | hk
    · omega
    · grind

theorem exists_line {s : Text} (hlen : s.length = n) (hmarks : ∀ x ∈ s, x = '.' ∨ x = 'Q') (hcnt : s.count 'Q' = 1)
    (hone : ∀ c c' : Nat, s[c]? = some 'Q' → s[c']? = some 'Q' → c = c') : ∃ c < n, s = line n c := by
  have hmem : 'Q' ∈ s := count_pos_iff.mp (by omega)
  obtain ⟨c, hc⟩ := mem_iff_getElem?.mp hmem
  have hlt : c < n := hlen ▸ (List.getElem?_eq_some_iff.mp hc).1
  refine ⟨c, hlt, ext_getElem? fun i => ?_⟩
  rcases lt_or_ge i n with hi | hi
  · rw [getElem?_line hi]
    by_cases hic : i = c
    · rw [if_pos hic, hic, hc]
    · have hget := getElem?_eq_getElem (l := s) (i := i) (by omega)
      rw [if_neg hic, hget]
      rcases hmarks s[i] (getElem_mem _) with hdot | hqueen
      · rw [hdot]
      · grind
  · grind [length_line]

/-- There is exactly one queen in each row. -/
theorem Placement.exists_solution (h : Placement n b) : ∃ cs, Solution n cs ∧ b = drawn n cs := by
  have hone : ∀ s ∈ b, ∀ c c' : Nat, s[c]? = some 'Q' → s[c']? = some 'Q' → c = c' := by
    intro s hs c c' hc hc'
    obtain ⟨r, hr⟩ := mem_iff_getElem?.mp hs
    by_contra hne
    refine h.peaceful r c r c' ?_ ?_ (fun heq => hne (Prod.mk.inj heq).2) (Or.inl rfl)
    · rw [Grid.cell, hr, bind_some, hc]
    · rw [Grid.cell, hr, bind_some, hc']
  have hle : ∀ k ∈ b.map (·.count 'Q'), k ≤ 1 := by
    intro k hk
    obtain ⟨s, hs, rfl⟩ := List.mem_map.mp hk
    by_contra htwo
    obtain ⟨i, j, hlt, hi, hj⟩ := duplicate_iff_exists_distinct_get.mp (duplicate_iff_two_le_count.mpr (not_le.mp htwo))
    have hij := hone s hs i j (by rw [getElem?_eq_getElem i.2, hi]; rfl) (by rw [getElem?_eq_getElem j.2, hj]; rfl)
    exact hlt.ne (Fin.ext hij)
  have hcnt : ∀ s ∈ b, s.count 'Q' = 1 := fun s hs =>
    eq_one_of_sum_eq_length hle (by rw [h.queens, length_map, h.rows]) _ (List.mem_map.mpr ⟨s, hs, rfl⟩)
  have hl : ∀ s ∈ b, ∃ c, c < n ∧ line n c = s := by
    intro s hs
    obtain ⟨c, hc, heq⟩ := exists_line (h.columns s hs) (h.marks s hs) (hcnt s hs) (hone s hs)
    exact ⟨c, hc, heq.symm⟩
  choose! column hcolumn using hl
  have hdrawn : b = drawn n (b.map column) := by
    rw [drawn, List.map_map]
    conv_lhs => rw [← List.map_id b]
    exact map_congr_left fun s hs => (hcolumn s hs).2.symm
  have hcs : ∀ c ∈ b.map column, c < n := by grind
  refine ⟨b.map column, ⟨by rw [length_map, h.rows], hcs, fun r c r' c' hlt hr hr' => ?_⟩, hdrawn⟩
  rw [← cell_drawn_eq_queen hcs, ← hdrawn] at hr hr'
  exact h.peaceful r c r' c' hr hr' fun heq => hlt.ne (Prod.mk.inj heq).1

theorem drawn_injOn {cs' : List Nat} (h : Solution n cs) (h' : Solution n cs') (heq : drawn n cs = drawn n cs') : cs = cs' := by
  ext c
  rw [← cell_drawn_eq_queen h.2.1, ← cell_drawn_eq_queen h'.2.1, heq]

/-- Both versions return all placements, each of them once, in the same order, and the path, the line and the board are at the end what they were in
the beginning. -/
theorem solveNQueens_agree (n : Nat) : ∃ res, Rows.solveNQueens (n + 1) n = some ⟨res, [], List.replicate n '.'⟩ ∧
    Board.solveNQueens (n + 1) n = some ⟨res, List.replicate n (List.replicate n '.')⟩ ∧ res.Nodup ∧ ∀ b, b ∈ res ↔ Placement n b := by
  refine ⟨_, Rows.solveNQueens_eq n, Board.solveNQueens_eq n, ?_, fun b => ?_⟩
  · refine Nodup.map_on (fun cs hcs cs' hcs' heq => ?_) (nodup_completions nodup_range n [])
    exact drawn_injOn (mem_completions_iff.mp hcs) (mem_completions_iff.mp hcs') heq
  · rw [List.mem_map]
    constructor
    · rintro ⟨cs, hcs, rfl⟩
      exact placement_drawn (mem_completions_iff.mp hcs)
    · intro hb
      obtain ⟨cs, hcs, rfl⟩ := hb.exists_solution
      exact ⟨cs, mem_completions_iff.mpr hcs, rfl⟩

end CsLearning.LeetCode.NQueens
