import CsLearning.Python.MysqlExecute

/-!
# Whole test files

What the loop of `execute_test_file` does with a file: which statements reach the server, and which failures it accepts. The names
`sql` and `errno` are assigned in `handle_sql` only, so the loop keeps the text of an unfinished statement nowhere, and the number
of an expected error until the next `--error` line.
-/

open List

namespace CsLearning.Python

open Text Pattern

section loop

variable {server : Server} {self s : SqlExecOpr} {before : List Text} {line : Text} {v : Locals}

theorem handleLines_snoc (h : (handleLines server before).run self = .ok v s) :
    (handleLines server (before ++ [line])).run self = (handleLine server v line).run s := by
  unfold handleLines at h ⊢
  simp [h]

theorem handleLines_snoc_error {e : PyError} (h : (handleLines server before).run self = .error e s) :
    (handleLines server (before ++ [line])).run self = .error e s := by
  unfold handleLines at h ⊢
  simp [h]

end loop

/-! ## The statements of a file -/

/-- The lines of a statement: all but the last are without the delimiter. -/
structure Statement where
  body : List Text
  last : Text
  pending : ∀ line ∈ body, ¬ semicolon <:+: line
  ends : semicolon <:+: last

namespace Statement

def lines (stmt : Statement) : List Text := stmt.body ++ [stmt.last]

def text (stmt : Statement) : Text := (stmt.body.map lstrip).flatten ++ strip stmt.last

end Statement

section statements

variable {server : Server} {self : SqlExecOpr} {lines : List Text}

/-- The server receives the statements of the file one after another, each with all its lines; only the lines after the last
delimiter are not sent. -/
def SendsStatements (server : Server) (self : SqlExecOpr) (lines : List Text) : Prop :=
  ∃ (stmts : List Statement) (rest : List Text) (retcode : Bool) (s : SqlExecOpr),
    lines = (stmts.map Statement.lines).flatten ++ rest ∧ (∀ line ∈ rest, ¬ semicolon <:+: line) ∧
      (executeTestFile server lines).run self = .ok retcode s ∧ s.executed = self.executed ++ stmts.map Statement.text

/-- Every statement succeeds, those with records leave a result set. -/
def Succeeds (server : Server) : Prop :=
  ∀ past sql, ∃ result, server past sql = .success result ∧ (checkSqlHasRecord sql → result.isSome)

theorem handleLines_plain (self : SqlExecOpr) (hpl : ∀ line ∈ lines, Plain line) (hserver : Succeeds server) :
    ∃ v s, (handleLines server lines).run self = .ok v s ∧ (v.sql = [] ∧ v.delimiter = semicolon) ∧
      s.executed = self.executed ++ (lines.filter (semicolon <:+: ·)).map strip := by
  induction lines using reverseRecOn with
  | nil => exact ⟨.start, self, rfl, ⟨rfl, rfl⟩, by simp⟩
  | append_singleton before line ih =>
    simp only [forall_mem_append, forall_mem_singleton] at hpl
    obtain ⟨v, s, hrun, ⟨hsql, hdelim⟩, hex⟩ := ih hpl.1
    rw [handleLines_snoc hrun, handleLine_plain hpl.2 hdelim, hsql]
    by_cases hsemi : semicolon <:+: line
    · obtain ⟨result, hr, hrec⟩ := hserver s.executed (strip line)
      obtain ⟨s', hs', hex'⟩ : ∃ s', (handleSql server semicolon line [] v.errno).run s = .ok true s' ∧
          s'.executed = s.executed ++ [strip line] := handleSql_success hsemi hr hrec
      refine ⟨{ v with retcode := true }, s', by simp [hs', hsql], ⟨hsql, hdelim⟩, ?_⟩
      simp [hex', hex, hsemi]
    · exact ⟨{ v with retcode := true }, s, by simp [handleSql_pending hsemi, hsql], ⟨hsql, hdelim⟩, by simp [hex, hsemi]⟩

theorem exists_statements (h : ∀ line ∈ lines, semicolon <:+: line) :
    ∃ stmts : List Statement, (stmts.map Statement.lines).flatten = lines ∧ stmts.map Statement.text = lines.map strip := by
  induction lines with
  | nil => exact ⟨[], rfl, rfl⟩
  | cons line lines ih =>
    simp only [forall_mem_cons] at h
    obtain ⟨stmts, hls, htext⟩ := ih h.2
    refine ⟨⟨[], line, nofun, h.1⟩ :: stmts, ?_, ?_⟩
    · simp [Statement.lines, hls]
    · simp [Statement.text, htext]

instance (line : Text) : Decidable (Plain line) := inferInstanceAs (Decidable (_ ∧ _))

/-- A server on which everything succeeds. -/
def agreeable : Server := fun _ _ => .success (some ⟨[], []⟩)

/-- A runner that has executed nothing. -/
def fresh : SqlExecOpr := { cols := none, rows := none, err := none, executed := [], written := [] }

theorem agreeable_succeeds : Succeeds agreeable := fun _ _ => ⟨_, rfl, fun _ => rfl⟩

/-- Two statements of a line each, and a line that begins a third. -/
def oneLineFile : List Text := ["insert into t values (1);\n".toList, "drop table t;\n".toList, "select 1\n".toList]

/-- A statement of two lines. -/
def splitFile : List Text := ["select 1\n".toList, "from t;\n".toList]

end statements

/-! ## The failures a file expects -/

/-- A line `--error N` or `--ERROR N`. -/
def IsErrorLine (line : Text) : Prop := (errorPattern.find line).isSome ∨ (error2Pattern.find line).isSome

/-- A statement on a line of its own. -/
def IsSqlLine (line : Text) : Prop := Plain line ∧ semicolon <:+ strip line

/-- The number that an error line gives. -/
def errorNumber (line : Text) : Option Int := ((numberOf errorPattern line).or (numberOf error2Pattern line)).map Int.ofNat

/-- The error expected after some lines: a line that gives a number replaces it, a statement uses it up. -/
def expected (lines : List Text) : Option Int := lines.foldl (fun _ line => errorNumber line) none

/-- The number given last, or 0. -/
def remembered (lines : List Text) : Int := lines.foldl (fun n line => (errorNumber line).getD n) 0

/-- The statements of some lines. -/
def statements (lines : List Text) : List Text := (lines.filter (errorNumber · = none)).map strip

/-- Every statement succeeds or fails with an error of the server; those with records leave a result set. -/
def Answers (server : Server) : Prop :=
  ∀ past sql, (∃ result, server past sql = .success result ∧ (checkSqlHasRecord sql → result.isSome)) ∨
    ∃ e, server past sql = .failure e ∧ e.sqlstate.isSome

/-- The run passes every error line, accepts a failure if it is the expected one, and ends with `sys.exit` at any other. -/
def ErrorsApplyOnce (server : Server) (self : SqlExecOpr) (lines : List Text) : Prop :=
  ∀ before line after, lines = before ++ line :: after → ∀ v s, (handleLines server before).run self = .ok v s →
    (IsErrorLine line → ∃ v' s', (handleLines server (before ++ [line])).run self = .ok v' s') ∧
    (IsSqlLine line → ∀ e, server s.executed (strip line) = .failure e →
      ((∃ v' s', (handleLines server (before ++ [line])).run self = .ok v' s') ↔ expected before = some e.errno) ∧
      (expected before ≠ some e.errno →
        ∃ message s', (handleLines server (before ++ [line])).run self = .error (.systemExit message) s'))

section errors

variable {server : Server} {self s : SqlExecOpr} {lines before : List Text} {line : Text} {v : Locals}

theorem errorNumber_of_isSqlLine (h : IsSqlLine line) : errorNumber line = none := by
  have herror := h.1.2 errorPattern (by simp [directivePatterns])
  have herror2 := h.1.2 error2Pattern (by simp [directivePatterns])
  simp [errorNumber, numberOf, herror, herror2]

theorem number_of_isErrorLine (h : IsErrorLine line) (hlower : error2Pattern.find line = none) :
    ∃ n : Nat, numberOf errorPattern line = some n ∧ errorNumber line = some (n : Int) := by
  have hsome : (errorPattern.find line).isSome := h.resolve_right (by simp [hlower])
  obtain ⟨n, hn⟩ := Option.isSome_iff_exists.1 (numberOf_isSome hsome)
  exact ⟨n, hn, by simp only [errorNumber, errorPattern, hn]; rfl⟩

theorem expected_snoc : expected (before ++ [line]) = errorNumber line := by
  simp [expected]

theorem remembered_snoc : remembered (before ++ [line]) = (errorNumber line).getD (remembered before) := by
  simp [remembered]

theorem statements_snoc_sql (h : errorNumber line = none) : statements (before ++ [line]) = statements before ++ [strip line] := by
  simp [statements, h]

theorem statements_snoc_error {n : Int} (h : errorNumber line = some n) : statements (before ++ [line]) = statements before := by
  simp [statements, h]

theorem remembered_of_expected {n : Int} (h : expected lines = some n) : remembered lines = n := by
  induction lines using reverseRecOn with
  | nil => simp [expected] at h
  | append_singleton before line ih =>
    rw [expected_snoc] at h
    rw [remembered_snoc, h]
    rfl

/-- A statement on a line of its own is executed; it ends the run if and only if it fails with another number than the loop holds. -/
theorem handleLine_sql (hl : IsSqlLine line) (hsql : v.sql = []) (hdelim : v.delimiter = semicolon) (hserver : Answers server) :
    (∃ retcode s', (handleLine server v line).run s = .ok { v with retcode := retcode } s' ∧
      s'.executed = s.executed ++ [strip line] ∧ ∀ e, server s.executed (strip line) = .failure e → v.errno = e.errno) ∨
    ∃ e message s', server s.executed (strip line) = .failure e ∧ v.errno ≠ e.errno ∧
      (handleLine server v line).run s = .error (.systemExit message) s' := by
  have hsemi : semicolon <:+: line := hl.2.isInfix.trans (strip_isInfix line)
  rw [handleLine_plain hl.1 hdelim, hsql]
  obtain ⟨result, hr, hrec⟩ | ⟨e, hr, hstate⟩ := hserver s.executed (strip line)
  · obtain ⟨s', hs', hex⟩ : ∃ s', (handleSql server semicolon line [] v.errno).run s = .ok true s' ∧
        s'.executed = s.executed ++ [strip line] := handleSql_success hsemi hr hrec
    refine .inl ⟨true, s', by simp [hs'], hex, ?_⟩
    simp [hr]
  · by_cases he : v.errno = e.errno
    · obtain ⟨s', hs', hex⟩ : ∃ s', (handleSql server semicolon line [] v.errno).run s = .ok false s' ∧
          s'.executed = s.executed ++ [strip line] := handleSql_failure hsemi hr hstate he
      refine .inl ⟨false, s', by simp [hs'], hex, ?_⟩
      simpa [hr] using he
    · obtain ⟨s', hs'⟩ : ∃ s', (handleSql server semicolon line [] v.errno).run s =
          .error (.systemExit (wrongErrno (strip line) e v.errno)) s' := handleSql_wrongErrno hsemi hr he
      exact .inr ⟨e, wrongErrno (strip line) e v.errno, s', hr, he, by simp [hs']⟩

/-- What the loop holds after some lines, none of them an `--ERROR` line. -/
structure Holds (start : SqlExecOpr) (before : List Text) (v : Locals) (s : SqlExecOpr) : Prop where
  sql : v.sql = []
  delimiter : v.delimiter = semicolon
  errno : v.errno = remembered before
  executed : s.executed = start.executed ++ statements before

theorem Holds.of_run (hls : ∀ line ∈ lines, IsErrorLine line ∨ IsSqlLine line)
    (hlower : ∀ line ∈ lines, error2Pattern.find line = none) (hserver : Answers server)
    (hrun : (handleLines server lines).run self = .ok v s) : Holds self lines v s := by
  induction lines using reverseRecOn generalizing v s with
  | nil =>
    cases hrun
    exact ⟨rfl, rfl, rfl, by simp [statements]⟩
  | append_singleton before line ih =>
    simp only [forall_mem_append, forall_mem_singleton] at hls hlower
    cases hbef : (handleLines server before).run self with
    | error e s' => grind [handleLines_snoc_error]
    | ok v' s' =>
      have hheld := ih hls.1 hlower.1 hbef
      rw [handleLines_snoc hbef] at hrun
      cases hls.2 with
      | inl herror =>
        obtain ⟨n, hn, hnumber⟩ := number_of_isErrorLine herror hlower.2
        rw [handleLine_error hn] at hrun
        cases hrun
        refine ⟨hheld.sql, hheld.delimiter, ?_, ?_⟩
        · rw [remembered_snoc, hnumber]
          rfl
        · rw [hheld.executed, statements_snoc_error hnumber]
      | inr hl =>
        have hnumber := errorNumber_of_isSqlLine hl
        obtain ⟨retcode, s₁, hok, hex, -⟩ | ⟨e, message, s₁, -, -, hexit⟩ := handleLine_sql (s := s') hl hheld.sql hheld.delimiter hserver
        · rw [hok] at hrun
          cases hrun
          refine ⟨hheld.sql, hheld.delimiter, ?_, ?_⟩
          · rw [remembered_snoc, hnumber]
            exact hheld.errno
          · rw [hex, hheld.executed, statements_snoc_sql hnumber, append_assoc]
        · rw [hexit] at hrun
          cases hrun

theorem Holds.accepts {e : SqlError} (line : Text) (hheld : Holds self before v s) (hrun : (handleLines server before).run self = .ok v s)
    (hserver : Answers server) (hl : IsSqlLine line) (he : server s.executed (strip line) = .failure e)
    (hnumber : remembered before = e.errno) : ∃ v' s', (handleLines server (before ++ [line])).run self = .ok v' s' := by
  rw [handleLines_snoc hrun]
  obtain ⟨retcode, s', hok, -, -⟩ | ⟨e', message, s', he', hne, -⟩ := handleLine_sql (s := s) hl hheld.sql hheld.delimiter hserver
  · exact ⟨_, s', hok⟩
  · obtain rfl : e' = e := by simpa [he] using he'.symm
    exact absurd (hheld.errno.trans hnumber) hne

instance (line : Text) : Decidable (IsErrorLine line) := inferInstanceAs (Decidable (_ ∨ _))

instance (line : Text) : Decidable (IsSqlLine line) := inferInstanceAs (Decidable (_ ∧ _))

/-- A server without tables. -/
def noTables : Server := fun _ _ => .failure { errno := 1146, sqlstate := some "42S02".toList, msg := "no such table".toList }

theorem noTables_answers : Answers noTables := fun _ _ => .inr ⟨_, rfl, rfl⟩

def announcement : Text := "--error 1146\n".toList

def dropA : Text := "drop table a;\n".toList

def dropB : Text := "drop table b;\n".toList

def capitals : Text := "--ERROR 1146\n".toList

end errors

end CsLearning.Python
