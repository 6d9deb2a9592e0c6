import CsLearning.Lib.Text

/-!
# The runner of MySQL test files

`execute_test_file` and `handle_sql` of `mysql_execute.py`. The lines of the file are given; the server is a function that answers
each statement, knowing the statements before it. A run ends with a result or with the exception that left it, and either way with
the runner's attributes as they were then.
-/

open List Option

namespace CsLearning.Python

open Text Pattern

/-! ## The patterns -/

/-- `\s*` -/
def spaces : Piece := .many Piece.ws 0 true

/-- `.*` -/
def anything : Piece := .many Piece.dot 0 true

/-- `^(\s*--echo\s*)(#\s*.*)$` -/
def notePattern : Pattern :=
  group 1 (spaces :: (lit "--echo".toList ++ [spaces])) ++ group 2 (lit "#".toList ++ [spaces, anything]) ++ outside [.eol]

/-- `^\s*select\s*\"(.*)\".*` -/
def selectNotePattern : Pattern :=
  outside (spaces :: (lit "select".toList ++ (spaces :: lit "\"".toList))) ++ group 1 [anything] ++
    outside (lit "\"".toList ++ [anything])

/-- `^\s*word\s*$` -/
def wordPattern (word : Text) : Pattern := outside (spaces :: (lit word ++ [spaces, .eol]))

def disablePattern : Pattern := wordPattern "--disable_warnings".toList

def enablePattern : Pattern := wordPattern "--enable_warnings".toList

/-- `^\s*word.*` -/
def startPattern (word : Text) : Pattern := outside (spaces :: (lit word ++ [anything]))

def garbagePattern : Pattern := startPattern "#".toList

def replacePattern : Pattern := startPattern "--replace".toList

/-- `^\s*word\s*(\d+)\s*$` -/
def numberPattern (word : Text) : Pattern :=
  outside (spaces :: (lit word ++ [spaces])) ++ group 1 [.many Char.isDigit 1 true] ++ outside [spaces, .eol]

def errorPattern : Pattern := numberPattern "--error".toList

def error2Pattern : Pattern := numberPattern "--ERROR".toList

/-- `^\s*delimiter\s+(.+?)\s*;\s*$` -/
def delimiterPattern1 : Pattern :=
  outside (spaces :: (lit "delimiter".toList ++ [.many Piece.ws 1 true])) ++ group 1 [.many Piece.dot 1 false] ++
    outside (spaces :: (lit ";".toList ++ [spaces, .eol]))

/-- `^\s*delimiter\s+;\s*(.+?)\s*$` -/
def delimiterPattern2 : Pattern :=
  outside (spaces :: (lit "delimiter".toList ++ (.many Piece.ws 1 true :: (lit ";".toList ++ [spaces])))) ++
    group 1 [.many Piece.dot 1 false] ++ outside [spaces, .eol]

/-- `^\s*word.*` with the flags `re.I` and `re.S`, in `sql_type_filter.py`. -/
def filterPattern (word : Text) : Pattern := outside (spaces :: (litI word ++ [.many (fun _ => true) 0 true]))

def selectPattern : Pattern := filterPattern "select".toList

def showPattern : Pattern := filterPattern "show".toList

def explainPattern : Pattern := filterPattern "explain".toList

def checkSqlHasRecord (sql : Text) : Bool :=
  (selectPattern.find sql).isSome || (showPattern.find sql).isSome || (explainPattern.find sql).isSome

/-! ## The runner -/

structure SqlError where
  errno : Int
  sqlstate : Option Text
  msg : Text
deriving DecidableEq

/-- A result set: the names of the columns and the rows, as `str` shows them. -/
structure ResultSet where
  cols : List Text
  rows : List (List Text)
deriving DecidableEq

/-- How the connector answers a statement: it succeeds, with a result set or without, fails with an error of the connector, or
raises something else. -/
inductive Reply
  | success (result : Option ResultSet)
  | failure (err : SqlError)
  | unknown
deriving DecidableEq

/-- The reply to a statement, given the statements executed before it. -/
abbrev Server := List Text → Text → Reply

/-- The attributes of the runner, the statements passed to `execute` so far and the lines written to the result file. -/
structure SqlExecOpr where
  cols : Option (List Text)
  rows : Option (List (List Text))
  err : Option SqlError
  executed : List Text
  written : List Text
deriving DecidableEq

inductive PyError
  | systemExit (message : Text)
  | attributeError
  | typeError
  | valueError
deriving DecidableEq

abbrev PyM := EStateM PyError SqlExecOpr

/-- An attribute or a match that may be missing. -/
def present {α : Type} : Option α → PyM α
  | some a => pure a
  | none => throw .attributeError

def write (content : Text) : PyM Unit := modify fun self => { self with written := self.written ++ [content] }

def execute (server : Server) (sql : Text) : PyM Bool := do
  let self ← get
  set { self with executed := self.executed ++ [sql] }
  match server self.executed sql with
  | .success none => return true
  | .success (some r) =>
    modify fun self => { self with cols := some r.cols, rows := some r.rows }
    return true
  | .failure e =>
    modify fun self => { self with err := some e }
    return false
  | .unknown => return false

def colname (cols : List Text) : Text := cols.foldl (fun colname col => colname ++ col ++ ['\t']) []

/-- Every row strips what has been gathered so far. -/
def record (rows : List (List Text)) : Text :=
  rows.foldl (fun record row => strip (row.foldl (fun record column => record ++ column ++ ['\t']) record) ++ ['\n']) []

def wrongErrno (sql : Text) (err : SqlError) (errno : Int) : Text :=
  "query '".toList ++ sql ++ "' failed with wrong errno ".toList ++ (toString err.errno).toList ++ ": '".toList ++ err.msg ++
    "', instead of ".toList ++ (toString errno).toList ++ "...".toList

/-- The delimiter at the start of a file. -/
def semicolon : Text := ";".toList

def handleSql (server : Server) (delimiter line sql : Text) (errno : Int) : PyM Bool := do
  if delimiter <:+: line then
    let sql := if delimiter = semicolon then sql ++ strip line else sql ++ replaceFirst delimiter [] (strip line)
    if ← execute server sql then
      if checkSqlHasRecord sql then
        write (strip sql)
        write (strip (colname (← present (← get).cols)))
        write (strip (replace "None".toList "NULL".toList (record (← present (← get).rows))))
      else
        write (strip sql)
      return true
    else
      let err ← present (← get).err
      if errno ≠ err.errno then
        throw (.systemExit (wrongErrno sql err errno))
      -- `errno = 0` and `sql = ""` assign to parameters: nothing of it reaches the caller.
      write (strip sql)
      match err.sqlstate with
      | some sqlstate => write (strip ("ERROR ".toList ++ sqlstate ++ ": ".toList ++ err.msg))
      | none => throw .typeError
      return false
  else
    -- `sql = sql + line.lstrip()` assigns to a parameter as well.
    return true

/-- The local variables of `execute_test_file`. -/
structure Locals where
  sql : Text
  errno : Int
  delimiter : Text
  retcode : Bool
deriving DecidableEq

/-- The body of the loop over the lines. -/
def handleLine (server : Server) (v : Locals) (line : Text) : PyM Locals := do
  if strip line = [] then
    return v
  if let some m := notePattern.find line then
    write (stripBy (· == '\n') (groupText 2 m))
    return v
  else if let some m := selectNotePattern.find line then
    write (strip line)
    write (strip (groupText 1 m))
    write (strip (groupText 1 m))
    return v
  else if (disablePattern.find line).isSome ∨ (enablePattern.find line).isSome ∨ (garbagePattern.find line).isSome ∨
      (replacePattern.find line).isSome then
    return v
  else if v.delimiter = semicolon ∧ (delimiterPattern1.find line).isSome then
    return { v with delimiter := strip (groupText 1 (← present (delimiterPattern1.find line))) }
  else if v.delimiter ≠ semicolon ∧ (delimiterPattern2.find line).isSome then
    return { v with delimiter := semicolon }
  else if (errorPattern.find line).isSome ∨ (error2Pattern.find line).isSome then
    -- The number is taken from `re_error`, whichever of the two matched.
    match int (strip (groupText 1 (← present (errorPattern.find line)))) with
    | some errno => return { v with errno := errno }
    | none => throw .valueError
  else
    return { v with retcode := ← handleSql server v.delimiter line v.sql v.errno }

def Locals.start : Locals := { sql := [], errno := 0, delimiter := semicolon, retcode := true }

/-- The loop over the lines. -/
def handleLines (server : Server) (lines : List Text) : PyM Locals := lines.foldlM (handleLine server) .start

def executeTestFile (server : Server) (lines : List Text) : PyM Bool := return (← handleLines server lines).retcode

/-! ## What one line does -/

section line

variable {α : Type} {server : Server} {self : SqlExecOpr} {line sql : Text} {errno : Int} {v : Locals}

@[simp] theorem run_present_some (a : α) : (present (some a)).run self = .ok a self := rfl

@[simp] theorem run_present_none : (present none : PyM α).run self = .error .attributeError self := rfl

@[simp] theorem run_write (content : Text) : (write content).run self = .ok () { self with written := self.written ++ [content] } := rfl

variable {result : Option ResultSet} {e : SqlError}

theorem execute_success (h : server self.executed sql = .success result) :
    ∃ s, (execute server sql).run self = .ok true s ∧ s.executed = self.executed ++ [sql] ∧ (result.isSome → s.cols.isSome ∧ s.rows.isSome) := by
  cases result with
  | none => simp [execute, h]
  | some r => simp [execute, h]

theorem execute_failure (h : server self.executed sql = .failure e) :
    (execute server sql).run self = .ok false { self with executed := self.executed ++ [sql], err := some e } := by
  simp [execute, h]

theorem handleSql_pending (h : ¬ semicolon <:+: line) : (handleSql server semicolon line sql errno).run self = .ok true self := by
  simp [handleSql, h]

/-- A statement that succeeds is executed and recorded; one with records must have left its result set. -/
theorem handleSql_success (h : semicolon <:+: line) (hr : server self.executed (sql ++ strip line) = .success result)
    (hrec : checkSqlHasRecord (sql ++ strip line) → result.isSome) :
    ∃ s, (handleSql server semicolon line sql errno).run self = .ok true s ∧ s.executed = self.executed ++ [sql ++ strip line] := by
  obtain ⟨s, hs, hex, hset⟩ := execute_success hr
  by_cases hc : checkSqlHasRecord (sql ++ strip line)
  · obtain ⟨hcols, hrows⟩ := hset (hrec hc)
    obtain ⟨cols, hcols⟩ := isSome_iff_exists.1 hcols
    obtain ⟨rows, hrows⟩ := isSome_iff_exists.1 hrows
    simp [handleSql, h, hs, hc, hcols, hrows, hex]
  · simp [handleSql, h, hs, hc, hex]

section

variable (h : semicolon <:+: line) (hr : server self.executed (sql ++ strip line) = .failure e)

include h hr

theorem handleSql_failure (ht : e.sqlstate.isSome) (he : errno = e.errno) :
    ∃ s, (handleSql server semicolon line sql errno).run self = .ok false s ∧ s.executed = self.executed ++ [sql ++ strip line] := by
  obtain ⟨sqlstate, ht⟩ := isSome_iff_exists.1 ht
  simp [handleSql, h, execute_failure hr, he, ht]

theorem handleSql_wrongErrno (he : errno ≠ e.errno) :
    ∃ s, (handleSql server semicolon line sql errno).run self = .error (.systemExit (wrongErrno (sql ++ strip line) e errno)) s := by
  simp [handleSql, h, execute_failure hr, he]

end

/-- The patterns the loop looks for. -/
def directivePatterns : List Pattern :=
  [notePattern, selectNotePattern, disablePattern, enablePattern, garbagePattern, replacePattern, errorPattern, error2Pattern,
    delimiterPattern1, delimiterPattern2]

/-- A line that is neither blank nor matched by any pattern. -/
def Plain (line : Text) : Prop := strip line ≠ [] ∧ ∀ p ∈ directivePatterns, p.find line = none

theorem handleLine_plain (h : Plain line) (hd : v.delimiter = semicolon) : handleLine server v line =
      return { v with retcode := ← handleSql server semicolon line v.sql v.errno } := by
  obtain ⟨hblank, hn⟩ := h
  simp only [directivePatterns, forall_mem_cons] at hn
  obtain ⟨hnote, hselect, hdisable, henable, hgarbage, hreplace, herror, herror2, hd1, hd2, -⟩ := hn
  simp [handleLine, hblank, hnote, hselect, hdisable, henable, hgarbage, hreplace, herror, herror2, hd1, hd]

theorem numberPattern_leads (word : Text) : (numberPattern word).Leads word :=
  ⟨[spaces, .many Char.isDigit 1 true, spaces, .eol], by simp [numberPattern, outside, group, spaces]⟩

/-- The words of the two error patterns, after their first character. -/
def errorWords : List Text := ["-error".toList, "-ERROR".toList]

/-- A line that gives the number of an error is not blank and matches none of the other patterns. -/
theorem others_of_number {word : Text} (hword : word ∈ errorWords)
    (h : ((numberPattern ('-' :: word)).find line).isSome) :
    strip line ≠ [] ∧ ∀ p ∈ [notePattern, selectNotePattern, disablePattern, enablePattern, garbagePattern, replacePattern,
      delimiterPattern1, delimiterPattern2], p.find line = none := by
  have hlead := numberPattern_leads ('-' :: word)
  have key {p : Pattern} {c : Char} {w : Text} (hp : p.Leads (c :: w))
      (hc : Piece.ws c = false ∧ ∀ e ∈ errorWords, ¬ '-' :: e <+: c :: w ∧ ¬ c :: w <+: '-' :: e) : p.find line = none := by
    obtain ⟨hw, hw'⟩ := hc.2 word hword
    exact hlead.find_eq_none hp (by decide) hc.1 hw hw' h
  constructor
  · intro hblank
    have hdash := strip_eq_nil.1 hblank '-' (hlead.mem (by decide) h)
    exact absurd hdash (by decide)
  · simp only [forall_mem_cons, not_mem_nil, false_imp_iff, implies_true, and_true]
    refine ⟨?_, ?_, ?_, ?_, ?_, ?_, ?_, ?_⟩
    · exact key (c := '-') (w := "-echo".toList) ⟨_, rfl⟩ (by decide)
    · exact key (c := 's') (w := "elect".toList) ⟨_, rfl⟩ (by decide)
    · exact key (c := '-') (w := "-disable_warnings".toList) ⟨_, rfl⟩ (by decide)
    · exact key (c := '-') (w := "-enable_warnings".toList) ⟨_, rfl⟩ (by decide)
    · exact key (c := '#') (w := []) ⟨_, rfl⟩ (by decide)
    · exact key (c := '-') (w := "-replace".toList) ⟨_, rfl⟩ (by decide)
    · exact key (c := 'd') (w := "elimiter".toList) ⟨_, rfl⟩ (by decide)
    · exact key (c := 'd') (w := "elimiter".toList) ⟨_, rfl⟩ (by decide)

/-- The number that an error pattern finds in a line. -/
def numberOf (p : Pattern) (line : Text) : Option Nat := (p.find line).bind fun m => int (strip (groupText 1 m))

/-- The group of the digits is a number: `int` does not fail on it. -/
theorem numberOf_isSome {word : Text} (h : ((numberPattern word).find line).isSome) : (numberOf (numberPattern word) line).isSome := by
  obtain ⟨m, hm⟩ := isSome_iff_exists.1 h
  have hfilter : (numberPattern word).filter (·.1 = 1) = [(1, .many Char.isDigit 1 true)] := by
    simp [numberPattern, outside, group, List.filter_map]
  obtain ⟨hlen, hdigit⟩ := groupText_fits hfilter hm
  have hstrip : strip (groupText 1 m) = groupText 1 m := strip_of_forall_not fun c hc => isSpace_of_isDigit (hdigit c hc)
  obtain ⟨n, hn⟩ := int_of_digits (length_pos_iff.1 hlen) hdigit
  simp [numberOf, hm, hstrip, hn]

theorem handleLine_error {n : Nat} (h : numberOf errorPattern line = some n) :
    (handleLine server v line).run self = .ok { v with errno := n } self := by
  obtain ⟨m, hm, hn⟩ := bind_eq_some_iff.1 h
  have hsome : (errorPattern.find line).isSome := by simp [hm]
  obtain ⟨hblank, hnone⟩ := others_of_number (by decide) hsome
  simp only [forall_mem_cons] at hnone
  obtain ⟨hnote, hselect, hdisable, henable, hgarbage, hreplace, hd1, hd2, -⟩ := hnone
  simp [handleLine, hblank, hnote, hselect, hdisable, henable, hgarbage, hreplace, hd1, hd2, hm, hn]

/-- A line that only the second error pattern matches ends the run: `re_error` is `None`. -/
theorem handleLine_error2 (h : (error2Pattern.find line).isSome) (hno : errorPattern.find line = none) :
    (handleLine server v line).run self = .error .attributeError self := by
  obtain ⟨hblank, hn⟩ := others_of_number (by decide) h
  simp only [forall_mem_cons] at hn
  obtain ⟨hnote, hselect, hdisable, henable, hgarbage, hreplace, hd1, hd2, -⟩ := hn
  simp [handleLine, hblank, hnote, hselect, hdisable, henable, hgarbage, hreplace, hd1, hd2, h, hno]

end line

end CsLearning.Python
