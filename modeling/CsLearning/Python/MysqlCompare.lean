import CsLearning.Lib.Text

/-!
# Comparing result files

`compare_test_file` of `mysql_execute.py`. The normal file is read as a list of unicode lines, the prepare file line by line as bytes. The loop
is over the lines of the normal file only, so the lines that the prepare file has behind them are never read.
-/

open List

namespace CsLearning.Python

open Text

/-! ## The function of the source -/

/-- A string of Python 2, which is one of bytes. -/
abbrev Bytes := List UInt8

/-- The bytes that `strip` removes. -/
def isSpaceByte (b : UInt8) : Bool := (9 ≤ b && b ≤ 13) || b == 32

def stripBytes (s : Bytes) : Bytes := (s.dropWhile isSpaceByte).rdropWhile isSpaceByte

/-- `encode('utf-8')`. -/
def encode (s : Text) : Bytes := s.flatMap String.utf8EncodeChar

def newline : Bytes := [10]

/-- A file that is read as bytes. A line has at least the byte that ends it, or is the last one and not empty. -/
structure ByteFile where
  lines : List Bytes
  ne_nil : ∀ line ∈ lines, line ≠ []

/-- `readline`: the next line, or an empty one at the end, and the lines after it. -/
def readline : List Bytes → Bytes × List Bytes
  | [] => ([], [])
  | line :: lines => (line, lines)

/-- What is printed: two lines that differ, with the number of the line; a line for which the prepare file has none; the message for
an exception; the verdict. -/
inductive Report where
  | differ (linenum : Nat) (normal prepare : Bytes)
  | missing (linenum : Nat) (normal : Text)
  | unknownError
  | pass
  | fail
  deriving DecidableEq, Repr

/-- The variables of the loop, with the lines of the prepare file that are still to be read and what was printed; `raised` says that the
loop was left by an exception. -/
structure Comparison where
  ret : Bool
  linenum : Nat
  rest : List Bytes
  printed : List Report
  raised : Bool
  deriving DecidableEq, Repr

/-- The loop over the lines of the normal file. A unicode line is printed when `printable` says that the terminal has an encoding for it, else the
print raises an exception. -/
def compareLines (printable : Text → Bool) : List Text → Comparison → Comparison
  | [], s => s
  | normalLine :: lines, s =>
    let linenum := s.linenum + 1
    let (prepareLine, rest) := readline s.rest
    if prepareLine ≠ [] then
      let prepareLine := stripBytes prepareLine ++ newline
      let normalBytes := stripBytes (encode normalLine) ++ newline
      if prepareLine ≠ normalBytes then
        compareLines printable lines ⟨false, linenum, rest, s.printed ++ [.differ linenum normalBytes prepareLine], s.raised⟩
      else compareLines printable lines ⟨s.ret, linenum, rest, s.printed, s.raised⟩
    else if printable normalLine then ⟨false, linenum, rest, s.printed ++ [.missing linenum normalLine], s.raised⟩
    else ⟨s.ret, linenum, rest, s.printed, true⟩

/-- What `compare_test_file` returns, whether it removed the prepare file, and what it printed. -/
structure Verdict where
  returned : Bool
  removed : Bool
  printed : List Report
  deriving DecidableEq, Repr

def compareTestFile (printable : Text → Bool) (prepare : ByteFile) (normal : List Text) : Verdict :=
  let s := compareLines printable normal ⟨true, 0, prepare.lines, [], false⟩
  if s.raised then ⟨false, false, s.printed ++ [.unknownError]⟩
  else if s.ret then ⟨true, true, s.printed ++ [.pass]⟩
  else ⟨false, false, s.printed ++ [.fail]⟩

/-! ## What it compares -/

/-- A line of the normal file and one of the prepare file are equal after stripping. -/
def SameLine (normalLine : Text) (prepareLine : Bytes) : Prop := stripBytes (encode normalLine) = stripBytes prepareLine

/-- The comparison is exact: the call returns true when the files have the same number of lines and corresponding ones are equal after
stripping, and else it returns false and keeps the prepare file. -/
def ComparesExactly (printable : Text → Bool) (prepare : ByteFile) (normal : List Text) : Prop :=
  ((compareTestFile printable prepare normal).returned = true ↔ List.Forall₂ SameLine normal prepare.lines) ∧
    (¬List.Forall₂ SameLine normal prepare.lines →
      (compareTestFile printable prepare normal).returned = false ∧ (compareTestFile printable prepare normal).removed = false)

/-- The loop ends well when every line of the normal file has an equal one, and it was well before. -/
theorem compareLines_spec (printable : Text → Bool) (normal : List Text) (s : Comparison) (hls : ∀ line ∈ s.rest, line ≠ [])
    (hraised : s.raised = false) :
    (compareLines printable normal s).raised = false ∧ (compareLines printable normal s).ret = true ↔
      s.ret = true ∧ List.Forall₂ SameLine normal (s.rest.take normal.length) := by
  induction normal generalizing s with
  | nil => simp [compareLines, hraised]
  | cons normalLine normal ih =>
    obtain ⟨ret, linenum, rest, printed, raised⟩ := s
    change raised = false at hraised
    cases rest with
    | nil =>
      -- the prepare file has ended
      by_cases hprint : printable normalLine = true
      · simp [compareLines, readline, hprint]
      · simp [compareLines, readline, hprint]
    | cons prepareLine rest =>
      have hne : prepareLine ≠ [] := hls _ mem_cons_self
      have hr : ∀ line ∈ rest, line ≠ [] := fun line hl => hls line (mem_cons_of_mem _ hl)
      rw [length_cons, take_succ_cons, forall₂_cons]
      by_cases hsame : SameLine normalLine prepareLine
      · have hbytes : stripBytes prepareLine ++ newline = stripBytes (encode normalLine) ++ newline := by rw [hsame]
        have hs : compareLines printable (normalLine :: normal) ⟨ret, linenum, prepareLine :: rest, printed, raised⟩ =
            compareLines printable normal ⟨ret, linenum + 1, rest, printed, raised⟩ := by
          rw [compareLines]
          simp [readline, hne, hbytes]
        rw [hs, ih _ hr hraised, and_iff_right hsame]
      · have hbytes : stripBytes prepareLine ++ newline ≠ stripBytes (encode normalLine) ++ newline := by
          intro heq
          exact hsame (append_cancel_right heq).symm
        have hs : compareLines printable (normalLine :: normal) ⟨ret, linenum, prepareLine :: rest, printed, raised⟩ =
            compareLines printable normal ⟨false, linenum + 1, rest,
              printed ++ [.differ (linenum + 1) (stripBytes (encode normalLine) ++ newline) (stripBytes prepareLine ++ newline)], raised⟩ := by
          rw [compareLines]
          simp only [readline, hne, hbytes, ne_eq, not_false_eq_true, if_true]
        rw [hs, ih _ hr hraised]
        simp [hsame]

theorem compareTestFile_eq (printable : Text → Bool) (prepare : ByteFile) (normal : List Text) :
    ((compareTestFile printable prepare normal).returned = true ↔ List.Forall₂ SameLine normal (prepare.lines.take normal.length)) ∧
      (compareTestFile printable prepare normal).removed = (compareTestFile printable prepare normal).returned := by
  have hspec := compareLines_spec printable normal ⟨true, 0, prepare.lines, [], false⟩ prepare.ne_nil rfl
  rw [and_iff_right rfl] at hspec
  rw [← hspec]
  unfold compareTestFile
  dsimp only
  split_ifs with hraised hret
  · simp [hraised]
  · simp [hraised, hret]
  · simp [hret]

/-- The comparison is exact unless the prepare file has more lines than the normal one and is equal to it as far as that goes. -/
theorem compare_exact_iff (printable : Text → Bool) (prepare : ByteFile) (normal : List Text) :
    ComparesExactly printable prepare normal ↔
      prepare.lines.length ≤ normal.length ∨ ¬List.Forall₂ SameLine normal (prepare.lines.take normal.length) := by
  obtain ⟨hreturned, hremoved⟩ := compareTestFile_eq printable prepare normal
  unfold ComparesExactly
  rw [hreturned, hremoved, and_self]
  by_cases hlen : prepare.lines.length ≤ normal.length
  · refine iff_of_true ?_ (Or.inl hlen)
    rw [take_of_length_le hlen] at hreturned ⊢
    refine ⟨Iff.rfl, ?_⟩
    intro hdiffer
    exact Bool.eq_false_iff.mpr fun htrue => hdiffer (hreturned.mp htrue)
  · -- the files have different numbers of lines
    have hdiffer : ¬List.Forall₂ SameLine normal prepare.lines := by
      intro hall
      have := hall.length_eq
      omega
    rw [or_iff_right hlen, iff_false_right hdiffer, ← hreturned, Bool.not_eq_true]
    exact ⟨fun h => h.1, fun h => ⟨h, fun _ => h⟩⟩

/-- Two lines in the prepare file, one of them in the normal file: the call returns true and removes the prepare file. -/
theorem compare_exact_extra_line :
    compareTestFile (fun _ => true) ⟨[[97, 10], [98, 10]], by decide⟩ ["a\n".toList] = ⟨true, true, [.pass]⟩ ∧
      ¬ComparesExactly (fun _ => true) ⟨[[97, 10], [98, 10]], by decide⟩ ["a\n".toList] := by
  have hrun : compareTestFile (fun _ => true) ⟨[[97, 10], [98, 10]], by decide⟩ ["a\n".toList] = ⟨true, true, [.pass]⟩ := by
    decide +kernel
  refine ⟨hrun, ?_⟩
  rintro ⟨hreturned, -⟩
  rw [hrun] at hreturned
  have hlen := (hreturned.mp rfl).length_eq
  exact absurd hlen (by decide)

end CsLearning.Python
