import Mathlib

/-!
# Texts and patterns

Texts are lists of characters, with the string methods of Python 2 on unicode strings. A pattern is the sequence of pieces of a
regular expression without alternatives; `Pattern.find` tries the ways its pieces can match in the order of a backtracking matcher.
-/

open List

namespace CsLearning

abbrev Text := List Char

namespace Text

/-- The characters that `strip` removes. -/
def isSpace (c : Char) : Bool :=
  let n := c.toNat
  (9 ≤ n && n ≤ 13) || (28 ≤ n && n ≤ 32) || n == 0x85 || n == 0xA0 || n == 0x1680 || n == 0x180E ||
    (0x2000 ≤ n && n ≤ 0x200A) || n == 0x2028 || n == 0x2029 || n == 0x202F || n == 0x205F || n == 0x3000

def lstrip (s : Text) : Text := s.dropWhile isSpace

def stripBy (p : Char → Bool) (s : Text) : Text := (s.dropWhile p).rdropWhile p

def strip (s : Text) : Text := stripBy isSpace s

/-- `replace(old, new, 1)`. -/
def replaceFirst (old new : Text) : Text → Text
  | [] => if old = [] then new else []
  | c :: s => if old <+: c :: s then new ++ (c :: s).drop old.length else c :: replaceFirst old new s

/-- `replace(old, new)` for an `old` that is not empty; the number says how many characters of an occurrence are still to be
passed over. -/
def replaceFrom (old new : Text) : Nat → Text → Text
  | _, [] => []
  | k + 1, _ :: s => replaceFrom old new k s
  | 0, c :: s => if old <+: c :: s then new ++ replaceFrom old new (old.length - 1) s else c :: replaceFrom old new 0 s

def replace (old new s : Text) : Text := replaceFrom old new 0 s

/-- `int` of a text of digits. -/
def int (s : Text) : Option Nat :=
  if s ≠ [] ∧ s.all Char.isDigit then some (s.foldl (fun n c => 10 * n + (c.toNat - '0'.toNat)) 0) else none

theorem strip_eq_nil {s : Text} : strip s = [] ↔ ∀ c ∈ s, isSpace c := by
  simp only [strip, stripBy, rdropWhile_eq_nil_iff]
  constructor
  · intro h
    have hnil : s.dropWhile isSpace = [] := by
      by_contra hne
      have hh := head_dropWhile_not isSpace hne
      rw [h _ (head_mem hne)] at hh
      exact Bool.noConfusion hh
    exact dropWhile_eq_nil_iff.1 hnil
  · intro h c hc
    exact h c ((dropWhile_suffix _).mem hc)

theorem strip_isInfix (s : Text) : strip s <:+: s := ( rdropWhile_prefix isSpace _).isInfix.trans (dropWhile_suffix isSpace).isInfix

theorem strip_of_forall_not {s : Text} (h : ∀ c ∈ s, isSpace c = false) : strip s = s := by
  have hd : s.dropWhile isSpace = s := by
    cases s with
    | nil => rfl
    | cons c s => exact dropWhile_cons_of_neg (by simp [h c])
  simp only [strip, stripBy, hd]
  rw [rdropWhile_eq_self_iff]
  intro hne
  simp [h _ (getLast_mem hne)]

theorem isSpace_of_isDigit {c : Char} (h : c.isDigit) : isSpace c = false := by
  simp only [Char.isDigit, Bool.and_eq_true, decide_eq_true_eq, ge_iff_le] at h
  have h1 : 48 ≤ c.toNat := h.1
  have h2 : c.toNat ≤ 57 := h.2
  simp only [isSpace, Bool.or_eq_false_iff, Bool.and_eq_false_iff, decide_eq_false_iff_not, beq_eq_false_iff_ne]
  omega

theorem int_of_digits {s : Text} (hne : s ≠ []) (h : ∀ c ∈ s, c.isDigit) : ∃ n, int s = some n := by
  refine ⟨_, if_pos ⟨hne, ?_⟩⟩
  simpa using h

end Text

open Text

/-- A piece of a regular expression: a character of a class, a class repeated, `$`. -/
inductive Piece
  | one (p : Char → Bool)
  | many (p : Char → Bool) (least : Nat) (greedy : Bool)
  | eol

namespace Piece

/-- `\s`, `\d` and `.` without flags. -/
def ws (c : Char) : Bool := (9 ≤ c.toNat && c.toNat ≤ 13) || c.toNat == 32

def dot (c : Char) : Bool := c != '\n'

/-- The ways a piece can match at the start of a text, with the rest of the text, in the order they are tried. -/
def ways : Piece → Text → List (Text × Text)
  | one _, [] => []
  | one p, c :: s => if p c then [([c], s)] else []
  | many p least greedy, s =>
    let lengths := (List.range ((s.takeWhile p).length + 1)).filter (least ≤ ·)
    (if greedy then lengths.reverse else lengths).map s.splitAt
  | eol, s => if s = [] ∨ s = ['\n'] then [([], s)] else []

/-- What a text matched by the piece is like. -/
def Fits : Piece → Text → Prop
  | one p, m => ∃ c, m = [c] ∧ p c
  | many p least _, m => least ≤ m.length ∧ ∀ c ∈ m, p c
  | eol, m => m = []

theorem ways_sound {q : Piece} {s m rest : Text} (h : (m, rest) ∈ q.ways s) : s = m ++ rest ∧ q.Fits m := by
  cases q with
  | one p =>
    cases s with
    | nil => simp [ways] at h
    | cons c s =>
      obtain ⟨hc, rfl, rfl⟩ : p c ∧ m = [c] ∧ rest = s := by simpa [ways] using h
      exact ⟨rfl, c, rfl, hc⟩
  | many p least greedy =>
    obtain ⟨n, hn, heq⟩ : ∃ n, (n < (s.takeWhile p).length + 1 ∧ least ≤ n) ∧ s.splitAt n = (m, rest) := by
      cases greedy <;> simpa [ways] using h
    obtain ⟨rfl, rfl⟩ : s.take n = m ∧ s.drop n = rest := by simpa using heq
    refine ⟨(take_append_drop n s).symm, ?_, ?_⟩
    · grind [ takeWhile_prefix]
    · intro c hc
      -- The first `n` characters are among those `takeWhile` keeps.
      have hpre : s.take n <+: s.takeWhile p := prefix_of_prefix_length_le ( take_prefix n s) ( takeWhile_prefix p) (by rw [length_take]; omega)
      exact mem_takeWhile_imp (hpre.mem hc)
  | eol =>
    obtain ⟨-, rfl, rfl⟩ : (s = [] ∨ s = ['\n']) ∧ m = [] ∧ rest = s := by simpa [ways] using h
    exact ⟨rfl, rfl⟩

end Piece

/-- A regular expression: its pieces, each with the number of the group it stands in (0: outside every group). -/
abbrev Pattern := List (Nat × Piece)

namespace Pattern

def group (k : Nat) (ps : List Piece) : Pattern := ps.map (k, ·)

def outside (ps : List Piece) : Pattern := group 0 ps

/-- A word, character by character. -/
def lit (w : Text) : List Piece := w.map fun c => .one (· == c)

/-- A word in lower case, matched with the flag `re.I`. -/
def litI (w : Text) : List Piece := w.map fun c => .one (fun d => d.toLower == c)

/-- `re.match`: what each piece matched, on the first way that matches them all. -/
def find : Pattern → Text → Option (List (Nat × Text))
  | [], _ => some []
  | (k, q) :: ps, s => (q.ways s).findSome? fun w => (find ps w.2).map ((k, w.1) :: ·)

/-- The text of a group. -/
def groupText (k : Nat) (ms : List (Nat × Text)) : Text := ((ms.filter (·.1 = k)).map (·.2)).flatten

variable {ms : List (Nat × Text)}

/-- Each piece fits what it matched, and the matched texts make up the start of the whole. -/
theorem find_sound {p : Pattern} {s : Text} (h : p.find s = some ms) :
    ∃ rest, s = (ms.map (·.2)).flatten ++ rest ∧ List.Forall₂ (fun q m => q.1 = m.1 ∧ q.2.Fits m.2) p ms := by
  induction p generalizing s ms with
  | nil =>
    obtain rfl : [] = ms := by simpa [find] using h
    exact ⟨s, rfl, .nil⟩
  | cons q ps ih =>
    obtain ⟨w, hw, hms⟩ := exists_of_findSome?_eq_some h
    obtain ⟨ms', hfind, rfl⟩ := Option.map_eq_some_iff.1 hms
    obtain ⟨hs, hf⟩ := Piece.ways_sound hw
    obtain ⟨rest, hr, hall⟩ := ih hfind
    refine ⟨rest, ?_, .cons ⟨rfl, hf⟩ hall⟩
    rw [hs, hr]
    simp

theorem flatten_of_lit {w : Text} {ts : List Text} (h : List.Forall₂ Piece.Fits (lit w) ts) : ts.flatten = w := by
  induction w generalizing ts with
  | nil =>
    cases h
    rfl
  | cons c w ih =>
    obtain ⟨t, ts', ht, hts, rfl⟩ := forall₂_cons_left_iff.1 h
    obtain ⟨d, rfl, hd⟩ := ht
    rw [flatten_cons, ih hts, beq_iff_eq.1 hd]
    rfl

/-- The pattern begins with `\s*` and the word. -/
def Leads (p : Pattern) (w : Text) : Prop := ∃ ps, p.map Prod.snd = .many Piece.ws 0 true :: (lit w ++ ps)

section leads

variable {p p' : Pattern} {c c' : Char} {w w' s : Text}

theorem Leads.isPrefix (hp : p.Leads (c :: w)) (hc : Piece.ws c = false) (h : (p.find s).isSome) : c :: w <+: s.dropWhile Piece.ws := by
  obtain ⟨ps, hp⟩ := hp
  obtain ⟨ms, h⟩ := Option.isSome_iff_exists.1 h
  obtain ⟨rest, hs, hall⟩ := find_sound h
  have hf : List.Forall₂ Piece.Fits (.many Piece.ws 0 true :: (lit (c :: w) ++ ps)) (ms.map Prod.snd) := by
    rw [← hp, forall₂_map_left_iff, forall₂_map_right_iff]
    exact hall.imp fun _ _ hq => hq.2
  obtain ⟨m, ts, hm, hts, hms⟩ := forall₂_cons_left_iff.1 hf
  have hword : (ts.take (lit (c :: w)).length).flatten = c :: w := by
    apply flatten_of_lit
    simpa using forall₂_take (lit (c :: w)).length hts
  rw [hms, flatten_cons, ← take_append_drop (lit (c :: w)).length ts, flatten_append, hword] at hs
  rw [hs, append_assoc, append_assoc, dropWhile_append_of_pos (fun d hd => hm.2 d hd), cons_append, dropWhile_cons_of_neg (by simp [hc])]
  exact ⟨_, rfl⟩

theorem Leads.mem (hp : p.Leads (c :: w)) (hc : Piece.ws c = false) (h : (p.find s).isSome) : c ∈ s :=
  (dropWhile_suffix _).mem ((hp.isPrefix hc h).mem mem_cons_self)

/-- Two patterns that begin with different words do not match the same text. -/
theorem Leads.find_eq_none (hp : p.Leads (c :: w)) (hp' : p'.Leads (c' :: w')) (hc : Piece.ws c = false)
    (hc' : Piece.ws c' = false) (hw : ¬ c :: w <+: c' :: w') (hw' : ¬ c' :: w' <+: c :: w) (h : (p.find s).isSome) :
    p'.find s = none := by
  by_contra hsome
  have hpre := hp.isPrefix hc h
  have hpre' := hp'.isPrefix hc' (Option.isSome_iff_ne_none.2 hsome)
  cases prefix_or_prefix_of_prefix hpre hpre' with
  | inl hle => exact hw hle
  | inr hle => exact hw' hle

end leads

theorem groupText_fits {p : Pattern} {k : Nat} {q : Piece} {s : Text}
    (hp : p.filter (·.1 = k) = [(k, q)]) (h : p.find s = some ms) : q.Fits (groupText k ms) := by
  obtain ⟨rest, -, hall⟩ := find_sound h
  have hfilter := rel_filter (p := fun x => decide (x.1 = k)) (q := fun x => decide (x.1 = k)) (by intro a b hab; simp [hab.1]) hall
  rw [hp] at hfilter
  obtain ⟨m, ts, hm, hts, hms⟩ := forall₂_cons_left_iff.1 hfilter
  cases hts
  simpa [groupText, hms] using hm.2

end Pattern

end CsLearning
