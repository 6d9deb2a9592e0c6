import CsLearning.Lib.Text

/-!
# Texts of C++

Characters and parts of a string, the pieces of a string between separators, and numbers in decimal. A number is printed by `to_string`, and
it is read by `stoi`, which throws when there is none or when it does not fit, or by extraction from a stream, which then stores zero or the
nearest value. Both ways skip white space, take a sign and digits, and stop at the first character that is no digit.
-/

open List Nat

namespace CsLearning

/-- The values of a 32-bit `int`. -/
abbrev CInt := {v : Int // -2 ^ 31 ≤ v ∧ v < 2 ^ 31}

/-- How a call can fail: an exception of the standard library, or undefined behaviour. -/
inductive Fault where
  | invalidArgument
  | outOfRange
  | undefined
  deriving DecidableEq, Repr

@[simp] theorem Fault.ok_bind {α β : Type} (a : α) (f : α → Except Fault β) : (Except.ok a >>= f) = f a := rfl

@[simp] theorem Fault.error_bind {α β : Type} (e : Fault) (f : α → Except Fault β) : (Except.error e >>= f) = .error e := rfl

theorem CInt.clamp_mem (v : Int) : -2 ^ 31 ≤ max (-2 ^ 31) (min v (2 ^ 31 - 1)) ∧ max (-2 ^ 31) (min v (2 ^ 31 - 1)) < 2 ^ 31 := by
  omega

/-- The value nearest to an integer. -/
def CInt.clamp (v : Int) : CInt := ⟨max (-2 ^ 31) (min v (2 ^ 31 - 1)), CInt.clamp_mem v⟩

theorem CInt.clamp_coe (v : CInt) : CInt.clamp v.1 = v := by grind [CInt.clamp]

theorem CInt.pairwise_clamp_range {N : Nat} (hN : N ≤ 2 ^ 31) : ((List.range N).map fun i : Nat => CInt.clamp i).Pairwise (· < ·) := by
  rw [pairwise_map]
  refine pairwise_lt_range.imp_of_mem ?_
  intro i j hi hj hij
  rw [mem_range] at hi hj
  rw [← Subtype.coe_lt_coe]
  simp only [CInt.clamp]
  omega

/-- There are only so many `int`s. -/
theorem CInt.length_le_of_nodup {vs : List CInt} (h : vs.Nodup) : vs.length ≤ 2 ^ 32 := by
  have hnd : (vs.map Subtype.val).Nodup := h.map Subtype.val_injective
  have hsubset : (vs.map Subtype.val).toFinset ⊆ Finset.Ico (-2 ^ 31) (2 ^ 31) := by
    intro v hv
    rw [mem_toFinset, mem_map] at hv
    obtain ⟨a, -, rfl⟩ := hv
    exact Finset.mem_Ico.mpr a.2
  have hcard := Finset.card_le_card hsubset
  rw [toFinset_card_of_nodup hnd, length_map, Int.card_Ico] at hcard
  exact hcard

namespace Text

/-- `s[i]`, which is the null character at the end of the string. -/
def charAt (s : Text) (i : Nat) : Except Fault Char := if i = s.length then .ok '\x00' else s[i]?.elim (.error .undefined) .ok

/-- `s.find(c, start)`. -/
def find (s : Text) (c : Char) (start : Nat) : Option Nat := ((s.drop start).idxOf? c).map (start + ·)

/-- `s.substr(start, count)` for a `start` in the string. -/
def substr (s : Text) (start count : Nat) : Text := (s.drop start).take count

/-- `s.substr(start, count)`, which throws for a `start` behind the end. -/
def cut (s : Text) (start count : Nat) : Option Text := if start ≤ s.length then some (substr s start count) else none

/-- Where a loop that moves `i` on while `p` holds of `s[i]` stops; the end of the string stops it too. -/
def skip (p : Char → Bool) (s : Text) (i : Nat) : Nat := i + ((s.drop i).takeWhile p).length

/-- The lines that `getline` reads from a stream one after another, when `c` ends a line. -/
def getlines (c : Char) : Text → List Text
  | [] => []
  | d :: s =>
    if d = c then [] :: getlines c s
    else
      match getlines c s with
      | [] => [[d]]
      | w :: ws => (d :: w) :: ws

/-- Words with a character after each. -/
def joined (c : Char) (ws : List Text) : Text := ws.flatMap (· ++ [c])

variable {c : Char} {w : Text} {ws : List Text}

@[simp] theorem joined_nil : joined c [] = [] := rfl

@[simp] theorem joined_cons : joined c (w :: ws) = w ++ c :: joined c ws := by simp [joined]

@[simp] theorem joined_append (us : List Text) : joined c (us ++ ws) = joined c us ++ joined c ws := by simp [joined]

theorem length_le_joined (c : Char) (ws : List Text) : ws.length ≤ (joined c ws).length := by
  induction ws with
  | nil => simp
  | cons w ws ih =>
    simp only [joined_cons, length_append, length_cons]
    omega

theorem getlines_append (h : c ∉ w) (s : Text) : getlines c (w ++ c :: s) = w :: getlines c s := by
  induction w with
  | nil => simp [getlines]
  | cons d w ih =>
    simp only [mem_cons, not_or] at h
    rw [cons_append, getlines, if_neg (Ne.symm h.1), ih h.2]

/-- A last line that is not ended. -/
theorem getlines_last (h : c ∉ w) (hne : w ≠ []) : getlines c w = [w] := by
  induction w with
  | nil => exact absurd rfl hne
  | cons d w ih =>
    simp only [mem_cons, not_or] at h
    rw [getlines, if_neg (Ne.symm h.1)]
    cases w with
    | nil => rfl
    | cons e w => rw [ih h.2 (cons_ne_nil _ _)]

/-- Words that are joined by a character are the lines that it ends. -/
theorem getlines_joined (h : ∀ u ∈ ws, c ∉ u) (hw : c ∉ w) (hne : w ≠ []) : getlines c (joined c ws ++ w) = ws ++ [w] := by
  induction ws with
  | nil => exact getlines_last hw hne
  | cons u ws ih =>
    have hu : c ∉ u := h u mem_cons_self
    have hws : ∀ x ∈ ws, c ∉ x := fun x hx => h x (mem_cons_of_mem u hx)
    rw [joined_cons, append_assoc, cons_append, getlines_append hu, ih hws, cons_append]

theorem find_append {a : Text} (h : c ∉ w) (s : Text) : find (a ++ w ++ c :: s) c a.length = some (a.length + w.length) := by
  have hidx : (w ++ c :: s).idxOf? c = some w.length := by
    induction w with
    | nil => simp [idxOf?_cons]
    | cons d w ih => grind
  unfold find
  rw [append_assoc, drop_left, hidx]
  rfl

theorem find_eq_none {s : Text} : find s c s.length = none := by simp [find]

theorem substr_append (a s : Text) : substr (a ++ w ++ s) a.length w.length = w := by
  unfold substr
  rw [append_assoc, drop_left, take_left]

theorem cut_eq {s : Text} {start : Nat} (h : start ≤ s.length) (count : Nat) : cut s start count = some (substr s start count) := if_pos h

theorem length_substr {s : Text} {i n : Nat} (h : i + n ≤ s.length) : (substr s i n).length = n := by
  rw [substr, length_take, length_drop]
  omega

/-- The next part of the string, when its length is known. -/
theorem drop_eq_append_iff {s t : Text} {i n : Nat} (h : i + n ≤ s.length) (hw : w.length = n) :
    s.drop i = w ++ t ↔ substr s i n = w ∧ s.drop (i + n) = t := by
  have hsp : s.drop i = substr s i n ++ s.drop (i + n) := by
    rw [substr, ← drop_drop, take_append_drop]
  rw [hsp]
  constructor
  · grind [append_inj, length_substr]
  · rintro ⟨hfst, hr⟩
    rw [hfst, hr]

theorem skip_append {p : Char → Bool} {a s : Text} (hw : ∀ d ∈ w, p d) (hs : ∀ d ∈ s.head?, p d = false) :
    skip p (a ++ w ++ s) a.length = a.length + w.length := by
  have hstop : s.takeWhile p = [] := by
    cases s with
    | nil => rfl
    | cons d s => exact takeWhile_cons_of_neg (by simp [hs d rfl])
  unfold skip
  rw [append_assoc, drop_left, takeWhile_append_of_pos hw, hstop, append_nil]

theorem charAt_append {a s : Text} : charAt (a ++ c :: s) a.length = .ok c := by
  unfold charAt
  rw [if_neg (by simp), getElem?_append_right (Nat.le_refl _), Nat.sub_self]
  rfl

/-! ## Numbers -/

/-- `isspace` in the C locale. -/
def isCSpace (c : Char) : Bool := c == ' ' || (9 ≤ c.toNat && c.toNat ≤ 13)

/-- `to_string` of an `int`. -/
def toString (v : CInt) : Text := (if v.1 < 0 then ['-'] else []) ++ Nat.toDigits 10 v.1.natAbs

/-- The sign and the digits at the front of a text, after white space. -/
def signed (s : Text) : Bool × Text :=
  match s.dropWhile isCSpace with
  | '-' :: s => (true, s.takeWhile Char.isDigit)
  | '+' :: s => (false, s.takeWhile Char.isDigit)
  | s => (false, s.takeWhile Char.isDigit)

/-- The number at the front of a text, if there is one. -/
def number (s : Text) : Option Int :=
  if (signed s).2 = [] then none
  else some (if (signed s).1 then -(Nat.ofDigitChars 10 (signed s).2 0 : Int) else Nat.ofDigitChars 10 (signed s).2 0)

def stoi (s : Text) : Except Fault CInt :=
  match number s with
  | none => .error .invalidArgument
  | some v => if h : -2 ^ 31 ≤ v ∧ v < 2 ^ 31 then .ok ⟨v, h⟩ else .error .outOfRange

/-- What `ss >> i` stores in `i`. -/
def extract (s : Text) : CInt := CInt.clamp ((number s).getD 0)

/-! ## Reading what was printed -/

theorem takeWhile_digits {n : Nat} {rest : Text} (h : ∀ c ∈ rest.head?, c.isDigit = false) :
    (toDigits 10 n ++ rest).takeWhile Char.isDigit = toDigits 10 n := by
  have hdigits : ∀ c ∈ toDigits 10 n, c.isDigit := fun c hc => isDigit_of_mem_toDigits (by decide) (by decide) hc
  rw [takeWhile_append_of_pos hdigits]
  cases rest with
  | nil => simp
  | cons c rest => simp [h c rfl]

theorem of_isDigit {c : Char} (h : c.isDigit) : isCSpace c = false ∧ c ≠ '-' ∧ c ≠ '+' := by
  simp only [Char.isDigit, Bool.and_eq_true, decide_eq_true_eq, ge_iff_le] at h
  have h₁ : 48 ≤ c.toNat := h.1
  have hne : ∀ d : Char, d.toNat < 48 → c ≠ d := by
    intro d hd hc
    subst hc
    omega
  refine ⟨?_, hne '-' (by decide), hne '+' (by decide)⟩
  have hsp : (c == ' ') = false := beq_false_of_ne (hne ' ' (by decide))
  simp only [isCSpace, hsp, Bool.false_or, Bool.and_eq_false_iff, decide_eq_false_iff_not]
  omega

theorem signed_digits {n : Nat} {rest : Text} (h : ∀ c ∈ rest.head?, c.isDigit = false) :
    signed (toDigits 10 n ++ rest) = (false, toDigits 10 n) := by
  obtain ⟨d, ds, hds⟩ : ∃ d ds, toDigits 10 n = d :: ds := exists_cons_of_ne_nil toDigits_ne_nil
  have hd : d.isDigit := isDigit_of_mem_toDigits (b := 10) (n := n) (by decide) (by decide) (by simp [hds])
  obtain ⟨hs, hm, hp⟩ := of_isDigit hd
  have ht := takeWhile_digits (n := n) h
  rw [hds, cons_append] at ht ⊢
  unfold signed
  rw [dropWhile_cons_of_neg (by simp [hs])]
  split
  · rename_i heq
    exact absurd (cons.inj heq).1 hm
  · rename_i heq
    exact absurd (cons.inj heq).1 hp
  · rw [ht]

theorem signed_toString (v : CInt) {rest : Text} (h : ∀ c ∈ rest.head?, c.isDigit = false) :
    signed (toString v ++ rest) = (decide (v.1 < 0), toDigits 10 v.1.natAbs) := by
  unfold toString
  by_cases hv : v.1 < 0
  · have hd : (['-'] ++ toDigits 10 v.1.natAbs ++ rest).dropWhile isCSpace = '-' :: (toDigits 10 v.1.natAbs ++ rest) := rfl
    rw [if_pos hv]
    unfold signed
    rw [hd]
    simp only
    rw [takeWhile_digits h, decide_eq_true hv]
  · rw [if_neg hv, nil_append, signed_digits h, decide_eq_false hv]

/-- The number at the front of a printed value, whatever comes after it that is no digit. -/
theorem number_toString (v : CInt) {rest : Text} (h : ∀ c ∈ rest.head?, c.isDigit = false) : number (toString v ++ rest) = some v.1 := by
  unfold number
  rw [signed_toString v h, if_neg toDigits_ne_nil, ofDigitChars_ten_toDigits]
  by_cases hv : v.1 < 0
  · grind
  · grind

theorem stoi_toString (v : CInt) : stoi (toString v) = .ok v := by
  have hn := @number_toString v [] (by simp)
  rw [append_nil] at hn
  unfold stoi
  rw [hn]
  exact dif_pos v.2

theorem extract_toString (v : CInt) : extract (toString v) = v := by
  have hn := @number_toString v [] (by simp)
  rw [append_nil] at hn
  unfold extract
  rw [hn]
  exact CInt.clamp_coe v

theorem mem_toString {v : CInt} {c : Char} (h : c ∈ toString v) : c = '-' ∨ c.isDigit := by
  unfold toString at h
  rw [mem_append] at h
  rcases h with h | h
  · left
    split at h
    · simpa using h
    · simp at h
  · exact Or.inr (isDigit_of_mem_toDigits (by decide) (by decide) h)

theorem toString_ne_nil (v : CInt) : toString v ≠ [] := by grind [toString, toDigits_ne_nil]

end Text

end CsLearning
