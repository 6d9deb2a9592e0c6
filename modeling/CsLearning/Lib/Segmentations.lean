import Mathlib

/-!
# Lists that are put together from words

A list is built from words when it is a concatenation of them. A covering cuts a list into words and single letters, and what it costs is the
number of its letters.
-/

open List

namespace CsLearning

variable {α : Type} {words : List (List α)} {s t w : List α}

/-! ## Concatenations of words -/

/-- A concatenation of zero or more words. -/
def Built (words : List (List α)) (s : List α) : Prop := ∃ ws : List (List α), (∀ w ∈ ws, w ∈ words) ∧ ws.flatten = s

theorem built_nil (words : List (List α)) : Built words [] := ⟨[], by simp, rfl⟩

theorem Built.append (hw : w ∈ words) (h : Built words t) : Built words (w ++ t) := by
  obtain ⟨ws, hws, hflat⟩ := h
  refine ⟨w :: ws, ?_, ?_⟩
  · grind
  · rw [flatten_cons, hflat]

/-- A list that is not empty begins with a word that is not empty. -/
theorem Built.exists_word (h : Built words s) (hs : s ≠ []) : ∃ w ∈ words, w ≠ [] ∧ ∃ t, s = w ++ t ∧ Built words t := by
  obtain ⟨ws, hws, hflat⟩ := h
  induction ws with
  | nil => exact absurd hflat.symm hs
  | cons w ws ih =>
    have hr : ∀ v ∈ ws, v ∈ words := fun v hv => hws v (mem_cons_of_mem w hv)
    by_cases hw : w = []
    · rw [hw] at hflat
      exact ih hr hflat
    · exact ⟨w, hws w mem_cons_self, hw, ws.flatten, hflat.symm, ws, hr, rfl⟩

/-! ## Coverings by words and letters -/

/-- A part of a covering: a word, or a letter that belongs to no word. -/
inductive Segment (α : Type) where
  | word (w : List α)
  | letter (c : α)

namespace Segment

def text : Segment α → List α
  | word w => w
  | letter c => [c]

def cost : Segment α → Nat
  | word _ => 0
  | letter _ => 1

@[simp] theorem text_word (w : List α) : (word w).text = w := rfl

@[simp] theorem text_letter (c : α) : (letter c).text = [c] := rfl

@[simp] theorem cost_word (w : List α) : (word w).cost = 0 := rfl

@[simp] theorem cost_letter (c : α) : (letter c).cost = 1 := rfl

end Segment

/-- The pieces make up the list, and every word among them is one of `words`. -/
def Covers (words : List (List α)) (ps : List (Segment α)) (s : List α) : Prop := (∀ w, .word w ∈ ps → w ∈ words) ∧ ps.flatMap Segment.text = s

/-- The number of letters in a covering. -/
def letters (ps : List (Segment α)) : Nat := (ps.map Segment.cost).sum

/-- What the coverings of a list cost. -/
def Costs (words : List (List α)) (s : List α) : Set Nat := {n | ∃ ps, Covers words ps s ∧ letters ps = n}

variable {ps : List (Segment α)} {p : Segment α}

@[simp] theorem letters_nil : letters ([] : List (Segment α)) = 0 := rfl

@[simp] theorem letters_concat : letters (ps ++ [p]) = letters ps + p.cost := by simp [letters]

theorem covers_nil (words : List (List α)) : Covers words [] [] := ⟨by simp, rfl⟩

theorem covers_concat : Covers words (ps ++ [p]) s ↔ (∀ w, p = .word w → w ∈ words) ∧ ∃ t, Covers words ps t ∧ s = t ++ p.text := by
  unfold Covers
  constructor
  · grind
  · intro h
    obtain ⟨hp, t, ⟨hwords, hflat⟩, hs⟩ := h
    refine ⟨?_, ?_⟩
    · grind
    · rw [hs, ← hflat]
      simp

namespace Costs

variable {n : Nat}

theorem nil (words : List (List α)) : 0 ∈ Costs words [] := ⟨[], covers_nil words, rfl⟩

theorem word (h : n ∈ Costs words t) (hw : w ∈ words) : n ∈ Costs words (t ++ w) := by
  obtain ⟨ps, hps, hn⟩ := h
  refine ⟨ps ++ [.word w], covers_concat.2 ⟨?_, t, hps, rfl⟩, ?_⟩
  · intro v hv
    cases hv
    exact hw
  · rw [letters_concat, hn, Segment.cost_word, Nat.add_zero]

theorem letter (h : n ∈ Costs words t) (c : α) : n + 1 ∈ Costs words (t ++ [c]) := by
  obtain ⟨ps, hps, hn⟩ := h
  refine ⟨ps ++ [.letter c], covers_concat.2 ⟨?_, t, hps, rfl⟩, ?_⟩
  · intro v hv
    cases hv
  · rw [letters_concat, hn, Segment.cost_letter]

/-- A covering of a list that is not empty ends with a letter, or with a word that is not empty; empty words behind it do not count. -/
theorem exists_last (h : n ∈ Costs words s) (hs : s ≠ []) :
    (∃ t c m, s = t ++ [c] ∧ m ∈ Costs words t ∧ n = m + 1) ∨ ∃ w ∈ words, w ≠ [] ∧ ∃ t, s = t ++ w ∧ n ∈ Costs words t := by
  obtain ⟨ps, hps, hn⟩ := h
  induction ps using List.reverseRecOn generalizing s with
  | nil => exact absurd hps.2.symm hs
  | append_singleton ps p ih =>
    obtain ⟨hp, t, ht, heq⟩ := covers_concat.1 hps
    rw [letters_concat] at hn
    cases p with
    | letter c => exact Or.inl ⟨t, c, letters ps, heq, ⟨ps, ht, rfl⟩, hn.symm⟩
    | word w =>
      rw [Segment.cost_word] at hn
      rw [Segment.text_word] at heq
      by_cases hw : w = []
      · grind
      · exact Or.inr ⟨w, hp w rfl, hw, t, heq, ps, ht, hn⟩

end Costs

end CsLearning
