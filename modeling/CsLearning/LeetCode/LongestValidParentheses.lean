import CsLearning.Lib.Brackets
import CsLearning.Lib.Loop
import CsLearning.Lib.Text

/-!
# Longest valid parentheses

Problem 32: the stack of characters that have found no partner, and the two scans with counters. The stack keeps the ends of balanced stretches, so
what is on top of it tells where the longest one that ends here begins. A scan finds the stretches that end at the lowest height so far; the longest
stretch is one of these from one of the two ends.
-/

open List Nat

namespace CsLearning.LeetCode.LongestValidParentheses

/-! ## The code -/

/-- The variables of the solution with a stack. -/
structure StackState where
  mystack : List (Char × Nat)
  len : Int
  maxlen : Int

/-- The body of its loop, for the character `s[index]`. -/
def stackStep (st : StackState) : Char × Nat → StackState
  | (c, index) =>
    if c = '(' then { st with mystack := ('(', index) :: st.mystack }
    else
      match st.mystack with
      | [] => { st with mystack := [(')', index)] }
      | (top, _) :: rest =>
        if '(' = top then
          let len : Int := match rest with
            | [] => index + 1
            | (_, second) :: _ => index - second
          { mystack := rest, len := len, maxlen := max st.maxlen len }
        else { st with mystack := (')', index) :: st.mystack }

/-- `longestValidParentheses(s)` with a stack. -/
def Stack.longestValidParentheses (s : Text) : Int := (s.zipIdx.foldl stackStep ⟨[], 0, 0⟩).maxlen

/-- The variables of the solution with two counters. -/
structure Counters where
  left : Nat
  right : Nat
  maxlen : Nat

/-- A character is counted. -/
def Counters.count (st : Counters) (x : Char) : Counters := if '(' = x then { st with left := st.left + 1 } else { st with right := st.right + 1 }

/-- The body of the loop from the left. -/
def Counters.forward (st : Counters) (x : Char) : Counters :=
  let st := st.count x
  if st.left = st.right then { st with maxlen := max st.maxlen (2 * st.left) }
  else if st.right > st.left then { st with left := 0, right := 0 }
  else st

/-- The body of the loop from the right. -/
def Counters.backward (st : Counters) (x : Char) : Counters :=
  let st := st.count x
  if st.left = st.right then { st with maxlen := max st.maxlen (2 * st.left) }
  else if st.left > st.right then { st with left := 0, right := 0 }
  else st

/-- `longestValidParentheses(s)` with two counters. -/
def longestValidParentheses (s : Text) : Nat :=
  let st := s.foldl Counters.forward ⟨0, 0, 0⟩
  (s.reverse.foldl Counters.backward { st with left := 0, right := 0 }).maxlen

/-! ## The longest stretches up to a place -/

variable {s : Text} {i e m p : Nat} {c x : Char} {st rest : List (Char × Nat)}

/-- The lengths of the level stretches that end at `e` or before. -/
def lengths (s : Text) (e : Nat) : Set Nat := {n | ∃ i, i + n ≤ e ∧ Level '(' s i (i + n)}

theorem lengths_zero (s : Text) : IsGreatest (lengths s 0) 0 := by
  refine ⟨⟨0, le_rfl, Level.refl (zero_le _)⟩, ?_⟩
  rintro n ⟨i, hi, -⟩
  exact (le_add_left n i).trans hi

theorem lengths_succ (h : IsGreatest (lengths s e) m) (hb : Level '(' s i (e + 1)) (hlongest : ∀ k, Level '(' s k (e + 1) → i ≤ k) :
    IsGreatest (lengths s (e + 1)) (max m (e + 1 - i)) := by
  constructor
  · rcases le_total m (e + 1 - i) with hle | hle
    · rw [max_eq_right hle]
      refine ⟨i, ?_, ?_⟩
      · rw [Nat.add_sub_of_le hb.le]
      · rwa [Nat.add_sub_of_le hb.le]
    · rw [max_eq_left hle]
      obtain ⟨k, hk, hlv⟩ := h.1
      exact ⟨k, hk.trans (Nat.le_succ e), hlv⟩
  · rintro n ⟨k, hk, hlv⟩
    rcases hk.eq_or_lt with heq | hlt
    · grind
    · exact le_max_of_le_left (h.2 ⟨k, Nat.lt_succ_iff.mp hlt, hlv⟩)

theorem lengths_length (hs : ∀ c ∈ s, c = '(' ∨ c = ')') : lengths s s.length = {n | ∃ w, w <:+: s ∧ Balanced '(' ')' w ∧ w.length = n} := by
  ext n
  rw [Set.mem_ofPred_eq, exists_balanced_iff (by decide) hs]
  constructor
  · rintro ⟨i, -, h⟩
    exact ⟨i, h⟩
  · rintro ⟨i, h⟩
    exact ⟨i, h.le_length, h⟩

/-! ## The stack -/

/-- The stack after the characters before `e`: those that have found no partner, first the closing ones, with level stretches between them. -/
inductive Stacked (s : Text) : List (Char × Nat) → Nat → Prop where
  | nil {e : Nat} : Level '(' s 0 e → Stacked s [] e
  | opening {rest : List (Char × Nat)} {p e : Nat} : s[p]? = some '(' → Stacked s rest p → Level '(' s (p + 1) e → Stacked s (('(', p) :: rest) e
  | closing {rest : List (Char × Nat)} {c : Char} {p e : Nat} : s[p]? = some c → c ≠ '(' → Stacked s rest p → (∀ q ∈ rest, q.1 = ')') →
      Level '(' s (p + 1) e → Stacked s ((')', p) :: rest) e

/-- Where the stretch after the character on top begins. -/
def bottom : List (Char × Nat) → Nat
  | [] => 0
  | (_, second) :: _ => second + 1

theorem Stacked.level (h : Stacked s st e) : Level '(' s (bottom st) e := by
  cases h with
  | nil h => exact h
  | opening _ _ h => exact h
  | closing _ _ _ _ h => exact h

theorem Stacked.extend {e' : Nat} (h : Stacked s st e) (hlv : Level '(' s e e') : Stacked s st e' := by
  cases h with
  | nil h => exact .nil (h.trans hlv)
  | opening hp hr h => exact .opening hp hr (h.trans hlv)
  | closing hp hc hr hall h => exact .closing hp hc hr hall (h.trans hlv)

/-- When no opening character waits, this is the lowest place so far. -/
theorem Stacked.lowest (h : Stacked s st e) (hall : ∀ q ∈ st, q.1 = ')') : ∀ k ≤ e, height '(' s e ≤ height '(' s k := by
  induction h with
  | nil h =>
    intro k hk
    exact h.eq.symm.trans_le (h.above k (zero_le k) hk)
  | @opening rest p e _ _ _ _ => grind [mem_cons_self]
  | @closing rest c p e hp hc _ hr h ih =>
    intro k hk
    rcases lt_or_ge p k with hpk | hkp
    · exact h.eq.symm.trans_le (h.above k hpk hk)
    · have hbef := ih hr k hkp
      have hdown := height_close hp hc
      linarith [h.eq]

theorem Stacked.bottom_le (h : Stacked s st e) (hlv : Level '(' s i e) : bottom st ≤ i := by
  have heq := hlv.eq
  cases h with
  | nil => exact Nat.zero_le i
  | @opening rest p e hp _ h =>
    refine Nat.lt_of_not_le fun hip => ?_
    have habove := hlv.above p hip ((Nat.le_succ p).trans h.le)
    linarith [height_open hp, h.eq]
  | @closing rest c p e hp hc hr hall h =>
    refine Nat.lt_of_not_le fun hip => ?_
    have hlow := hr.lowest hall i hip
    linarith [height_close hp hc, h.eq]

theorem Stacked.pop (h : Stacked s (('(', p) :: rest) e) (hx : s[e]? = some x) (hne : x ≠ '(') : Stacked s rest (e + 1) := by
  cases h with
  | opening hp hr h => exact hr.extend (h.nest hp hx hne)

/-- What the variables are before the character at `e`. -/
structure StackInv (s : Text) (e : Nat) (st : StackState) : Prop where
  stacked : Stacked s st.mystack e
  greatest : ∃ m : Nat, st.maxlen = m ∧ IsGreatest (lengths s e) m

theorem lengths_push {top : Char × Nat} (hmax : IsGreatest (lengths s e) m) (htop : top.2 = e) (h : Stacked s (top :: rest) (e + 1)) :
    IsGreatest (lengths s (e + 1)) m := by
  have hlv := h.level
  have hsucc := lengths_succ hmax hlv fun k hk => h.bottom_le hk
  have h0 : e + 1 - bottom (top :: rest) = 0 := by
    rw [bottom, htop, Nat.sub_self]
  rwa [h0, Nat.max_zero] at hsucc

theorem StackInv.step {st : StackState} (h : StackInv s e st) (hx : s[e]? = some x) : StackInv s (e + 1) (stackStep st (x, e)) := by
  obtain ⟨mystack, len, maxlen⟩ := st
  obtain ⟨hstacked, m, rfl, hmax⟩ := h
  have hhere : Level '(' s (e + 1) (e + 1) := Level.refl (List.getElem?_eq_some_iff.mp hx).1
  by_cases ho : x = '('
  · subst ho
    have hpush : Stacked s (('(', e) :: mystack) (e + 1) := .opening hx hstacked hhere
    exact ⟨hpush, m, rfl, lengths_push hmax rfl hpush⟩
  · rw [stackStep, if_neg ho]
    cases hstacked with
    | nil hlv =>
      have hpush : Stacked s [(')', e)] (e + 1) := .closing hx ho (.nil hlv) (by simp) hhere
      exact ⟨hpush, m, rfl, lengths_push hmax rfl hpush⟩
    | @opening rest p _ hp hr hlv =>
      have hpop : Stacked s rest (e + 1) := Stacked.pop (.opening hp hr hlv) hx ho
      refine ⟨hpop, max m (e + 1 - bottom rest), ?_, lengths_succ hmax hpop.level fun k hk => hpop.bottom_le hk⟩
      have hle := hpop.level.le
      rw [cast_max, cast_sub hle]
      cases rest with
      | nil => simp [bottom]
      | cons top rest => simp [bottom]
    | @closing rest c p _ hp hc hr hall hlv =>
      have hclosing : ∀ q ∈ (')', p) :: rest, q.1 = ')' := by grind
      have hpush : Stacked s ((')', e) :: (')', p) :: rest) (e + 1) := .closing hx ho (.closing hp hc hr hall hlv) hclosing hhere
      exact ⟨hpush, m, rfl, lengths_push hmax rfl hpush⟩

theorem Stack.longestValidParentheses_spec (s : Text) : ∃ m : Nat, Stack.longestValidParentheses s = m ∧ IsGreatest (lengths s s.length) m := by
  have hinit : StackInv s 0 ⟨[], 0, 0⟩ := ⟨.nil (Level.refl (zero_le _)), 0, rfl, lengths_zero s⟩
  have hrun : StackInv s s.length (s.zipIdx.foldl stackStep ⟨[], 0, 0⟩) := foldl_zipIdx_of_steps (fun e st x hx h => h.step hx) hinit
  exact hrun.greatest

/-! ## The counters -/

/-- Where the counters have last been set to zero: the lowest place so far, and the first one at this height. -/
structure Segment (s : Text) (b e left right : Nat) : Prop where
  total : b + (left + right) = e
  diff : (left : Int) - right = height '(' s e - height '(' s b
  before : ∀ k < b, height '(' s b < height '(' s k
  after : ∀ k, b ≤ k → k ≤ e → height '(' s b ≤ height '(' s k

/-- The level stretches that a scan is to find: they end at the lowest place so far. -/
def Found (s : Text) (e m : Nat) : Prop := ∀ i j, Level '(' s i j → j ≤ e → (∀ k ≤ j, height '(' s j ≤ height '(' s k) → j - i ≤ m

/-- What the variables are before the character at `e`, in a scan that begins with `m₀`. -/
structure ScanInv (s : Text) (m₀ e : Nat) (st : Counters) : Prop where
  segment : ∃ b, Segment s b e st.left st.right
  sound : st.maxlen = m₀ ∨ st.maxlen ∈ lengths s s.length
  mono : m₀ ≤ st.maxlen
  found : Found s e st.maxlen

theorem Found.succ {m' : Nat} (h : Found s e m) (hm : m ≤ m')
    (hhere : ∀ i, Level '(' s i (e + 1) → (∀ k ≤ e + 1, height '(' s (e + 1) ≤ height '(' s k) → e + 1 - i ≤ m') : Found s (e + 1) m' := by
  intro i j hlv hj hlow
  rcases hj.eq_or_lt with rfl | hlt
  · exact hhere i hlv hlow
  · exact (h i j hlv (Nat.lt_succ_iff.mp hlt) hlow).trans hm

theorem Counters.count_spec (st : Counters) (x : Char) : (st.count x).maxlen = st.maxlen ∧
    (st.count x).left + (st.count x).right = st.left + st.right + 1 ∧
    ((st.count x).left : Int) - (st.count x).right = st.left - st.right + if x = '(' then 1 else -1 := by
  rw [Counters.count]
  by_cases hx : '(' = x
  · grind
  · grind

theorem Segment.level {b left : Nat} (h : Segment s b e left left) (he : e ≤ s.length) : Level '(' s b e := by
  have hdiff := h.diff
  exact ⟨(le_add_right _ _).trans_eq h.total, he, by linarith, h.after⟩

theorem Segment.begin_le {b left right : Nat} (h : Segment s b e left right) (hlv : Level '(' s i e) : b ≤ i := by
  refine Nat.le_of_not_lt fun hib => ?_
  have hbe : b ≤ e := (Nat.le_add_right _ _).trans_eq h.total
  linarith [h.before i hib, hlv.above b hib.le hbe]

/-- The segment goes on as long as the height is not below that of its beginning. -/
theorem Segment.count {st : Counters} {b : Nat} (h : Segment s b e st.left st.right) (hx : s[e]? = some x)
    (hle : height '(' s b ≤ height '(' s (e + 1)) : Segment s b (e + 1) (st.count x).left (st.count x).right := by
  obtain ⟨-, htotal, hdiff⟩ := st.count_spec x
  refine ⟨by rw [htotal, ← Nat.add_assoc, h.total], ?_, h.before, fun k hbk hk => ?_⟩
  · rw [hdiff, h.diff, height_succ hx]
    ring
  · rcases hk.eq_or_lt with rfl | hk
    · exact hle
    · exact h.after k hbk (Nat.lt_succ_iff.mp hk)

/-- A place below the beginning of the segment is the lowest so far: the next segment begins there. -/
theorem Segment.restart {b left right : Nat} (h : Segment s b e left right) (hlow : height '(' s (e + 1) < height '(' s b) :
    Segment s (e + 1) (e + 1) 0 0 := by
  refine ⟨rfl, by simp, fun k hk => ?_, fun k hk hk' => by rw [le_antisymm hk' hk]⟩
  rcases Nat.lt_or_ge k b with hkb | hbk
  · exact hlow.trans (h.before k hkb)
  · exact hlow.trans_le (h.after k hbk (Nat.lt_succ_iff.mp hk))

theorem ScanInv.step {st : Counters} (h : ScanInv s m e st) (hx : s[e]? = some x) : ScanInv s m (e + 1) (st.forward x) := by
  obtain ⟨⟨b, hseg⟩, hsound, hmono, hf⟩ := h
  obtain ⟨hmax, htotal, hdiff⟩ := st.count_spec x
  have he : e < s.length := (List.getElem?_eq_some_iff.mp hx).1
  have hgoes := hseg.count hx
  have hheight := height_succ (o := '(') hx
  have hdiff' := hseg.diff
  rw [Counters.forward]
  generalize st.count x = st' at hmax htotal hdiff hgoes
  by_cases heq : st'.left = st'.right
  · rw [if_pos heq]
    have hseg' := hgoes (by linarith)
    have hlv : Level '(' s b (e + 1) := by
      rw [← heq] at hseg'
      exact hseg'.level he
    have htwo : 2 * st'.left = e + 1 - b := by
      have htotal' := hseg'.total
      omega
    refine ⟨⟨b, hseg'⟩, ?_, (hmono.trans_eq hmax.symm).trans (le_max_left _ _), ?_⟩
    · rcases max_choice st'.maxlen (2 * st'.left) with hchoice | hchoice
      · rwa [hchoice, hmax]
      · refine Or.inr ?_
        rw [hchoice, htwo]
        exact ⟨b, by rwa [Nat.add_sub_of_le hlv.le], by rwa [Nat.add_sub_of_le hlv.le]⟩
    · refine hf.succ (hmax.symm.trans_le (le_max_left _ _)) fun i hi _ => le_max_of_le_right ?_
      rw [htwo]
      exact Nat.sub_le_sub_left (hseg'.begin_le hi) _
  · rw [if_neg heq]
    by_cases hlt : st'.right > st'.left
    · rw [if_pos hlt]
      have hnew := hseg.restart (by linarith [Int.ofNat_lt.mpr hlt])
      refine ⟨⟨e + 1, hnew⟩, by rwa [hmax], by rwa [hmax], hf.succ hmax.ge fun i hi _ => ?_⟩
      rw [Nat.sub_eq_zero_of_le (hnew.begin_le hi)]
      exact Nat.zero_le _
    · -- more characters wait: this is not the lowest place so far
      rw [if_neg hlt]
      have hgt : st'.right < st'.left := lt_of_le_of_ne (not_lt.mp hlt) (Ne.symm heq)
      have hhigh : height '(' s b < height '(' s (e + 1) := by linarith [Int.ofNat_lt.mpr hgt]
      have hbe : b ≤ e + 1 := ((Nat.le_add_right _ _).trans_eq hseg.total).trans (Nat.le_succ e)
      refine ⟨⟨b, hgoes hhigh.le⟩, by rwa [hmax], by rwa [hmax], hf.succ hmax.ge fun i _ hlow => ?_⟩
      exact absurd (hlow b hbe) (not_le.mpr hhigh)

theorem forward_spec (s : Text) (m : Nat) : ScanInv s m s.length (s.foldl Counters.forward ⟨0, 0, m⟩) := by
  have hinit : ScanInv s m 0 ⟨0, 0, m⟩ := by
    refine ⟨⟨0, rfl, by simp, fun k hk => absurd hk (not_lt_zero k), fun k _ hk => ?_⟩, Or.inl rfl, le_rfl, fun i j _ hj _ => ?_⟩
    · rw [le_zero.mp hk]
    · omega
  exact foldl_of_steps (fun e st x hx h => h.step hx) hinit

/-- The counters, exchanged. -/
def Counters.swap (st : Counters) : Counters := ⟨st.right, st.left, st.maxlen⟩

/-- The rounds from the right are those from the left with the characters exchanged. -/
theorem backward_eq (st : Counters) (x : Char) : st.backward x = (st.swap.forward (if x = '(' then ')' else '(')).swap := by
  have hcnt : st.swap.count (if x = '(' then ')' else '(') = (st.count x).swap := by
    by_cases hx : x = '('
    · subst hx
      rfl
    · rw [if_neg hx, Counters.count, Counters.count, if_neg (Ne.symm hx)]
      rfl
  rw [Counters.backward, Counters.forward, hcnt]
  generalize st.count x = st'
  by_cases heq : st'.left = st'.right
  · have heq' : st'.swap.left = st'.swap.right := heq.symm
    have hmax : max st'.maxlen (2 * st'.left) = max st'.swap.maxlen (2 * st'.swap.left) := by
      rw [heq]
      rfl
    rw [if_pos heq, if_pos heq', hmax]
    rfl
  · have heq' : ¬st'.swap.left = st'.swap.right := Ne.symm heq
    rw [if_neg heq, if_neg heq']
    by_cases hlt : st'.left > st'.right
    · have hlt' : st'.swap.right > st'.swap.left := hlt
      rw [if_pos hlt, if_pos hlt']
      rfl
    · have hlt' : ¬st'.swap.right > st'.swap.left := hlt
      rw [if_neg hlt, if_neg hlt']
      rfl

theorem foldl_backward (s : Text) (st : Counters) :
    s.reverse.foldl Counters.backward st = ((mirrored '(' ')' s).foldl Counters.forward st.swap).swap := by
  rw [mirrored, ← map_reverse, foldl_map]
  induction s.reverse generalizing st with
  | nil => rfl
  | cons x l ih =>
    rw [foldl_cons, foldl_cons, ih, backward_eq]
    rfl

theorem longestValidParentheses_spec (s : Text) : IsGreatest (lengths s s.length) (longestValidParentheses s) := by
  have hne : ')' ≠ '(' := by decide
  obtain ⟨-, hsound, -, hf⟩ := forward_spec s 0
  rw [longestValidParentheses, foldl_backward]
  generalize s.foldl Counters.forward ⟨0, 0, 0⟩ = st at hsound hf
  obtain ⟨-, hsound', hmono, hf'⟩ := forward_spec (mirrored '(' ')' s) st.maxlen
  dsimp only [Counters.swap]
  generalize (mirrored '(' ')' s).foldl Counters.forward ⟨0, 0, st.maxlen⟩ = st' at hsound' hmono hf'
  rw [length_mirrored] at hsound' hf'
  constructor
  · rcases hsound' with heq | ⟨i, hi, hlv⟩
    · rw [heq]
      rcases hsound with h0 | hmem
      · rw [h0]
        exact ⟨0, Nat.zero_le _, Level.refl (Nat.zero_le _)⟩
      · exact hmem
    · have hb := hlv.of_mirror hne
      have hsh : s.length - (i + st'.maxlen) + st'.maxlen = s.length - i := by omega
      exact ⟨s.length - (i + st'.maxlen), hsh.trans_le (Nat.sub_le _ _), hsh.symm ▸ hb⟩
  · rintro n ⟨i, -, hlv⟩
    have hle : i + n - i ≤ st'.maxlen := by
      refine Level.length_le (fun i j h hlow => ?_) (fun i j h hlow => ?_) hlv
      · exact (hf i j h h.le_length hlow).trans hmono
      · have hle := h.le
        have hlen := h.le_length
        have hmirror := hf' _ _ (h.mirror hne) (Nat.sub_le _ _) fun k hk => ?_
        · omega
        · rw [height_mirrored hne (Nat.sub_le _ _), height_mirrored hne (hk.trans (Nat.sub_le _ _)), Nat.sub_sub_self (hle.trans hlen)]
          have hlow := hlow (s.length - k) (by omega) (Nat.sub_le _ _)
          linarith
    rwa [Nat.add_sub_cancel_left] at hle

/-- Both solutions return the length of the longest balanced part. -/
theorem longestValidParentheses_agree (s : Text) (hs : ∀ c ∈ s, c = '(' ∨ c = ')') :
    Stack.longestValidParentheses s = longestValidParentheses s ∧
      IsGreatest {n | ∃ w, w <:+: s ∧ Balanced '(' ')' w ∧ w.length = n} (longestValidParentheses s) := by
  obtain ⟨m, hm, hgreatest⟩ := Stack.longestValidParentheses_spec s
  have hcounters := longestValidParentheses_spec s
  rw [← lengths_length hs]
  refine ⟨?_, hcounters⟩
  rw [hm, hgreatest.unique hcounters]

/-- The second sample of the source. -/
theorem longestValidParentheses_agree_sample :
    Stack.longestValidParentheses [')', '(', ')', '(', ')', ')'] = longestValidParentheses [')', '(', ')', '(', ')', ')'] ∧
      IsGreatest {n | ∃ w, w <:+: [')', '(', ')', '(', ')', ')'] ∧ Balanced '(' ')' w ∧ w.length = n}
        (longestValidParentheses [')', '(', ')', '(', ')', ')']) :=
  longestValidParentheses_agree _ (by simp)

end CsLearning.LeetCode.LongestValidParentheses
