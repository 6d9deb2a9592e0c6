import Mathlib

/-!
# Backtracking

`completions Allowed choices k cs` are the lists that go on from `cs` with `k` more choices, each of them allowed after those before it, in the
order of the choices. A search that makes a choice, goes on and takes the choice back finds these (`search_completions`): what it needs to show is
what it does at the end, and that a level of it adds what its calls add, and leaves everything else as it was.
-/

open List Nat

namespace CsLearning

variable {α β S : Type*} {Allowed : List α → α → Prop} {choices cs x : List α} {k n : Nat}

open Classical in
noncomputable def completions (Allowed : List α → α → Prop) (choices : List α) : Nat → List α → List (List α)
  | 0, cs => [cs]
  | k + 1, cs => choices.flatMap fun c => if Allowed cs c then completions Allowed choices k (cs ++ [c]) else []

theorem mem_completions_succ :
    x ∈ completions Allowed choices (k + 1) cs ↔ ∃ c ∈ choices, Allowed cs c ∧ x ∈ completions Allowed choices k (cs ++ [c]) := by
  rw [completions, mem_flatMap]
  refine exists_congr fun c => and_congr_right fun _ => ?_
  by_cases hc : Allowed cs c
  · rw [if_pos hc, and_iff_right hc]
  · simp

theorem concat_prefix_iff {c : α} : cs ++ [c] <+: x ↔ cs <+: x ∧ x[cs.length]? = some c := by
  constructor
  · rintro ⟨t, rfl⟩
    rw [append_assoc]
    exact ⟨prefix_append cs _, by rw [getElem?_append_right (Nat.le_refl _), Nat.sub_self]; rfl⟩
  · rintro ⟨⟨t, rfl⟩, hc⟩
    rw [getElem?_append_right (Nat.le_refl _), Nat.sub_self] at hc
    cases t with
    | nil => cases hc
    | cons d t =>
      obtain rfl : d = c := Option.some.inj hc
      exact ⟨t, by rw [append_assoc, singleton_append]⟩

theorem mem_completions : x ∈ completions Allowed choices k cs ↔
    cs <+: x ∧ x.length = cs.length + k ∧ ∀ i c, cs.length ≤ i → x[i]? = some c → c ∈ choices ∧ Allowed (x.take i) c := by
  induction k generalizing cs with
  | zero =>
    rw [completions, mem_singleton]
    constructor
    · grind
    · rintro ⟨hst, hlen, -⟩
      exact (hst.eq_of_length hlen.symm).symm
  | succ k ih =>
    rw [mem_completions_succ]
    simp only [ih, concat_prefix_iff, length_append, length_singleton]
    constructor
    · rintro ⟨c, hc, hallowed, ⟨hst, hget⟩, hlen, hr⟩
      refine ⟨hst, by omega, fun i d hi hd => ?_⟩
      rcases eq_or_lt_of_le hi with rfl | hi
      · rw [prefix_iff_eq_take.mp hst |>.symm]
        obtain rfl := Option.some.inj (hget.symm.trans hd)
        exact ⟨hc, hallowed⟩
      · exact hr i d hi hd
    · rintro ⟨hst, hlen, hall⟩
      have hlt : cs.length < x.length := by omega
      have hget := getElem?_eq_getElem hlt
      obtain ⟨hc, hallowed⟩ := hall cs.length x[cs.length] (le_refl _) hget
      rw [prefix_iff_eq_take.mp hst |>.symm] at hallowed
      exact ⟨_, hc, hallowed, ⟨hst, hget⟩, by omega, fun i d hi hd => hall i d (by omega) hd⟩

theorem nodup_completions (h : choices.Nodup) (k : Nat) (cs : List α) : (completions Allowed choices k cs).Nodup := by
  induction k generalizing cs with
  | zero => exact nodup_singleton cs
  | succ k ih =>
    rw [completions, nodup_flatMap]
    refine ⟨fun c _ => ?_, h.imp fun {c d} hne => ?_⟩
    · split_ifs
      · exact ih _
      · exact nodup_nil
    · -- the two have different choices at the same place
      intro x hx hy
      simp only at hx hy
      split_ifs at hx hy with hc hd
      · have hxc := (concat_prefix_iff.mp (mem_completions.mp hx).1).2
        have hyd := (concat_prefix_iff.mp (mem_completions.mp hy).1).2
        exact hne (Option.some.inj (hxc.symm.trans hyd))
      all_goals simp_all

/-- The lists are found in their order, when the choices are in order. -/
theorem pairwise_lex_completions {r : α → α → Prop} (h : choices.Pairwise r) (k : Nat) (cs : List α) :
    (completions Allowed choices k cs).Pairwise (List.Lex r) := by
  induction k generalizing cs with
  | zero => exact pairwise_singleton _ cs
  | succ k ih =>
    rw [completions, pairwise_flatMap]
    constructor
    · grind
    · refine h.imp ?_
      intro c d hcd x hx y hy
      split_ifs at hx hy
      · obtain ⟨t, ht⟩ := (mem_completions.mp hx).1
        obtain ⟨u, hu⟩ := (mem_completions.mp hy).1
        rw [← ht, ← hu, append_assoc, append_assoc]
        exact Lex.append_left r (Lex.rel hcd) cs
      all_goals simp_all

/-! ## A search with a state -/

/-- `path.pop_back()`. -/
def popBack (path : List α) : Option (List α) := if path.isEmpty then none else some path.dropLast

@[simp] theorem popBack_concat (path : List α) (c : α) : popBack (path ++ [c]) = some path := by
  rw [popBack, if_neg (by simp), dropLast_concat]

/-- A loop over the choices each of which adds something to the results. -/
theorem foldlM_out {f : S → α → Option S} (mk : List β → S) {out : α → List β} {l : List α}
    (h : ∀ c ∈ l, ∀ res, f (mk res) c = some (mk (res ++ out c))) (res : List β) : l.foldlM f (mk res) = some (mk (res ++ l.flatMap out)) := by
  induction l generalizing res with
  | nil =>
    rw [flatMap_nil, append_nil]
    rfl
  | cons c l ih => grind

open Classical in
/-- A search that draws the completed lists: `mk cs res` is its state after the choices `cs`, with the results `res`. -/
theorem search_completions (run : Nat → List α → S → Option S) (mk : List α → List β → S) (draw : List α → β)
    (hend : ∀ fuel cs res, (∀ c ∈ cs, c ∈ choices) → cs.length = n → run (fuel + 1) cs (mk cs res) = some (mk cs (res ++ [draw cs])))
    (hlv : ∀ fuel cs res (out : α → List β), (∀ c ∈ cs, c ∈ choices) → cs.length < n →
      (∀ c ∈ choices, Allowed cs c → ∀ res, run fuel (cs ++ [c]) (mk (cs ++ [c]) res) = some (mk (cs ++ [c]) (res ++ out c))) →
      run (fuel + 1) cs (mk cs res) = some (mk cs (res ++ choices.flatMap fun c => if Allowed cs c then out c else [])))
    (cs : List α) (hcs : ∀ c ∈ cs, c ∈ choices) (hn : cs.length + k = n) (res : List β) :
    run (k + 1) cs (mk cs res) = some (mk cs (res ++ (completions Allowed choices k cs).map draw)) := by
  induction k generalizing cs res with
  | zero => exact hend 0 cs res hcs hn
  | succ k ih =>
    have hcalls : ∀ c ∈ choices, Allowed cs c → ∀ res, run (k + 1) (cs ++ [c]) (mk (cs ++ [c]) res) =
        some (mk (cs ++ [c]) (res ++ (completions Allowed choices k (cs ++ [c])).map draw)) := by
      intro c hc _ res
      refine ih (cs ++ [c]) (fun d hd => ?_) (by rw [length_append, length_singleton]; omega) res
      rcases mem_append.mp hd with hd | hd
      · exact hcs d hd
      · rwa [mem_singleton.mp hd]
    rw [hlv (k + 1) cs res _ hcs (by omega) hcalls, completions, map_flatMap]
    congr 3
    refine flatMap_congr fun c _ => ?_
    split_ifs <;> rfl

end CsLearning
