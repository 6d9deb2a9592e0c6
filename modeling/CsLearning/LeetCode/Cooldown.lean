import CsLearning.Lib.Tables
import CsLearning.Lib.Word

/-!
# Trading with a day of rest

Problem 309, with a table and with three variables. For each day there is the best balance without a share that was not sold on that day, with a
share, and without a share that was sold on that day. Sums that do not fit in an `int` have no outcome.

A schedule is a list of trades. The profits of the schedules and the balances of those that still hold a share grow from day to day by two
equations, and the three numbers follow their greatest elements.
-/

open List Option Set

namespace CsLearning.LeetCode.Cooldown

open Word

/-! ## The table -/

/-- The body of the loop that fills the table. -/
def Rows.day (prices : List Int) (dp : Table Int) (i : Nat) : Option (Table Int) := do
  let free ← dp (i - 1) 0
  let sold ← dp (i - 1) 2
  let dp ← dp.set i 0 (max free sold)
  let held ← dp (i - 1) 1
  let free ← dp (i - 1) 0
  let price ← prices[i]?
  let bought ← Word.addInt free (-price)
  let dp ← dp.set i 1 (max held bought)
  let held ← dp (i - 1) 1
  let price ← prices[i]?
  let sold ← Word.addInt held price
  dp.set i 2 sold

/-- `maxProfit(prices)` with the table. -/
def Rows.maxProfit (prices : List Int) : Option Int :=
  if 0 = prices.length then some 0
  else do
    let dp ← (Table.const (prices.length - 1) 2 0).set 0 0 0
    let price ← prices[0]?
    let bought ← Word.addInt 0 (-price)
    let dp ← dp.set 0 1 bought
    let dp ← dp.set 0 2 0
    let dp ← (List.range' 1 (prices.length - 1)).foldlM (Rows.day prices) dp
    let free ← dp (prices.length - 1) 0
    let sold ← dp (prices.length - 1) 2
    return max free sold

/-! ## Three variables -/

structure State where
  p : Int
  q : Int
  r : Int

/-- The body of the loop with three variables. -/
def day (prices : List Int) (s : State) (i : Nat) : Option State := do
  let price ← prices[i]?
  let bought ← Word.addInt s.p (-price)
  let sold ← Word.addInt s.q price
  return ⟨max s.p s.r, max s.q bought, sold⟩

/-- `maxProfit(prices)` with three variables. -/
def maxProfit (prices : List Int) : Option Int :=
  if 0 = prices.length then some 0
  else do
    let price ← prices[0]?
    let bought ← Word.addInt 0 (-price)
    let s ← (List.range' 1 (prices.length - 1)).foldlM (day prices) ⟨0, bought, 0⟩
    return max s.p s.r

/-! ## The two versions agree -/

variable {prices : List Int} {m n i : Nat} {dp : Table Int} {s : State}

/-- All cells are there, and row `i` holds the three variables. -/
structure Row (m i : Nat) (dp : Table Int) (s : State) : Prop where
  full : ∀ j k, j ≤ m → k ≤ 2 → ∃ v, dp j k = some v
  free : dp i 0 = some s.p
  held : dp i 1 = some s.q
  sold : dp i 2 = some s.r

theorem full_put {j k : Nat} (h : ∀ j k, j ≤ m → k ≤ 2 → ∃ v, dp j k = some v) (v : Int) (j' k' : Nat) (hj : j' ≤ m) (hk : k' ≤ 2) :
    ∃ w, dp.put j k v j' k' = some w := by
  by_cases hc : j' = j ∧ k' = k
  · grind [Table.put_self]
  · rw [Table.put_of_ne hc]
    exact h j' k' hj hk

theorem row_put (h : ∀ j k, j ≤ m → k ≤ 2 → ∃ v, dp j k = some v) (p q r : Int) : Row m i (((dp.put i 0 p).put i 1 q).put i 2 r) ⟨p, q, r⟩ := by
  refine ⟨fun j k => full_put (fun j k => full_put (fun j k => full_put h p j k) q j k) r j k, ?_, ?_, Table.put_self _ _ _ _⟩
  · grind [Table.put_of_ne, Table.put_self]
  · rw [Table.put_of_ne (by omega), Table.put_self]

theorem day_rel (hi : 1 ≤ i) (him : i ≤ m) (h : Row m (i - 1) dp s) : Option.Rel (Row m i) (Rows.day prices dp i) (day prices s i) := by
  obtain ⟨v0, hv0⟩ := h.full i 0 him (by omega)
  obtain ⟨v1, hv1⟩ := h.full i 1 him (by omega)
  obtain ⟨v2, hv2⟩ := h.full i 2 him (by omega)
  have hbef : ∀ (t : Table Int) j k v, t.put i j v (i - 1) k = t (i - 1) k := fun t j k v => Table.put_of_ne (by omega) v
  unfold Rows.day day
  simp only [h.free, h.sold, bind_eq_bind, bind_some, Table.set_eq hv0, hbef, h.held]
  cases prices[i]? with
  | none => exact Rel.none
  | some price =>
    simp only [bind_some]
    cases addInt s.p (-price) with
    | none => exact Rel.none
    | some bought =>
      have hc : (dp.put i 0 (max s.p s.r)) i 1 = some v1 := by rw [Table.put_of_ne (by omega), hv1]
      simp only [bind_some, Table.set_eq hc, hbef, h.held]
      cases addInt s.q price with
      | none => exact Rel.none
      | some sold =>
        have hl : ((dp.put i 0 (max s.p s.r)).put i 1 (max s.q bought)) i 2 = some v2 := by grind [Table.put_of_ne]
        simp only [Table.set_eq hl]
        exact Rel.some (row_put h.full _ _ _)

theorem rows_maxProfit_eq (prices : List Int) : Rows.maxProfit prices = maxProfit prices := by
  unfold Rows.maxProfit maxProfit
  split_ifs with h0
  · rfl
  have hf : ∀ j k, j ≤ prices.length - 1 → k ≤ 2 → ∃ v, Table.const (prices.length - 1) 2 (0 : Int) j k = some v :=
    fun j k hj hk => ⟨0, if_pos ⟨hj, hk⟩⟩
  obtain ⟨v0, hv0⟩ := hf 0 0 (by omega) (by omega)
  obtain ⟨v1, hv1⟩ := hf 0 1 (by omega) (by omega)
  obtain ⟨v2, hv2⟩ := hf 0 2 (by omega) (by omega)
  rw [Table.set_eq hv0, bind_eq_bind]
  cases prices[0]? with
  | none => rfl
  | some price =>
    simp only [bind_eq_bind, bind_some]
    cases addInt 0 (-price) with
    | none => rfl
    | some bought =>
      have hc : ((Table.const (prices.length - 1) 2 (0 : Int)).put 0 0 0) 0 1 = some v1 := by rw [Table.put_of_ne (by omega), hv1]
      have hl : (((Table.const (prices.length - 1) 2 (0 : Int)).put 0 0 0).put 0 1 bought) 0 2 = some v2 := by grind [Table.put_of_ne]
      simp only [bind_some, Table.set_eq hc, Table.set_eq hl]
      have hs : ∀ i dp s, 1 ≤ i → i < 1 + (prices.length - 1) → Row (prices.length - 1) (i - 1) dp s →
          Option.Rel (Row (prices.length - 1) (i + 1 - 1)) (Rows.day prices dp i) (day prices s i) :=
        fun i dp s hi hlt hrow => day_rel hi (by omega) hrow
      have hloops := foldlM_up_rel (P := fun i => Row (prices.length - 1) (i - 1)) hs (row_put (i := 0) hf 0 bought 0)
      rw [Nat.add_sub_cancel_left] at hloops
      refine eq_of_rel (rel_bind hloops ?_)
      intro dp s _ hrow
      rw [hrow.free, hrow.sold]
      exact Rel.some rfl

/-! ## Schedules -/

/-- The price of a day. -/
def price (prices : List Int) (i : Nat) : Int := prices.getD i 0

/-- Trades on the first `n` days, each with the day of its buy and that of its sell. A sell comes after its buy, and there is a day between it and
the next buy. -/
def Schedule (n : Nat) (trades : List (Nat × Nat)) : Prop :=
  (∀ t ∈ trades, t.1 < t.2 ∧ t.2 < n) ∧ trades.Pairwise fun t u => t.2 + 1 < u.1

def profit (prices : List Int) (trades : List (Nat × Nat)) : Int := (trades.map fun t => price prices t.2 - price prices t.1).sum

/-- The profits of the schedules for the first `n` days. -/
def Sold (prices : List Int) (n : Nat) : Set Int := {v | ∃ trades, Schedule n trades ∧ profit prices trades = v}

/-- The balances of those that then buy a share on one of these days and hold it. -/
def Held (prices : List Int) (n : Nat) : Set Int := {v | ∃ trades b, Schedule (b - 1) trades ∧ b < n ∧ profit prices trades - price prices b = v}

variable {trades : List (Nat × Nat)} {t : Nat × Nat} {v : Int}

theorem schedule_nil (n : Nat) : Schedule n [] := ⟨by simp, Pairwise.nil⟩

theorem schedule_concat : Schedule n (trades ++ [t]) ↔ Schedule (t.1 - 1) trades ∧ t.1 < t.2 ∧ t.2 < n := by
  unfold Schedule
  rw [pairwise_append]
  constructor
  · intro h
    obtain ⟨hdays, hpair, -, hl⟩ := h
    refine ⟨⟨?_, hpair⟩, hdays t (by simp)⟩
    intro u hu
    have hgap := hl u hu t (mem_singleton_self t)
    exact ⟨(hdays u (mem_append_left _ hu)).1, by omega⟩
  · intro h
    obtain ⟨⟨hdays, hpair⟩, hlt, hn⟩ := h
    refine ⟨?_, hpair, pairwise_singleton _ _, ?_⟩
    · intro u hu
      rcases mem_append.1 hu with hu | hu
      · have hl := hdays u hu
        exact ⟨hl.1, by omega⟩
      · rw [mem_singleton.1 hu]
        exact ⟨hlt, hn⟩
    · grind

@[simp] theorem profit_nil (prices : List Int) : profit prices [] = 0 := rfl

@[simp] theorem profit_concat : profit prices (trades ++ [t]) = profit prices trades - price prices t.1 + price prices t.2 := by
  simp only [profit, map_append, sum_append, map_cons, map_nil, sum_singleton]
  omega

theorem Schedule.mono (h : Schedule n trades) (hmn : n ≤ m) : Schedule m trades := ⟨fun t ht => ⟨(h.1 t ht).1, (h.1 t ht).2.trans_le hmn⟩, h.2⟩

/-- On the next day nothing is sold, or the share that is held. -/
theorem sold_succ (prices : List Int) (n : Nat) : Sold prices (n + 1) = Sold prices n ∪ image (· + price prices n) (Held prices n) := by
  ext v
  constructor
  · intro hv
    obtain ⟨trades, hsched, hprofit⟩ := hv
    rcases eq_nil_or_concat trades with hnil | ⟨trades', t, heq⟩
    · exact Or.inl ⟨[], schedule_nil n, by rw [← hprofit, hnil]⟩
    · rw [heq, concat_eq_append] at hsched hprofit
      obtain ⟨hbef, hlt, hn⟩ := schedule_concat.1 hsched
      rcases Nat.lt_succ_iff_lt_or_eq.1 hn with hearlier | htoday
      · exact Or.inl ⟨trades' ++ [t], schedule_concat.2 ⟨hbef, hlt, hearlier⟩, hprofit⟩
      · rw [profit_concat, htoday] at hprofit
        exact Or.inr ⟨_, ⟨trades', t.1, hbef, htoday ▸ hlt, rfl⟩, hprofit⟩
  · intro hv
    rcases hv with ⟨trades, hsched, hprofit⟩ | ⟨_, ⟨trades, b, hsched, hb, rfl⟩, rfl⟩
    · exact ⟨trades, hsched.mono (Nat.le_succ n), hprofit⟩
    · exact ⟨trades ++ [(b, n)], schedule_concat.2 ⟨hsched, hb, Nat.lt_succ_self n⟩, profit_concat⟩

/-- On the next day no share is bought, or one after a schedule that left this day and the day before free. -/
theorem held_succ (prices : List Int) (n : Nat) : Held prices (n + 1) = Held prices n ∪ image (· - price prices n) (Sold prices (n - 1)) := by
  ext v
  constructor
  · intro hv
    obtain ⟨trades, b, hsched, hb, hbalance⟩ := hv
    rcases Nat.lt_succ_iff_lt_or_eq.1 hb with hearlier | htoday
    · exact Or.inl ⟨trades, b, hsched, hearlier, hbalance⟩
    · rw [htoday] at hsched hbalance
      exact Or.inr ⟨_, ⟨trades, hsched, rfl⟩, hbalance⟩
  · intro hv
    rcases hv with ⟨trades, b, hsched, hb, hbalance⟩ | ⟨_, ⟨trades, hsched, rfl⟩, rfl⟩
    · exact ⟨trades, b, hsched, Nat.lt_succ_of_lt hb, hbalance⟩
    · exact ⟨trades, n, hsched, Nat.lt_succ_self n, rfl⟩

theorem sold_zero (prices : List Int) : Sold prices 0 = {0} := by
  ext v
  constructor
  · intro hv
    obtain ⟨trades, hsched, hprofit⟩ := hv
    cases trades with
    | nil => exact hprofit.symm
    | cons t trades => exact absurd (hsched.1 t mem_cons_self).2 (Nat.not_lt_zero _)
  · intro hv
    exact ⟨[], schedule_nil 0, hv.symm⟩

theorem held_zero (prices : List Int) : Held prices 0 = ∅ := by
  rw [eq_empty_iff_forall_notMem]
  intro v hv
  obtain ⟨trades, b, -, hb, -⟩ := hv
  exact Nat.not_lt_zero b hb

theorem held_one (prices : List Int) : Held prices 1 = {-price prices 0} := by
  rw [held_succ, held_zero, empty_union, sold_zero, image_singleton, zero_sub]

theorem sold_mono (prices : List Int) (h : n ≤ m) : Sold prices n ⊆ Sold prices m := by
  intro v hv
  obtain ⟨trades, hsched, hprofit⟩ := hv
  exact ⟨trades, hsched.mono h, hprofit⟩

theorem held_mono (prices : List Int) (h : n ≤ m) : Held prices n ⊆ Held prices m := by
  intro v hv
  obtain ⟨trades, b, hsched, hb, hbalance⟩ := hv
  exact ⟨trades, b, hsched, hb.trans_le h, hbalance⟩

/-! ## The three variables -/

/-- The variables after day `i`. -/
structure Best (prices : List Int) (i : Nat) (s : State) : Prop where
  free : IsGreatest (Sold prices i) s.p
  held : IsGreatest (Held prices (i + 1)) s.q
  sold : IsGreatest (Sold prices (i + 1)) (max s.p s.r)

theorem best_first (prices : List Int) : Best prices 0 ⟨0, -price prices 0, 0⟩ := by
  refine ⟨?_, ?_, ?_⟩
  · rw [sold_zero]
    exact isGreatest_singleton
  · rw [held_one]
    exact isGreatest_singleton
  · rw [sold_succ, held_zero, image_empty, union_empty, sold_zero]
    exact isGreatest_singleton

theorem Best.next (h : Best prices i s) : Best prices (i + 1) ⟨max s.p s.r, max s.q (s.p - price prices (i + 1)), s.q + price prices (i + 1)⟩ := by
  refine ⟨h.sold, ?_, ?_⟩
  · rw [held_succ]
    refine h.held.union ?_
    have hbuy : Monotone fun v : Int => v - price prices (i + 1) := fun v w hvw => sub_le_sub_right hvw _
    exact hbuy.map_isGreatest h.free
  · rw [sold_succ]
    refine h.sold.union ?_
    have hsell : Monotone fun v : Int => v + price prices (i + 1) := fun v w hvw => add_le_add_left hvw _
    exact hsell.map_isGreatest h.held

theorem price_eq {x : Int} (h : prices[i]? = some x) : price prices i = x := by
  rw [price, getD_eq_getElem?_getD, h, getD_some]

theorem day_best {s' : State} (h : Best prices i s) (hday : day prices s (i + 1) = some s') : Best prices (i + 1) s' := by
  obtain ⟨x, hx, hday⟩ := bind_eq_some_iff.1 hday
  obtain ⟨bought, hbought, hday⟩ := bind_eq_some_iff.1 hday
  obtain ⟨sold, hsold, hday⟩ := bind_eq_some_iff.1 hday
  cases hday
  rw [(eq_add_of_addInt hbought).1, (eq_add_of_addInt hsold).1, ← price_eq hx]
  exact h.next

/-- The balances of all schedules, with and without a share, fit in an `int`. -/
def Fits (prices : List Int) : Prop := ∀ v, v ∈ Sold prices prices.length ∨ v ∈ Held prices prices.length → -2 ^ 31 ≤ v ∧ v < 2 ^ 31

theorem day_returns (hf : Fits prices) (h : Best prices i s) (hi : i + 1 < prices.length) : ∃ s', day prices s (i + 1) = some s' := by
  have hx : prices[i + 1]? = some (price prices (i + 1)) := by
    rw [price, getD_eq_getElem?_getD, getElem?_eq_getElem hi, getD_some]
  have hbuy : s.p - price prices (i + 1) ∈ Held prices prices.length := by
    apply held_mono prices hi
    rw [held_succ]
    exact Or.inr ⟨s.p, h.free.1, rfl⟩
  have hsell : s.q + price prices (i + 1) ∈ Sold prices prices.length := by
    apply sold_mono prices hi
    rw [sold_succ]
    exact Or.inr ⟨s.q, h.held.1, rfl⟩
  obtain ⟨hlow, hhigh⟩ := hf _ (Or.inr hbuy)
  obtain ⟨hlow', hhigh'⟩ := hf _ (Or.inl hsell)
  unfold day
  rw [hx, bind_eq_bind, bind_some, addInt_of_fits (by omega) (by omega), addInt_of_fits hlow' hhigh']
  exact ⟨_, rfl⟩

theorem maxProfit_of_pos (h : 0 < prices.length) : maxProfit prices = (addInt 0 (-price prices 0)).bind fun bought =>
    ((range' 1 (prices.length - 1)).foldlM (day prices) ⟨0, bought, 0⟩).map fun s => max s.p s.r := by
  have hx : prices[0]? = some (price prices 0) := by
    rw [price, getD_eq_getElem?_getD, getElem?_eq_getElem h, getD_some]
  unfold maxProfit
  rw [if_neg h.ne, hx]
  simp [map_eq_bind]

theorem maxProfit_greatest (h : maxProfit prices = some v) : IsGreatest (Sold prices prices.length) v := by
  rcases Nat.eq_zero_or_pos prices.length with h0 | hpos
  · rw [maxProfit, if_pos h0.symm] at h
    cases h
    rw [h0, sold_zero]
    exact isGreatest_singleton
  · rw [maxProfit_of_pos hpos] at h
    obtain ⟨bought, hbought, h⟩ := bind_eq_some_iff.1 h
    obtain ⟨s, hrun, hv⟩ := map_eq_some_iff.1 h
    rw [(eq_add_of_addInt hbought).1, zero_add] at hrun
    have hstep : ∀ i s s', 1 ≤ i → i < 1 + (prices.length - 1) → Best prices (i - 1) s → day prices s i = some s' → Best prices (i + 1 - 1) s' := by
      intro i s s' hi _ hs hday
      obtain ⟨j, rfl⟩ := Nat.exists_eq_succ_of_ne_zero (Nat.one_le_iff_ne_zero.1 hi)
      exact day_best hs hday
    have hbest := foldlM_up_of_some (P := fun i => Best prices (i - 1)) hstep (best_first prices) hrun
    have hsold := hbest.sold
    rwa [Nat.add_sub_cancel_left, Nat.sub_add_cancel hpos, hv] at hsold

theorem maxProfit_returns (hf : Fits prices) : ∃ v, maxProfit prices = some v := by
  rcases Nat.eq_zero_or_pos prices.length with h0 | hpos
  · exact ⟨0, by rw [maxProfit, if_pos h0.symm]⟩
  · have hbuy : -price prices 0 ∈ Held prices prices.length := by
      apply held_mono prices hpos
      rw [held_one]
      exact mem_singleton _
    obtain ⟨hlow, hhigh⟩ := hf _ (Or.inr hbuy)
    have hstep : ∀ i s, 1 ≤ i → i < 1 + (prices.length - 1) → Best prices (i - 1) s →
        ∃ s', day prices s i = some s' ∧ Best prices (i + 1 - 1) s' := by
      intro i s hi hlt hs
      obtain ⟨j, rfl⟩ := Nat.exists_eq_succ_of_ne_zero (Nat.one_le_iff_ne_zero.1 hi)
      obtain ⟨s', hday⟩ := day_returns hf hs (by omega)
      exact ⟨s', hday, day_best hs hday⟩
    obtain ⟨s, hrun, -⟩ := foldlM_up (P := fun i => Best prices (i - 1)) hstep (best_first prices)
    rw [maxProfit_of_pos hpos, addInt_of_fits (by omega) (by omega), bind_some, zero_add, hrun]
    exact ⟨_, rfl⟩

/-- A share that is never sold is no gain, unless its price was negative. -/
theorem held_le (hprices : ∀ x ∈ prices, 0 ≤ x) (h : IsGreatest (Sold prices n) v) {w : Int} (hw : w ∈ Held prices n) : w ≤ v := by
  obtain ⟨trades, b, hsched, hb, hbalance⟩ := hw
  have hle := h.2 ⟨trades, hsched.mono (by omega), rfl⟩
  have hprice : 0 ≤ price prices b := by
    rw [price, getD_eq_getElem?_getD]
    cases hx : prices[b]? with
    | none => exact le_rfl
    | some x => exact hprices x (mem_of_getElem? hx)
  omega

/-- The two versions compute the same. If nothing overflows this is the best profit of a schedule; it is not less than the balance of one that keeps
a share, when no price is negative. Nothing overflows when the balances of the schedules fit in an `int`. -/
theorem maxProfit_agree (prices : List Int) : Rows.maxProfit prices = maxProfit prices ∧
    (∀ v, maxProfit prices = some v →
      IsGreatest {w | ∃ trades, Schedule prices.length trades ∧ profit prices trades = w} v ∧
        ((∀ x ∈ prices, 0 ≤ x) → ∀ w ∈ Held prices prices.length, w ≤ v)) ∧
      (Fits prices → ∃ v, maxProfit prices = some v) := by
  refine ⟨rows_maxProfit_eq prices, ?_, maxProfit_returns⟩
  intro v hv
  have hgreatest := maxProfit_greatest hv
  exact ⟨hgreatest, fun hprices w hw => held_le hprices hgreatest hw⟩

/-- The trades are those of days 0 and 1 and of days 3 and 4. -/
theorem maxProfit_agree_three :
    IsGreatest {w | ∃ trades, Schedule 5 trades ∧ profit [1, 2, 3, 0, 2] trades = w} 3 ∧ Rows.maxProfit [1, 2, 3, 0, 2] = some 3 :=
  ⟨((maxProfit_agree [1, 2, 3, 0, 2]).2.1 3 (by decide)).1, (maxProfit_agree [1, 2, 3, 0, 2]).1.trans (by decide)⟩

end CsLearning.LeetCode.Cooldown
