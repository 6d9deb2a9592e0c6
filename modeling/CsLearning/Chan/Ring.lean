import CsLearning.Chan.Queue

/-!
# `chan.h`: the ring holds a list

`contents` is the list of the values between `first_` and `new_`. `RingOk` is the invariant of the counters: the list is no longer
than the ring, and no counter ever wraps, since `reset_pos` brings `new_` below twice the capacity. Under it each operation
on the ring is the operation on the list.
-/

open List Nat

namespace CsLearning.Chan

open Word

variable {α : Type} (cfg : Config)

theorem Config.capacity_pos : 0 < cfg.capacity := by
  unfold Config.capacity
  split <;> omega

theorem Config.capacity_lt : cfg.capacity < 2 ^ 63 := by
  have := cfg.arg_lt
  unfold Config.capacity Config.made
  split
  · norm_num
  · split <;> omega

theorem Config.capacity_of_overflow (h : cfg.overflow = true) : cfg.capacity = 1 := by
  have hm : cfg.made = 0 := by simpa [Config.overflow] using h
  rw [Config.capacity, if_pos hm]

theorem Config.blocking_of_overflow (h : cfg.overflow = true) : cfg.policy = .blocking := by
  have hm : cfg.made = 0 := by simpa [Config.overflow] using h
  unfold Config.made at hm
  split at hm
  · cases hm
  · rename_i hn
    by_contra hp
    exact hn ⟨hp, hm⟩

/-- The values in the queue, oldest first. -/
def contents (q : QueueT α) : List α := (List.range' q.first (q.new - q.first)).map fun p => q.data (slot cfg p)

/-- The counters are in order, at most the capacity apart, and below the bound that keeps them from wrapping. -/
structure RingOk (q : QueueT α) : Prop where
  first_le : q.first ≤ q.new
  new_le : q.new ≤ q.first + cfg.capacity
  new_lt : q.new < max cfg.maxCounter (2 * cfg.capacity)

theorem RingOk.make (raw : Nat → α) : RingOk cfg (QueueT.make raw) := by
  have := cfg.capacity_pos
  exact ⟨le_refl _, by simp [QueueT.make], by simp only [QueueT.make]; omega⟩

variable {cfg} {q : QueueT α}

theorem RingOk.new_succ_lt (h : RingOk cfg q) : q.new + 1 < 2 ^ 64 := by
  have h1 := h.new_lt
  have h2 := cfg.capacity_lt
  have h3 := cfg.maxCounter_lt
  omega

theorem length_contents : (contents cfg q).length = q.new - q.first := by simp [contents]

theorem RingOk.length_le (h : RingOk cfg q) : (contents cfg q).length ≤ cfg.capacity := by
  rw [length_contents]
  have := h.new_le
  omega

/-- `free_count` is the number of slots not in use. -/
theorem RingOk.freeCount_eq (h : RingOk cfg q) : freeCount cfg q = cfg.capacity - (contents cfg q).length := by
  have h1 := h.first_le
  have h2 := h.new_le
  have h3 := h.new_succ_lt
  have h4 := cfg.capacity_lt
  rw [freeCount, Word.sub_add (by omega) (by omega) (by omega), length_contents]
  omega

theorem RingOk.isEmpty_iff (h : RingOk cfg q) : isEmpty q = true ↔ contents cfg q = [] := by
  rw [← length_eq_zero_iff, length_contents, isEmpty, decide_eq_true_eq]
  have := h.first_le
  omega

theorem slot_ne {a b : Nat} (hab : a < b) (hb : b < a + cfg.capacity) : slot cfg a ≠ slot cfg b := by
  intro he
  have hd : cfg.capacity ∣ b - a := (modEq_iff_dvd' hab.le).1 he
  have := le_of_dvd (by omega) hd
  omega

theorem map_range'_slot (data : Nat → α) {a b : Nat} (hab : slot cfg a = slot cfg b) (n : Nat) :
    ((range' a n).map fun p => data (slot cfg p)) = (range' b n).map fun p => data (slot cfg p) := by
  induction n generalizing a b with
  | zero => rfl
  | succ n ih =>
    have hs : slot cfg (a + 1) = slot cfg (b + 1) := Nat.ModEq.add_right 1 hab
    rw [range'_succ, range'_succ, map_cons, map_cons, hab, ih hs]

theorem contents_resetPos (cfg : Config) (h1 : q.first ≤ q.new) (h2 : q.new < 2 ^ 64) :
    contents cfg (resetPos cfg q) = contents cfg q ∧ (resetPos cfg q).new = q.first % cfg.capacity + (q.new - q.first) := by
  have hm := Nat.mod_le q.first cfg.capacity
  have hn : (resetPos cfg q).new = q.first % cfg.capacity + (q.new - q.first) := by grind [sub, resetPos]
  refine ⟨?_, hn⟩
  rw [contents, hn]
  simp only [resetPos]
  rw [Nat.add_sub_cancel_left]
  exact map_range'_slot q.data (Nat.mod_mod _ _) _

theorem RingOk.boundPos (h1 : q.first ≤ q.new) (h2 : q.new ≤ q.first + cfg.capacity) (h3 : q.new < 2 ^ 64) :
    RingOk cfg (boundPos cfg q) ∧ contents cfg (Chan.boundPos cfg q) = contents cfg q := by
  unfold Chan.boundPos
  split
  · obtain ⟨hc, hn⟩ := contents_resetPos cfg h1 h3
    have hlt : q.first % cfg.capacity < cfg.capacity := mod_lt _ cfg.capacity_pos
    have hf : (resetPos cfg q).first = q.first % cfg.capacity := rfl
    exact ⟨⟨by omega, by omega, by omega⟩, hc⟩
  · exact ⟨⟨h1, h2, by omega⟩, rfl⟩

/-- A value stored at `new_` is the last of the values, when its slot is not in use. -/
theorem contents_store (x : α) {n : Nat} (h1 : q.first ≤ q.new) (h2 : q.new < q.first + cfg.capacity) (hn : n = q.new + 1) :
    contents cfg { q with data := Function.update q.data (slot cfg q.new) x, new := n } = contents cfg q ++ [x] := by
  subst hn
  have hlen : q.new + 1 - q.first = (q.new - q.first) + 1 := by omega
  have hl : q.first + (q.new - q.first) = q.new := by omega
  simp only [contents]
  rw [hlen, range'_1_concat, map_append, hl]
  congr 1
  · refine map_congr_left fun p hp => ?_
    rw [mem_range'_1] at hp
    exact Function.update_of_ne (slot_ne (by omega) (by omega)) _ _
  · simp

theorem RingOk.push_free (h : RingOk cfg q) (hf : 0 < freeCount cfg q) (x : α) :
    ∃ q', pushThreadUnsafe cfg q x = (q', true) ∧ RingOk cfg q' ∧ contents cfg q' = contents cfg q ++ [x] := by
  have h1 := h.first_le
  have h3 := h.new_succ_lt
  have hlt : q.new < q.first + cfg.capacity := by
    rw [h.freeCount_eq, length_contents] at hf
    omega
  have hn : add 64 q.new 1 = q.new + 1 := add_of_lt h3
  refine ⟨_, by rw [pushThreadUnsafe, if_pos hf], ?_⟩
  rw [hn, ← contents_store x h1 hlt rfl]
  exact RingOk.boundPos (by simp only; omega) (by simp only; omega) (by omega)

/-- `push_thread_unsafe` on a full queue that discards old values replaces the oldest. -/
theorem RingOk.push_discardOld (h : RingOk cfg q) (hf : freeCount cfg q = 0) (hp : cfg.policy = .discardOld) (x : α) :
    ∃ q', pushThreadUnsafe cfg q x = (q', true) ∧ RingOk cfg q' ∧ contents cfg q' = (contents cfg q).tail ++ [x] := by
  have h2 := h.new_le
  have h3 := h.new_succ_lt
  have hpos := cfg.capacity_pos
  have hlt : q.new = q.first + cfg.capacity := by
    rw [h.freeCount_eq, length_contents] at hf
    omega
  have hn : add 64 q.new 1 = q.new + 1 := add_of_lt h3
  have hn' : add 64 q.first 1 = q.first + 1 := add_of_lt (by omega)
  refine ⟨_, by rw [pushThreadUnsafe, if_neg (by omega), if_pos hp], ?_⟩
  have ht : (contents cfg q).tail = contents cfg { q with first := q.first + 1 } := by
    have hlen : q.new - q.first = (q.new - (q.first + 1)) + 1 := by omega
    simp only [contents]
    rw [hlen, range'_succ, map_cons, tail_cons]
  rw [hn, hn', ht, ← contents_store (q := { q with first := q.first + 1 }) x (by simp only; omega) (by simp only; omega) rfl]
  exact RingOk.boundPos (by simp only; omega) (by simp only; omega) (by omega)

theorem RingOk.pop (h : RingOk cfg q) (hne : isEmpty q = false) : RingOk cfg { q with first := add 64 q.first 1 } ∧
      contents cfg q = q.data (slot cfg q.first) :: contents cfg { q with first := add 64 q.first 1 } := by
  have h2 := h.new_le
  have h3 := h.new_succ_lt
  have h4 := h.new_lt
  have hlt : q.first < q.new := by simpa [isEmpty] using hne
  have hn : add 64 q.first 1 = q.first + 1 := add_of_lt (by omega)
  rw [hn]
  refine ⟨⟨hlt, by simp only; omega, h4⟩, ?_⟩
  have hlen : q.new - q.first = (q.new - (q.first + 1)) + 1 := by omega
  simp only [contents]
  rw [hlen, range'_succ, map_cons]

theorem RingOk.unpush (h : RingOk cfg q) (hne : isEmpty q = false) : RingOk cfg { q with new := sub 64 q.new 1 } ∧
      contents cfg { q with new := sub 64 q.new 1 } = (contents cfg q).dropLast := by
  have h2 := h.new_le
  have h3 := h.new_succ_lt
  have h4 := h.new_lt
  have hlt : q.first < q.new := by simpa [isEmpty] using hne
  have hn : sub 64 q.new 1 = q.new - 1 := sub_of_le (by omega) (by omega)
  rw [hn]
  refine ⟨⟨by simp only; omega, by simp only; omega, by simp only; omega⟩, ?_⟩
  have hlen : q.new - q.first = (q.new - 1 - q.first) + 1 := by omega
  simp only [contents]
  rw [hlen, range'_1_concat, map_append, map_singleton, dropLast_concat]

end CsLearning.Chan
