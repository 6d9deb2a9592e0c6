import CsLearning.Lib.Bytes
import CsLearning.Lib.Run

/-!
# `resizable_array.c`: an array that grows on access

The storage is a block of bytes, `size` counts integers of four bytes. `array_at` grows the array when the index is behind its end:
`array_inflate` takes a new block, whose bytes are whatever `malloc` finds, and copies the old one with `memcpy`. The length it
passes is `size`, so a quarter of the integers is copied. `array_keeps` says what is left of the law that a read returns the value
last written: it holds as long as all that was written is in that quarter when the array grows.

The new size is the index rounded up to a block, which is no `int` for the last eight of them (`arrayAt_in_bounds_iff`).
-/

open List Option

namespace CsLearning.Code

/-- The struct `Array`: the block, and the number of its integers, an `int`. -/
structure ResizableArray where
  array : Block
  size : Nat
  size_lt : size < 2 ^ 31

/-- `BLOCK_SIZE`. -/
def blockSize : Nat := 20

namespace ResizableArray

/-- `array_create`, over the memory `raw`. -/
def arrayCreate (initSize : Nat) (h : initSize < 2 ^ 31) (raw : Block) : ResizableArray := ⟨raw, initSize, h⟩

/-- `array_inflate`, with the new block at `raw`; nothing when the new size is not an `int`. -/
def arrayInflate (a : ResizableArray) (raw : Block) (moreSize : Nat) : Option ResizableArray :=
  if h : a.size + moreSize < 2 ^ 31 then some ⟨raw.memcpy a.array a.size, a.size + moreSize, h⟩ else none

/-- `array_at`: the array in which the integer number `index` is then read or written; nothing when an `int` overflows. -/
def arrayAt (a : ResizableArray) (raw : Block) (index : Nat) : Option ResizableArray :=
  if a.size ≤ index then
    if (index / blockSize + 1) * blockSize < 2 ^ 31 then a.arrayInflate raw ((index / blockSize + 1) * blockSize - a.size) else none
  else some a

/-- An access through `array_at`: `*array_at(a, index)` read, or assigned to. -/
inductive Access where
  | read (index : Nat)
  | write (index : Nat) (value : BitVec 32)
  deriving DecidableEq, Repr

/-- The index of an access. -/
def Access.index : Access → Nat
  | read i => i
  | write i _ => i

/-- What an access did: the value it read or wrote. -/
inductive Ev where
  | read (index : Nat) (value : BitVec 32)
  | write (index : Nat) (value : BitVec 32)
  deriving DecidableEq, Repr

/-- One access, and the memory a new block is found at, if one is taken. -/
def exec (a : ResizableArray) (x : Access × Block) : Option (ResizableArray × Ev) :=
  match x.1 with
  | .read i => (a.arrayAt x.2 i).map fun a' => (a', .read i (a'.array.load i))
  | .write i v => (a.arrayAt x.2 i).map fun a' => ({ a' with array := a'.array.store i v }, .write i v)

/-- The value an event writes to the index `i`. -/
def Ev.writes (i : Nat) : Ev → Option (BitVec 32)
  | read _ _ => none
  | write j v => if j = i then some v else none

/-- The value last written to the index `i`, if any. -/
def lastWritten (es : List Ev) (i : Nat) : Option (BitVec 32) := (es.filterMap (Ev.writes i)).getLast?

/-- The index an event writes to. -/
def Ev.written : Ev → Option Nat
  | read _ _ => none
  | write i _ => some i

/-- An access that grows the array finds every index written so far in the part that is copied. -/
def Covered (s : ResizableArray × List Ev) (x : Access × Block) : Prop :=
  s.1.size ≤ x.1.index → ∀ i ∈ s.2.filterMap Ev.written, 4 * i + 4 ≤ s.1.size

instance (s : ResizableArray × List Ev) (x : Access × Block) : Decidable (Covered s x) :=
  inferInstanceAs (Decidable (s.1.size ≤ x.1.index → ∀ i ∈ s.2.filterMap Ev.written, 4 * i + 4 ≤ s.1.size))

/-! ## One access -/

variable {a a' : ResizableArray} {raw : Block} {i : Nat}

theorem lt_size_of_arrayAt (h : a.arrayAt raw i = some a') : i < a'.size := by
  unfold arrayAt at h
  split at h
  · split at h
    · unfold arrayInflate at h
      split at h
      · grind [blockSize]
      · cases h
    · cases h
  · obtain rfl := some.inj h
    omega

/-- An access leaves the integers alone that are inside the array and, when it grows, inside the part that is copied. -/
theorem load_arrayAt (h : a.arrayAt raw i = some a') {j : Nat} (hj : j < a.size) (hcov : a.size ≤ i → 4 * j + 4 ≤ a.size) :
    j < a'.size ∧ a'.array.load j = a.array.load j := by
  unfold arrayAt at h
  split at h
  · split at h
    · unfold arrayInflate at h
      split at h
      · grind [Block.load_memcpy]
      · cases h
    · cases h
  · obtain rfl := some.inj h
    exact ⟨hj, rfl⟩

theorem exists_arrayAt (a : ResizableArray) (raw : Block) (h : (i / blockSize + 1) * blockSize < 2 ^ 31) : ∃ a', a.arrayAt raw i = some a' := by
  unfold arrayAt
  split
  · have : i < (i / blockSize + 1) * blockSize := by unfold blockSize; omega
    rw [arrayInflate, dif_pos (by omega)]
    exact ⟨_, rfl⟩
  · exact ⟨a, rfl⟩

/-! ## Runs -/

theorem lastWritten_snoc (es : List Ev) (e : Ev) (i : Nat) : lastWritten (es ++ [e]) i = (e.writes i).or (lastWritten es i) := by
  unfold lastWritten
  cases he : e.writes i <;> simp [he]

variable {es : List Ev}

theorem mem_written_of_lastWritten {v : BitVec 32} (h : lastWritten es i = some v) : i ∈ es.filterMap Ev.written := by
  obtain ⟨e, he, hv⟩ := mem_filterMap.mp (mem_of_getLast? h)
  refine mem_filterMap.mpr ⟨e, he, ?_⟩
  cases e with
  | read j w => cases hv
  | write j w =>
    by_cases hji : j = i
    · rw [hji]
      rfl
    · simp [Ev.writes, hji] at hv

/-- What was last written is in the array. -/
def Holds (es : List Ev) (a : ResizableArray) : Prop := ∀ i v, lastWritten es i = some v → i < a.size ∧ a.array.load i = v

/-- After the access to `i`, before it reads or writes, all that was written is in the array. -/
theorem Holds.arrayAt (h : Holds es a) {x : Access × Block} (hcov : Covered (a, es) x) (hat : a.arrayAt x.2 x.1.index = some a') : Holds es a' := by
  intro j v hj
  obtain ⟨hlt, hv⟩ := h j v hj
  obtain ⟨hlt', hload⟩ := load_arrayAt hat hlt fun hle => hcov hle j (mem_written_of_lastWritten hj)
  exact ⟨hlt', hload.trans hv⟩

theorem Holds.step (h : Holds es a) {x : Access × Block} (hcov : Covered (a, es) x) {e : Ev}
    (hx : a.exec x = some (a', e)) : Holds (es ++ [e]) a' ∧ ∀ i v, e = .read i v → ∀ w, lastWritten es i = some w → v = w := by
  obtain ⟨acc, raw⟩ := x
  cases acc with
  | read i =>
    obtain ⟨a1, hat, he⟩ := map_eq_some_iff.mp hx
    obtain ⟨rfl, rfl⟩ := Prod.mk.inj he
    have h1 := h.arrayAt hcov hat
    refine ⟨fun j v hj => ?_, ?_⟩
    · rw [lastWritten_snoc] at hj
      exact h1 j v hj
    · rintro j v he w hw
      cases he
      exact (h1 i w hw).2
  | write i v =>
    obtain ⟨a1, hat, he⟩ := map_eq_some_iff.mp hx
    obtain ⟨rfl, rfl⟩ := Prod.mk.inj he
    have h1 := h.arrayAt hcov hat
    refine ⟨fun j w hj => ?_, ?_⟩
    · rw [lastWritten_snoc] at hj
      by_cases hij : i = j
      · subst hij
        simp only [Ev.writes, if_true, some_or, some.injEq] at hj
        subst hj
        have hlt : i < a1.size := lt_size_of_arrayAt hat
        exact ⟨hlt, Block.load_store_self _ _ _⟩
      · simp only [Ev.writes, if_neg hij] at hj
        obtain ⟨hlt, hload⟩ := h1 j w hj
        exact ⟨hlt, (Block.load_store_of_ne _ (Ne.symm hij) _).trans hload⟩
    · rintro j w he
      cases he

end ResizableArray

open ResizableArray

/-- Growth of the array. From any initial size, in every run of reads and writes in which an access that grows the array finds all
indices written so far in the part that is copied: a read returns the value last written to its index, however often the array has
grown, and every access whose block of indices fits an `int` returns. -/
theorem array_keeps {n : Nat} (hn : n < 2 ^ 31) {raw : Block} {es : List Ev} {s : ResizableArray × List Ev}
    (h : RunIf (traced ResizableArray.exec) Covered (arrayCreate n hn raw, []) es s) :
    (∀ es₁ i v es₂, es = es₁ ++ .read i v :: es₂ → ∀ w, lastWritten es₁ i = some w → v = w) ∧
    ∀ x : Access × Block, (x.1.index / blockSize + 1) * blockSize < 2 ^ 31 → ∃ a' e, s.1.exec x = some (a', e) := by
  have hinv : ∀ {es s}, RunIf (traced ResizableArray.exec) Covered (arrayCreate n hn raw, []) es s → s.2 = es ∧ Holds es s.1 := fun h =>
    h.of_traced (fun i v hi => by cases hi) fun _ _ _ _ _ hP hok hx => (hP.step hok hx).1
  refine ⟨fun es₁ i v es₂ he w hw => ?_, fun x hx => ?_⟩
  · rw [append_cons] at he
    subst he
    obtain ⟨s2, h2, _⟩ := h.of_append
    obtain ⟨s1, x, h1, hok, hex⟩ := h2.of_snoc
    obtain ⟨hrec, hI⟩ := hinv h1
    obtain ⟨⟨a', e⟩, hx, he⟩ := map_eq_some_iff.mp hex
    have hok' : Covered (s1.1, es₁) x := by
      rw [← hrec]
      exact hok
    exact (hI.step hok' hx).2 i v (Prod.mk.inj he).2 w hw
  · obtain ⟨acc, raw⟩ := x
    obtain ⟨a', hat⟩ := s.1.exists_arrayAt raw hx
    cases acc with
    | read i => exact ⟨_, _, by rw [exec]; simp only [show s.1.arrayAt raw i = some a' from hat]; rfl⟩
    | write i v => exact ⟨_, _, by rw [exec]; simp only [show s.1.arrayAt raw i = some a' from hat]; rfl⟩

/-- The memory a block is found at, all zero. -/
def zeroed : Block := fun _ => 0

/-- The events of a run in which the array grows while all that was written is in its first quarter. -/
def grownEarly : List Ev := [.write 4 7, .write 20 8, .read 4 7, .read 20 8]

/-- The run `grownEarly` reads, after the array has grown, the value written to the index 4 before. -/
theorem array_keeps_grownEarly : ∃ s,
    RunIf (traced ResizableArray.exec) Covered (arrayCreate 20 (by decide) zeroed, []) grownEarly s ∧
    lastWritten (grownEarly.take 2) 4 = some 7 ∧ ∀ w, lastWritten (grownEarly.take 2) 4 = some w → 7 = w := by
  obtain ⟨s, h⟩ : ∃ s, Run (guarded (traced ResizableArray.exec) Covered) (arrayCreate 20 (by decide) zeroed, []) grownEarly s :=
    exists_run_of_events (guarded (traced ResizableArray.exec) Covered) (arrayCreate 20 (by decide) zeroed, [])
      [(.write 4 7, zeroed), (.write 20 8, zeroed), (.read 4, zeroed), (.read 20, zeroed)] (by decide +kernel)
  have h' := runIf_of_guarded h
  exact ⟨s, h', rfl, (array_keeps (by decide) h').1 (grownEarly.take 2) 4 7 [.read 20 8] rfl⟩

/-- The events of a run in which the array grows after a value was written behind its first quarter. -/
def grownLate : List Ev := [.write 5 7, .write 10 8, .read 5 0]

/-- Without the condition a value is lost, on the run `grownLate`. -/
theorem array_keeps_false : ¬∀ es s, Run (traced ResizableArray.exec) (arrayCreate 10 (by decide) zeroed, []) es s →
    ∀ es₁ i v es₂, es = es₁ ++ .read i v :: es₂ → ∀ w, lastWritten es₁ i = some w → v = w := by
  intro hall
  obtain ⟨s, h⟩ : ∃ s, Run (traced ResizableArray.exec) (arrayCreate 10 (by decide) zeroed, []) grownLate s :=
    exists_run_of_events (traced ResizableArray.exec) (arrayCreate 10 (by decide) zeroed, [])
      [(.write 5 7, zeroed), (.write 10 8, zeroed), (.read 5, zeroed)] (by decide +kernel)
  exact absurd (hall _ s h (grownLate.take 2) 5 0 [] rfl 7 rfl) (by decide)

/-! ## The sizes -/

namespace ResizableArray

/-- `array_free`: of the block behind the null pointer no integer counts. -/
def arrayFree (a : ResizableArray) : ResizableArray := ⟨a.array, 0, by decide⟩

/-- An access, or `array_free`. -/
def use (a : ResizableArray) : Option (Access × Block) → Option (ResizableArray × Option Ev)
  | some x => (a.exec x).map fun r => (r.1, some r.2)
  | none => some (a.arrayFree, none)

/-- The argument of `array_inflate` in `array_at`, when nothing overflows. -/
def moreSize (a : ResizableArray) (index : Int) : Int := (index.tdiv blockSize + 1) * blockSize - a.size

/-- The values of the `int` expressions in `array_at` and in the `array_inflate` that it calls, when nothing overflows. -/
def computed (a : ResizableArray) (index : Int) : List Int :=
  if index ≥ a.size then
    [index.tdiv blockSize, index.tdiv blockSize + 1, (index.tdiv blockSize + 1) * blockSize, a.moreSize index, a.size + a.moreSize index]
  else []

/-- What `array_at` should do: no `int` overflows, a growth is one by a positive number, and the index is then inside the array. -/
def GrowsInBounds (a : ResizableArray) (raw : Block) (index : Nat) : Prop :=
  (∀ x ∈ a.computed index, -2 ^ 31 ≤ x ∧ x < 2 ^ 31) ∧ (a.size ≤ index → 0 < a.moreSize index) ∧
    ∃ a', a.arrayAt raw index = some a' ∧ index < a'.size

/-- The first index whose block ends behind the last `int`. -/
def lastBlock : Nat := 2147483640

variable {a a' : ResizableArray} {raw : Block} {i : Nat}

theorem tdiv_blockSize (i : Nat) : (i : Int).tdiv blockSize = (i / blockSize : Nat) := rfl

theorem size_arrayAt (h : a.arrayAt raw i = some a') : a'.size = a.size ∨ a'.size = (i / blockSize + 1) * blockSize := by
  unfold arrayAt at h
  split_ifs at h with hle hfit
  · unfold arrayInflate at h
    split_ifs at h
    obtain rfl := some.inj h
    simp only
    omega
  · obtain rfl := some.inj h
    exact Or.inl rfl

/-- The array never has another size than its first one or a number of whole blocks. -/
theorem size_use {x : Option (Access × Block)} {e : Option Ev} (h : a.use x = some (a', e)) : a'.size = a.size ∨ blockSize ∣ a'.size := by
  cases x with
  | none =>
    cases h
    exact Or.inr (Nat.dvd_zero _)
  | some x =>
    obtain ⟨acc, raw⟩ := x
    obtain ⟨⟨a1, e1⟩, hx, he⟩ := map_eq_some_iff.mp h
    obtain ⟨rfl, -⟩ := Prod.mk.inj he
    have hs : ∃ i b, a.arrayAt raw i = some b ∧ a1.size = b.size := by
      cases acc with
      | read i =>
        obtain ⟨b, hb, hr⟩ := map_eq_some_iff.mp hx
        obtain ⟨rfl, -⟩ := Prod.mk.inj hr
        exact ⟨i, b, hb, rfl⟩
      | write i v =>
        obtain ⟨b, hb, hr⟩ := map_eq_some_iff.mp hx
        obtain ⟨rfl, -⟩ := Prod.mk.inj hr
        exact ⟨i, b, hb, rfl⟩
    obtain ⟨i, b, hb, hab⟩ := hs
    simp only [hab]
    rcases size_arrayAt hb with h | h
    · exact Or.inl h
    · exact Or.inr ⟨_, h.trans (Nat.mul_comm _ _)⟩

theorem block_lt_iff (i : Nat) : (i / blockSize + 1) * blockSize < 2 ^ 31 ↔ i < lastBlock := by
  unfold blockSize lastBlock
  omega

theorem growsInBounds_iff (a : ResizableArray) (raw : Block) (index : Nat) : a.GrowsInBounds raw index ↔ index < a.size ∨ index < lastBlock := by
  have hend : index < (index / blockSize + 1) * blockSize := by
    unfold blockSize
    omega
  constructor
  · rintro ⟨hints, -, -⟩
    by_contra hlarge
    -- the end of the block overflows
    have hge : (index : Int) ≥ a.size := by omega
    have hblock := hints ((index / blockSize + 1) * blockSize : Nat) (by rw [computed, if_pos hge]; simp)
    have := block_lt_iff index
    omega
  · intro hsmall
    refine ⟨?_, ?_, ?_⟩
    · intro x hx
      unfold computed at hx
      split_ifs at hx with hge
      · have hfit := (block_lt_iff index).mpr (by omega)
        simp only [moreSize, tdiv_blockSize, mem_cons, not_mem_nil, or_false] at hx
        unfold blockSize at hx hfit
        all_goals omega
      · simp at hx
    · grind [moreSize, tdiv_blockSize]
    · by_cases hin : index < a.size
      · exact ⟨a, by rw [arrayAt, if_neg (by omega)], hin⟩
      · obtain ⟨a', hat⟩ := a.exists_arrayAt raw ((block_lt_iff index).mpr (by omega))
        exact ⟨a', hat, lt_size_of_arrayAt hat⟩

end ResizableArray

/-- From any initial size, in every array reached by accesses and `array_free`, and for every index: `array_at` computes no size that overflows,
grows the array by a positive number when it grows it, and leaves the index inside, exactly when the index is inside already or
its block ends within the `int`s. -/
theorem arrayAt_in_bounds_iff {n : Nat} (hn : n < 2 ^ 31) {raw : Block} {es : List (Option Ev)} {a : ResizableArray}
    (h : Run ResizableArray.use (arrayCreate n hn raw) es a) :
    (a.size = n ∨ blockSize ∣ a.size) ∧
    ∀ (raw' : Block) (index : Nat), a.GrowsInBounds raw' index ↔ index < a.size ∨ index < lastBlock := by
  constructor
  · induction h with
    | nil => exact Or.inl rfl
    | snoc _ _ hx ih =>
      rcases size_use hx with hsame | hblock
      · rwa [hsame]
      · exact Or.inr hblock
  · intro raw' index
    exact a.growsInBounds_iff raw' index

/-- An array of ten integers, after an access to the index 25, an `array_free` and an access to the last index that is possible. -/
theorem arrayAt_in_bounds_far : ∃ a, Run ResizableArray.use (arrayCreate 10 (by decide) zeroed) [some (.write 25 7), none] a ∧
    a.GrowsInBounds zeroed (lastBlock - 1) := by
  have hrun : ∃ a, Run ResizableArray.use (arrayCreate 10 (by decide) zeroed) [some (.write 25 7), none] a :=
    exists_run_of_events ResizableArray.use (arrayCreate 10 (by decide) zeroed) [some (.write 25 7, zeroed), none] (by decide +kernel)
  obtain ⟨a, h⟩ := hrun
  exact ⟨a, h, ((arrayAt_in_bounds_iff (by decide) h).2 zeroed (lastBlock - 1)).mpr (Or.inr (by decide))⟩

/-- The new size for one of the last eight indices overflows. -/
theorem arrayAt_overflows : (arrayCreate 10 (by decide) zeroed).arrayAt zeroed 2147483640 = none ∧
    (arrayCreate 10 (by decide) zeroed).computed 2147483640 = [107374182, 107374183, 2147483660, 2147483650, 2147483660] ∧
    ¬(arrayCreate 10 (by decide) zeroed).GrowsInBounds zeroed 2147483640 := by
  refine ⟨by decide +kernel, by decide +kernel, ?_⟩
  rw [growsInBounds_iff]
  decide

end CsLearning.Code
