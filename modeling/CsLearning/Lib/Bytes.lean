import Mathlib

/-!
# Blocks of bytes

A block of memory is a function from offsets to bytes. A 32-bit integer takes four bytes, the least significant first; `load` and
`store` count in integers, `memcpy` counts in bytes.
-/

namespace CsLearning

/-- The bytes of a block. -/
abbrev Block := Nat → BitVec 8

namespace Block

/-- The integer number `i` of a block. -/
def load (m : Block) (i : Nat) : BitVec 32 := m (4 * i + 3) ++ m (4 * i + 2) ++ m (4 * i + 1) ++ m (4 * i)

/-- The block with the integer number `i` overwritten. -/
def store (m : Block) (i : Nat) (v : BitVec 32) : Block :=
  fun b => if b / 4 = i then v.extractLsb' (8 * (b % 4)) 8 else m b

/-- `memcpy`: the first `n` bytes of the destination become those of the source. -/
def memcpy (dst src : Block) (n : Nat) : Block := fun b => if b < n then src b else dst b

theorem load_congr {m m' : Block} {i : Nat} (h : ∀ b, b / 4 = i → m b = m' b) : m.load i = m'.load i := by grind [load]

@[simp] theorem load_store_self (m : Block) (i : Nat) (v : BitVec 32) : (m.store i v).load i = v := by
  have m0 : 4 * i % 4 = 0 := by omega
  simp only [load, store]
  -- Bit number `n` is found in the byte number `n / 8`.
  ext n hn
  simp only [BitVec.getElem_append]
  grind

theorem load_store_of_ne (m : Block) {i j : Nat} (h : j ≠ i) (v : BitVec 32) : (m.store i v).load j = m.load j :=
  load_congr fun b hb => by rw [store, if_neg (by omega)]

/-- An integer whose four bytes are all copied is copied. -/
theorem load_memcpy {dst src : Block} {n i : Nat} (h : 4 * i + 4 ≤ n) : (dst.memcpy src n).load i = src.load i :=
  load_congr fun b hb => by rw [memcpy, if_pos (by omega)]

end Block

end CsLearning
