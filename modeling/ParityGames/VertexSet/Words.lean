/-!
# Rows of storage words

A row of 64-bit words read as one long row of bits, the least significant bit of the first word
first. Operations on whole words act on every bit at its own place.

This is how the bit vector below a vertex set keeps its bits, and what the sets rely on: bit `i` is
bit `i % 64` of word `i / 64`, there are just enough words for the capacity, a bit beyond the
capacity can be asked for and is off, and counting, listing and comparing sets read the bits below
the capacity only. The vector promises nothing on the remaining bits of its last word. Vertex sets
keep them off; `LooseSet` is the same storage with any bits there, and answers all requests alike.
-/

namespace ParityGames

abbrev Word := BitVec 64

namespace Words

def countFor (capacity : Nat) : Nat := (capacity + 63) / 64

/-- Bit `i` of a row; bits behind the last word are off. -/
def bit (words : Array Word) (i : Nat) : Bool :=
  (words.getD (i / 64) 0#64).getLsbD (i % 64)

def lowest (count : Nat) : Word := BitVec.ofNat 64 ((1 <<< min count 64) - 1)

def single (position : Nat) : Word := BitVec.twoPow 64 position

theorem word_lt_countFor {i capacity : Nat} (h : i < capacity) : i / 64 < countFor capacity := by
  unfold countFor
  omega

theorem getLsbD_lowest (count position : Nat) :
    (lowest count).getLsbD position = (decide (position < count) && decide (position < 64)) := by
  simp only [lowest, BitVec.getLsbD_ofNat, Nat.one_shiftLeft, Nat.testBit_two_pow_sub_one]
  rw [← Bool.decide_and, ← Bool.decide_and, decide_eq_decide]
  omega

theorem bit_replicate_zero (count i : Nat) : bit (Array.replicate count 0#64) i = false := by
  simp only [bit, Array.getD_eq_getD_getElem?, Array.getElem?_replicate]
  split <;> simp

theorem bit_modify (words : Array Word) (change : Word → Word) (j i : Nat) :
    bit (words.modify j change) i =
      if j = i / 64 ∧ i / 64 < words.size then (change (words.getD j 0#64)).getLsbD (i % 64)
      else bit words i := by
  simp only [bit, Array.getD_eq_getD_getElem?, Array.getElem?_modify]
  by_cases hj : j = i / 64
  · by_cases hi : i / 64 < words.size
    · simp [hj, hi]
    · simp [hj, hi]
  · simp [hj]

theorem bit_zipWith {f : Word → Word → Word} {a b : Array Word} (h : a.size = b.size)
    {g : Bool → Bool → Bool} (hg : g false false = false)
    (hf : ∀ x y k, k < 64 → (f x y).getLsbD k = g (x.getLsbD k) (y.getLsbD k)) (i : Nat) :
    bit (Array.zipWith f a b) i = g (bit a i) (bit b i) := by
  simp only [bit, Array.getD_eq_getD_getElem?, Array.getElem?_zipWith]
  by_cases hi : i / 64 < a.size
  · have hb : i / 64 < b.size := h ▸ hi
    simp only [hi, hb, Array.getElem?_eq_getElem, Option.getD_some]
    exact hf _ _ _ (Nat.mod_lt _ (by decide))
  · have hb : ¬ i / 64 < b.size := h ▸ hi
    simp [hi, hb, hg]

theorem ext_bit {a b : Array Word} (h : a.size = b.size) (hbit : ∀ i, bit a i = bit b i) :
    a = b := by
  refine Array.ext h fun j ha hb => ?_
  refine BitVec.eq_of_getLsbD_eq fun k hk => ?_
  have := hbit (64 * j + k)
  have hdiv : (64 * j + k) / 64 = j := by omega
  have hmod : (64 * j + k) % 64 = k := by omega
  simpa [bit, hdiv, hmod, ha, hb] using this

end Words

end ParityGames
