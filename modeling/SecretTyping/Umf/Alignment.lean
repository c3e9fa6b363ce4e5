import Mathlib.Data.Nat.Bitwise

/-! Words, and their alignment. -/

namespace SecretTyping.Umf

/-- The number of values of a size. -/
abbrev sizeRange : Nat := 2 ^ 64

/-- Is a value a multiple of an alignment? -/
def isAligned (value align : Nat) : Bool := align = 0 || value &&& (align - 1) = 0

/-- The least multiple of an alignment that is not less than a value, as words are computed. -/
def alignUp (value align : Nat) : Nat :=
  let mask := BitVec.ofNat 64 align - 1
  (BitVec.ofNat 64 value + mask &&& ~~~mask).toNat

/-- The sum of two words. -/
def addWord (a b : Nat) : Nat := (BitVec.ofNat 64 a + BitVec.ofNat 64 b).toNat

/-- The difference of two words. -/
def subWord (a b : Nat) : Nat := (BitVec.ofNat 64 a - BitVec.ofNat 64 b).toNat

variable {a b value align : Nat}

/-- Words are added as numbers if the sum is a word. -/
theorem addWord_eq (bound : a + b < sizeRange) : addWord a b = a + b := by
  rw [addWord, BitVec.toNat_add, BitVec.toNat_ofNat, BitVec.toNat_ofNat, ← Nat.add_mod]
  exact Nat.mod_eq_of_lt bound

/-- Words are subtracted as numbers if the difference is one. -/
theorem subWord_eq (less : b ≤ a) (bound : a < sizeRange) : subWord a b = a - b := by
  -- As words the two are in the same order.
  have small : BitVec.ofNat 64 b ≤ BitVec.ofNat 64 a := by
    rw [BitVec.le_def, BitVec.toNat_ofNat, BitVec.toNat_ofNat, Nat.mod_eq_of_lt bound,
      Nat.mod_eq_of_lt (Nat.lt_of_le_of_lt less bound)]
    exact less
  rw [subWord, BitVec.toNat_sub_of_le small, BitVec.toNat_ofNat, BitVec.toNat_ofNat,
    Nat.mod_eq_of_lt bound, Nat.mod_eq_of_lt (Nat.lt_of_le_of_lt less bound)]

/-- Each value is aligned if no alignment is asked for. -/
theorem isAligned_of_le_one (small : align ≤ 1) : isAligned value align = true := by
  -- There is no alignment, or it is one.
  have cases : align = 0 ∨ align = 1 := by omega
  rcases cases with rfl | rfl
  · rfl
  · simp [isAligned]

/-- A value is aligned to a power of two if that divides it. -/
theorem isAligned_two_pow (bits : Nat) : isAligned value (2 ^ bits) = true ↔ 2 ^ bits ∣ value := by
  -- The mask has the bits below the power, which are the remainder.
  have positive : 2 ^ bits ≠ 0 := Nat.ne_of_gt (Nat.two_pow_pos bits)
  rw [isAligned, Nat.and_two_pow_sub_one_eq_mod, Nat.dvd_iff_mod_eq_zero]
  simp

/-- The mask of a power of two leaves the multiples of it. -/
theorem and_not_mask {bits : Nat} (word : BitVec 64) (small : bits < 64) :
    (word &&& ~~~(BitVec.ofNat 64 (2 ^ bits) - 1)).toNat = word.toNat / 2 ^ bits * 2 ^ bits := by
  -- The mask has the bits from that one on.
  have positive := Nat.two_pow_pos bits
  have bound : 2 ^ bits < 2 ^ 64 := Nat.pow_lt_pow_right (by omega) small
  have mask : (BitVec.ofNat 64 (2 ^ bits) - 1).toNat = 2 ^ bits - 1 := by
    rw [BitVec.toNat_sub_of_le]
    · rw [BitVec.toNat_ofNat, Nat.mod_eq_of_lt bound]
      rfl
    · rw [BitVec.le_def, BitVec.toNat_ofNat, Nat.mod_eq_of_lt bound]
      exact positive
  apply Nat.eq_of_testBit_eq
  intro i
  rw [Nat.testBit_mul_two_pow, Nat.testBit_div_two_pow, BitVec.testBit_toNat, BitVec.getLsbD_and,
    BitVec.getLsbD_not, ← BitVec.testBit_toNat (BitVec.ofNat 64 (2 ^ bits) - 1), mask,
    Nat.testBit_two_pow_sub_one]
  by_cases upper : bits ≤ i
  · by_cases inside : i < 64
    · simp [upper, inside, Nat.not_lt.mpr upper, BitVec.testBit_toNat]
    · simp [upper, inside, BitVec.testBit_toNat, BitVec.getLsbD_of_ge _ i (Nat.le_of_not_lt inside)]
  · simp [upper, Nat.lt_of_not_le upper]

/-- The next multiple of a power of two is less than that away. -/
theorem alignUp_two_pow {bits : Nat} (bound : value + 2 ^ bits ≤ sizeRange) (small : bits < 64) :
    value ≤ alignUp value (2 ^ bits) ∧ alignUp value (2 ^ bits) < value + 2 ^ bits ∧
      2 ^ bits ∣ alignUp value (2 ^ bits) := by
  -- The sum is a word.
  have positive := Nat.two_pow_pos bits
  have power : 2 ^ bits < 2 ^ 64 := Nat.pow_lt_pow_right (by omega) small
  have one : (1 : BitVec 64).toNat = 1 := rfl
  have range : sizeRange = 2 ^ 64 := rfl
  have sum : (BitVec.ofNat 64 value + (BitVec.ofNat 64 (2 ^ bits) - 1)).toNat =
      value + 2 ^ bits - 1 := by
    have word : BitVec.ofNat 64 value + (BitVec.ofNat 64 (2 ^ bits) - 1) =
        BitVec.ofNat 64 (value + 2 ^ bits - 1) := by
      apply BitVec.eq_of_toNat_eq
      simp only [BitVec.toNat_add, BitVec.toNat_sub, BitVec.toNat_ofNat, one]
      omega
    rw [word, BitVec.toNat_ofNat, Nat.mod_eq_of_lt (by omega)]
  rw [alignUp, and_not_mask _ small, sum]
  -- The sum without its remainder is the multiple.
  have division := Nat.div_add_mod (value + 2 ^ bits - 1) (2 ^ bits)
  have remainder := Nat.mod_lt (value + 2 ^ bits - 1) positive
  rw [Nat.mul_comm] at division
  exact ⟨by omega, by omega, Nat.dvd_mul_left _ _⟩

end SecretTyping.Umf
