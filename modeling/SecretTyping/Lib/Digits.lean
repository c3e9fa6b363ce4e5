import Mathlib.Data.Nat.Bitwise
import Mathlib.Algebra.Order.Ring.Nat
import Mathlib.Tactic.Ring

/-! Numbers read as digits of some bits each, and the order that is decided by the highest one. -/

namespace SecretTyping.Digits

/-- A number without its lowest bits. -/
def above (bits number : Nat) : Nat := number / 2 ^ bits

/-- The digit of a number whose lowest bit is at a position. -/
def digit (width low number : Nat) : Nat := number / 2 ^ low % 2 ^ width

variable {width low high a b : Nat}

/-- Without no bits, a number is itself. -/
@[simp] theorem above_zero (number : Nat) : above 0 number = number := by
  simp [above]

/-- What is above a digit is what is above its lowest bit, without the digit. -/
theorem above_add (width low number : Nat) :
    above (low + width) number = above low number / 2 ^ width := by
  -- The two divisions are one by the product.
  rw [above, above, Nat.div_div_eq_div_mul, Nat.pow_add]

/-- Numbers that agree above a position agree above each that is higher. -/
theorem above_eq_of_le (upward : low ≤ high) (agree : above low a = above low b) :
    above high a = above high b := by
  -- The higher position is the lower one and some bits more.
  obtain ⟨more, rfl⟩ := Nat.exists_eq_add_of_le upward
  rw [above_add, above_add, agree]

/-- What is above a position is in the order of the numbers. -/
theorem above_mono (bits : Nat) (ordered : a ≤ b) : above bits a ≤ above bits b :=
  Nat.div_le_div_right ordered

/-- The order above a position is that of the numbers, where they differ there. -/
theorem lt_of_above_lt (low : Nat) (less : above low a < above low b) : a < b := by
  -- Otherwise the quotients would be in the order of the numbers.
  by_contra notLess
  have reversed := above_mono low (Nat.le_of_not_lt notLess)
  omega

/-- Numbers agree above the lowest bit of a digit if they agree above the digit and in it. -/
theorem above_eq_iff (width : Nat) :
    above low a = above low b ↔
      above (low + width) a = above (low + width) b ∧ digit width low a = digit width low b := by
  -- A number is determined by its quotient and its remainder.
  rw [above_add, above_add]
  show above low a = above low b ↔ _ ∧ above low a % 2 ^ width = above low b % 2 ^ width
  apply Iff.intro
  · intro agree
    rw [agree]
    exact ⟨rfl, rfl⟩
  · rintro ⟨quotients, remainders⟩
    rw [← Nat.div_add_mod (above low a) (2 ^ width), quotients, remainders, Nat.div_add_mod]

/-- Where numbers agree above a digit, the digit decides their order. -/
theorem lt_of_digit_lt (agree : above (low + width) a = above (low + width) b)
    (less : digit width low a < digit width low b) : a < b := by
  -- The quotients by the lowest bit of the digit are in this order.
  apply lt_of_above_lt low
  rw [above_add, above_add] at agree
  have first := Nat.div_add_mod (above low a) (2 ^ width)
  have second := Nat.div_add_mod (above low b) (2 ^ width)
  rw [agree] at first
  have remainders : above low a % 2 ^ width < above low b % 2 ^ width := less
  omega

/-- Numbers agree above a position if none of the bits there differs. -/
theorem above_eq_iff_testBit (bits : Nat) :
    above bits a = above bits b ↔ ∀ i, bits ≤ i → a.testBit i = b.testBit i := by
  -- The bits of the quotient are those of the number, from the position on.
  apply Iff.intro
  · intro agree i upper
    have shifted := congrArg (fun number => Nat.testBit number (i - bits)) agree
    simpa [above, Nat.testBit_div_two_pow, Nat.sub_add_cancel upper] using shifted
  · intro same
    apply Nat.eq_of_testBit_eq
    intro i
    simp only [above, Nat.testBit_div_two_pow]
    exact same (i + bits) (by omega)

/-- Numbers agree above a position if their difference in bits is below it. -/
theorem above_eq_iff_xor (bits : Nat) : above bits a = above bits b ↔ a ^^^ b < 2 ^ bits := by
  -- The quotient of the difference is the difference of the quotients.
  rw [← Nat.div_eq_zero_iff_lt (Nat.two_pow_pos bits), Nat.xor_div_two_pow, Nat.xor_eq_zero_iff]
  rfl

/-- The lowest bit of the highest digit in which two numbers differ. -/
def highestDifference (width a b : Nat) : Nat := (a ^^^ b).log2 / width * width

/-- Numbers agree above the highest digit in which they differ. -/
theorem above_highestDifference (positive : 0 < width) (a b : Nat) :
    above (highestDifference width a b + width) a =
      above (highestDifference width a b + width) b := by
  -- The highest bit that differs is in the digit.
  rw [above_eq_iff_xor]
  by_cases same : a ^^^ b = 0
  · rw [same]
    exact Nat.two_pow_pos _
  · rw [← Nat.log2_lt same, highestDifference]
    have division := Nat.div_add_mod' (a ^^^ b).log2 width
    have remainder := Nat.mod_lt (a ^^^ b).log2 positive
    omega

/-- Numbers that differ do so in the highest digit in which they differ. -/
theorem digit_highestDifference (positive : 0 < width) (different : a ≠ b) :
    digit width (highestDifference width a b) a ≠ digit width (highestDifference width a b) b := by
  -- If the digit were the same, the numbers would agree above its lowest bit.
  intro same
  have agree := (above_eq_iff width).mpr ⟨above_highestDifference positive a b, same⟩
  have nonzero : a ^^^ b ≠ 0 := by rwa [ne_eq, Nat.xor_eq_zero_iff]
  rw [above_eq_iff_xor, ← Nat.log2_lt nonzero, highestDifference] at agree
  exact absurd (Nat.div_mul_le_self (a ^^^ b).log2 width) (Nat.not_le.mpr agree)

/-- A position above which numbers differ is not higher than their highest difference. -/
theorem le_highestDifference (positive : 0 < width) (aligned : width ∣ low)
    (different : above low a ≠ above low b) : low ≤ highestDifference width a b := by
  -- The highest bit that differs is not below the position, which is where a digit begins.
  rw [ne_eq, above_eq_iff_xor, Nat.not_lt] at different
  have nonzero : a ^^^ b ≠ 0 := by
    have := Nat.two_pow_pos low
    omega
  obtain ⟨count, rfl⟩ := aligned
  have reached := (Nat.le_log2 nonzero).mpr different
  rw [highestDifference, Nat.mul_comm width count]
  apply Nat.mul_le_mul_right
  rwa [Nat.le_div_iff_mul_le positive, Nat.mul_comm]

/-- The highest difference is below each position above which the numbers agree. -/
theorem highestDifference_lt (positive : 0 < width) (aligned : width ∣ high) (different : a ≠ b)
    (agree : above high a = above high b) : highestDifference width a b + width ≤ high := by
  -- The highest bit that differs is below the position, and so is the digit that it is in.
  have nonzero : a ^^^ b ≠ 0 := by rwa [ne_eq, Nat.xor_eq_zero_iff]
  rw [above_eq_iff_xor, ← Nat.log2_lt nonzero] at agree
  obtain ⟨count, rfl⟩ := aligned
  have digits : (a ^^^ b).log2 / width < count := by
    rwa [Nat.div_lt_iff_lt_mul positive, Nat.mul_comm]
  calc
    (a ^^^ b).log2 / width * width + width = ((a ^^^ b).log2 / width + 1) * width := by ring
    _ ≤ count * width := Nat.mul_le_mul_right width digits
    _ = width * count := Nat.mul_comm count width

end SecretTyping.Digits
