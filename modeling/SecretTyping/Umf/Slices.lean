import Mathlib.Order.Defs.LinearOrder
import SecretTyping.Lib.Digits

/-! The words that are keys of the tree, and the slices of four bits that they are read in. -/

namespace SecretTyping.Umf.Critnib

open Digits

/-- A machine word, which is what keys are. -/
abbrev Word := BitVec 64

/-- The number of bits below a slice. -/
abbrev Sh := BitVec 8

/-- The bits of a slice. -/
def slice : Nat := 4

/-- The mask of a slice. -/
def nib : Word := (1#64 <<< slice) - 1

/-- The number of children of a node. -/
abbrev slnodes : Nat := 16

/-- Words are in the order of the numbers that they stand for. -/
instance : LinearOrder Word where
  le_refl word := BitVec.le_refl word
  le_trans _ _ _ := BitVec.le_trans
  le_antisymm _ _ := BitVec.le_antisymm
  le_total a b := BitVec.le_total a b
  lt_iff_le_not_ge a b := by
    rw [BitVec.lt_def, BitVec.le_def, BitVec.le_def]
    omega
  toDecidableLE := inferInstance

/-- The mask of the bits above a subtree. -/
def pathMask (shift : Sh) : Word := ~~~nib <<< shift.toNat

/-- What is left by the mask of a slice is less than the number of children. -/
theorem and_nib_lt (word : Word) : (word &&& nib).toNat < slnodes := by
  -- The mask has the four lowest bits.
  have bound := Nat.and_le_right (n := word.toNat) (m := nib.toNat)
  rw [BitVec.toNat_and]
  exact Nat.lt_of_le_of_lt bound (by decide)

/-- The index of the child at the slice of a key. -/
def sliceIndex (key : Word) (shift : Sh) : Fin slnodes :=
  ⟨(key >>> shift.toNat &&& nib).toNat, and_nib_lt _⟩

/-- The index of the most significant bit. -/
def mssbIndex (word : Word) : Sh := BitVec.ofNat 8 word.toNat.log2

/-- The slice in which a path and a key differ, given the bits that do. -/
def shiftOf (at' : Word) : Sh := mssbIndex at' &&& ~~~(BitVec.ofNat 8 (slice - 1))

/-- Is the key outside of the subtree below a node? -/
def outside (key path : Word) (shift : Sh) : Bool :=
  (key ^^^ path) >>> shift.toNat &&& ~~~nib != 0

/-- The mask of a slice has its lowest bits. -/
theorem getLsbD_nib (i : Nat) : nib.getLsbD i = decide (i < slice) := by
  -- The bits of the word are looked at one by one.
  by_cases inside : i < 64
  · have bits : ∀ position : Fin 64, nib.getLsbD position.val = decide (position.val < slice) := by
      decide
    exact bits ⟨i, inside⟩
  · have upper : ¬ i < slice := by
      show ¬ i < 4
      omega
    rw [BitVec.getLsbD_of_ge _ _ (by omega), decide_eq_false upper]

/-- The mask of a path has the bits above the slice. -/
theorem getLsbD_pathMask (shift : Sh) (i : Nat) :
    (pathMask shift).getLsbD i = (decide (i < 64) && decide (shift.toNat + slice ≤ i)) := by
  -- The bits of the slice are below those of the mask.
  rw [pathMask, BitVec.getLsbD_shiftLeft, BitVec.getLsbD_not, getLsbD_nib, Bool.eq_iff_iff]
  simp only [Bool.and_eq_true, Bool.not_eq_true', decide_eq_true_eq, decide_eq_false_iff_not]
  omega

/-- Words have the same bits above a slice if the mask leaves the same of them. -/
theorem and_pathMask_eq_iff (key other : Word) (shift : Sh) :
    key &&& pathMask shift = other &&& pathMask shift ↔
      above (shift.toNat + slice) key.toNat = above (shift.toNat + slice) other.toNat := by
  -- Both say that the bits above the slice are the same.
  rw [above_eq_iff_testBit]
  -- Bits beyond the word are zero in both.
  apply Iff.intro
  · intro same i upper
    rw [BitVec.testBit_toNat, BitVec.testBit_toNat]
    by_cases inside : i < 64
    · have bit := congrArg (fun word : Word => word.getLsbD i) same
      simp only [BitVec.getLsbD_and, getLsbD_pathMask, inside, upper, decide_true, Bool.and_true]
        at bit
      exact bit
    · rw [BitVec.getLsbD_of_ge _ _ (by omega), BitVec.getLsbD_of_ge _ _ (by omega)]
  · intro same
    apply BitVec.eq_of_getLsbD_eq
    intro i inside
    rw [BitVec.getLsbD_and, BitVec.getLsbD_and, getLsbD_pathMask]
    by_cases upper : shift.toNat + slice ≤ i
    · have bit := same i upper
      rw [BitVec.testBit_toNat, BitVec.testBit_toNat] at bit
      rw [bit]
    · simp [upper]

/-- The index of a child is the digit of the key. -/
theorem sliceIndex_val (key : Word) (shift : Sh) :
    (sliceIndex key shift).val = digit slice shift.toNat key.toNat := by
  -- The mask of a slice leaves the remainder.
  have mask : nib.toNat = 2 ^ slice - 1 := by decide
  show (key >>> shift.toNat &&& nib).toNat = _
  rw [digit, BitVec.toNat_and, mask, Nat.and_two_pow_sub_one_eq_mod,
    BitVec.toNat_ushiftRight, Nat.shiftRight_eq_div_pow]

/-- Keys have the same child at a slice if they have the same digit there. -/
theorem sliceIndex_eq_iff (key other : Word) (shift : Sh) :
    sliceIndex key shift = sliceIndex other shift ↔
      digit slice shift.toNat key.toNat = digit slice shift.toNat other.toNat := by
  -- Both indices are digits.
  rw [← sliceIndex_val, ← sliceIndex_val, Fin.val_inj]

/-- A key is outside of a subtree if it differs from the path above the slice. -/
theorem outside_iff (key path : Word) (shift : Sh) :
    outside key path shift = true ↔
      above (shift.toNat + slice) key.toNat ≠ above (shift.toNat + slice) path.toNat := by
  -- What is left of the difference is at least a slice.
  have rest : ∀ word : Word, word &&& ~~~nib = 0 ↔ word.toNat < 2 ^ slice := by
    intro word
    have masked := and_pathMask_eq_iff word 0#64 0
    rw [BitVec.zero_and] at masked
    apply masked.trans
    rw [← Nat.div_eq_zero_iff_lt (Nat.two_pow_pos slice)]
    simp [above]
  rw [outside, bne_iff_ne, ne_eq, not_iff_not, above_eq_iff_xor, rest,
    BitVec.toNat_ushiftRight, BitVec.toNat_xor, Nat.shiftRight_eq_div_pow, Nat.pow_add,
    Nat.div_lt_iff_lt_mul (Nat.two_pow_pos _), Nat.mul_comm]

/-- The shift of a new node is the lowest bit of the highest slice in which two words differ. -/
theorem shiftOf_toNat (path key : Word) :
    (shiftOf (path ^^^ key)).toNat = highestDifference slice path.toNat key.toNat := by
  -- The index of a bit is less than sixty-four, and the mask leaves the multiples of four.
  have bounded : (path ^^^ key).toNat.log2 < 64 := by
    by_cases zero : (path ^^^ key).toNat = 0
    · rw [zero]
      decide
    · exact (Nat.log2_lt zero).mpr (path ^^^ key).isLt
  have masked : ∀ position : Fin 64,
      (BitVec.ofNat 8 position.val &&& ~~~(BitVec.ofNat 8 (slice - 1))).toNat =
        position.val / slice * slice := by decide
  rw [shiftOf, mssbIndex, highestDifference, ← BitVec.toNat_xor]
  exact masked ⟨_, bounded⟩

end SecretTyping.Umf.Critnib
