import Formula.Operator
import Formula.Proofs.Number.Word

/-!
# `Formula.Proofs.Value.Word`: exact 32-bit arithmetic

The bitwise and shift operators reduce the integers of their operands modulo
`2 ^ 32`, compute on the words, and answer with the number of the resulting word.
The answer is stated here with the arithmetic of integers alone.

* `Value.integer`: the integer of a value.
* `IsWrapped`: the signed word of an integer.
* `Value.HasBits`: a signed word with given bits in two's complement.
* `isWrapped_shiftLeft`, `toInt_sshiftRight_eq_floor`, `toNat_ushiftRight_eq_floor`:
  shifts multiply or divide by a power of two.
* `bitwise_exact`: all these operators on all values.
-/

set_option autoImplicit false

namespace Formula

/-! ### Words and integers -/

/-- The integer `r` differs from `n` by a multiple of `2 ^ 32` and is a signed word. -/
def IsWrapped (r n : ℤ) : Prop := r ≡ n [ZMOD 2 ^ 32] ∧ -2 ^ 31 ≤ r ∧ r < 2 ^ 31

/-- A word of 32 bits, read with a sign, is the integer wrapped. -/
theorem isWrapped_toInt_ofInt (n : ℤ) : IsWrapped (BitVec.ofInt 32 n).toInt n := by
  refine ⟨?_, BitVec.le_toInt _, BitVec.toInt_lt⟩
  rw [BitVec.toInt_ofInt]
  exact Int.bmod_emod

/-- A shift to the left multiplies, and the product wraps. -/
theorem isWrapped_shiftLeft (n : ℤ) (places : Nat) :
    IsWrapped (BitVec.ofInt 32 n <<< places).toInt (n * 2 ^ places) := by
  have hmul : (BitVec.ofInt 32 n <<< places).toInt = (BitVec.ofInt 32 (n * 2 ^ places)).toInt := by
    rw [BitVec.toInt_shiftLeft, BitVec.toInt_ofInt, BitVec.toNat_ofInt, Nat.shiftLeft_eq,
      Nat.cast_mul, Int.toNat_of_nonneg (Int.emod_nonneg _ (by decide)), Int.emod_mul_bmod,
      Nat.cast_pow, Nat.cast_ofNat]
  rw [hmul]
  exact isWrapped_toInt_ofInt _

/-- A shift to the right that keeps the sign divides and rounds down. -/
theorem toInt_sshiftRight_eq_floor (w : BitVec 32) (places : Nat) :
    (w.sshiftRight places).toInt = ⌊(w.toInt : ℚ) / 2 ^ places⌋ := by
  have hfloor := Rat.floor_intCast_div_natCast w.toInt (2 ^ places)
  rw [Nat.cast_pow, Nat.cast_ofNat] at hfloor
  rw [hfloor, BitVec.toInt_sshiftRight, Int.shiftRight_eq_div_pow]

/-- A shift to the right that brings in zeros divides the unsigned reading. -/
theorem toNat_ushiftRight_eq_floor (w : BitVec 32) (places : Nat) :
    ((w >>> places).toNat : ℤ) = ⌊((w.toNat : ℤ) : ℚ) / 2 ^ places⌋ := by
  have hfloor := Rat.floor_intCast_div_natCast w.toNat (2 ^ places)
  rw [Nat.cast_pow, Nat.cast_ofNat] at hfloor
  rw [hfloor, BitVec.toNat_ushiftRight, Nat.shiftRight_eq_div_pow, Int.natCast_ediv]

namespace Value

/-! ### Values that are integers -/

/-- The integer of a value's number, zero for one that is not finite. -/
def integer (v : Value) : ℤ := Number.truncated v.toNumber.value

/-- The places that a shift by this value moves. -/
def places (v : Value) : Nat := (v.integer % 32).toNat

/-- A number that is exactly this integer. -/
def IsExactly (v : Value) (n : ℤ) : Prop := ∃ x, v = .number x ∧ x.IsExactly n

/-- A signed word with these bits in two's complement. -/
def HasBits (v : Value) (bit : Nat → Bool) : Prop :=
  ∃ n : ℤ, v.IsExactly n ∧ -2 ^ 31 ≤ n ∧ n < 2 ^ 31 ∧ ∀ i < 32, n.testBit i = bit i

/-- The word of a value is its integer cut to 32 bits. -/
theorem toWord_eq_ofInt (v : Value) : v.toWord = BitVec.ofInt 32 v.integer :=
  v.toNumber.toWord_eq_ofInt

/-- Read without a sign it is the remainder. -/
theorem toNat_toWord (v : Value) : (v.toWord.toNat : ℤ) = v.integer % 2 ^ 32 :=
  v.toNumber.toNat_toWord

/-- Read with a sign it is the integer wrapped. -/
theorem isWrapped_toWord (v : Value) : IsWrapped v.toWord.toInt v.integer := by
  rw [toWord_eq_ofInt]
  exact isWrapped_toInt_ofInt _

/-- Shifts use the last five bits of the right operand. -/
theorem shiftCount_eq_places (v : Value) : v.toNumber.shiftCount = v.places :=
  v.toNumber.shiftCount_eq

/-- The word of a value has the low bits of its integer. -/
theorem getLsbD_toWord (v : Value) {i : Nat} (hi : i < 32) :
    v.toWord.getLsbD i = v.integer.testBit i := by
  rw [toWord_eq_ofInt, getLsbD_ofInt, decide_eq_true hi, Bool.true_and]

/-- A word of 32 bits is a number without rounding. -/
theorem isExactly_ofSignedWord (w : BitVec 32) : IsExactly (.number (.ofSignedWord w)) w.toInt :=
  ⟨_, rfl, Number.isExactly_ofSignedWord w⟩

/-- The number of a word has the bits of the word. -/
theorem hasBits_ofSignedWord {w : BitVec 32} {bit : Nat → Bool}
    (hbits : ∀ i < 32, w.getLsbD i = bit i) : HasBits (.number (.ofSignedWord w)) bit := by
  refine ⟨w.toInt, isExactly_ofSignedWord w, w.le_toInt, w.toInt_lt, ?_⟩
  intro i hi
  rw [testBit_toInt w hi, hbits i hi]

end Value

/-! ### The operators -/

section Operators

open Value

variable (a b : Value)

/-- Bits that either operand has. -/
theorem hasBits_bitOr : HasBits (BinaryOperator.bitOr.apply a b)
    fun i => a.integer.testBit i || b.integer.testBit i :=
  hasBits_ofSignedWord fun i hi => by
    rw [BitVec.getLsbD_or, getLsbD_toWord a hi, getLsbD_toWord b hi]

/-- Bits that both operands have. -/
theorem hasBits_bitAnd : HasBits (BinaryOperator.bitAnd.apply a b)
    fun i => a.integer.testBit i && b.integer.testBit i :=
  hasBits_ofSignedWord fun i hi => by
    rw [BitVec.getLsbD_and, getLsbD_toWord a hi, getLsbD_toWord b hi]

/-- Bits that one of the operands has. -/
theorem hasBits_bitXor : HasBits (BinaryOperator.bitXor.apply a b)
    fun i => a.integer.testBit i ^^ b.integer.testBit i :=
  hasBits_ofSignedWord fun i hi => by
    rw [BitVec.getLsbD_xor, getLsbD_toWord a hi, getLsbD_toWord b hi]

/-- Bits that the operand does not have. -/
theorem hasBits_complement : HasBits (UnaryOperator.complement.apply a)
    fun i => !a.integer.testBit i :=
  hasBits_ofSignedWord fun i hi => by
    rw [BitVec.getLsbD_not, getLsbD_toWord a hi, decide_eq_true hi, Bool.true_and]

/-- A shift to the left multiplies by a power of two, and wraps. -/
theorem exists_isExactly_shiftLeft : ∃ r, (BinaryOperator.shiftLeft.apply a b).IsExactly r ∧
    IsWrapped r (a.integer * 2 ^ b.places) := by
  refine ⟨_, isExactly_ofSignedWord _, ?_⟩
  rw [toWord_eq_ofInt, shiftCount_eq_places]
  exact isWrapped_shiftLeft _ _

/-- A shift to the right divides by a power of two, rounded down. -/
theorem isExactly_shiftRight : (BinaryOperator.shiftRight.apply a b).IsExactly
    ⌊(a.toWord.toInt : ℚ) / 2 ^ b.places⌋ := by
  rw [← shiftCount_eq_places, ← toInt_sshiftRight_eq_floor]
  exact isExactly_ofSignedWord _

/-- A shift to the right without a sign divides the remainder. -/
theorem exists_isExactly_shiftRightUnsigned :
    ∃ r, (BinaryOperator.shiftRightUnsigned.apply a b).IsExactly r ∧
      r = ⌊((a.integer % 2 ^ 32 : ℤ) : ℚ) / 2 ^ b.places⌋ ∧ 0 ≤ r ∧ r < 2 ^ 32 := by
  refine ⟨_, ⟨_, rfl, Number.isExactly_ofWord _⟩, ?_, Int.natCast_nonneg _, ?_⟩
  · rw [toNat_ushiftRight_eq_floor, toNat_toWord, shiftCount_eq_places]
  · exact_mod_cast BitVec.isLt _

/-! ### Zero on the right -/

/-- The operand that leaves a word alone. -/
def zeroOperand : Value := .number .zero

/-- With zero the bits stay. -/
theorem bitOr_zero : BinaryOperator.bitOr.apply a zeroOperand
    = .number (.ofSignedWord a.toWord) := by
  show Value.number (.ofSignedWord (a.toWord ||| Number.zero.toWord)) = _
  rw [Number.toWord_zero, BitVec.or_zero]

/-- By no places nothing is shifted. -/
theorem shiftRight_zero : BinaryOperator.shiftRight.apply a zeroOperand
    = .number (.ofSignedWord a.toWord) := by
  show Value.number (.ofSignedWord (a.toWord.sshiftRight Number.zero.shiftCount)) = _
  rw [Number.shiftCount_zero, BitVec.sshiftRight_zero]

/-- By no places nothing is shifted, and the sign is lost. -/
theorem shiftRightUnsigned_zero : BinaryOperator.shiftRightUnsigned.apply a zeroOperand
    = .number (.ofWord a.toWord) := by
  show Value.number (.ofWord (a.toWord >>> Number.zero.shiftCount)) = _
  rw [Number.shiftCount_zero, BitVec.ushiftRight_zero]

/-- Two complements read the word as a signed one. -/
theorem complement_complement : UnaryOperator.complement.apply (UnaryOperator.complement.apply a)
    = .number (.ofSignedWord a.toWord) := by
  show Value.number (.ofSignedWord (~~~(Number.ofSignedWord (~~~a.toWord)).toWord)) = _
  rw [Number.toWord_ofSignedWord, BitVec.not_not]

/-- The word of a value is reached by steps on doubles that lose nothing, and its
readings are the integer of the value modulo `2 ^ 32`, from zero and around zero.
The operators are bitwise operations in two's complement, products that wrap and
quotients rounded down, and all answers are exact. So three ways to read a word as a
signed one agree, and reading a word twice is reading it once. -/
theorem bitwise_exact :
    a.toWord = (if a.toNumber.isFinite
      then (a.toNumber.trunc.remEuclid (.ofNat (2 ^ 32))).saturated else 0) ∧
    (a.toWord.toNat : ℤ) = a.integer % 2 ^ 32 ∧
    IsWrapped a.toWord.toInt a.integer ∧
    HasBits (BinaryOperator.bitOr.apply a b)
      (fun i => a.integer.testBit i || b.integer.testBit i) ∧
    HasBits (BinaryOperator.bitAnd.apply a b)
      (fun i => a.integer.testBit i && b.integer.testBit i) ∧
    HasBits (BinaryOperator.bitXor.apply a b)
      (fun i => a.integer.testBit i ^^ b.integer.testBit i) ∧
    HasBits (UnaryOperator.complement.apply a) (fun i => !a.integer.testBit i) ∧
    (∃ r, (BinaryOperator.shiftLeft.apply a b).IsExactly r ∧
      IsWrapped r (a.integer * 2 ^ b.places)) ∧
    (BinaryOperator.shiftRight.apply a b).IsExactly ⌊(a.toWord.toInt : ℚ) / 2 ^ b.places⌋ ∧
    (∃ r, (BinaryOperator.shiftRightUnsigned.apply a b).IsExactly r ∧
      r = ⌊((a.integer % 2 ^ 32 : ℤ) : ℚ) / 2 ^ b.places⌋ ∧ 0 ≤ r ∧ r < 2 ^ 32) ∧
    BinaryOperator.bitOr.apply a zeroOperand
      = UnaryOperator.complement.apply (UnaryOperator.complement.apply a) ∧
    BinaryOperator.shiftRight.apply a zeroOperand
      = UnaryOperator.complement.apply (UnaryOperator.complement.apply a) ∧
    BinaryOperator.bitOr.apply (BinaryOperator.bitOr.apply a zeroOperand) zeroOperand
      = BinaryOperator.bitOr.apply a zeroOperand ∧
    BinaryOperator.shiftRightUnsigned.apply
        (BinaryOperator.shiftRightUnsigned.apply a zeroOperand) zeroOperand
      = BinaryOperator.shiftRightUnsigned.apply a zeroOperand := by
  refine ⟨a.toNumber.toWord_eq_saturated, toNat_toWord a, isWrapped_toWord a, hasBits_bitOr a b,
    hasBits_bitAnd a b, hasBits_bitXor a b, hasBits_complement a, exists_isExactly_shiftLeft a b,
    isExactly_shiftRight a b, exists_isExactly_shiftRightUnsigned a b, ?_, ?_, ?_, ?_⟩
  · rw [bitOr_zero, complement_complement]
  · rw [shiftRight_zero, complement_complement]
  · rw [bitOr_zero, bitOr_zero]
    show Value.number (.ofSignedWord (Number.ofSignedWord a.toWord).toWord) = _
    rw [Number.toWord_ofSignedWord]
  · rw [shiftRightUnsigned_zero, shiftRightUnsigned_zero]
    show Value.number (.ofWord (Number.ofWord a.toWord).toWord) = _
    rw [Number.toWord_ofWord]

end Operators

end Formula
