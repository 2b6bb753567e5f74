import Formula.Number.Word
import Formula.Proofs.Number.Shortest

/-!
# `Formula.Proofs.Number.Exact`: numbers that rounding leaves alone

A finite double is a whole number of quanta, so it has an exact value. A ratio
that is a double already is rounded to itself, and every integer below `2 ^ 53`
is one.

* `Number.value`: the exact value, and `truncated`: a value without its
  fraction.
* `Number.truncate_eq_truncated`: the integer of a double is the one of its
  value.
* `Number.ofRatio_self`: a magnitude is rounded to itself.
* `fits_whole`: integers of 53 significant bits are doubles.
* `Number.IsExactly`: a number that is an integer, as each below `2 ^ 53` is.
* `Number.equal_iff`, `Number.less_iff`: comparisons are those of places on the
  line.
-/

set_option autoImplicit false

namespace Formula

/-! ### Rounding once -/

/-- Powers grow with their exponent. -/
theorem pow_le_pow_of_le {b m n : Nat} (hb : 0 < b) (h : m ≤ n) : Nat.pow b m ≤ Nat.pow b n :=
  Nat.pow_le_pow_right hb h

/-- A ratio that is rounded below the limit is a finite number. -/
theorem Number.ofRatio_of_lt {negative : Bool} {num den : Nat}
    (h : roundQuanta num den < quantaLimit) :
    Number.ofRatio negative num den = .finite negative ⟨roundQuanta num den, fits_roundQuanta h⟩ :=
  dif_pos h

/-- It is the number of the quanta that it is rounded to. -/
theorem Number.ofRatio_eq {negative : Bool} {q num den : Nat} (hq : Fits q)
    (h : roundQuanta num den = q) : Number.ofRatio negative num den = .finite negative ⟨q, hq⟩ := by
  have hlt : roundQuanta num den < quantaLimit := h ▸ hq.1
  rw [Number.ofRatio_of_lt hlt]
  congr 2

/-- A magnitude rounds to itself. -/
theorem roundsTo_self {q : Nat} (hq : Fits q) (hpos : 0 < q) : RoundsTo q q := by
  have hulp : (0 : ℚ) < ulp q := by exact_mod_cast ulp_pos q
  have hlow : (lowerEnd q : ℚ) < 4 * q := by
    rw [cast_lowerEnd hq hpos]
    split <;> linarith
  have hhigh : (4 * q : ℚ) < upperEnd q := by
    rw [cast_upperEnd]
    linarith
  exact ⟨hlow.le, hhigh.le, fun hend => absurd hend (not_or_intro hlow.ne' hhigh.ne)⟩

/-- Quanta that fit a double are not rounded. -/
theorem roundQuanta_self {q : Nat} (hq : Fits q) : roundQuanta q 1 = q := by
  rcases Nat.eq_zero_or_pos q with rfl | hpos
  · decide
  · refine roundQuanta_eq hq hpos one_pos ?_
    rw [Nat.cast_one, div_one]
    exact roundsTo_self hq hpos

/-- A magnitude rounds to no other. -/
theorem eq_of_roundsTo {q n : Nat} (hq : Fits q) (hpos : 0 < q) (hn : Fits n)
    (h : RoundsTo q n) : q = n := by
  have hround : roundQuanta n 1 = q := by
    refine roundQuanta_eq hq hpos one_pos ?_
    rw [Nat.cast_one, div_one]
    exact h
  exact hround.symm.trans (roundQuanta_self hn)

/-- So they are the number with these quanta. -/
theorem Number.ofRatio_self (negative : Bool) {q : Nat} (hq : Fits q) :
    Number.ofRatio negative q 1 = .finite negative ⟨q, hq⟩ :=
  Number.ofRatio_eq hq (roundQuanta_self hq)

/-! ### Integers -/

/-- An integer of at most 53 significant bits is a double, if it is not too large. -/
theorem fits_whole (shift : Nat) {n bits : Nat} (hn : n = bits * Nat.pow 2 shift)
    (hbits : bits < significandLimit) (hshift : shift ≤ rangeBits - 53) :
    Fits (n * unitQuanta) := by
  have hsum : ∀ k, Nat.pow 2 k * unitQuanta = Nat.pow 2 (k + quantumBits) := by
    intro k
    unfold unitQuanta
    simp only [Nat.pow_eq, Nat.pow_add]
  -- Below the limit of the range, and with the same bits for a significand.
  refine ⟨?_, bits, shift + quantumBits, hbits, ?_⟩
  · have hlt : n < Nat.pow 2 rangeBits := by
      calc n = bits * Nat.pow 2 shift := hn
        _ < significandLimit * Nat.pow 2 shift :=
            Nat.mul_lt_mul_of_pos_right hbits (Nat.pow_pos (by decide))
        _ = Nat.pow 2 (53 + shift) := (Nat.pow_add 2 53 shift).symm
        _ ≤ Nat.pow 2 rangeBits :=
            pow_le_pow_of_le (by decide) (Nat.add_le_of_le_sub' (by decide) hshift)
    have hlimit : quantaLimit = Nat.pow 2 rangeBits * unitQuanta := by
      unfold quantaLimit
      rw [hsum]
    rw [hlimit]
    exact Nat.mul_lt_mul_of_pos_right hlt unitQuanta_pos
  · rw [hn, Nat.mul_assoc, hsum]

/-- Every integer below `2 ^ 53` is a double. -/
theorem fits_of_lt_significandLimit {n : Nat} (hn : n < significandLimit) :
    Fits (n * unitQuanta) :=
  fits_whole 0 (Nat.mul_one n).symm hn (by decide)

/-- A number that is not zero has quanta. -/
theorem mul_unitQuanta_pos {n : Nat} (h : 0 < n) : 0 < n * unitQuanta := by
  have hunit := unitQuanta_pos
  generalize unitQuanta = unit at *
  exact Nat.mul_pos h hunit

/-- A whole number that fits a double is the double of its quanta. -/
theorem ofNat_of_fits {n : Nat} (h : Fits (n * unitQuanta)) :
    Number.ofNat n = .finite false ⟨n * unitQuanta, h⟩ :=
  Number.ofRatio_self false h

/-- Numbers of one sign and one magnitude are the same. -/
theorem Number.finite_congr {s t : Bool} {m k : Magnitude} (hsign : s = t)
    (hquanta : m.quanta = k.quanta) : Number.finite s m = .finite t k := by
  obtain ⟨q, hq⟩ := m
  obtain ⟨q', hq'⟩ := k
  obtain rfl : q = q' := hquanta
  rw [hsign]

/-- So is an integer, with its sign. -/
theorem Number.ofInt_of_fits {n : ℤ} (h : Fits (n.natAbs * unitQuanta)) :
    Number.ofInt n = .finite (decide (n < 0)) ⟨n.natAbs * unitQuanta, h⟩ := by
  have hunit : (0 : ℤ) < unitQuanta := by exact_mod_cast unitQuanta_pos
  have habs : (n * unitQuanta).natAbs = n.natAbs * unitQuanta := by
    rw [Int.natAbs_mul, Int.natAbs_natCast]
  have hzero : n * unitQuanta = 0 ↔ n = 0 := by
    rw [mul_eq_zero, or_iff_left hunit.ne']
  have hsign : n * unitQuanta < 0 ↔ n < 0 := by
    rw [← not_le, ← not_le, mul_nonneg_iff_of_pos_right hunit]
  unfold Number.ofInt Number.ofSignedRatio
  simp only [habs, hsign, hzero]
  -- Zero is treated apart in the definition, for it has no sign.
  split
  · rename_i hn
    have hquanta : n.natAbs * unitQuanta = 0 := Nat.mul_eq_zero.2 (.inl (Int.natAbs_eq_zero.2 hn))
    exact Number.finite_congr (by simp [hn]) hquanta.symm
  · exact Number.ofRatio_self _ h

/-! ### Exact values -/

namespace Number

/-- The exact value of a finite number. The others have none, and zero stands
for it. -/
def value : Number → ℚ
  | .finite negative m => signed negative m.quanta / unitQuanta
  | _ => 0

/-- An exact value moved toward zero to an integer. -/
def truncated (x : ℚ) : ℤ := if 0 ≤ x then ⌊x⌋ else ⌈x⌉

/-- The integer part of the negative is the negative of the integer part. -/
theorem truncated_neg (x : ℚ) : truncated (-x) = -truncated x := by
  unfold truncated
  rcases lt_trichotomy x 0 with hneg | rfl | hpos
  · rw [if_pos (by linarith), if_neg (not_le.2 hneg), Int.floor_neg]
  · simp
  · rw [if_neg (by linarith), if_pos hpos.le, Int.ceil_neg]

/-- The integer part of a ratio is its quotient. -/
theorem truncated_natCast_div (n d : Nat) : truncated ((n : ℚ) / d) = (n / d : Nat) := by
  have hnonneg : (0 : ℚ) ≤ n / d := by positivity
  unfold truncated
  rw [if_pos hnonneg]
  exact Rat.floor_natCast_div_natCast n d

/-- The integer of a number is the one of its exact value. -/
theorem truncate_eq_truncated (x : Number) : x.truncate = truncated x.value := by
  cases x with
  | nan => simp [truncate, value, truncated]
  | infinite negative => simp [truncate, value, truncated]
  | finite negative m =>
      have hwhole := truncated_natCast_div m.quanta unitQuanta
      cases negative with
      | false => exact hwhole.symm
      | true =>
          show -((m.quanta / unitQuanta : Nat) : ℤ)
            = truncated (((-(m.quanta : ℤ) : ℤ) : ℚ) / unitQuanta)
          rw [Int.cast_neg, Int.cast_natCast, neg_div, truncated_neg, hwhole]

/-- A sign may be put on before or after multiplying. -/
theorem signed_mul (negative : Bool) (m n : Nat) :
    signed negative (m * n) = signed negative m * n := by
  cases negative with
  | false => exact Int.natCast_mul m n
  | true =>
      show -((m * n : Nat) : ℤ) = -(m : ℤ) * n
      rw [Int.natCast_mul, Int.neg_mul]

/-- Without the sign there is the number again. -/
theorem natAbs_signed (negative : Bool) (n : Nat) : (signed negative n).natAbs = n := by
  cases negative <;> simp [signed]

/-- An integer is its sign and its size. -/
theorem signed_natAbs (n : ℤ) : signed (decide (n < 0)) n.natAbs = n := by
  unfold signed
  split <;> rename_i hsign <;> simp only [decide_eq_true_eq] at hsign <;> omega

/-- A number that is finite and has the value of an integer. -/
def IsExactly (x : Number) (n : ℤ) : Prop := x.isFinite = true ∧ x.value = n

/-- A finite number is an integer if its quanta, with the sign, are those of
the integer. -/
theorem isExactly_finite_iff {negative : Bool} {m : Magnitude} {n : ℤ} :
    (finite negative m).IsExactly n ↔ signed negative m.quanta = n * unitQuanta := by
  have hunit := cast_unitQuanta_pos.ne'
  have hvalue : (finite negative m).value = signed negative m.quanta / unitQuanta := rfl
  unfold IsExactly
  rw [hvalue, div_eq_iff hunit]
  constructor
  · rintro ⟨-, h⟩
    exact_mod_cast h
  · intro h
    exact ⟨rfl, by exact_mod_cast h⟩

/-- An integer below `2 ^ 53` is itself as a double. -/
theorem isExactly_ofInt {n : ℤ} (hn : n.natAbs < significandLimit) :
    (ofInt n).IsExactly n := by
  rw [ofInt_of_fits (fits_of_lt_significandLimit hn), isExactly_finite_iff, signed_mul,
    signed_natAbs]

/-- Small whole numbers are doubles without rounding. -/
theorem isExactly_ofNat {n : Nat} (hn : n < significandLimit) : (ofNat n).IsExactly n := by
  rw [ofNat_of_fits (fits_of_lt_significandLimit hn), isExactly_finite_iff, signed_mul]
  rfl

/-- The integer of a number that is one. -/
theorem IsExactly.truncate_eq {x : Number} {n : ℤ} (h : x.IsExactly n) : x.truncate = n := by
  rw [x.truncate_eq_truncated, h.2]
  simp [truncated]

/-- What is exactly an integer has no fraction. -/
theorem IsExactly.isIntegral {x : Number} {n : ℤ} (h : x.IsExactly n) : x.isIntegral = true := by
  cases x with
  | nan => exact absurd h.1 Bool.false_ne_true
  | infinite negative => exact absurd h.1 Bool.false_ne_true
  | finite negative m =>
      have hquanta := congrArg Int.natAbs (isExactly_finite_iff.1 h)
      rw [natAbs_signed, Int.natAbs_mul, Int.natAbs_natCast] at hquanta
      unfold Number.isIntegral
      dsimp only
      rw [hquanta, Nat.mul_mod_left]
      rfl

/-- A finite number without a fraction is the integer that it is moved to. -/
theorem isExactly_truncate {x : Number} (hfinite : x.isFinite = true)
    (hintegral : x.isIntegral = true) : x.IsExactly x.truncate := by
  cases x with
  | nan => exact absurd hfinite Bool.false_ne_true
  | infinite negative => exact absurd hfinite Bool.false_ne_true
  | finite negative m =>
      have hdvd : unitQuanta ∣ m.quanta :=
        Nat.dvd_of_mod_eq_zero (by simpa [isIntegral] using hintegral)
      rw [isExactly_finite_iff]
      unfold truncate
      rw [← signed_mul, Nat.div_mul_cancel hdvd]

/-! ### Places on the line -/

variable {x y : Number}

/-- Only one value is not a number. -/
theorem isNaN_iff : x.isNaN = true ↔ x = .nan := by
  cases x <;> simp [isNaN]

/-- It is the one without a place on the line. -/
theorem key_eq_none_iff : x.key = none ↔ x = .nan := by
  cases x <;> simp [key]

/-- Numbers are equal when they stand at one place. -/
theorem equal_iff : x.equal y = true ↔ x.key = y.key ∧ x.key ≠ none := by
  unfold equal
  cases x.key with
  | none => simp
  | some a => cases y.key <;> simp

/-- Numbers are ordered as their places on the line. -/
theorem less_iff : x.less y = true ↔ ∃ a b, x.key = some a ∧ y.key = some b ∧ a < b := by
  unfold less
  cases x.key with
  | none => simp
  | some a => cases y.key <;> simp

end Number

end Formula
