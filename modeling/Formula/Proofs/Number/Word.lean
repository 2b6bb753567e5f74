import Formula.Proofs.Number.Exact

/-!
# `Formula.Proofs.Number.Word`: words by way of doubles

A word is the integer of a number modulo `2 ^ 32`. On doubles it is reached by
steps that may each round or saturate: the fraction is dropped, the remainder by
`2 ^ 32` is taken with the sign of the number and moved up when it is negative,
and what results is cast to a word. On the way every number is an integer below
`2 ^ 53`, so no step rounds, and the cast meets no number outside the words.

* `Number.IsExactly.rem`, `Number.IsExactly.add`: steps on exact integers.
* `Number.IsExactly.remEuclid`: the remainder that is not negative.
* `Number.toWord_eq_saturated`: the steps lead to the word of the number.
* `Number.toWord_eq_ofInt`: the word is that of the integer of the exact value.
* `Number.toWord_ofWord`, `Number.toWord_ofSignedWord`: a word comes back from
  either number that it is read as.
* `getLsbD_ofInt`: the bits of a word are those of the integer in two's
  complement.
-/

set_option autoImplicit false

namespace Formula

/-- A double stays one without its fraction: it has none, or what remains is below
`2 ^ 53`. -/
theorem fits_floor {q : Nat} (hq : Fits q) : Fits (q / unitQuanta * unitQuanta) := by
  obtain ⟨hlimit, significand, shift, hsignificand, rfl⟩ := id hq
  -- With a large shift there is no fraction to cut off. With a small one the rest has fewer
  -- bits.
  by_cases hshift : quantumBits ≤ shift
  · have hpow : Nat.pow 2 shift = unitQuanta * Nat.pow 2 (shift - quantumBits) := by
      unfold unitQuanta
      simp only [Nat.pow_eq]
      rw [← Nat.pow_add, Nat.add_sub_cancel' hshift]
    have hdvd : unitQuanta ∣ significand * Nat.pow 2 shift :=
      Dvd.dvd.mul_left ⟨_, hpow⟩ significand
    rwa [Nat.div_mul_cancel hdvd]
  · refine fits_of_lt_significandLimit ?_
    have hunit : unitQuanta = Nat.pow 2 shift * Nat.pow 2 (quantumBits - shift) := by
      unfold unitQuanta
      simp only [Nat.pow_eq]
      rw [← Nat.pow_add, Nat.add_sub_cancel' (Nat.le_of_not_le hshift)]
    have hpow : 0 < Nat.pow 2 shift := Nat.pow_pos (by decide)
    rw [hunit, Nat.mul_comm significand, Nat.mul_div_mul_left _ _ hpow]
    exact Nat.lt_of_le_of_lt (Nat.div_le_self _ _) hsignificand

namespace Number

/-! ### The steps -/

/-- The number moved toward zero to an integer. -/
def trunc : Number → Number
  | .finite negative m => ofRatio negative (m.quanta / unitQuanta * unitQuanta) 1
  | x => x

/-- The number without its sign. -/
def abs : Number → Number
  | .nan => .nan
  | .infinite _ => .infinite false
  | .finite _ m => .finite false m

/-- The remainder, moved up by the divisor when it is negative. -/
def remEuclid (x y : Number) : Number :=
  let r := x.rem y
  if r.less zero then r.add y.abs else r

/-- The cast to a word: the fraction is dropped, what lies outside the words goes to
the nearest one, and not a number goes to zero. -/
def saturated : Number → BitVec 32
  | .nan => 0
  | .infinite negative => if negative then 0 else BitVec.allOnes 32
  | .finite negative m =>
    if negative then 0 else BitVec.ofNat 32 (min (m.quanta / unitQuanta) (2 ^ 32 - 1))

variable {x y : Number} {m n : ℤ}

/-! ### Steps on exact integers -/

/-- What is exactly an integer is finite, with the quanta of the integer. -/
theorem IsExactly.exists_finite (h : x.IsExactly n) :
    ∃ negative k, x = .finite negative k ∧ signed negative k.quanta = n * unitQuanta := by
  cases x with
  | nan => exact absurd h.1 Bool.false_ne_true
  | infinite negative => exact absurd h.1 Bool.false_ne_true
  | finite negative k => exact ⟨negative, k, rfl, isExactly_finite_iff.1 h⟩

/-- Signed quanta of an integer have its size and its sign. -/
theorem signed_natAbs_of_signed_eq {negative : Bool} {q : Nat} {unit : Nat} (hunit : 0 < unit)
    (h : signed negative q = n * unit) : q = n.natAbs * unit ∧ signed negative n.natAbs = n := by
  have hq : q = n.natAbs * unit := by
    rw [← natAbs_signed negative q, h, Int.natAbs_mul, Int.natAbs_natCast]
  refine ⟨hq, ?_⟩
  rw [hq, signed_mul] at h
  exact Int.eq_of_mul_eq_mul_right (by exact_mod_cast hunit.ne') h

/-- A zero of either sign is exactly zero. -/
theorem isExactly_zeroOf_iff {negative : Bool} : (zeroOf negative).IsExactly n ↔ n = 0 := by
  have hunit : (unitQuanta : ℤ) ≠ 0 := by exact_mod_cast unitQuanta_pos.ne'
  have hzero : signed negative 0 = 0 := by cases negative <;> rfl
  show (finite negative .zero).IsExactly n ↔ n = 0
  rw [isExactly_finite_iff]
  show signed negative 0 = n * unitQuanta ↔ n = 0
  rw [hzero, eq_comm, mul_eq_zero, or_iff_left hunit]

/-- Cutting off the fraction is exact. -/
theorem isExactly_trunc (hfinite : x.isFinite = true) : x.trunc.IsExactly x.truncate := by
  cases x with
  | nan => cases hfinite
  | infinite negative => cases hfinite
  | finite negative k =>
      show (ofRatio negative (k.quanta / unitQuanta * unitQuanta) 1).IsExactly
        (signed negative (k.quanta / unitQuanta))
      rw [ofRatio_self negative (fits_floor k.fits), isExactly_finite_iff, signed_mul]

/-- So is leaving out the sign of a number that has none. -/
theorem IsExactly.abs {k : Nat} (h : x.IsExactly k) : x.abs.IsExactly k := by
  obtain ⟨negative, q, rfl, hq⟩ := h.exists_finite
  obtain ⟨hquanta, -⟩ := signed_natAbs_of_signed_eq unitQuanta_pos hq
  show (finite false q).IsExactly k
  rw [isExactly_finite_iff, hquanta]
  exact Int.natCast_mul _ _

/-- Integers in doubles are ordered as integers. -/
theorem IsExactly.less_iff (hx : x.IsExactly m) (hy : y.IsExactly n) :
    x.less y = true ↔ m < n := by
  obtain ⟨s, a, rfl, ha⟩ := hx.exists_finite
  obtain ⟨t, b, rfl, hb⟩ := hy.exists_finite
  have hunit : (0 : ℤ) < unitQuanta := by exact_mod_cast unitQuanta_pos
  show decide (signed s a.quanta < signed t b.quanta) = true ↔ m < n
  rw [decide_eq_true_iff, ha, hb]
  exact mul_lt_mul_iff_of_pos_right hunit

/-- The sum of integers is exact when it is below `2 ^ 53`. -/
theorem IsExactly.add (hx : x.IsExactly m) (hy : y.IsExactly n)
    (hsum : (m + n).natAbs < significandLimit) : (x.add y).IsExactly (m + n) := by
  obtain ⟨s, a, rfl, ha⟩ := hx.exists_finite
  obtain ⟨t, b, rfl, hb⟩ := hy.exists_finite
  have hadd : (finite s a).add (finite t b)
      = ofSignedRatio ((m + n) * unitQuanta) 1 (s && t) := by
    show ofSignedRatio (signed s a.quanta + signed t b.quanta) 1 (s && t) = _
    rw [ha, hb, ← Int.add_mul]
  have hexact := isExactly_ofInt hsum
  unfold ofInt at hexact
  rw [hadd]
  -- Only the sign of a zero depends on the terms.
  unfold ofSignedRatio at hexact ⊢
  split
  · rename_i hzero
    rw [if_pos hzero] at hexact
    rw [isExactly_zeroOf_iff] at hexact ⊢
    exact hexact
  · rename_i hne
    rwa [if_neg hne] at hexact

/-- The remainder of integers is exact when the divisor is at most `2 ^ 53`. -/
theorem IsExactly.rem {k : Nat} (hx : x.IsExactly m) (hy : y.IsExactly k) (hk : 0 < k)
    (hlimit : k ≤ significandLimit) : (x.rem y).IsExactly (m.tmod k) := by
  obtain ⟨s, a, rfl, ha⟩ := hx.exists_finite
  obtain ⟨t, b, rfl, hb⟩ := hy.exists_finite
  obtain ⟨hquanta, hsigned⟩ := signed_natAbs_of_signed_eq unitQuanta_pos ha
  obtain ⟨hdivisor, -⟩ := signed_natAbs_of_signed_eq unitQuanta_pos hb
  rw [Int.natAbs_natCast] at hdivisor
  have hne : b.quanta ≠ 0 := hdivisor ▸ (mul_unitQuanta_pos hk).ne'
  -- The quanta have the unit in common, so their remainder is that of the integers. It is small
  -- enough to fit.
  have hmod : a.quanta % b.quanta = m.natAbs % k * unitQuanta := by
    rw [hquanta, hdivisor, Nat.mul_mod_mul_right]
  have hfits : Fits (m.natAbs % k * unitQuanta) :=
    fits_of_lt_significandLimit (Nat.lt_of_lt_of_le (Nat.mod_lt _ hk) hlimit)
  have hrem : (finite s a).rem (finite t b) = finite s ⟨m.natAbs % k * unitQuanta, hfits⟩ := by
    show (if b.quanta = 0 then nan else ofRatio s (a.quanta % b.quanta) 1) = _
    rw [if_neg hne, hmod, ofRatio_self s hfits]
  have hsign : signed s (m.natAbs % k) = (signed s m.natAbs).tmod k := by
    cases s with
    | false => exact Int.ofNat_tmod _ _
    | true =>
        show -((m.natAbs % k : Nat) : ℤ) = (-(m.natAbs : ℤ)).tmod k
        rw [Int.neg_tmod, Int.ofNat_tmod]
  rw [hrem, isExactly_finite_iff, signed_mul, hsign, hsigned]

/-- The remainder that is not negative is the one of the division that rounds down. -/
theorem IsExactly.remEuclid {k : Nat} (hx : x.IsExactly m) (hy : y.IsExactly k) (hk : 0 < k)
    (hlimit : k ≤ significandLimit) : (x.remEuclid y).IsExactly (m % k) := by
  have hrem := hx.rem hy hk hlimit
  have hzero : zero.IsExactly 0 := isExactly_zeroOf_iff.2 rfl
  have hemod := Int.emod_eq_tmod (a := m) (b := k)
  have hnonneg : 0 ≤ m % (k : ℤ) := Int.emod_nonneg _ (by exact_mod_cast hk.ne')
  have hlt : m % (k : ℤ) < k := Int.emod_lt_of_pos _ (by exact_mod_cast hk)
  unfold Number.remEuclid
  dsimp only
  split
  · rename_i hless
    -- A negative remainder is not the one of a multiple, so the divisor is due.
    have hneg : m.tmod k < 0 := (hrem.less_iff hzero).1 hless
    have hup : m % (k : ℤ) = m.tmod k + k := by
      split at hemod
      · rw [Nat.cast_zero] at hemod
        omega
      · rwa [Int.natAbs_natCast] at hemod
    have hsum := hrem.add hy.abs
    rw [← hup] at hsum
    exact hsum (by omega)
  · rename_i hless
    have hsign : ¬m.tmod k < 0 := fun h => hless ((hrem.less_iff hzero).2 h)
    have heq : m % (k : ℤ) = m.tmod k := by
      split at hemod
      · rwa [Nat.cast_zero, Int.add_zero] at hemod
      · rw [Int.natAbs_natCast] at hemod
        omega
    rw [heq]
    exact hrem

/-- The cast is exact on the integers that are words. -/
theorem IsExactly.saturated {k : Nat} (h : x.IsExactly k) (hk : k < 2 ^ 32) :
    x.saturated = BitVec.ofNat 32 k := by
  obtain ⟨negative, q, rfl, hq⟩ := h.exists_finite
  obtain ⟨hquanta, hsigned⟩ := signed_natAbs_of_signed_eq unitQuanta_pos hq
  rw [Int.natAbs_natCast] at hquanta hsigned
  have hdiv : q.quanta / unitQuanta = k := by
    rw [hquanta, Nat.mul_div_cancel _ unitQuanta_pos]
  -- Within the range nothing is saturated. A negative number can only be zero here.
  cases negative with
  | false =>
      show BitVec.ofNat 32 (min (q.quanta / unitQuanta) (2 ^ 32 - 1)) = BitVec.ofNat 32 k
      rw [hdiv, Nat.min_eq_left (Nat.le_sub_one_of_lt hk)]
  | true =>
      have hzero : k = 0 := by
        have hneg : -(k : ℤ) = k := hsigned
        omega
      rw [hzero]
      rfl

/-! ### The word of a number -/

/-- What is not finite is the word zero. -/
theorem toWord_of_not_isFinite (h : x.isFinite = false) : x.toWord = 0 := by
  cases x with
  | nan => rfl
  | infinite negative => rfl
  | finite negative k => cases h

/-- The steps on doubles lead to the word of the number. -/
theorem toWord_eq_saturated (x : Number) : x.toWord =
    if x.isFinite then (x.trunc.remEuclid (ofNat (2 ^ 32))).saturated else 0 := by
  split
  · rename_i hfinite
    have hdivisor : (ofNat (2 ^ 32)).IsExactly ((2 ^ 32 : Nat) : ℤ) := isExactly_ofNat (by decide)
    -- The remainder is between zero and the divisor, so the cast to a word does not saturate.
    have hrem := (isExactly_trunc hfinite).remEuclid hdivisor (by decide) (by decide)
    have hnonneg : 0 ≤ x.truncate % ((2 ^ 32 : Nat) : ℤ) := Int.emod_nonneg _ (by decide)
    have hlt : x.truncate % ((2 ^ 32 : Nat) : ℤ) < (2 ^ 32 : Nat) :=
      Int.emod_lt_of_pos _ (by decide)
    obtain ⟨k, hk⟩ := Int.eq_ofNat_of_zero_le hnonneg
    rw [hk] at hrem hlt
    rw [hrem.saturated (by exact_mod_cast hlt)]
    apply BitVec.eq_of_toNat_eq
    unfold toWord wordOfInt
    rw [BitVec.toNat_ofInt, hk, BitVec.toNat_ofNat, Int.toNat_natCast,
      Nat.mod_eq_of_lt (by exact_mod_cast hlt)]
  · rename_i hfinite
    exact toWord_of_not_isFinite (Bool.eq_false_iff.2 hfinite)

/-- The word of a number is its integer part cut to 32 bits. -/
theorem toWord_eq_ofInt (x : Number) : x.toWord = BitVec.ofInt 32 (truncated x.value) := by
  rw [← truncate_eq_truncated]
  rfl

/-- Read without a sign it is the remainder of the integer part. -/
theorem toNat_toWord (x : Number) : (x.toWord.toNat : ℤ) = truncated x.value % 2 ^ 32 := by
  rw [toWord_eq_ofInt, BitVec.toNat_ofInt]
  exact Int.toNat_of_nonneg (Int.emod_nonneg _ (by decide))

/-- The places of a shift are the integer of the number modulo 32. -/
theorem shiftCount_eq (x : Number) : x.shiftCount = (truncated x.value % 32).toNat := by
  have hnat := x.toNat_toWord
  unfold shiftCount
  omega

/-! ### Numbers of words -/

/-- A word is a number without rounding. -/
theorem isExactly_ofWord (w : BitVec 32) : (ofWord w).IsExactly w.toNat :=
  isExactly_ofNat (Nat.lt_trans w.isLt (by decide))

/-- So is a word with a sign. -/
theorem isExactly_ofSignedWord (w : BitVec 32) : (ofSignedWord w).IsExactly w.toInt := by
  have hlow := w.le_toInt
  have hhigh := w.toInt_lt
  have hlimit : 2 ^ 32 < significandLimit := by decide
  refine isExactly_ofInt ?_
  omega

/-- A word comes back from the number that it is read as. -/
theorem toWord_ofWord (w : BitVec 32) : (ofWord w).toWord = w := by
  unfold toWord wordOfInt
  rw [(isExactly_ofWord w).truncate_eq, BitVec.ofInt_natCast, BitVec.ofNat_toNat,
    BitVec.setWidth_eq]

/-- The word of the number of a word is the word. -/
theorem toWord_ofSignedWord (w : BitVec 32) : (ofSignedWord w).toWord = w := by
  unfold toWord wordOfInt
  rw [(isExactly_ofSignedWord w).truncate_eq, BitVec.ofInt_toInt]

/-- Zero shifts by no places. -/
theorem shiftCount_zero : zero.shiftCount = 0 := by
  decide +kernel

/-- Zero is the word zero. -/
theorem toWord_zero : zero.toWord = 0#32 := by
  decide +kernel

end Number

/-! ### Bits -/

/-- The bits of an integer that is cut are its own, as far as they go. -/
theorem getLsbD_ofInt (width : Nat) (n : ℤ) (i : Nat) :
    (BitVec.ofInt width n).getLsbD i = (decide (i < width) && n.testBit i) := by
  cases n with
  | ofNat n =>
      show (BitVec.ofInt width (n : ℤ)).getLsbD i = (decide (i < width) && n.testBit i)
      rw [BitVec.ofInt_natCast, BitVec.getLsbD_ofNat]
  | negSucc n =>
      show _ = (decide (i < width) && !n.testBit i)
      rw [BitVec.ofInt_negSucc_eq_not_ofNat, BitVec.getLsbD_not, BitVec.getLsbD_ofNat]
      by_cases hi : i < width <;> simp [hi]

/-- The signed reading of a word has the bits of the word in two's complement. -/
theorem testBit_toInt {width : Nat} (w : BitVec width) {i : Nat} (hi : i < width) :
    w.toInt.testBit i = w.getLsbD i := by
  have hbits := getLsbD_ofInt width w.toInt i
  rw [BitVec.ofInt_toInt, decide_eq_true hi, Bool.true_and] at hbits
  exact hbits.symm

end Formula
