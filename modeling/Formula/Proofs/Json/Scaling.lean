import Formula.Json.Number
import Formula.Proofs.Number.Exact
import Formula.Proofs.Number.Written

/-!
# `Formula.Proofs.Json.Scaling`: numbers scaled by powers of ten

A number of a JSON text is taken as an integer and then multiplied or divided by
a power of ten, each step in double arithmetic. Two rounded factors may miss the
nearest double, but a number that was written from a finite double never
overflows on the way, and a short one is exact.

* `wholeQuanta`, `productQuanta`: the roundings on the way, and that they keep
  the order.
* `fits_top`: the largest magnitude, and how far all others stay below it.
* `scale_steps`: the steps that the reader has are never used up.
* `exists_scale`: the numeral of a finite double is read as a number.
* `scale_exact`: an integer below `2 ^ 53` and a power of at most 22 give the
  double that their value rounds to.
-/

set_option autoImplicit false

namespace Formula

/-! ### Rounding once -/

/-- The magnitude of an integer as a double. -/
def wholeQuanta (n : Nat) : Nat := roundQuanta (n * unitQuanta) 1

/-- The magnitude of an integer times a power of ten, both taken as doubles. -/
def productQuanta (s e : Nat) : Nat :=
  roundQuanta (wholeQuanta s * wholeQuanta (Nat.pow 10 e)) unitQuanta

/-- Rounding an integer keeps the order. -/
theorem wholeQuanta_mono {m n : Nat} (h : m ≤ n) : wholeQuanta m ≤ wholeQuanta n :=
  roundQuanta_mono_left one_pos (Nat.mul_le_mul_right unitQuanta h)

/-- So does rounding the product of two rounded factors. -/
theorem productQuanta_mono {s s' e e' : Nat} (hs : s ≤ s') (he : e ≤ e') :
    productQuanta s e ≤ productQuanta s' e' := by
  have hpow : Nat.pow 10 e ≤ Nat.pow 10 e' := pow_le_pow_of_le (by decide) he
  exact roundQuanta_mono_left unitQuanta_pos
    (Nat.mul_le_mul (wholeQuanta_mono hs) (wholeQuanta_mono hpow))

/-- An integer that does not overflow is rounded to a magnitude of a
double. -/
theorem fits_wholeQuanta {n : Nat} (h : wholeQuanta n < quantaLimit) : Fits (wholeQuanta n) :=
  fits_roundQuanta h

/-- An integer as a double, if it does not overflow. -/
theorem ofNat_of_lt {n : Nat} (h : wholeQuanta n < quantaLimit) :
    Number.ofNat n = .finite false ⟨wholeQuanta n, fits_wholeQuanta h⟩ :=
  Number.ofRatio_of_lt h

/-! ### The largest magnitude -/

/-- How many bits of the largest magnitudes are below their precision. -/
def topBits : Nat := rangeBits + quantumBits - 53

/-- The unit of the last bit of the largest magnitudes. -/
def topUlp : Nat := Nat.pow 2 topBits

/-- The largest magnitude of a finite double. -/
def largestQuanta : Nat := (2 ^ 53 - 1) * topUlp

/-- The end of the interval of the magnitude just below the largest one, in quarters
of a quantum. -/
def largeEnd : Nat := (2 ^ 55 - 6) * topUlp

/-- The limit of the magnitudes, by the bits of the largest ones. -/
theorem quantaLimit_eq : quantaLimit = 2 ^ (53 + topBits) := by
  have hbits : rangeBits + quantumBits = 53 + topBits := by decide
  unfold quantaLimit
  rw [hbits, Nat.pow_eq]

/-- A magnitude is the largest one, or its interval ends before that of the largest
one. -/
theorem fits_top {q : Nat} (hq : Fits q) : q = largestQuanta ∨ upperEnd q ≤ largeEnd := by
  obtain ⟨hmul, hlt, -⟩ := hq.significand_spec
  have hbits : excessBits q ≤ topBits := excessBits_le (quantaLimit_eq ▸ hq.1)
  have hulp : ulp q = Nat.pow 2 (excessBits q) := rfl
  have hupper : upperEnd q = (4 * (q / ulp q) + 2) * ulp q := by
    calc upperEnd q = 4 * (q / ulp q * ulp q) + 2 * ulp q := by rw [← hmul]; rfl
      _ = (4 * (q / ulp q) + 2) * ulp q := by ring
  have hhalf : topUlp = 2 * Nat.pow 2 (topBits - 1) := by
    have hpos : 0 < topBits := by decide
    unfold topUlp
    generalize topBits = bits at hpos ⊢
    rw [Nat.pow_eq, Nat.pow_eq, ← pow_succ', Nat.sub_add_cancel hpos]
  rw [hupper]
  unfold largestQuanta largeEnd
  generalize q / ulp q = significand at *
  rcases hbits.eq_or_lt with hbits | hbits
  · have htop : ulp q = topUlp := by
      unfold topUlp
      exact hulp.trans (congrArg (Nat.pow 2) hbits)
    rw [htop] at hmul ⊢
    generalize topUlp = unit at *
    by_cases hlargest : significand = 2 ^ 53 - 1
    · left
      rw [hmul, hlargest]
    · right
      exact Nat.mul_le_mul_right unit (by omega)
  · right
    -- One binade lower even the largest significand is worth about half.
    have hle : ulp q ≤ Nat.pow 2 (topBits - 1) := by
      rw [hulp]
      exact pow_le_pow_of_le two_pos (Nat.le_pred_of_lt hbits)
    rw [hhalf]
    generalize Nat.pow 2 (topBits - 1) = unit at *
    calc (4 * significand + 2) * ulp q ≤ (2 ^ 55 - 6) * 2 * unit :=
          Nat.mul_le_mul (by omega) hle
      _ = (2 ^ 55 - 6) * (2 * unit) := Nat.mul_assoc _ _ _

/-- So the interval of no magnitude reaches beyond that of the largest one. -/
theorem upperEnd_le {q : Nat} (hq : Fits q) : upperEnd q ≤ (2 ^ 55 - 2) * topUlp := by
  rcases fits_top hq with hlargest | hle
  · rw [hlargest]
    decide +kernel
  · unfold largeEnd at hle
    generalize topUlp = unit at *
    exact hle.trans (Nat.mul_le_mul_right unit (by decide))

/-! ### Scaling never fails -/

namespace Json

/-- A negative power of ten makes a number smaller. -/
theorem exists_scale_of_neg (steps : Nat) (x : Number) {e : Int} (he : e < 0) :
    ∃ y, scale steps x e = some y := by
  induction steps generalizing x e with
  | zero => exact ⟨x, rfl⟩
  | succ steps ih =>
      rw [scale]
      by_cases hsmall : e.natAbs ≤ maxPower
      · rw [if_pos hsmall, if_neg (by omega)]
        exact ⟨_, rfl⟩
      -- Divided once by the largest power, the number is at a higher exponent.
      · rw [if_neg hsmall]
        by_cases hzero : x.isZero = true
        · rw [if_pos hzero]
          exact ⟨x, rfl⟩
        · rw [if_neg hzero, if_neg (by omega)]
          have hpower : maxPower = 308 := rfl
          exact ih _ (by omega)

/-- Neither an integer of 64 bits nor a power of ten that is looked up overflows. -/
theorem wholeQuanta_lt {n : Nat} (hn : n ≤ Nat.pow 10 maxPower) : wholeQuanta n < quantaLimit :=
  (wholeQuanta_mono hn).trans_lt (by decide +kernel)

/-- An integer of 64 bits is below the largest power of ten that is looked
up. -/
theorem le_power_of_lt {s : Nat} (hs : s < wordLimit) : s ≤ Nat.pow 10 maxPower :=
  hs.le.trans ((show wordLimit ≤ Nat.pow 10 20 by decide).trans
    (pow_le_pow_of_le (by decide) (by decide)))

/-- No power of ten that is looked up overflows. -/
theorem wholeQuanta_power_lt {e : Nat} (he : e ≤ maxPower) :
    wholeQuanta (Nat.pow 10 e) < quantaLimit :=
  wholeQuanta_lt (pow_le_pow_of_le (by decide) he)

/-- The magnitude of a double divided by the largest power of ten. -/
def quotientQuanta (a : Nat) : Nat :=
  roundQuanta (a * unitQuanta) (wholeQuanta (Nat.pow 10 maxPower))

/-- From the largest integer of 64 bits two divisions come to zero. -/
theorem quotientQuanta_wordLimit : 0 < wholeQuanta (Nat.pow 10 maxPower) ∧
    quotientQuanta (wholeQuanta wordLimit) < quantaLimit ∧
    quotientQuanta (quotientQuanta (wholeQuanta wordLimit)) = 0 := by
  decide +kernel

/-- Dividing by the largest power of ten keeps the order. -/
theorem quotientQuanta_mono {a b : Nat} (h : a ≤ b) : quotientQuanta a ≤ quotientQuanta b :=
  roundQuanta_mono_left quotientQuanta_wordLimit.1 (Nat.mul_le_mul_right unitQuanta h)

/-- A division by the largest power of ten, from a bound on the dividend. -/
theorem div_maxPower {a bound : Nat} (ha : Fits a) (hle : a ≤ bound)
    (hbound : quotientQuanta bound < quantaLimit) :
    ∃ (q : Nat) (hq : Fits q), q ≤ quotientQuanta bound ∧
      (Number.finite false ⟨a, ha⟩).div (powerOfTen maxPower) = .finite false ⟨q, hq⟩ := by
  have hmono := quotientQuanta_mono hle
  have hpower := wholeQuanta_power_lt (e := maxPower) le_rfl
  refine ⟨quotientQuanta a, fits_roundQuanta (hmono.trans_lt hbound), hmono, ?_⟩
  unfold powerOfTen Number.div
  rw [ofNat_of_lt hpower]
  dsimp only
  rw [if_neg quotientQuanta_wordLimit.1.ne']
  exact Number.ofRatio_of_lt (hmono.trans_lt hbound)

/-- Two divisions bring every integer of 64 bits to zero. -/
theorem isZero_div_div {s : Nat} (hs : s < wordLimit) :
    (((Number.ofNat s).div (powerOfTen maxPower)).div (powerOfTen maxPower)).isZero = true := by
  obtain ⟨-, hlt, hnone⟩ := quotientQuanta_wordLimit
  have hwhole := wholeQuanta_lt (le_power_of_lt hs)
  obtain ⟨q, hq, hle, hfirst⟩ :=
    div_maxPower (fits_wholeQuanta hwhole) (wholeQuanta_mono hs.le) hlt
  obtain ⟨q', hq', hle', hsecond⟩ := div_maxPower hq hle (hnone ▸ quantaLimit_pos)
  rw [ofNat_of_lt hwhole, hfirst, hsecond]
  show (q' == 0) = true
  rw [beq_iff_eq]
  exact Nat.le_zero.1 (hle'.trans hnone.le)

/-- The steps that the reader has are never used up. -/
theorem scale_steps {s : Nat} (hs : s < wordLimit) (more : Nat) (e : Int) :
    scale (4 + more) (.ofNat s) e = scale 4 (.ofNat s) e := by
  have hzero := isZero_div_div hs
  have hnext : ∀ (m n : Nat) (x : Number) (e : Int),
      scale m (x.div (powerOfTen maxPower)) (e + maxPower)
        = scale n (x.div (powerOfTen maxPower)) (e + maxPower) →
      scale (m + 1) x e = scale (n + 1) x e := by
    intro m n x e h
    rw [scale, scale, h]
  -- A zero ends the steps, and two divisions come to zero.
  have hlast : ∀ (m n : Nat) {x : Number} (e : Int), x.isZero = true →
      scale (m + 1) x e = scale (n + 1) x e := by
    intro m n x e hx
    rw [scale, scale, if_pos hx, if_pos hx]
  rw [show 4 + more = (more + 1) + 1 + 1 + 1 by omega]
  exact hnext _ _ _ _ (hnext _ _ _ _ (hlast _ 1 _ hzero))

/-- The product of an integer and a power of ten is finite unless its rounding
overflows. -/
theorem scale_of_product {s e : Nat} (steps : Nat) (he : e ≤ maxPower)
    (hs : wholeQuanta s < quantaLimit) (hpower : wholeQuanta (Nat.pow 10 e) < quantaLimit)
    (h : productQuanta s e < quantaLimit) :
    scale (steps + 1) (.ofNat s) e
      = some (.finite false ⟨productQuanta s e, fits_roundQuanta h⟩) := by
  have hproduct : (Number.ofNat s).mul (powerOfTen e)
      = .finite false ⟨productQuanta s e, fits_roundQuanta h⟩ := by
    unfold powerOfTen
    rw [ofNat_of_lt hs, ofNat_of_lt hpower]
    exact Number.ofRatio_of_lt h
  rw [scale, if_pos (by rw [Int.natAbs_natCast]; exact he), if_pos (Int.natCast_nonneg e)]
  dsimp only
  rw [Int.toNat_natCast, hproduct]
  rfl

/-- The largest integer that a power of ten may be applied to below the interval of
the largest magnitude. -/
def largestSignificand (e : Nat) : Nat := largeEnd / (4 * unitQuanta * Nat.pow 10 e)

/-- Near the largest magnitude the integers are bounded one power after another. -/
theorem product_largestSignificand_lt :
    ∀ n < 17, productQuanta (largestSignificand (292 + n)) (292 + n) < quantaLimit := by
  decide +kernel

/-- What has at most seventeen digits and lies below the interval of the largest
magnitude gives a finite product. -/
theorem productQuanta_lt {s e : Nat} (hs : s ≤ 10 ^ 17) (he : e ≤ maxPower)
    (h : s * (4 * unitQuanta * Nat.pow 10 e) ≤ largeEnd) : productQuanta s e < quantaLimit := by
  have hmax : maxPower = 308 := rfl
  by_cases hsmall : e ≤ 291
  · exact (productQuanta_mono hs hsmall).trans_lt (by decide +kernel)
  · obtain ⟨n, rfl⟩ := Nat.exists_eq_add_of_le (show 292 ≤ e by omega)
    have hstep : 0 < 4 * unitQuanta * Nat.pow 10 (292 + n) :=
      Nat.mul_pos (Nat.mul_pos (by decide) unitQuanta_pos) (Nat.pow_pos (by decide))
    have hbound : s ≤ largestSignificand (292 + n) := (Nat.le_div_iff_mul_le hstep).2 h
    exact (productQuanta_mono hbound le_rfl).trans_lt (product_largestSignificand_lt n (by omega))

/-- A decimal in the interval of a magnitude has no power beyond the largest one. -/
theorem le_maxPower {s e : Nat} (hs : 0 < s)
    (h : s * (4 * unitQuanta * Nat.pow 10 e) ≤ (2 ^ 55 - 2) * topUlp) : e ≤ maxPower := by
  by_contra hlarge
  have hpow : Nat.pow 10 (maxPower + 1) ≤ Nat.pow 10 e :=
    pow_le_pow_of_le (by decide) (Nat.lt_of_not_le hlarge)
  have hless : (2 ^ 55 - 2) * topUlp < 4 * unitQuanta * Nat.pow 10 (maxPower + 1) := by
    decide +kernel
  have hle : 4 * unitQuanta * Nat.pow 10 (maxPower + 1) ≤ s * (4 * unitQuanta * Nat.pow 10 e) :=
    (Nat.mul_le_mul_left _ hpow).trans (Nat.le_mul_of_pos_left _ hs)
  omega

/-- The digits of a numeral that JSON writes fit into seventeen places. -/
theorem significand_numeral_le {q : Nat} (hq : Fits q) (hpos : 0 < q) :
    (jsonLayout.numeral q).significand ≤ 10 ^ 17 := by
  obtain ⟨-, hborders, hge, hle⟩ := shortest_spec jsonLayout.tie hq hpos
  obtain ⟨n, hn⟩ := Int.le.dest hle
  have hdigits : natOfDigits (shortest jsonLayout.tie q).characters ≤ 10 ^ 17 := by
    have hbound := (hborders.digits_bounds hpos hn.symm).2
    have hpow : 10 ^ (n + 1) ≤ 10 ^ 17 := Nat.pow_le_pow_right (by decide) (by omega)
    exact ((Significant.natOfDigits_characters_le _).trans hbound).trans hpow
  obtain ⟨-, hall, -⟩ :=
    Significant.characters_spec (Layout.shortest_digits_pos jsonLayout.tie hq hpos)
  rw [Layout.numeral]
  -- At most seventeen digits are shortest, and only zeros are filled in after them.
  rcases jsonLayout.numeralOf_cases (shortest jsonLayout.tie q) with ⟨heq, hplace⟩ | heq
  · rw [heq]
    rcases Numeral.significand_positional 1 hall (shortest jsonLayout.tie q).leading
      with hsame | hfilled
    · exact hsame.trans_le hdigits
    · obtain ⟨e, he, hlt⟩ := hfilled
      have hlast : (e : Int) < 16 := he ▸ hplace
      exact hlt.le.trans (Nat.pow_le_pow_right (by decide) (by omega))
  · rw [heq, Numeral.significand_exponential]
    exact hdigits

/-- The value of a numeral that JSON writes rounds to the magnitude. -/
theorem roundsTo_numeral {q : Nat} (hq : Fits q) (hpos : 0 < q) :
    RoundsTo q ((jsonLayout.numeral q).value * unitQuanta) := by
  obtain ⟨-, -, hvalue⟩ := Layout.numeral_spec Layout.jsonLayout_endsInZeros hq hpos
  rw [hvalue, ← Significant.readsBack_iff]
  exact (shortest_spec .toEven hq hpos).1

/-- A number that is not zero is written with a digit that is not zero. -/
theorem significand_numeral_pos {q : Nat} (hq : Fits q) (hpos : 0 < q) :
    0 < (jsonLayout.numeral q).significand := by
  obtain ⟨-, -, hvalue⟩ := Layout.numeral_spec Layout.jsonLayout_endsInZeros hq hpos
  refine Nat.pos_of_ne_zero fun hzero => ?_
  have hdigits := Layout.shortest_digits_pos jsonLayout.tie hq hpos
  have hten := ten_zpow_pos (shortest jsonLayout.tie q).exponent
  have hpositive : (0 : ℚ) < (shortest jsonLayout.tie q).value :=
    mul_pos (by exact_mod_cast hdigits) hten
  rw [← hvalue, Numeral.value, hzero, Nat.cast_zero, zero_mul] at hpositive
  exact lt_irrefl 0 hpositive

/-- The largest double itself is read without overflow. -/
theorem exists_scale_largest :
    (scale 4 (.ofNat (jsonLayout.numeral largestQuanta).significand)
      (jsonLayout.numeral largestQuanta).exponent).isSome = true := by
  decide +kernel

/-- The numeral of a finite double is read as a number. -/
theorem exists_scale {q : Nat} (hq : Fits q) (hpos : 0 < q) :
    ∃ x, scale 4 (.ofNat (jsonLayout.numeral q).significand) (jsonLayout.numeral q).exponent
      = some x := by
  by_cases hneg : (jsonLayout.numeral q).exponent < 0
  · exact exists_scale_of_neg 4 _ hneg
  · -- Below the largest double the product stays below the limit, however it is rounded.
    rcases fits_top hq with hlargest | hbelow
    · rw [hlargest]
      exact Option.isSome_iff_exists.1 exists_scale_largest
    · obtain ⟨e, he⟩ := Int.eq_ofNat_of_zero_le (Int.not_lt.1 hneg)
      have hround := (roundsTo_numeral hq hpos).above
      have hs := significand_numeral_le hq hpos
      have hspos := significand_numeral_pos hq hpos
      rw [Numeral.value, he, zpow_natCast] at hround
      rw [he]
      generalize (jsonLayout.numeral q).significand = s at *
      have hinside : s * (4 * unitQuanta * Nat.pow 10 e) ≤ upperEnd q := by
        have hcast : ((s * (4 * unitQuanta * Nat.pow 10 e) : Nat) : ℚ)
            = 4 * (s * 10 ^ e * unitQuanta) := by
          rw [Nat.pow_eq]
          push_cast
          ring
        exact_mod_cast hcast.trans_le hround
      -- The value is below the end of its interval, so the power is one that is looked up.
      have hpower := le_maxPower hspos (hinside.trans (upperEnd_le hq))
      have hword : s < wordLimit := hs.trans_lt (by decide)
      exact ⟨_, scale_of_product 3 hpower (wholeQuanta_lt (le_power_of_lt hword))
        (wholeQuanta_power_lt hpower)
        (productQuanta_lt hs hpower (hinside.trans hbelow))⟩

end Json

/-! ### Scaling a short number is exact -/

/-- The powers of ten that are doubles. -/
theorem fits_power {e : Nat} (he : e ≤ 22) : Fits (Nat.pow 10 e * unitQuanta) := by
  have hten : Nat.pow 10 e = Nat.pow 5 e * Nat.pow 2 e := by
    simp only [Nat.pow_eq]
    rw [← Nat.mul_pow]
  have hfive : Nat.pow 5 e ≤ Nat.pow 5 22 := pow_le_pow_of_le (by decide) he
  exact fits_whole e hten (hfive.trans_lt (by decide)) (he.trans (by decide))

namespace Json

/-- With both factors exact there is only one rounding. -/
theorem scale_exact {q s : Nat} {e : Int} (hq : Fits q) (hpos : 0 < q) (hs : s < significandLimit)
    (hspos : 0 < s) (he : e.natAbs ≤ 22) (h : RoundsTo q (s * 10 ^ e * unitQuanta)) :
    scale 4 (.ofNat s) e = some (.finite false ⟨q, hq⟩) := by
  have hunit := cast_unitQuanta_pos
  have hfits : Fits (s * unitQuanta) := fits_whole 0 (Nat.mul_one s).symm hs (by decide)
  have hmax : maxPower = 308 := rfl
  have hpower := ofNat_of_fits (fits_power he)
  have hten : (0 : ℚ) < 10 ^ e.natAbs := by positivity
  rw [scale, if_pos (by omega), ofNat_of_fits hfits]
  -- A power of ten up to the 22nd is a double, multiplied or divided by in one step.
  by_cases hsign : 0 ≤ e
  · have hratio : ((s * unitQuanta * (Nat.pow 10 e.natAbs * unitQuanta) : Nat) : ℚ) / unitQuanta
        = s * 10 ^ e * unitQuanta := by
      have hexp : (10 : ℚ) ^ e = 10 ^ e.natAbs := by
        rw [← zpow_natCast, Int.natAbs_of_nonneg hsign]
      rw [hexp, Nat.pow_eq]
      push_cast
      field_simp
    have hproduct : (Number.finite false ⟨s * unitQuanta, hfits⟩).mul (powerOfTen e.toNat)
        = .finite false ⟨q, hq⟩ := by
      unfold powerOfTen
      rw [show e.toNat = e.natAbs by omega, hpower]
      exact Number.ofRatio_eq hq (roundQuanta_eq hq hpos unitQuanta_pos (by rw [hratio]; exact h))
    rw [if_pos hsign]
    dsimp only
    rw [hproduct]
    rfl
  · have hden : 0 < Nat.pow 10 e.natAbs * unitQuanta :=
      mul_unitQuanta_pos (Nat.pow_pos (by decide))
    have hratio : ((s * unitQuanta * unitQuanta : Nat) : ℚ)
        / (Nat.pow 10 e.natAbs * unitQuanta : Nat) = s * 10 ^ e * unitQuanta := by
      have hexp : (10 : ℚ) ^ e = (10 ^ e.natAbs)⁻¹ := by
        rw [← zpow_natCast, ← zpow_neg, show (-(e.natAbs : Int)) = e by omega]
      rw [hexp, Nat.pow_eq]
      push_cast
      field_simp
    rw [if_neg hsign]
    unfold powerOfTen
    rw [hpower]
    have hquotient : (Number.finite false ⟨s * unitQuanta, hfits⟩).div
        (.finite false ⟨Nat.pow 10 e.natAbs * unitQuanta, fits_power he⟩)
        = .finite false ⟨q, hq⟩ := by
      unfold Number.div
      dsimp only
      rw [if_neg hden.ne']
      exact Number.ofRatio_eq hq (roundQuanta_eq hq hpos hden (by rw [hratio]; exact h))
    rw [hquotient]

end Json

end Formula
