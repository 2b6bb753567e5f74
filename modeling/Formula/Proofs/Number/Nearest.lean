import Formula.Proofs.Number.Exact

/-!
# `Formula.Proofs.Number.Nearest`: rounding gives the nearest double

Rounding works in the binade of the ratio. Here it is compared with all doubles:
none is closer to the exact value, and of two that are equally close the one with
the even significand is taken. Values too far beyond the largest finite double
round to an infinity. These rules leave no choice but the sign of a zero.

* `Number.IsNearest`: the rules, said without the way of rounding.
* `roundQuanta_closest`: a rounded ratio is as close as any magnitude.
* `quantaLimit_le_roundQuanta_iff`: the ratios that overflow.
* `Number.isNearest_ofRatio`: the double of a ratio is the nearest one.
* `Number.IsNearest.key_eq`: there is only one place for the nearest double.
-/

set_option autoImplicit false

namespace Formula

variable {num den n q : Nat}

/-! ### The closest magnitude -/

/-- Of the natural numbers none is closer to a ratio than the nearest one, and it is
even if another is as close. -/
theorem IsNearest.closest {x : ℚ} (h : IsNearest x n) (k : Nat) :
    |x - n| < |x - k| ∨ |x - n| = |x - k| ∧ (k = n ∨ n % 2 = 0) := by
  have hlow := h.below
  have hhigh := h.above
  have hhalf : |x - n| ≤ 1 / 2 := abs_le.2 ⟨by linarith, by linarith⟩
  -- Another number on either side is one away at least, and at a tie the rounded one is even.
  rcases lt_trichotomy k n with hless | rfl | hmore
  · have hnext : (k : ℚ) + 1 ≤ n := by exact_mod_cast hless
    have hfar : |x - k| = x - k := abs_of_nonneg (by linarith)
    rcases hlow.eq_or_lt with htie | hlow
    · exact (lt_or_eq_of_le (by linarith)).imp_right fun heq =>
        ⟨heq, .inr (h.even (.inl htie.symm))⟩
    · exact .inl (by linarith)
  · exact .inr ⟨rfl, .inl rfl⟩
  · have hnext : (n : ℚ) + 1 ≤ k := by exact_mod_cast hmore
    have hfar : |x - k| = k - x := by rw [abs_sub_comm]; exact abs_of_nonneg (by linarith)
    rcases hhigh.eq_or_lt with htie | hhigh
    · exact (lt_or_eq_of_le (by linarith)).imp_right fun heq => ⟨heq, .inr (h.even (.inr htie))⟩
    · exact .inl (by linarith)

/-- A rounded ratio in units of the last bit of the ratio. -/
theorem exists_roundQuanta (num : Nat) (hden : 0 < den) :
    ∃ n, roundQuanta num den = n * ulp (num / den) ∧ n ≤ 2 ^ 53 ∧
      IsNearest (num / den / ulp (num / den)) n := by
  have hnear := isNearest_roundHalfEven num (Nat.mul_pos hden (ulp_pos (num / den)))
  push_cast at hnear
  rw [← div_div] at hnear
  exact ⟨_, rfl, roundHalfEven_excessBits_le num den, hnear⟩

/-- The whole part of a ratio begins its binade or lies above. -/
theorem binade_le (hden : 0 < den) (hbits : 0 < excessBits (num / den)) :
    ((2 ^ 52 : Nat) : ℚ) ≤ num / den / ulp (num / den) := by
  have hbinade := (le_div_iff_cast_le hden).1 (le_of_excessBits_pos hbits)
  rw [le_div_iff₀ (by exact_mod_cast ulp_pos _), cast_ulp]
  rw [pow_add] at hbinade
  exact_mod_cast hbinade

/-- An even number of units of the last bit is an even significand, also where it
comes to the next binade. -/
theorem endsIncluded_mul {bits : Nat} (heven : n % 2 = 0) (hle : n ≤ 2 ^ 53)
    (hbits : 0 < bits → 2 ^ 52 ≤ n) : endsIncluded (n * 2 ^ bits) = true := by
  have hpow : 0 < 2 ^ bits := Nat.two_pow_pos bits
  unfold endsIncluded
  rw [beq_iff_eq]
  -- `2 ^ 53` is the first significand of the next binade, written there as `2 ^ 52`.
  rcases hle.eq_or_lt with rfl | hlt
  · have hexcess : excessBits (2 ^ 53 * 2 ^ bits) = bits + 1 := by
      rw [← pow_add]
      exact excessBits_eq (Nat.pow_le_pow_right two_pos (by omega))
        (Nat.pow_lt_pow_right (by decide) (by omega))
    have hulp : ulp (2 ^ 53 * 2 ^ bits) = 2 ^ bits * 2 := by
      unfold ulp
      rw [hexcess, Nat.pow_eq, pow_succ]
    rw [hulp, mul_comm (2 ^ 53), Nat.mul_div_mul_left _ _ hpow]
    rfl
  · have hexcess : excessBits (n * 2 ^ bits) = bits := by
      rcases Nat.eq_zero_or_pos bits with rfl | hpos
      · rw [pow_zero, mul_one]
        exact excessBits_eq_zero hlt
      · refine excessBits_eq ?_ ?_ <;> rw [pow_add]
        · exact Nat.mul_le_mul_right _ (hbits hpos)
        · exact Nat.mul_lt_mul_of_pos_right hlt hpow
    have hulp : ulp (n * 2 ^ bits) = 2 ^ bits := by
      unfold ulp
      rw [hexcess, Nat.pow_eq]
    rwa [hulp, Nat.mul_div_cancel _ hpow]

/-- A magnitude is a multiple of the last bit of everything below it. -/
theorem Fits.ulp_dvd {m : Nat} (hq : Fits q) (hm : m ≤ q) : ulp m ∣ q := by
  obtain ⟨hmul, -⟩ := hq.significand_spec
  have hpow : ulp m ∣ ulp q := pow_dvd_pow 2 (excessBits_mono hm)
  exact hpow.trans ⟨q / ulp q, by rw [mul_comm]; exact hmul⟩

/-- A rounded ratio is as close as any magnitude, and even if another is as close. -/
theorem roundQuanta_closest (hden : 0 < den) (hq : Fits q) :
    |(num / den : ℚ) - roundQuanta num den| < |(num / den : ℚ) - q| ∨
      |(num / den : ℚ) - roundQuanta num den| = |(num / den : ℚ) - q| ∧
        (q = roundQuanta num den ∨ endsIncluded (roundQuanta num den) = true) := by
  obtain ⟨n, hround, hle, hnear⟩ := exists_roundQuanta num hden
  have hulp : (0 : ℚ) < ulp (num / den) := by exact_mod_cast ulp_pos _
  have hbinade := @binade_le num den hden
  have heven : n % 2 = 0 → endsIncluded (n * ulp (num / den)) = true := by
    intro heven
    refine endsIncluded_mul heven hle fun hbits => ?_
    have hself : IsNearest ((2 ^ 52 : Nat) : ℚ) (2 ^ 52) :=
      ⟨by linarith, by linarith, fun _ => by decide⟩
    exact hself.le hnear (hbinade hbits)
  rw [hround]
  -- Multiples of the unit are compared in units.
  have hunits : ∀ k : Nat, |(num / den : ℚ) - (k * ulp (num / den) : Nat)|
      = |num / den / ulp (num / den) - (k : ℚ)| * ulp (num / den) := by
    intro k
    rw [← abs_of_pos hulp, ← abs_mul, abs_of_pos hulp, sub_mul, div_mul_cancel₀ _ hulp.ne']
    push_cast
    rfl
  by_cases hdvd : ulp (num / den) ∣ q
  · obtain ⟨k, rfl⟩ := hdvd
    rw [mul_comm _ k, hunits, hunits]
    rcases hnear.closest k with hless | ⟨heq, hk | hk⟩
    · exact .inl (mul_lt_mul_of_pos_right hless hulp)
    · exact .inr ⟨by rw [heq], .inl (by rw [hk])⟩
    · exact .inr ⟨by rw [heq], .inr (heven hk)⟩
  · -- Another magnitude lies below the binade, and the beginning of the binade is closer.
    left
    have hbits : 0 < excessBits (num / den) := by
      refine Nat.pos_of_ne_zero fun hzero => hdvd ?_
      unfold ulp
      rw [hzero]
      exact one_dvd q
    have hbelow : q < 2 ^ 52 * ulp (num / den) := by
      by_contra hreach
      have hstart : excessBits (2 ^ 52 * ulp (num / den)) = excessBits (num / den) := by
        unfold ulp
        rw [Nat.pow_eq, ← pow_add]
        exact excessBits_eq le_rfl (Nat.pow_lt_pow_right (by decide) (by omega))
      have hsame : ulp (2 ^ 52 * ulp (num / den)) = ulp (num / den) := congrArg (Nat.pow 2) hstart
      exact hdvd (hsame ▸ hq.ulp_dvd (Nat.not_lt.1 hreach))
    have hcloser : |(num / den : ℚ) - (n * ulp (num / den) : Nat)|
        ≤ |(num / den : ℚ) - (2 ^ 52 * ulp (num / den) : Nat)| := by
      rw [hunits, hunits]
      refine mul_le_mul_of_nonneg_right ?_ hulp.le
      exact (hnear.closest (2 ^ 52)).elim le_of_lt fun h => h.1.le
    have hreach : ((2 ^ 52 * ulp (num / den) : Nat) : ℚ) ≤ num / den := by
      have hmul := (le_div_iff₀ hulp).1 (hbinade hbits)
      exact_mod_cast hmul
    have hbelow' : (q : ℚ) < (2 ^ 52 * ulp (num / den) : Nat) := by exact_mod_cast hbelow
    rw [abs_of_nonneg (sub_nonneg.2 hreach)] at hcloser
    rw [abs_of_pos (a := (num / den : ℚ) - q) (by linarith)]
    linarith

/-- Between two different even magnitudes there is another one. -/
theorem exists_between {q' : Nat} (hq : Fits q) (hq' : Fits q') (hlt : q < q')
    (heven : endsIncluded q = true) (heven' : endsIncluded q' = true) :
    ∃ p, Fits p ∧ q < p ∧ p < q' := by
  obtain ⟨hmul, hsignificand, -⟩ := hq.significand_spec
  have hpos := ulp_pos q
  have hsucc : q + ulp q = (q / ulp q + 1) * ulp q := by rw [add_one_mul, ← hmul]
  have hle : q + ulp q ≤ q' := by
    obtain ⟨k, hk⟩ := hq'.ulp_dvd hlt.le
    have hstep : ulp q * (q / ulp q) < ulp q * k := by rwa [mul_comm, ← hmul, ← hk]
    rw [hsucc, hk, mul_comm]
    exact Nat.mul_le_mul_left _ (Nat.lt_of_mul_lt_mul_left hstep)
  have hodd : q / ulp q % 2 = 0 := by simpa [endsIncluded] using heven
  have hless : q / ulp q + 1 < 2 ^ 53 := by omega
  have hfits : Fits (q + ulp q) :=
    ⟨hle.trans_lt hq'.1, q / ulp q + 1, excessBits q, hless, hsucc⟩
  refine ⟨q + ulp q, hfits, Nat.lt_add_of_pos_right hpos, hle.lt_of_ne ?_⟩
  -- The next magnitude has an odd significand.
  rintro rfl
  have hbinade : q + ulp q < 2 ^ (53 + excessBits q) := by
    rw [hsucc, pow_add]
    exact Nat.mul_lt_mul_of_pos_right hless hpos
  have hbits : excessBits (q + ulp q) = excessBits q :=
    Nat.le_antisymm (excessBits_le hbinade) (excessBits_mono (Nat.le_add_right _ _))
  have hulp : ulp (q + ulp q) = ulp q := congrArg (Nat.pow 2) hbits
  have hnext : (q + ulp q) / ulp q = q / ulp q + 1 := Nat.add_div_right q hpos
  simp only [endsIncluded, hulp, hnext, beq_iff_eq] at heven'
  omega

/-! ### Overflow -/

/-- Halfway from the largest finite magnitude to the limit. -/
def overflowQuanta : Nat := (2 ^ 54 - 1) * 2 ^ (rangeBits + quantumBits - 54)

/-- Halfway beyond the largest number rounding reaches the limit. -/
theorem roundQuanta_overflowQuanta : roundQuanta overflowQuanta 1 = quantaLimit := by
  decide +kernel

/-- The ratios that overflow are those from halfway on. -/
theorem quantaLimit_le_roundQuanta_iff (hden : 0 < den) :
    quantaLimit ≤ roundQuanta num den ↔ (overflowQuanta : ℚ) ≤ num / den := by
  constructor
  · intro hlimit
    obtain ⟨n, hround, hle, hnear⟩ := exists_roundQuanta num hden
    obtain ⟨top, htop⟩ : ∃ top, rangeBits + quantumBits = 54 + top := ⟨2044, by decide⟩
    have hquanta : quantaLimit = 2 ^ (53 + (top + 1)) := by
      unfold quantaLimit
      rw [htop, Nat.pow_eq]
      congr 1
      omega
    have hover : (overflowQuanta : ℚ) = (2 ^ 54 - 1) * 2 ^ top := by
      unfold overflowQuanta
      rw [htop, Nat.add_sub_cancel_left]
      push_cast
      norm_num
    rw [hover]
    by_contra hless
    -- Below halfway the ratio lies in the last binade, so that only its end is beyond.
    have hbits : excessBits (num / den) ≤ top + 1 := by
      refine excessBits_le (Nat.lt_of_not_le fun hlarge => hless ?_)
      have hlarge' := (le_div_iff_cast_le hden).1 hlarge
      refine le_trans ?_ hlarge'
      push_cast
      rw [pow_add, pow_succ 2 top]
      nlinarith [show (0 : ℚ) < 2 ^ top by positivity]
    have hulp : ulp (num / den) ≤ 2 ^ (top + 1) := Nat.pow_le_pow_right two_pos hbits
    rw [hround, hquanta, pow_add] at hlimit
    have hlast : ulp (num / den) = 2 ^ (top + 1) := by
      refine Nat.le_antisymm hulp ?_
      have hmul := hlimit.trans (Nat.mul_le_mul_right _ hle)
      exact Nat.le_of_mul_le_mul_left hmul (Nat.two_pow_pos 53)
    have hn : n = 2 ^ 53 := by
      refine Nat.le_antisymm hle ?_
      rw [hlast] at hlimit
      exact Nat.le_of_mul_le_mul_right hlimit (Nat.two_pow_pos _)
    have hlow := hnear.below
    rw [hlast, hn, le_div_iff₀ (by positivity)] at hlow
    push_cast at hlow
    rw [pow_succ 2 top] at hlow
    exact hless (by linarith)
  · intro hreach
    have hreach' : ((overflowQuanta : Nat) : ℚ) / (1 : Nat) ≤ num / den := by
      rw [Nat.cast_one, div_one]
      exact hreach
    have hmono := roundQuanta_mono one_pos hden hreach'
    rwa [roundQuanta_overflowQuanta] at hmono

namespace Number

/-! ### The nearest double -/

/-- A ratio is rounded to a magnitude, or it overflows. -/
theorem ofRatio_cases (negative : Bool) (num den : Nat) :
    (∃ h : Fits (roundQuanta num den),
      ofRatio negative num den = .finite negative ⟨roundQuanta num den, h⟩) ∨
    (quantaLimit ≤ roundQuanta num den ∧ ofRatio negative num den = .infinite negative) := by
  unfold ofRatio
  split
  · exact .inl ⟨fits_roundQuanta ‹_›, rfl⟩
  · exact .inr ⟨Nat.not_lt.1 ‹_›, rfl⟩

/-- A ratio that is rounded to the limit is infinite. -/
theorem ofRatio_of_limit_le {negative : Bool} (h : quantaLimit ≤ roundQuanta num den) :
    ofRatio negative num den = .infinite negative :=
  dif_neg (Nat.not_lt.2 h)

/-- The sign of a ratio may be put on later. -/
theorem neg_ofRatio (num den : Nat) : (ofRatio false num den).neg = ofRatio true num den := by
  unfold ofRatio
  split <;> rfl

/-- The values from here on round to an infinity: it is halfway from the largest
finite double to the power of two after it. -/
def overflowValue : ℚ := 2 ^ 1024 - 2 ^ 970

/-- The value from which on numbers are infinite is positive. -/
theorem overflowValue_pos : 0 < overflowValue :=
  sub_pos.2 (pow_lt_pow_right₀ (by norm_num) (by norm_num))

/-- Its quanta are those of the halfway point. -/
theorem overflowValue_mul_unitQuanta : overflowValue * unitQuanta = overflowQuanta := by
  have hquanta : Nat.pow 2 970 * unitQuanta = 2 ^ (rangeBits + quantumBits - 54) := by
    decide +kernel
  -- The powers are too large to be computed with, so they are kept as powers.
  have hhalf : overflowValue = (2 ^ 54 - 1) * (Nat.pow 2 970 : Nat) := by
    have hpower : ∀ n, ((Nat.pow 2 n : Nat) : ℚ) = 2 ^ n := Nat.cast_pow 2
    have hsplit : ∀ n : Nat, (2 : ℚ) ^ (54 + n) - 2 ^ n = (2 ^ 54 - 1) * 2 ^ n := by
      intro n
      rw [pow_add]
      ring
    exact (hsplit 970).trans (congrArg ((2 ^ 54 - 1) * ·) (hpower 970).symm)
  rw [hhalf, overflowQuanta, ← hquanta]
  generalize Nat.pow 2 970 = power
  generalize unitQuanta = unit
  push_cast
  ring

/-- A number is the double nearest to a value: no finite double is closer to it, and
if another is as close the significand is even; the values of large magnitude have
an infinity instead. -/
inductive IsNearest : Number → ℚ → Prop where
  | finite {negative : Bool} {m : Magnitude} {y : ℚ} (range : |y| < overflowValue)
    (closest : ∀ z : Number, z.isFinite = true →
      |y - (Number.finite negative m).value| < |y - z.value| ∨
        |y - (Number.finite negative m).value| = |y - z.value| ∧
          (z.value = (Number.finite negative m).value ∨ endsIncluded m.quanta = true)) :
    IsNearest (.finite negative m) y
  | infinite {negative : Bool} {y : ℚ} (range : overflowValue ≤ if negative then -y else y) :
    IsNearest (.infinite negative) y

/-- The value of the negative is the negative of the value. -/
theorem value_neg (x : Number) : x.neg.value = -x.value := by
  cases x with
  | nan => exact neg_zero.symm
  | infinite negative => exact neg_zero.symm
  | finite negative m =>
      show ((signed (!negative) m.quanta : ℤ) : ℚ) / unitQuanta
        = -(((signed negative m.quanta : ℤ) : ℚ) / unitQuanta)
      rw [← neg_div, ← Int.cast_neg]
      cases negative
      · rfl
      · rw [signed, signed, if_pos rfl, neg_neg]
        rfl

/-- The nearest double on the other side of zero. -/
theorem IsNearest.neg {x : Number} {y : ℚ} (h : x.IsNearest y) : x.neg.IsNearest (-y) := by
  -- By symmetry: distances are those of the negatives.
  cases h with
  | @infinite negative _ range =>
      refine .infinite ?_
      cases negative
      · rwa [Bool.not_false, if_pos rfl, neg_neg]
      · exact range
  | @finite negative m _ range closest =>
      have hvalue : (Number.finite (!negative) m).value = -(Number.finite negative m).value :=
        value_neg (Number.finite negative m)
      have hdistance : ∀ a : ℚ, |-y - -a| = |y - a| := fun a => by rw [neg_sub_neg, abs_sub_comm]
      refine .finite (by rwa [abs_neg]) fun z hz => ?_
      have hfinite : z.neg.isFinite = true := by cases z <;> exact hz
      have hz' : z.value = -z.neg.value := by rw [value_neg, neg_neg]
      rw [hvalue, hz', hdistance, hdistance, neg_inj]
      exact closest z.neg hfinite

/-- A finite double is a whole number of quanta. -/
theorem exists_value_eq {z : Number} (hz : z.isFinite = true) :
    ∃ k : ℤ, z.key = some k ∧ z.value = k / unitQuanta ∧ Fits k.natAbs := by
  cases z with
  | nan => cases hz
  | infinite negative => cases hz
  | finite negative m =>
      exact ⟨signed negative m.quanta, rfl, rfl, by rw [natAbs_signed]; exact m.fits⟩

/-- Magnitudes on the other side of zero are not closer either. -/
theorem roundQuanta_closest_int (hden : 0 < den) {k : ℤ} (hk : Fits k.natAbs) :
    |(num / den : ℚ) - roundQuanta num den| < |(num / den : ℚ) - k| ∨
      |(num / den : ℚ) - roundQuanta num den| = |(num / den : ℚ) - k| ∧
        ((k : ℚ) = roundQuanta num den ∨ endsIncluded (roundQuanta num den) = true) := by
  have hratio : (0 : ℚ) ≤ num / den := by positivity
  -- A negative number is farther away than zero, which has been treated.
  rcases le_or_gt 0 k with hnonneg | hneg
  · obtain ⟨q, rfl⟩ := Int.eq_ofNat_of_zero_le hnonneg
    rw [Int.natAbs_natCast] at hk
    rw [Int.cast_natCast]
    exact (roundQuanta_closest hden hk).imp_right fun h =>
      ⟨h.1, h.2.imp_left fun heq => by rw [heq]⟩
  · left
    have hzero := @roundQuanta_closest num den _ hden Magnitude.zero.fits
    have hle : |(num / den : ℚ) - roundQuanta num den| ≤ num / den := by
      have hquanta : (Magnitude.zero.quanta : ℚ) = 0 := Nat.cast_zero
      rw [hquanta, sub_zero, abs_of_nonneg hratio] at hzero
      exact hzero.elim le_of_lt fun h => h.1.le
    have hneg' : (k : ℚ) < 0 := by exact_mod_cast hneg
    rw [abs_of_pos (a := (num / den : ℚ) - k) (by linarith)]
    linarith

/-- A ratio without a sign is made the nearest number. -/
theorem isNearest_ofRatio_pos (num : Nat) (hden : 0 < den) :
    (ofRatio false num den).IsNearest (num / den / unitQuanta) := by
  have hratio : (0 : ℚ) ≤ num / den := div_nonneg (Nat.cast_nonneg _) (Nat.cast_nonneg _)
  have hunit := cast_unitQuanta_pos
  have hover := @quantaLimit_le_roundQuanta_iff num den hden
  rw [← overflowValue_mul_unitQuanta, ← le_div_iff₀ hunit] at hover
  -- A finite result is compared in quanta with every finite number. An infinite one is so
  -- because of the range.
  rcases ofRatio_cases false num den with ⟨hfits, heq⟩ | ⟨hlimit, heq⟩ <;> rw [heq]
  · refine .finite ?_ fun z hz => ?_
    · rw [abs_of_nonneg (div_nonneg hratio hunit.le)]
      exact not_le.1 (hover.not.1 (Nat.not_le.2 hfits.1))
    · obtain ⟨k, -, hvalue, hk⟩ := exists_value_eq hz
      have hself : (finite false ⟨roundQuanta num den, hfits⟩).value
          = (roundQuanta num den : ℚ) / unitQuanta := rfl
      have hdistance : ∀ a : ℚ, |num / den / unitQuanta - a / unitQuanta|
          = |num / den - a| / unitQuanta := by
        intro a
        rw [← sub_div, abs_div, abs_of_pos hunit]
      rw [hvalue, hself, hdistance, hdistance, div_lt_div_iff_of_pos_right hunit,
        div_left_inj' hunit.ne', div_left_inj' hunit.ne']
      exact roundQuanta_closest_int hden hk
  · exact .infinite (hover.1 hlimit)

/-- The double of a ratio of quanta is the nearest one to its value. -/
theorem isNearest_ofRatio (negative : Bool) (num : Nat) (hden : 0 < den) :
    (ofRatio negative num den).IsNearest (signed negative num / den / unitQuanta) := by
  have hpos := isNearest_ofRatio_pos num hden
  cases negative with
  | false => exact hpos
  | true =>
      have hvalue : ((signed true num : ℤ) : ℚ) / den / unitQuanta = -(num / den / unitQuanta) := by
        rw [signed, if_pos rfl, Int.cast_neg, Int.cast_natCast, neg_div, neg_div]
      rw [← neg_ofRatio, hvalue]
      exact hpos.neg

/-! ### Only one place -/

/-- Between two different even doubles there is another one. -/
theorem exists_between_int {a b : ℤ} (ha : Fits a.natAbs) (hb : Fits b.natAbs) (hlt : a < b)
    (haeven : endsIncluded a.natAbs = true) (hbeven : endsIncluded b.natAbs = true) :
    ∃ k : ℤ, Fits k.natAbs ∧ a < k ∧ k < b := by
  rcases lt_or_ge a 0 with hneg | hnonneg
  · rcases lt_or_ge 0 b with hpos | hnonpos
    · exact ⟨0, Magnitude.zero.fits, hneg, hpos⟩
    · obtain ⟨p, hp, hbp, hpa⟩ := exists_between hb ha (by omega) hbeven haeven
      exact ⟨-p, by rwa [Int.natAbs_neg, Int.natAbs_natCast], by omega, by omega⟩
  · obtain ⟨p, hp, hap, hpb⟩ := exists_between ha hb (by omega) haeven hbeven
    exact ⟨p, by rwa [Int.natAbs_natCast], by omega, by omega⟩

/-- A value halfway between two even doubles has a closer one. -/
theorem exists_closer {a b : ℤ} (ha : Fits a.natAbs) (hb : Fits b.natAbs) (hne : a ≠ b)
    (haeven : endsIncluded a.natAbs = true) (hbeven : endsIncluded b.natAbs = true) {y : ℚ}
    (hhalf : |y - a / unitQuanta| = |y - b / unitQuanta|) :
    ∃ z : Number, z.isFinite = true ∧ |y - z.value| < |y - a / unitQuanta| := by
  wlog hlt : a < b generalizing a b
  · obtain ⟨z, hz, hcloser⟩ := this hb ha hne.symm hbeven haeven hhalf.symm
      (lt_of_le_of_ne (not_lt.1 hlt) hne.symm)
    exact ⟨z, hz, hhalf ▸ hcloser⟩
  -- Between two doubles with even significands lies another one.
  obtain ⟨k, hk, hak, hkb⟩ := exists_between_int ha hb hlt haeven hbeven
  refine ⟨finite (decide (k < 0)) ⟨k.natAbs, hk⟩, rfl, ?_⟩
  have hvalue : (finite (decide (k < 0)) ⟨k.natAbs, hk⟩).value = k / unitQuanta := by
    show ((signed (decide (k < 0)) k.natAbs : ℤ) : ℚ) / unitQuanta = k / unitQuanta
    rw [signed_natAbs]
  have hunit := cast_unitQuanta_pos
  have hleft : (a / unitQuanta : ℚ) < k / unitQuanta :=
    div_lt_div_of_pos_right (by exact_mod_cast hak) hunit
  have hright : (k / unitQuanta : ℚ) < b / unitQuanta :=
    div_lt_div_of_pos_right (by exact_mod_cast hkb) hunit
  rw [hvalue]
  generalize (a / unitQuanta : ℚ) = left at *
  generalize (b / unitQuanta : ℚ) = right at *
  generalize (k / unitQuanta : ℚ) = middle at *
  -- The value is in the middle, or the two would be the same.
  rcases abs_eq_abs.1 hhalf with heq | heq
  · linarith
  · rw [abs_of_pos (a := y - left) (by linarith), abs_lt]
    exact ⟨by linarith, by linarith⟩

/-- The nearest doubles to one value stand at one place. -/
theorem IsNearest.key_eq {x x' : Number} {y : ℚ} (h : x.IsNearest y) (h' : x'.IsNearest y) :
    x.key = x'.key := by
  have hsides : ∀ negative : Bool, overflowValue ≤ (if negative then -y else y) →
      overflowValue ≤ |y| := by
    intro negative hrange
    cases negative
    · exact hrange.trans (le_abs_self y)
    · exact hrange.trans (neg_le_abs y)
  cases h with
  | @infinite negative _ range =>
      cases h' with
      | @infinite negative' _ range' =>
          have hpos := overflowValue_pos
          have hsign : negative = negative' := by
            cases negative <;> cases negative' <;>
              simp only [Bool.false_eq_true, if_true, if_false] at range range' ⊢ <;> linarith
          rw [hsign]
      | finite range' _ => exact absurd (hsides negative range) (not_le.2 range')
  | @finite negative m _ range closest =>
      cases h' with
      | @infinite negative' _ range' => exact absurd (hsides negative' range') (not_le.2 range)
      | @finite negative' m' _ range' closest' =>
          have hforth := closest (.finite negative' m') rfl
          have hback := closest' (.finite negative m) rfl
          have hdistance := le_antisymm (hforth.elim le_of_lt fun h => h.1.le)
            (hback.elim le_of_lt fun h => h.1.le)
          have htied : ∀ {a b : ℚ} {p : Prop}, a = b → (a < b ∨ a = b ∧ p) → p :=
            fun heq h => (h.resolve_left heq.not_lt).2
          by_contra hkey
          have hne : signed negative m.quanta ≠ signed negative' m'.quanta :=
            fun heq => hkey (congrArg some heq)
          have hvalue : (Number.finite negative m).value ≠ (Number.finite negative' m').value := by
            intro heq
            refine hne ?_
            have hcast := (div_left_inj' cast_unitQuanta_pos.ne').1 heq
            exact_mod_cast hcast
          -- Both are as close, so both are even, and then a closer double lies between.
          have heven := (htied hdistance hforth).resolve_left hvalue.symm
          have heven' := (htied hdistance.symm hback).resolve_left hvalue
          obtain ⟨z, hz, hcloser⟩ := exists_closer (y := y)
            (by rw [natAbs_signed]; exact m.fits) (by rw [natAbs_signed]; exact m'.fits) hne
            (by rw [natAbs_signed]; exact heven) (by rw [natAbs_signed]; exact heven') hdistance
          exact absurd hcloser (not_lt.2 ((closest z hz).elim le_of_lt fun h => h.1.le))

end Number

end Formula
