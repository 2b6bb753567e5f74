import Mathlib
import Formula.Number.Shortest

/-!
# `Formula.Proofs.Number.Rounding`: what rounding comes to

Rounding divides natural numbers and looks at remainders. Here it is told in
terms of the exact ratio: which ratios round to a magnitude, and that rounding
keeps the order.

* `roundHalfEven_eq`: the natural number next to a ratio, the even one at a
  tie.
* `Fits.significand_spec`: the significand of a magnitude.
* `RoundsTo`: the ratios in the interval around a magnitude.
* `roundQuanta_eq`: these round to it.
* `roundQuanta_mono`: of two ratios the smaller one does not round to more.
-/

set_option autoImplicit false

namespace Formula

variable {num den num' den' n q : Nat}

/-! ### The nearest natural number -/

/-- The whole part of a ratio, compared with a natural number. -/
theorem le_div_iff_cast_le (hden : 0 < den) : n ≤ num / den ↔ (n : ℚ) ≤ num / den := by
  have hden' : (0 : ℚ) < den := by exact_mod_cast hden
  rw [Nat.le_div_iff_mul_le hden, le_div_iff₀ hden']
  exact_mod_cast Iff.rfl

/-- A natural number next to a ratio, the even one at a tie. -/
structure IsNearest (x : ℚ) (n : Nat) : Prop where
  below : (n : ℚ) - 1 / 2 ≤ x
  above : x ≤ n + 1 / 2
  even : x = n - 1 / 2 ∨ x = n + 1 / 2 → n % 2 = 0

/-- Rounding comes to the nearest number, and on a tie to the even one. -/
theorem isNearest_roundHalfEven (num : Nat) (hden : 0 < den) :
    IsNearest (num / den) (roundHalfEven num den) := by
  have hden' : (0 : ℚ) < den := by exact_mod_cast hden
  -- The ratio is its whole part and a remainder below one.
  have hsplit : (num / den : ℚ) = (num / den : Nat) + (num % den : Nat) / den := by
    rw [eq_comm, ← mul_right_inj' hden'.ne', mul_add, mul_div_cancel₀ _ hden'.ne',
      mul_div_cancel₀ _ hden'.ne']
    exact_mod_cast Nat.div_add_mod num den
  have hrem : ((num % den : Nat) : ℚ) / den < 1 := by
    rw [div_lt_one hden']
    exact_mod_cast Nat.mod_lt num hden
  have hrem' : (0 : ℚ) ≤ ((num % den : Nat) : ℚ) / den := by positivity
  -- On which side of a half the remainder lies, as a ratio.
  have hbelow : 2 * (num % den) < den ↔ ((num % den : Nat) : ℚ) / den < 1 / 2 := by
    rw [div_lt_div_iff₀ hden' two_pos, one_mul, mul_comm]
    exact_mod_cast Iff.rfl
  have habove : den < 2 * (num % den) ↔ 1 / 2 < ((num % den : Nat) : ℚ) / den := by
    rw [div_lt_div_iff₀ two_pos hden', one_mul, mul_comm _ (2 : ℚ)]
    exact_mod_cast Iff.rfl
  rw [hsplit]
  generalize ((num % den : Nat) : ℚ) / den = r at *
  unfold roundHalfEven
  dsimp only
  split
  · rename_i hlow
    have := hbelow.1 hlow
    refine ⟨by linarith, by linarith, fun htie => ?_⟩
    rcases htie with heq | heq <;> linarith
  · split
    · rename_i hhigh
      have := habove.1 hhigh
      have hsucc : ((num / den + 1 : Nat) : ℚ) = (num / den : Nat) + 1 := Nat.cast_succ _
      refine ⟨by linarith, by linarith, fun htie => ?_⟩
      rcases htie with heq | heq <;> linarith
    · rename_i hlow hhigh
      have hhalf : r = 1 / 2 := le_antisymm (not_lt.1 (habove.not.1 hhigh))
        (not_lt.1 (hbelow.not.1 hlow))
      have heven : (num / den + num / den % 2) % 2 = 0 := by omega
      rcases Nat.mod_two_eq_zero_or_one (num / den) with hmod | hmod <;> rw [hmod] at heven ⊢ <;>
        exact ⟨by push_cast; linarith, by push_cast; linarith, fun _ => heven⟩

/-- The order is kept: two different numbers next to one ratio would be a tie
between neighbours, and only one of them is even. -/
theorem IsNearest.le {x y : ℚ} {a b : Nat} (ha : IsNearest x a) (hb : IsNearest y b)
    (hxy : x ≤ y) : a ≤ b := by
  by_contra hlt
  have hnext : (b : ℚ) + 1 ≤ a := by exact_mod_cast Nat.lt_of_not_le hlt
  have hlow := ha.below
  have hhigh := hb.above
  have hsucc : (a : ℚ) = b + 1 := by linarith
  have haeven := ha.even (.inl (by linarith))
  have hbeven := hb.even (.inr (by linarith))
  have : a = b + 1 := by exact_mod_cast hsucc
  omega

/-- The nearest number is the one that rounding comes to. -/
theorem roundHalfEven_eq (hden : 0 < den) (h : IsNearest (num / den) n) :
    roundHalfEven num den = n :=
  Nat.le_antisymm ((isNearest_roundHalfEven num hden).le h le_rfl)
    (h.le (isNearest_roundHalfEven num hden) le_rfl)

/-! ### Significands -/

/-- A number of 53 bits has none too many. -/
theorem excessBits_eq_zero (hn : n < 2 ^ 53) : excessBits n = 0 := by
  unfold excessBits
  rcases Nat.eq_zero_or_pos n with rfl | hpos
  · rfl
  · have := (Nat.log2_lt hpos.ne').2 hn
    omega

/-- The bits below the precision of a number, from its binade. -/
theorem excessBits_eq {shift : Nat} (hlow : 2 ^ (52 + shift) ≤ n) (hhigh : n < 2 ^ (53 + shift)) :
    excessBits n = shift := by
  have hpos : n ≠ 0 := (Nat.lt_of_lt_of_le (Nat.two_pow_pos _) hlow).ne'
  have h₁ := (Nat.le_log2 hpos).2 hlow
  have h₂ := (Nat.log2_lt hpos).2 hhigh
  unfold excessBits
  omega

/-- A number lies in the binade that its excess bits tell. -/
theorem lt_of_excessBits (n : Nat) : n < 2 ^ (53 + excessBits n) := by
  have h : n < 2 ^ (n.log2 + 1) := Nat.lt_log2_self
  refine h.trans_le (Nat.pow_le_pow_right two_pos ?_)
  unfold excessBits
  omega

/-- A number with bits too many reaches its binade. -/
theorem le_of_excessBits_pos (h : 0 < excessBits n) : 2 ^ (52 + excessBits n) ≤ n := by
  have hlog : 52 < n.log2 := by
    unfold excessBits at h
    omega
  have hpos : n ≠ 0 := by
    rintro rfl
    exact absurd hlog (by decide)
  refine (Nat.le_log2 hpos).1 ?_
  unfold excessBits
  omega

/-- A larger number has as many bits too many or more. -/
theorem excessBits_mono {m : Nat} (h : n ≤ m) : excessBits n ≤ excessBits m := by
  rcases Nat.eq_zero_or_pos n with rfl | hpos
  · exact Nat.zero_le _
  · have := (Nat.le_log2 (hpos.trans_le h).ne').2 ((Nat.log2_self_le hpos.ne').trans h)
    unfold excessBits
    omega

/-- A number below a binade has fewer. -/
theorem excessBits_le {q bits : Nat} (h : q < 2 ^ (53 + bits)) : excessBits q ≤ bits := by
  rcases Nat.eq_zero_or_pos q with rfl | hpos
  · exact Nat.zero_le bits
  · have hlog := (Nat.log2_lt hpos.ne').2 h
    unfold excessBits
    omega

/-- The last place is worth something. -/
theorem ulp_pos (q : Nat) : 0 < ulp q := Nat.pow_pos two_pos

/-- The significand of a magnitude: 53 bits, or fewer where the quantum is the
unit. -/
theorem Fits.significand_spec (hq : Fits q) : q = q / ulp q * ulp q ∧ q / ulp q < 2 ^ 53 ∧
    (0 < excessBits q → 2 ^ 52 ≤ q / ulp q) := by
  obtain ⟨-, significand, shift, hsignificand, hq⟩ := hq
  rw [significandLimit, Nat.pow_eq] at hsignificand
  rw [Nat.pow_eq] at hq
  have hulp : ulp q = 2 ^ excessBits q := rfl
  have hlt := lt_of_excessBits q
  have hdvd : ulp q ∣ q := by
    rcases Nat.eq_zero_or_pos (excessBits q) with hzero | hpos
    · rw [hulp, hzero]
      exact one_dvd q
    · -- A significand of 53 bits cannot reach the binade with a smaller shift.
      have hshift : excessBits q ≤ shift := by
        by_contra hless
        have hle := le_of_excessBits_pos hpos
        have hbound : significand * 2 ^ shift < 2 ^ 53 * 2 ^ shift :=
          Nat.mul_lt_mul_of_pos_right hsignificand (Nat.two_pow_pos _)
        rw [← hq, ← pow_add] at hbound
        have hmore : 2 ^ (53 + shift) ≤ 2 ^ (52 + excessBits q) :=
          Nat.pow_le_pow_right two_pos (by omega)
        omega
      rw [hulp, hq]
      exact Dvd.dvd.mul_left (pow_dvd_pow 2 (hq ▸ hshift)) significand
  -- What fits is a multiple of its last place; the bounds are those of the binade.
  refine ⟨(Nat.div_mul_cancel hdvd).symm, ?_, fun hpos => ?_⟩
  · rw [Nat.div_lt_iff_lt_mul (ulp_pos q), hulp, ← pow_add]
    exact hlt
  · rw [Nat.le_div_iff_mul_le (ulp_pos q), hulp, ← pow_add]
    exact le_of_excessBits_pos hpos

/-! ### The interval around a magnitude -/

/-- The ratios that round to a magnitude: those up to halfway to its
neighbours, the ends only for an even significand. -/
structure RoundsTo (q : Nat) (x : ℚ) : Prop where
  below : (lowerEnd q : ℚ) ≤ 4 * x
  above : 4 * x ≤ upperEnd q
  even : 4 * x = lowerEnd q ∨ 4 * x = upperEnd q → endsIncluded q = true

/-- The upper end is half a last place above. -/
theorem cast_upperEnd (q : Nat) : (upperEnd q : ℚ) = 4 * q + 2 * ulp q := by
  unfold upperEnd
  push_cast
  ring

/-- The last place of a number is no larger than the number. -/
theorem ulp_le (hq : Fits q) (hpos : 0 < q) : ulp q ≤ q := by
  obtain ⟨hmul, -, -⟩ := hq.significand_spec
  refine Nat.le_of_dvd hpos ⟨q / ulp q, ?_⟩
  rw [mul_comm]
  exact hmul

/-- The lower end is half a last place below, or a quarter where the binade
begins. -/
theorem cast_lowerEnd (hq : Fits q) (hpos : 0 < q) :
    (lowerEnd q : ℚ) = 4 * q - if narrowBelow q then (ulp q : ℚ) else 2 * ulp q := by
  have hle := ulp_le hq hpos
  unfold lowerEnd
  split
  · rw [Nat.cast_sub (by omega)]
    push_cast
    ring
  · rw [Nat.cast_sub (by omega)]
    push_cast
    ring

/-- The lower end is never farther than half a unit. -/
theorem le_cast_lowerEnd (hq : Fits q) (hpos : 0 < q) : (4 * q - 2 * ulp q : ℚ) ≤ lowerEnd q := by
  have hulp : (0 : ℚ) < ulp q := by exact_mod_cast ulp_pos q
  rw [cast_lowerEnd hq hpos]
  split <;> linarith

/-- In units of the last bit the ratio is next to the significand. -/
theorem RoundsTo.isNearest {x : ℚ} (h : RoundsTo q x) (hq : Fits q) (hpos : 0 < q) :
    IsNearest (x / ulp q) (q / ulp q) := by
  have hulp : (0 : ℚ) < ulp q := by exact_mod_cast ulp_pos q
  have hmul : (q : ℚ) = (q / ulp q : Nat) * ulp q := by exact_mod_cast hq.significand_spec.1
  have hlow := (le_cast_lowerEnd hq hpos).trans h.below
  have hhigh := h.above
  rw [cast_upperEnd] at hhigh
  -- Scaled by the last place the interval is at most half a unit to either side.
  refine ⟨?_, ?_, fun htie => ?_⟩
  · rw [le_div_iff₀ hulp]
    linarith
  · rw [div_le_iff₀ hulp]
    linarith
  · have hends : 4 * x = lowerEnd q ∨ 4 * x = upperEnd q := by
      rw [div_eq_iff hulp.ne', div_eq_iff hulp.ne'] at htie
      rcases htie with hx | hx
      · -- A narrow interval does not reach halfway down.
        have hreach := h.below
        rw [cast_lowerEnd hq hpos] at hreach ⊢
        split at hreach
        · linarith
        · exact .inl (by rw [if_neg ‹_›]; linarith)
      · exact .inr (by rw [cast_upperEnd]; linarith)
    simpa [endsIncluded] using h.even hends

/-! ### Rounding -/

/-- The last place is a power of two. -/
theorem cast_ulp (q : Nat) : (ulp q : ℚ) = 2 ^ excessBits q := by
  unfold ulp
  exact_mod_cast rfl

/-- The outcome of rounding, from the binade of the ratio. -/
theorem roundQuanta_of_excessBits (hden : 0 < den) {shift : Nat}
    (hshift : excessBits (num / den) = shift) (h : IsNearest (num / den / 2 ^ shift) n) :
    roundQuanta num den = n * 2 ^ shift := by
  have hden' : 0 < den * 2 ^ shift := Nat.mul_pos hden (Nat.two_pow_pos _)
  have hratio : (num / (den * 2 ^ shift : Nat) : ℚ) = num / den / 2 ^ shift := by
    push_cast
    rw [div_div]
  unfold roundQuanta
  rw [hshift]
  show roundHalfEven num (den * 2 ^ shift) * 2 ^ shift = n * 2 ^ shift
  rw [roundHalfEven_eq hden' (by rw [hratio]; exact h)]

/-- The whole part of a ratio in the interval has no more bits than the
magnitude. -/
theorem RoundsTo.lt_binade {x : ℚ} (h : RoundsTo q x) (hq : Fits q) :
    x < 2 ^ 53 * ulp q := by
  obtain ⟨hmul, hlt, -⟩ := hq.significand_spec
  have hulp : (0 : ℚ) < ulp q := by exact_mod_cast ulp_pos q
  have hmul' : (q : ℚ) = (q / ulp q : Nat) * ulp q := by exact_mod_cast hmul
  have hM : ((q / ulp q : Nat) : ℚ) + 1 ≤ 2 ^ 53 := by exact_mod_cast hlt
  have hhigh := h.above
  rw [cast_upperEnd] at hhigh
  nlinarith

/-- A ratio in the interval that lies below the binade of the magnitude: then
the magnitude is a power of two, and the interval is narrow. -/
theorem RoundsTo.narrow {x : ℚ} (h : RoundsTo q x) (hq : Fits q) (hpos : 0 < q)
    (hshift : 0 < excessBits q) (hx : x < 2 ^ 52 * ulp q) :
    q = 2 ^ (52 + excessBits q) ∧ (q - ulp q / 4 : ℚ) ≤ x := by
  obtain ⟨hmul, -, hle⟩ := hq.significand_spec
  have hulp : (0 : ℚ) < ulp q := by exact_mod_cast ulp_pos q
  have hmul' : (q : ℚ) = (q / ulp q : Nat) * ulp q := by exact_mod_cast hmul
  have hlow := (le_cast_lowerEnd hq hpos).trans h.below
  -- A larger significand would have the lower end within the binade.
  have hpower : q / ulp q = 2 ^ 52 := by
    refine Nat.le_antisymm (Nat.not_lt.1 fun hmore => ?_) (hle hshift)
    have : (2 ^ 52 + 1 : ℚ) ≤ (q / ulp q : Nat) := by exact_mod_cast hmore
    nlinarith
  have hq' : q = 2 ^ (52 + excessBits q) := by
    rw [pow_add]
    exact hmul.trans (by rw [hpower]; rfl)
  have hnarrow : narrowBelow q = true := by
    have hlog : q.log2 = 52 + excessBits q := by
      conv_lhs => rw [hq']
      exact Nat.log2_two_pow
    have hulp' : 1 < ulp q := Nat.one_lt_two_pow hshift.ne'
    simp only [narrowBelow, hulp', decide_true, Bool.true_and, beq_iff_eq, hlog, Nat.pow_eq]
    exact hq'
  have hbelow := h.below
  rw [cast_lowerEnd hq hpos, if_pos hnarrow] at hbelow
  exact ⟨hq', by linarith⟩

/-- Just below a power of two the bits of a ratio are worth half as much, and the
significand becomes the next power of two. -/
theorem RoundsTo.roundQuanta_of_below (h : RoundsTo q (num / den)) (hq : Fits q) (hpos : 0 < q)
    (hden : 0 < den) (hshift : 0 < excessBits q) (hbelow : num / den < 2 ^ (52 + excessBits q)) :
    roundQuanta num den = q := by
  have hsmall : (num / den : ℚ) < 2 ^ 52 * ulp q := by
    by_contra hlarge
    refine Nat.not_le.2 hbelow ((le_div_iff_cast_le hden).2 ?_)
    push_cast
    rw [pow_add, ← cast_ulp]
    exact not_lt.1 hlarge
  obtain ⟨hq', hlow⟩ := h.narrow hq hpos hshift hsmall
  obtain ⟨shift, hsucc⟩ := Nat.exists_eq_succ_of_ne_zero hshift.ne'
  have hhalf : (ulp q : ℚ) = 2 ^ shift * 2 := by
    rw [cast_ulp, hsucc, Nat.succ_eq_add_one, pow_succ]
  have hvalue : (q : ℚ) = 2 ^ 52 * ulp q := by
    rw [cast_ulp, ← pow_add]
    exact_mod_cast hq'
  have hunit : (0 : ℚ) < 2 ^ shift := by positivity
  have hbinade : 53 + shift = 52 + excessBits q := by omega
  -- The ratio lies in the binade below, where a bit is worth `2 ^ shift`.
  have hbits : excessBits (num / den) = shift := by
    refine excessBits_eq ((le_div_iff_cast_le hden).2 ?_) ?_
    · push_cast
      rw [pow_add]
      linarith
    · rw [hbinade]
      exact hbelow
  -- There the nearest significand is `2 ^ 53`, one past the largest, worth as much as `2 ^ 52`
  -- above.
  have hnearest : IsNearest (num / den / 2 ^ shift) (2 ^ 53) := by
    refine ⟨?_, ?_, fun _ => by decide⟩
    · rw [le_div_iff₀ hunit]
      push_cast
      linarith
    · rw [div_le_iff₀ hunit]
      push_cast
      linarith
  rw [roundQuanta_of_excessBits hden hbits hnearest, ← pow_add, hbinade]
  exact hq'.symm

/-- The ratios in the interval round to the magnitude. -/
theorem roundQuanta_eq (hq : Fits q) (hpos : 0 < q) (hden : 0 < den)
    (h : RoundsTo q (num / den)) : roundQuanta num den = q := by
  obtain ⟨hmul, hlt, -⟩ := hq.significand_spec
  -- In the binade of the magnitude the interval is that of the nearest significand.
  have hsame : excessBits (num / den) = excessBits q → roundQuanta num den = q := by
    intro hshift
    have hnear := h.isNearest hq hpos
    rw [cast_ulp] at hnear
    exact (roundQuanta_of_excessBits hden hshift hnear).trans hmul.symm
  have hbinade : num / den < 2 ^ 53 * ulp q := by
    by_contra hlarge
    have := (le_div_iff_cast_le hden).1 (Nat.not_lt.1 hlarge)
    push_cast at this
    exact absurd (h.lt_binade hq) (not_lt.2 this)
  rcases Nat.eq_zero_or_pos (excessBits q) with hzero | hshift
  · -- The unit is the quantum, also for the ratio.
    have hunit : ulp q = 1 := by
      unfold ulp
      rw [hzero]
    rw [hunit, mul_one] at hbinade
    exact hsame ((excessBits_eq_zero hbinade).trans hzero.symm)
  · have hulp : ulp q = 2 ^ excessBits q := rfl
    rw [hulp, ← pow_add] at hbinade
    by_cases hfloor : 2 ^ (52 + excessBits q) ≤ num / den
    · exact hsame (excessBits_eq hfloor hbinade)
    · exact h.roundQuanta_of_below hq hpos hden hshift (Nat.lt_of_not_le hfloor)

/-- Rounding keeps the order. In a higher binade the significand alone is worth
more than any in a lower one. -/
theorem roundQuanta_mono (hden : 0 < den) (hden' : 0 < den')
    (h : (num / den : ℚ) ≤ num' / den') : roundQuanta num den ≤ roundQuanta num' den' := by
  have hfloor : num / den ≤ num' / den' :=
    (le_div_iff_cast_le hden').2 (((le_div_iff_cast_le hden).1 le_rfl).trans h)
  have hscaled : ∀ (num : Nat) {den : Nat}, 0 < den → ∀ shift : Nat,
      IsNearest (num / den / 2 ^ shift) (roundHalfEven num (den * 2 ^ shift)) := by
    intro num den hden shift
    have hnear := isNearest_roundHalfEven num (Nat.mul_pos hden (Nat.two_pow_pos shift))
    push_cast at hnear
    rwa [← div_div] at hnear
  have hnear := hscaled num hden (excessBits (num / den))
  have hnear' := hscaled num' hden' (excessBits (num' / den'))
  -- The two ratios lie in one binade, or the greater one in a higher.
  rcases (excessBits_mono hfloor).eq_or_lt with hshift | hshift
  · -- In one binade it is the significands that are compared.
    rw [hshift] at hnear
    unfold roundQuanta
    dsimp only
    rw [hshift]
    refine Nat.mul_le_mul_right _ (hnear.le hnear' ?_)
    gcongr
  · have hself : IsNearest ((2 ^ 52 : Nat) : ℚ) (2 ^ 52) :=
      ⟨by linarith, by linarith, fun _ => by decide⟩
    have hreach : ((2 ^ 52 : Nat) : ℚ) ≤ num' / den' / 2 ^ excessBits (num' / den') := by
      have hbinade := (le_div_iff_cast_le hden').1
        (le_of_excessBits_pos (Nat.zero_lt_of_lt hshift))
      rw [Nat.cast_pow, Nat.cast_ofNat] at hbinade
      rwa [le_div_iff₀ (by positivity), Nat.cast_pow, Nat.cast_ofNat, ← pow_add]
    calc roundQuanta num den ≤ 2 ^ 53 * 2 ^ excessBits (num / den) :=
          Nat.mul_le_mul_right _ (roundHalfEven_excessBits_le num den)
      _ = 2 ^ 52 * 2 ^ (excessBits (num / den) + 1) := by ring
      _ ≤ 2 ^ 52 * 2 ^ excessBits (num' / den') :=
          Nat.mul_le_mul_left _ (Nat.pow_le_pow_right two_pos hshift)
      _ ≤ roundQuanta num' den' := Nat.mul_le_mul_right _ (hself.le hnear' hreach)

/-- A larger numerator is rounded to as much or more. -/
theorem roundQuanta_mono_left (hden : 0 < den) (h : num ≤ num') :
    roundQuanta num den ≤ roundQuanta num' den :=
  roundQuanta_mono hden hden
    (div_le_div_of_nonneg_right (Nat.cast_le.2 h) (Nat.cast_nonneg den))

end Formula
