import Formula.Proofs.Number.Literal

/-!
# `Formula.Proofs.Number.Radix`: digits of a radix, one at a time

The digits of a prefixed integer are taken in from the left, and every step rounds.
The radix is a power of two, so only the step at which the integer outgrows the
significand rounds really; each later digit is less than half a unit of the last
place and is dropped. The outcome is the double of the integer with zeros in place
of these digits. It is another double than that of the integer itself exactly when
the kept digits lie halfway between two doubles and are rounded down, although a
later digit would have tipped them upward.

* `roundQuanta_append_iff`: when the digits after the kept ones matter.
* `Number.takeDigit_ofNat`: one step.
* `Number.exists_foldl_takeDigit`: the whole run.
-/

set_option autoImplicit false

namespace Formula

variable {num den n p shift tail unit : Nat}

/-! ### Scaling by a power of two -/

/-- A ratio is rounded alike when it is widened. -/
theorem roundHalfEven_mul_right {factor : Nat} (hfactor : 0 < factor) :
    roundHalfEven (num * factor) (den * factor) = roundHalfEven num den := by
  unfold roundHalfEven
  simp only [Nat.mul_div_mul_right _ _ hfactor, Nat.mul_mod_mul_right, ← Nat.mul_assoc,
    Nat.mul_lt_mul_right hfactor]

/-- So are the quanta of a ratio. -/
theorem roundQuanta_mul_right {factor : Nat} (hfactor : 0 < factor) :
    roundQuanta (num * factor) (den * factor) = roundQuanta num den := by
  unfold roundQuanta
  dsimp only
  rw [Nat.mul_div_mul_right _ _ hfactor, Nat.mul_right_comm, roundHalfEven_mul_right hfactor]

/-- A whole number is rounded to a multiple of its last place. -/
theorem roundQuanta_one (n : Nat) : roundQuanta n 1 = roundHalfEven n (ulp n) * ulp n := by
  unfold roundQuanta ulp
  dsimp only
  rw [Nat.div_one, Nat.one_mul]

/-- A shifted number has as many more bits below its precision. -/
theorem ulp_append (hn : 2 ^ 52 ≤ n) (htail : tail < 2 ^ shift) :
    ulp (n * 2 ^ shift + tail) = ulp n * 2 ^ shift := by
  have hlow : 2 ^ (52 + excessBits n) ≤ n := by
    rcases Nat.eq_zero_or_pos (excessBits n) with hzero | hpos
    · rwa [hzero]
    · exact le_of_excessBits_pos hpos
  have hhigh := lt_of_excessBits n
  -- The bits behind do not reach the first one, so the number gets longer by their count.
  have hbits : excessBits (n * 2 ^ shift + tail) = excessBits n + shift := by
    refine excessBits_eq ?_ ?_
    · rw [← Nat.add_assoc, pow_add 2 _ shift]
      exact (Nat.mul_le_mul_right _ hlow).trans (Nat.le_add_right _ _)
    · rw [← Nat.add_assoc, pow_add 2 _ shift]
      calc n * 2 ^ shift + tail < n * 2 ^ shift + 2 ^ shift := Nat.add_lt_add_left htail _
        _ = (n + 1) * 2 ^ shift := (Nat.succ_mul n _).symm
        _ ≤ 2 ^ (53 + excessBits n) * 2 ^ shift := Nat.mul_le_mul_right _ hhigh
  unfold ulp
  rw [hbits, Nat.pow_eq, Nat.pow_eq, pow_add]

/-- From a full significand on, rounding commutes with a shift. -/
theorem roundQuanta_mul_two_pow (hn : 2 ^ 52 ≤ n) (shift : Nat) :
    roundQuanta (n * 2 ^ shift) 1 = roundQuanta n 1 * 2 ^ shift := by
  have hulp := ulp_append hn (Nat.two_pow_pos shift)
  rw [Nat.add_zero] at hulp
  rw [roundQuanta_one, roundQuanta_one, hulp, roundHalfEven_mul_right (Nat.two_pow_pos shift),
    Nat.mul_assoc]

/-! ### What a tail does -/

/-- A tail below the last bit changes the rounding exactly at a tie that goes down. -/
theorem roundHalfEven_append_iff {factor : Nat} (heven : unit % 2 = 0)
    (htail : tail < factor) :
    roundHalfEven (p * factor + tail) (unit * factor) = roundHalfEven p unit ↔
      ¬(2 * (p % unit) = unit ∧ p / unit % 2 = 0 ∧ tail ≠ 0) := by
  -- The tail is cut off again by the division, and stays in the remainder.
  have hwhole : (p * factor + tail) / factor = p := by
    rw [Nat.add_comm, Nat.add_mul_div_right _ _ (Nat.zero_lt_of_lt htail),
      Nat.div_eq_of_lt htail, Nat.zero_add]
  have hlast : (p * factor + tail) % factor = tail := by
    rw [Nat.add_comm, Nat.add_mul_mod_self_right, Nat.mod_eq_of_lt htail]
  have hdiv : (p * factor + tail) / (unit * factor) = p / unit := by
    rw [Nat.mul_comm unit, ← Nat.div_div_eq_div_mul, hwhole]
  have hmod : (p * factor + tail) % (unit * factor) = tail + factor * (p % unit) := by
    rw [Nat.mul_comm unit, Nat.mod_mul, hwhole, hlast]
  unfold roundHalfEven
  simp only [hdiv, hmod]
  rcases lt_trichotomy (2 * (p % unit)) unit with hbelow | htie | habove
  · -- The unit is even, so below a half there is room for any tail.
    have hgap : (2 * (p % unit) + 2) * factor ≤ unit * factor :=
      Nat.mul_le_mul_right _ (by omega)
    have hbelow' : 2 * (tail + factor * (p % unit)) < unit * factor := by
      have hexpand : (2 * (p % unit) + 2) * factor = 2 * (factor * (p % unit)) + 2 * factor := by
        ring
      omega
    rw [if_pos hbelow', if_pos hbelow]
    exact iff_of_true rfl fun h => hbelow.ne h.1
  · -- At a half the tie rule decides without a tail, and a tail tips it upward.
    have hhalf : 2 * (tail + factor * (p % unit)) = unit * factor + 2 * tail := by
      have hexpand : 2 * (p % unit) * factor = 2 * (factor * (p % unit)) := by ring
      rw [htie] at hexpand
      omega
    rw [if_neg (by omega), if_neg htie.not_lt, if_neg htie.symm.not_lt, hhalf]
    rcases Nat.eq_zero_or_pos tail with hzero | hpos
    · rw [if_neg (by omega)]
      exact iff_of_true rfl fun h => h.2.2 hzero
    · rw [if_pos (by omega)]
      omega
  · -- Above a half the tail only adds to the remainder.
    have habove' : unit * factor < 2 * (tail + factor * (p % unit)) := by
      have hmore := Nat.mul_lt_mul_of_pos_right habove (Nat.zero_lt_of_lt htail)
      have hexpand : 2 * (p % unit) * factor = 2 * (factor * (p % unit)) := by ring
      omega
    rw [if_neg (by omega), if_pos habove', if_neg (by omega), if_pos habove]
    exact iff_of_true rfl fun h => habove.ne' h.1

/-- Whether digits after the ones that fill the significand matter. -/
theorem roundQuanta_append_iff (hp : 2 ^ 53 ≤ p) (htail : tail < 2 ^ shift) :
    roundQuanta (p * 2 ^ shift) 1 = roundQuanta (p * 2 ^ shift + tail) 1 ↔
      ¬(2 * (p % ulp p) = ulp p ∧ p / ulp p % 2 = 0 ∧ tail ≠ 0) := by
  have hp' : 2 ^ 52 ≤ p := le_trans (by decide) hp
  have hbits : 0 < excessBits p := by
    rw [Nat.pos_iff_ne_zero]
    intro hzero
    have hlt := lt_of_excessBits p
    rw [hzero] at hlt
    omega
  -- Beyond 53 bits the last place is even, so the tail can only decide a tie.
  have heven : ulp p % 2 = 0 := by
    obtain ⟨bits, hbits'⟩ := Nat.exists_eq_succ_of_ne_zero hbits.ne'
    unfold ulp
    rw [hbits', Nat.pow_eq, pow_succ]
    exact Nat.mul_mod_left _ _
  have hpos : 0 < ulp p * 2 ^ shift := Nat.mul_pos (ulp_pos p) (Nat.two_pow_pos shift)
  rw [roundQuanta_mul_two_pow hp', roundQuanta_one p, roundQuanta_one (p * 2 ^ shift + tail),
    ulp_append hp' htail, Nat.mul_assoc, Nat.mul_left_inj hpos.ne', eq_comm]
  exact roundHalfEven_append_iff heven htail

/-! ### One step -/

/-- The quanta of one are a large power of two. -/
theorem exists_unitQuanta : ∃ bits, 52 ≤ bits ∧ unitQuanta = 2 ^ bits := by
  refine ⟨quantumBits, by decide, ?_⟩
  unfold unitQuanta
  rw [Nat.pow_eq]

/-- Zero is not rounded. -/
theorem roundQuanta_zero : roundQuanta 0 1 = 0 := roundQuanta_self Magnitude.zero.fits

/-- Scaling an integer by a power of two scales what it is rounded to. -/
theorem roundQuanta_scaled {w : Nat} (hfits : Fits (roundQuanta (w * unitQuanta) 1))
    (shift : Nat) :
    roundQuanta (roundQuanta (w * unitQuanta) 1 * 2 ^ shift) 1
      = roundQuanta (w * 2 ^ shift * unitQuanta) 1 := by
  -- Zero is apart. Any other whole number has quanta enough for a full significand.
  rcases Nat.eq_zero_or_pos w with rfl | hpos
  · simp only [Nat.zero_mul, roundQuanta_zero]
  · have hone := roundQuanta_self (fits_of_lt_significandLimit (n := 1) (by decide))
    have hself := roundQuanta_self hfits
    have hleast : 1 * unitQuanta ≤ w * unitQuanta := Nat.mul_le_mul_right _ hpos
    have hmore := hone.ge.trans (roundQuanta_mono_left one_pos hleast)
    obtain ⟨bits, hbits, hunit⟩ := exists_unitQuanta
    have hlarge : 2 ^ 52 ≤ unitQuanta := hunit ▸ Nat.pow_le_pow_right two_pos hbits
    generalize unitQuanta = unit at *
    rw [Nat.one_mul] at hmore
    rw [roundQuanta_mul_two_pow (hlarge.trans hmore), hself, Nat.mul_right_comm,
      roundQuanta_mul_two_pow (hlarge.trans (Nat.le_mul_of_pos_left _ hpos))]

/-- What is less than half a unit of the last place is dropped. -/
theorem roundQuanta_add {q extra : Nat} (hq : Fits q) (hpos : 0 < q) (hextra : 2 * extra < ulp q) :
    roundQuanta (q + extra) 1 = q := by
  have hself := roundsTo_self hq hpos
  have hnonneg : (0 : ℚ) ≤ extra := Nat.cast_nonneg extra
  have hlow := hself.below
  have hhigh : 4 * ((q : ℚ) + extra) < upperEnd q := by
    have hextra' : 2 * (extra : ℚ) < ulp q := by exact_mod_cast hextra
    rw [cast_upperEnd]
    linarith
  -- Less than half of the last place away, the number stays within the interval that rounds to
  -- it.
  refine roundQuanta_eq hq hpos one_pos ?_
  rw [Nat.cast_one, div_one, Nat.cast_add]
  refine ⟨by linarith, hhigh.le, fun hend => ?_⟩
  rcases hend with hend | hend
  · exact hself.even (.inl (by linarith))
  · exact absurd hend hhigh.ne

/-- The unit of the last place of a large integer. -/
theorem le_ulp {q : Nat} (h : 2 ^ 53 * 2 ^ shift * unitQuanta ≤ q) :
    2 * 2 ^ shift * unitQuanta ≤ ulp q := by
  obtain ⟨bits, -, hunit⟩ := exists_unitQuanta
  generalize unitQuanta = unit at *
  have hlow : 2 ^ 53 * 2 ^ shift * unit = 2 ^ 52 * 2 ^ (1 + shift + bits) := by
    rw [hunit, ← pow_add, ← pow_add, ← pow_add]
    congr 1
    omega
  have hlast : 2 * 2 ^ shift * unit = 2 ^ (1 + shift + bits) := by
    rw [hunit, ← pow_succ', ← pow_add]
    congr 1
    omega
  -- The last place of a power of two is known, and a larger number has no smaller one.
  have hulp := ulp_append le_rfl (Nat.two_pow_pos (1 + shift + bits)) (n := 2 ^ 52)
  have hone : ulp (2 ^ 52) = 1 := by decide
  rw [Nat.add_zero, hone, Nat.one_mul] at hulp
  rw [hlast, ← hulp, ← hlow]
  exact Nat.pow_le_pow_right two_pos (excessBits_mono h)

namespace Number

/-- Ratios that are rounded alike are the same number. -/
theorem ofRatio_congr {negative : Bool} {num' den' : Nat}
    (h : roundQuanta num den = roundQuanta num' den') :
    ofRatio negative num den = ofRatio negative num' den' := by
  unfold ofRatio
  simp only [h]

/-- A ratio without a sign. -/
theorem ofSignedRatio_natCast (n : Nat) : ofSignedRatio n 1 false = ofRatio false n 1 := by
  unfold ofSignedRatio
  split
  · rename_i hzero
    have hn : n = 0 := by exact_mod_cast hzero
    rw [hn]
    exact (ofRatio_self false Magnitude.zero.fits).symm
  · rw [Int.natAbs_natCast, decide_eq_false (by omega)]

/-- The number of zero is zero. -/
theorem ofNat_zero : ofNat 0 = zero := by
  have hfits := Magnitude.zero.fits
  unfold ofNat
  rw [Nat.zero_mul]
  exact ofRatio_self false hfits

/-- An integer is rounded to a double, or it overflows. -/
theorem ofNat_cases (n : Nat) :
    (∃ h : Fits (roundQuanta (n * unitQuanta) 1),
      ofNat n = .finite false ⟨roundQuanta (n * unitQuanta) 1, h⟩) ∨
    (quantaLimit ≤ roundQuanta (n * unitQuanta) 1 ∧ ofNat n = .infinite false) :=
  ofRatio_cases false (n * unitQuanta) 1

/-- Multiplying by a small power of two does not round. -/
theorem mul_ofNat (w : Nat) {bits : Nat} (hbits : 2 ^ bits < significandLimit) :
    mul (ofNat w) (ofNat (2 ^ bits)) = ofNat (w * 2 ^ bits) := by
  rw [ofNat_of_fits (fits_of_lt_significandLimit hbits)]
  -- A finite number is scaled before rounding or after it; an infinite one stays infinite.
  rcases ofNat_cases w with ⟨hfits, heq⟩ | ⟨hlimit, heq⟩ <;> rw [heq]
  · unfold mul ofNat
    refine ofRatio_congr ?_
    have hunit := @roundQuanta_mul_right (roundQuanta (w * unitQuanta) 1 * 2 ^ bits) 1 _
      unitQuanta_pos
    rw [Nat.one_mul, Nat.mul_assoc] at hunit
    dsimp only
    rw [hunit]
    exact roundQuanta_scaled hfits bits
  · have hfactor : 2 ^ bits * unitQuanta ≠ 0 := (mul_unitQuanta_pos (Nat.two_pow_pos bits)).ne'
    have hmore : w * unitQuanta ≤ w * 2 ^ bits * unitQuanta :=
      Nat.mul_le_mul_right _ (Nat.le_mul_of_pos_right _ (Nat.two_pow_pos bits))
    unfold mul ofNat
    dsimp only
    rw [if_neg hfactor, ofRatio_of_limit_le (hlimit.trans (roundQuanta_mono_left one_pos hmore))]
    rfl

/-- Adding integers whose sum and terms are doubles. -/
theorem add_ofNat {w d : Nat} (hw : Fits (w * unitQuanta)) (hd : Fits (d * unitQuanta)) :
    add (ofNat w) (ofNat d) = ofNat (w + d) := by
  have hsum : (signed false (w * unitQuanta) + signed false (d * unitQuanta) : ℤ)
      = ((w + d) * unitQuanta : Nat) := by
    rw [Nat.add_mul]
    rfl
  rw [ofNat_of_fits hw, ofNat_of_fits hd]
  unfold add
  dsimp only
  rw [hsum]
  exact ofSignedRatio_natCast _

/-- A digit after a large integer is less than half a unit of the last place. -/
theorem add_ofNat_of_large {w d bits : Nat} (hw : 2 ^ 53 * 2 ^ bits ≤ w) (hd : d < 2 ^ bits)
    (hbits : 2 ^ bits < significandLimit) : add (ofNat w) (ofNat d) = ofNat w := by
  have hlarge := Nat.mul_le_mul_right unitQuanta hw
  rw [ofNat_of_fits (fits_of_lt_significandLimit (hd.trans hbits))]
  -- The number is finite, and then the digit is too small to be seen, or infinite.
  rcases ofNat_cases w with ⟨hfits, heq⟩ | ⟨-, heq⟩ <;> rw [heq]
  · -- Halfway to the next double is farther than a digit.
    have hpower : 2 ^ 53 * 2 ^ bits = 1 * Nat.pow 2 (53 + bits) := by
      rw [Nat.one_mul, Nat.pow_eq, pow_add]
    have hself : Fits (2 ^ 53 * 2 ^ bits * unitQuanta) :=
      fits_whole (53 + bits) hpower (by decide) (by
        have hrange : rangeBits - 53 = 971 := rfl
        have := (Nat.pow_lt_pow_iff_right (by decide : 1 < 2)).1 hbits
        omega)
    have hrounded := (roundQuanta_self hself).ge.trans (roundQuanta_mono_left one_pos hlarge)
    have hulp := le_ulp hrounded
    have hdigit : d * unitQuanta < 2 ^ bits * unitQuanta :=
      Nat.mul_lt_mul_of_pos_right hd unitQuanta_pos
    have hpos : 0 < roundQuanta (w * unitQuanta) 1 :=
      (mul_unitQuanta_pos (Nat.mul_pos (Nat.two_pow_pos 53) (Nat.two_pow_pos bits))).trans_le
        hrounded
    have hhalf : 2 * (d * unitQuanta) < ulp (roundQuanta (w * unitQuanta) 1) := by
      rw [Nat.mul_assoc] at hulp
      omega
    unfold add
    dsimp only
    exact (ofSignedRatio_natCast _).trans (ofRatio_eq hfits (roundQuanta_add hfits hpos hhalf))
  · rfl

/-- A digit is taken in exactly until the significand is full, and afterwards only
its place is. -/
theorem takeDigit_ofNat (w : Nat) {d bits : Nat} (hd : d < 2 ^ bits)
    (hbits : 2 ^ bits < significandLimit) :
    takeDigit (2 ^ bits) (ofNat w) d
      = ofNat (if w < 2 ^ 53 then w * 2 ^ bits + d else w * 2 ^ bits) := by
  have hdigit := fits_of_lt_significandLimit (hd.trans hbits)
  unfold takeDigit
  rw [mul_ofNat w hbits]
  -- Below 53 bits both steps are exact. Above, the digit is lost and the number is a multiple of
  -- the radix.
  split
  · rename_i hw
    have hshift : bits ≤ rangeBits - 53 := by
      have hrange : rangeBits - 53 = 971 := rfl
      have := (Nat.pow_lt_pow_iff_right (by decide : 1 < 2)).1 hbits
      omega
    exact add_ofNat (fits_whole bits rfl hw hshift) hdigit
  · rename_i hw
    exact add_ofNat_of_large (Nat.mul_le_mul_right _ (Nat.not_lt.1 hw)) hd hbits

/-! ### The run -/

/-- The last `k` digits of an integer are those that come after the significand has
been filled. -/
def IsCut (radix v k : Nat) : Prop :=
  (k = 0 ∨ 2 ^ 53 ≤ v / radix ^ k) ∧ v / radix ^ k < 2 ^ 53 * radix

/-- There is only one such place. -/
theorem IsCut.unique {radix v k k' : Nat} (h : IsCut radix v k) (h' : IsCut radix v k') :
    k = k' := by
  have hle : ∀ {a b : Nat}, IsCut radix v a → IsCut radix v b → b ≤ a := by
    intro a b ha hb
    -- With one digit more dropped the significand would not be full yet.
    by_contra hless
    have hfull := hb.1.resolve_left (by omega)
    have hpos : 0 < radix := Nat.pos_of_ne_zero fun hzero =>
      absurd ha.2 (by rw [hzero, Nat.mul_zero]; exact Nat.not_lt_zero _)
    have hdrop : v / radix ^ b ≤ v / radix ^ (a + 1) :=
      Nat.div_le_div_left (Nat.pow_le_pow_right hpos (by omega)) (Nat.pow_pos hpos)
    have hnext : v / radix ^ (a + 1) < 2 ^ 53 := by
      rw [pow_succ, ← Nat.div_div_eq_div_mul]
      exact Nat.div_lt_of_lt_mul (by rw [Nat.mul_comm]; exact ha.2)
    omega
  exact Nat.le_antisymm (hle h' h) (hle h h')

/-- Digits make the double of the integer that they denote, with zeros for those
after the cut. -/
theorem exists_foldl_takeDigit {bits : Nat} {ds : List Nat} (hbits : 2 ^ bits < significandLimit)
    (hds : ∀ d ∈ ds, d < 2 ^ bits) :
    ∃ k, IsCut (2 ^ bits) (Nat.ofDigits (2 ^ bits) ds.reverse) k ∧
      ds.foldl (takeDigit (2 ^ bits)) zero
        = ofNat (Nat.ofDigits (2 ^ bits) ds.reverse / (2 ^ bits) ^ k * (2 ^ bits) ^ k) := by
  have hradix : 0 < 2 ^ bits := Nat.two_pow_pos bits
  -- The last digit is the one that is taken in last.
  induction ds using List.reverseRecOn with
  | nil =>
      refine ⟨0, ⟨.inl rfl, ?_⟩, ?_⟩
      · simp only [List.reverse_nil, Nat.ofDigits_nil, Nat.zero_div]
        exact Nat.mul_pos (Nat.two_pow_pos 53) hradix
      · rw [List.reverse_nil, Nat.ofDigits_nil, Nat.zero_div, Nat.zero_mul, ofNat_zero,
          List.foldl_nil]
  | append_singleton ds d ih =>
      obtain ⟨k, ⟨hfull, hlt⟩, hfold⟩ := ih fun d hd => hds d (List.mem_append_left _ hd)
      have hd := hds d (List.mem_append_right _ (List.mem_singleton_self d))
      rw [List.foldl_append, hfold, List.foldl_cons, List.foldl_nil, takeDigit_ofNat _ hd hbits,
        List.reverse_append, List.reverse_singleton, List.singleton_append, Nat.ofDigits_cons]
      generalize Nat.ofDigits (2 ^ bits) ds.reverse = v at *
      generalize 2 ^ bits = radix at *
      have hdrop : (d + radix * v) / radix = v := by
        rw [Nat.add_mul_div_left _ _ hradix, Nat.div_eq_of_lt hd, Nat.zero_add]
      have hkept : v / radix ^ k ≤ v / radix ^ k * radix ^ k :=
        Nat.le_mul_of_pos_right _ (Nat.pow_pos hradix)
      split
      · -- No digit has been dropped, or the significand would be full already.
        rename_i hsmall
        obtain rfl : k = 0 := hfull.resolve_right fun hmany =>
          absurd hsmall (Nat.not_lt.2 (hmany.trans hkept))
        simp only [pow_zero, Nat.div_one, Nat.mul_one] at hsmall ⊢
        refine ⟨0, ⟨.inl rfl, ?_⟩, ?_⟩
        · rw [pow_zero, Nat.div_one]
          calc d + radix * v < radix + radix * v := Nat.add_lt_add_right hd _
            _ = (v + 1) * radix := by ring
            _ ≤ 2 ^ 53 * radix := Nat.mul_le_mul_right _ hsmall
        · rw [pow_zero, Nat.div_one, Nat.mul_one, Nat.mul_comm v, Nat.add_comm]
      · -- The cut moves with the digit, and what is kept stays the same.
        rename_i hlarge
        have hnext : (d + radix * v) / radix ^ (k + 1) = v / radix ^ k := by
          rw [pow_succ', ← Nat.div_div_eq_div_mul, hdrop]
        refine ⟨k + 1, ⟨.inr ?_, ?_⟩, ?_⟩
        · rw [hnext]
          refine hfull.elim (fun hzero => ?_) id
          subst hzero
          simpa using hlarge
        · rwa [hnext]
        · rw [hnext, pow_succ, Nat.mul_assoc]

/-! ### The nearest double -/

/-- The number of a whole number is the nearest one. -/
theorem isNearest_ofNat (n : Nat) : (ofNat n).IsNearest n := by
  have hnearest := isNearest_ofRatio false (n * unitQuanta) one_pos
  have hvalue : ((signed false (n * unitQuanta) : ℤ) : ℚ) / (1 : Nat) / unitQuanta = n := by
    rw [Nat.cast_one, div_one, signed_mul, Int.cast_mul, Int.cast_natCast,
      mul_div_cancel_right₀ _ cast_unitQuanta_pos.ne']
    rfl
  rwa [hvalue] at hnearest

/-- The double of a smaller integer is nearest to a larger one if it overflows or if
both are rounded alike. -/
theorem isNearest_ofNat_iff {w v : Nat} (hle : w ≤ v) :
    (ofNat w).IsNearest v ↔
      (ofNat w).isFinite = false ∨
        roundQuanta (w * unitQuanta) 1 = roundQuanta (v * unitQuanta) 1 := by
  constructor
  · intro h
    -- Two doubles nearest to one value are at one place.
    have hkey := h.key_eq (isNearest_ofNat v)
    rcases ofNat_cases w with ⟨hfits, heq⟩ | ⟨-, heq⟩
    · right
      rcases ofNat_cases v with ⟨_, heq'⟩ | ⟨-, heq'⟩ <;> rw [heq, heq'] at hkey <;>
        have hkey' := Int.ofNat.inj (Option.some.inj hkey)
      · exact hkey'
      · exact absurd hkey' hfits.1.ne
    · left
      rw [heq]
      rfl
  · rintro (hinfinite | hround)
    · rcases ofNat_cases w with ⟨_, heq⟩ | ⟨hlimit, heq⟩
      · rw [heq] at hinfinite
        cases hinfinite
      · have hmore := roundQuanta_mono_left one_pos (Nat.mul_le_mul_right unitQuanta hle)
        have hinfinite' : ofNat v = .infinite false := ofRatio_of_limit_le (hlimit.trans hmore)
        rw [heq, ← hinfinite']
        exact isNearest_ofNat v
    · have hsame : ofNat w = ofNat v := ofRatio_congr hround
      rw [hsame]
      exact isNearest_ofNat v

/-- The digits after the cut matter: those before it denote an integer halfway
between two doubles, of which the one below is even, and not all of the others are
zeros. -/
def LosesTail (radix v : Nat) : Prop :=
  ∃ k, IsCut radix v k ∧ 2 * (v / radix ^ k % ulp (v / radix ^ k)) = ulp (v / radix ^ k) ∧
    v / radix ^ k / ulp (v / radix ^ k) % 2 = 0 ∧ v % radix ^ k ≠ 0

/-- A number with few digits loses none of them. -/
theorem not_losesTail_of_lt {radix v : Nat} (h : v < 2 ^ 53 * radix) : ¬LosesTail radix v := by
  rintro ⟨k, hcut, -, -, htail⟩
  obtain rfl : k = 0 := hcut.unique ⟨.inl rfl, by rwa [pow_zero, Nat.div_one]⟩
  rw [pow_zero, Nat.mod_one] at htail
  exact htail rfl

/-- Integers that differ after the cut only. -/
theorem roundQuanta_cut_iff {bits v k : Nat} (hcut : IsCut (2 ^ bits) v k) :
    roundQuanta (v / (2 ^ bits) ^ k * (2 ^ bits) ^ k * unitQuanta) 1
      = roundQuanta (v * unitQuanta) 1 ↔ ¬LosesTail (2 ^ bits) v := by
  have hloses : LosesTail (2 ^ bits) v ↔
      2 * (v / (2 ^ bits) ^ k % ulp (v / (2 ^ bits) ^ k)) = ulp (v / (2 ^ bits) ^ k) ∧
        v / (2 ^ bits) ^ k / ulp (v / (2 ^ bits) ^ k) % 2 = 0 ∧ v % (2 ^ bits) ^ k ≠ 0 := by
    constructor
    · rintro ⟨k', hcut', h⟩
      rwa [hcut'.unique hcut] at h
    · exact fun h => ⟨k, hcut, h⟩
  rw [hloses]
  -- A cut behind the last digit leaves no tail.
  rcases hcut.1 with rfl | hfull
  · simp only [pow_zero, Nat.div_one, Nat.mul_one, Nat.mod_one, ne_eq, not_true_eq_false,
      and_false, not_false_eq_true]
  · have hsplit : v / (2 ^ bits) ^ k * (2 ^ bits) ^ k + v % (2 ^ bits) ^ k = v := by
      rw [Nat.mul_comm]
      exact Nat.div_add_mod _ _
    have htail : v % (2 ^ bits) ^ k < (2 ^ bits) ^ k :=
      Nat.mod_lt _ (Nat.pow_pos (Nat.two_pow_pos bits))
    generalize v / (2 ^ bits) ^ k = p at *
    generalize v % (2 ^ bits) ^ k = tail at *
    rw [← pow_mul] at *
    have hp : 2 ^ 52 ≤ p * 2 ^ (bits * k) :=
      ((by decide : 2 ^ 52 ≤ 2 ^ 53).trans hfull).trans
        (Nat.le_mul_of_pos_right _ (Nat.two_pow_pos _))
    -- The unit is a power of two and takes no part in the rounding.
    obtain ⟨quantum, -, hunit⟩ := exists_unitQuanta
    rw [← hsplit, hunit, roundQuanta_mul_two_pow hp,
      roundQuanta_mul_two_pow (hp.trans (Nat.le_add_right _ _)),
      Nat.mul_left_inj (Nat.two_pow_pos quantum).ne']
    exact roundQuanta_append_iff hfull htail

/-! ### Prefixed integers -/

/-- Digits of a radix, in either case, with their values. -/
def Spells (radix : Nat) (cs : List Char) (ds : List Nat) : Prop :=
  List.Forall₂ (fun c d => d < radix ∧ (c = d.digitChar ∨ c = d.digitChar.toUpper)) cs ds

variable {radix : Nat} {letter : Char} {cs : List Char} {ds : List Nat}

/-- The digits that are spelled are less than the radix. -/
theorem Spells.lt (h : Spells radix cs ds) : ∀ d ∈ ds, d < radix := by
  induction h with
  | nil => exact fun d hd => absurd hd List.not_mem_nil
  | cons hdigit _ ih => exact List.forall_mem_cons.2 ⟨hdigit.1, ih⟩

/-- The characters that spell them are digits of the radix. -/
theorem Spells.isDigitOf (h : Spells radix cs ds) : ∀ c ∈ cs, IsDigitOf radix c := by
  induction h with
  | nil => exact fun c hc => absurd hc List.not_mem_nil
  | cons hdigit _ ih => exact List.forall_mem_cons.2 ⟨⟨_, hdigit⟩, ih⟩

/-- Characters are folded as the digits they spell. -/
theorem foldDigits_of_spells (hradix : radix ≤ 16) (h : Spells radix cs ds) (acc : Number) :
    foldDigits radix acc cs = ds.foldl (takeDigit radix) acc := by
  induction h generalizing acc with
  | nil => rfl
  | cons hdigit _ ih =>
      rw [foldDigits_cons ((digitOf?_eq_some_iff hradix).2 hdigit), ih, List.foldl_cons]

/-- The text of a prefixed integer. -/
def prefixedText (letter : Char) (cs : List Char) : String := String.ofList ('0' :: letter :: cs)

/-- The integer that digits denote, of which the first is worth most. -/
def integerOf (radix : Nat) (ds : List Nat) : Nat := Nat.ofDigits radix ds.reverse

/-- A prefixed text is the fold of its digits. -/
theorem ofText_of_spells (hletter : (letter, radix) ∈ radixLetters) (hne : cs ≠ [])
    (h : Spells radix cs ds) :
    ofText (prefixedText letter cs) = ds.foldl (takeDigit radix) zero := by
  have hradix := radix_of_mem hletter
  rw [prefixedText, ofText_of_isNumberLiteral (.prefixed hletter hne h.isDigitOf),
    ofTrimmed_of_radix hletter hne, foldDigits_of_spells (by omega) h]

/-- Each radix is a small power of two. -/
theorem exists_bits (hletter : (letter, radix) ∈ radixLetters) :
    ∃ bits, radix = 2 ^ bits ∧ 2 ^ bits < significandLimit := by
  rcases radix_of_mem hletter with rfl | rfl | rfl
  · exact ⟨4, rfl, by decide⟩
  · exact ⟨3, rfl, by decide⟩
  · exact ⟨1, rfl, by decide⟩

/-- A prefixed integer becomes the nearest double, unless digits after the cut matter.
The integers up to one digit beyond the significand have none. -/
theorem ofText_prefixed_isNearest_iff (hletter : (letter, radix) ∈ radixLetters) (hne : cs ≠ [])
    (hspells : Spells radix cs ds) :
    ((ofText (prefixedText letter cs)).IsNearest (integerOf radix ds) ↔
      (ofText (prefixedText letter cs)).isFinite = false ∨ ¬LosesTail radix (integerOf radix ds)) ∧
    (integerOf radix ds < 2 ^ 53 * radix →
      (ofText (prefixedText letter cs)).IsNearest (integerOf radix ds)) := by
  rw [ofText_of_spells hletter hne hspells]
  obtain ⟨bits, rfl, hbits⟩ := exists_bits hletter
  obtain ⟨k, hcut, hfold⟩ := exists_foldl_takeDigit hbits hspells.lt
  rw [hfold]
  unfold integerOf
  generalize Nat.ofDigits (2 ^ bits) ds.reverse = v at *
  have hiff := isNearest_ofNat_iff (Nat.div_mul_le_self v ((2 ^ bits) ^ k))
  rw [roundQuanta_cut_iff hcut] at hiff
  exact ⟨hiff, fun hlt => hiff.2 (.inr (not_losesTail_of_lt hlt))⟩

/-- Two digits in either case are far from losing anything. -/
theorem ofText_prefixed_isNearest_iff_byte :
    ('x', 16) ∈ radixLetters ∧ ['f', 'F'] ≠ [] ∧ Spells 16 ['f', 'F'] [15, 15] ∧
    (ofText "0xfF").IsNearest (255 : Nat) := by
  have hspells : Spells 16 ['f', 'F'] [15, 15] :=
    .cons (by decide) (.cons (by decide) .nil)
  have hmem : ('x', 16) ∈ radixLetters := by decide
  exact ⟨hmem, by decide, hspells,
    (ofText_prefixed_isNearest_iff hmem (by decide) hspells).2 (by decide)⟩

/-- The first fourteen digits are halfway between two doubles, and the last digit, a
one, is dropped. -/
theorem ofText_prefixed_not_isNearest :
    ¬(ofText "0x200000000000011").IsNearest ((0x200000000000011 : Nat) : ℚ) := by
  intro h
  have hkey := h.key_eq (isNearest_ofNat 0x200000000000011)
  exact absurd hkey (by decide +kernel)

end Number

end Formula
