import Formula.Number.Reading
import Formula.Proofs.Number.Nearest

/-!
# `Formula.Proofs.Number.Decimal`: decimals as doubles

A decimal becomes a double by one rounding of its exact value. Very large and
very small powers of ten are not formed on the way, because the outcome is known
without them.

* `Decimal.toNumber_eq_ofRatio`: the double is always the one of the exact ratio.
* `Decimal.isNearest_toNumber`: so it is the nearest one to the decimal.
* `Decimal.ofChars?_of_parts`: the decimal that a numeral denotes, from its parts.
* `Number.ofNumeral_of_decimal`: the general reader takes a numeral as its decimal.
-/

set_option autoImplicit false

namespace Formula

/-! ### Rounding -/

/-- Less than half a quantum is rounded to zero. -/
theorem roundQuanta_eq_zero {num den : Nat} (h : 2 * num < den) : roundQuanta num den = 0 := by
  have hden : 0 < den := by omega
  have hfloor : num / den = 0 := Nat.div_eq_of_lt (by omega)
  have hround : roundHalfEven num (den * 2 ^ 0) = 0 := by
    rw [pow_zero, mul_one]
    unfold roundHalfEven
    rw [hfloor, Nat.mod_eq_of_lt (by omega)]
    exact if_pos h
  unfold roundQuanta
  rw [hfloor]
  exact Nat.mul_eq_zero.2 (.inl hround)

/-- So a small ratio is a zero with its sign. -/
theorem Number.ofRatio_eq_zeroOf {negative : Bool} {num den : Nat} (h : 2 * num < den) :
    Number.ofRatio negative num den = .zeroOf negative :=
  Number.ofRatio_eq Magnitude.zero.fits (roundQuanta_eq_zero h)

/-- A ratio is always a number. -/
theorem Number.isNaN_ofRatio (negative : Bool) (num den : Nat) :
    (Number.ofRatio negative num den).isNaN = false := by
  rcases Number.ofRatio_cases negative num den with ⟨_, heq⟩ | ⟨_, heq⟩ <;> rw [heq] <;> rfl

/-- It has the sign it was given, be it zero or infinite. -/
theorem Number.isNegative_ofRatio (negative : Bool) (num den : Nat) :
    (Number.ofRatio negative num den).isNegative = negative := by
  rcases Number.ofRatio_cases negative num den with ⟨_, heq⟩ | ⟨_, heq⟩ <;> rw [heq] <;> rfl

namespace Decimal

/-- The exact value of a decimal. -/
def value (d : Decimal) : ℚ := Number.signed d.negative d.digits * 10 ^ d.exponent

/-- A power of ten above 400 takes every other integer beyond the doubles. -/
theorem overflow_of_lt {digits e : Nat} (hdigits : digits ≠ 0) (he : 400 < e) :
    quantaLimit ≤ roundQuanta (digits * Nat.pow 10 e * unitQuanta) 1 := by
  obtain ⟨least, hleast, hstart⟩ :
      ∃ least, least ≤ e ∧ overflowQuanta ≤ Nat.pow 10 least * unitQuanta :=
    ⟨401, he, by decide +kernel⟩
  have hpow : Nat.pow 10 least ≤ Nat.pow 10 e := pow_le_pow_of_le (by decide) hleast
  have hdigit : Nat.pow 10 e ≤ digits * Nat.pow 10 e :=
    Nat.le_mul_of_pos_left _ (Nat.pos_of_ne_zero hdigits)
  have hreach : overflowQuanta ≤ digits * Nat.pow 10 e * unitQuanta :=
    hstart.trans (Nat.mul_le_mul_right unitQuanta (hpow.trans hdigit))
  refine (quantaLimit_le_roundQuanta_iff one_pos).2 ?_
  rw [Nat.cast_one, div_one]
  exact Nat.cast_le.2 hreach

/-- A decimal that the bits of its digits show to be below half a quantum. -/
theorem underflow_of_lt {digits k : Nat} (hk : digits.log2 + 1077 < 3 * (k + 1)) :
    2 * (digits * unitQuanta) < Nat.pow 10 (k + 1) := by
  have hdigits : digits < 2 ^ (digits.log2 + 1) := Nat.lt_log2_self
  have hunit : unitQuanta = 2 ^ quantumBits := by
    unfold unitQuanta
    rw [Nat.pow_eq]
  have hbits : digits.log2 + 2 + quantumBits ≤ 3 * (k + 1) := by
    have hquantum : quantumBits = 1074 := rfl
    omega
  -- In powers of two, with eight for ten.
  calc 2 * (digits * unitQuanta) < 2 * (2 ^ (digits.log2 + 1) * unitQuanta) :=
        Nat.mul_lt_mul_of_pos_left (Nat.mul_lt_mul_of_pos_right hdigits unitQuanta_pos) two_pos
    _ = 2 ^ (digits.log2 + 2 + quantumBits) := by
        rw [pow_add 2 (digits.log2 + 1 + 1), pow_succ 2 (digits.log2 + 1), ← hunit]
        ring
    _ ≤ 2 ^ (3 * (k + 1)) := Nat.pow_le_pow_right two_pos hbits
    _ = 8 ^ (k + 1) := by rw [pow_mul]; rfl
    _ ≤ Nat.pow 10 (k + 1) := Nat.pow_le_pow_left (by decide) _

/-- The double of a decimal is that of its exact ratio, also where the power of ten
is not formed. -/
theorem toNumber_eq_ofRatio (d : Decimal) :
    d.toNumber = .ofRatio d.negative (d.digits * (tenPower d.exponent).1 * unitQuanta)
      (tenPower d.exponent).2 := by
  obtain ⟨negative, digits, exponent⟩ := d
  unfold toNumber
  by_cases hzero : digits = 0
  · rw [if_pos hzero, hzero, zero_mul, zero_mul]
    exact (Number.ofRatio_eq_zeroOf (tenPower_pos exponent).2).symm
  · rw [if_neg hzero]
    -- Out of range the reader answers without forming the power, with what the ratio would
    -- round to.
    cases exponent with
    | ofNat e =>
        have hten : tenPower (Int.ofNat e) = (Nat.pow 10 e, 1) := by
          simp [tenPower]
        dsimp only
        rw [hten]
        split
        · rename_i he
          exact (Number.ofRatio_of_limit_le (overflow_of_lt hzero he)).symm
        · rfl
    | negSucc k =>
        have hten : tenPower (Int.negSucc k) = (1, Nat.pow 10 (k + 1)) := by
          simp [tenPower]
        dsimp only
        rw [hten, mul_one]
        split
        · rename_i hk
          exact (Number.ofRatio_eq_zeroOf (underflow_of_lt hk)).symm
        · rfl

/-- A decimal is a number. -/
theorem isNaN_toNumber (d : Decimal) : d.toNumber.isNaN = false := by
  rw [toNumber_eq_ofRatio]
  exact Number.isNaN_ofRatio _ _ _

/-- The number has the sign of the decimal. -/
theorem isNegative_toNumber (d : Decimal) : d.toNumber.isNegative = d.negative := by
  rw [toNumber_eq_ofRatio]
  exact Number.isNegative_ofRatio _ _ _

/-- A value times a power of ten, as the ratio that is rounded. -/
theorem mul_tenPower_div (x : ℚ) (e : Int) :
    x * (tenPower e).1 * unitQuanta / (tenPower e).2 = x * 10 ^ e * unitQuanta := by
  have hdown : ((tenPower e).2 : ℚ) ≠ 0 := by exact_mod_cast (tenPower_pos e).2.ne'
  rw [div_eq_iff hdown, tenPower_spec]
  ring

/-- A decimal becomes the double nearest to it. -/
theorem isNearest_toNumber (d : Decimal) : d.toNumber.IsNearest d.value := by
  have hnearest := Number.isNearest_ofRatio d.negative
    (d.digits * (tenPower d.exponent).1 * unitQuanta) (tenPower_pos d.exponent).2
  have hvalue : (Number.signed d.negative (d.digits * (tenPower d.exponent).1 * unitQuanta) : ℚ)
      / (tenPower d.exponent).2 / unitQuanta = d.value := by
    rw [Number.signed_mul, Number.signed_mul, value]
    push_cast
    rw [mul_tenPower_div, mul_div_cancel_right₀ _ cast_unitQuanta_pos.ne']
  rw [toNumber_eq_ofRatio, ← hvalue]
  exact hnearest

end Decimal

/-! ### Numerals -/

/-- At most one sign. -/
def IsSign (cs : List Char) : Prop := cs = [] ∨ cs = ['+'] ∨ cs = ['-']

/-- Digits that are followed by something else. -/
theorem takeWhile_append_of_digits {ds rest : List Char} (hds : ∀ d ∈ ds, d.isDigit = true)
    (hrest : ∀ c ∈ rest.head?, c.isDigit = false) :
    (ds ++ rest).takeWhile Char.isDigit = ds ∧ (ds ++ rest).dropWhile Char.isDigit = rest := by
  have hstop : rest.takeWhile Char.isDigit = [] ∧ rest.dropWhile Char.isDigit = rest := by
    cases rest with
    | nil => exact ⟨rfl, rfl⟩
    | cons c rest => simp [hrest c rfl]
  rw [List.takeWhile_append_of_pos hds, List.dropWhile_append_of_pos hds, hstop.1, hstop.2,
    List.append_nil]
  exact ⟨rfl, rfl⟩

namespace Decimal

variable {sign whole fraction point e : List Char}

/-- A sign is taken from before what does not begin with one. -/
theorem takeSign_append {rest : List Char} (hsign : IsSign sign)
    (hrest : ∀ c ∈ rest.head?, c ≠ '+' ∧ c ≠ '-') :
    takeSign (sign ++ rest) = (decide (sign = ['-']), rest) := by
  rcases hsign with rfl | rfl | rfl
  · rw [List.nil_append]
    unfold takeSign
    split
    · exact absurd rfl (hrest '-' rfl).2
    · exact absurd rfl (hrest '+' rfl).1
    · rfl
  · rfl
  · rfl

/-- Digits do not begin with a sign. -/
theorem ne_sign_of_isDigit {c : Char} (h : c.isDigit = true) : c ≠ '+' ∧ c ≠ '-' := by
  constructor <;> rintro rfl <;> exact absurd h (by decide)

/-- The power of ten that a letter, a sign and digits denote. -/
theorem exponentOfChars?_of_parts {letter : Char} {ds : List Char}
    (hletter : letter = 'e' ∨ letter = 'E') (hsign : IsSign sign) (hne : ds ≠ [])
    (hds : ∀ d ∈ ds, d.isDigit = true) :
    exponentOfChars? (letter :: (sign ++ ds))
      = some (if sign = ['-'] then -(natOfDigits ds : Int) else natOfDigits ds) := by
  have hhead : ∀ c ∈ ds.head?, c ≠ '+' ∧ c ≠ '-' := fun c hc =>
    ne_sign_of_isDigit (hds c (List.mem_of_mem_head? hc))
  have hall : ds ≠ [] ∧ ds.all Char.isDigit = true := ⟨hne, List.all_eq_true.2 hds⟩
  rw [exponentOfChars?, if_pos hletter, takeSign_append hsign hhead]
  dsimp only
  rw [if_pos hall]
  simp only [decide_eq_true_eq]

/-- What denotes a power of ten is empty or begins with a letter. -/
theorem head_of_exponentOfChars? {n : Int} (h : exponentOfChars? e = some n) :
    ∀ c ∈ e.head?, c = 'e' ∨ c = 'E' := by
  intro c hc
  cases e with
  | nil => cases hc
  | cons c' e =>
      obtain rfl : c' = c := Option.some.inj hc
      by_contra hletter
      rw [exponentOfChars?, if_neg hletter] at h
      cases h

/-- The decimal that a numeral denotes: digits on at least one side of a point, or
without one, between an optional sign and a power of ten. -/
theorem ofChars?_of_parts {n : Int} (hsign : IsSign sign) (hwhole : ∀ d ∈ whole, d.isDigit = true)
    (hfraction : ∀ d ∈ fraction, d.isDigit = true) (hne : whole ≠ [] ∨ fraction ≠ [])
    (hpoint : point = [] ∧ fraction = [] ∨ point = '.' :: fraction)
    (hpower : exponentOfChars? e = some n) :
    ofChars? (sign ++ (whole ++ (point ++ e)))
      = some ⟨decide (sign = ['-']), natOfDigits (whole ++ fraction), n - fraction.length⟩ := by
  have hstop : ∀ c ∈ e.head?, c.isDigit = false ∧ c ≠ '.' := by
    intro c hc
    rcases head_of_exponentOfChars? hpower c hc with rfl | rfl <;> decide
  -- What comes after the digits before the point.
  have hafter : ∀ c ∈ (point ++ e).head?, c.isDigit = false := by
    rcases hpoint with ⟨rfl, -⟩ | rfl
    · exact fun c hc => (hstop c hc).1
    · intro c hc
      cases hc
      rfl
  have htakeFraction : takeFraction (point ++ e) = (fraction, e) := by
    rcases hpoint with ⟨rfl, rfl⟩ | rfl
    · cases e with
      | nil => rfl
      | cons c e =>
          unfold takeFraction
          split
          · rename_i heq
            cases heq
            exact absurd rfl (hstop _ rfl).2
          · rfl
    · obtain ⟨htake, hdrop⟩ := takeWhile_append_of_digits hfraction fun c hc => (hstop c hc).1
      exact Prod.ext htake hdrop
  obtain ⟨htake, hdrop⟩ := takeWhile_append_of_digits hwhole hafter
  -- The unsigned numeral begins with a digit or a point.
  have hhead : ∀ c ∈ (whole ++ (point ++ e)).head?, c ≠ '+' ∧ c ≠ '-' := by
    intro c hc
    cases whole with
    | cons d whole =>
        obtain rfl : d = c := Option.some.inj hc
        exact ne_sign_of_isDigit (hwhole d List.mem_cons_self)
    | nil =>
        obtain rfl : point = '.' :: fraction := hpoint.resolve_left fun hnone =>
          hne.elim (absurd rfl) fun hfraction => hfraction hnone.2
        cases hc
        decide
  have hsome : ¬(whole = [] ∧ fraction = []) := fun hnone => hne.elim (· hnone.1) (· hnone.2)
  rw [ofChars?, takeSign_append hsign hhead]
  dsimp only
  rw [ofUnsigned?, htake, hdrop, htakeFraction]
  dsimp only
  rw [if_neg hsome, hpower]
  rfl

end Decimal

namespace Number

variable {cs : List Char} {d : Decimal}

/-- The general reader takes a numeral as its decimal. -/
theorem ofChars?_of_decimal (h : Decimal.ofChars? cs = some d) : ofChars? cs = some d.toNumber := by
  rw [ofChars?, h]

/-- A decimal numeral is read as its number. -/
theorem ofNumeral_of_decimal (h : Decimal.ofChars? cs = some d) : ofNumeral cs = d.toNumber := by
  rw [ofNumeral, ofChars?_of_decimal h, Option.getD_some]

end Number

end Formula
