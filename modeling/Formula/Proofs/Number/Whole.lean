import Formula.Proofs.Number.Exact
import Formula.Proofs.Number.Written

/-!
# `Formula.Proofs.Number.Whole`: whole numbers and their digits

A whole number below `2 ^ 49` needs at most fifteen digits, and no shorter
decimal reads back as it. So its shortest decimal is the number itself, and it
is written with all its digits.

* `toDigits_natOfDigits`: digits without a leading zero are the digits of what
  they denote.
* `value_shortest_whole`: the shortest decimal of a whole number is the number.
* `numeralOf_of_exponent_nonneg`: a decimal without digits after the point is
  written out.
* `Number.text_whole`: the text of a whole number is its decimal numeral.
* `Number.isExactly_of_text_digits`: a text of digits is written only for the
  number that the digits denote.
* `Number.text_eq_toString_iff`: so the numeral is the text of that number and
  of no other.
-/

set_option autoImplicit false

namespace Formula

/-- The bound on whole numbers that are written with fewer digits than a double
holds. -/
def wholeLimit : Nat := Nat.pow 2 49

/-! ### Digits -/

/-- A digit is the character of its value. -/
theorem digitChar_of_isDigit {c : Char} (h : c.isDigit = true) :
    c.toNat - '0'.toNat < 10 ∧ (c.toNat - '0'.toNat).digitChar = c := by
  obtain ⟨hlow, hhigh⟩ := toNat_of_isDigit h
  have hzero : '0'.toNat = 48 := rfl
  have hlt : c.toNat - '0'.toNat < 10 := by omega
  refine ⟨hlt, Char.toNat_inj.1 ?_⟩
  rw [Nat.toNat_digitChar_of_lt_ten hlt]
  omega

/-- A digit more at the end. -/
theorem natOfDigits_concat (cs : List Char) (c : Char) :
    natOfDigits (cs ++ [c]) = 10 * natOfDigits cs + (c.toNat - '0'.toNat) := by
  unfold natOfDigits
  rw [List.foldl_append]
  rfl

/-- Digits that do not begin with zero denote a positive number. -/
theorem natOfDigits_pos {cs : List Char} (hdigits : ∀ c ∈ cs, c.isDigit = true)
    (hhead : Leads cs) : 0 < natOfDigits cs := by
  obtain ⟨c, tail, rfl, hc⟩ := hhead
  obtain ⟨-, hchar⟩ := digitChar_of_isDigit (hdigits c List.mem_cons_self)
  have hne : c.toNat - '0'.toNat ≠ 0 := by
    intro hzero
    rw [hzero] at hchar
    exact hc hchar.symm
  -- The first digit is not zero, and it counts.
  have hfirst : natOfDigits [c] = c.toNat - '0'.toNat := by
    show 10 * 0 + (c.toNat - '0'.toNat) = c.toNat - '0'.toNat
    omega
  have hplace : 0 < 10 ^ tail.length := Nat.pow_pos (by decide)
  have happend := natOfDigits_append [c] tail
  rw [List.singleton_append, hfirst] at happend
  rw [happend]
  exact Nat.add_pos_left (Nat.mul_pos hplace (Nat.pos_of_ne_zero hne)) _

/-- Digits that do not begin with zero are the digits of the number that they
denote. -/
theorem toDigits_natOfDigits {cs : List Char} (hdigits : ∀ c ∈ cs, c.isDigit = true)
    (hhead : Leads cs) : Nat.toDigits 10 (natOfDigits cs) = cs := by
  -- From the last digit on, since the digits of a number are taken off at the end.
  induction cs using List.reverseRecOn with
  | nil =>
      obtain ⟨c, tail, heq, -⟩ := hhead
      cases heq
  | append_singleton cs c ih =>
      obtain ⟨hlt, hchar⟩ := digitChar_of_isDigit (hdigits c (by simp))
      rw [natOfDigits_concat]
      cases cs with
      | nil =>
          show Nat.toDigits 10 (10 * 0 + (c.toNat - '0'.toNat)) = [c]
          rw [Nat.mul_zero, Nat.zero_add, Nat.toDigits_of_lt_base hlt, hchar]
      | cons first tail =>
          have hfront : ∀ d ∈ first :: tail, d.isDigit = true :=
            fun d hd => hdigits d (List.mem_append_left [c] hd)
          have hhead' : Leads (first :: tail) := by
            obtain ⟨d, rest, heq, hd⟩ := hhead
            cases heq
            exact ⟨first, tail, rfl, hd⟩
          have hpos := natOfDigits_pos hfront hhead'
          rw [← Nat.toDigits_append_toDigits (by decide) hpos hlt, ih hfront hhead',
            Nat.toDigits_of_lt_base hlt, hchar]

/-! ### The shortest decimal of a whole number -/

section

variable {n : Nat}

/-- Whole numbers below the limit fit a double. -/
theorem fits_of_lt_wholeLimit (hn : n < wholeLimit) : Fits (n * unitQuanta) :=
  fits_of_lt_significandLimit (hn.trans (by decide))

/-- The first digit of a whole number stands where its digits say. -/
theorem leadingExponent_whole (hpos : 0 < n) :
    leadingExponent (n * unitQuanta) = decimalLength n - 1 := by
  have hunit := unitQuanta_pos
  unfold leadingExponent
  generalize unitQuanta = unit at hunit ⊢
  rw [if_pos (Nat.le_mul_of_pos_left unit hpos), Nat.mul_div_cancel n hunit]

/-- On the grid of the whole numbers it is its own neighbour. -/
theorem gridBelow_whole (n : Nat) : (gridBelow (n * unitQuanta) 0).1 = n := by
  have hunit := unitQuanta_pos
  unfold gridBelow
  generalize unitQuanta = unit at hunit ⊢
  show n * unit * 1 / (unit * 1) = n
  rw [Nat.mul_one, Nat.mul_one, Nat.mul_div_cancel n hunit]

/-- They have at most 15 digits. -/
theorem decimalLength_whole (hn : n < wholeLimit) : decimalLength n ≤ 15 :=
  decimalLength_le (by decide) (hn.trans (by decide))

/-- A whole number is a decimal without digits after the point, and no other is
shorter than the shortest. -/
theorem exponent_shortest_nonneg (tie : Tie) (hpos : 0 < n) (hn : n < wholeLimit) :
    0 ≤ (shortest tie (n * unitQuanta)).exponent := by
  have hlength := decimalLength_whole hn
  have hone := decimalLength_pos n
  obtain ⟨hlow, hhigh⟩ : leadingExponent (n * unitQuanta) - 16 ≤ 0 ∧
      0 ≤ leadingExponent (n * unitQuanta) := by
    rw [leadingExponent_whole hpos]
    omega
  have hfits := fits_of_lt_wholeLimit hn
  have hquanta := mul_unitQuanta_pos hpos
  have hborders : (⟨n, 0⟩ : Significant).Borders (n * unitQuanta) := .inl (gridBelow_whole n).symm
  have hreads : (⟨n, 0⟩ : Significant).readsBack (n * unitQuanta) = true := by
    have hself := roundsTo_self hfits hquanta
    rw [Significant.readsBack_iff, Significant.value, zpow_zero, mul_one, ← Nat.cast_mul]
    exact hself
  -- The number itself reads back, with no digits behind the point, and the search goes no
  -- further than it has to.
  have hle := le_exponent_shortest tie hborders hreads hlow hhigh
  exact hle

/-- The unit of the last bit of a whole number below the bound is at most a
sixteenth. -/
theorem ulp_whole_le (hn : n < wholeLimit) : 16 * ulp (n * unitQuanta) ≤ unitQuanta := by
  obtain ⟨bits, hbits⟩ : ∃ bits, quantumBits = 4 + bits := ⟨1070, by decide⟩
  have hunit : unitQuanta = 16 * Nat.pow 2 bits := by
    unfold unitQuanta
    rw [hbits]
    exact Nat.pow_add 2 4 bits
  -- Below the limit the last place is a sixteenth of one at most.
  have hlimit : wholeLimit * unitQuanta = 2 ^ (53 + bits) := by
    unfold wholeLimit unitQuanta
    rw [hbits, Nat.pow_eq, Nat.pow_eq, ← Nat.pow_add, ← Nat.add_assoc]
  have hlt : n * unitQuanta < 2 ^ (53 + bits) := by
    rw [← hlimit]
    exact Nat.mul_lt_mul_of_pos_right hn unitQuanta_pos
  have hulp : ulp (n * unitQuanta) ≤ Nat.pow 2 bits := pow_le_pow_of_le two_pos (excessBits_le hlt)
  exact (Nat.mul_le_mul_left 16 hulp).trans_eq hunit.symm

/-- An integer that rounds to a whole number is the number: the interval around
it does not reach the next one. -/
theorem eq_of_roundsTo_whole {k : Nat} (hn : n < wholeLimit) (hpos : 0 < n)
    (h : RoundsTo (n * unitQuanta) (k * unitQuanta)) : k = n := by
  have hfits := fits_of_lt_wholeLimit hn
  have hulp : (16 * ulp (n * unitQuanta) : ℚ) ≤ unitQuanta := by exact_mod_cast ulp_whole_le hn
  have hunit := cast_unitQuanta_pos
  have hlow := (le_cast_lowerEnd hfits (mul_unitQuanta_pos hpos)).trans h.below
  have hhigh := h.above
  rw [cast_upperEnd] at hhigh
  push_cast at hlow hhigh
  -- The interval is narrower than one to either side.
  have hless : (k : ℚ) * unitQuanta < (n + 1) * unitQuanta := by linarith
  have hmore : (n : ℚ) * unitQuanta < (k + 1) * unitQuanta := by linarith
  have hk : k < n + 1 := by exact_mod_cast lt_of_mul_lt_mul_right hless hunit.le
  have hk' : n < k + 1 := by exact_mod_cast lt_of_mul_lt_mul_right hmore hunit.le
  omega

/-- The shortest decimal of a whole number is the number. -/
theorem value_shortest_whole (tie : Tie) (hpos : 0 < n) (hn : n < wholeLimit) :
    (shortest tie (n * unitQuanta)).value = n := by
  obtain ⟨hreads, -⟩ := shortest_spec tie (fits_of_lt_wholeLimit hn) (mul_unitQuanta_pos hpos)
  obtain ⟨e, he⟩ := Int.eq_ofNat_of_zero_le (exponent_shortest_nonneg tie hpos hn)
  have hvalue : (shortest tie (n * unitQuanta)).value
      = ((shortest tie (n * unitQuanta)).digits * 10 ^ e : Nat) := by
    rw [Significant.value, he, zpow_natCast]
    push_cast
    rfl
  rw [Significant.readsBack_iff, hvalue] at hreads
  rw [hvalue, eq_of_roundsTo_whole hn hpos hreads]

/-- Its first digit is not far from the point. -/
theorem leading_shortest_whole_lt (tie : Tie) (hpos : 0 < n) (hn : n < wholeLimit) :
    (shortest tie (n * unitQuanta)).leading < 16 := by
  have hquanta := mul_unitQuanta_pos hpos
  obtain ⟨-, hborders, -, hle⟩ := shortest_spec tie (fits_of_lt_wholeLimit hn) hquanta
  obtain ⟨k, hk⟩ := Int.le.dest hle
  have hbound := (hborders.digits_bounds hquanta hk.symm).2
  have hpow : 10 ^ (k + 1) < 10 ^ (k + 2) := Nat.pow_lt_pow_right (by decide) (by omega)
  have hlength := decimalLength_le (by omega) (hbound.trans_lt hpow)
  have hleading := leadingExponent_whole hpos
  have hshort := decimalLength_whole hn
  unfold Significant.leading
  omega

end

/-! ### How a whole number is written -/

/-- Digits that end before the point are written out. -/
theorem numeralOf_of_exponent_nonneg {layout : Layout} {d : Significant} (he : 0 ≤ d.exponent)
    (hfirst : layout.positionalFrom ≤ 0) (hlast : d.leading < layout.positionalTo) :
    (layout.numeralOf d).fraction = layout.ending ∧ (layout.numeralOf d).power = none := by
  obtain ⟨zeros, hzeros, -⟩ := d.exists_characters
  have hlength : d.characters.length + zeros = decimalLength d.digits := by
    unfold decimalLength
    rw [hzeros, List.length_append, List.length_replicate]
  have hone := decimalLength_pos d.digits
  have hleading : 0 ≤ d.leading := by
    unfold Significant.leading
    omega
  obtain ⟨k, hk⟩ := Int.eq_ofNat_of_zero_le hleading
  -- All digits stand before the point, so it is only written if the layout ends in it.
  have hfilled : d.characters.length ≤ k + 1 := by
    unfold Significant.leading at hk
    omega
  rw [Layout.numeralOf, if_pos ⟨by omega, hlast⟩, hk]
  show (Numeral.positional layout.ending d.characters (.ofNat k)).fraction = _ ∧
    (Numeral.positional layout.ending d.characters (.ofNat k)).power = _
  rw [Numeral.positional, if_pos hfilled]
  exact ⟨rfl, rfl⟩

/-- The layout of formulas ends a whole number in nothing. -/
theorem Layout.formulaLayout_endsInZeros : formulaLayout.EndsInZeros := ⟨by decide, 0, by decide⟩

namespace Number

/-- The text of a finite number that is not zero: a sign, and the parts of a
numeral that denotes the shortest decimal. -/
theorem toList_text (negative : Bool) {m : Magnitude} (hpos : 0 < m.quanta) :
    (finite negative m).text.toList
      = (if negative then ['-'] else []) ++ (formulaLayout.numeral m.quanta).chars := by
  obtain ⟨hchars, -⟩ := Layout.numeral_spec Layout.formulaLayout_endsInZeros m.fits hpos
  show (if m.quanta = 0 then _ else _ : String).toList = _
  rw [if_neg hpos.ne', String.toList_ofList, hchars]

/-- A zero of either sign is written as the digit. -/
theorem text_zero {negative : Bool} {m : Magnitude} (hzero : m.quanta = 0) :
    (finite negative m).text = "0" := by
  show (if m.quanta = 0 then _ else _ : String) = "0"
  rw [if_pos hzero]
  cases negative <;> decide

end Number

namespace Numeral

/-- A numeral without a fraction and a power denotes what its digits do, and is
written with them. -/
theorem eq_of_plain {n : Numeral} (hfraction : n.fraction = []) (hpower : n.power = none) :
    n.chars = n.whole ∧ n.value = natOfDigits n.whole := by
  obtain ⟨whole, fraction, power⟩ := n
  obtain rfl : fraction = [] := hfraction
  obtain rfl : power = none := hpower
  simp [chars, pointed, raised, value, significand, exponent]

/-- A numeral of digits only has neither a point nor a power. -/
theorem plain_of_digits {n : Numeral} (h : ∀ c ∈ n.chars, c.isDigit = true) :
    n.fraction = [] ∧ n.power = none := by
  obtain ⟨whole, fraction, power⟩ := n
  -- A point or a letter would be among the characters.
  constructor
  · cases fraction with
    | nil => rfl
    | cons c tail =>
        have hpoint := h '.' (by simp [chars, pointed])
        exact absurd hpoint (by decide)
  · cases power with
    | none => rfl
    | some e =>
        have hletter := h 'e' (by simp [chars, raised])
        exact absurd hletter (by decide)

end Numeral

namespace Number

/-- A whole number is written with its digits. -/
theorem text_whole {n : Nat} (hn : n < wholeLimit) {m : Magnitude}
    (hm : m.quanta = n * unitQuanta) : (finite false m).text = toString n := by
  rcases Nat.eq_zero_or_pos n with rfl | hpos
  · rw [text_zero (hm.trans (Nat.zero_mul _))]
    rfl
  · have hquanta := mul_unitQuanta_pos hpos
    -- A whole number below the limit has no digits behind the point and no power.
    obtain ⟨hfraction, hpower⟩ : (formulaLayout.numeral (n * unitQuanta)).fraction = [] ∧
        (formulaLayout.numeral (n * unitQuanta)).power = none :=
      numeralOf_of_exponent_nonneg (exponent_shortest_nonneg _ hpos hn) (by decide)
        ((leading_shortest_whole_lt _ hpos hn).trans (by decide))
    obtain ⟨-, hwf, hvalue⟩ := Layout.numeral_spec Layout.formulaLayout_endsInZeros
      (fits_of_lt_wholeLimit hn) hquanta
    obtain ⟨hchars, hdenoted⟩ := Numeral.eq_of_plain hfraction hpower
    rw [value_shortest_whole _ hpos hn, hdenoted] at hvalue
    have hdigits : natOfDigits (formulaLayout.numeral (n * unitQuanta)).whole = n := by
      exact_mod_cast hvalue
    have hhead : Leads (formulaLayout.numeral (n * unitQuanta)).whole := by
      refine hwf.head.resolve_right fun hzero => ?_
      rw [hzero] at hdigits
      exact hpos.ne hdigits
    have hall := toDigits_natOfDigits hwf.whole hhead
    rw [hdigits] at hall
    apply String.toList_injective
    rw [toList_text _ (hm ▸ hquanta), hm, hchars, ← hall, Nat.toString_eq_ofList_toDigits,
      String.toList_ofList]
    rfl

/-- A number whose text is digits is what they denote. -/
theorem isExactly_of_text_digits {x : Number} (hne : x.text.toList ≠ [])
    (hdigits : ∀ c ∈ x.text.toList, c.isDigit = true)
    (hlt : natOfDigits x.text.toList < wholeLimit) :
    x.IsExactly (natOfDigits x.text.toList) := by
  cases x with
  | nan => exact absurd (hdigits 'N' (by decide)) (by decide)
  | infinite negative =>
      have hletter : 'I' ∈ (infinite negative).text.toList := by cases negative <;> decide
      exact absurd (hdigits 'I' hletter) (by decide)
  | finite negative m =>
      rcases Nat.eq_zero_or_pos m.quanta with hzero | hpos
      · rw [text_zero hzero, isExactly_finite_iff, hzero]
        cases negative <;> exact (Int.zero_mul _).symm
      · have htext := toList_text negative hpos
        cases negative with
        | true => exact absurd (hdigits '-' (by simp [htext])) (by decide)
        | false =>
            rw [if_neg Bool.false_ne_true, List.nil_append] at htext
            rw [htext] at hdigits hlt ⊢
            obtain ⟨hfraction, hpower⟩ := Numeral.plain_of_digits hdigits
            obtain ⟨hchars, hdenoted⟩ := Numeral.eq_of_plain hfraction hpower
            rw [hchars] at hlt ⊢
            obtain ⟨-, -, hvalue⟩ :=
              Layout.numeral_spec Layout.formulaLayout_endsInZeros m.fits hpos
            obtain ⟨hreads, -⟩ := shortest_spec formulaLayout.tie m.fits hpos
            rw [Significant.readsBack_iff, ← hvalue, hdenoted, ← Nat.cast_mul] at hreads
            -- The digits denote a double, and it rounds to no other.
            have hquanta := eq_of_roundsTo m.fits hpos (fits_of_lt_wholeLimit hlt) hreads
            generalize natOfDigits (formulaLayout.numeral m.quanta).whole = n at hquanta ⊢
            rw [isExactly_finite_iff, hquanta]
            exact Int.natCast_mul _ _

/-- The decimal numeral of a whole number is the text of that number, and of no
other; zero has two signs. -/
theorem text_eq_toString_iff {x : Number} {n : Nat} (hn : n < wholeLimit) :
    x.text = toString n ↔ x.IsExactly n := by
  constructor
  · intro htext
    have hlist : x.text.toList = Nat.toDigits 10 n := by
      rw [htext, Nat.toString_eq_ofList_toDigits, String.toList_ofList]
    have hvalue : natOfDigits x.text.toList = n := by
      rw [hlist, natOfDigits_toDigits]
    have hexact := isExactly_of_text_digits (x := x) (by rw [hlist]; exact Nat.toDigits_ne_nil)
      (by rw [hlist]; exact fun c hc => Nat.isDigit_of_mem_toDigits (by decide) (by decide) hc)
      (by rw [hvalue]; exact hn)
    rwa [hvalue] at hexact
  · intro hexact
    cases x with
    | nan => exact absurd hexact.1 (by decide)
    | infinite negative => exact absurd hexact.1 Bool.false_ne_true
    | finite negative m =>
        have hquanta := isExactly_finite_iff.1 hexact
        cases negative with
        | false =>
            refine text_whole hn ?_
            have hcast : (m.quanta : ℤ) = (n * unitQuanta : Nat) := by
              rw [Int.natCast_mul]
              exact hquanta
            exact_mod_cast hcast
        | true =>
            -- Only a zero is a whole number with a minus.
            rw [signed, if_pos rfl] at hquanta
            have hunit := unitQuanta_pos
            generalize unitQuanta = unit at hquanta hunit
            have hproduct : (0 : ℤ) ≤ n * unit := Int.mul_nonneg n.cast_nonneg unit.cast_nonneg
            have hzero : m.quanta = 0 := by omega
            have hn0 : n = 0 := by
              rw [hzero, Int.natCast_zero, Int.neg_zero, eq_comm, mul_eq_zero] at hquanta
              exact_mod_cast hquanta.resolve_right (by exact_mod_cast hunit.ne')
            rw [text_zero hzero, hn0]
            rfl

end Number

end Formula
