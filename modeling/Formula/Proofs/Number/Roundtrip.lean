import Formula.Proofs.Number.Literal
import Formula.Proofs.Number.Whole
import Formula.Proofs.Value.Equality
import Formula.Value.Member
import Formula.Value.Order

/-!
# `Formula.Proofs.Number.Roundtrip`: a number is known by its text

The text of a number is the numeral of its shortest decimal, and that decimal lies
in the interval that rounds to the number. So reading the text gives the number
back; only the sign of a zero is lost, because a zero is written without one.

* `Numeral.ofChars?_chars`: a written numeral is read as its parts.
* `Number.ofText_text`: the text of a number is read as the number.
* `Number.text_eq_text_iff`: numbers with one text stand at one place.
-/

set_option autoImplicit false

namespace Formula

/-! ### Numerals -/

namespace Numeral

/-- A written exponent is read back, and a missing one is zero. -/
theorem exponentOfChars?_raised (power : Option Int) :
    Decimal.exponentOfChars? (raised power) = some (power.getD 0) := by
  cases power with
  | none => rfl
  | some e =>
      have hdigits : ∀ c ∈ Nat.toDigits 10 e.natAbs, c.isDigit = true := fun c hc =>
        Nat.isDigit_of_mem_toDigits (by decide) (by decide) hc
      have hsign : IsSign [if e < 0 then '-' else '+'] := by
        split
        · exact .inr (.inr rfl)
        · exact .inr (.inl rfl)
      have hread := Decimal.exponentOfChars?_of_parts (.inl rfl) hsign Nat.toDigits_ne_nil hdigits
      rw [natOfDigits_toDigits] at hread
      refine hread.trans (congrArg some ?_)
      -- The sign is written for either, and the digits are those of the size.
      by_cases hneg : e < 0
      · rw [if_pos (by rw [if_pos hneg])]
        show -(e.natAbs : Int) = e
        omega
      · rw [if_neg (by rw [if_neg hneg]; decide)]
        show (e.natAbs : Int) = e
        omega

/-- A written numeral is read as its parts. -/
theorem ofChars?_chars {n : Numeral} (hn : n.WellFormed) {sign : List Char} (hsign : IsSign sign) :
    Decimal.ofChars? (sign ++ n.chars)
      = some ⟨decide (sign = ['-']), n.significand, n.exponent⟩ := by
  have hwhole : n.whole ≠ [] := by
    rcases hn.head with ⟨c, tail, heq, -⟩ | heq <;> rw [heq] <;> exact List.cons_ne_nil _ _
  have hpoint : pointed n.fraction = [] ∧ n.fraction = [] ∨
      pointed n.fraction = '.' :: n.fraction := by
    cases n.fraction with
    | nil => exact .inl ⟨rfl, rfl⟩
    | cons c tail => exact .inr rfl
  exact Decimal.ofChars?_of_parts hsign hn.whole hn.fraction (.inl hwhole) hpoint
    (exponentOfChars?_raised n.power)

end Numeral

/-- A decimal in the interval around a magnitude becomes that magnitude. -/
theorem Decimal.toNumber_of_roundsTo {d : Decimal} {m : Magnitude} (hpos : 0 < m.quanta)
    (h : RoundsTo m.quanta (d.digits * 10 ^ d.exponent * unitQuanta)) :
    d.toNumber = .finite d.negative m := by
  rw [toNumber_eq_ofRatio]
  refine Number.ofRatio_eq m.fits (roundQuanta_eq m.fits hpos (tenPower_pos d.exponent).2 ?_)
  push_cast
  rwa [mul_tenPower_div]

namespace Number

variable {x y : Number}

/-! ### Reading a text back -/

/-- A number that is not zero is read back from its text. -/
theorem ofText_text_of_pos (negative : Bool) {m : Magnitude} (hpos : 0 < m.quanta) :
    ofText (finite negative m).text = .finite negative m := by
  obtain ⟨-, hwf, hvalue⟩ := Layout.numeral_spec Layout.formulaLayout_endsInZeros m.fits hpos
  obtain ⟨hreads, -⟩ := shortest_spec formulaLayout.tie m.fits hpos
  -- The written value lies in the interval around the magnitude.
  rw [Significant.readsBack_iff, ← hvalue] at hreads
  have hsign : IsSign (if negative then ['-'] else []) := by
    cases negative
    · exact .inl rfl
    · exact .inr (.inr rfl)
  have hminus : decide ((if negative then ['-'] else []) = ['-']) = negative := by
    cases negative <;> rfl
  rw [← String.ofList_toList (s := (finite negative m).text), toList_text negative hpos,
    ofText_of_decimal (Numeral.ofChars?_chars hwf hsign), hminus]
  exact Decimal.toNumber_of_roundsTo hpos hreads

/-- The text of a number is read as the number; a zero loses its sign. -/
theorem ofText_text (x : Number) : ofText x.text = if x.isZero then zero else x := by
  cases x with
  | nan => decide +kernel
  | infinite negative => cases negative <;> decide +kernel
  | finite negative m =>
      have hzero : (finite negative m).isZero = (m.quanta == 0) := rfl
      rw [hzero]
      rcases Nat.eq_zero_or_pos m.quanta with hquanta | hpos
      · rw [text_zero hquanta, hquanta, if_pos (by decide)]
        decide +kernel
      · rw [ofText_text_of_pos negative hpos, if_neg (by simpa using hpos.ne')]

/-! ### What a text tells -/

/-- A zero is a finite number without quanta. -/
theorem exists_of_isZero (h : x.isZero = true) :
    ∃ negative m, x = .finite negative m ∧ m.quanta = 0 := by
  cases x with
  | nan => cases h
  | infinite negative => cases h
  | finite negative m => exact ⟨negative, m, rfl, by simpa [isZero] using h⟩

/-- Both zeros have one place on the line. -/
theorem key_of_isZero (h : x.isZero = true) : x.key = some 0 := by
  obtain ⟨negative, m, rfl, hquanta⟩ := exists_of_isZero h
  show some (signed negative m.quanta) = some 0
  rw [hquanta]
  cases negative <;> rfl

/-- A size that is not zero tells its sign. -/
theorem signed_left_inj {s t : Bool} {n : Nat} (hn : 0 < n) (h : signed s n = signed t n) :
    s = t := by
  cases s <;> cases t <;> simp only [signed, if_true, Bool.false_eq_true, if_false] at h ⊢ <;> omega

/-- Only the zeros share a place. -/
theorem eq_or_isZero_of_key_eq (h : x.key = y.key) :
    x = y ∨ x.isZero = true ∧ y.isZero = true := by
  -- Doubles at one place have the same magnitude.
  have habs : ∀ {s t : Bool} {m n : Nat}, some (signed s m) = some (signed t n) → m = n := by
    intro s t m n heq
    rw [← natAbs_signed s m, Option.some.inj heq, natAbs_signed]
  cases x with
  | nan => exact .inl (key_eq_none_iff.1 h.symm).symm
  | infinite s =>
      cases y with
      | nan => exact .inl (key_eq_none_iff.1 h)
      | infinite t =>
          exact .inl (congrArg infinite (signed_left_inj quantaLimit_pos (Option.some.inj h)))
      | finite t n => exact absurd (habs h) n.fits.1.ne'
  | finite s m =>
      cases y with
      | nan => exact .inl (key_eq_none_iff.1 h)
      | infinite t => exact absurd (habs h) m.fits.1.ne
      | finite t n =>
          have hquanta := habs h
          rcases Nat.eq_zero_or_pos m.quanta with hzero | hpos
          · exact .inr ⟨beq_iff_eq.2 hzero, beq_iff_eq.2 (hquanta ▸ hzero)⟩
          · have hsigned : signed s m.quanta = signed t m.quanta := by
              rw [Option.some.inj h, hquanta]
            exact .inl (finite_congr (signed_left_inj hpos hsigned) hquanta)

/-- The number read back has the same place on the line. -/
theorem key_ofText_text (x : Number) : (ofText x.text).key = x.key := by
  rw [ofText_text]
  split
  · rename_i hzero
    rw [key_of_isZero hzero]
    rfl
  · rfl

/-- Numbers have one text when they stand at one place. -/
theorem text_eq_text_iff : x.text = y.text ↔ x.key = y.key := by
  constructor
  · intro h
    rw [← key_ofText_text x, ← key_ofText_text y, h]
  · intro h
    rcases eq_or_isZero_of_key_eq h with rfl | ⟨hx, hy⟩
    · rfl
    · obtain ⟨s, m, rfl, hm⟩ := exists_of_isZero hx
      obtain ⟨t, n, rfl, hn⟩ := exists_of_isZero hy
      rw [text_zero hm, text_zero hn]

/-- Equal numbers stand at one place, and so do those that are none. -/
theorem key_eq_key_iff :
    x.key = y.key ↔ x.equal y = true ∨ x.isNaN = true ∧ y.isNaN = true := by
  rw [equal_iff, isNaN_iff, isNaN_iff, ← key_eq_none_iff, ← key_eq_none_iff]
  constructor
  · intro h
    by_cases hnone : x.key = none
    · exact .inr ⟨hnone, h ▸ hnone⟩
    · exact .inl ⟨h, hnone⟩
  · rintro (⟨h, -⟩ | ⟨hx, hy⟩)
    · exact h
    · rw [hx, hy]

/-- Equality depends on the places only. -/
theorem equal_congr {x' y' : Number} (hx : x.key = x'.key) (hy : y.key = y'.key) :
    x.equal y = x'.equal y' := by
  unfold equal
  rw [hx, hy]

/-- So does the order. -/
theorem less_congr {x' y' : Number} (hx : x.key = x'.key) (hy : y.key = y'.key) :
    x.less y = x'.less y' := by
  unfold less
  rw [hx, hy]

/-- So does being no number. -/
theorem isNaN_congr (h : x.key = y.key) : x.isNaN = y.isNaN := by
  rw [Bool.eq_iff_iff, isNaN_iff, isNaN_iff, ← key_eq_none_iff, ← key_eq_none_iff, h]

end Number

/-! ### Comparisons with texts -/

namespace Value

/-- In a comparison by numbers the text of a number stands for the number. -/
theorem less_text (x y : Number) :
    (number x).less (string y.text) = (number x).less (number y) ∧
      (string x.text).less (number y) = (number x).less (number y) := by
  have hx := Number.key_ofText_text x
  have hy := Number.key_ofText_text y
  constructor
  · show (if x.isNaN || (Number.ofText y.text).isNaN then none
      else some (x.less (.ofText y.text))) = if x.isNaN || y.isNaN then none else some (x.less y)
    rw [Number.isNaN_congr hy, Number.less_congr rfl hy]
  · show (if (Number.ofText x.text).isNaN || y.isNaN then none
      else some ((Number.ofText x.text).less y))
        = if x.isNaN || y.isNaN then none else some (x.less y)
    rw [Number.isNaN_congr hx, Number.less_congr hx rfl]

/-- A number is loosely equal to the text of another if the two are equal. -/
theorem looseEqual_text (x y : Number) :
    (number x).looseEqual (string y.text) = x.equal y ∧
      (string x.text).looseEqual (number y) = x.equal y := by
  have hx := Number.key_ofText_text x
  have hy := Number.key_ofText_text y
  constructor
  · show x.equal (.ofText y.text) = x.equal y
    exact Number.equal_congr rfl hy
  · show y.equal (.ofText x.text) = x.equal y
    rw [Number.equal_congr rfl hx, Number.equal_comm]

end Value

/-- The text of a number identifies it: read as a number it is equal to the number,
numbers that are not equal have different texts and property keys, and a comparison
takes the text for the number. -/
theorem Number.text_identifies (x y : Number) :
    ofText x.text = (if x.isZero then zero else x) ∧ (ofText x.text).equal x = !x.isNaN ∧
      (x.text = y.text ↔ x.equal y = true ∨ x.isNaN = true ∧ y.isNaN = true) ∧
      ((Value.number x).propertyKey = (Value.number y).propertyKey ↔
        x.equal y = true ∨ x.isNaN = true ∧ y.isNaN = true) ∧
      (Value.number x).looseEqual (.string y.text) = x.equal y ∧
      (Value.string x.text).looseEqual (.number y) = x.equal y ∧
      (Value.number x).less (.string y.text) = (Value.number x).less (.number y) ∧
      (Value.string x.text).less (.number y) = (Value.number x).less (.number y) := by
  have htext := text_eq_text_iff (x := x) (y := y)
  rw [key_eq_key_iff] at htext
  have hself : (ofText x.text).equal x = !x.isNaN := by
    rw [equal_congr (key_ofText_text x) rfl, Bool.eq_iff_iff, equal_iff, Bool.not_eq_true',
      ← Bool.not_eq_true, isNaN_iff, ← key_eq_none_iff]
    exact and_iff_right rfl
  exact ⟨ofText_text x, hself, htext, htext, (Value.looseEqual_text x y).1,
    (Value.looseEqual_text x y).2, (Value.less_text x y).1, (Value.less_text x y).2⟩

end Formula
