import Formula.Number.Layout
import Formula.Proofs.Number.Shortest
import Formula.Proofs.Text.Trimmed

/-!
# `Formula.Proofs.Number.Written`: the parts of a written number

The text of a number consists of digits, of digits after a point, and of a
power of ten, and its reader goes through these parts. They are named here,
with the value that they denote: it is the value of the shortest decimal,
wherever the point was put.

* `Numeral`: the parts, and the characters that they are written with.
* `Significant.characters_spec`: the digits without the zeros that end them.
* `Layout.numeral`: the parts that a layout chooses for a magnitude.
* `Layout.numeral_spec`: they are what the layout writes, and they denote the
  shortest decimal.
-/

set_option autoImplicit false

namespace Formula

/-! ### Digits -/

/-- The digits in front count more by the digits behind. -/
theorem natOfDigits_append (cs ds : List Char) :
    natOfDigits (cs ++ ds) = 10 ^ ds.length * natOfDigits cs + natOfDigits ds := by
  show Nat.ofDigitChars 10 (cs ++ ds) 0 = _
  rw [Nat.ofDigitChars_append, Nat.ofDigitChars_eq_ofDigitChars_zero]
  rfl

/-- Zeros are worth nothing. -/
theorem natOfDigits_zeros (n : Nat) : natOfDigits (List.replicate n '0') = 0 := by
  show Nat.ofDigitChars 10 (List.replicate n '0') 0 = 0
  rw [Nat.ofDigitChars_replicate_zero, Nat.mul_zero]

/-- A number is read back from its digits. -/
theorem natOfDigits_toDigits (n : Nat) : natOfDigits (Nat.toDigits 10 n) = n :=
  Nat.ofDigitChars_ten_toDigits

/-- Zeros are digits. -/
theorem isDigit_of_mem_zeros {n : Nat} : ∀ c ∈ List.replicate n '0', c.isDigit = true := by
  intro c hc
  rw [List.eq_of_mem_replicate hc]
  decide

/-- Digits behind digits are digits. -/
theorem isDigit_of_mem_append {cs ds : List Char} (hcs : ∀ c ∈ cs, c.isDigit = true)
    (hds : ∀ c ∈ ds, c.isDigit = true) : ∀ c ∈ cs ++ ds, c.isDigit = true := by
  intro c hc
  exact (List.mem_append.1 hc).elim (hcs c) (hds c)

/-- Digits denote less than the power of ten that their number tells. -/
theorem natOfDigits_lt {cs : List Char} (h : ∀ c ∈ cs, c.isDigit = true) :
    natOfDigits cs < 10 ^ cs.length := by
  induction cs with
  | nil => decide
  | cons c tail ih =>
      have htail := ih (fun c' hc' => h c' (List.mem_cons_of_mem c hc'))
      have hdigit := (toNat_of_isDigit (h c List.mem_cons_self)).2
      have hone : natOfDigits [c] ≤ 9 := by
        show 10 * 0 + (c.toNat - 48) ≤ 9
        omega
      -- The first digit counts at most nine times as much as there is room behind it.
      calc natOfDigits (c :: tail) = 10 ^ tail.length * natOfDigits [c] + natOfDigits tail :=
            natOfDigits_append [c] tail
        _ < 10 ^ tail.length * 9 + 10 ^ tail.length :=
            Nat.add_lt_add_of_le_of_lt (Nat.mul_le_mul_left _ hone) htail
        _ = 10 ^ (c :: tail).length := by
            rw [List.length_cons, Nat.pow_succ]
            omega

/-- A text that begins with a character other than zero. -/
def Leads (cs : List Char) : Prop := ∃ c tail, cs = c :: tail ∧ c ≠ '0'

/-- What leads a numeral leads a longer one. -/
theorem Leads.append {cs : List Char} (h : Leads cs) (ds : List Char) : Leads (cs ++ ds) := by
  obtain ⟨c, tail, rfl, hc⟩ := h
  exact ⟨c, tail ++ ds, rfl, hc⟩

/-- The digits of a positive number do not begin with zero. -/
theorem leads_toDigits (n : Nat) (hn : 0 < n) : Leads (Nat.toDigits 10 n) := by
  induction n using Nat.strongRecOn with
  | ind n ih =>
      rw [Nat.toDigits_eq_if (by decide)]
      by_cases hsmall : n < 10
      · rw [if_pos hsmall]
        refine ⟨_, _, rfl, fun hzero => ?_⟩
        rw [Nat.digitChar_eq_zero] at hzero
        omega
      · rw [if_neg hsmall]
        exact (ih (n / 10) (by omega) (by omega)).append _

/-- A text is what is left of it without its ending zeros, and these zeros. -/
theorem exists_zeros (cs : List Char) :
    ∃ n, cs = dropEndWhile (· == '0') cs ++ List.replicate n '0' := by
  obtain ⟨zeros, hsplit, hzeros, -⟩ := exists_dropEndWhile (· == '0') cs
  refine ⟨zeros.length, ?_⟩
  rw [← List.eq_replicate_iff.2 ⟨rfl, fun c hc => by simpa using hzeros c hc⟩]
  exact hsplit

namespace Significant

/-- The digits of a decimal, without the zeros that end them and with them. -/
theorem exists_characters (d : Significant) :
    ∃ n, Nat.toDigits 10 d.digits = d.characters ++ List.replicate n '0' ∧
      10 ^ n * natOfDigits d.characters = d.digits := by
  obtain ⟨n, hn⟩ : ∃ n, Nat.toDigits 10 d.digits = d.characters ++ List.replicate n '0' :=
    exists_zeros _
  have hvalue := natOfDigits_toDigits d.digits
  rw [hn, natOfDigits_append, natOfDigits_zeros, List.length_replicate] at hvalue
  exact ⟨n, hn, hvalue⟩

variable {d : Significant}

/-- The digits without the zeros that end them: what they denote, from how many
there are. -/
theorem characters_spec (hd : 0 < d.digits) :
    Leads d.characters ∧ (∀ c ∈ d.characters, c.isDigit = true) ∧
      (natOfDigits d.characters : ℚ) * 10 ^ (d.leading + 1 - d.characters.length) = d.value := by
  obtain ⟨n, hn, hdigits⟩ := d.exists_characters
  refine ⟨?_, ?_, ?_⟩
  · obtain ⟨c, tail, heq, hc⟩ := leads_toDigits d.digits hd
    rw [hn] at heq
    cases hcs : d.characters with
    | nil =>
        -- Nothing but zeros cannot begin with another digit.
        rw [hcs, List.nil_append] at heq
        exact absurd (List.eq_of_mem_replicate (heq ▸ List.mem_cons_self)) hc
    | cons c' tail' =>
        rw [hcs, List.cons_append] at heq
        cases heq
        exact ⟨c, tail', rfl, hc⟩
  · intro c hc
    refine Nat.isDigit_of_mem_toDigits (b := 10) (n := d.digits) (by decide) (by decide) ?_
    rw [hn]
    exact List.mem_append_left _ hc
  · have hlength : d.characters.length + n = decimalLength d.digits := by
      unfold decimalLength
      rw [hn, List.length_append, List.length_replicate]
    have hplace : d.leading + 1 - d.characters.length = d.exponent + n := by
      unfold leading
      omega
    have hdigits' : (10 : ℚ) ^ n * natOfDigits d.characters = d.digits := by
      exact_mod_cast hdigits
    rw [hplace, zpow_add₀ (by norm_num), zpow_natCast, value, ← hdigits']
    ring

/-- Without zeros at the end the digits are worth no more. -/
theorem natOfDigits_characters_le (d : Significant) : natOfDigits d.characters ≤ d.digits := by
  obtain ⟨n, -, hdigits⟩ := d.exists_characters
  have hten : 0 < 10 ^ n := Nat.pow_pos (by decide)
  calc natOfDigits d.characters ≤ 10 ^ n * natOfDigits d.characters :=
        Nat.le_mul_of_pos_left _ hten
    _ = d.digits := hdigits

end Significant

/-! ### Numerals -/

/-- The parts of a written number: digits, the digits after a point, and the power
of ten if one is written. -/
structure Numeral where
  whole : List Char
  fraction : List Char
  power : Option Int
deriving DecidableEq

namespace Numeral

/-- Digits after a point, which is written only before some. -/
def pointed : List Char → List Char
  | [] => []
  | c :: cs => '.' :: c :: cs

/-- A power of ten, if there is one. -/
def raised : Option Int → List Char
  | none => []
  | some e => 'e' :: exponentChars e

/-- The characters of a numeral. -/
def chars (n : Numeral) : List Char := n.whole ++ (pointed n.fraction ++ raised n.power)

/-- The number that all digits make together. -/
def significand (n : Numeral) : Nat := natOfDigits (n.whole ++ n.fraction)

/-- The power of ten of the last digit. -/
def exponent (n : Numeral) : Int := n.power.getD 0 - n.fraction.length

/-- The value of a numeral. -/
def value (n : Numeral) : ℚ := n.significand * 10 ^ n.exponent

/-- All digits are digits, and zero begins nothing but itself. -/
structure WellFormed (n : Numeral) : Prop where
  whole : ∀ c ∈ n.whole, c.isDigit = true
  fraction : ∀ c ∈ n.fraction, c.isDigit = true
  head : Leads n.whole ∨ n.whole = ['0']

/-- A numeral without a power of ten, whose first digit stands at `10 ^ leading`. -/
def positional (ending digits : List Char) (leading : Int) : Numeral :=
  match leading with
  | .ofNat e =>
    if digits.length ≤ e + 1 then
      ⟨digits ++ List.replicate (e + 1 - digits.length) '0', ending, none⟩
    else ⟨digits.take (e + 1), digits.drop (e + 1), none⟩
  | .negSucc k => ⟨['0'], List.replicate k '0' ++ digits, none⟩

/-- A numeral with one digit before the point. -/
def exponential (digits : List Char) (leading : Int) : Numeral :=
  ⟨digits.take 1, digits.drop 1, some leading⟩

variable {digits : List Char}

/-- A fraction stands behind a point. -/
theorem pointed_of_ne_nil (h : digits ≠ []) : pointed digits = '.' :: digits := by
  cases digits with
  | nil => exact absurd rfl h
  | cons c tail => rfl

/-- The layout's positional notation has the parts of a positional numeral. -/
theorem chars_positional {integerEnd : String} {ending : List Char}
    (hend : integerEnd.toList = pointed ending) (hdigits : digits ≠ []) (leading : Int) :
    Formula.positional integerEnd digits leading = (positional ending digits leading).chars := by
  -- The point may stand behind the last digit, within the digits, or before the first one.
  cases leading with
  | ofNat e =>
      unfold Formula.positional positional
      by_cases hlen : digits.length ≤ e + 1
      · simp [hlen, hend, chars, raised]
      · have hdrop : digits.drop (e + 1) ≠ [] := by
          rw [Ne, List.drop_eq_nil_iff]
          exact hlen
        simp [hlen, chars, raised, pointed_of_ne_nil hdrop]
  | negSucc k =>
      have hmore : List.replicate k '0' ++ digits ≠ [] := by simp [hdigits]
      simp [Formula.positional, positional, chars, raised, pointed_of_ne_nil hmore]

/-- The numeral with an exponent is written as the program writes it. -/
theorem chars_exponential (hdigits : digits ≠ []) (leading : Int) :
    Formula.exponential digits leading = (exponential digits leading).chars := by
  match digits, hdigits with
  | [d], _ => simp [Formula.exponential, exponential, chars, pointed, raised]
  | d :: d' :: ds, _ => simp [Formula.exponential, exponential, chars, pointed, raised]

/-- Wherever the point is put, the digits denote the same. -/
theorem value_positional (zeros : Nat) (digits : List Char) (leading : Int) :
    (positional (List.replicate zeros '0') digits leading).value
      = natOfDigits digits * 10 ^ (leading + 1 - digits.length) := by
  -- The point is behind the digits, between them, or before them.
  cases leading with
  | ofNat e =>
      by_cases hlen : digits.length ≤ e + 1
      · obtain ⟨more, hmore⟩ := Nat.exists_eq_add_of_le hlen
        have hplace : (Int.ofNat e : Int) + 1 - digits.length = more := by
          rw [Int.ofNat_eq_natCast]
          omega
        have hexponent : (0 : Int) - (zeros : Nat) = -(zeros : Int) := Int.zero_sub _
        simp only [positional, hlen, if_true, value, significand, exponent, Option.getD_none,
          natOfDigits_append, natOfDigits_zeros, List.length_replicate, hplace, hexponent]
        rw [show e + 1 - digits.length = more by omega, zpow_neg, zpow_natCast, zpow_natCast]
        push_cast
        field_simp
        ring
      · have hplace : (Int.ofNat e : Int) + 1 - digits.length
            = 0 - (digits.length - (e + 1) : Nat) := by
          rw [Int.ofNat_eq_natCast]
          omega
        simp only [positional, hlen, if_false, value, significand, exponent, Option.getD_none,
          List.take_append_drop, List.length_drop, hplace]
  | negSucc k =>
      have hplace : Int.negSucc k + 1 - digits.length = 0 - (k + digits.length : Nat) := by omega
      have hzero : natOfDigits ['0'] = 0 := natOfDigits_zeros 1
      simp only [positional, value, significand, exponent, Option.getD_none, natOfDigits_append,
        natOfDigits_zeros, hzero, List.length_append, List.length_replicate, hplace]
      simp

/-- The digits after the first one make the number larger only where zeros fill an
integer up. -/
theorem significand_positional (zeros : Nat) (hdigits : ∀ c ∈ digits, c.isDigit = true)
    (leading : Int) :
    (positional (List.replicate zeros '0') digits leading).significand = natOfDigits digits ∨
      ∃ e : Nat, leading = e ∧
        (positional (List.replicate zeros '0') digits leading).significand
          < 10 ^ (e + 1 + zeros) := by
  -- Only zeros that are filled in before the point make the significand another one.
  cases leading with
  | ofNat e =>
      by_cases hlen : digits.length ≤ e + 1
      · right
        refine ⟨e, rfl, ?_⟩
        have hbound := natOfDigits_lt (isDigit_of_mem_append hdigits
          (isDigit_of_mem_zeros (n := e + 1 - digits.length + zeros)))
        rw [List.length_append, List.length_replicate,
          show digits.length + (e + 1 - digits.length + zeros) = e + 1 + zeros by omega] at hbound
        simp only [positional, hlen, if_true, significand, List.append_assoc,
          List.replicate_append_replicate]
        exact hbound
      · left
        simp only [positional, hlen, if_false, significand, List.take_append_drop]
  | negSucc k =>
      left
      have hzero : natOfDigits ['0'] = 0 := natOfDigits_zeros 1
      simp only [positional, significand, natOfDigits_append, natOfDigits_zeros, hzero,
        Nat.mul_zero, Nat.zero_add]

/-- With an exponent all digits are in the significand. -/
theorem significand_exponential (digits : List Char) (leading : Int) :
    (exponential digits leading).significand = natOfDigits digits := by
  simp only [exponential, significand, List.take_append_drop]

/-- Its value is that of the digits, moved by the exponent. -/
theorem value_exponential (hdigits : digits ≠ []) (leading : Int) :
    (exponential digits leading).value
      = natOfDigits digits * 10 ^ (leading + 1 - digits.length) := by
  have hlen : 0 < digits.length := List.length_pos_iff.2 hdigits
  have hplace : leading - (digits.length - 1 : Nat) = leading + 1 - digits.length := by omega
  simp only [exponential, value, significand, exponent, Option.getD_some, List.take_append_drop,
    List.length_drop, hplace]

/-- A numeral without an exponent has digits only, and leads with none of the
zeros. -/
theorem wellFormed_positional (zeros : Nat) (hhead : Leads digits)
    (hdigits : ∀ c ∈ digits, c.isDigit = true) (leading : Int) :
    (positional (List.replicate zeros '0') digits leading).WellFormed := by
  cases leading with
  | ofNat e =>
      unfold positional
      dsimp only
      -- The digits fill the part before the point, or they are split at it.
      split
      · exact ⟨isDigit_of_mem_append hdigits isDigit_of_mem_zeros, isDigit_of_mem_zeros,
          .inl (hhead.append _)⟩
      · refine ⟨fun c hc => hdigits c (List.mem_of_mem_take hc),
          fun c hc => hdigits c (List.mem_of_mem_drop hc), .inl ?_⟩
        obtain ⟨c, tail, rfl, hc⟩ := hhead
        exact ⟨c, tail.take e, rfl, hc⟩
  | negSucc k =>
      exact ⟨isDigit_of_mem_zeros (n := 1), isDigit_of_mem_append isDigit_of_mem_zeros hdigits,
        .inr rfl⟩

/-- So has a numeral with an exponent. -/
theorem wellFormed_exponential (hhead : Leads digits) (hdigits : ∀ c ∈ digits, c.isDigit = true)
    (leading : Int) : (exponential digits leading).WellFormed := by
  refine ⟨fun c hc => hdigits c (List.mem_of_mem_take hc),
    fun c hc => hdigits c (List.mem_of_mem_drop hc), .inl ?_⟩
  obtain ⟨c, tail, rfl, hc⟩ := hhead
  exact ⟨c, [], rfl, hc⟩

end Numeral

/-! ### The parts that a layout chooses -/

namespace Layout

/-- The digits that end an integer in positional notation. -/
def ending (layout : Layout) : List Char := layout.integerEnd.toList.drop 1

/-- Nothing ends an integer but zeros after a point. -/
def EndsInZeros (layout : Layout) : Prop :=
  layout.integerEnd.toList = Numeral.pointed layout.ending ∧
    ∃ zeros, layout.ending = List.replicate zeros '0'

/-- The layout of JSON ends a whole number in one zero. -/
theorem jsonLayout_endsInZeros : jsonLayout.EndsInZeros := ⟨by decide, 1, by decide⟩

/-- The parts in which a layout writes a decimal. -/
def numeralOf (layout : Layout) (d : Significant) : Numeral :=
  if layout.positionalFrom ≤ d.leading ∧ d.leading < layout.positionalTo then
    .positional layout.ending d.characters d.leading
  else
    .exponential d.characters d.leading

/-- The parts in which a layout writes a magnitude. -/
def numeral (layout : Layout) (quanta : Nat) : Numeral :=
  layout.numeralOf (shortest layout.tie quanta)

/-- A decimal is written positionally, below the first leading exponent that is not,
or with a power of ten. -/
theorem numeralOf_cases (layout : Layout) (d : Significant) :
    layout.numeralOf d = .positional layout.ending d.characters d.leading ∧
      d.leading < layout.positionalTo ∨
    layout.numeralOf d = .exponential d.characters d.leading := by
  unfold numeralOf
  split
  · rename_i hplace
    exact .inl ⟨rfl, hplace.2⟩
  · exact .inr rfl

variable {layout : Layout} {q : Nat}

/-- The shortest digits of a number are not zero. -/
theorem shortest_digits_pos (tie : Tie) (hq : Fits q) (hpos : 0 < q) :
    0 < (shortest tie q).digits := by
  obtain ⟨-, hborders, -, hle⟩ := shortest_spec tie hq hpos
  obtain ⟨n, hn⟩ := Int.le.dest hle
  have hbound := (hborders.digits_bounds hpos hn.symm).1
  have hten : 0 < 10 ^ n := Nat.pow_pos (by decide)
  omega

/-- The notation of a decimal, as a numeral of its value. -/
theorem numeralOf_spec (hlayout : layout.EndsInZeros) {d : Significant} (hd : 0 < d.digits) :
    (if layout.positionalFrom ≤ d.leading ∧ d.leading < layout.positionalTo then
      positional layout.integerEnd d.characters d.leading
    else exponential d.characters d.leading) = (layout.numeralOf d).chars ∧
      (layout.numeralOf d).WellFormed ∧ (layout.numeralOf d).value = d.value := by
  obtain ⟨hend, zeros, hzeros⟩ := hlayout
  obtain ⟨hhead, hdigits, hvalue⟩ := Significant.characters_spec hd
  have hne : d.characters ≠ [] := by
    obtain ⟨c, tail, heq, -⟩ := hhead
    simp [heq]
  rw [← hvalue]
  unfold numeralOf
  -- The two ways to write it; digits and value are the same in both.
  split
  · rw [Numeral.chars_positional hend hne, hzeros, Numeral.value_positional]
    exact ⟨rfl, Numeral.wellFormed_positional zeros hhead hdigits _, rfl⟩
  · rw [Numeral.chars_exponential hne, Numeral.value_exponential hne]
    exact ⟨rfl, Numeral.wellFormed_exponential hhead hdigits _, rfl⟩

/-- A positive magnitude is written as a numeral whose value is the shortest
decimal. -/
theorem numeral_spec (hlayout : layout.EndsInZeros) (hq : Fits q) (hpos : 0 < q) :
    layout.magnitudeChars q = (layout.numeral q).chars ∧ (layout.numeral q).WellFormed ∧
      (layout.numeral q).value = (shortest layout.tie q).value :=
  numeralOf_spec hlayout (shortest_digits_pos layout.tie hq hpos)

end Layout

end Formula
