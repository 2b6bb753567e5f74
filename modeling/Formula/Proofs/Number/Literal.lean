import Formula.Proofs.Number.Decimal
import Formula.Proofs.Text.Trimmed

/-!
# `Formula.Proofs.Number.Literal`: the texts that are numbers

The reader of numbers goes through the special words, the radix prefixes and the
decimal numerals in turn. The texts that one of them accepts are those of a
grammar, and everything else is not a number.

* `IsNumberLiteral`: the grammar.
* `Decimal.exists_ofChars?_iff`: decimal numerals.
* `Number.ofChars?_of_all_isNumeralChar`: the words that a general reader takes do not
  pass the filter before it.
* `Number.isNaN_foldDigits`: digits of a radix.
* `Number.isNaN_ofTrimmed_iff`: the trimmed texts that are numbers.
* `Number.ofTrimmed_of_isForeign`: forms that are left out.
-/

set_option autoImplicit false

namespace Formula

/-! ### The grammar -/

/-- Digits on at least one side of a point, or without one. -/
inductive IsMantissa : List Char → Prop where
  | whole {ds : List Char} (digits : ∀ d ∈ ds, d.isDigit = true) (ne_nil : ds ≠ []) :
      IsMantissa ds
  | pointed {ds fs : List Char} (digits : ∀ d ∈ ds, d.isDigit = true) (ne_nil : ds ≠ [])
      (fraction : ∀ d ∈ fs, d.isDigit = true) : IsMantissa (ds ++ '.' :: fs)
  | fraction {fs : List Char} (digits : ∀ d ∈ fs, d.isDigit = true) (ne_nil : fs ≠ []) :
      IsMantissa ('.' :: fs)

/-- A power of ten, or nothing. -/
inductive IsPower : List Char → Prop where
  | none : IsPower []
  | power {letter : Char} {sign ds : List Char} (letter_eq : letter = 'e' ∨ letter = 'E')
      (signed : IsSign sign) (ne_nil : ds ≠ []) (digits : ∀ d ∈ ds, d.isDigit = true) :
      IsPower (letter :: (sign ++ ds))

/-- The letters of the radix prefixes. -/
def radixLetters : List (Char × Nat) :=
  [('x', 16), ('X', 16), ('o', 8), ('O', 8), ('b', 2), ('B', 2)]

/-- A digit of a radix, in either case. -/
def IsDigitOf (radix : Nat) (c : Char) : Prop :=
  ∃ d < radix, c = d.digitChar ∨ c = d.digitChar.toUpper

/-- The texts that denote numbers, without the padding at their ends. -/
inductive IsNumberLiteral : List Char → Prop where
  | blank : IsNumberLiteral []
  | infinity {sign : List Char} (signed : IsSign sign) :
      IsNumberLiteral (sign ++ "Infinity".toList)
  | prefixed {letter : Char} {radix : Nat} {ds : List Char}
      (letter_mem : (letter, radix) ∈ radixLetters) (ne_nil : ds ≠ [])
      (digits : ∀ d ∈ ds, IsDigitOf radix d) : IsNumberLiteral ('0' :: letter :: ds)
  | decimal {sign mantissa power : List Char} (signed : IsSign sign)
      (digits : IsMantissa mantissa) (raised : IsPower power) :
      IsNumberLiteral (sign ++ (mantissa ++ power))

/-- Forms that readers of numbers elsewhere may take: a sign before a radix prefix,
the words for infinities and for what is not a number in other spellings, signs and
points alone, and padding within a text. -/
inductive IsForeign : List Char → Prop where
  | prefixed {letter : Char} {radix : Nat} {sign rest : List Char}
      (letter_mem : (letter, radix) ∈ radixLetters) (signed : IsSign sign) (ne_nil : sign ≠ []) :
      IsForeign (sign ++ '0' :: letter :: rest)
  | word {sign word : List Char} {name : String} (signed : IsSign sign)
      (name_mem : name ∈ ["inf", "infinity", "nan"])
      (spelled : List.Forall₂ (fun c l => c = l ∨ c = l.toUpper) word name.toList)
      (ne : word ≠ "Infinity".toList) : IsForeign (sign ++ word)
  | sign {sign : List Char} (signed : IsSign sign) (ne_nil : sign ≠ []) : IsForeign sign
  | point {sign : List Char} (signed : IsSign sign) : IsForeign (sign ++ ['.'])
  | padded {cs : List Char} {c : Char} (mem : c ∈ cs) (padding : Number.isPadding c = true) :
      IsForeign cs

/-! ### Decimal numerals -/

namespace Decimal

variable {cs e : List Char} {n : Int} {d : Decimal}

/-- What is taken as a sign is one. -/
theorem exists_takeSign (cs : List Char) : ∃ sign, IsSign sign ∧ cs = sign ++ (takeSign cs).2 := by
  unfold takeSign
  split
  · exact ⟨['-'], .inr (.inr rfl), rfl⟩
  · exact ⟨['+'], .inr (.inl rfl), rfl⟩
  · exact ⟨[], .inl rfl, rfl⟩

/-- What is read as an exponent has the form of one. -/
theorem isPower_of_exponentOfChars? (h : exponentOfChars? e = some n) : IsPower e := by
  cases e with
  | nil => exact .none
  | cons letter rest =>
      have hletter := head_of_exponentOfChars? h letter rfl
      rw [exponentOfChars?, if_pos hletter] at h
      obtain ⟨sign, hsign, hsplit⟩ := exists_takeSign rest
      dsimp only at h
      -- A sign and digits, at least one, and nothing behind them.
      split at h
      · rename_i hall
        rw [hsplit]
        exact .power hletter hsign hall.1 (List.all_eq_true.1 hall.2)
      · cases h

/-- What has the form of an exponent is read as one. -/
theorem exists_exponentOfChars? (h : IsPower e) : ∃ n, exponentOfChars? e = some n := by
  cases h with
  | none => exact ⟨0, rfl⟩
  | power hletter hsign hne hdigits =>
      exact ⟨_, exponentOfChars?_of_parts hletter hsign hne hdigits⟩

/-- A fraction is taken with the point before it. -/
theorem exists_takeFraction (cs : List Char) :
    (takeFraction cs = ([], cs) ∧ ∀ c ∈ cs.head?, c ≠ '.') ∨
    ∃ fraction rest, takeFraction cs = (fraction, rest) ∧ cs = '.' :: (fraction ++ rest) ∧
      ∀ d ∈ fraction, d.isDigit = true := by
  unfold takeFraction
  split
  · rename_i rest
    refine .inr ⟨_, _, rfl, ?_, fun d hd => List.mem_takeWhile_imp hd⟩
    rw [List.takeWhile_append_dropWhile]
  · rename_i hpoint
    refine .inl ⟨rfl, fun c hc => ?_⟩
    rintro rfl
    obtain ⟨rest, rfl⟩ := List.head?_eq_some_iff.1 hc
    exact hpoint rest rfl

/-- The parts of a text that a decimal was read from. -/
theorem exists_parts_of_ofUnsigned? {negative : Bool} (h : ofUnsigned? negative cs = some d) :
    ∃ mantissa power, IsMantissa mantissa ∧ IsPower power ∧ cs = mantissa ++ power := by
  have hwhole : ∀ c ∈ cs.takeWhile Char.isDigit, c.isDigit = true :=
    fun c hc => List.mem_takeWhile_imp hc
  have hsplit : cs.takeWhile Char.isDigit ++ cs.dropWhile Char.isDigit = cs :=
    List.takeWhile_append_dropWhile
  unfold ofUnsigned? at h
  generalize cs.takeWhile Char.isDigit = whole at *
  generalize cs.dropWhile Char.isDigit = after at *
  -- With a point or without, and with digits before it or none.
  rcases exists_takeFraction after with ⟨htake, -⟩ | ⟨fraction, rest, htake, rfl, hfraction⟩ <;>
    rw [htake] at h <;> dsimp only at h <;> split at h
  · cases h
  · rename_i hne
    obtain ⟨e, he, -⟩ := Option.map_eq_some_iff.1 h
    exact ⟨whole, after, .whole hwhole fun hnil => hne ⟨hnil, rfl⟩,
      isPower_of_exponentOfChars? he, hsplit.symm⟩
  · cases h
  · rename_i hne
    obtain ⟨e, he, -⟩ := Option.map_eq_some_iff.1 h
    have hpower := isPower_of_exponentOfChars? he
    cases whole with
    | nil =>
        exact ⟨'.' :: fraction, rest, .fraction hfraction fun hnil => hne ⟨rfl, hnil⟩, hpower,
          hsplit.symm⟩
    | cons first whole =>
        refine ⟨first :: whole ++ '.' :: fraction, rest,
          .pointed hwhole (List.cons_ne_nil _ _) hfraction, hpower, ?_⟩
        rw [← hsplit, List.append_assoc]
        rfl

/-- The decimal numerals are those of the grammar. -/
theorem exists_ofChars?_iff : (∃ d, ofChars? cs = some d) ↔
    ∃ sign mantissa power, IsSign sign ∧ IsMantissa mantissa ∧ IsPower power ∧
      cs = sign ++ (mantissa ++ power) := by
  -- One way the reader tells the parts, the other way the parts make the reader succeed.
  constructor
  · rintro ⟨d, h⟩
    obtain ⟨sign, hsign, hsplit⟩ := exists_takeSign cs
    obtain ⟨mantissa, power, hmantissa, hpower, hparts⟩ := exists_parts_of_ofUnsigned? h
    exact ⟨sign, mantissa, power, hsign, hmantissa, hpower, hparts ▸ hsplit⟩
  · rintro ⟨sign, mantissa, power, hsign, hmantissa, hpower, rfl⟩
    obtain ⟨n, hn⟩ := exists_exponentOfChars? hpower
    have hnone : ∀ d ∈ ([] : List Char), d.isDigit = true := fun d hd => by cases hd
    cases hmantissa with
    | whole hwhole hne =>
        exact ⟨_, ofChars?_of_parts hsign hwhole hnone (.inl hne) (.inl ⟨rfl, rfl⟩) hn⟩
    | @pointed ds fs hwhole hne hfraction =>
        rw [List.append_assoc]
        exact ⟨_, ofChars?_of_parts hsign hwhole hfraction (.inl hne) (.inr rfl) hn⟩
    | fraction hfraction hne =>
        exact ⟨_, ofChars?_of_parts hsign hnone hfraction (.inr hne) (.inr rfl) hn⟩

/-- A character that begins neither a sign nor a numeral. -/
theorem ofChars?_of_head {sign rest : List Char} {c : Char} (hsign : IsSign sign)
    (hdigit : c.isDigit = false) (hpoint : c ≠ '.') (hminus : c ≠ '-') (hplus : c ≠ '+') :
    ofChars? (sign ++ c :: rest) = none := by
  have hhead : ∀ c' ∈ (c :: rest).head?, c' ≠ '+' ∧ c' ≠ '-' := by
    intro c' hc'
    cases hc'
    exact ⟨hplus, hminus⟩
  -- Neither a digit nor a point is there, so both parts of the mantissa are empty.
  have htake : takeFraction (c :: rest) = ([], c :: rest) := by
    unfold takeFraction
    split
    · rename_i heq
      cases heq
      exact absurd rfl hpoint
    · rfl
  rw [ofChars?, takeSign_append hsign hhead]
  dsimp only
  rw [ofUnsigned?, List.takeWhile_cons_of_neg (by simp [hdigit]),
    List.dropWhile_cons_of_neg (by simp [hdigit]), htake]
  rfl

end Decimal

/-! ### Digits of a radix -/

namespace Number

variable {radix d : Nat} {c letter : Char} {cs ds : List Char}

/-- A letter has a radix if the table says so. -/
theorem radixOf?_eq_some_iff : radixOf? letter = some radix ↔ (letter, radix) ∈ radixLetters := by
  constructor
  · intro h
    unfold radixOf? at h
    split at h <;> cases h <;> decide
  · simp only [radixLetters, List.mem_cons, List.not_mem_nil, or_false, Prod.mk.injEq]
    rintro (⟨rfl, rfl⟩ | ⟨rfl, rfl⟩ | ⟨rfl, rfl⟩ | ⟨rfl, rfl⟩ | ⟨rfl, rfl⟩ | ⟨rfl, rfl⟩) <;> rfl

/-- There are three of them. -/
theorem radix_of_mem (h : (letter, radix) ∈ radixLetters) :
    radix = 16 ∨ radix = 8 ∨ radix = 2 := by
  revert letter radix
  simp only [radixLetters, List.mem_cons, List.not_mem_nil, or_false, Prod.mk.injEq]
  omega

/-- A digit is less than its radix. -/
theorem lt_of_digitOf? (h : digitOf? radix c = some d) : d < radix := by
  have := (Option.filter_eq_some_iff.1 h).2
  simpa using this

/-- The value of a digit tells its code, up to the case of a letter. -/
theorem toNat_of_digitOf? (h : digitOf? radix c = some d) :
    d < 10 ∧ c.toNat = 48 + d ∨ 10 ≤ d ∧ (c.toNat = 87 + d ∨ c.toNat = 55 + d) := by
  have hle : ∀ a b : Char, a ≤ b ↔ a.toNat ≤ b.toNat := fun a b => UInt32.le_iff_toNat_le
  have hbounds : '0'.toNat = 48 ∧ '9'.toNat = 57 ∧ 'a'.toNat = 97 ∧ 'z'.toNat = 122 ∧
      'A'.toNat = 65 ∧ 'Z'.toNat = 90 := by decide
  obtain ⟨h0, h9, ha, hz, hA, hZ⟩ := hbounds
  obtain ⟨hvalue, -⟩ := Option.filter_eq_some_iff.1 h
  simp only [hle, h0, h9, ha, hz, hA, hZ] at hvalue
  -- Decimal digits, small letters and capital letters, by their codes.
  split at hvalue
  · have := Option.some.inj hvalue
    omega
  · split at hvalue
    · have := Option.some.inj hvalue
      omega
    · split at hvalue
      · have := Option.some.inj hvalue
        omega
      · cases hvalue

/-- The characters that are digits of a radix, with their values. -/
theorem digitOf?_eq_some_iff (hradix : radix ≤ 16) :
    digitOf? radix c = some d ↔ d < radix ∧ (c = d.digitChar ∨ c = d.digitChar.toUpper) := by
  -- Sixteen digits can be looked at one by one; a smaller radix has some of them.
  have hchars : ∀ d < 16, digitOf? 16 d.digitChar = some d ∧
      digitOf? 16 d.digitChar.toUpper = some d ∧
      d.digitChar.toNat = (if d < 10 then 48 + d else 87 + d) ∧
      d.digitChar.toUpper.toNat = if d < 10 then 48 + d else 55 + d := by decide
  have hwider : digitOf? radix c = some d ↔ digitOf? 16 c = some d ∧ d < radix := by
    unfold digitOf?
    simp only [Option.filter_eq_some_iff, decide_eq_true_eq]
    constructor
    · exact fun h => ⟨⟨h.1, by omega⟩, h.2⟩
    · exact fun h => ⟨h.1.1, h.2⟩
  rw [hwider, and_comm]
  refine and_congr_right fun hd => ?_
  obtain ⟨hlower, hupper, hlowerCode, hupperCode⟩ := hchars d (by omega)
  constructor
  · intro h
    rw [← Char.toNat_inj, ← Char.toNat_inj, hlowerCode, hupperCode]
    rcases toNat_of_digitOf? h with ⟨hdecimal, hc⟩ | ⟨hletter, hc⟩
    · rw [if_pos hdecimal]
      exact .inl hc
    · rw [if_neg (by omega), if_neg (by omega)]
      exact hc
  · rintro (rfl | rfl)
    · exact hlower
    · exact hupper

/-- A character is a digit if it is read as one. -/
theorem isDigitOf_iff (hradix : radix ≤ 16) :
    IsDigitOf radix c ↔ ∃ d, digitOf? radix c = some d := by
  unfold IsDigitOf
  simp only [digitOf?_eq_some_iff hradix]

/-- Taking in one digit. -/
def takeDigit (radix : Nat) (acc : Number) (d : Nat) : Number :=
  add (mul acc (ofNat radix)) (ofNat d)

/-- Digits are taken from left to right. -/
theorem foldDigits_cons {acc : Number} (h : digitOf? radix c = some d) :
    foldDigits radix acc (c :: cs) = foldDigits radix (takeDigit radix acc d) cs := by
  rw [foldDigits, h]
  rfl

/-- A digit keeps a number a number. -/
theorem isNaN_takeDigit {acc : Number} (hacc : acc.isNaN = false) (hpos : 0 < radix)
    (hradix : radix ≤ 16) (hd : d < radix) : (takeDigit radix acc d).isNaN = false := by
  have hlimit : 16 < significandLimit := by decide
  have hfactor : radix * unitQuanta ≠ 0 := (mul_unitQuanta_pos hpos).ne'
  unfold takeDigit
  rw [ofNat_of_fits (fits_of_lt_significandLimit (hradix.trans_lt hlimit)),
    ofNat_of_fits (fits_of_lt_significandLimit ((hd.le.trans hradix).trans_lt hlimit))]
  cases acc with
  | nan => cases hacc
  | infinite negative =>
      -- The radix is not zero, so the product is infinite too.
      unfold mul
      dsimp only
      rw [if_neg hfactor]
      rfl
  | finite negative m =>
      unfold mul
      dsimp only
      rcases ofRatio_cases (negative ^^ false) (m.quanta * (radix * unitQuanta)) unitQuanta with
        ⟨hfits, heq⟩ | ⟨-, heq⟩ <;> rw [heq]
      · unfold add ofSignedRatio
        dsimp only
        split
        · rfl
        · exact isNaN_ofRatio _ _ _
      · rfl

/-- Digits of a radix make a number, and with any other character among them the
whole is none. -/
theorem isNaN_foldDigits (hpos : 0 < radix) (hradix : radix ≤ 16) {acc : Number}
    (hacc : acc.isNaN = false) :
    (foldDigits radix acc ds).isNaN = false ↔ ∀ d ∈ ds, IsDigitOf radix d := by
  induction ds generalizing acc with
  | nil => exact iff_of_true hacc fun d hd => by cases hd
  | cons c ds ih =>
      rw [List.forall_mem_cons, isDigitOf_iff hradix]
      cases hc : digitOf? radix c with
      | none =>
          rw [foldDigits, hc]
          simp [isNaN]
      | some d =>
          rw [foldDigits_cons hc, ih (isNaN_takeDigit hacc hpos hradix (lt_of_digitOf? hc))]
          simp

/-! ### Trimmed texts -/

/-- A radix is told by a zero and a letter in front. -/
theorem takeRadix?_eq_some_iff : takeRadix? cs = some (radix, ds) ↔
    ∃ letter, (letter, radix) ∈ radixLetters ∧ cs = '0' :: letter :: ds := by
  -- The definition asks for these two characters, and the table decides on the second.
  constructor
  · intro h
    unfold takeRadix? at h
    split at h
    · rename_i letter rest
      obtain ⟨r, hr, heq⟩ := Option.map_eq_some_iff.1 h
      cases heq
      exact ⟨letter, radixOf?_eq_some_iff.1 hr, rfl⟩
    · cases h
  · rintro ⟨letter, hletter, rfl⟩
    rw [takeRadix?, radixOf?_eq_some_iff.2 hletter]
    rfl

/-- A prefixed integer is what its digits make. -/
theorem ofTrimmed_of_radix (hletter : (letter, radix) ∈ radixLetters) (hne : ds ≠ []) :
    ofTrimmed ('0' :: letter :: ds) = foldDigits radix zero ds := by
  have htake : takeRadix? ('0' :: letter :: ds) = some (radix, ds) :=
    takeRadix?_eq_some_iff.2 ⟨letter, hletter, rfl⟩
  unfold ofTrimmed
  rw [if_neg (List.cons_ne_nil _ _), if_neg (by simp), if_neg (by simp), htake]
  cases ds with
  | nil => exact absurd rfl hne
  | cons d ds => rfl

/-- A radix prefix does not begin a decimal numeral. -/
theorem ofChars?_of_radix {sign : List Char} (hsign : IsSign sign)
    (hletter : (letter, radix) ∈ radixLetters) :
    Decimal.ofChars? (sign ++ '0' :: letter :: ds) = none := by
  simp only [radixLetters, List.mem_cons, List.not_mem_nil, or_false, Prod.mk.injEq] at hletter
  rcases hsign with rfl | rfl | rfl <;>
    rcases hletter with ⟨rfl, -⟩ | ⟨rfl, -⟩ | ⟨rfl, -⟩ | ⟨rfl, -⟩ | ⟨rfl, -⟩ | ⟨rfl, -⟩ <;> rfl

/-! ### The filter before the general reader -/

/-- The letters that the general reader's words begin with are shut out by the filter. -/
theorem toLower_of_isNumeralChar (h : isNumeralChar c = true) :
    c.toLower ≠ 'n' ∧ c.toLower ≠ 'i' := by
  simp only [isNumeralChar, Bool.or_eq_true, beq_iff_eq] at h
  -- A digit has no case, and the other five characters are known.
  rcases h with ((((hdigit | rfl) | rfl) | rfl) | rfl) | rfl
  · obtain ⟨hlow, hhigh⟩ := toNat_of_isDigit hdigit
    have hcase : c.toLower = c := by
      have hupper : ¬(c.val ≥ 'A'.val ∧ c.val ≤ 'Z'.val) := by
        rintro ⟨hge, -⟩
        have : 'A'.toNat ≤ c.toNat := UInt32.le_iff_toNat_le.1 hge
        have : 'A'.toNat = 65 := rfl
        omega
      unfold Char.toLower
      exact dif_neg hupper
    rw [hcase]
    constructor <;> rintro rfl <;> exact absurd hhigh (by decide)
  all_goals decide

/-- On texts that pass the filter the general reader takes the numerals alone. -/
theorem ofChars?_of_all_isNumeralChar (h : cs.all isNumeralChar = true) :
    ofChars? cs = (Decimal.ofChars? cs).map Decimal.toNumber := by
  have hletters : ∀ c ∈ (Decimal.takeSign cs).2, c.toLower ≠ 'n' ∧ c.toLower ≠ 'i' := by
    obtain ⟨sign, -, hsplit⟩ := Decimal.exists_takeSign cs
    intro c hc
    have hmem : c ∈ cs := hsplit ▸ List.mem_append_right sign hc
    exact toLower_of_isNumeralChar (List.all_eq_true.1 h c hmem)
  -- A word begins with one of the two letters, whichever word it is.
  have hword : ∀ negative, ofWord? negative (Decimal.takeSign cs).2 = none := by
    generalize (Decimal.takeSign cs).2 = word at hletters
    intro negative
    cases word with
    | nil => rfl
    | cons c word =>
        obtain ⟨hn, hi⟩ := hletters c List.mem_cons_self
        simp [ofWord?, hn, hi]
  unfold ofChars?
  cases Decimal.ofChars? cs with
  | some d => rfl
  | none => exact hword _

/-- Every numeral passes the filter. -/
theorem all_isNumeralChar_of_decimal {d : Decimal} (h : Decimal.ofChars? cs = some d) :
    cs.all isNumeralChar = true := by
  have hdigit : ∀ c, c.isDigit = true → isNumeralChar c = true := by
    intro c hc
    simp only [isNumeralChar, hc, Bool.true_or]
  have hsigned : ∀ {sign}, IsSign sign → ∀ c ∈ sign, isNumeralChar c = true := by
    rintro _ (rfl | rfl | rfl)
    · exact nofun
    · exact List.forall_mem_singleton.2 rfl
    · exact List.forall_mem_singleton.2 rfl
  obtain ⟨sign, mantissa, power, hsign, hmantissa, hpower, rfl⟩ :=
    Decimal.exists_ofChars?_iff.1 ⟨d, h⟩
  -- Each of the three parts in turn has only digits, signs, points and the letter of an
  -- exponent.
  have hmantissa : ∀ c ∈ mantissa, isNumeralChar c = true := by
    cases hmantissa with
    | whole hds => exact fun c hc => hdigit c (hds c hc)
    | pointed hds _ hfs =>
        refine List.forall_mem_append.2 ⟨fun c hc => hdigit c (hds c hc), ?_⟩
        exact List.forall_mem_cons.2 ⟨rfl, fun c hc => hdigit c (hfs c hc)⟩
    | fraction hfs => exact List.forall_mem_cons.2 ⟨rfl, fun c hc => hdigit c (hfs c hc)⟩
  have hpower : ∀ c ∈ power, isNumeralChar c = true := by
    cases hpower with
    | none => exact nofun
    | power hletter hsign _ hds =>
        refine List.forall_mem_cons.2 ⟨by rcases hletter with rfl | rfl <;> rfl, ?_⟩
        exact List.forall_mem_append.2 ⟨hsigned hsign, fun c hc => hdigit c (hds c hc)⟩
  rw [List.all_eq_true]
  exact List.forall_mem_append.2
    ⟨hsigned hsign, List.forall_mem_append.2 ⟨hmantissa, hpower⟩⟩

/-- The general reader alone would take the words, in letters of any case. -/
example : ofChars? "-iNf".toList = some (.infinite true) ∧ ofChars? "+NaN".toList = some .nan ∧
    ofTrimmed "-iNf".toList = .nan := by decide

/-- A decimal numeral is read as its decimal: neither the words nor the prefixes get
in its way. -/
theorem ofTrimmed_of_decimal {d : Decimal} (h : Decimal.ofChars? cs = some d) :
    ofTrimmed cs = d.toNumber := by
  have hother : ∀ word, Decimal.ofChars? word = none → cs ≠ word := by
    rintro word hword rfl
    rw [hword] at h
    cases h
  have hradix : takeRadix? cs = none := by
    -- What begins like a prefixed integer is no numeral.
    by_contra hsome
    obtain ⟨⟨radix, ds⟩, hsome⟩ := Option.ne_none_iff_exists'.1 hsome
    obtain ⟨letter, hletter, rfl⟩ := takeRadix?_eq_some_iff.1 hsome
    exact hother _ (ofChars?_of_radix (.inl rfl) hletter) rfl
  unfold ofTrimmed
  rw [if_neg (hother _ rfl), if_neg (not_or_intro (hother _ rfl) (hother _ rfl)),
    if_neg (hother _ rfl), hradix]
  dsimp only
  rw [if_pos (all_isNumeralChar_of_decimal h), ofNumeral_of_decimal h]

/-- What no part of the reader takes. -/
theorem ofTrimmed_eq_nan (hne : cs ≠ [])
    (hword : ∀ sign, IsSign sign → cs ≠ sign ++ "Infinity".toList) (hradix : takeRadix? cs = none)
    (hdecimal : Decimal.ofChars? cs = none) : ofTrimmed cs = .nan := by
  have hpositive : ¬(cs = "Infinity".toList ∨ cs = "+Infinity".toList) :=
    not_or_intro (hword [] (.inl rfl)) (hword ['+'] (.inr (.inl rfl)))
  have hnegative : cs ≠ "-Infinity".toList := hword ['-'] (.inr (.inr rfl))
  unfold ofTrimmed
  rw [if_neg hne, if_neg hpositive, if_neg hnegative, hradix]
  dsimp only
  split
  · rename_i hchars
    rw [ofNumeral, ofChars?_of_all_isNumeralChar hchars, hdecimal]
    rfl
  · rfl

/-- The trimmed texts that are numbers are those of the grammar. -/
theorem isNaN_ofTrimmed_iff : (ofTrimmed cs).isNaN = false ↔ IsNumberLiteral cs := by
  have hdigits : ∀ {letter : Char} {radix : Nat} {ds : List Char},
      (letter, radix) ∈ radixLetters → ((foldDigits radix zero ds).isNaN = false ↔
        ∀ d ∈ ds, IsDigitOf radix d) := by
    intro letter radix ds hletter
    have hradix := radix_of_mem hletter
    exact isNaN_foldDigits (by omega) (by omega) rfl
  constructor
  · -- The branches of the reader, in its order.
    intro h
    by_cases hblank : cs = []
    · rw [hblank]
      exact .blank
    by_cases hword : ∃ sign, IsSign sign ∧ cs = sign ++ "Infinity".toList
    · obtain ⟨sign, hsign, rfl⟩ := hword
      exact .infinity hsign
    cases htake : takeRadix? cs with
    | some taken =>
        obtain ⟨radix, ds⟩ := taken
        obtain ⟨letter, hletter, rfl⟩ := takeRadix?_eq_some_iff.1 htake
        -- A prefix without digits is no number.
        by_cases hne : ds = []
        · subst hne
          unfold ofTrimmed at h
          rw [if_neg (List.cons_ne_nil _ _), if_neg (by simp), if_neg (by simp), htake] at h
          cases h
        · rw [ofTrimmed_of_radix hletter hne] at h
          exact .prefixed hletter hne ((hdigits hletter).1 h)
    | none =>
        cases hdecimal : Decimal.ofChars? cs with
        | none =>
            rw [ofTrimmed_eq_nan hblank (fun sign hsign heq => hword ⟨sign, hsign, heq⟩) htake
              hdecimal] at h
            cases h
        | some d =>
            obtain ⟨sign, mantissa, power, hsign, hmantissa, hpower, rfl⟩ :=
              Decimal.exists_ofChars?_iff.1 ⟨d, hdecimal⟩
            exact .decimal hsign hmantissa hpower
  · intro h
    cases h with
    | blank => rfl
    | infinity hsign => rcases hsign with rfl | rfl | rfl <;> rfl
    | prefixed hletter hne hall =>
        rw [ofTrimmed_of_radix hletter hne]
        exact (hdigits hletter).2 hall
    | @decimal sign mantissa power hsign hmantissa hpower =>
        obtain ⟨d, hd⟩ := Decimal.exists_ofChars?_iff.2
          ⟨sign, mantissa, power, hsign, hmantissa, hpower, rfl⟩
        rw [ofTrimmed_of_decimal hd]
        exact d.isNaN_toNumber

/-! ### Forms that are left out -/

/-- Whether the character is a printed one of ASCII. -/
def IsPrinted (c : Char) : Prop := 0x20 < c.toNat ∧ c.toNat < 0x7F

instance (c : Char) : Decidable (IsPrinted c) := inferInstanceAs (Decidable (_ ∧ _))

/-- A printed character is no padding. -/
theorem IsPrinted.isPadding_eq_false (h : IsPrinted c) : isPadding c = false := by
  obtain ⟨hlow, hhigh⟩ := h
  have hmark : c ≠ '\uFEFF' := by
    rintro rfl
    exact absurd hhigh (by decide)
  simp only [isPadding, isBlank, Bool.or_eq_false_iff, Bool.and_eq_false_iff, beq_eq_false_iff_ne,
    decide_eq_false_iff_not, hmark, ne_eq, not_false_eq_true, and_true]
  omega

/-- Digits are printed. -/
theorem isPrinted_of_isDigit (h : c.isDigit = true) : IsPrinted c := by
  obtain ⟨hlow, hhigh⟩ := toNat_of_isDigit h
  exact ⟨by omega, by omega⟩

/-- So are the digits of another radix. -/
theorem isPrinted_of_isDigitOf (hradix : radix ≤ 16) (h : IsDigitOf radix c) : IsPrinted c := by
  have hchars : ∀ d < 16, IsPrinted d.digitChar ∧ IsPrinted d.digitChar.toUpper := by
    decide +kernel
  obtain ⟨d, hd, rfl | rfl⟩ := h
  · exact (hchars d (by omega)).1
  · exact (hchars d (by omega)).2

/-- So are signs. -/
theorem isPrinted_of_isSign {sign : List Char} (h : IsSign sign) : ∀ c ∈ sign, IsPrinted c := by
  rcases h with rfl | rfl | rfl <;> simp [IsPrinted]

/-- So are mantissas. -/
theorem isPrinted_of_isMantissa {cs : List Char} (h : IsMantissa cs) : ∀ c ∈ cs, IsPrinted c := by
  have hpoint : IsPrinted '.' := by decide
  intro c hc
  -- Digits and points, in each of the three forms.
  cases h with
  | whole hdigits => exact isPrinted_of_isDigit (hdigits c hc)
  | pointed hdigits _ hfraction =>
      rcases List.mem_append.1 hc with hc | hc
      · exact isPrinted_of_isDigit (hdigits c hc)
      · rcases List.mem_cons.1 hc with rfl | hc
        · exact hpoint
        · exact isPrinted_of_isDigit (hfraction c hc)
  | fraction hdigits =>
      rcases List.mem_cons.1 hc with rfl | hc
      · exact hpoint
      · exact isPrinted_of_isDigit (hdigits c hc)

/-- So are exponents. -/
theorem isPrinted_of_isPower {cs : List Char} (h : IsPower cs) : ∀ c ∈ cs, IsPrinted c := by
  intro c hc
  cases h with
  | none => cases hc
  | power hletter hsign _ hdigits =>
      rcases List.mem_cons.1 hc with rfl | hc
      · rcases hletter with rfl | rfl <;> decide
      · rcases List.mem_append.1 hc with hc | hc
        · exact isPrinted_of_isSign hsign c hc
        · exact isPrinted_of_isDigit (hdigits c hc)

/-- A literal consists of printed characters, so it has no padding in it. -/
theorem isPrinted_of_isNumberLiteral (h : IsNumberLiteral cs) : ∀ c ∈ cs, IsPrinted c := by
  intro c hc
  -- A literal is made of the parts above and of the word for infinity.
  cases h with
  | blank => cases hc
  | infinity hsign =>
      have hword : ∀ c ∈ "Infinity".toList, IsPrinted c := by simp [IsPrinted]
      exact (List.mem_append.1 hc).elim (isPrinted_of_isSign hsign c) (hword c)
  | prefixed hletter _ hdigits =>
      have hradix := radix_of_mem hletter
      have hletters : ∀ p ∈ radixLetters, IsPrinted p.1 := by simp [IsPrinted, radixLetters]
      rcases List.mem_cons.1 hc with rfl | hc
      · decide
      · rcases List.mem_cons.1 hc with rfl | hc
        · exact hletters _ hletter
        · exact isPrinted_of_isDigitOf (by omega) (hdigits c hc)
  | decimal hsign hmantissa hpower =>
      rcases List.mem_append.1 hc with hc | hc
      · exact isPrinted_of_isSign hsign c hc
      · rcases List.mem_append.1 hc with hc | hc
        · exact isPrinted_of_isMantissa hmantissa c hc
        · exact isPrinted_of_isPower hpower c hc

/-- A literal is read as it stands. -/
theorem ofText_of_isNumberLiteral (h : IsNumberLiteral cs) :
    ofText (String.ofList cs) = ofTrimmed cs := by
  have hplain : ∀ c ∈ cs, isPadding c = false :=
    fun c hc => (isPrinted_of_isNumberLiteral h c hc).isPadding_eq_false
  have hcore : IsCore isPadding (String.ofList cs).toList cs := by
    rw [String.toList_ofList]
    refine ⟨⟨[], [], (List.append_nil cs).symm, by simp, by simp⟩, fun c hc => ?_, fun c hc => ?_⟩
    · exact hplain c (List.mem_of_mem_head? hc)
    · exact hplain c (List.mem_of_mem_getLast? hc)
  unfold ofText
  rw [hcore.trimWhile_eq]

/-- A decimal numeral is read as its decimal. -/
theorem ofText_of_decimal {d : Decimal} (h : Decimal.ofChars? cs = some d) :
    ofText (String.ofList cs) = d.toNumber := by
  obtain ⟨sign, mantissa, power, hsign, hmantissa, hpower, rfl⟩ :=
    Decimal.exists_ofChars?_iff.1 ⟨d, h⟩
  rw [ofText_of_isNumberLiteral (.decimal hsign hmantissa hpower), ofTrimmed_of_decimal h]

/-- Words other than the one for infinity. -/
theorem ofTrimmed_of_word {sign word : List Char} {name : String} (hsign : IsSign sign)
    (hname : name ∈ ["inf", "infinity", "nan"])
    (hspelled : List.Forall₂ (fun c l => c = l ∨ c = l.toUpper) word name.toList)
    (hne : word ≠ "Infinity".toList) : ofTrimmed (sign ++ word) = .nan := by
  -- The first letter decides: no part of the reader but the words begins with it.
  obtain ⟨first, rest, rfl, hfirst⟩ : ∃ first rest, word = first :: rest ∧
      first ∈ ['i', 'I', 'n', 'N'] := by
    simp only [List.mem_cons, List.not_mem_nil, or_false] at hname
    rcases hname with rfl | rfl | rfl <;> cases hspelled <;> rename_i hletter _ <;>
      rcases hletter with rfl | rfl <;> exact ⟨_, _, rfl, by decide⟩
  have hfacts : ∀ c ∈ ['i', 'I', 'n', 'N'], c.isDigit = false ∧ c ≠ '.' ∧ c ≠ '-' ∧ c ≠ '+' ∧
      c ≠ '0' := by simp
  obtain ⟨hdigit, hpoint, hminus, hplus, hzero⟩ := hfacts first hfirst
  refine ofTrimmed_eq_nan (by simp) (fun sign' hsign' heq => hne ?_) ?_
    (Decimal.ofChars?_of_head hsign hdigit hpoint hminus hplus)
  · have hhead : ∀ c ∈ (first :: rest).head?, c ≠ '+' ∧ c ≠ '-' := by
      intro c hc
      cases hc
      exact ⟨hplus, hminus⟩
    have hrest := congrArg (fun cs => (Decimal.takeSign cs).2) heq
    rwa [Decimal.takeSign_append hsign hhead, Decimal.takeSign_append hsign' (by simp)] at hrest
  · rcases hsign with rfl | rfl | rfl
    · unfold takeRadix?
      split
      · rename_i heq
        cases heq
        exact absurd rfl hzero
      · rfl
    · rfl
    · rfl

/-- The forms of other languages are not read as numbers. -/
theorem ofTrimmed_of_isForeign (h : IsForeign cs) : ofTrimmed cs = .nan := by
  -- Each of them is no radix literal, not the word for infinity and no decimal.
  cases h with
  | prefixed hletter hsign hne =>
      refine ofTrimmed_eq_nan (by simp) (fun sign' hsign' => ?_) ?_
        (ofChars?_of_radix hsign hletter)
      · rcases hsign with rfl | rfl | rfl <;> rcases hsign' with rfl | rfl | rfl <;> simp at hne ⊢
      · rcases hsign with rfl | rfl | rfl
        · exact absurd rfl hne
        · rfl
        · rfl
  | word hsign hname hspelled hne => exact ofTrimmed_of_word hsign hname hspelled hne
  | sign hsign hne =>
      rcases hsign with rfl | rfl | rfl
      · exact absurd rfl hne
      · rfl
      · rfl
  | point hsign => rcases hsign with rfl | rfl | rfl <;> rfl
  | padded hc hpadding =>
      rw [← isNaN_iff, ← Bool.not_eq_false, isNaN_ofTrimmed_iff]
      intro hliteral
      rw [(isPrinted_of_isNumberLiteral hliteral _ hc).isPadding_eq_false] at hpadding
      cases hpadding

/-- A text is a number when what is left of it between the padding is a literal. Forms
that other readers take are not among these. -/
theorem ofText_isNumberLiteral (text : String) :
    (∃! core, IsCore isPadding text.toList core) ∧
    ∀ core, IsCore isPadding text.toList core →
      ((ofText text).isNaN = false ↔ IsNumberLiteral core) ∧
        (IsForeign core → ofText text = .nan) := by
  refine ⟨⟨_, isCore_trimWhile isPadding text.toList, fun core hcore => hcore.trimWhile_eq.symm⟩,
    fun core hcore => ?_⟩
  unfold ofText
  rw [hcore.trimWhile_eq]
  exact ⟨isNaN_ofTrimmed_iff, ofTrimmed_of_isForeign⟩

/-- A byte order mark is padding as well, and a sign before a radix is
foreign. -/
theorem ofText_isNumberLiteral_padded :
    IsCore isPadding "\uFEFF-.5e+1\n".toList "-.5e+1".toList ∧
    (ofText "\uFEFF-.5e+1\n").isNaN = false ∧ ofText " +0x1F" = .nan := by
  -- The cores of both texts, one of which is a literal and the other a foreign form.
  have hcore : IsCore isPadding "\uFEFF-.5e+1\n".toList "-.5e+1".toList :=
    ⟨⟨['\uFEFF'], ['\n'], rfl, by simp [isPadding], by simp [isPadding, isBlank]⟩,
      by simp [isPadding, isBlank], by simp [isPadding, isBlank]⟩
  have hcore' : IsCore isPadding " +0x1F".toList "+0x1F".toList :=
    ⟨⟨[' '], [], rfl, by simp [isPadding, isBlank], by simp⟩, by simp [isPadding, isBlank],
      by simp [isPadding, isBlank]⟩
  have hpower : IsPower ('e' :: (['+'] ++ ['1'])) :=
    .power (.inl rfl) (.inr (.inl rfl)) (List.cons_ne_nil _ _) (by simp)
  have hliteral : IsNumberLiteral (['-'] ++ ('.' :: ['5'] ++ 'e' :: (['+'] ++ ['1']))) :=
    .decimal (.inr (.inr rfl)) (.fraction (by simp) (List.cons_ne_nil _ _)) hpower
  have hmem : ('x', 16) ∈ radixLetters := by decide
  have hforeign : IsForeign (['+'] ++ '0' :: 'x' :: ['1', 'F']) :=
    .prefixed hmem (.inr (.inl rfl)) (List.cons_ne_nil _ _)
  exact ⟨hcore, (((ofText_isNumberLiteral _).2 _ hcore).1).2 hliteral,
    ((ofText_isNumberLiteral _).2 _ hcore').2 hforeign⟩

end Number

end Formula
