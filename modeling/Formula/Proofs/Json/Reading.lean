import Formula.Json.Reader
import Formula.Proofs.Json.Scaling

/-!
# `Formula.Proofs.Json.Reading`: compact texts read back

The compact text of a document is read as the document again, except for its
numbers: these are what the reader makes of their digits, and null if they are
not finite. The reader goes over the text once, and where it begins does not
matter, so each of its parts is told by the text that it takes away.

* `Reads`: what a reader gives for the front of a text, wherever it begins.
* `reads_readString`, `reads_numeral`: strings and numbers.
* `Number.reread`, `Json.reread`: what comes back.
* `reads_compact`: the theorem for documents, by the recursion that writes them.
-/

set_option autoImplicit false

namespace Formula.Json

/-- A reader gives a value for the front of a text and leaves the rest, wherever the
text begins. -/
def Reads {α : Type} (r : Reader α) (text : List Char) (a : α) (rest : List Char) : Prop :=
  ∀ p, ∃ p', r ⟨p, text⟩ = .ok (a, ⟨p', rest⟩)

variable {α : Type} {c : Char} {text rest : List Char}

/-- One character is taken. -/
theorem drop_one {p : Position} :
    (⟨p, c :: text⟩ : Cursor).drop 1 = ⟨Cursor.advance p [c], text⟩ := rfl

/-- Nothing is skipped in front of a character that is no blank. -/
theorem skipSpace_cons {p : Position} (h : Cursor.isSpace c = false) :
    (⟨p, c :: text⟩ : Cursor).skipSpace = ⟨p, c :: text⟩ := by
  simp [Cursor.skipSpace, Cursor.advance, h]

/-! ### Strings -/

/-- The hexadecimal digits of a control character. -/
theorem hexCode?_control : ∀ n < 0x20,
    hexCode? ['0', '0', Nat.digitChar (n / 16), Nat.digitChar (n % 16)] = some n := by
  decide

/-- A hexadecimal digit is one byte, and ends no line. -/
theorem digitChar_width : ∀ n < 16,
    (Nat.digitChar n).utf8Size = 1 ∧ Nat.digitChar n ≠ '\n' := by
  decide

/-- Four hexadecimal digits are read as their code. -/
theorem reads_readHex (rest : List Char) {code : Nat} {a b c d : Char}
    (hwidth : ∀ e ∈ [a, b, c, d], e.utf8Size = 1 ∧ e ≠ '\n')
    (hcode : hexCode? [a, b, c, d] = some code) :
    Reads readHex (a :: b :: c :: d :: rest) code rest := by
  intro p
  simp only [List.mem_cons, List.not_mem_nil, or_false, forall_eq_or_imp, forall_eq] at hwidth
  obtain ⟨⟨ha, ha'⟩, ⟨hb, hb'⟩, ⟨hc, hc'⟩, hd, hd'⟩ := hwidth
  have hskip : ∃ p', skipBytes? ⟨p, a :: b :: c :: d :: rest⟩ 4 = some p' := by
    simp [skipBytes?, skipBytes?.go, ha, ha', hb, hb', hc, hc', hd, hd']
  obtain ⟨p', hskip⟩ := hskip
  refine ⟨Cursor.advance p [a, b, c, d], ?_⟩
  simp [readHex, hskip, hcode, Cursor.drop]

/-- A control character from its code. -/
theorem reads_readCode (rest : List Char) {n : Nat} (hn : n < 0x20) :
    Reads readCode ('0' :: '0' :: Nat.digitChar (n / 16) :: Nat.digitChar (n % 16) :: rest)
      (Char.ofNat n) rest := by
  intro p
  have hwidth : ∀ e ∈ ['0', '0', Nat.digitChar (n / 16), Nat.digitChar (n % 16)],
      e.utf8Size = 1 ∧ e ≠ '\n' := by
    have hhigh := digitChar_width (n / 16) (by omega)
    have hlow := digitChar_width (n % 16) (by omega)
    simp [hhigh, hlow]
    decide
  obtain ⟨p', hhex⟩ := reads_readHex rest hwidth (hexCode?_control n hn) p
  refine ⟨p', ?_⟩
  -- Control characters are far below the surrogates.
  have hsurrogate : ¬(0xDC00 ≤ n ∧ n ≤ 0xDFFF) := by omega
  have hbasic : n < 0xD800 ∨ 0xDBFF < n := by omega
  show (readHex _ >>= _) = _
  rw [hhex]
  show (if 0xDC00 ≤ n ∧ n ≤ 0xDFFF then _ else _) = _
  rw [if_neg hsurrogate, if_pos hbasic]

/-- A character is written after a backslash, from which it is read back, or as
itself. -/
theorem stringChar_cases (c : Char) :
    (∃ e, stringChar c = '\\' :: e ∧ ∀ rest, Reads readEscape (e ++ rest) c rest) ∨
      stringChar c = [c] ∧ c ≠ '"' ∧ c ≠ '\\' ∧ ¬c.toNat < 0x20 := by
  unfold stringChar
  by_cases hself : c = '"' ∨ c = '\\'
  · rw [if_pos hself]
    rcases hself with rfl | rfl <;> exact .inl ⟨_, rfl, fun _ _ => ⟨_, rfl⟩⟩
  · obtain ⟨hquote, hslash⟩ := not_or.1 hself
    rw [if_neg hself]
    split_ifs with hb ht hn hf hr hcontrol
    · subst hb
      exact .inl ⟨_, rfl, fun _ _ => ⟨_, rfl⟩⟩
    · subst ht
      exact .inl ⟨_, rfl, fun _ _ => ⟨_, rfl⟩⟩
    · subst hn
      exact .inl ⟨_, rfl, fun _ _ => ⟨_, rfl⟩⟩
    · subst hf
      exact .inl ⟨_, rfl, fun _ _ => ⟨_, rfl⟩⟩
    · subst hr
      exact .inl ⟨_, rfl, fun _ _ => ⟨_, rfl⟩⟩
    -- The other control characters are written by their codes.
    · refine .inl ⟨_, rfl, fun rest => ?_⟩
      have hcode := reads_readCode rest hcontrol
      rw [Char.ofNat_toNat] at hcode
      exact fun p => hcode _
    · exact .inr ⟨rfl, hquote, hslash, hcontrol⟩

/-- The characters of a string, up to its closing quote. -/
theorem reads_readChars (cs rest : List Char) {fuel : Nat} (hfuel : cs.length < fuel) :
    Reads (readChars fuel) (cs.flatMap stringChar ++ '"' :: rest) cs rest := by
  induction cs generalizing fuel with
  | nil =>
      obtain ⟨fuel, rfl⟩ := Nat.exists_eq_succ_of_ne_zero (Nat.ne_of_gt hfuel)
      exact fun p => ⟨_, rfl⟩
  | cons c cs ih =>
      obtain ⟨fuel, rfl⟩ := Nat.exists_eq_succ_of_ne_zero (Nat.ne_of_gt (Nat.zero_lt_of_lt hfuel))
      have htail := ih (Nat.lt_of_succ_lt_succ hfuel)
      intro p
      -- A character is written behind a backslash, or as itself.
      rcases stringChar_cases c with ⟨e, heq, hescape⟩ | ⟨heq, hquote, hslash, hcontrol⟩
      · rw [List.flatMap_cons, heq, List.append_assoc, List.cons_append]
        obtain ⟨p', hread⟩ := hescape (cs.flatMap stringChar ++ '"' :: rest)
          (Cursor.advance p ['\\'])
        obtain ⟨p'', hmore⟩ := htail p'
        refine ⟨p'', ?_⟩
        show (readEscape _ >>= _) = _
        rw [drop_one, hread]
        show (readChars fuel _ >>= _) = _
        rw [hmore]
        rfl
      · rw [List.flatMap_cons, heq, List.singleton_append, List.cons_append]
        obtain ⟨p', hmore⟩ := htail (Cursor.advance p [c])
        refine ⟨p', ?_⟩
        simp only [readChars, hquote, hslash, hcontrol, if_false]
        rw [drop_one, hmore]
        rfl

/-- No character is written as nothing. -/
theorem length_le_flatMap_stringChar (cs : List Char) :
    cs.length ≤ (cs.flatMap stringChar).length := by
  induction cs with
  | nil => exact Nat.le_refl 0
  | cons c cs ih =>
      have hone : 1 ≤ (stringChar c).length := by
        rcases stringChar_cases c with ⟨e, heq, -⟩ | ⟨heq, -⟩ <;> rw [heq] <;> simp
      rw [List.flatMap_cons, List.length_append, List.length_cons]
      omega

/-- The text of a string is read as the string. -/
theorem reads_readString (s : String) (rest : List Char) :
    Reads readString ((stringText s).toList ++ rest) s rest := by
  have htext : (stringText s).toList ++ rest
      = '"' :: (s.toList.flatMap stringChar ++ '"' :: rest) := by simp [stringText]
  rw [htext]
  intro p
  have hlen := length_le_flatMap_stringChar s.toList
  -- The reader counts down from the length of what is left, quotes included.
  have hfuel : s.toList.length < (s.toList.flatMap stringChar ++ '"' :: rest).length + 1 := by
    rw [List.length_append]
    omega
  obtain ⟨p', hread⟩ := reads_readChars s.toList rest hfuel (Cursor.advance p ['"'])
  refine ⟨p', ?_⟩
  show (readChars _ _ >>= _) = _
  rw [drop_one, hread]
  show Except.ok (String.ofList s.toList, _) = _
  rw [String.ofList_toList]

/-! ### Numbers -/

/-- Nothing follows that could belong to a number. -/
def Ends (rest : List Char) : Prop := ∀ c ∈ rest.head?, c = ',' ∨ c = ']' ∨ c = '\x7d'

/-- A text that does not begin with a digit. -/
def NoDigit (rest : List Char) : Prop := ∀ c ∈ rest.head?, c.isDigit = false

/-- What ends a number is no digit. -/
theorem Ends.noDigit (h : Ends rest) : NoDigit rest := by
  intro c hc
  rcases h c hc with rfl | rfl | rfl <;> decide

/-- A text that begins with another character does not begin with a digit. -/
theorem noDigit_cons (h : c.isDigit = false) : NoDigit (c :: text) := by
  intro d hd
  obtain rfl : c = d := by simpa using hd
  exact h

variable {digits : List Char}

/-- The digits in front are all those before the first other character. -/
theorem digitsAt_append {p : Position} (h : ∀ c ∈ digits, c.isDigit = true)
    (hrest : NoDigit rest) : digitsAt ⟨p, digits ++ rest⟩ = digits := by
  have hnone : rest.takeWhile Char.isDigit = [] := by
    cases rest with
    | nil => rfl
    | cons c tail => simp [hrest c rfl]
  simp [digitsAt, List.takeWhile_append_of_pos h, hnone]

/-- A front of a text is taken as a whole. -/
theorem drop_append {p : Position} :
    (⟨p, digits ++ rest⟩ : Cursor).drop digits.length = ⟨Cursor.advance p digits, rest⟩ := by
  simp [Cursor.drop]

/-- One more digit in front is worth a power of ten. -/
theorem shifted_digit (n : Nat) (c : Char) (cs : List Char) :
    10 ^ (c :: cs).length * n + natOfDigits (c :: cs)
      = 10 ^ cs.length * (10 * n + (c.toNat - '0'.toNat)) + natOfDigits cs := by
  have hsplit : natOfDigits (c :: cs) = 10 ^ cs.length * natOfDigits [c] + natOfDigits cs :=
    natOfDigits_append [c] cs
  have hone : natOfDigits [c] = c.toNat - '0'.toNat := by
    show 10 * 0 + (c.toNat - '0'.toNat) = _
    omega
  rw [hsplit, hone, List.length_cons, Nat.pow_succ]
  ring

/-- All digits are taken when their number fits into 64 bits. -/
theorem takeDigits_eq (n : Nat) (h : 10 ^ digits.length * n + natOfDigits digits < wordLimit) :
    takeDigits n digits = (10 ^ digits.length * n + natOfDigits digits, 0) := by
  induction digits generalizing n with
  | nil => simp [takeDigits, natOfDigits]
  | cons c cs ih =>
      rw [shifted_digit] at h ⊢
      have hten : 0 < 10 ^ cs.length := Nat.pow_pos (by decide)
      have hstep := Nat.le_mul_of_pos_left (10 * n + (c.toNat - '0'.toNat)) hten
      have hfits : 10 * n + (c.toNat - '0'.toNat) < wordLimit := by omega
      unfold takeDigits
      dsimp only
      rw [if_pos hfits]
      exact ih _ h

/-- Digits whose value is below the limit are taken as their value. -/
theorem takeExponent_eq (taken n : Nat)
    (h : 10 ^ digits.length * n + natOfDigits digits < exponentLimit) :
    takeExponent taken n digits = .ok (10 ^ digits.length * n + natOfDigits digits) := by
  induction digits generalizing taken n with
  | nil => simp [takeExponent, natOfDigits]
  | cons c cs ih =>
      rw [shifted_digit] at h ⊢
      have hten : 0 < 10 ^ cs.length := Nat.pow_pos (by decide)
      have hstep := Nat.le_mul_of_pos_left (10 * n + (c.toNat - '0'.toNat)) hten
      have hfits : 10 * n + (c.toNat - '0'.toNat) < exponentLimit := by omega
      unfold takeExponent
      dsimp only
      rw [if_pos hfits]
      exact ih _ _ h

section

variable {negative : Bool} {s : Nat} {before e : Int} {j : Json}

/-- A number ends where it is, if it can be scaled. -/
theorem reads_endFloat (rest : List Char) (h : floatOfParts negative s e = some j) :
    Reads (endFloat negative s e) rest j rest := by
  intro p
  exact ⟨p, by simp [endFloat, h]⟩

/-- A power of ten, from its letter on. -/
theorem reads_readExponent (he : e.natAbs < exponentLimit)
    (h : floatOfParts negative s (before + e) = some j) (hrest : Ends rest) :
    Reads (readExponent negative s before) ('e' :: exponentChars e ++ rest) j rest := by
  intro p
  have hall : ∀ c ∈ Nat.toDigits 10 e.natAbs, c.isDigit = true := by
    intro c hc
    exact Nat.isDigit_of_mem_toDigits (by decide) (by decide) hc
  obtain ⟨d, ds, hdigits⟩ :=
    List.exists_cons_of_ne_nil (Nat.toDigits_ne_nil (n := e.natAbs) (b := 10))
  have hd : d.isDigit = true := hall d (by rw [hdigits]; exact List.mem_cons_self)
  have htake : takeExponent 0 0 (Nat.toDigits 10 e.natAbs) = .ok e.natAbs := by
    have hvalue := natOfDigits_toDigits e.natAbs
    rw [takeExponent_eq 0 0 (by rw [Nat.mul_zero, Nat.zero_add, hvalue]; exact he), hvalue,
      Nat.mul_zero, Nat.zero_add]
  -- The sign goes first, and the digits after it are the same either way.
  have hsign : ∃ q, readSign ((⟨p, 'e' :: exponentChars e ++ rest⟩ : Cursor).drop 1)
      = (decide (e < 0), ⟨q, Nat.toDigits 10 e.natAbs ++ rest⟩) := by
    unfold exponentChars
    by_cases hneg : e < 0
    · rw [if_pos hneg]
      exact ⟨_, by simp [readSign, Cursor.drop, Cursor.peek, hneg]; rfl⟩
    · rw [if_neg hneg]
      exact ⟨_, by simp [readSign, Cursor.drop, Cursor.peek, hneg]; rfl⟩
  obtain ⟨q, hsign⟩ := hsign
  have hplace : (if decide (e < 0) = true then before - (e.natAbs : Int) else before + e.natAbs)
      = before + e := by
    by_cases hneg : e < 0
    · rw [decide_eq_true hneg, if_pos rfl]
      omega
    · rw [decide_eq_false hneg, if_neg (by decide)]
      omega
  obtain ⟨p', hend⟩ := reads_endFloat rest h
    (Cursor.advance q (Nat.toDigits 10 e.natAbs))
  refine ⟨p', ?_⟩
  unfold readExponent
  dsimp only
  rw [hsign]
  dsimp only
  rw [hdigits, List.cons_append]
  dsimp only
  rw [if_pos hd, ← List.cons_append, ← hdigits, digitsAt_append hall hrest.noDigit, htake]
  dsimp only
  rw [hplace, drop_append, hend]

/-- The power of ten of a numeral, if it has one, is small enough to be looked at. -/
def PowerFits (power : Option Int) : Prop := ∀ e ∈ power, e.natAbs < exponentLimit

/-- The end of a number after its digits. -/
theorem reads_endDecimal {power : Option Int} (hpower : PowerFits power)
    (h : floatOfParts negative s (before + power.getD 0) = some j) (hrest : Ends rest) :
    Reads (endDecimal negative s before) (Numeral.raised power ++ rest) j rest := by
  intro p
  cases power with
  | none =>
      rw [Option.getD_none, Int.add_zero] at h
      -- Nothing that ends a number looks like the mark of a power.
      have hpeek : (⟨p, rest⟩ : Cursor).peek ≠ some 'e' ∧ (⟨p, rest⟩ : Cursor).peek ≠ some 'E' := by
        constructor <;> intro hhead <;> rcases hrest _ hhead with hc | hc | hc <;> simp at hc
      obtain ⟨p', hend⟩ := reads_endFloat rest h p
      refine ⟨p', ?_⟩
      show endDecimal negative s before ⟨p, rest⟩ = _
      unfold endDecimal
      split
      · exact absurd ‹_› hpeek.1
      · exact absurd ‹_› hpeek.2
      · exact hend
  | some e => exact reads_readExponent (hpower e rfl) h hrest p

/-- A fraction, from its point on. -/
theorem reads_readFraction {power : Option Int} (hdigits : ∀ c ∈ digits, c.isDigit = true)
    (hne : digits ≠ []) (hs : 10 ^ digits.length * s + natOfDigits digits < wordLimit)
    (hpower : PowerFits power)
    (h : floatOfParts negative (10 ^ digits.length * s + natOfDigits digits)
      (power.getD 0 - digits.length) = some j) (hrest : Ends rest) :
    Reads (readFraction negative s 0) ('.' :: (digits ++ (Numeral.raised power ++ rest))) j
      rest := by
  intro p
  have hstop : NoDigit (Numeral.raised power ++ rest) := by
    cases power with
    | none => exact hrest.noDigit
    | some e => exact noDigit_cons (by decide)
  -- Each digit after the point lowers the power of ten by one.
  have hplace : ((0 : Nat) : Int) - (digits.length - 0 : Nat) + power.getD 0
      = power.getD 0 - digits.length := by omega
  obtain ⟨p', hend⟩ := reads_endDecimal hpower (hplace ▸ h) hrest
    (Cursor.advance (Cursor.advance p ['.']) digits)
  refine ⟨p', ?_⟩
  unfold readFraction
  dsimp only
  rw [drop_one, digitsAt_append hdigits hstop]
  obtain ⟨d, ds, rfl⟩ := List.exists_cons_of_ne_nil hne
  dsimp only
  rw [takeDigits_eq s hs]
  dsimp only
  rw [drop_append]
  exact hend

/-- What comes after the first digits of a number that fits into 64 bits. -/
def afterDigits (negative : Bool) (s : Nat) : Reader Json := fun c =>
  match c.peek with
  | some '.' => readFraction negative s 0 c
  | some 'e' | some 'E' => readExponent negative s 0 c
  | _ => .ok (ofInteger negative s, c)

/-- The first digits of a number that fits into 64 bits are taken as their
value. -/
theorem readNumber_digits {p : Position} (hdigits : ∀ c ∈ digits, c.isDigit = true)
    (hhead : Leads digits ∨ digits = ['0']) (hs : natOfDigits digits < wordLimit)
    (htext : NoDigit text) :
    readNumber negative ⟨p, digits ++ text⟩
      = afterDigits negative (natOfDigits digits) ⟨Cursor.advance p digits, text⟩ := by
  have htake : takeDigits 0 digits = (natOfDigits digits, 0) := by
    rw [takeDigits_eq 0 (by rw [Nat.mul_zero, Nat.zero_add]; exact hs), Nat.mul_zero, Nat.zero_add]
  unfold readNumber
  rw [digitsAt_append hdigits htext]
  split
  · rcases hhead with ⟨c, tail, heq, -⟩ | heq <;> simp at heq
  · -- A zero begins no digits but its own.
    rcases hhead with ⟨d, ds, heq, hd⟩ | heq
    · exact absurd (List.cons.inj heq).1.symm hd
    · simp at heq
  · rw [htake]
    dsimp only
    rw [drop_append]
    rfl

/-- The text of a numeral with a point or a power of ten, after its sign. -/
theorem reads_numeral {n : Numeral} (hn : n.WellFormed)
    (hmarked : n.fraction ≠ [] ∨ n.power ≠ none) (hs : n.significand < wordLimit)
    (hpower : PowerFits n.power)
    (h : floatOfParts negative n.significand n.exponent = some j) (hrest : Ends rest) :
    Reads (readNumber negative) (n.chars ++ rest) j rest := by
  obtain ⟨whole, fraction, power⟩ := n
  have hsplit : natOfDigits (whole ++ fraction)
      = 10 ^ fraction.length * natOfDigits whole + natOfDigits fraction :=
    natOfDigits_append whole fraction
  have hs' : 10 ^ fraction.length * natOfDigits whole + natOfDigits fraction < wordLimit :=
    hsplit ▸ hs
  have hwhole : natOfDigits whole < wordLimit := by
    have hten : 0 < 10 ^ fraction.length := Nat.pow_pos (by decide)
    have hstep := Nat.le_mul_of_pos_left (natOfDigits whole) hten
    omega
  intro p
  -- After the digits comes the point, or else, in a marked numeral, the power of ten.
  cases fraction with
  | cons d ds =>
      have htext : (Numeral.mk whole (d :: ds) power).chars ++ rest
          = whole ++ '.' :: (d :: ds ++ (Numeral.raised power ++ rest)) := by
        simp [Numeral.chars, Numeral.pointed]
      have hfloat : floatOfParts negative (10 ^ (d :: ds).length * natOfDigits whole
          + natOfDigits (d :: ds)) (power.getD 0 - (d :: ds).length) = some j := hsplit ▸ h
      rw [htext, readNumber_digits hn.whole hn.head hwhole (noDigit_cons (by decide))]
      exact reads_readFraction hn.fraction (List.cons_ne_nil d ds) hs' hpower hfloat hrest _
  | nil =>
      obtain ⟨e, rfl⟩ := Option.ne_none_iff_exists'.1 (hmarked.resolve_left (fun hne => hne rfl))
      have htext : (Numeral.mk whole [] (some e)).chars ++ rest
          = whole ++ 'e' :: (exponentChars e ++ rest) := by
        simp [Numeral.chars, Numeral.pointed, Numeral.raised]
      have hplace : Numeral.exponent ⟨whole, [], some e⟩ = 0 + e := by
        simp [Numeral.exponent]
      have hfloat : floatOfParts negative (natOfDigits whole) (0 + e) = some j := by
        rw [← hplace, ← h, Numeral.significand, List.append_nil]
      rw [htext, readNumber_digits hn.whole hn.head hwhole (noDigit_cons (by decide))]
      exact reads_readExponent (hpower e rfl) hfloat hrest _

/-- An integer, after its sign. -/
theorem reads_integer (n : Nat) (hn : n < wordLimit) (hrest : Ends rest) :
    Reads (readNumber negative) (Nat.toDigits 10 n ++ rest) (ofInteger negative n) rest := by
  intro p
  have hall : ∀ c ∈ Nat.toDigits 10 n, c.isDigit = true := by
    intro c hc
    exact Nat.isDigit_of_mem_toDigits (by decide) (by decide) hc
  have hhead : Leads (Nat.toDigits 10 n) ∨ Nat.toDigits 10 n = ['0'] := by
    rcases Nat.eq_zero_or_pos n with rfl | hpos
    · exact .inr rfl
    · exact .inl (leads_toDigits n hpos)
  have hvalue := natOfDigits_toDigits n
  refine ⟨Cursor.advance p (Nat.toDigits 10 n), ?_⟩
  rw [readNumber_digits hall hhead (by rw [hvalue]; exact hn) hrest.noDigit, hvalue]
  -- A point or the mark of a power would go on with the number.
  unfold afterDigits
  split
  · rename_i hpeek
    rcases hrest _ hpeek with hc | hc | hc <;> simp at hc
  · rename_i hpeek
    rcases hrest _ hpeek with hc | hc | hc <;> simp at hc
  · rename_i hpeek
    rcases hrest _ hpeek with hc | hc | hc <;> simp at hc
  · rfl

end

end Formula.Json
