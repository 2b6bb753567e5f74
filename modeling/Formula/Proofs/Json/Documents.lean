import Formula.Proofs.Json.Reading

/-!
# `Formula.Proofs.Json.Documents`: documents read back

The compact text of a document is read as the document again, except for its
numbers: these come back as what the reader makes of their digits, or as null if
they are not finite. The recursion is the one that writes the text, and the depth
to which a reader nests has to reach as deep as the document.

* `Number.reread`, `Json.reread`: what comes back.
* `Number.isSome_reread`: a number comes back as a number if it is finite.
* `Json.nesting`: how deep arrays and objects are nested in one another.
* `reads_compact`: the compact text of a document is read as it comes back.
-/

set_option autoImplicit false

namespace Formula

/-! ### What comes back -/

/-- The number as which a number is read from its JSON text; nothing where that is
null. -/
def Number.reread : Number → Option Number
  | .nan => none
  | .infinite _ => none
  | .finite negative m =>
    if m.quanta = 0 then some (.finite negative m)
    else
      (Json.scale 4 (.ofNat (jsonLayout.numeral m.quanta).significand)
        (jsonLayout.numeral m.quanta).exponent).map fun x => if negative then x.neg else x

/-- A number comes back as a number exactly if it is finite. -/
theorem Number.isSome_reread (x : Number) : x.reread.isSome = x.isFinite := by
  cases x with
  | nan => rfl
  | infinite negative => rfl
  | finite negative m =>
      unfold Number.reread
      dsimp only
      -- Zero is written without any steps; every other finite number has a scale.
      by_cases hzero : m.quanta = 0
      · rw [if_pos hzero]
        rfl
      · obtain ⟨y, hy⟩ := Json.exists_scale m.fits (Nat.pos_of_ne_zero hzero)
        rw [if_neg hzero, hy]
        rfl

namespace Json

mutual

/-- The document as which the compact text of a document is read. -/
def reread : Json → Json
  | .null => .null
  | .bool b => .bool b
  | .integer n => .integer n
  | .float x => (x.reread.map .float).getD .null
  | .string s => .string s
  | .array elements => .array (rereads elements)
  | .object members => .object (rereadMembers members)

/-- The documents as which documents are read. -/
def rereads : List Json → List Json
  | [] => []
  | j :: js => j.reread :: rereads js

/-- The members as which members are read. -/
def rereadMembers : List (String × Json) → List (String × Json)
  | [] => []
  | (name, j) :: ms => (name, j.reread) :: rereadMembers ms

end

mutual

/-- How many arrays and objects are nested in one another. -/
def nesting : Json → Nat
  | .array elements => nestingOfEach elements + 1
  | .object members => nestingOfMembers members + 1
  | _ => 0

/-- The deepest nesting of some documents. -/
def nestingOfEach : List Json → Nat
  | [] => 0
  | j :: js => max j.nesting (nestingOfEach js)

/-- The deepest nesting of some members. -/
def nestingOfMembers : List (String × Json) → Nat
  | [] => 0
  | (_, j) :: ms => max j.nesting (nestingOfMembers ms)

end

mutual

/-- All integers fit into 64 bits, with a sign or without. -/
def InRange : Json → Prop
  | .integer n => -(Nat.pow 2 63 : Nat) ≤ n ∧ n < wordLimit
  | .array elements => InRangeEach elements
  | .object members => InRangeMembers members
  | _ => True

/-- All integers in some documents fit. -/
def InRangeEach : List Json → Prop
  | [] => True
  | j :: js => j.InRange ∧ InRangeEach js

/-- All integers in some members fit. -/
def InRangeMembers : List (String × Json) → Prop
  | [] => True
  | (_, j) :: ms => j.InRange ∧ InRangeMembers ms

end

/-! ### Scalars -/

/-- A character that begins neither an array nor an object, and ends none. -/
def ScalarStart (c : Char) : Prop :=
  Cursor.isSpace c = false ∧ c ∉ ['[', ']', '\x7b', '\x7d', ',']

/-- A text that is read as a scalar document. -/
structure IsScalar (text : List Char) (j : Json) : Prop where
  start : ∃ c tail, text = c :: tail ∧ ScalarStart c
  reads : ∀ rest, Ends rest → Reads readScalar (text ++ rest) j rest

variable {rest : List Char}

/-- The word for nothing is a scalar. -/
theorem isScalar_null : IsScalar "null".toList .null :=
  ⟨⟨'n', _, rfl, by decide, by decide⟩, fun _ _ _ => ⟨_, rfl⟩⟩

/-- So are the two words for truth values. -/
theorem isScalar_bool (b : Bool) : IsScalar (Json.bool b).compact.toList (.bool b) := by
  cases b with
  | true => exact ⟨⟨'t', _, rfl, by decide, by decide⟩, fun _ _ _ => ⟨_, rfl⟩⟩
  | false => exact ⟨⟨'f', _, rfl, by decide, by decide⟩, fun _ _ _ => ⟨_, rfl⟩⟩

/-- A string in its quotes is a scalar. -/
theorem isScalar_string (s : String) : IsScalar (stringText s).toList (.string s) := by
  have htext : (stringText s).toList = '"' :: (s.toList.flatMap stringChar ++ ['"']) := by
    simp [stringText]
  refine ⟨⟨'"', _, htext, by decide, by decide⟩, fun rest _ p => ?_⟩
  obtain ⟨p', hread⟩ := reads_readString s rest p
  refine ⟨p', ?_⟩
  rw [htext, List.cons_append] at hread ⊢
  show (readString _ >>= _) = _
  rw [hread]
  rfl

/-- A digit begins a scalar. -/
theorem scalarStart_of_isDigit {c : Char} (h : c.isDigit = true) : ScalarStart c := by
  refine ⟨?_, ?_⟩
  · cases hspace : Cursor.isSpace c with
    | false => rfl
    | true =>
        simp only [Cursor.isSpace, Bool.or_eq_true, beq_iff_eq] at hspace
        rcases hspace with ((rfl | rfl) | rfl) | rfl <;> exact absurd h (by decide)
  · intro hc
    simp only [List.mem_cons, List.not_mem_nil, or_false] at hc
    rcases hc with rfl | rfl | rfl | rfl | rfl <;> exact absurd h (by decide)

/-- A scalar that begins with a digit is read as a number. -/
theorem readScalar_of_isDigit {p : Position} {c : Char} {text : List Char} (h : c.isDigit = true) :
    readScalar ⟨p, c :: text⟩ = readNumber false ⟨p, c :: text⟩ := by
  -- The reader looks for these five characters first, and none is a digit.
  have hne : ∀ d ∈ ['n', 't', 'f', '-', '"'], c ≠ d := by
    intro d hd heq
    subst heq
    simp only [List.mem_cons, List.not_mem_nil, or_false] at hd
    rcases hd with rfl | rfl | rfl | rfl | rfl <;> exact absurd h (by decide)
  simp only [List.mem_cons, List.not_mem_nil, or_false, forall_eq_or_imp, forall_eq] at hne
  obtain ⟨hn, ht, hf, hminus, hquote⟩ := hne
  have hpeek : (⟨p, c :: text⟩ : Cursor).peek = some c := rfl
  unfold readScalar
  rw [hpeek]
  split <;> rename_i heq <;> simp only [Option.some.injEq, reduceCtorEq] at heq
  · exact absurd heq hn
  · exact absurd heq ht
  · exact absurd heq hf
  · exact absurd heq hminus
  · exact absurd heq hquote
  · subst heq
    rw [if_pos h]

/-- A number with a sign or without is a scalar. -/
theorem isScalar_of_reads (negative : Bool) {digits : List Char} {j : Json}
    (hhead : ∃ c tail, digits = c :: tail ∧ c.isDigit = true)
    (h : ∀ rest, Ends rest → Reads (readNumber negative) (digits ++ rest) j rest) :
    IsScalar ((if negative then ['-'] else []) ++ digits) j := by
  obtain ⟨c, tail, rfl, hc⟩ := hhead
  cases negative with
  | true =>
      refine ⟨⟨'-', _, rfl, by decide, by decide⟩, fun rest hrest p => ?_⟩
      exact h rest hrest (Cursor.advance p ['-'])
  | false =>
      refine ⟨⟨c, tail, rfl, scalarStart_of_isDigit hc⟩, fun rest hrest p => ?_⟩
      show ∃ p', readScalar ⟨p, c :: (tail ++ rest)⟩ = _
      rw [readScalar_of_isDigit hc]
      exact h rest hrest p

/-- An integer that fits into 64 bits. -/
theorem isScalar_integer {n : Int} (h : (Json.integer n).InRange) :
    IsScalar (Json.integer n).compact.toList (.integer n) := by
  have hdigits : ∀ m, ∃ c tail, Nat.toDigits 10 m = c :: tail ∧ c.isDigit = true := by
    intro m
    obtain ⟨c, tail, heq⟩ := List.exists_cons_of_ne_nil (Nat.toDigits_ne_nil (n := m) (b := 10))
    refine ⟨c, tail, heq, Nat.isDigit_of_mem_toDigits (b := 10) (n := m) (by decide) (by decide) ?_⟩
    rw [heq]
    exact List.mem_cons_self
  obtain ⟨hlow, hhigh⟩ := h
  cases n with
  | ofNat m =>
      have htext : (Json.integer (Int.ofNat m)).compact.toList = [] ++ Nat.toDigits 10 m :=
        Nat.toList_repr
      have hm : m < wordLimit := Int.ofNat_lt.1 hhigh
      rw [htext]
      exact isScalar_of_reads false (hdigits m) fun rest hrest =>
        reads_integer m hm hrest
  -- The least integer of 64 bits has a magnitude that only a negative one may have.
  | negSucc m =>
      have htext : (Json.integer (Int.negSucc m)).compact.toList
          = ['-'] ++ Nat.toDigits 10 (m + 1) := by
        show ("-" ++ Nat.repr (m + 1)).toList = _
        rw [String.toList_append, Nat.toList_repr]
        rfl
      have hm : m + 1 ≤ Nat.pow 2 63 := by omega
      have hlimit : Nat.pow 2 63 < wordLimit := by decide
      have hback : ofInteger true (m + 1) = .integer (Int.negSucc m) := by
        unfold ofInteger
        rw [if_neg (by decide), if_pos ⟨Nat.succ_pos m, hm⟩]
        rfl
      rw [htext]
      exact isScalar_of_reads true (hdigits (m + 1)) fun rest hrest =>
        hback ▸ reads_integer (m + 1) (by omega) hrest

/-! ### Numbers -/

/-- A number written without a power of ten has digits after the point. -/
theorem fraction_positional {ending digits : List Char} (hending : ending ≠ [])
    (hdigits : digits ≠ []) (leading : Int) :
    (Numeral.positional ending digits leading).fraction ≠ [] := by
  cases leading with
  | ofNat e =>
      unfold Numeral.positional
      dsimp only
      split
      · exact hending
      · rename_i hlen
        exact fun hnil => hlen (List.drop_eq_nil_iff.1 hnil)
  | negSucc k => simp [Numeral.positional, hdigits]

/-- A point or a power of ten shows that a number is no integer. -/
theorem numeral_marked {q : Nat} (hq : Fits q) (hpos : 0 < q) :
    (jsonLayout.numeral q).fraction ≠ [] ∨ (jsonLayout.numeral q).power ≠ none := by
  obtain ⟨⟨c, tail, heq, -⟩, -⟩ :=
    Significant.characters_spec (Layout.shortest_digits_pos jsonLayout.tie hq hpos)
  have hne : (shortest jsonLayout.tie q).characters ≠ [] := by simp [heq]
  rw [Layout.numeral]
  rcases jsonLayout.numeralOf_cases (shortest jsonLayout.tie q) with ⟨heq, -⟩ | heq <;> rw [heq]
  · exact .inl (fraction_positional (by decide) hne _)
  · exact .inr (Option.some_ne_none _)

/-- The first digit of a double is far from the limit of exponents. -/
theorem leadingExponent_natAbs_le {q : Nat} (hq : Fits q) : (leadingExponent q).natAbs ≤ 2098 := by
  -- As many digits as bits are more than enough, and no power of ten is computed.
  obtain ⟨k, hk, hlarge, hlimit⟩ : ∃ k, 0 < k ∧ k ≤ 2098 ∧ quantaLimit ≤ 10 ^ k := by
    refine ⟨rangeBits + quantumBits, by decide, by decide, ?_⟩
    unfold quantaLimit
    generalize rangeBits + quantumBits = bits
    exact Nat.pow_le_pow_left (by decide) bits
  have hunit : unitQuanta ≤ quantaLimit := by
    unfold unitQuanta quantaLimit
    exact pow_le_pow_of_le two_pos (Nat.le_add_left _ _)
  have hpos := unitQuanta_pos
  have hlt := hq.1
  have hbelow : q / unitQuanta < 10 ^ k :=
    (Nat.div_le_self q unitQuanta).trans_lt (hlt.trans_le hlimit)
  have habove : (unitQuanta - 1) / q < 10 ^ k :=
    (Nat.div_le_self (unitQuanta - 1) q).trans_lt (by omega)
  have hlow := decimalLength_le hk hbelow
  have hhigh := decimalLength_le hk habove
  unfold leadingExponent
  by_cases hlarge : unitQuanta ≤ q
  · rw [if_pos hlarge]
    omega
  · rw [if_neg hlarge]
    omega

/-- So is the first digit of the shortest decimal. -/
theorem leading_natAbs_lt {q : Nat} (hq : Fits q) (hpos : 0 < q) :
    (shortest jsonLayout.tie q).leading.natAbs < exponentLimit := by
  have hfirst := leadingExponent_natAbs_le hq
  obtain ⟨-, hborders, hge, hle⟩ := shortest_spec jsonLayout.tie hq hpos
  obtain ⟨n, hn⟩ := Int.le.dest hle
  have hdigits := (hborders.digits_bounds hpos hn.symm).2
  have hpow : 10 ^ (n + 1) < 10 ^ (n + 2) := Nat.pow_lt_pow_right (by decide) (by omega)
  have hlen := decimalLength_le (by omega) (hdigits.trans_lt hpow)
  have hone := decimalLength_pos (shortest jsonLayout.tie q).digits
  have hexponentLimit : exponentLimit = 2147483648 := by decide
  unfold Significant.leading
  generalize shortest jsonLayout.tie q = d at *
  omega

/-- A number written by position has no power of ten. -/
theorem power_positional (ending digits : List Char) (leading : Int) :
    (Numeral.positional ending digits leading).power = none := by
  cases leading with
  | ofNat e =>
      unfold Numeral.positional
      dsimp only
      split <;> rfl
  | negSucc k => rfl

/-- The power of ten that a double is written with is one that the reader
looks at. -/
theorem numeral_powerFits {q : Nat} (hq : Fits q) (hpos : 0 < q) :
    PowerFits (jsonLayout.numeral q).power := by
  have hleading := leading_natAbs_lt hq hpos
  rw [Layout.numeral]
  rcases jsonLayout.numeralOf_cases (shortest jsonLayout.tie q) with ⟨heq, -⟩ | heq <;> rw [heq]
  · rw [power_positional]
    exact fun e he => absurd he (by simp)
  · intro e he
    rw [← Option.some.inj he]
    exact hleading

/-- A well-formed numeral begins with a digit. -/
theorem exists_digit_of_wellFormed {n : Numeral} (hn : n.WellFormed) :
    ∃ c tail, n.chars = c :: tail ∧ c.isDigit = true := by
  obtain ⟨c, tail, hwhole⟩ : ∃ c tail, n.whole = c :: tail := by
    rcases hn.head with ⟨c, tail, heq, -⟩ | heq
    · exact ⟨c, tail, heq⟩
    · exact ⟨'0', [], heq⟩
  refine ⟨c, tail ++ (Numeral.pointed n.fraction ++ Numeral.raised n.power), ?_,
    hn.whole c (by rw [hwhole]; exact List.mem_cons_self)⟩
  rw [Numeral.chars, hwhole, List.cons_append]

/-- The text of a number that is not zero is a numeral with its sign. -/
theorem toList_jsonText {negative : Bool} {m : Magnitude} (hpos : m.quanta ≠ 0) :
    (Number.finite negative m).jsonText.toList
      = (if negative then ['-'] else []) ++ (jsonLayout.numeral m.quanta).chars := by
  obtain ⟨hchars, -, -⟩ :=
    Layout.numeral_spec Layout.jsonLayout_endsInZeros m.fits (Nat.pos_of_ne_zero hpos)
  unfold Number.jsonText Layout.write
  dsimp only
  rw [if_neg hpos, String.toList_ofList, hchars]

/-- The parts in which zero is written. -/
def zeroNumeral : Numeral := ⟨['0'], ['0'], none⟩

/-- Zero is written in one way, with its sign. -/
theorem toList_jsonText_zero {negative : Bool} {m : Magnitude} (hzero : m.quanta = 0) :
    (Number.finite negative m).jsonText.toList
      = (if negative then ['-'] else []) ++ zeroNumeral.chars := by
  unfold Number.jsonText Layout.write
  dsimp only
  rw [if_pos hzero]
  cases negative <;> decide

/-- Zero keeps its sign. -/
theorem floatOfParts_zero (negative : Bool) {m : Magnitude} (hzero : m.quanta = 0) :
    floatOfParts negative zeroNumeral.significand zeroNumeral.exponent
      = some (.float (.finite negative m)) := by
  have hscale : scale 4 (.ofNat zeroNumeral.significand) zeroNumeral.exponent
      = some Number.zero := by
    decide +kernel
  obtain ⟨q, hq⟩ := m
  obtain rfl : q = 0 := hzero
  unfold floatOfParts
  rw [hscale]
  cases negative <;> rfl

/-- The text of a number is read as the number that comes back, or as null. -/
theorem isScalar_float (x : Number) :
    IsScalar x.jsonText.toList ((x.reread.map .float).getD .null) := by
  match x with
  | .nan => exact isScalar_null
  | .infinite _ => exact isScalar_null
  | .finite negative m =>
      unfold Number.reread
      dsimp only
      -- Zero has no shortest digits, and is written by itself.
      by_cases hzero : m.quanta = 0
      · rw [if_pos hzero, toList_jsonText_zero hzero]
        have hwf : zeroNumeral.WellFormed :=
          ⟨isDigit_of_mem_zeros (n := 1), isDigit_of_mem_zeros (n := 1), .inr rfl⟩
        have hs : zeroNumeral.significand < wordLimit := by decide
        have hmarked : zeroNumeral.fraction ≠ [] := List.cons_ne_nil _ _
        have hpower : PowerFits zeroNumeral.power := fun e he => absurd he (Option.not_mem_none e)
        exact isScalar_of_reads negative (exists_digit_of_wellFormed hwf) fun rest hrest =>
          reads_numeral hwf (.inl hmarked) hs hpower (floatOfParts_zero negative hzero) hrest
      · have hpos := Nat.pos_of_ne_zero hzero
        obtain ⟨-, hwf, -⟩ := Layout.numeral_spec Layout.jsonLayout_endsInZeros m.fits hpos
        obtain ⟨y, hy⟩ := exists_scale m.fits hpos
        have hs : (jsonLayout.numeral m.quanta).significand < wordLimit :=
          (significand_numeral_le m.fits hpos).trans_lt (by decide)
        have hfloat : floatOfParts negative (jsonLayout.numeral m.quanta).significand
            (jsonLayout.numeral m.quanta).exponent
              = some (.float (if negative then y.neg else y)) := by
          unfold floatOfParts
          rw [hy]
          rfl
        rw [if_neg hzero, toList_jsonText hzero, hy]
        exact isScalar_of_reads negative (exists_digit_of_wellFormed hwf) fun rest hrest =>
          reads_numeral hwf (numeral_marked m.fits hpos) hs (numeral_powerFits m.fits hpos) hfloat
            hrest

/-! ### Lists of texts -/

/-- Texts with commas between them, and one before the first unless it is the
first. -/
def separated : Bool → List String → List Char
  | _, [] => []
  | first, t :: ts => (if first then [] else [',']) ++ (t.toList ++ separated false ts)

/-- Texts joined by commas are the texts with commas between them. -/
theorem toList_joined (ts : List String) : (Value.joined "," ts).toList = separated true ts := by
  -- After the first text the two agree up to one comma.
  have hmore : ∀ ts : List String, ts ≠ [] → separated false ts = ',' :: separated true ts := by
    intro ts hts
    cases ts with
    | nil => exact absurd rfl hts
    | cons t ts => rfl
  induction ts with
  | nil => rfl
  | cons t ts ih =>
      cases ts with
      | nil => simp [Value.joined, separated]
      | cons t' ts =>
          have hsplit : separated true (t :: t' :: ts)
              = t.toList ++ separated false (t' :: ts) := rfl
          rw [Value.joined, String.toList_append, String.toList_append, ih, hsplit,
            hmore _ (List.cons_ne_nil t' ts)]
          · simp
          · simp

/-- A text that a list can go on with. -/
def Begins (text : List Char) : Prop :=
  ∃ c tail, text = c :: tail ∧ Cursor.isSpace c = false ∧ c ≠ ']'

/-- A list can go on with a scalar. -/
theorem IsScalar.begins {text : List Char} {j : Json} (h : IsScalar text j) : Begins text := by
  obtain ⟨c, tail, rfl, hspace, hc⟩ := h.start
  exact ⟨c, tail, rfl, hspace, fun heq => hc (by simp [heq])⟩

/-- No text is empty, so there are at least as many characters as texts. -/
theorem length_le_separated {ts : List String} (first : Bool) (h : ∀ t ∈ ts, Begins t.toList) :
    ts.length ≤ (separated first ts).length := by
  induction ts generalizing first with
  | nil => exact Nat.zero_le _
  | cons t ts ih =>
      obtain ⟨c, tail, heq, -⟩ := h t List.mem_cons_self
      have hmore := ih false (fun t' ht' => h t' (List.mem_cons_of_mem t ht'))
      rw [separated, List.length_append, List.length_append, heq, List.length_cons,
        List.length_cons]
      omega

/-- A comma or the end of the list follows an element, and a number may end
there. -/
theorem ends_separated (ts : List String) {c : Char} (hc : c = ']' ∨ c = '\x7d') :
    Ends (separated false ts ++ c :: rest) := by
  intro d hd
  cases ts with
  | nil =>
      obtain rfl : c = d := by simpa [separated] using hd
      exact .inr hc
  | cons t ts =>
      obtain rfl : ',' = d := by simpa [separated] using hd
      exact .inl rfl

/-- To the next element, over a comma unless it is the first one. -/
theorem reads_nextElement {text : List Char} (first : Bool) (h : Begins text) :
    Reads (nextElement first) ((if first then [] else [',']) ++ text) true text := by
  obtain ⟨c, tail, rfl, hspace, hc⟩ := h
  intro p
  -- Before a first element there is no comma to go over.
  cases first with
  | true =>
      refine ⟨p, ?_⟩
      show nextElement true ⟨p, c :: tail⟩ = _
      unfold nextElement
      rw [skipSpace_cons hspace]
      simp [Cursor.peek]
  | false =>
      refine ⟨Cursor.advance p [','], ?_⟩
      show nextElement false ⟨p, ',' :: c :: tail⟩ = _
      unfold nextElement
      rw [skipSpace_cons (by decide)]
      have hpeek : (⟨p, ',' :: c :: tail⟩ : Cursor).peek = some ',' := rfl
      dsimp only
      rw [hpeek, drop_one, skipSpace_cons hspace]
      simp [Cursor.peek]

/-- The bracket ends the elements, before the first one and after any. -/
theorem reads_nextElement_end (first : Bool) (rest : List Char) :
    Reads (nextElement first) (']' :: rest) false (']' :: rest) := by
  intro p
  refine ⟨p, ?_⟩
  unfold nextElement
  rw [skipSpace_cons (by decide)]
  rfl

/-- To the next member, over a comma unless it is the first one. -/
theorem reads_nextMember {text : List Char} (first : Bool) :
    Reads (nextMember first) ((if first then [] else [',']) ++ '"' :: text) true ('"' :: text) := by
  intro p
  cases first with
  | true => exact ⟨p, rfl⟩
  | false => exact ⟨Cursor.advance p [','], rfl⟩

/-- The brace ends the members. -/
theorem reads_nextMember_end (first : Bool) (rest : List Char) :
    Reads (nextMember first) ('\x7d' :: rest) false ('\x7d' :: rest) := fun p => ⟨p, rfl⟩

/-- The colon after a name is gone over. -/
theorem reads_readColon (text : List Char) : Reads readColon (':' :: text) () text :=
  fun p => ⟨Cursor.advance p [':'], rfl⟩

/-! ### Documents -/

/-- An array is its elements between brackets. -/
theorem toList_compact_array (elements : List Json) : (Json.array elements).compact.toList
    = '[' :: (separated true (compacts elements) ++ [']']) := by
  simp [compact, ← toList_joined]

/-- An object is its members between braces. -/
theorem toList_compact_object (members : List (String × Json)) :
    (Json.object members).compact.toList
      = '\x7b' :: (separated true (compactMembers members) ++ ['\x7d']) := by
  simp [compact, ← toList_joined]

/-- A list can go on with any document. -/
theorem begins_compact {j : Json} (h : j.InRange) : Begins j.compact.toList := by
  cases j with
  | null => exact isScalar_null.begins
  | bool b => exact (isScalar_bool b).begins
  | integer n => exact (isScalar_integer h).begins
  | float x => exact (isScalar_float x).begins
  | string s => exact (isScalar_string s).begins
  | array elements => exact ⟨'[', _, toList_compact_array elements, by decide, by decide⟩
  | object members => exact ⟨'\x7b', _, toList_compact_object members, by decide, by decide⟩

/-- Every element has a text. -/
theorem length_compacts (js : List Json) : (compacts js).length = js.length := by
  induction js with
  | nil => rfl
  | cons j js ih => rw [compacts, List.length_cons, List.length_cons, ih]

/-- A list can go on with each of these texts. -/
theorem begins_compacts {js : List Json} (h : InRangeEach js) :
    ∀ t ∈ compacts js, Begins t.toList := by
  induction js with
  | nil => exact fun t ht => absurd ht List.not_mem_nil
  | cons j js ih =>
      intro t ht
      rcases List.mem_cons.1 ht with rfl | hmore
      · exact begins_compact h.1
      · exact ih h.2 t hmore

/-- Every member has a text. -/
theorem length_compactMembers (ms : List (String × Json)) :
    (compactMembers ms).length = ms.length := by
  induction ms with
  | nil => rfl
  | cons m ms ih => rw [compactMembers, List.length_cons, List.length_cons, ih]

/-- The text of a member begins with the quote of its name. -/
theorem toList_member (name : String) (j : Json) (more : List Char) :
    ∃ text, (stringText name).toList ++ ':' :: (j.compact.toList ++ more) = '"' :: text ∧
      (stringText name ++ ":" ++ j.compact).toList ++ more = '"' :: text := by
  refine ⟨name.toList.flatMap stringChar ++ ['"'] ++ ':' :: (j.compact.toList ++ more), ?_, ?_⟩
  · simp [stringText]
  · simp [stringText]

/-- A member with what comes after it: the way to it, its name, and its value as some
reader takes it. -/
theorem reads_member {α : Type} {r : Reader α} {a : α} {j : Json} (first : Bool) (name : String)
    (ms : List (String × Json)) (rest : List Char)
    (hvalue : ∀ more, Ends more → Reads r (j.compact.toList ++ more) a more) :
    ∃ named valued, Reads (nextMember first)
        (separated first (compactMembers ((name, j) :: ms)) ++ '\x7d' :: rest) true named ∧
      Reads readString named name (':' :: valued) ∧
      Reads r valued a (separated false (compactMembers ms) ++ '\x7d' :: rest) := by
  obtain ⟨text, hquote, htext⟩ :=
    toList_member name j (separated false (compactMembers ms) ++ '\x7d' :: rest)
  -- The comma, if there is one, stands before the quote of the name.
  have hfront : separated first (compactMembers ((name, j) :: ms)) ++ '\x7d' :: rest
      = (if first then [] else [',']) ++ '"' :: text := by
    rw [compactMembers, separated, List.append_assoc, List.append_assoc, htext]
  refine ⟨'"' :: text, j.compact.toList ++ (separated false (compactMembers ms) ++ '\x7d' :: rest),
    ?_, ?_, ?_⟩
  · rw [hfront]
    exact reads_nextMember first
  · rw [← hquote]
    exact reads_readString name _
  · exact hvalue _ (ends_separated _ (.inr rfl))

/-- A member begins with the quote of its name. -/
theorem begins_compactMembers (ms : List (String × Json)) :
    ∀ t ∈ compactMembers ms, Begins t.toList := by
  induction ms with
  | nil => exact fun t ht => absurd ht List.not_mem_nil
  | cons m ms ih =>
      obtain ⟨name, j⟩ := m
      intro t ht
      rcases List.mem_cons.1 ht with rfl | hmore
      · obtain ⟨text, -, htext⟩ := toList_member name j []
        rw [List.append_nil] at htext
        exact ⟨'"', text, htext, by decide, by decide⟩
      · exact ih t hmore

/-- A scalar is read at any depth. -/
theorem IsScalar.reads_read {text : List Char} {j : Json} (h : IsScalar text j) (depth : Nat)
    (hrest : Ends rest) : Reads (read depth) (text ++ rest) j rest := by
  have hreads := h.reads rest hrest
  obtain ⟨c, tail, rfl, hspace, hc⟩ := h.start
  intro p
  obtain ⟨p', hread⟩ := hreads p
  refine ⟨p', ?_⟩
  rw [List.cons_append] at hread ⊢
  -- A scalar begins with no bracket, so that nothing nested is entered.
  have hover : ∀ nested, readOver nested ⟨p, c :: (tail ++ rest)⟩
      = readScalar ⟨p, c :: (tail ++ rest)⟩ := by
    intro nested
    have hpeek : (⟨p, c :: (tail ++ rest)⟩ : Cursor).peek = some c := rfl
    unfold readOver
    rw [skipSpace_cons hspace]
    dsimp only
    rw [hpeek]
    split
    · rename_i heq
      exact absurd (by simp at heq; simp [heq]) hc
    · rename_i heq
      exact absurd (by simp at heq; simp [heq]) hc
    · rfl
  cases depth with
  | zero => exact (hover none).trans hread
  | succ depth => exact (hover (some (read depth))).trans hread

mutual

/-- The compact text of a document is read as the document that comes back. -/
theorem reads_compact : ∀ (j : Json), j.InRange → ∀ depth, j.nesting ≤ depth → ∀ rest, Ends rest →
    Reads (read depth) (j.compact.toList ++ rest) j.reread rest
  | .null, _, depth, _, _, hrest => isScalar_null.reads_read depth hrest
  | .bool b, _, depth, _, _, hrest => (isScalar_bool b).reads_read depth hrest
  | .integer _, hj, depth, _, _, hrest => (isScalar_integer hj).reads_read depth hrest
  | .float x, _, depth, _, _, hrest => (isScalar_float x).reads_read depth hrest
  | .string s, _, depth, _, _, hrest => (isScalar_string s).reads_read depth hrest
  | .array elements, hj, depth, hdepth, rest, _ => by
      obtain ⟨depth, rfl⟩ := Nat.exists_eq_add_one_of_ne_zero (n := depth)
        (by rw [nesting] at hdepth; omega)
      -- The reader has as much fuel as characters, and no more elements than characters.
      have hlen := length_le_separated true (begins_compacts hj)
      rw [length_compacts] at hlen
      have htext : (Json.array elements).compact.toList ++ rest
          = '[' :: (separated true (compacts elements) ++ ']' :: rest) := by
        simp [toList_compact_array]
      intro p
      obtain ⟨p', hread⟩ := reads_compacts elements hj depth (Nat.le_of_succ_le_succ hdepth) true
        ((separated true (compacts elements) ++ ']' :: rest).length + 1)
        (by rw [List.length_append]; omega) rest (Cursor.advance p ['['])
      refine ⟨Cursor.advance p' [']'], ?_⟩
      rw [htext, read, readOver, skipSpace_cons (by decide)]
      show (readElements (read depth) _ true _ >>= _) = _
      rw [drop_one, hread]
      rfl
  | .object members, hj, depth, hdepth, rest, _ => by
      obtain ⟨depth, rfl⟩ := Nat.exists_eq_add_one_of_ne_zero (n := depth)
        (by rw [nesting] at hdepth; omega)
      have hlen := length_le_separated true (begins_compactMembers members)
      rw [length_compactMembers] at hlen
      have htext : (Json.object members).compact.toList ++ rest
          = '\x7b' :: (separated true (compactMembers members) ++ '\x7d' :: rest) := by
        simp [toList_compact_object]
      intro p
      obtain ⟨p', hread⟩ := reads_compactMembers members hj depth (Nat.le_of_succ_le_succ hdepth)
        true ((separated true (compactMembers members) ++ '\x7d' :: rest).length + 1)
        (by rw [List.length_append]; omega) rest (Cursor.advance p ['\x7b'])
      refine ⟨Cursor.advance p' ['\x7d'], ?_⟩
      rw [htext, read, readOver, skipSpace_cons (by decide)]
      show (readMembers (read depth) _ true _ >>= _) = _
      rw [drop_one, hread]
      rfl

/-- The elements of an array, up to its closing bracket. -/
theorem reads_compacts : ∀ (js : List Json), InRangeEach js → ∀ depth, nestingOfEach js ≤ depth →
    ∀ first fuel, js.length < fuel → ∀ rest,
      Reads (readElements (read depth) fuel first) (separated first (compacts js) ++ ']' :: rest)
        (rereads js) (']' :: rest)
  | [], _, depth, _, first, fuel, hfuel, rest => by
      obtain ⟨fuel, rfl⟩ := Nat.exists_eq_add_one_of_ne_zero (Nat.ne_of_gt hfuel)
      intro p
      obtain ⟨p', hend⟩ := reads_nextElement_end first rest p
      refine ⟨p', ?_⟩
      show (nextElement first ⟨p, ']' :: rest⟩ >>= _) = _
      rw [hend]
      rfl
  | j :: js, ⟨hj, hjs⟩, depth, hdepth, first, fuel, hfuel, rest => by
      obtain ⟨fuel, rfl⟩ := Nat.exists_eq_add_one_of_ne_zero (n := fuel) (by omega)
      rw [nestingOfEach] at hdepth
      obtain ⟨c, tail, heq, hspace, hc⟩ := begins_compact hj
      have hbegins : Begins (j.compact.toList ++ (separated false (compacts js) ++ ']' :: rest)) :=
        ⟨c, _, by rw [heq, List.cons_append], hspace, hc⟩
      have htext : separated first (compacts (j :: js)) ++ ']' :: rest
          = (if first then [] else [','])
            ++ (j.compact.toList ++ (separated false (compacts js) ++ ']' :: rest)) := by
        rw [compacts, separated]
        simp
      -- Separator, element and the elements after it are read one after the other.
      intro p
      obtain ⟨p₁, hnext⟩ := reads_nextElement first hbegins p
      obtain ⟨p₂, hread⟩ := reads_compact j hj depth (by omega) _ (ends_separated _ (.inl rfl)) p₁
      obtain ⟨p₃, hmore⟩ := reads_compacts js hjs depth (by omega) false fuel
        (Nat.lt_of_succ_lt_succ hfuel) rest p₂
      refine ⟨p₃, ?_⟩
      rw [htext]
      show (nextElement first _ >>= _) = _
      rw [hnext]
      show (read depth _ >>= _) = _
      rw [hread]
      show (readElements (read depth) fuel false _ >>= _) = _
      rw [hmore]
      rfl

/-- The members of an object, up to its closing bracket. -/
theorem reads_compactMembers : ∀ (ms : List (String × Json)), InRangeMembers ms → ∀ depth,
    nestingOfMembers ms ≤ depth → ∀ first fuel, ms.length < fuel → ∀ rest,
      Reads (readMembers (read depth) fuel first)
        (separated first (compactMembers ms) ++ '\x7d' :: rest) (rereadMembers ms) ('\x7d' :: rest)
  | [], _, depth, _, first, fuel, hfuel, rest => by
      obtain ⟨fuel, rfl⟩ := Nat.exists_eq_add_one_of_ne_zero (Nat.ne_of_gt hfuel)
      intro p
      obtain ⟨p', hend⟩ := reads_nextMember_end first rest p
      refine ⟨p', ?_⟩
      show (nextMember first ⟨p, '\x7d' :: rest⟩ >>= _) = _
      rw [hend]
      rfl
  | (name, j) :: ms, ⟨hj, hms⟩, depth, hdepth, first, fuel, hfuel, rest => by
      obtain ⟨fuel, rfl⟩ := Nat.exists_eq_add_one_of_ne_zero (n := fuel) (by omega)
      rw [nestingOfMembers] at hdepth
      obtain ⟨named, valued, hnext, hname, hvalue⟩ := reads_member first name ms rest
        fun more hmore => reads_compact j hj depth (by omega) more hmore
      intro p
      -- Each reader begins where the one before it stopped.
      obtain ⟨p₁, hnext⟩ := hnext p
      obtain ⟨p₂, hname⟩ := hname p₁
      obtain ⟨p₃, hcolon⟩ := reads_readColon valued p₂
      obtain ⟨p₄, hvalue⟩ := hvalue p₃
      obtain ⟨p₅, hmore⟩ := reads_compactMembers ms hms depth (by omega) false fuel
        (Nat.lt_of_succ_lt_succ hfuel) rest p₄
      refine ⟨p₅, ?_⟩
      show (nextMember first _ >>= _) = _
      rw [hnext]
      show (readString _ >>= _) = _
      rw [hname]
      dsimp only [bind, Except.bind]
      rw [hcolon]
      dsimp only
      rw [hvalue]
      dsimp only
      rw [hmore]
      rfl

end

end Json

end Formula
