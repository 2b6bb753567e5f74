import Formula.Proofs.Syntax.Lexeme
import Formula.Proofs.Syntax.Reading
import Formula.Proofs.Text.Trimmed

/-!
# `Formula.Proofs.Syntax.Respelling`: texts with the same tokens are read alike

A scanner looks beyond its token to see that the token does not go on. In a
text with the same tokens the token does not go on either: what comes next
begins as before, or with a space, or with the other kind of quotes.

* `Spread`: how a text may change behind a token.
* `Token.number_spread`, `Token.identifier_spread`, `Token.word_spread`:
  numbers and words are read as before.
* `Phrase.spans_respelled`: what a text spells, any text with the same
  tokens spells.
* `parse_respelled`: so they have the same tree and are accepted under the
  same limits.
-/

set_option autoImplicit false

namespace Formula

/-! ### What may change behind a token -/

/-- The second text is the first one with more spaces, up to the first
quote. -/
inductive Spread : List Char → List Char → Prop
  | nil : Spread [] []
  | cons (c : Char) {cs cs' : List Char} (h : Spread cs cs') : Spread (c :: cs) (c :: cs')
  | space {c : Char} {cs cs' : List Char} (hc : Matcher.isSpace c = true) (h : Spread cs cs') :
    Spread cs (c :: cs')
  | quote {c d : Char} {cs cs' : List Char} (hc : c = '"' ∨ c = '\'') (hd : d = '"' ∨ d = '\'') :
    Spread (c :: cs) (d :: cs')

/-- The change may come later in the text. -/
theorem Spread.append {cs cs' : List Char} (h : Spread cs cs') (t : List Char) :
    Spread (t ++ cs) (t ++ cs') := by
  induction t with
  | nil => exact h
  | cons c t ih => exact .cons c ih

/-- Of two texts with the same tokens the second one has more spaces, up to
the first string. -/
theorem Respelled.spread {xs : List Lexeme} {cs cs' : List Char} (h : Respelled xs cs cs') :
    Spread cs cs' := by
  induction h with
  | done => exact .nil
  | inserted hc _ ih => exact .space hc ih
  | kept _ _ ih => exact .cons _ ih
  | @lexeme x t t' xs cs cs' ht ht' _ ih =>
      -- At a string the texts part, for the quotes may differ.
      cases x with
      | fixed text =>
          obtain rfl : t = text := ht.1
          obtain rfl : t' = t := ht'.1
          exact ih.append t'
      | string s =>
          obtain ⟨c, u, rfl, hc⟩ := Token.begins_of_string ht
          obtain ⟨d, u', rfl, hd⟩ := Token.begins_of_string ht'
          exact .quote hc hd

/-- Characters of a kind do not come to the front, if neither spaces nor
quotes are of the kind. -/
theorem Spread.head {cs cs' : List Char} {P : Char → Bool} (h : Spread cs cs')
    (hspace : ∀ c, Matcher.isSpace c = true → P c = false)
    (hquote : ∀ c ∈ ['"', '\''], P c = false) (hcs : ∀ c ∈ cs.head?, P c = false) :
    ∀ c ∈ cs'.head?, P c = false := by
  cases h with
  | nil => exact hcs
  | cons c _ => exact hcs
  | space hc _ =>
      rintro _ ⟨⟩
      exact hspace _ hc
  | quote _ hd =>
      rintro _ ⟨⟩
      exact hquote _ (by simpa using hd)

/-- What a computation finds of the four spaces. -/
theorem forall_isSpace {P : Char → Bool}
    (h : ([' ', '\t', '\r', '\n'].all fun c => !P c) = true) :
    ∀ c, Matcher.isSpace c = true → P c = false := by
  intro c hc
  simp only [Matcher.isSpace, Bool.or_eq_true, beq_iff_eq] at hc
  simp only [List.all_cons, List.all_nil, Bool.and_true, Bool.and_eq_true, Bool.not_eq_true'] at h
  rcases hc with ((rfl | rfl) | rfl) | rfl
  · exact h.1
  · exact h.2.1
  · exact h.2.2.1
  · exact h.2.2.2

namespace Token

variable {cs cs' rest rest' text : List Char}

/-! ### Words -/

/-- A word ends unless a further character of it follows. -/
theorem wordEnds_iff : wordEnds cs = true ↔ ∀ c ∈ cs.head?, isWordChar c = false := by
  cases cs <;> simp [wordEnds]

/-- Where a word ends, it ends with more spaces behind it too. -/
theorem wordEnds_spread (h : wordEnds cs = true) (hspread : Spread cs cs') :
    wordEnds cs' = true := by
  rw [wordEnds_iff] at h ⊢
  exact hspread.head (forall_isSpace rfl) (forall_mem_of_all rfl) h

/-- A word is as long as it can be. -/
theorem takeWhile_word (htext : ∀ c ∈ text, isWordChar c = true) (hrest : wordEnds rest = true) :
    (text ++ rest).takeWhile isWordChar = text := by
  have hnone : rest.takeWhile isWordChar = [] := by cases rest <;> simp_all [wordEnds]
  rw [List.takeWhile_append_of_pos htext, hnone, List.append_nil]

/-- Behind a word stands the rest. -/
theorem dropWhile_word (htext : ∀ c ∈ text, isWordChar c = true) (hrest : wordEnds rest = true) :
    (text ++ rest).dropWhile isWordChar = rest := by
  rw [List.dropWhile_append_of_pos htext]
  cases rest <;> simp_all [wordEnds]

/-- A word that is as long as it can be ends there. -/
theorem wordEnds_dropWhile (cs : List Char) : wordEnds (cs.dropWhile isWordChar) = true :=
  wordEnds_iff.2 (head?_dropWhile cs)

/-- Behind a name that is found the word has ended. -/
theorem wordEnds_of_propertyName {name : String} (h : propertyName cs = some (name, rest)) :
    wordEnds rest = true := by
  obtain ⟨c, cs, rfl, hc⟩ := begins_of_propertyName h
  rw [propertyName, if_pos hc] at h
  cases h
  exact wordEnds_dropWhile cs

/-- Whatever ends a word may stand behind it. -/
theorem propertyName_replace {name : String} (h : propertyName cs = some (name, rest))
    (hrest' : wordEnds rest' = true) :
    propertyName (name.toList ++ rest') = some (name, rest') := by
  obtain ⟨c, cs, rfl, hc⟩ := begins_of_propertyName h
  rw [propertyName, if_pos hc] at h
  cases h
  have hall : ∀ d ∈ cs.takeWhile isWordChar, isWordChar d = true :=
    List.all_eq_true.1 List.all_takeWhile
  rw [String.toList_ofList, List.cons_append, propertyName, if_pos hc, takeWhile_word hall hrest',
    dropWhile_word hall hrest']

/-- A text is found at its own front. -/
theorem dropText?_append_self (text rest : List Char) :
    dropText? text (text ++ rest) = some rest := by
  induction text with
  | nil => rfl
  | cons c text ih => simpa [dropText?] using ih

/-- A word is found if nothing makes it longer. -/
theorem word_append_self (fixed : String) (hrest : wordEnds rest = true) :
    word fixed (fixed.toList ++ rest) = some ((), rest) := by
  rw [word, dropText?_append_self]
  simp [hrest]

/-- Behind a word that is found it has ended. -/
theorem wordEnds_of_word {fixed : String} (h : word fixed cs = some ((), rest)) :
    wordEnds rest = true := by
  rw [word] at h
  split at h
  · split at h
    · cases h
      assumption
    · cases h
  · cases h

/-- Of two words at the front of a text, each as long as it can be, one is the
other. -/
theorem eq_of_word {fixed : String} (hfixed : ∀ c ∈ fixed.toList, isWordChar c = true)
    (htext : ∀ c ∈ text, isWordChar c = true) (hrest : wordEnds rest = true)
    (h : word fixed (text ++ rest) = some ((), rest')) : text = fixed.toList := by
  rw [← takeWhile_word htext hrest, eq_append_of_word h, takeWhile_word hfixed (wordEnds_of_word h)]

/-- A name is no keyword, whatever ends it. -/
theorem keyword_replace (htext : ∀ c ∈ text, isWordChar c = true) (hrest : wordEnds rest = true)
    (hrest' : wordEnds rest' = true) (h : keyword (text ++ rest) = none) :
    keyword (text ++ rest') = none := by
  have hkeywords : ∀ fixed ∈ keywords, ∀ c ∈ fixed.toList, isWordChar c = true := by
    simp only [keywords, List.forall_mem_cons]
    exact ⟨forall_mem_of_all rfl, forall_mem_of_all rfl, forall_mem_of_all rfl,
      forall_mem_of_all rfl, List.forall_mem_nil _⟩
  refine List.findSome?_eq_none_iff.2 fun fixed hfixed => ?_
  cases hword : word fixed (text ++ rest') with
  | none => rfl
  | some found =>
      -- A keyword before the new rest would be the whole text, and so one before the old rest.
      obtain rfl := eq_of_word (hkeywords fixed hfixed) htext hrest' hword
      have hnone := List.findSome?_eq_none_iff.1 h fixed hfixed
      rw [word_append_self fixed hrest] at hnone
      cases hnone

/-- An identifier is read as before. -/
theorem identifier_spread {name : String} (h : identifier cs = some (name, rest))
    (hspread : Spread rest rest') : identifier (name.toList ++ rest') = some (name, rest') := by
  obtain ⟨hkeyword, hname⟩ := identifier_eq_some_iff.1 h
  obtain ⟨hcs, htext⟩ := eq_append_of_propertyName hname
  have hends := wordEnds_of_propertyName hname
  have hends' := wordEnds_spread hends hspread
  rw [hcs] at hkeyword
  exact identifier_eq_some_iff.2
    ⟨keyword_replace htext hends hends' hkeyword, propertyName_replace hname hends'⟩

/-- So is the name of a property. -/
theorem propertyName_spread {name : String} (h : propertyName cs = some (name, rest))
    (hspread : Spread rest rest') : propertyName (name.toList ++ rest') = some (name, rest') :=
  propertyName_replace h (wordEnds_spread (wordEnds_of_propertyName h) hspread)

/-- So is a word of the language. -/
theorem word_spread {fixed : String} (h : word fixed cs = some ((), rest))
    (hspread : Spread rest rest') : word fixed (fixed.toList ++ rest') = some ((), rest') :=
  word_append_self fixed (wordEnds_spread (wordEnds_of_word h) hspread)

/-- So are the truth values. -/
theorem boolean_spread {b : Bool} (h : boolean cs = some (b, rest)) (hspread : Spread rest rest') :
    boolean ((if b then "true" else "false").toList ++ rest') = some (b, rest') := by
  rw [boolean] at h
  split at h
  · rename_i hword
    cases h
    rw [boolean, if_pos rfl, word_spread hword hspread]
  · obtain ⟨⟨⟨⟩, rest⟩, hword, hpair⟩ := Option.map_eq_some_iff.1 h
    cases hpair
    have hfalse := word_spread hword hspread
    have hnot : word "true" ("false".toList ++ rest') = none := rfl
    rw [boolean, if_neg Bool.false_ne_true, hnot, hfalse]
    rfl

/-! ### Numbers -/

/-- Digits are read up to their end. -/
theorem span_digits {ds : List Char} (hds : ∀ c ∈ ds, c.isDigit = true)
    (hrest : ∀ c ∈ rest.head?, c.isDigit = false) :
    (ds ++ rest).takeWhile Char.isDigit = ds ∧ (ds ++ rest).dropWhile Char.isDigit = rest := by
  have hnone : rest.takeWhile Char.isDigit = [] := by cases rest <;> simp_all
  have hdrop : rest.dropWhile Char.isDigit = rest := by cases rest <;> simp_all
  rw [List.takeWhile_append_of_pos hds, List.dropWhile_append_of_pos hds, hnone, hdrop,
    List.append_nil]
  exact ⟨rfl, rfl⟩

/-- Digits are found if no digit follows. -/
theorem digits_append {ds : List Char} (hne : ds ≠ []) (hds : ∀ c ∈ ds, c.isDigit = true)
    (hrest : ∀ c ∈ rest.head?, c.isDigit = false) : digits (ds ++ rest) = some (ds, rest) := by
  obtain ⟨htake, hdrop⟩ := span_digits hds hrest
  rw [digits, htake, hdrop]
  split
  · contradiction
  · rfl

/-- No digits are found where none stands first. -/
theorem digits_eq_none_iff : digits cs = none ↔ ∀ c ∈ cs.head?, c.isDigit = false := by
  cases cs with
  | nil => simp [digits]
  | cons c cs =>
      rw [digits]
      cases hc : c.isDigit <;> simp [hc]

/-- Behind digits that are found there is no digit. -/
theorem head?_of_digits {ds : List Char} (h : digits cs = some (ds, rest)) :
    ∀ c ∈ rest.head?, c.isDigit = false := by
  rw [digits] at h
  split at h
  · cases h
  · cases h
    exact head?_dropWhile cs

/-- With more spaces behind them digits do not go on. -/
theorem head?_digit_spread (h : ∀ c ∈ cs.head?, c.isDigit = false) (hspread : Spread cs cs') :
    ∀ c ∈ cs'.head?, c.isDigit = false :=
  hspread.head (forall_isSpace rfl) (forall_mem_of_all rfl) h

/-- Digits are read as before. -/
theorem digits_spread {ds : List Char} (h : digits cs = some (ds, rest))
    (hspread : Spread rest rest') : digits (ds ++ rest') = some (ds, rest') :=
  digits_append (eq_append_of_digits h).2.1 (eq_append_of_digits h).2.2
    (head?_digit_spread (head?_of_digits h) hspread)

/-- So is a mantissa, which ends before what is no digit and no point. -/
theorem mantissa_spread {m : List Char} (h : mantissa cs = some (m, rest))
    (hspread : Spread rest rest') : mantissa (m ++ rest') = some (m, rest') := by
  unfold mantissa at h
  rcases hdigits : digits cs with _ | ⟨whole, mid⟩ <;> rw [hdigits] at h <;> dsimp only at h
  · -- A point, and digits after it.
    split at h
    · obtain ⟨⟨fraction, rest⟩, hfraction, hpair⟩ := Option.map_eq_some_iff.1 h
      cases hpair
      have hnone : digits ('.' :: (fraction ++ rest')) = none := rfl
      rw [List.cons_append, mantissa, hnone]
      simp only [digits_spread hfraction hspread, Option.map_some]
    · cases h
  · obtain ⟨-, hne, hwhole⟩ := eq_append_of_digits hdigits
    -- Whether a point follows is looked up in what comes behind the digits.
    split at h
    · -- Digits, a point, and perhaps more digits.
      rename_i tail heq
      cases heq
      cases h
      have hfraction : ∀ c ∈ tail.takeWhile Char.isDigit, c.isDigit = true :=
        List.all_eq_true.1 List.all_takeWhile
      obtain ⟨htake, hdrop⟩ := span_digits hfraction
        (head?_digit_spread (head?_dropWhile _) hspread)
      have hpoint : ∀ tail : List Char, ∀ c ∈ ('.' :: tail).head?, c.isDigit = false := by
        rintro tail _ ⟨⟩
        rfl
      unfold mantissa
      rw [List.append_assoc, List.cons_append, digits_append hne hwhole (hpoint _)]
      simp only [htake, hdrop]
    · -- Digits, and no point behind them.
      rename_i hpoint heq
      cases heq
      cases h
      have hdot : ∀ c ∈ rest'.head?, (c == '.') = false := by
        refine hspread.head (forall_isSpace rfl) (forall_mem_of_all rfl) ?_
        intro c hc
        cases rest with
        | nil => cases hc
        | cons d tail =>
            cases hc
            exact beq_false_of_ne fun heq => hpoint tail (heq ▸ rfl)
      unfold mantissa
      rw [digits_spread hdigits hspread]
      cases rest' with
      | nil => rfl
      | cons d tail =>
          have hd : d ≠ '.' := ne_of_beq_false (hdot d rfl)
          split <;> simp_all
    · rename_i heq
      cases heq

/-- No sign is taken where none stands. -/
theorem sign_of_ne {c : Char} (hplus : c ≠ '+') (hminus : c ≠ '-') (cs : List Char) :
    sign (c :: cs) = ([], c :: cs) := by
  unfold sign
  split <;> simp_all

/-- A sign is taken from the digits behind it. -/
theorem sign_digits {s ds : List Char} (hs : s = [] ∨ s = ['+'] ∨ s = ['-']) (hne : ds ≠ [])
    (hds : ∀ c ∈ ds, c.isDigit = true) (rest : List Char) :
    sign (s ++ (ds ++ rest)) = (s, ds ++ rest) := by
  rcases hs with rfl | rfl | rfl
  · obtain ⟨d, ds, rfl⟩ := List.exists_cons_of_ne_nil hne
    have hd := hds d List.mem_cons_self
    refine sign_of_ne ?_ ?_ _ <;> rintro rfl <;> cases hd
  · rfl
  · rfl

/-- With more spaces behind a sign no digits come about. -/
theorem head?_sign_spread (h : ∀ c ∈ (sign cs).2.head?, c.isDigit = false)
    (hspread : Spread cs cs') : ∀ c ∈ (sign cs').2.head?, c.isDigit = false := by
  -- A space or a quote at the front is neither a sign nor a digit. Otherwise the front is the
  -- same, and a sign hides what is behind it.
  cases hspread with
  | nil => exact h
  | @space c _ cs' hc hspread =>
      rw [sign_of_ne (by rintro rfl; cases hc) (by rintro rfl; cases hc)]
      rintro _ ⟨⟩
      exact forall_isSpace (P := Char.isDigit) rfl c hc
  | @quote _ d _ cs' _ hd =>
      have hsign : d ≠ '+' ∧ d ≠ '-' := by rcases hd with rfl | rfl <;> decide
      rw [sign_of_ne hsign.1 hsign.2]
      rintro _ ⟨⟩
      rcases hd with rfl | rfl <;> rfl
  | @cons c cs cs' hspread =>
      by_cases hsign : c = '+' ∨ c = '-'
      · rcases hsign with rfl | rfl <;> exact head?_digit_spread h hspread
      · obtain ⟨hplus, hminus⟩ := not_or.1 hsign
        rw [sign_of_ne hplus hminus] at h ⊢
        exact h

/-- An exponent is read as before. -/
theorem exponent_spread {e : List Char} (h : exponent cs = some (e, rest))
    (hspread : Spread rest rest') : exponent (e ++ rest') = some (e, rest') := by
  obtain ⟨c, s, ds, rfl, rfl, hletter, hs, hne, hds⟩ := eq_append_of_exponent h
  rw [exponent, if_pos hletter, sign_digits hs hne hds] at h
  obtain ⟨⟨ds', rest₁⟩, hdigits, hpair⟩ := Option.map_eq_some_iff.1 h
  obtain ⟨htext, rfl⟩ := Prod.mk.inj hpair
  obtain rfl : ds' = ds := by simpa using htext
  rw [List.cons_append, List.append_assoc, exponent, if_pos hletter, sign_digits hs hne hds]
  simp only [digits_spread hdigits hspread, Option.map_some]

/-- With more spaces behind its letter a power of ten does not come about. -/
theorem exponent_eq_none_spread (h : exponent cs = none) (hspread : Spread cs cs') :
    exponent cs' = none := by
  -- Only a letter at the front can begin an exponent, and no letter is added.
  cases hspread with
  | nil => rfl
  | @space c _ cs' hc hspread =>
      refine if_neg ?_
      rintro (rfl | rfl) <;> cases hc
  | @quote _ d _ cs' _ hd =>
      refine if_neg ?_
      rcases hd with rfl | rfl <;> decide
  | @cons c cs cs' hspread =>
      rw [exponent] at h ⊢
      split at h
      · rename_i hletter
        rw [if_pos hletter]
        rw [Option.map_eq_none_iff, digits_eq_none_iff] at h ⊢
        exact head?_sign_spread h hspread
      · rename_i hletter
        exact if_neg hletter

/-- A number is read as before: its exponent is, or none is found as before. -/
theorem number_spread (h : number cs = some (text, rest)) (hspread : Spread rest rest') :
    number (text ++ rest') = some (text, rest') := by
  unfold number at h
  split at h
  · cases h
  · rename_i m mid hmantissa
    split at h
    · rename_i e rest₁ hexponent
      cases h
      obtain ⟨c, s, ds, rfl, rfl, -⟩ := eq_append_of_exponent hexponent
      -- To the mantissa the exponent belongs to what stands behind it.
      have hmid : Spread (c :: (s ++ (ds ++ rest))) (c :: (s ++ ds) ++ rest') := by
        simpa using hspread.append (c :: (s ++ ds))
      have hm := mantissa_spread hmantissa hmid
      rw [List.append_assoc, number, hm]
      simp only [exponent_spread hexponent hspread]
    · rename_i hexponent
      cases h
      rw [number, mantissa_spread hmantissa hspread]
      simp only [exponent_eq_none_spread hexponent hspread]

end Token

/-! ### Expressions -/

namespace Respelled

variable {xs : List Lexeme} {cs cs' rest : List Char}

/-- A punctuation character stands in both texts. -/
theorem mark {c : Char} (h : Respelled (.mark c :: xs) cs cs') (hcs : Gap cs (c :: rest)) :
    ∃ rest', Gap cs' (c :: rest') ∧ Respelled xs rest rest' := h.fixed hcs

/-- A token that the scanner reads in both texts. -/
theorem read {α : Type} {scan : Token.Scanner α} {value : α} {text : List Char}
    (h : Respelled (.fixed text :: xs) cs cs') (hcs : cs = text ++ rest)
    (hscan : ∀ rest', Spread rest rest' → scan (text ++ rest') = some (value, rest')) :
    ∃ c₀ rest', Gap cs' c₀ ∧ scan c₀ = some (value, rest') ∧ Respelled xs rest rest' := by
  obtain ⟨rest', hgap, hrest⟩ := h.fixed (.of_eq hcs)
  exact ⟨text ++ rest', rest', hgap, hscan rest' hrest.spread, hrest⟩

end Respelled

mutual

/-- What a text spells, any text with the same tokens spells. -/
theorem Phrase.spans_respelled : (p : Phrase) → {xs : List Lexeme} → {cs cs' rest : List Char} →
    p.Spans cs rest → Respelled (p.lexemes ++ xs) cs cs' →
    ∃ rest', p.Spans cs' rest' ∧ Respelled xs rest rest'
  | .plain chain, _, _, _, _, ⟨_, hchain, hgap⟩, h => by
      obtain ⟨_, hchain', h₁⟩ := chain.spans_respelled hchain h
      obtain ⟨_, hgap', h₂⟩ := h₁.exists_gap hgap
      exact ⟨_, ⟨_, hchain', hgap'⟩, h₂⟩
  | .conditional test consequent alternate, xs, _, _, _,
      ⟨_, _, _, _, _, _, htest, hquestion, hgap, hconsequent, hcolon, hgap', halternate⟩, h => by
      simp only [Phrase.lexemes, List.append_assoc, List.cons_append] at h
      -- Part by part, each from where the one before has ended in both texts.
      obtain ⟨_, htest', h₁⟩ := test.spans_respelled htest h
      obtain ⟨_, hquestion', h₂⟩ := h₁.mark hquestion
      obtain ⟨_, hgap₁, h₃⟩ := h₂.exists_gap hgap
      obtain ⟨_, hconsequent', h₄⟩ := consequent.spans_respelled hconsequent h₃
      obtain ⟨_, hcolon', h₅⟩ := h₄.mark hcolon
      obtain ⟨_, hgap₂, h₆⟩ := h₅.exists_gap hgap'
      obtain ⟨_, halternate', h₇⟩ := alternate.spans_respelled halternate h₆
      exact ⟨_, ⟨_, _, _, _, _, _, htest', hquestion', hgap₁, hconsequent', hcolon', hgap₂,
        halternate'⟩, h₇⟩

/-- Expressions with commas before each. -/
theorem Phrase.spanMore_respelled : (ps : List Phrase) → {xs : List Lexeme} →
    {cs cs' rest : List Char} → Phrase.SpanMore ps cs rest →
    Respelled (Phrase.lexemesMore ps ++ xs) cs cs' →
    ∃ rest', Phrase.SpanMore ps cs' rest' ∧ Respelled xs rest rest'
  | [], _, _, cs', _, hcs, h => ⟨cs', rfl, hcs ▸ h⟩
  | p :: ps, _, _, _, _, ⟨_, _, _, hcomma, hgap, hp, hps⟩, h => by
      simp only [Phrase.lexemesMore, List.append_assoc, List.cons_append] at h
      obtain ⟨_, hcomma', h₁⟩ := h.mark hcomma
      obtain ⟨_, hgap', h₂⟩ := h₁.exists_gap hgap
      obtain ⟨_, hp', h₃⟩ := p.spans_respelled hp h₂
      obtain ⟨_, hps', h₄⟩ := Phrase.spanMore_respelled ps hps h₃
      exact ⟨_, ⟨_, _, _, hcomma', hgap', hp', hps'⟩, h₄⟩

/-- Between brackets the first expression may have more spaces before it. -/
theorem Phrase.spanAll_respelled : (ps : List Phrase) → {xs : List Lexeme} →
    {cs cs' rest : List Char} → Phrase.SpanAll ps cs rest →
    Respelled (Phrase.lexemesAll ps ++ xs) cs cs' →
    ∃ rest', Phrase.SpanAll ps cs' rest' ∧ Respelled xs rest rest'
  | [], _, _, cs', _, hcs, h => ⟨cs', rfl, hcs ▸ h⟩
  | p :: ps, _, _, _, _, ⟨_, _, hp, hgap, hps⟩, h => by
      simp only [Phrase.lexemesAll, List.append_assoc] at h
      obtain ⟨_, hp', h₁⟩ := p.spans_respelled hp h
      obtain ⟨_, hgap', h₂⟩ := h₁.exists_gap hgap
      obtain ⟨_, hps', h₃⟩ := Phrase.spanMore_respelled ps hps h₂
      exact ⟨_, ⟨_, _, hp', hgap', hps'⟩, h₃⟩

/-- A chain. -/
theorem Chain.spans_respelled : (c : Chain) → {xs : List Lexeme} → {cs cs' rest : List Char} →
    c.Spans cs rest → Respelled (c.lexemes ++ xs) cs cs' →
    ∃ rest', c.Spans cs' rest' ∧ Respelled xs rest rest'
  | .mk first more, _, _, _, _, ⟨_, _, hfirst, hgap, hmore⟩, h => by
      simp only [Chain.lexemes, List.append_assoc] at h
      obtain ⟨_, hfirst', h₁⟩ := first.spans_respelled hfirst h
      obtain ⟨_, hgap', h₂⟩ := h₁.exists_gap hgap
      obtain ⟨_, hmore', h₃⟩ := Chain.spanMore_respelled more hmore h₂
      exact ⟨_, ⟨_, _, hfirst', hgap', hmore'⟩, h₃⟩

/-- Operators with their right operands. -/
theorem Chain.spanMore_respelled : (more : List (BinaryOperator × Operand)) →
    {xs : List Lexeme} → {cs cs' rest : List Char} → Chain.SpanMore more cs rest →
    Respelled (Chain.lexemesMore more ++ xs) cs cs' →
    ∃ rest', Chain.SpanMore more cs' rest' ∧ Respelled xs rest rest'
  | [], _, _, cs', _, hcs, h => ⟨cs', rfl, hcs ▸ h⟩
  | (_, right) :: more, _, _, _, _, ⟨_, _, _, ho, hgap, hright, hmore⟩, h => by
      simp only [Chain.lexemesMore, List.append_assoc, List.cons_append] at h
      obtain ⟨_, ho', h₁⟩ := h.fixed ho
      obtain ⟨_, hgap', h₂⟩ := h₁.exists_gap hgap
      obtain ⟨_, hright', h₃⟩ := right.spans_respelled hright h₂
      obtain ⟨_, hmore', h₄⟩ := Chain.spanMore_respelled more hmore h₃
      exact ⟨_, ⟨_, _, _, ho', hgap', hright', hmore'⟩, h₄⟩

/-- An operand. -/
theorem Operand.spans_respelled : (e : Operand) → {xs : List Lexeme} →
    {cs cs' rest : List Char} → e.Spans cs rest → Respelled (e.lexemes ++ xs) cs cs' →
    ∃ rest', e.Spans cs' rest' ∧ Respelled xs rest rest'
  | .mk signs primary suffixes, _, _, _, _,
      ⟨_, _, _, _, hsigns, hgap, hprimary, hgap', hsuffixes⟩, h => by
      simp only [Operand.lexemes, List.append_assoc] at h
      obtain ⟨_, hsigns', h₁⟩ := Operand.spanSigns_respelled signs hsigns h
      obtain ⟨_, hgap₁, h₂⟩ := h₁.exists_gap hgap
      -- The gap behind the signs takes in the spaces that the primary expression has before it.
      obtain ⟨_, _, hbefore, hprimary', h₃⟩ := primary.spans_respelled hprimary h₂
      obtain ⟨_, hgap₂, h₄⟩ := h₃.exists_gap hgap'
      obtain ⟨_, hsuffixes', h₅⟩ := Suffix.spanAll_respelled suffixes hsuffixes h₄
      exact ⟨_, ⟨_, _, _, _, hsigns', hgap₁.trans hbefore, hprimary', hgap₂, hsuffixes'⟩, h₅⟩

/-- Signs. -/
theorem Operand.spanSigns_respelled : (signs : List UnaryOperator) → {xs : List Lexeme} →
    {cs cs' rest : List Char} → Operand.SpanSigns signs cs rest →
    Respelled (signs.map (fun o => .word o.symbol) ++ xs) cs cs' →
    ∃ rest', Operand.SpanSigns signs cs' rest' ∧ Respelled xs rest rest'
  | [], _, _, cs', _, hcs, h => ⟨cs', rfl, hcs ▸ h⟩
  | _ :: os, _, _, _, _, ⟨_, ho, hos⟩, h => by
      obtain ⟨_, ho', h₁⟩ := h.fixed ho
      obtain ⟨_, hos', h₂⟩ := Operand.spanSigns_respelled os hos h₁
      exact ⟨_, ⟨_, ho', hos'⟩, h₂⟩

/-- A primary expression. The second text may have spaces before it that the
first one does not have. -/
theorem Primary.spans_respelled : (e : Primary) → {xs : List Lexeme} →
    {cs cs' rest : List Char} → e.Spans cs rest → Respelled (e.lexemes ++ xs) cs cs' →
    ∃ c₀ rest', Gap cs' c₀ ∧ e.Spans c₀ rest' ∧ Respelled xs rest rest'
  | .number text, _, _, _, _, hnumber, h =>
      h.read (Token.eq_append_of_number hnumber) fun _ => Token.number_spread hnumber
  | .string s, _, _, _, _, hstring, h => h.string hstring
  | .boolean b, _, _, _, _, hboolean, h => by
      refine h.read ?_ fun _ => Token.boolean_spread hboolean
      rcases Token.eq_append_of_boolean hboolean with ⟨rfl, rfl⟩ | ⟨rfl, rfl⟩ <;> rfl
  | .null, _, _, _, _, hword, h =>
      h.read (Token.eq_append_of_word hword) fun _ => Token.word_spread hword
  | .this, _, _, _, _, hword, h =>
      h.read (Token.eq_append_of_word hword) fun _ => Token.word_spread hword
  | .identifier name, _, _, _, _, hname, h =>
      h.read (Token.eq_append_of_identifier hname).1 fun _ => Token.identifier_spread hname
  | .array elements, _, _, _, _, ⟨_, _, _, hcs, hgap, helements, hclose⟩, h => by
      -- A bracket is two tokens of its own, around those of what it holds.
      simp only [Primary.lexemes, List.append_assoc, List.cons_append] at h
      obtain ⟨_, hopen', h₁⟩ := h.mark (.of_eq hcs)
      obtain ⟨_, hgap', h₂⟩ := h₁.exists_gap hgap
      obtain ⟨_, helements', h₃⟩ := Phrase.spanAll_respelled elements helements h₂
      obtain ⟨_, hclose', h₄⟩ := h₃.mark hclose
      exact ⟨_, _, hopen', ⟨_, _, _, rfl, hgap', helements', hclose'⟩, h₄⟩
  | .grouped inner, _, _, _, _, ⟨_, _, _, hcs, hgap, hinner, hclose⟩, h => by
      simp only [Primary.lexemes, List.append_assoc, List.cons_append] at h
      obtain ⟨_, hopen', h₁⟩ := h.mark (.of_eq hcs)
      obtain ⟨_, hgap', h₂⟩ := h₁.exists_gap hgap
      obtain ⟨_, hinner', h₃⟩ := inner.spans_respelled hinner h₂
      obtain ⟨_, hclose', h₄⟩ := h₃.mark hclose
      exact ⟨_, _, hopen', ⟨_, _, _, rfl, hgap', hinner', hclose'⟩, h₄⟩

/-- A suffix, with spaces before it. -/
theorem Suffix.spans_respelled : (s : Suffix) → {xs : List Lexeme} → {cs cs' rest : List Char} →
    s.Spans cs rest → Respelled (s.lexemes ++ xs) cs cs' →
    ∃ c₀ rest', Gap cs' c₀ ∧ s.Spans c₀ rest' ∧ Respelled xs rest rest'
  | .call arguments, _, _, _, _, ⟨_, _, _, hcs, hgap, harguments, hclose⟩, h => by
      simp only [Suffix.lexemes, List.append_assoc, List.cons_append] at h
      obtain ⟨_, hopen', h₁⟩ := h.mark (.of_eq hcs)
      obtain ⟨_, hgap', h₂⟩ := h₁.exists_gap hgap
      obtain ⟨_, harguments', h₃⟩ := Phrase.spanAll_respelled arguments harguments h₂
      obtain ⟨_, hclose', h₄⟩ := h₃.mark hclose
      exact ⟨_, _, hopen', ⟨_, _, _, rfl, hgap', harguments', hclose'⟩, h₄⟩
  | .index property, _, _, _, _, ⟨_, _, _, hcs, hgap, hproperty, hclose⟩, h => by
      simp only [Suffix.lexemes, List.append_assoc, List.cons_append] at h
      obtain ⟨_, hopen', h₁⟩ := h.mark (.of_eq hcs)
      obtain ⟨_, hgap', h₂⟩ := h₁.exists_gap hgap
      obtain ⟨_, hproperty', h₃⟩ := property.spans_respelled hproperty h₂
      obtain ⟨_, hclose', h₄⟩ := h₃.mark hclose
      exact ⟨_, _, hopen', ⟨_, _, _, rfl, hgap', hproperty', hclose'⟩, h₄⟩
  | .field name, _, _, _, _, ⟨_, _, hcs, hgap, hname⟩, h => by
      -- Spaces may stand behind the point, so the two gaps are one.
      obtain ⟨_, hpoint', h₁⟩ := h.mark (.of_eq hcs)
      obtain ⟨_, hgap', h₂⟩ := h₁.exists_gap hgap
      obtain ⟨_, _, hbefore, hname', h₃⟩ := h₂.read (Token.eq_append_of_propertyName hname).1
        fun _ => Token.propertyName_spread hname
      exact ⟨_, _, hpoint', ⟨_, _, rfl, hgap'.trans hbefore, hname'⟩, h₃⟩

/-- Suffixes in a row. -/
theorem Suffix.spanAll_respelled : (ss : List Suffix) → {xs : List Lexeme} →
    {cs cs' rest : List Char} → Suffix.SpanAll ss cs rest →
    Respelled (Suffix.lexemesAll ss ++ xs) cs cs' →
    ∃ rest', Suffix.SpanAll ss cs' rest' ∧ Respelled xs rest rest'
  | [], _, _, cs', _, hcs, h => ⟨cs', rfl, hcs ▸ h⟩
  | s :: ss, _, _, _, _, ⟨_, _, hgap, hs, hss⟩, h => by
      simp only [Suffix.lexemesAll, List.append_assoc] at h
      obtain ⟨_, hgap', h₁⟩ := h.exists_gap hgap
      obtain ⟨_, _, hbefore, hs', h₂⟩ := s.spans_respelled hs h₁
      obtain ⟨_, hss', h₃⟩ := Suffix.spanAll_respelled ss hss h₂
      exact ⟨_, ⟨_, _, hgap'.trans hbefore, hs', hss'⟩, h₃⟩

end

/-! ### Whole texts -/

variable {source source' : String}

/-- A formula is laid out from the tokens of its expression. -/
theorem laid_of_phraseOf {p : Phrase} (hp : phraseOf source = .ok p) :
    Laid p.lexemes source.toList := by
  obtain ⟨c₁, c₂, hgap, hspans, hgap'⟩ := phraseOf_eq_ok_iff.1 hp
  have hend : Laid [] c₂ := .gap hgap' .done
  simpa using Laid.gap hgap (p.laid_of_spans hspans hend)

/-- Texts with the same tokens are read as the same expression. -/
theorem phraseOf_respelled {p : Phrase} (hp : phraseOf source = .ok p)
    (h : Respelled p.lexemes source.toList source'.toList) : phraseOf source' = .ok p := by
  obtain ⟨c₁, c₂, hgap, hspans, hgap'⟩ := phraseOf_eq_ok_iff.1 hp
  obtain ⟨c₁', hbefore, h₁⟩ := h.exists_gap hgap
  rw [← List.append_nil p.lexemes] at h₁
  obtain ⟨c₂', hspans', h₂⟩ := p.spans_respelled hspans h₁
  obtain ⟨rest', hafter, h₃⟩ := h₂.exists_gap hgap'
  refine phraseOf_eq_ok_iff.2 ⟨c₁', c₂', hbefore, hspans', hafter.trans h₃.gap_nil⟩

/-- Whether a text is accepted depends on its expression alone. -/
theorem parse_eq_ok_iff_of_phraseOf {p : Phrase} {limit : Nat} {e : Expr}
    (hp : phraseOf source = .ok p) :
    parse source limit = .ok e ↔ p.measured ≤ limit ∧ e = p.tree := by
  constructor
  · intro h
    obtain ⟨-, p', hp', rfl⟩ := parse_eq_ok_iff.1 h
    obtain rfl : p = p' := Except.ok.inj (hp.symm.trans hp')
    exact ⟨(parse_eq_ok_iff_measured_le hp).1 h, rfl⟩
  · rintro ⟨hle, rfl⟩
    exact (parse_eq_ok_iff_measured_le hp).2 hle

/-- Texts with the same tokens have the same tree and are accepted under the
same limits. -/
theorem parse_respelled {p : Phrase} (hp : phraseOf source = .ok p)
    (h : Respelled p.lexemes source.toList source'.toList) (limit : Nat) (e : Expr) :
    parse source' limit = .ok e ↔ parse source limit = .ok e := by
  rw [parse_eq_ok_iff_of_phraseOf (phraseOf_respelled hp h), parse_eq_ok_iff_of_phraseOf hp]

end Formula
