import Formula.Proofs.Syntax.Boundary
import Formula.Proofs.Syntax.Embedding

/-!
# `Formula.Proofs.Syntax.Lexeme`: the tokens of an expression

An expression is written as a row of tokens with spaces around them. A
token is written in one way only, but for strings, which may be in either
kind of quotes and may have escapes in them.

* `Phrase.lexemes`: the tokens of an expression, in order.
* `Respelled`: two texts with the same tokens, spelled in their own ways,
  where the second one has spaces at least where the first one has.
* `Phrase.laid_of_spans`: a text that spells an expression is laid out
  from the tokens of the expression.
-/

set_option autoImplicit false

namespace Formula

/-! ### Tokens -/

namespace Token

/-- The body of a string is what stands before its quote, whatever comes
behind it. -/
theorem stringBody_replace {quote : Char} {cs body rest : List Char}
    (h : stringBody quote cs = some (body, rest)) (t : List Char) :
    stringBody quote (body ++ quote :: t) = some (body, t) := by
  induction cs using stringBody.induct quote generalizing body with
  | case1 => cases h
  | case2 =>
      obtain ⟨rfl, rfl⟩ : body = [] ∧ rest = [] := by simpa [stringBody, eq_comm] using h
      cases t <;> simp [stringBody]
  | case3 c hc => simp [stringBody, hc] at h
  | case4 d cs =>
      obtain ⟨rfl, rfl⟩ : body = [] ∧ rest = d :: cs := by simpa [stringBody, eq_comm] using h
      cases t <;> simp [stringBody]
  -- A backslash takes the character after it along, a quote too.
  | case5 d cs hquoted ih =>
      simp only [stringBody, hquoted, if_false, if_true] at h
      obtain ⟨⟨body', rest'⟩, hbody, hsome⟩ := Option.map_eq_some_iff.1 h
      cases hsome
      simp [stringBody, hquoted, ih hbody]
  | case6 c d cs hc hescape ih =>
      simp only [stringBody, hc, hescape, if_false] at h
      obtain ⟨⟨body', rest'⟩, hbody, hsome⟩ := Option.map_eq_some_iff.1 h
      cases hsome
      have hmore := ih hbody
      -- There is a character behind the first one, if only the quote.
      cases body' <;> simp_all [stringBody]

/-- A numeral has a character at least. -/
theorem number_ne_nil (cs rest : List Char) : number cs ≠ some ([], rest) := by
  intro h
  unfold number at h
  split at h
  · cases h
  · rename_i m rest₁ hmantissa
    obtain ⟨-, -, c, hc, -⟩ := eq_append_of_mantissa hmantissa
    obtain ⟨d, m', rfl⟩ := List.exists_cons_of_ne_nil (List.ne_nil_of_mem hc)
    split at h <;> cases h

/-- A string by itself, and what comes behind it. -/
theorem exists_eq_append_of_string {cs rest : List Char} {s : String}
    (h : string cs = some (s, rest)) : ∃ t, cs = t ++ rest ∧ string t = some (s, []) := by
  cases cs with
  | nil => cases h
  | cons c cs =>
      rw [string] at h
      split at h
      · rename_i hc
        obtain ⟨⟨body, rest'⟩, hbody, hsome⟩ := Option.map_eq_some_iff.1 h
        cases hsome
        -- The string by itself ends with its quote, and its body is found there as well.
        refine ⟨c :: (body ++ [c]), ?_, ?_⟩
        · simp [eq_append_of_stringBody hbody]
        · rw [string, if_pos hc, stringBody_replace hbody]
          rfl
      · cases h

/-- A text that can be a token and is no string: it begins with no space and has
no quotes. -/
structure IsPlain (text : List Char) : Prop where
  begins : ∃ c t, text = c :: t ∧ Matcher.isSpace c = false
  unquoted : ∀ c ∈ text, c ≠ '"' ∧ c ≠ '\''

/-- For a given text it can be computed that it is plain. -/
theorem IsPlain.of_all {text : List Char} (h : (!text.isEmpty &&
    text.all fun c => !Matcher.isSpace c && (c != '"' && c != '\'')) = true) : IsPlain text := by
  cases text with
  | nil => cases h
  | cons c t =>
      have hall : ∀ d ∈ c :: t, Matcher.isSpace d = false ∧ d ≠ '"' ∧ d ≠ '\'' := by
        simpa using h
      exact ⟨⟨c, t, rfl, (hall c List.mem_cons_self).1⟩, fun d hd => (hall d hd).2⟩

/-- The symbols of operators are plain. -/
theorem isPlain_symbol (o : BinaryOperator) : IsPlain o.symbol.toList := by
  cases o <;> exact .of_all rfl

/-- So are the symbols of signs. -/
theorem isPlain_sign (o : UnaryOperator) : IsPlain o.symbol.toList := by
  cases o <;> exact .of_all rfl

/-- So are names. -/
theorem isPlain_of_propertyName {cs rest : List Char} {name : String}
    (h : propertyName cs = some (name, rest)) : IsPlain name.toList := by
  obtain ⟨hcs, hword⟩ := eq_append_of_propertyName h
  obtain ⟨c, cs', rfl, hc⟩ := begins_of_propertyName h
  have hspace : Matcher.isSpace c = false :=
    isSpace_eq_false_of_beginsPrimary (by simp [beginsPrimary, hc])
  rw [propertyName, if_pos hc] at h
  cases h
  refine ⟨⟨c, _, String.toList_ofList, hspace⟩, fun d hd => ⟨?_, ?_⟩⟩ <;>
    exact fun heq => absurd (hword d hd) (heq ▸ by decide)

/-- The characters of a number. -/
theorem chars_of_number {cs rest text : List Char} (h : number cs = some (text, rest)) :
    ∀ c ∈ text, c.isDigit = true ∨ c ∈ ['.', 'e', 'E', '+', '-'] := by
  unfold number at h
  split at h
  · cases h
  · rename_i m mid hmantissa
    -- The mantissa first, since an exponent may follow it or not.
    have hm : ∀ c ∈ m, c.isDigit = true ∨ c ∈ ['.', 'e', 'E', '+', '-'] := by
      intro c hc
      rcases (eq_append_of_mantissa hmantissa).2.1 c hc with hdigit | rfl
      · exact .inl hdigit
      · exact .inr (by decide)
    split at h
    · rename_i hexponent
      cases h
      obtain ⟨c, s, ds, -, rfl, hletter, hs, -, hds⟩ := eq_append_of_exponent hexponent
      refine List.forall_mem_append.2 ⟨hm, List.forall_mem_cons.2 ⟨?_, ?_⟩⟩
      · rcases hletter with rfl | rfl <;> decide
      · refine List.forall_mem_append.2 ⟨fun d hd => .inr ?_, fun d hd => .inl (hds d hd)⟩
        rcases hs with rfl | rfl | rfl <;> simp_all
    · cases h
      exact hm

/-- So are numerals. -/
theorem isPlain_of_number {cs rest text : List Char} (h : number cs = some (text, rest)) :
    IsPlain text := by
  obtain ⟨c, cs', hcs, hc⟩ := Primary.Spans.begins (e := .number text) h
  have happend := eq_append_of_number h
  refine ⟨?_, fun d hd => ?_⟩
  · cases text with
    | nil => exact absurd h (number_ne_nil cs rest)
    | cons d text =>
        rw [hcs] at happend
        cases happend
        exact ⟨c, text, rfl, isSpace_eq_false_of_beginsPrimary hc⟩
  -- None of the characters of a numeral is a quote.
  · rcases chars_of_number h d hd with hdigit | hmem
    · constructor <;> rintro rfl <;> cases hdigit
    · constructor <;> rintro rfl <;> exact absurd hmem (by decide)

end Token

/-- Equal texts have the empty gap between them. -/
theorem Gap.of_eq {cs rest : List Char} (h : cs = rest) : Gap cs rest := h ▸ .refl cs

/-- A space more before a gap. -/
theorem Gap.cons {c : Char} {cs rest : List Char} (hc : Matcher.isSpace c = true)
    (h : Gap cs rest) : Gap (c :: cs) rest :=
  .trans ⟨[c], rfl, List.forall_mem_singleton.2 hc⟩ h

/-- A token of an expression. -/
inductive Lexeme where
  /-- a token that is written in one way -/
  | fixed (text : List Char)
  /-- a string, by the text that it denotes -/
  | string (s : String)

namespace Lexeme

/-- A single punctuation character. -/
def mark (c : Char) : Lexeme := .fixed [c]

/-- A word or the symbol of an operator. -/
def word (text : String) : Lexeme := .fixed text.toList

/-- The text is a way to write the token. -/
def Spells : Lexeme → List Char → Prop
  | .fixed text, t => t = text ∧ Token.IsPlain text
  | .string s, t => Token.string t = some (s, [])

/-- A token begins with a character that is no space. -/
theorem Spells.begins {x : Lexeme} {t : List Char} (h : x.Spells t) :
    ∃ c t', t = c :: t' ∧ Matcher.isSpace c = false := by
  cases x with
  | fixed text => exact h.1 ▸ h.2.begins
  | string s =>
      obtain ⟨c, t', rfl, hc⟩ := Token.begins_of_string h
      exact ⟨c, t', rfl, by rcases hc with rfl | rfl <;> rfl⟩

/-- So there is nothing to be taken off before it. -/
theorem Spells.tight_append {x : Lexeme} {t : List Char} (h : x.Spells t) (cs : List Char) :
    tight (t ++ cs) = t ++ cs := by
  obtain ⟨c, t', rfl, hc⟩ := h.begins
  exact tight_cons hc _

end Lexeme

/-! ### The tokens of an expression -/

mutual

/-- The tokens of an expression. -/
def Phrase.lexemes : Phrase → List Lexeme
  | .plain chain => chain.lexemes
  | .conditional test consequent alternate =>
    test.lexemes ++ .mark '?' :: (consequent.lexemes ++ .mark ':' :: alternate.lexemes)

/-- The tokens of expressions, a comma before each. -/
def Phrase.lexemesMore : List Phrase → List Lexeme
  | [] => []
  | p :: ps => .mark ',' :: (p.lexemes ++ Phrase.lexemesMore ps)

/-- The tokens of expressions, commas between them. -/
def Phrase.lexemesAll : List Phrase → List Lexeme
  | [] => []
  | p :: ps => p.lexemes ++ Phrase.lexemesMore ps

/-- The tokens of operands with operators between them. -/
def Chain.lexemes : Chain → List Lexeme
  | .mk first more => first.lexemes ++ Chain.lexemesMore more

/-- The tokens of operators, each with its right operand. -/
def Chain.lexemesMore : List (BinaryOperator × Operand) → List Lexeme
  | [] => []
  | (o, right) :: more => .word o.symbol :: (right.lexemes ++ Chain.lexemesMore more)

/-- The tokens of an operand. -/
def Operand.lexemes : Operand → List Lexeme
  | .mk signs primary suffixes =>
    signs.map (fun o => .word o.symbol) ++ (primary.lexemes ++ Suffix.lexemesAll suffixes)

/-- The tokens of a primary expression. -/
def Primary.lexemes : Primary → List Lexeme
  | .number text => [.fixed text]
  | .string s => [.string s]
  | .boolean b => [.word (if b then "true" else "false")]
  | .null => [.word "null"]
  | .this => [.word "this"]
  | .identifier name => [.word name]
  | .array elements => .mark '[' :: (Phrase.lexemesAll elements ++ [.mark ']'])
  | .grouped inner => .mark '(' :: (inner.lexemes ++ [.mark ')'])

/-- The tokens of a suffix. -/
def Suffix.lexemes : Suffix → List Lexeme
  | .call arguments => .mark '(' :: (Phrase.lexemesAll arguments ++ [.mark ')'])
  | .index property => .mark '[' :: (property.lexemes ++ [.mark ']'])
  | .field name => [.mark '.', .word name]

/-- The tokens of suffixes. -/
def Suffix.lexemesAll : List Suffix → List Lexeme
  | [] => []
  | s :: ss => s.lexemes ++ Suffix.lexemesAll ss

end

/-! ### Texts with the same tokens -/

/-- Both texts are the tokens with spaces around them. Each token may be
spelled differently in the second text, and the second one may have spaces
where the first one has none. -/
inductive Respelled : List Lexeme → List Char → List Char → Prop
  | done : Respelled [] [] []
  | inserted {c : Char} {xs : List Lexeme} {cs cs' : List Char}
    (hc : Matcher.isSpace c = true) (h : Respelled xs cs cs') : Respelled xs cs (c :: cs')
  | kept {c : Char} {xs : List Lexeme} {cs cs' : List Char}
    (hc : Matcher.isSpace c = true) (h : Respelled xs cs cs') : Respelled xs (c :: cs) (c :: cs')
  | lexeme {x : Lexeme} {t t' : List Char} {xs : List Lexeme} {cs cs' : List Char}
    (ht : x.Spells t) (ht' : x.Spells t') (h : Respelled xs cs cs') :
    Respelled (x :: xs) (t ++ cs) (t' ++ cs')

/-- The text is the tokens with spaces around them. -/
def Laid (xs : List Lexeme) (cs : List Char) : Prop := Respelled xs cs cs

namespace Respelled

variable {xs ys : List Lexeme} {cs cs' ds ds' rest : List Char}

/-- Two pairs of texts, one after the other. -/
theorem append (h : Respelled xs cs cs') (h' : Respelled ys ds ds') :
    Respelled (xs ++ ys) (cs ++ ds) (cs' ++ ds') := by
  induction h with
  | done => exact h'
  | inserted hc _ ih => exact .inserted hc ih
  | kept hc _ ih => exact .kept hc ih
  | lexeme ht ht' _ ih =>
      rw [List.append_assoc, List.append_assoc]
      exact .lexeme ht ht' ih

/-- The first text by itself is laid out from the tokens. -/
theorem laid (h : Respelled xs cs cs') : Laid xs cs := by
  induction h with
  | done => exact .done
  | inserted _ _ ih => exact ih
  | kept hc _ ih => exact .kept hc ih
  | lexeme ht _ _ ih => exact .lexeme ht ht ih

/-- A space of the first text is in the second one too. -/
theorem exists_gap_of_cons {c : Char} (h : Respelled xs (c :: cs) cs')
    (hc : Matcher.isSpace c = true) : ∃ rest', Gap cs' rest' ∧ Respelled xs cs rest' := by
  generalize heq : c :: cs = ds at h
  induction h with
  | done => cases heq
  | inserted hd _ ih =>
      obtain ⟨rest', hgap, hrest⟩ := ih heq
      exact ⟨rest', hgap.cons hd, hrest⟩
  | kept hd h _ =>
      cases heq
      exact ⟨_, .cons hd (.refl _), h⟩
  | lexeme ht _ _ _ =>
      -- No token begins with a space.
      obtain ⟨d, t, rfl, hd⟩ := ht.begins
      cases heq
      rw [hc] at hd
      cases hd

/-- Behind some spaces of the first text stands what is behind some spaces
of the second one. -/
theorem exists_gap (h : Respelled xs cs cs') (hgap : Gap cs rest) :
    ∃ rest', Gap cs' rest' ∧ Respelled xs rest rest' := by
  obtain ⟨spaces, rfl, hspaces⟩ := hgap
  induction spaces generalizing cs' with
  | nil => exact ⟨cs', .refl cs', h⟩
  | cons c spaces ih =>
      obtain ⟨mid, hgap, hmid⟩ := h.exists_gap_of_cons (hspaces c List.mem_cons_self)
      obtain ⟨rest', hgap', hrest⟩ := ih (fun d hd => hspaces d (List.mem_cons_of_mem c hd)) hmid
      exact ⟨rest', hgap.trans hgap', hrest⟩

/-- Without tokens there are only spaces. -/
theorem gap_nil (h : Respelled [] cs cs') : Gap cs' [] := by
  generalize heq : ([] : List Lexeme) = xs at h
  induction h with
  | done => exact .refl []
  | inserted hc _ ih => exact (ih heq).cons hc
  | kept hc _ ih => exact (ih heq).cons hc
  | lexeme => cases heq

/-- The first token in both texts. -/
theorem exists_spells {x : Lexeme} (h : Respelled (x :: xs) cs cs') :
    ∃ t t' rest rest', x.Spells t ∧ x.Spells t' ∧ Gap cs (t ++ rest) ∧ Gap cs' (t' ++ rest') ∧
      Respelled xs rest rest' := by
  generalize heq : x :: xs = zs at h
  -- Spaces before the token are passed over; what is found behind them is kept.
  induction h with
  | done => cases heq
  | inserted hc _ ih =>
      obtain ⟨t, t', rest, rest', ht, ht', hgap, hgap', hrest⟩ := ih heq
      exact ⟨t, t', rest, rest', ht, ht', hgap, hgap'.cons hc, hrest⟩
  | kept hc _ ih =>
      obtain ⟨t, t', rest, rest', ht, ht', hgap, hgap', hrest⟩ := ih heq
      exact ⟨t, t', rest, rest', ht, ht', hgap.cons hc, hgap'.cons hc, hrest⟩
  | lexeme ht ht' h _ =>
      cases heq
      exact ⟨_, _, _, _, ht, ht', .refl _, .refl _, h⟩

/-- A token that is written in one way stands in the second text where it
stands in the first one. -/
theorem fixed {text : List Char} (h : Respelled (.fixed text :: xs) cs cs')
    (hcs : Gap cs (text ++ rest)) : ∃ rest', Gap cs' (text ++ rest') ∧ Respelled xs rest rest' := by
  obtain ⟨t, t', rest₁, rest', ht, ht', hgap, hgap', hrest⟩ := h.exists_spells
  obtain rfl : t = text := ht.1
  obtain rfl : t' = t := ht'.1
  -- Both gaps end where the token begins.
  have heq : t' ++ rest₁ = t' ++ rest := by
    rw [← ht.tight_append rest₁, ← ht.tight_append rest, ← hgap.tight_eq, ← hcs.tight_eq]
  exact ⟨rest', hgap', List.append_cancel_left heq ▸ hrest⟩

/-- A string stands in the second text where it stands in the first one. -/
theorem string {s : String} (h : Respelled (.string s :: xs) cs cs')
    (hcs : Token.string cs = some (s, rest)) :
    ∃ c₀ rest', Gap cs' c₀ ∧ Token.string c₀ = some (s, rest') ∧ Respelled xs rest rest' := by
  obtain ⟨t, t', rest₁, rest', ht, ht', hgap, hgap', hrest⟩ := h.exists_spells
  have htight : tight cs = cs := Primary.Spans.tight_eq (e := .string s) hcs
  have heq : cs = t ++ rest₁ := by rw [← htight, hgap.tight_eq, ht.tight_append]
  have hstring := Token.string_append ht rest₁
  rw [← heq, hcs] at hstring
  cases hstring
  exact ⟨t' ++ rest', rest', hgap', Token.string_append ht' rest', hrest⟩

end Respelled

/-! ### What is spelled is laid out from tokens -/

namespace Laid

variable {xs : List Lexeme} {x : Lexeme} {t cs rest : List Char}

/-- Spaces may stand before. -/
theorem gap (hgap : Gap cs rest) (h : Laid xs rest) : Laid xs cs := by
  obtain ⟨spaces, rfl, hspaces⟩ := hgap
  induction spaces with
  | nil => exact h
  | cons c spaces ih =>
      exact .kept (hspaces c List.mem_cons_self)
        (ih fun d hd => hspaces d (List.mem_cons_of_mem c hd))

/-- A token may stand before. -/
theorem cons (ht : x.Spells t) (h : Laid xs rest) : Laid (x :: xs) (t ++ rest) := .lexeme ht ht h

/-- A punctuation character after spaces. -/
theorem mark {c : Char} (hc : (!Matcher.isSpace c && (c != '"' && c != '\'')) = true)
    (hgap : Gap cs (c :: rest)) (h : Laid xs rest) : Laid (.mark c :: xs) cs :=
  gap hgap (cons (x := .mark c) ⟨rfl, .of_all (by simpa using hc)⟩ h)

end Laid

mutual

/-- A text that spells an expression begins with the tokens of the
expression. -/
theorem Phrase.laid_of_spans : (p : Phrase) → {xs : List Lexeme} → {cs rest : List Char} →
    p.Spans cs rest → Laid xs rest → Laid (p.lexemes ++ xs) cs
  | .plain chain, _, _, _, ⟨_, hchain, hgap⟩, h => chain.laid_of_spans hchain (.gap hgap h)
  | .conditional test consequent alternate, _, _, _,
      ⟨_, _, _, _, _, _, htest, hquestion, hgap, hconsequent, hcolon, hgap', halternate⟩, h => by
      -- From the back to the front, since a part is laid out before what is behind it.
      have hbranches := Laid.mark rfl hcolon (.gap hgap' (alternate.laid_of_spans halternate h))
      have hconsequent' := consequent.laid_of_spans hconsequent hbranches
      have htest' := test.laid_of_spans htest (.mark rfl hquestion (.gap hgap hconsequent'))
      simpa [Phrase.lexemes] using htest'

/-- Expressions with commas before each. -/
theorem Phrase.laid_of_spanMore : (ps : List Phrase) → {xs : List Lexeme} →
    {cs rest : List Char} → Phrase.SpanMore ps cs rest → Laid xs rest →
    Laid (Phrase.lexemesMore ps ++ xs) cs
  | [], _, _, _, hcs, h => hcs ▸ h
  | p :: ps, _, _, _, ⟨_, _, _, hcomma, hgap, hp, hps⟩, h => by
      have hmore := p.laid_of_spans hp (Phrase.laid_of_spanMore ps hps h)
      simpa [Phrase.lexemesMore] using Laid.mark rfl hcomma (.gap hgap hmore)

/-- Expressions with commas between them. -/
theorem Phrase.laid_of_spanAll : (ps : List Phrase) → {xs : List Lexeme} →
    {cs rest : List Char} → Phrase.SpanAll ps cs rest → Laid xs rest →
    Laid (Phrase.lexemesAll ps ++ xs) cs
  | [], _, _, _, hcs, h => hcs ▸ h
  | p :: ps, _, _, _, ⟨_, _, hp, hgap, hps⟩, h => by
      have hmore := p.laid_of_spans hp (.gap hgap (Phrase.laid_of_spanMore ps hps h))
      simpa [Phrase.lexemesAll] using hmore

/-- A chain. -/
theorem Chain.laid_of_spans : (c : Chain) → {xs : List Lexeme} → {cs rest : List Char} →
    c.Spans cs rest → Laid xs rest → Laid (c.lexemes ++ xs) cs
  | .mk first more, _, _, _, ⟨_, _, hfirst, hgap, hmore⟩, h => by
      have hrest := first.laid_of_spans hfirst (.gap hgap (Chain.laid_of_spanMore more hmore h))
      simpa [Chain.lexemes] using hrest

/-- Operators with their right operands. -/
theorem Chain.laid_of_spanMore : (more : List (BinaryOperator × Operand)) → {xs : List Lexeme} →
    {cs rest : List Char} → Chain.SpanMore more cs rest → Laid xs rest →
    Laid (Chain.lexemesMore more ++ xs) cs
  | [], _, _, _, hcs, h => hcs ▸ h
  | (o, right) :: more, _, _, _, ⟨_, _, _, ho, hgap, hright, hmore⟩, h => by
      have hrest := right.laid_of_spans hright (Chain.laid_of_spanMore more hmore h)
      have hsymbol := Laid.gap ho
        (.cons (x := .word o.symbol) ⟨rfl, Token.isPlain_symbol o⟩ (.gap hgap hrest))
      simpa [Chain.lexemesMore] using hsymbol

/-- An operand. -/
theorem Operand.laid_of_spans : (e : Operand) → {xs : List Lexeme} → {cs rest : List Char} →
    e.Spans cs rest → Laid xs rest → Laid (e.lexemes ++ xs) cs
  | .mk signs primary suffixes, _, _, _,
      ⟨_, _, _, _, hsigns, hgap, hprimary, hgap', hsuffixes⟩, h => by
      have hrest := primary.laid_of_spans hprimary
        (.gap hgap' (Suffix.laid_of_spanAll suffixes hsuffixes h))
      simpa [Operand.lexemes] using Operand.laid_of_spanSigns signs hsigns (.gap hgap hrest)

/-- Signs. -/
theorem Operand.laid_of_spanSigns : (signs : List UnaryOperator) → {xs : List Lexeme} →
    {cs rest : List Char} → Operand.SpanSigns signs cs rest → Laid xs rest →
    Laid (signs.map (fun o => .word o.symbol) ++ xs) cs
  | [], _, _, _, hcs, h => hcs ▸ h
  | o :: os, _, _, _, ⟨_, ho, hos⟩, h =>
      .gap ho (.cons (x := .word o.symbol) ⟨rfl, Token.isPlain_sign o⟩
        (Operand.laid_of_spanSigns os hos h))

/-- A primary expression. -/
theorem Primary.laid_of_spans : (e : Primary) → {xs : List Lexeme} → {cs rest : List Char} →
    e.Spans cs rest → Laid xs rest → Laid (e.lexemes ++ xs) cs
  | .number text, _, _, _, hnumber, h => by
      rw [Token.eq_append_of_number hnumber]
      exact .cons ⟨rfl, Token.isPlain_of_number hnumber⟩ h
  | .string s, _, _, _, hstring, h => by
      -- The text does not tell how it was quoted, so the token is cut out of the source.
      obtain ⟨t, rfl, ht⟩ := Token.exists_eq_append_of_string hstring
      exact .cons ht h
  | .boolean b, _, _, _, hboolean, h => by
      rcases Token.eq_append_of_boolean hboolean with ⟨rfl, rfl⟩ | ⟨rfl, rfl⟩ <;>
        exact .cons ⟨rfl, .of_all rfl⟩ h
  | .null, _, _, _, hword, h => by
      rw [Token.eq_append_of_word hword]
      exact .cons ⟨rfl, .of_all rfl⟩ h
  | .this, _, _, _, hword, h => by
      rw [Token.eq_append_of_word hword]
      exact .cons ⟨rfl, .of_all rfl⟩ h
  | .identifier name, _, _, _, hname, h => by
      rw [(Token.eq_append_of_identifier hname).1]
      have hplain := Token.isPlain_of_propertyName (Token.identifier_eq_some_iff.1 hname).2
      exact .cons (x := .word name) ⟨rfl, hplain⟩ h
  | .array elements, _, _, _, ⟨_, _, _, hcs, hgap, helements, hclose⟩, h => by
      have hrest := Phrase.laid_of_spanAll elements helements (.mark rfl hclose h)
      simpa [Primary.lexemes] using Laid.mark rfl (.of_eq hcs) (.gap hgap hrest)
  | .grouped inner, _, _, _, ⟨_, _, _, hcs, hgap, hinner, hclose⟩, h => by
      have hrest := inner.laid_of_spans hinner (.mark rfl hclose h)
      simpa [Primary.lexemes] using Laid.mark rfl (.of_eq hcs) (.gap hgap hrest)

/-- A suffix. -/
theorem Suffix.laid_of_spans : (s : Suffix) → {xs : List Lexeme} → {cs rest : List Char} →
    s.Spans cs rest → Laid xs rest → Laid (s.lexemes ++ xs) cs
  | .call arguments, _, _, _, ⟨_, _, _, hcs, hgap, harguments, hclose⟩, h => by
      have hrest := Phrase.laid_of_spanAll arguments harguments (.mark rfl hclose h)
      simpa [Suffix.lexemes] using Laid.mark rfl (.of_eq hcs) (.gap hgap hrest)
  | .index property, _, _, _, ⟨_, _, _, hcs, hgap, hproperty, hclose⟩, h => by
      have hrest := property.laid_of_spans hproperty (.mark rfl hclose h)
      simpa [Suffix.lexemes] using Laid.mark rfl (.of_eq hcs) (.gap hgap hrest)
  | .field name, _, _, _, ⟨_, _, hcs, hgap, hname⟩, h => by
      have hrest := Laid.cons (x := .word name) ⟨rfl, Token.isPlain_of_propertyName hname⟩ h
      rw [← (Token.eq_append_of_propertyName hname).1] at hrest
      exact .mark rfl (.of_eq hcs) (.gap hgap hrest)

/-- Suffixes in a row. -/
theorem Suffix.laid_of_spanAll : (ss : List Suffix) → {xs : List Lexeme} → {cs rest : List Char} →
    Suffix.SpanAll ss cs rest → Laid xs rest → Laid (Suffix.lexemesAll ss ++ xs) cs
  | [], _, _, _, hcs, h => hcs ▸ h
  | s :: ss, _, _, _, ⟨_, _, hgap, hs, hss⟩, h => by
      have hrest := s.laid_of_spans hs (Suffix.laid_of_spanAll ss hss h)
      simpa [Suffix.lexemesAll] using Laid.gap hgap hrest

end

end Formula
