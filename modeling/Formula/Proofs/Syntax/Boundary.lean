import Formula.Proofs.Syntax.Finding
import Formula.Proofs.Syntax.Gauge

/-!
# `Formula.Proofs.Syntax.Boundary`: where parts of a text begin and end

The grammar decides by the first character which part comes next, and the
parts can be told apart by it: what a sign begins with begins no primary
expression, and what an operand begins with makes no operator longer.

* `Closes`: nothing follows that could belong to an expression.
* `Primary.Spans.begins`, `Suffix.Spans.begins`, `Operand.Spans.avoids`:
  the first characters of the parts.
* `binaryOperator_symbol`: the order in which operators are tried finds
  the right one before an operand.
* `Phrase.isSuffix_of_spans`: what is left behind an expression is an end
  of the text.
-/

set_option autoImplicit false

namespace Formula

/-! ### First characters -/

/-- A text does not begin with one of some characters. -/
def Avoids (cs starts : List Char) : Prop := ∀ c ∈ cs.head?, c ∉ starts

/-- The characters that a suffix begins with. -/
def suffixStarts : List Char := ['(', '[', '.']

/-- The characters that a binary operator begins with. -/
def operatorStarts : List Char := ['|', '&', '=', '!', '>', '<', '^', '+', '-', '*', '/', '%']

/-- The characters that can follow an expression. -/
def closers : List Char := [')', ']', ',', ':']

/-- Nothing follows, after spaces, that could belong to an expression. -/
def Closes (cs : List Char) : Prop := ∀ c ∈ (tight cs).head?, c ∈ closers

/-- A closer behind a gap: no closer is a space. -/
theorem Closes.of_gap {c : Char} (hc : c ∈ closers) {cs rest : List Char}
    (h : Gap cs (c :: rest)) : Closes cs := by
  have hspace : ∀ d ∈ closers, Matcher.isSpace d = false := forall_mem_of_all rfl
  rw [Closes, h.tight_eq, tight_cons (hspace c hc)]
  rintro _ ⟨⟩
  exact hc

/-- What closes begins with nothing that goes on. -/
theorem Closes.avoids {cs starts : List Char} (h : Closes cs)
    (hstarts : ∀ c ∈ closers, c ∉ starts) : Avoids (tight cs) starts :=
  fun c hc => hstarts c (h c hc)

/-- Whether a primary expression can begin with a character. -/
def beginsPrimary (c : Char) : Bool :=
  Token.isWordStart c || c.isDigit || c == '.' || c == '"' || c == '\'' || c == '[' || c == '('

namespace Token

/-- A numeral begins with a digit or a point. -/
theorem beginsPrimary_of_number {cs text rest : List Char} (h : number cs = some (text, rest)) :
    ∃ c cs', cs = c :: cs' ∧ (c.isDigit = true ∨ c = '.') := by
  unfold number at h
  split at h
  · cases h
  · rename_i m rest' hm
    obtain ⟨rfl, hchars, d, hd, -⟩ := eq_append_of_mantissa hm
    cases m with
    | nil => cases hd
    | cons c m => exact ⟨c, m ++ rest', rfl, hchars c List.mem_cons_self⟩

/-- No numeral begins otherwise. -/
theorem number_eq_none {c : Char} (hdigit : c.isDigit = false) (hpoint : c ≠ '.')
    (cs : List Char) : number (c :: cs) = none := by
  cases hnumber : number (c :: cs) with
  | none => rfl
  | some found =>
      obtain ⟨text, rest⟩ := found
      obtain ⟨d, cs', hcs, hd⟩ := beginsPrimary_of_number hnumber
      obtain ⟨rfl, rfl⟩ := List.cons.inj hcs
      rcases hd with hd | hd
      · rw [hdigit] at hd
        cases hd
      · exact absurd hd hpoint

/-- No name begins with a digit. -/
theorem isDigit_eq_false_of_isWordStart {c : Char} (hc : isWordStart c = true) :
    c.isDigit = false := by
  cases hdigit : c.isDigit with
  | false => rfl
  | true =>
      have hrange : 48 ≤ c.toNat ∧ c.toNat ≤ 57 := by
        simp only [Char.isDigit, Bool.and_eq_true, decide_eq_true_eq] at hdigit
        exact ⟨hdigit.1, hdigit.2⟩
      simp only [isWordStart, Bool.or_eq_true, Bool.and_eq_true, decide_eq_true_eq,
        beq_iff_eq] at hc
      -- The letters have other codes than the digits, the two signs are known, and the rest lies
      -- above.
      rcases hc with (((hc | hc) | rfl) | rfl) | hc
      · have hle : 97 ≤ c.toNat := hc.1
        omega
      · have hle : 65 ≤ c.toNat := hc.1
        omega
      · cases hdigit
      · cases hdigit
      · omega

/-- A string begins with one of the two quotes. -/
theorem begins_of_string {cs rest : List Char} {s : String} (h : string cs = some (s, rest)) :
    ∃ c cs', cs = c :: cs' ∧ (c = '"' ∨ c = '\'') := by
  cases cs with
  | nil => cases h
  | cons c cs =>
      rw [string] at h
      split at h
      · rename_i hc
        exact ⟨c, cs, rfl, hc⟩
      · cases h

/-- A name begins with a character that may begin one. -/
theorem begins_of_propertyName {cs rest : List Char} {name : String}
    (h : propertyName cs = some (name, rest)) :
    ∃ c cs', cs = c :: cs' ∧ isWordStart c = true := by
  cases cs with
  | nil => cases h
  | cons c cs =>
      rw [propertyName] at h
      split at h
      · rename_i hc
        exact ⟨c, cs, rfl, hc⟩
      · cases h

/-- A name is a word that is no keyword. -/
theorem identifier_eq_some_iff {cs rest : List Char} {name : String} :
    identifier cs = some (name, rest)
      ↔ keyword cs = none ∧ propertyName cs = some (name, rest) := by
  rw [identifier]
  cases keyword cs <;> simp

end Token

/-- A primary expression begins with a character that may begin one. -/
theorem Primary.Spans.begins {e : Primary} {cs rest : List Char} (h : e.Spans cs rest) :
    ∃ c cs', cs = c :: cs' ∧ beginsPrimary c = true := by
  -- Tokens begin as their scanners say, and the last two with a bracket.
  cases e with
  | number text =>
      obtain ⟨c, cs', rfl, hc⟩ := Token.beginsPrimary_of_number h
      refine ⟨c, cs', rfl, ?_⟩
      rcases hc with hc | rfl
      · simp [beginsPrimary, hc]
      · decide
  | string s =>
      obtain ⟨c, cs', rfl, hc⟩ := Token.begins_of_string h
      refine ⟨c, cs', rfl, ?_⟩
      rcases hc with rfl | rfl <;> decide
  | boolean b =>
      rcases Token.eq_append_of_boolean h with ⟨rfl, -⟩ | ⟨rfl, -⟩ <;> exact ⟨_, _, rfl, rfl⟩
  | null =>
      obtain rfl := Token.eq_append_of_word h
      exact ⟨_, _, rfl, rfl⟩
  | this =>
      obtain rfl := Token.eq_append_of_word h
      exact ⟨_, _, rfl, rfl⟩
  | identifier name =>
      obtain ⟨c, cs', rfl, hc⟩ :=
        Token.begins_of_propertyName (Token.identifier_eq_some_iff.1 h).2
      exact ⟨c, cs', rfl, by simp [beginsPrimary, hc]⟩
  | array elements =>
      obtain ⟨c₁, -, -, rfl, -⟩ := h
      exact ⟨_, _, rfl, rfl⟩
  | grouped inner =>
      obtain ⟨c₁, -, -, rfl, -⟩ := h
      exact ⟨_, _, rfl, rfl⟩

/-- No primary expression begins with a space. -/
theorem isSpace_eq_false_of_beginsPrimary {c : Char} (hc : beginsPrimary c = true) :
    Matcher.isSpace c = false := by
  cases hspace : Matcher.isSpace c with
  | false => rfl
  | true =>
      simp only [Matcher.isSpace, Bool.or_eq_true, beq_iff_eq] at hspace
      rcases hspace with ((rfl | rfl) | rfl) | rfl <;> cases hc

/-! ### What is left is the end of the text -/

/-- What is left behind a gap is an end of the text. -/
theorem Gap.isSuffix {cs rest : List Char} (h : Gap cs rest) : rest <:+ cs := by
  obtain ⟨spaces, rfl, -⟩ := h
  exact List.suffix_append _ _

/-- A gap and a character before what is left. -/
theorem Gap.isSuffix_of_cons {c : Char} {cs rest : List Char} (h : Gap cs (c :: rest)) :
    rest <:+ cs := (List.suffix_cons c rest).trans h.isSuffix

mutual

/-- What is left behind an expression is an end of the text. -/
theorem Phrase.isSuffix_of_spans : (p : Phrase) → {cs rest : List Char} → p.Spans cs rest →
    rest <:+ cs
  | .plain chain, _, _, ⟨_, hchain, hgap⟩ => hgap.isSuffix.trans (chain.isSuffix_of_spans hchain)
  | .conditional test consequent alternate, _, _,
      ⟨_, _, _, _, _, _, htest, hgap, hgap', hconsequent, hcolon, hgap'', halternate⟩ => by
      have htest' := hgap'.isSuffix.trans
        (hgap.isSuffix_of_cons.trans (test.isSuffix_of_spans htest))
      have hconsequent' := (consequent.isSuffix_of_spans hconsequent).trans htest'
      have hcolon' := hgap''.isSuffix.trans (hcolon.isSuffix_of_cons.trans hconsequent')
      exact (alternate.isSuffix_of_spans halternate).trans hcolon'

/-- Expressions with commas leave an end of the text. -/
theorem Phrase.isSuffix_of_spanMore : (ps : List Phrase) → {cs rest : List Char} →
    Phrase.SpanMore ps cs rest → rest <:+ cs
  | [], _, _, h => ⟨[], h.symm⟩
  | p :: ps, _, _, ⟨_, _, _, hcomma, hgap, hp, hps⟩ =>
      (Phrase.isSuffix_of_spanMore ps hps).trans
        ((p.isSuffix_of_spans hp).trans (hgap.isSuffix.trans hcomma.isSuffix_of_cons))

/-- So do expressions with commas between them. -/
theorem Phrase.isSuffix_of_spanAll : (ps : List Phrase) → {cs rest : List Char} →
    Phrase.SpanAll ps cs rest → rest <:+ cs
  | [], _, _, h => ⟨[], h.symm⟩
  | p :: ps, _, _, ⟨_, _, hp, hgap, hps⟩ =>
      (Phrase.isSuffix_of_spanMore ps hps).trans (hgap.isSuffix.trans (p.isSuffix_of_spans hp))

/-- A chain leaves an end of the text. -/
theorem Chain.isSuffix_of_spans : (c : Chain) → {cs rest : List Char} → c.Spans cs rest →
    rest <:+ cs
  | .mk first more, _, _, ⟨_, _, hfirst, hgap, hmore⟩ =>
      (Chain.isSuffix_of_spanMore more hmore).trans
        (hgap.isSuffix.trans (first.isSuffix_of_spans hfirst))

/-- Operators and operands leave an end of the text. -/
theorem Chain.isSuffix_of_spanMore : (more : List (BinaryOperator × Operand)) →
    {cs rest : List Char} → Chain.SpanMore more cs rest → rest <:+ cs
  | [], _, _, h => ⟨[], h.symm⟩
  | (_, right) :: more, _, _, ⟨_, _, _, ho, hgap, hright, hmore⟩ =>
      (Chain.isSuffix_of_spanMore more hmore).trans ((right.isSuffix_of_spans hright).trans
        (hgap.isSuffix.trans ((List.suffix_append _ _).trans ho.isSuffix)))

/-- An operand leaves an end of the text. -/
theorem Operand.isSuffix_of_spans : (e : Operand) → {cs rest : List Char} → e.Spans cs rest →
    rest <:+ cs
  | .mk signs primary suffixes, _, _, ⟨_, _, _, _, hsigns, hgap, hprimary, hgap', hsuffixes⟩ =>
      (Suffix.isSuffix_of_spanAll suffixes hsuffixes).trans (hgap'.isSuffix.trans
        ((primary.isSuffix_of_spans hprimary).trans
          (hgap.isSuffix.trans (Operand.isSuffix_of_spanSigns signs hsigns))))

/-- Signs leave an end of the text. -/
theorem Operand.isSuffix_of_spanSigns : (signs : List UnaryOperator) → {cs rest : List Char} →
    Operand.SpanSigns signs cs rest → rest <:+ cs
  | [], _, _, h => ⟨[], h.symm⟩
  | _ :: os, _, _, ⟨_, ho, hos⟩ =>
      (Operand.isSuffix_of_spanSigns os hos).trans ((List.suffix_append _ _).trans ho.isSuffix)

/-- A primary expression leaves an end of the text. -/
theorem Primary.isSuffix_of_spans : (e : Primary) → {cs rest : List Char} → e.Spans cs rest →
    rest <:+ cs
  | .number _, _, _, h => ⟨_, (Token.eq_append_of_number h).symm⟩
  | .string _, _, _, h => by
      obtain ⟨quote, body, rfl, -⟩ := Token.eq_append_of_string h
      exact ((List.suffix_cons _ _).trans (List.suffix_append _ _)).trans (List.suffix_cons _ _)
  | .boolean _, _, _, h => by
      rcases Token.eq_append_of_boolean h with ⟨rfl, -⟩ | ⟨rfl, -⟩ <;> exact List.suffix_append _ _
  | .null, _, _, h => ⟨_, (Token.eq_append_of_word h).symm⟩
  | .this, _, _, h => ⟨_, (Token.eq_append_of_word h).symm⟩
  | .identifier _, _, _, h => ⟨_, (Token.eq_append_of_identifier h).1.symm⟩
  | .array elements, _, _, ⟨_, _, _, hcs, hgap, helements, hclose⟩ =>
      -- From the closing bracket back to the opening one.
      hclose.isSuffix_of_cons.trans ((Phrase.isSuffix_of_spanAll elements helements).trans
        (hgap.isSuffix.trans (hcs ▸ List.suffix_cons _ _)))
  | .grouped inner, _, _, ⟨_, _, _, hcs, hgap, hinner, hclose⟩ =>
      hclose.isSuffix_of_cons.trans ((inner.isSuffix_of_spans hinner).trans
        (hgap.isSuffix.trans (hcs ▸ List.suffix_cons _ _)))

/-- A suffix leaves an end of the text. -/
theorem Suffix.isSuffix_of_spans : (s : Suffix) → {cs rest : List Char} → s.Spans cs rest →
    rest <:+ cs
  | .call arguments, _, _, ⟨_, _, _, hcs, hgap, harguments, hclose⟩ =>
      hclose.isSuffix_of_cons.trans ((Phrase.isSuffix_of_spanAll arguments harguments).trans
        (hgap.isSuffix.trans (hcs ▸ List.suffix_cons _ _)))
  | .index property, _, _, ⟨_, _, _, hcs, hgap, hproperty, hclose⟩ =>
      hclose.isSuffix_of_cons.trans ((property.isSuffix_of_spans hproperty).trans
        (hgap.isSuffix.trans (hcs ▸ List.suffix_cons _ _)))
  | .field _, _, _, ⟨_, _, hcs, hgap, hname⟩ => by
      obtain ⟨rfl, -⟩ := Token.eq_append_of_propertyName hname
      exact (List.suffix_append _ _).trans (hgap.isSuffix.trans (hcs ▸ List.suffix_cons _ _))

/-- Suffixes leave an end of the text. -/
theorem Suffix.isSuffix_of_spanAll : (ss : List Suffix) → {cs rest : List Char} →
    Suffix.SpanAll ss cs rest → rest <:+ cs
  | [], _, _, h => ⟨[], h.symm⟩
  | s :: ss, _, _, ⟨_, _, hgap, hs, hss⟩ =>
      (Suffix.isSuffix_of_spanAll ss hss).trans ((s.isSuffix_of_spans hs).trans hgap.isSuffix)

end

/-! ### Tokens -/

namespace Token

/-- Without a quote there is no string. -/
theorem string_eq_none {c : Char} (hc : ¬(c = '"' ∨ c = '\'')) (cs : List Char) :
    string (c :: cs) = none := if_neg hc

/-- Of the operators, in the order in which they are tried, the first one at
the front of a symbol is the operator of the symbol, if no longer symbol
begins with it. -/
theorem binaryOperator_symbol (o : BinaryOperator) {cs : List Char}
    (hcs : Avoids cs ['=', '&', '|', '<', '>']) :
    binaryOperator (Grammar.operatorRules.flatMap (·.2)) (o.symbol.toList ++ cs)
      = some (o, cs) := by
  have hhead : ∀ c cs', cs = c :: cs' → c ≠ '=' ∧ c ≠ '&' ∧ c ≠ '|' ∧ c ≠ '<' ∧ c ≠ '>' := by
    rintro c cs' rfl
    simpa using hcs c rfl
  cases cs with
  | nil => cases o <;> rfl
  | cons c cs =>
      obtain ⟨h₁, h₂, h₃, h₄, h₅⟩ := hhead c cs rfl
      cases o <;>
        simp [binaryOperator, Grammar.operatorRules, BinaryOperator.symbol, dropText?,
          h₁.symm, h₂.symm, h₃.symm, h₄.symm, h₅.symm]

/-- No operator is at the front of a text that begins with none of their
characters. -/
theorem binaryOperator_eq_none {operators : List BinaryOperator} {cs : List Char}
    (hcs : Avoids cs operatorStarts) : binaryOperator operators cs = none := by
  refine List.findSome?_eq_none_iff.2 fun o _ => ?_
  obtain ⟨c, text, htext, hc⟩ : ∃ c text, o.symbol.toList = c :: text ∧ c ∈ operatorStarts := by
    cases o <;> exact ⟨_, _, rfl, by decide⟩
  rw [htext]
  cases cs with
  | nil => rfl
  | cons d cs =>
      have hne : c ≠ d := fun heq => hcs d rfl (heq ▸ hc)
      simp [dropText?, hne]

/-- A sign is found by its symbol, whatever follows. -/
theorem unaryOperator_symbol (o : UnaryOperator) (cs : List Char) :
    unaryOperator (o.symbol.toList ++ cs) = some (o, cs) := by
  cases o <;> rfl

/-- Where a primary expression begins there is no sign. -/
theorem unaryOperator_eq_none {c : Char} (hc : beginsPrimary c = true) (cs : List Char) :
    unaryOperator (c :: cs) = none := by
  have hsigns : ∀ d ∈ ['-', '+', '!', '~'], beginsPrimary d = false := forall_mem_of_all rfl
  have hne : c ∉ ['-', '+', '!', '~'] := fun hmem => by
    rw [hsigns c hmem] at hc
    cases hc
  simp only [List.mem_cons, List.not_mem_nil, or_false, not_or] at hne
  simp [unaryOperator, UnaryOperator.symbol, dropText?, Ne.symm, hne]

end Token

/-! ### What follows a part -/

/-- The characters that could make an operator longer. -/
def operatorTails : List Char := ['=', '&', '|', '<', '>']

/-- The first character decides. -/
theorem Avoids.cons {c : Char} {starts : List Char} (hc : c ∉ starts) (cs : List Char) :
    Avoids (c :: cs) starts := by
  rintro _ ⟨⟩
  exact hc

/-- Spaces are not looked for. -/
theorem Gap.avoids {cs rest starts : List Char} (h : Gap cs rest) (hrest : Avoids rest starts)
    (hspace : ∀ c ∈ starts, Matcher.isSpace c = false) : Avoids cs starts := by
  obtain ⟨spaces, rfl, hspaces⟩ := h
  cases spaces with
  | nil => exact hrest
  | cons c spaces =>
      refine .cons (fun hc => ?_) _
      have hfalse := hspace c hc
      rw [hspaces c List.mem_cons_self] at hfalse
      cases hfalse

/-- There is no space before a primary expression. -/
theorem Primary.Spans.tight_eq {e : Primary} {cs rest : List Char} (h : e.Spans cs rest) :
    tight cs = cs := by
  obtain ⟨c, cs', rfl, hc⟩ := h.begins
  exact tight_cons (isSpace_eq_false_of_beginsPrimary hc) cs'

/-- An operand goes on with a sign or a primary expression, never with what
could belong to the operator before it. -/
theorem Operand.Spans.avoids {e : Operand} {cs rest : List Char} (h : e.Spans cs rest) :
    Avoids cs operatorTails := by
  have hspace : ∀ c ∈ operatorTails, Matcher.isSpace c = false := forall_mem_of_all rfl
  have hprimary : ∀ c ∈ operatorTails, beginsPrimary c = false := forall_mem_of_all rfl
  obtain ⟨signs, primary, suffixes⟩ := e
  obtain ⟨c₁, c₂, c₃, c₄, hsigns, hgap, hspans, -⟩ := h
  -- The first character is that of the first sign, or without signs that of the primary
  -- expression.
  cases signs with
  | nil =>
      obtain rfl : cs = c₁ := hsigns
      obtain ⟨c, cs', rfl, hc⟩ := hspans.begins
      refine hgap.avoids (.cons (fun hmem => ?_) cs') hspace
      rw [hprimary c hmem] at hc
      cases hc
  | cons o os =>
      obtain ⟨c, hgap', -⟩ := hsigns
      refine hgap'.avoids ?_ hspace
      cases o <;> exact .cons (by decide) c

/-- The symbol of an operator begins with one of its characters. -/
theorem BinaryOperator.begins_symbol (o : BinaryOperator) :
    ∃ c text, o.symbol.toList = c :: text ∧ c ∈ operatorStarts := by
  cases o <;> exact ⟨_, _, rfl, by decide⟩

/-- There is no space before the symbol of an operator. -/
theorem tight_symbol (o : BinaryOperator) (cs : List Char) :
    tight (o.symbol.toList ++ cs) = o.symbol.toList ++ cs := by
  have hspace : ∀ c ∈ operatorStarts, Matcher.isSpace c = false := forall_mem_of_all rfl
  obtain ⟨c, text, htext, hc⟩ := o.begins_symbol
  rw [htext]
  exact tight_cons (hspace c hc) _

/-- A suffix begins with a character of its own and takes it. -/
theorem Suffix.Spans.begins {s : Suffix} {cs rest : List Char} (h : s.Spans cs rest) :
    tight cs = cs ∧ rest.length < cs.length := by
  have hconsumed {c : Char} {c₁ c₂ : List Char} (hcs : cs = c :: c₁) (hgap : Gap c₁ c₂)
      (hrest : rest <:+ c₂) : rest.length < cs.length := by
    have hlength := (hrest.trans hgap.isSuffix).length_le
    rw [hcs, List.length_cons]
    omega
  -- A bracket or a dot is taken by each of them.
  cases s with
  | call arguments =>
      obtain ⟨c₁, c₂, c₃, hcs, hgap, harguments, hclose⟩ := h
      exact ⟨hcs ▸ rfl, hconsumed hcs hgap
        (hclose.isSuffix_of_cons.trans (Phrase.isSuffix_of_spanAll arguments harguments))⟩
  | index property =>
      obtain ⟨c₁, c₂, c₃, hcs, hgap, hproperty, hclose⟩ := h
      exact ⟨hcs ▸ rfl, hconsumed hcs hgap
        (hclose.isSuffix_of_cons.trans (property.isSuffix_of_spans hproperty))⟩
  | field name =>
      obtain ⟨c₁, c₂, hcs, hgap, hname⟩ := h
      obtain ⟨hc₂, -⟩ := Token.eq_append_of_propertyName hname
      exact ⟨hcs ▸ rfl, hconsumed hcs hgap ⟨_, hc₂.symm⟩⟩

/-- What goes on with operators does not go on with a suffix. -/
theorem avoids_of_spanMore {more : List (BinaryOperator × Operand)} {cs rest : List Char}
    (h : Chain.SpanMore more cs rest) (hrest : Avoids (tight rest) suffixStarts) :
    Avoids (tight cs) suffixStarts := by
  cases more with
  | nil =>
      obtain rfl : cs = rest := h
      exact hrest
  | cons entry more =>
      obtain ⟨o, right⟩ := entry
      obtain ⟨c₁, -, -, hgap, -⟩ := h
      have hstarts : ∀ c ∈ operatorStarts, c ∉ suffixStarts := forall_mem_of_all rfl
      obtain ⟨c, text, htext, hc⟩ := o.begins_symbol
      rw [hgap.tight_eq, tight_symbol, htext]
      exact .cons (hstarts c hc) _

/-- What goes on to a closing bracket. -/
theorem tight_closing {c : Char} (hc : c = ')' ∨ c = ']') {cs rest : List Char}
    (h : Gap cs (c :: rest)) : tight cs = c :: rest := by
  rw [h.tight_eq]
  rcases hc with rfl | rfl <;> rfl

/-- Spaces at the front do not matter to what closes. -/
theorem Closes.of_tight_eq {cs cs' : List Char} (h : Closes cs) (heq : tight cs' = tight cs) :
    Closes cs' := by rwa [Closes, heq]

/-- A closing bracket closes. -/
theorem Closes.of_closing {c : Char} (hc : c = ')' ∨ c = ']') {cs rest : List Char}
    (h : Gap cs (c :: rest)) : Closes cs := by
  rcases hc with rfl | rfl <;> exact .of_gap (by decide) h

/-- What goes on with a comma or closes an expression closes the one
before. -/
theorem Closes.of_spanMore {ps : List Phrase} {cs rest : List Char}
    (h : Phrase.SpanMore ps cs rest) (hrest : Closes rest) : Closes cs := by
  cases ps with
  | nil =>
      obtain rfl : cs = rest := h
      exact hrest
  | cons p ps =>
      obtain ⟨c₁, -, -, hgap, -⟩ := h
      exact .of_gap (by decide) hgap

end Formula
