import Formula.Proofs.Syntax.Boundary
import Formula.Proofs.Syntax.Descent

/-!
# `Formula.Proofs.Syntax.Reading`: what is spelled is read

`Phrase.Spans` says which phrases a text spells, and the grammar finds one
of them (`main_yields`). It finds every one of them: the alternatives that
are tried before the right one fail at their first character, and so does
what might go on behind it. A text therefore spells at most one phrase.

* `expression_reads`: an expression that a text spells is found where
  nothing follows that could belong to it, unless more expressions are
  nested in one another than allowed.
* `peak_scan_le`: a text nests no deeper than it is long, so there is
  always nesting enough.
* `phraseOf_eq_ok_iff`: a phrase is read from a text just when the text
  spells it.
-/

set_option autoImplicit false

namespace Formula

/-! ### What the grammar finds -/

namespace Grammar

open Matcher

/-- The first group with a symbol that fits finds the operator, as the flat
list of all symbols does. -/
theorem operatorTokens_finds {o : BinaryOperator} {cs rest : List Char} :
    {entries : List (Rule × List BinaryOperator)} →
    Token.binaryOperator (entries.flatMap (·.2)) cs = some (o, rest) →
    (firstOf (entries.map operatorToken)).Finds cs o rest
  | entry :: entries, h => by
      rw [List.flatMap_cons, Token.binaryOperator, List.findSome?_append] at h
      rcases hentry : Token.binaryOperator entry.2 cs with _ | found <;>
        rw [Token.binaryOperator] at hentry <;> rw [hentry] at h
      · exact .orElse_right (.token entry.1 hentry) (operatorTokens_finds h)
      · obtain rfl : found = (o, rest) := Option.some.inj h
        exact (Finds.token entry.1 hentry).orElse_left _

/-- An operator is found by its symbol, if nothing behind it makes the
symbol longer. -/
theorem binaryOperator_finds (o : BinaryOperator) {cs : List Char}
    (hcs : Avoids cs operatorTails) : binaryOperator.Finds (o.symbol.toList ++ cs) o cs :=
  operatorTokens_finds (Token.binaryOperator_symbol o hcs)

/-- No operator is found where none begins. -/
theorem binaryOperator_misses {cs : List Char} (hcs : Avoids cs operatorStarts) :
    binaryOperator.Misses cs := by
  refine .firstOf fun p hp => ?_
  obtain ⟨entry, -, rfl⟩ := List.mem_map.1 hp
  exact .token entry.1 (Token.binaryOperator_eq_none hcs)

/-- Signs are found, and no more than there are, since a primary expression
follows. -/
theorem signs_repeats {signs : List UnaryOperator} {e : Primary} {cs c₁ c₂ rest : List Char}
    (h : Operand.SpanSigns signs cs c₁) (hgap : Gap c₁ c₂) (he : e.Spans c₂ rest) :
    unaryOperator.Repeats signs cs c₁ := by
  induction signs generalizing cs with
  | nil =>
      obtain rfl : cs = c₁ := h
      -- No sign begins like the primary expression that follows.
      refine ⟨rfl, ?_⟩
      rw [hgap.tight_eq, he.tight_eq]
      obtain ⟨c, cs', rfl, hc⟩ := he.begins
      exact .token .unary (Token.unaryOperator_eq_none hc cs')
  | cons o os ih =>
      obtain ⟨mid, ho, hos⟩ := h
      have htight : tight cs = o.symbol.toList ++ mid := by
        rw [ho.tight_eq]
        cases o <;> rfl
      refine ⟨mid, ?_, ?_, ih hos⟩
      · rw [htight]
        exact .token .unary (Token.unaryOperator_symbol o mid)
      · rw [htight, List.length_append]
        cases o <;> simp [UnaryOperator.symbol]

/-- No numeral begins with another character. -/
theorem number_misses {c : Char} (hdigit : c.isDigit = false) (hpoint : c ≠ '.')
    (cs : List Char) : number.Misses (c :: cs) :=
  .map _ (.token .number (Token.number_eq_none hdigit hpoint cs))

/-- Neither a number nor a string begins like a word. -/
theorem literals_miss {c : Char} (hc : Token.isWordStart c = true) (cs : List Char) :
    ∀ p ∈ [number, string], p.Misses (c :: cs) := by
  have hne {d : Char} (hd : Token.isWordStart d = false) : c ≠ d := by
    rintro rfl
    rw [hc] at hd
    cases hd
  have hquote : ¬(c = '"' ∨ c = '\'') := not_or.2 ⟨hne rfl, hne rfl⟩
  rw [List.forall_mem_cons, List.forall_mem_singleton]
  exact ⟨number_misses (Token.isDigit_eq_false_of_isWordStart hc) (hne rfl) cs,
    .map _ (.token .string (Token.string_eq_none hquote cs))⟩

/-- A text that begins with no keyword. -/
theorem words_miss {cs : List Char} (h : Token.keyword cs = none) :
    ∀ p ∈ [boolean, null, this], p.Misses cs := by
  have hword : ∀ text ∈ Token.keywords, Token.word text cs = none :=
    List.findSome?_eq_none_iff.1 h
  have hboolean : Token.boolean cs = none := by
    rw [Token.boolean, hword "true" (by decide), hword "false" (by decide)]
    rfl
  simp only [List.forall_mem_cons]
  exact ⟨.map _ (.token .boolean hboolean), .map _ (.token .null (hword "null" (by decide))),
    .map _ (.token .this (hword "this" (by decide))), List.forall_mem_nil _⟩

/-- No token is a bracket. -/
theorem tokens_miss {c : Char} (hc : c ∈ ['(', '[', ')', ']']) (cs : List Char) :
    ∀ p ∈ [number, string, boolean, null, this, identifier], p.Misses (c :: cs) := by
  simp only [List.mem_cons, List.not_mem_nil, or_false] at hc
  simp only [List.forall_mem_cons]
  rcases hc with rfl | rfl | rfl | rfl <;>
    exact ⟨.map _ (.token _ rfl), .map _ (.token _ rfl), .map _ (.token _ rfl),
      .map _ (.token _ rfl), .map _ (.token _ rfl), .map _ (.token _ rfl), nofun⟩

/-- A matcher for nested expressions that finds what is spelled where
nothing follows that could belong to it, and finds nothing where a bracket
is closed. -/
structure Reads (nested : Matcher Phrase) : Prop where
  finds : ∀ {p : Phrase} {cs rest : List Char}, p.Spans cs rest → Closes rest →
    nested.Finds (tight cs) p rest
  misses : ∀ {c : Char} {cs : List Char}, c = ')' ∨ c = ']' → nested.Misses (c :: cs)

section

variable {nested : Matcher Phrase}

variable (hnested : Reads nested)

include hnested

/-- Expressions with a comma before each, up to a closing bracket. -/
theorem commas_repeat {c : Char} (hc : c = ')' ∨ c = ']') {ps : List Phrase}
    {cs mid rest : List Char} (h : Phrase.SpanMore ps cs mid) (hclose : Gap mid (c :: rest)) :
    ((char ',').andThen fun _ => skip.andThen fun _ => nested).Repeats ps cs mid := by
  -- The last round fails at the closing bracket. The others take a comma at least.
  induction ps generalizing cs with
  | nil =>
      obtain rfl : cs = mid := h
      refine ⟨rfl, Misses.bind (.char ?_)⟩
      rw [tight_closing hc hclose]
      rcases hc with rfl | rfl <;> exact nofun
  | cons p ps ih =>
      obtain ⟨c₁, c₂, c₃, hcomma, hgap, hp, hps⟩ := h
      have htight : tight cs = ',' :: c₁ := hcomma.tight_eq
      refine ⟨c₃, ?_, ?_, ih hps⟩
      · rw [htight]
        refine Finds.char_bind (q := fun _ => _) (Finds.skip_bind (q := fun _ => _) ?_)
        rw [hgap.tight_eq]
        exact hnested.finds hp (.of_spanMore hps (.of_closing hc hclose))
      · have hlength := ((p.isSuffix_of_spans hp).trans hgap.isSuffix).length_le
        rw [htight, List.length_cons]
        omega

/-- A list in brackets is found, be it empty or not. -/
theorem separated_finds {c : Char} (hc : c = ')' ∨ c = ']') {ps : List Phrase}
    {cs mid rest : List Char} (h : Phrase.SpanAll ps cs mid) (hclose : Gap mid (c :: rest)) :
    (separated nested).Finds (tight cs) ps mid := by
  cases ps with
  | nil =>
      obtain rfl : cs = mid := h
      -- No expression begins with a closing bracket.
      have hnil : (separated nested).Finds (tight cs) [] (tight cs) := by
        rw [tight_closing hc hclose]
        exact .separated_nil (hnested.misses hc)
      exact hnil.of_tight_eq (tight_tight cs)
  | cons p ps =>
      obtain ⟨c₁, c₂, hp, hgap, hps⟩ := h
      have hmore := (commas_repeat hnested hc hps hclose).of_tight_eq hgap.tight_eq
      have hcloses : Closes c₂ := .of_spanMore hps (.of_closing hc hclose)
      exact .separated_cons (hnested.finds hp (hcloses.of_tight_eq hgap.tight_eq)) hmore

/-- A list with both brackets is found. -/
theorem bracketed_finds (opening : Char) {closing : Char} (hc : closing = ')' ∨ closing = ']')
    {ps : List Phrase} {c₁ c₂ c₃ rest : List Char} (hopen : Gap c₁ c₂)
    (h : Phrase.SpanAll ps c₂ c₃) (hclose : Gap c₃ (closing :: rest)) :
    (bracketed nested opening closing).Finds (opening :: c₁) ps rest := by
  refine .char_bind (.skip_bind ?_)
  rw [hopen.tight_eq]
  refine (separated_finds hnested hc h hclose).then_skip ?_
  rw [tight_closing hc hclose]
  exact .char_bind (.pure ps rest)

/-- A single expression between brackets. -/
theorem bracket_finds {α : Type} (opening : Char) {closing : Char}
    (hc : closing = ')' ∨ closing = ']') (f : Phrase → α) {p : Phrase}
    {c₁ c₂ c₃ rest : List Char} (hopen : Gap c₁ c₂) (h : p.Spans c₂ c₃)
    (hclose : Gap c₃ (closing :: rest)) :
    (do
      char opening
      skip
      let inner ← nested
      skip
      char closing
      return f inner : Matcher α).Finds (opening :: c₁) (f p) rest := by
  refine .char_bind (.skip_bind ?_)
  rw [hopen.tight_eq]
  refine (hnested.finds h (.of_closing hc hclose)).then_skip ?_
  rw [tight_closing hc hclose]
  exact .char_bind (.pure (f p) rest)

/-- A suffix is found: those tried before it begin with another character. -/
theorem suffix_finds {s : Suffix} {cs rest : List Char} (h : s.Spans cs rest) :
    (suffix nested).Finds cs s rest := by
  have hcall {c : Char} (hc : c ≠ '(') (cs : List Char) : (call nested).Misses (c :: cs) :=
    .map _ (.tracked _ (.bind (.char fun h => hc (Option.some.inj h))))
  -- Each by its first character. An index is missed as a call, and a field as both.
  cases s with
  | call arguments =>
      obtain ⟨c₁, c₂, c₃, rfl, hgap, harguments, hclose⟩ := h
      have hfinds := bracketed_finds hnested '(' (.inl rfl) hgap harguments hclose
      exact ((hfinds.tracked .call).map Suffix.call).behind _ [] (List.forall_mem_nil _)
  | index property =>
      obtain ⟨c₁, c₂, c₃, rfl, hgap, hproperty, hclose⟩ := h
      have hfinds := bracket_finds hnested '[' (.inr rfl) Suffix.index hgap hproperty hclose
      exact (hfinds.tracked .index).behind _ [call nested]
        (List.forall_mem_singleton.2 (hcall (by decide) c₁))
  | field name =>
      obtain ⟨c₁, c₂, rfl, hgap, hname⟩ := h
      obtain ⟨c, cs', rfl, hc⟩ := Token.begins_of_propertyName hname
      have hspace : Matcher.isSpace c = false :=
        isSpace_eq_false_of_beginsPrimary (by simp [beginsPrimary, hc])
      have hfinds : (do char '.'; skip; Suffix.field <$> propertyName : Matcher Suffix).Finds
          ('.' :: c₁) (.field name) rest := by
        refine .char_bind (.skip_bind ?_)
        rw [hgap.tight_eq, tight_cons hspace]
        exact (Finds.token .propertyName hname).map Suffix.field
      have hindex : (index nested).Misses ('.' :: c₁) :=
        .tracked _ (.bind (.char fun h => absurd (Option.some.inj h) (by decide)))
      exact (hfinds.tracked .field).behind _ [call nested, index nested]
        (List.forall_mem_cons.2 ⟨hcall (by decide) c₁, List.forall_mem_singleton.2 hindex⟩)

/-- Suffixes are found, and no more than there are. -/
theorem suffixes_repeat {ss : List Suffix} {cs rest : List Char} (h : Suffix.SpanAll ss cs rest)
    (hrest : Avoids (tight rest) suffixStarts) : (suffix nested).Repeats ss cs rest := by
  induction ss generalizing cs with
  | nil =>
      obtain rfl : cs = rest := h
      -- None of the three begins with what follows.
      have hstart {c : Char} (hc : c ∈ suffixStarts) : (tight cs).head? ≠ some c :=
        fun h => hrest c h hc
      refine ⟨rfl, .firstOf fun p hp => ?_⟩
      simp only [List.mem_cons, List.not_mem_nil, or_false] at hp
      rcases hp with rfl | rfl | rfl
      · exact .map _ (.tracked _ (.bind (.char (hstart (by decide)))))
      · exact .tracked _ (.bind (.char (hstart (by decide))))
      · exact .tracked _ (.bind (.char (hstart (by decide))))
  | cons s ss ih =>
      obtain ⟨c₁, c₂, hgap, hs, hss⟩ := h
      have htight : tight cs = c₁ := hgap.tight_eq.trans hs.begins.1
      exact ⟨c₂, htight ▸ suffix_finds hnested hs, htight ▸ hs.begins.2, ih hss⟩

/-- A primary expression is found: the kinds tried before it fail on the
text. -/
theorem primary_finds {e : Primary} {cs rest : List Char} (h : e.Spans cs rest) :
    (primary nested).Finds cs e rest := by
  -- The alternatives that are tried before the right one fail at the first character, but for
  -- a name, which the keywords are told from by what comes after.
  cases e with
  | number text => exact ((Finds.token .number h).map Primary.number).behind _ [] nofun
  | string s =>
      have hfinds := (Finds.token .string h).map Primary.string
      obtain ⟨c, cs, rfl, hc⟩ := Token.begins_of_string h
      refine hfinds.behind _ [number] ?_
      rw [List.forall_mem_singleton]
      rcases hc with rfl | rfl <;> exact number_misses rfl (by decide) cs
  | boolean b =>
      have hfinds := (Finds.token .boolean h).map Primary.boolean
      rcases Token.eq_append_of_boolean h with ⟨rfl, -⟩ | ⟨rfl, -⟩ <;>
        exact hfinds.behind _ [number, string] (literals_miss rfl _)
  | null =>
      have hfinds := (Finds.token .null h).map fun _ => Primary.null
      obtain rfl := Token.eq_append_of_word h
      refine hfinds.behind _ [number, string, boolean] ?_
      exact List.forall_mem_append.2 ⟨literals_miss rfl _, List.forall_mem_singleton.2
        (.map _ (.token _ rfl))⟩
  | this =>
      have hfinds := (Finds.token .this h).map fun _ => Primary.this
      obtain rfl := Token.eq_append_of_word h
      refine hfinds.behind _ ([number, string] ++ [boolean, null]) ?_
      exact List.forall_mem_append.2 ⟨literals_miss rfl _, List.forall_mem_cons.2
        ⟨.map _ (.token _ rfl), List.forall_mem_singleton.2 (.map _ (.token _ rfl))⟩⟩
  | identifier name =>
      have hfinds := (Finds.token .identifier h).map Primary.identifier
      obtain ⟨hkeyword, hname⟩ := Token.identifier_eq_some_iff.1 h
      obtain ⟨c, cs, rfl, hc⟩ := Token.begins_of_propertyName hname
      refine hfinds.behind _ ([number, string] ++ [boolean, null, this]) ?_
      exact List.forall_mem_append.2 ⟨literals_miss hc _, words_miss hkeyword⟩
  | array elements =>
      obtain ⟨c₁, c₂, c₃, rfl, hgap, helements, hclose⟩ := h
      have hfinds := bracketed_finds hnested '[' (.inr rfl) hgap helements hclose
      exact ((hfinds.tracked .array).map Primary.array).behind _ _ (tokens_miss (by decide) c₁)
  | grouped inner =>
      obtain ⟨c₁, c₂, c₃, rfl, hgap, hinner, hclose⟩ := h
      have hfinds := bracket_finds hnested '(' (.inl rfl) Primary.grouped hgap hinner hclose
      have harray : (array nested).Misses ('(' :: c₁) :=
        .map _ (.tracked .array (.bind (.char nofun)))
      exact hfinds.behind [] ([number, string, boolean, null, this, identifier] ++ [array nested])
        (List.forall_mem_append.2 ⟨tokens_miss (by decide) c₁, List.forall_mem_singleton.2 harray⟩)

/-- An operand is found, if no suffix follows it. -/
theorem operand_finds {e : Operand} {cs rest : List Char} (h : e.Spans cs rest)
    (hrest : Avoids (tight rest) suffixStarts) : (operand nested).Finds (tight cs) e rest := by
  obtain ⟨signs, primary, suffixes⟩ := e
  obtain ⟨c₁, c₂, c₃, c₄, hsigns, hgap, hprimary, hgap', hsuffixes⟩ := h
  refine (signs_repeats hsigns hgap hprimary).many.then_skip ?_
  rw [hgap.tight_eq, hprimary.tight_eq]
  refine (primary_finds hnested hprimary).then_skip ?_
  rw [hgap'.tight_eq]
  exact (suffixes_repeat hnested hsuffixes hrest).many.map (Operand.mk signs primary ·)

/-- Where neither a suffix nor an operator follows. -/
theorem operations_repeat {more : List (BinaryOperator × Operand)} {cs rest : List Char}
    (h : Chain.SpanMore more cs rest) (hrest : Avoids (tight rest) suffixStarts)
    (hrest' : Avoids (tight rest) operatorStarts) : (operation nested).Repeats more cs rest := by
  induction more generalizing cs with
  | nil =>
      obtain rfl : cs = rest := h
      exact ⟨rfl, .bind (binaryOperator_misses hrest')⟩
  | cons entry more ih =>
      obtain ⟨o, right⟩ := entry
      obtain ⟨c₁, c₂, c₃, ho, hgap, hright, hmore⟩ := h
      have htight : tight cs = o.symbol.toList ++ c₁ := by rw [ho.tight_eq, tight_symbol]
      have hspace : ∀ c ∈ operatorTails, Matcher.isSpace c = false := forall_mem_of_all rfl
      -- The operator and its operand are found, and characters are taken.
      refine ⟨c₃, ?_, ?_, ih hmore⟩
      · rw [htight]
        refine (binaryOperator_finds o (hgap.avoids hright.avoids hspace)).then_skip ?_
        rw [hgap.tight_eq]
        exact (operand_finds hnested hright (avoids_of_spanMore hmore hrest)).map (Prod.mk o)
      · have hlength := ((right.isSuffix_of_spans hright).trans hgap.isSuffix).length_le
        obtain ⟨c, text, htext, -⟩ := o.begins_symbol
        rw [htight, htext, List.length_append, List.length_cons]
        omega

/-- A chain is found, if neither a suffix nor an operator follows it. -/
theorem binary_finds {c : Chain} {cs rest : List Char} (h : c.Spans cs rest)
    (hrest : Avoids (tight rest) suffixStarts) (hrest' : Avoids (tight rest) operatorStarts) :
    (binary nested).Finds (tight cs) c rest := by
  obtain ⟨first, more⟩ := c
  obtain ⟨c₁, c₂, hfirst, hgap, hmore⟩ := h
  have hfollow : Avoids (tight c₁) suffixStarts := by
    rw [hgap.tight_eq]
    exact avoids_of_spanMore hmore hrest
  refine ((operand_finds hnested hfirst hfollow).then_skip ?_).tracked .binary
  rw [hgap.tight_eq]
  exact (operations_repeat hnested hmore hrest hrest').many.map (Chain.mk first ·)

/-- An expression is found before what closes. -/
theorem expressionOver_finds {p : Phrase} {cs rest : List Char} (h : p.Spans cs rest)
    (hrest : Closes rest) : (expressionOver nested).Finds (tight cs) p rest := by
  cases p with
  | plain chain =>
      obtain ⟨c₁, hchain, hgap⟩ := h
      -- No question mark follows, and so the expression has no branches.
      have hfollow : Closes c₁ := hrest.of_tight_eq hgap.tight_eq
      have hbranches : (branches nested).Misses (tight c₁) :=
        .bind (.char fun hc => absurd (hfollow '?' hc) (by decide))
      refine ((binary_finds hnested hchain (hfollow.avoids (forall_mem_of_all rfl))
        (hfollow.avoids (forall_mem_of_all rfl))).then_skip ?_).tracked .expression
      refine (Finds.optional_none hbranches).bind fun mid hmid => ?_
      have hmid' : tight mid = tight rest := hmid.trans ((tight_tight c₁).trans hgap.tight_eq)
      exact Finds.of_tight_eq (.pure (Phrase.plain chain) mid) hmid'
  | conditional test consequent alternate =>
      obtain ⟨c₁, c₂, c₃, c₄, c₅, c₆, htest, hquestion, hgap, hconsequent, hcolon, hgap',
        halternate⟩ := h
      have htight : tight c₁ = '?' :: c₂ := hquestion.tight_eq
      have htight' : tight c₄ = ':' :: c₅ := hcolon.tight_eq
      have hbranches : (branches nested).Finds ('?' :: c₂) (consequent, alternate) rest := by
        refine .char_bind (.skip_bind ?_)
        rw [hgap.tight_eq]
        refine (hnested.finds hconsequent (.of_gap (by decide) hcolon)).then_skip ?_
        rw [htight']
        refine .char_bind (.skip_bind ?_)
        rw [hgap'.tight_eq]
        exact (hnested.finds halternate hrest).map (Prod.mk consequent)
      refine ((binary_finds hnested htest (htight ▸ .cons (by decide) c₂)
        (htight ▸ .cons (by decide) c₂)).then_skip ?_).tracked .expression
      rw [htight]
      exact hbranches.optional.bind fun mid hmid =>
        Finds.of_tight_eq (.pure (Phrase.conditional test consequent alternate) mid) hmid

omit hnested in
/-- No expression is found at a closing bracket. -/
theorem expressionOver_misses {c : Char} {cs : List Char} (hc : c = ')' ∨ c = ']') :
    (expressionOver nested).Misses (c :: cs) := by
  -- A closing bracket is no sign and begins no primary expression.
  have htight : tight (c :: cs) = c :: cs := tight_closing hc (.refl _)
  have hsign : unaryOperator.Misses (c :: cs) :=
    .token .unary (by rcases hc with rfl | rfl <;> rfl)
  have hsigns : (many unaryOperator).Finds (c :: cs) [] (c :: cs) := by
    have hnone : unaryOperator.Repeats [] (c :: cs) (c :: cs) := ⟨rfl, by rwa [htight]⟩
    have hmany := hnone.many
    rwa [htight] at hmany
  have htokens : ∀ p ∈ [number, string, boolean, null, this, identifier], p.Misses (c :: cs) :=
    tokens_miss (by rcases hc with rfl | rfl <;> decide) cs
  have hbracket {opening : Char} (hopening : opening ∈ ['(', '[']) :
      (char opening).Misses (c :: cs) := by
    refine .char fun h => ?_
    obtain rfl : c = opening := Option.some.inj h
    rcases hc with rfl | rfl <;> exact absurd hopening (by decide)
  have hprimary : (primary nested).Misses (c :: cs) := by
    refine .firstOf (List.forall_mem_append.2 ⟨htokens, ?_⟩)
    rw [List.forall_mem_cons, List.forall_mem_singleton]
    exact ⟨.map _ (.tracked _ (.bind (hbracket (by decide)))), .bind (hbracket (by decide))⟩
  refine .tracked _ (.bind (.tracked _ (.bind (hsigns.bind_misses fun mid hmid => ?_))))
  refine Finds.skip_bind_misses ?_
  rw [hmid, htight]
  exact .bind hprimary

/-- One level of the grammar reads what is spelled if the deeper one does. -/
theorem expressionOver_reads : Reads (expressionOver nested) :=
  ⟨expressionOver_finds hnested, expressionOver_misses⟩

end

/-- However many expressions may be nested in one another, what is spelled
is found unless more of them are. -/
theorem expression_reads : (nesting : Nat) → Reads (expression nesting)
  | 0 => ⟨fun _ _ _ a _ => .inl ⟨a, rfl⟩, fun _ _ a _ => .inl ⟨a, rfl⟩⟩
  | nesting + 1 => expressionOver_reads (expression_reads nesting)

/-- A formula is found in the text that spells it. -/
theorem main_finds (nesting : Nat) {p : Phrase} {cs c₁ c₂ : List Char} (hgap : Gap cs c₁)
    (h : p.Spans c₁ c₂) (hgap' : Gap c₂ []) : (main nesting).Finds cs p [] := by
  have htight : tight c₂ = [] := hgap'.tight_eq
  have hcloses : Closes c₂ := by
    rw [Closes, htight]
    exact fun c hc => absurd hc (Option.not_mem_none c)
  refine (Finds.skip_bind ?_).tracked .main
  rw [hgap.tight_eq]
  refine ((expression_reads nesting).finds h hcloses).then_skip ?_
  rw [htight]
  exact (Finds.token .endOfInput rfl).map fun _ => p

end Grammar

/-! ### Texts and phrases -/

namespace Nesting

/-- A closing bracket does not raise the depth. -/
theorem State.depth_closeBracket_le (s : State) : s.closeBracket.depth ≤ s.depth := by
  unfold closeBracket
  split
  · exact le_rfl
  · exact Nat.sub_le _ _

/-- Inside a string the depth stays. -/
theorem State.depth_inString (s : State) (quote c : Char) :
    (s.inString quote c).depth = s.depth := by
  unfold inString
  split
  · rfl
  · split
    · rfl
    · split <;> rfl

/-- A character opens one level at the most. -/
theorem depth_step_le (s : State) (c : Char) (next : Option Char) :
    (step s c next).1.depth ≤ s.depth + 1 := by
  have hless {n : Nat} (h : n ≤ s.depth) : n ≤ s.depth + 1 := h.trans (Nat.le_succ _)
  unfold step
  split
  · exact hless (s.depth_inString _ c).le
  · unfold stepCode
    split_ifs
    · exact hless le_rfl
    · exact hless le_rfl
    -- An opening bracket, a closing one, a question mark and a comma.
    · exact le_rfl
    · exact hless s.depth_closeBracket_le
    · exact Nat.succ_le_succ (Nat.sub_le _ _)
    · exact hless (Nat.sub_le _ _)
    -- A sign and an operator.
    · exact le_rfl
    · exact hless (Nat.sub_le _ _)
    · exact hless le_rfl
    · exact hless le_rfl

end Nesting

namespace Gauge

/-- A text nests no deeper than it is long. -/
theorem peak_scan_le (g : Gauge) (cs : List Char) :
    (g.scan cs).peak ≤ max g.peak (g.state.depth + cs.length) := by
  induction cs generalizing g with
  | nil => exact le_max_left _ _
  | cons c cs ih =>
      have hdepth := Nesting.depth_step_le g.state c cs.head?
      have hmore := ih (g.step c cs.head?)
      rw [scan, List.length_cons]
      revert hmore
      unfold step
      dsimp only
      split <;> intro hmore <;> dsimp only at hmore ⊢ <;> omega

end Gauge

/-- There is nesting enough for every text, so the match does not give up. -/
theorem Grammar.main_enoughNesting (source : String) :
    (main (enoughNesting source) (startOf source) .none).1 ≠ .tooDeep := by
  have hpeak : (Gauge.initial.scan source.toList).peak ≤ source.toList.length := by
    have hle := Gauge.peak_scan_le .initial source.toList
    simpa [Gauge.initial, Nesting.State.initial] using hle
  exact main_safeOn le_rfl (startOf source) .none hpeak

/-- A phrase is read from a text just when the text spells it, with spaces
around it. In particular no text spells two phrases. -/
theorem phraseOf_eq_ok_iff {source : String} {p : Phrase} :
    phraseOf source = .ok p ↔
      ∃ c₁ c₂, Gap source.toList c₁ ∧ p.Spans c₁ c₂ ∧ Gap c₂ [] := by
  refine ⟨spans_of_phraseOf, ?_⟩
  rintro ⟨c₁, c₂, hgap, hspans, hgap'⟩
  have hsafe := Grammar.main_enoughNesting source
  unfold phraseOf Grammar.run
  rcases Grammar.main_finds (Grammar.enoughNesting source) hgap hspans hgap'
    (Grammar.startOf source) .none rfl with ⟨a, hmain⟩ | ⟨c, a, hmain, -⟩
  · exact absurd (congrArg Prod.fst hmain) hsafe
  · rw [hmain]
    rfl

end Formula
