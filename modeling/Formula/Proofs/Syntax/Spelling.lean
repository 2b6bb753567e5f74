import Formula.Proofs.Syntax.Token
import Formula.Syntax.Grammar

/-!
# `Formula.Proofs.Syntax.Spelling`: the text that a phrase was read from

What a matcher finds is told by the text before it and the text that is
left. `Phrase.Spans` relates a phrase to two texts: the first one begins
with a spelling of the phrase, and the second one is what follows.

* `Matcher.Yields`: whatever the matcher finds, a relation between the
  value and the two texts holds. Each way of putting matchers together has
  its rule.
* `expression_yields`: an expression that is found spans the text between.
* `main_yields`: a formula that is found spans the whole text, up to the
  spaces around it.
-/

set_option autoImplicit false

namespace Formula

/-! ### Characters -/

/-- What a computation finds of all characters of a text. -/
theorem forall_mem_of_all {P : Char → Prop} [DecidablePred P] {text : List Char}
    (h : (text.all fun c => P c) = true) : ∀ c ∈ text, P c :=
  fun c hc => of_decide_eq_true (List.all_eq_true.1 h c hc)

/-- Some spaces, and then the rest. -/
def Gap (cs rest : List Char) : Prop :=
  ∃ spaces, cs = spaces ++ rest ∧ ∀ c ∈ spaces, Matcher.isSpace c = true

/-- No spaces are a gap. -/
theorem Gap.refl (cs : List Char) : Gap cs cs := ⟨[], rfl, nofun⟩

/-- Two gaps in a row are one. -/
theorem Gap.trans {cs mid rest : List Char} (h : Gap cs mid) (h' : Gap mid rest) : Gap cs rest := by
  obtain ⟨spaces, rfl, hspaces⟩ := h
  obtain ⟨spaces', rfl, hspaces'⟩ := h'
  exact ⟨spaces ++ spaces', (List.append_assoc _ _ _).symm, fun c hc =>
    (List.mem_append.1 hc).elim (hspaces c) (hspaces' c)⟩

/-- Skipping spaces leaves a gap behind. -/
theorem gap_skipSpace (c : Cursor) : Gap c.rest (Matcher.Cursor.skipSpace c).rest :=
  ⟨c.rest.takeWhile Matcher.isSpace, List.takeWhile_append_dropWhile.symm,
    List.all_eq_true.1 List.all_takeWhile⟩

/-! ### Spellings -/

mutual

/-- The text begins with the expression and goes on with the rest. -/
def Phrase.Spans : Phrase → List Char → List Char → Prop
  | .plain chain, cs, rest => ∃ c₁, chain.Spans cs c₁ ∧ Gap c₁ rest
  | .conditional test consequent alternate, cs, rest => ∃ c₁ c₂ c₃ c₄ c₅ c₆,
      test.Spans cs c₁ ∧ Gap c₁ ('?' :: c₂) ∧ Gap c₂ c₃ ∧ consequent.Spans c₃ c₄ ∧
      Gap c₄ (':' :: c₅) ∧ Gap c₅ c₆ ∧ alternate.Spans c₆ rest

/-- The text goes on with expressions, a comma before each. -/
def Phrase.SpanMore : List Phrase → List Char → List Char → Prop
  | [], cs, rest => cs = rest
  | p :: ps, cs, rest => ∃ c₁ c₂ c₃,
      Gap cs (',' :: c₁) ∧ Gap c₁ c₂ ∧ p.Spans c₂ c₃ ∧ Phrase.SpanMore ps c₃ rest

/-- The text begins with expressions, commas between them. -/
def Phrase.SpanAll : List Phrase → List Char → List Char → Prop
  | [], cs, rest => cs = rest
  | p :: ps, cs, rest => ∃ c₁ c₂, p.Spans cs c₁ ∧ Gap c₁ c₂ ∧ Phrase.SpanMore ps c₂ rest

/-- The text begins with operands and operators between them. -/
def Chain.Spans : Chain → List Char → List Char → Prop
  | .mk first more, cs, rest => ∃ c₁ c₂, first.Spans cs c₁ ∧ Gap c₁ c₂ ∧ Chain.SpanMore more c₂ rest

/-- The text goes on with operators, each with its right operand. -/
def Chain.SpanMore : List (BinaryOperator × Operand) → List Char → List Char → Prop
  | [], cs, rest => cs = rest
  | (o, right) :: more, cs, rest => ∃ c₁ c₂ c₃,
      Gap cs (o.symbol.toList ++ c₁) ∧ Gap c₁ c₂ ∧ right.Spans c₂ c₃ ∧ Chain.SpanMore more c₃ rest

/-- The text begins with an operand: signs, a primary expression and
suffixes. -/
def Operand.Spans : Operand → List Char → List Char → Prop
  | .mk signs primary suffixes, cs, rest => ∃ c₁ c₂ c₃ c₄,
      Operand.SpanSigns signs cs c₁ ∧ Gap c₁ c₂ ∧ primary.Spans c₂ c₃ ∧ Gap c₃ c₄ ∧
      Suffix.SpanAll suffixes c₄ rest

/-- The text begins with signs. -/
def Operand.SpanSigns : List UnaryOperator → List Char → List Char → Prop
  | [], cs, rest => cs = rest
  | o :: os, cs, rest => ∃ c₁, Gap cs (o.symbol.toList ++ c₁) ∧ Operand.SpanSigns os c₁ rest

/-- The text begins with a primary expression. -/
def Primary.Spans : Primary → List Char → List Char → Prop
  | .number text, cs, rest => Token.number cs = some (text, rest)
  | .string s, cs, rest => Token.string cs = some (s, rest)
  | .boolean b, cs, rest => Token.boolean cs = some (b, rest)
  | .null, cs, rest => Token.word "null" cs = some ((), rest)
  | .this, cs, rest => Token.word "this" cs = some ((), rest)
  | .identifier name, cs, rest => Token.identifier cs = some (name, rest)
  | .array elements, cs, rest => ∃ c₁ c₂ c₃,
      cs = '[' :: c₁ ∧ Gap c₁ c₂ ∧ Phrase.SpanAll elements c₂ c₃ ∧ Gap c₃ (']' :: rest)
  | .grouped inner, cs, rest => ∃ c₁ c₂ c₃,
      cs = '(' :: c₁ ∧ Gap c₁ c₂ ∧ inner.Spans c₂ c₃ ∧ Gap c₃ (')' :: rest)

/-- The text begins with a suffix. -/
def Suffix.Spans : Suffix → List Char → List Char → Prop
  | .call arguments, cs, rest => ∃ c₁ c₂ c₃,
      cs = '(' :: c₁ ∧ Gap c₁ c₂ ∧ Phrase.SpanAll arguments c₂ c₃ ∧ Gap c₃ (')' :: rest)
  | .index property, cs, rest => ∃ c₁ c₂ c₃,
      cs = '[' :: c₁ ∧ Gap c₁ c₂ ∧ property.Spans c₂ c₃ ∧ Gap c₃ (']' :: rest)
  | .field name, cs, rest => ∃ c₁ c₂,
      cs = '.' :: c₁ ∧ Gap c₁ c₂ ∧ Token.propertyName c₂ = some (name, rest)

/-- The text begins with suffixes. -/
def Suffix.SpanAll : List Suffix → List Char → List Char → Prop
  | [], cs, rest => cs = rest
  | s :: ss, cs, rest => ∃ c₁ c₂, Gap cs c₁ ∧ s.Spans c₁ c₂ ∧ Suffix.SpanAll ss c₂ rest

end

/-! ### What matchers yield -/

namespace Matcher

variable {α β : Type}

/-- Whatever the matcher finds, the relation holds between the value, the
text before and the text after. -/
def Yields (p : Matcher α) (R : α → List Char → List Char → Prop) : Prop :=
  ∀ c a value c' a', p c a = (.matched value c', a') → R value c.rest c'.rest

namespace Yields

variable {p : Matcher α} {R R' : α → List Char → List Char → Prop}

/-- A relation may be weakened. -/
theorem imp (hp : p.Yields R) (hR : ∀ value cs rest, R value cs rest → R' value cs rest) :
    p.Yields R' :=
  fun c a value c' a' h => hR _ _ _ (hp c a value c' a' h)

/-- A value without a match: no text is taken. -/
theorem pure (value : α) :
    (Pure.pure value : Matcher α).Yields fun value' cs rest => value' = value ∧ cs = rest := by
  intro c a value' c' a' h
  cases h
  exact ⟨rfl, rfl⟩

/-- One matcher after the other: there is a text in between. -/
theorem bind {q : α → Matcher β} {R' : α → β → List Char → List Char → Prop} (hp : p.Yields R)
    (hq : ∀ value, (q value).Yields (R' value)) :
    (p >>= q).Yields fun value' cs rest =>
      ∃ value mid, R value cs mid ∧ R' value value' mid rest := by
  intro c a value' c' a' h
  change andThen p q c a = _ at h
  rw [andThen] at h
  rcases hstep : p c a with ⟨_ | _ | _, a₁⟩ <;> rw [hstep] at h
  · exact ⟨_, _, hp _ _ _ _ _ hstep, hq _ _ _ _ _ _ h⟩
  · cases h
  · cases h

/-- What is made of a value spans the same text. -/
theorem map (f : α → β) (hp : p.Yields R) :
    (f <$> p).Yields fun value' cs rest => ∃ value, value' = f value ∧ R value cs rest := by
  refine (hp.bind fun value => pure (f value)).imp ?_
  rintro _ cs rest ⟨value, mid, hR, rfl, rfl⟩
  exact ⟨value, rfl, hR⟩

/-- Alternatives that yield the same relation. -/
theorem orElse {q : Matcher α} (hp : p.Yields R) (hq : q.Yields R) : (p.orElse q).Yields R := by
  intro c a value c' a' h
  rw [Matcher.orElse] at h
  rcases hstep : p c a with ⟨_ | _ | _, a₁⟩ <;> rw [hstep] at h
  · cases h
    exact hp _ _ _ _ _ hstep
  · exact hq _ _ _ _ _ h
  · cases h

/-- A list of such alternatives. Of none there is no match. -/
theorem firstOf : {ps : List (Matcher α)} → (∀ p ∈ ps, p.Yields R) → (firstOf ps).Yields R
  | [], _ => by
      intro c a value c' a' h
      cases h
  | p :: ps, hps =>
      orElse (hps p List.mem_cons_self) (firstOf fun q hq => hps q (List.mem_cons_of_mem p hq))

/-- Either nothing is taken, or the relation holds. -/
theorem optional (hp : p.Yields R) :
    (optional p).Yields fun value? cs rest =>
      (value? = none ∧ cs = rest) ∨ ∃ value, value? = some value ∧ R value cs rest := by
  refine orElse ((hp.map some).imp ?_) ((pure none).imp ?_)
  · rintro _ cs rest ⟨value, rfl, hR⟩
    exact .inr ⟨value, rfl, hR⟩
  · rintro _ cs rest h
    exact .inl h

/-- Noting attempts changes no match. -/
theorem tracked (rule : Rule) (hp : p.Yields R) : (tracked rule p).Yields R := by
  intro c a value c' a' h
  rw [Matcher.tracked] at h
  rcases hstep : p c a with ⟨_ | _ | _, a₁⟩ <;> rw [hstep] at h <;> cases h
  exact hp _ _ _ _ _ hstep

/-- Spaces are skipped over a gap. -/
theorem skip : Matcher.skip.Yields fun _ => Gap := by
  intro c a value c' a' h
  cases h
  exact gap_skipSpace c

/-- The text begins with the character. -/
theorem char (expected : Char) :
    (char expected).Yields fun _ cs rest => cs = expected :: rest := by
  intro c a value c' a' h
  rw [Matcher.char] at h
  split at h
  · rename_i d rest hrest
    split at h
    · rename_i heq
      cases h
      rw [hrest, heq]
    · cases h
  · cases h

/-- A token is what its scanner finds. -/
theorem token (rule : Rule) (scan : List Char → Option (α × List Char)) :
    (token rule scan).Yields fun value cs rest => scan cs = some (value, rest) := by
  refine tracked rule ?_
  intro c a value c' a' h
  dsimp only at h
  split at h
  · rename_i hscan
    cases h
    exact hscan
  · cases h

/-! ### Repetition -/

/-- The values of a repetition, each with a gap before it. -/
def Repeated (R : α → List Char → List Char → Prop) : List α → List Char → List Char → Prop
  | [], cs, rest => cs = rest
  | value :: values, cs, rest => ∃ c₁ c₂,
      Gap cs c₁ ∧ R value c₁ c₂ ∧ Repeated R values c₂ rest

/-- What holds of no values, and goes on to one more before others, holds
of a repetition. -/
theorem Repeated.fold {S : List α → List Char → List Char → Prop} (hnil : ∀ cs, S [] cs cs)
    (hcons : ∀ value values cs c₁ c₂ rest, Gap cs c₁ → R value c₁ c₂ → S values c₂ rest →
      S (value :: values) cs rest) {values : List α} {cs rest : List Char}
    (h : Repeated R values cs rest) : S values cs rest := by
  induction values generalizing cs with
  | nil =>
      obtain rfl : cs = rest := h
      exact hnil cs
  | cons value values ih =>
      obtain ⟨c₁, c₂, hgap, hvalue, hmore⟩ := h
      exact hcons value values cs c₁ c₂ rest hgap hvalue (ih hmore)

/-- A repetition yields its values with gaps between them, whatever the
fuel. -/
theorem manyAfterSpace (hp : p.Yields R) :
    (fuel : Nat) → (manyAfterSpace p fuel).Yields (Repeated R)
  | 0 => (pure []).imp fun _ _ _ h => by rw [h.1]; exact h.2
  | fuel + 1 => by
      intro c a values c' a' h
      rcases hstep : p (Cursor.skipSpace c) a with ⟨_ | _ | _, a₁⟩ <;>
        simp only [Matcher.manyAfterSpace, hstep] at h
      · obtain ⟨values, rfl, hmore⟩ := ((manyAfterSpace hp fuel).map _) _ _ _ _ _ h
        exact ⟨_, _, gap_skipSpace c, hp _ _ _ _ _ hstep, hmore⟩
      · cases h
        rfl
      · cases h

/-- A repetition without a gap before its first round: the empty gap stands
there. -/
theorem many (hp : p.Yields R) : (many p).Yields (Repeated R) := by
  intro c a values c' a' h
  rw [Matcher.many] at h
  rcases hstep : p c a with ⟨_ | _ | _, a₁⟩ <;> rw [hstep] at h
  · obtain ⟨values, rfl, hmore⟩ := ((manyAfterSpace hp _).map _) _ _ _ _ _ h
    -- The first value has the empty gap before it.
    exact ⟨_, _, .refl _, hp _ _ _ _ _ hstep, hmore⟩
  · cases h
    rfl
  · cases h

/-- A comma, and then a match. -/
theorem comma (hp : p.Yields R) :
    ((Matcher.char ',').andThen fun _ => Matcher.skip.andThen fun _ => p).Yields
      fun value cs rest => ∃ c₁ c₂, cs = ',' :: c₁ ∧ Gap c₁ c₂ ∧ R value c₂ rest := by
  refine ((char ',').bind fun _ => skip.bind fun _ => hp).imp ?_
  rintro value cs rest ⟨_, c₁, hcs, _, c₂, hgap, hvalue⟩
  exact ⟨c₁, c₂, hcs, hgap, hvalue⟩

/-- Matches with a comma before each but the first. -/
theorem separated (hp : p.Yields R) :
    (separated p).Yields fun values cs rest => (values = [] ∧ cs = rest) ∨
      ∃ first more c₁ c₂, values = first :: more ∧ R first cs c₁ ∧ Gap c₁ c₂ ∧
        Repeated (fun value cs rest => ∃ c₁ c₂, cs = ',' :: c₁ ∧ Gap c₁ c₂ ∧ R value c₂ rest)
          more c₂ rest := by
  intro c a values c' a' h
  rw [Matcher.separated] at h
  rcases hstep : p c a with ⟨first | _ | _, a₁⟩ <;> rw [hstep] at h
  · rename_i c₁
    -- The gap after the first match is skipped before the commas are looked for.
    obtain ⟨_, c₂, hgap, more, hmore, hrest⟩ :=
      (skip.bind fun _ => (comma hp).many.map (first :: ·)) _ _ _ _ _ h
    exact .inr ⟨first, more, _, _, hmore, hp _ _ _ _ _ hstep, hgap, hrest⟩
  · cases h
    exact .inl ⟨rfl, rfl⟩
  · cases h

end Yields

end Matcher

/-! ### What the grammar yields -/

namespace Grammar

open Matcher

/-- A primary expression that is a single token. -/
theorem token_yields {α : Type} {rule : Rule} {scan : Token.Scanner α} {f : α → Primary}
    (hf : ∀ value cs rest, scan cs = some (value, rest) → (f value).Spans cs rest) :
    (f <$> token rule scan).Yields Primary.Spans := by
  refine ((Yields.token rule scan).map f).imp ?_
  rintro _ cs rest ⟨value, rfl, h⟩
  exact hf value cs rest h

/-- The operators of one group: one of them is found, by its symbol. -/
theorem operatorToken_yields (entry : Rule × List BinaryOperator) :
    (operatorToken entry).Yields fun o cs rest =>
      o ∈ entry.2 ∧ cs = o.symbol.toList ++ rest :=
  (Yields.token entry.1 _).imp fun _ _ _ h => Token.eq_append_of_binaryOperator h

/-- An operator between operands is found by its symbol. -/
theorem binaryOperator_yields :
    binaryOperator.Yields fun o cs rest => cs = o.symbol.toList ++ rest := by
  refine .firstOf fun p hp => ?_
  obtain ⟨entry, -, rfl⟩ := List.mem_map.1 hp
  exact (operatorToken_yields entry).imp fun _ _ _ h => h.2

/-- A sign is found by its symbol. -/
theorem unaryOperator_yields :
    unaryOperator.Yields fun o cs rest => cs = o.symbol.toList ++ rest :=
  (Yields.token .unary Token.unaryOperator).imp fun _ _ _ h => Token.eq_append_of_unaryOperator h

section

variable {nested : Matcher Phrase} (hnested : nested.Yields Phrase.Spans)

include hnested

/-- A list in brackets: the brackets, gaps inside them, and the elements
with commas. -/
theorem bracketed_yields (opening closing : Char) :
    (bracketed nested opening closing).Yields fun elements cs rest => ∃ c₁ c₂ c₃,
      cs = opening :: c₁ ∧ Gap c₁ c₂ ∧ Phrase.SpanAll elements c₂ c₃ ∧
      Gap c₃ (closing :: rest) := by
  have helements : (separated nested).Yields Phrase.SpanAll := by
    refine (Yields.separated hnested).imp fun ps cs rest h => ?_
    rcases h with ⟨rfl, rfl⟩ | ⟨first, more, c₁, c₂, rfl, hfirst, hgap, hmore⟩
    · rfl
    · refine ⟨c₁, c₂, hfirst, hgap, hmore.fold (fun _ => rfl) ?_⟩
      rintro p ps cs c₁ c₂ rest hgap ⟨c₃, c₄, rfl, hgap', hp⟩ hps
      exact ⟨c₃, c₄, c₂, hgap, hgap', hp, hps⟩
  -- The elements behind the opening bracket, and the closing one behind a gap.
  refine ((Yields.char opening).bind fun _ => Yields.skip.bind fun _ => helements.bind
    fun elements => Yields.skip.bind fun _ => (Yields.char closing).bind
    fun _ => .pure elements).imp ?_
  rintro _ cs rest ⟨_, c₁, hopen, _, c₂, hgap, ps, c₃, hps, _, c₄, hgap', _, c₅, hclose, rfl, rfl⟩
  exact ⟨c₁, c₂, c₃, hopen, hgap, hps, hclose ▸ hgap'⟩

/-- An array spans its brackets. -/
theorem array_yields : (array nested).Yields Primary.Spans := by
  refine (((bracketed_yields hnested '[' ']').tracked .array).map Primary.array).imp ?_
  rintro _ cs rest ⟨elements, rfl, h⟩
  exact h

/-- A group spans its parentheses. -/
theorem grouped_yields : (grouped nested).Yields Primary.Spans := by
  refine ((Yields.char '(').bind fun _ => Yields.skip.bind fun _ => hnested.bind
    fun inner => Yields.skip.bind fun _ => (Yields.char ')').bind fun _ => .pure _).imp ?_
  rintro _ cs rest ⟨_, c₁, hopen, _, c₂, hgap, p, c₃, hp, _, c₄, hgap', _, c₅, hclose, rfl, rfl⟩
  exact ⟨c₁, c₂, c₃, hopen, hgap, hp, hclose ▸ hgap'⟩

/-- A call spans its parentheses. -/
theorem call_yields : (call nested).Yields Suffix.Spans := by
  refine (((bracketed_yields hnested '(' ')').tracked .call).map Suffix.call).imp ?_
  rintro _ cs rest ⟨arguments, rfl, h⟩
  exact h

/-- An index spans its brackets. -/
theorem index_yields : (index nested).Yields Suffix.Spans := by
  refine (((Yields.char '[').bind fun _ => Yields.skip.bind fun _ => hnested.bind
    fun property => Yields.skip.bind fun _ => (Yields.char ']').bind
    fun _ => .pure _).tracked .index).imp ?_
  rintro _ cs rest ⟨_, c₁, hopen, _, c₂, hgap, p, c₃, hp, _, c₄, hgap', _, c₅, hclose, rfl, rfl⟩
  exact ⟨c₁, c₂, c₃, hopen, hgap, hp, hclose ▸ hgap'⟩

omit hnested in
/-- A field spans the dot and the name. -/
theorem field_yields : field.Yields Suffix.Spans := by
  refine (((Yields.char '.').bind fun _ => Yields.skip.bind fun _ =>
    (Yields.token .propertyName Token.propertyName).map Suffix.field).tracked .field).imp ?_
  rintro _ cs rest ⟨_, c₁, hdot, _, c₂, hgap, name, rfl, hname⟩
  exact ⟨c₁, c₂, hdot, hgap, hname⟩

/-- Each of the three suffixes spans its text. -/
theorem suffix_yields : (suffix nested).Yields Suffix.Spans := by
  refine .firstOf fun p hp => ?_
  simp only [List.mem_cons, List.not_mem_nil, or_false] at hp
  rcases hp with rfl | rfl | rfl
  · exact call_yields hnested
  · exact index_yields hnested
  · exact field_yields

/-- Each of the eight primary expressions spans its text. -/
theorem primary_yields : (primary nested).Yields Primary.Spans := by
  refine .firstOf fun p hp => ?_
  simp only [List.mem_cons, List.not_mem_nil, or_false] at hp
  rcases hp with rfl | rfl | rfl | rfl | rfl | rfl | rfl | rfl
  · exact token_yields fun _ _ _ h => h
  · exact token_yields fun _ _ _ h => h
  · exact token_yields fun _ _ _ h => h
  · exact token_yields fun _ _ _ h => h
  · exact token_yields fun _ _ _ h => h
  · exact token_yields fun _ _ _ h => h
  · exact array_yields hnested
  · exact grouped_yields hnested

/-- An operand spans its signs, its primary expression and its suffixes. -/
theorem operand_yields : (operand nested).Yields Operand.Spans := by
  refine (unaryOperator_yields.many.bind fun signs => Yields.skip.bind fun _ =>
    (primary_yields hnested).bind fun e => Yields.skip.bind fun _ =>
    (suffix_yields hnested).many.bind fun suffixes => .pure _).imp ?_
  rintro _ cs rest ⟨signs, c₁, hsigns, _, c₂, hgap, e, c₃, he, _, c₄, hgap', suffixes, c₅,
    hsuffixes, rfl, rfl⟩
  -- Both repetitions are folded into the spans of their lists.
  refine ⟨c₁, c₂, c₃, c₄, hsigns.fold (fun _ => rfl) ?_, hgap, he, hgap',
    hsuffixes.fold (fun _ => rfl) ?_⟩
  · rintro o os cs c₁ c₂ rest hgap rfl hos
    exact ⟨c₂, hgap, hos⟩
  · intro s ss cs c₁ c₂ rest hgap hs hss
    exact ⟨c₁, c₂, hgap, hs, hss⟩

/-- An operator with its right operand is a chain that goes on once. -/
theorem operation_yields : (operation nested).Yields fun x => Chain.SpanMore [x] := by
  refine (binaryOperator_yields.bind fun o => Yields.skip.bind fun _ =>
    (operand_yields hnested).bind fun right => .pure _).imp ?_
  rintro _ cs rest ⟨o, c₁, ho, _, c₂, hgap, right, c₃, hright, rfl, rfl⟩
  exact ⟨c₁, c₂, c₃, ho ▸ .refl cs, hgap, hright, rfl⟩

/-- A chain spans its operands and operators. -/
theorem binary_yields : (binary nested).Yields Chain.Spans := by
  refine (((operand_yields hnested).bind fun first => Yields.skip.bind fun _ =>
    (operation_yields hnested).many.bind fun more => .pure _).tracked .binary).imp ?_
  rintro _ cs rest ⟨first, c₁, hfirst, _, c₂, hgap, more, c₃, hmore, rfl, rfl⟩
  refine ⟨c₁, c₂, hfirst, hgap, hmore.fold (fun _ => rfl) ?_⟩
  -- An operator is found behind two gaps: the one of the repetition and an empty one.
  rintro ⟨o, right⟩ more cs c₁ _ rest hgap ⟨c₂, c₃, c₄, hgap', hgap'', hright, rfl⟩ hmore
  exact ⟨c₂, c₃, c₄, hgap.trans hgap', hgap'', hright, hmore⟩

/-- The branches of a conditional span the question mark, the colon and all
between. -/
theorem branches_yields :
    (branches nested).Yields fun x cs rest => ∃ c₂ c₃ c₄ c₅ c₆,
      cs = '?' :: c₂ ∧ Gap c₂ c₃ ∧ x.1.Spans c₃ c₄ ∧ Gap c₄ (':' :: c₅) ∧ Gap c₅ c₆ ∧
      x.2.Spans c₆ rest := by
  refine ((Yields.char '?').bind fun _ => Yields.skip.bind fun _ => hnested.bind
    fun consequent => Yields.skip.bind fun _ => (Yields.char ':').bind fun _ =>
    Yields.skip.bind fun _ => hnested.bind fun alternate => .pure _).imp ?_
  rintro _ cs rest ⟨_, c₂, hq, _, c₃, hgap, p, c₄, hp, _, c₅, hgap', _, c₆, hcolon, _, c₇, hgap'',
    p', c₈, hp', rfl, rfl⟩
  exact ⟨c₂, c₃, c₄, c₆, c₇, hq, hgap, hp, hcolon ▸ hgap', hgap'', hp'⟩

/-- An expression spans its test, and with branches those as well. -/
theorem expressionOver_yields : (expressionOver nested).Yields Phrase.Spans := by
  refine (((binary_yields hnested).bind fun test => Yields.skip.bind fun _ =>
    (branches_yields hnested).optional.bind fun branches? => (?_ : Yields _ fun p cs rest =>
      p = branches?.elim (.plain test) (fun b => .conditional test b.1 b.2) ∧ cs = rest)).tracked
    .expression).imp ?_
  · cases branches? with
    | none => exact .pure _
    | some _ => exact .pure _
  · rintro p cs rest ⟨test, c₁, htest, _, c₂, hgap, branches?, c₃, hbranches, rfl, rfl⟩
    rcases hbranches with ⟨rfl, rfl⟩ | ⟨b, rfl, c₄, c₅, c₆, c₇, c₈, rfl, hrest⟩
    · exact ⟨c₁, htest, hgap⟩
    -- With branches, the gap after the test is the one before the question mark.
    · exact ⟨c₁, c₄, c₅, c₆, c₇, c₈, htest, hgap, hrest⟩

end

/-- Expressions span the text they are read from, by induction on the
nesting. -/
theorem expression_yields : (nesting : Nat) → (expression nesting).Yields Phrase.Spans
  | 0 => by
      intro c a value c' a' h
      cases h
  | nesting + 1 => expressionOver_yields (expression_yields nesting)

/-- A formula spans the whole text, with gaps around it and nothing left. -/
theorem main_yields (nesting : Nat) :
    (main nesting).Yields fun p cs rest =>
      ∃ c₁ c₂, Gap cs c₁ ∧ p.Spans c₁ c₂ ∧ Gap c₂ [] ∧ rest = [] := by
  refine ((Yields.skip.bind fun _ => (expression_yields nesting).bind fun p =>
    Yields.skip.bind fun _ => (Yields.token .endOfInput _).bind fun _ =>
    .pure p).tracked .main).imp ?_
  rintro _ cs rest ⟨_, c₁, hgap, p, c₂, hp, _, c₃, hgap', _, c₄, hend, rfl, rfl⟩
  split at hend
  · rename_i hempty
    cases hend
    obtain rfl := List.isEmpty_iff.1 hempty
    exact ⟨c₁, c₂, hgap, hp, hgap', rfl⟩
  · cases hend

end Grammar

end Formula
