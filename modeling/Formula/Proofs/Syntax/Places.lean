import Formula.Proofs.Syntax.Pairing

/-!
# `Formula.Proofs.Syntax.Places`: where a text is found wanting

Places in a text are counted in bytes. The matchers go from one character
boundary to another, and note their attempts at such places only; so an
error of the grammar points between two characters, and tells the one
after it. The scan of the nesting points at a bracket, a question mark or
a sign, which is one byte long.

* `Cursor.On`, `Attempts.On`: a place that lies between two characters of
  a text.
* `Matcher.StaysOn`: a matcher keeps to such places. Each way of putting
  matchers together has its rule.
* `main_staysOn`: the grammar keeps to them.
* `parseByPairs_pointed`: all the ways in which a text can be refused.
-/

set_option autoImplicit false

namespace Formula

/-! ### Bytes -/

/-- The bytes of two texts add up. -/
theorem byteLength_append (before after : List Char) :
    byteLength (before ++ after) = byteLength before + byteLength after := by
  induction before with
  | nil => exact (Nat.zero_add _).symm
  | cons c before ih => rw [List.cons_append, byteLength, byteLength, ih, Nat.add_assoc]

/-- Only the empty text has no bytes, as every character has at least one. -/
theorem byteLength_eq_zero_iff {cs : List Char} : byteLength cs = 0 ↔ cs = [] := by
  cases cs with
  | nil => exact iff_of_true rfl rfl
  | cons c cs =>
      have hpos := c.utf8Size_pos
      simp only [byteLength, reduceCtorEq, iff_false]
      omega

/-- The character at the place between two parts of a text is the first of
the second part. -/
theorem charAtByte?_append (before after : List Char) :
    charAtByte? (before ++ after) (byteLength before) = after.head? := by
  induction before with
  | nil => cases after <;> rfl
  | cons c before ih =>
      have hpos := c.utf8Size_pos
      have hne : c.utf8Size + byteLength before ≠ 0 := by omega
      rw [List.cons_append, byteLength, charAtByte?, if_neg hne, if_neg (by omega),
        Nat.add_sub_cancel_left, ih]

/-! ### Places -/

/-- The cursor stands between two characters of the text, before those that
it has left. -/
def Cursor.On (cs : List Char) (c : Cursor) : Prop :=
  ∃ before, cs = before ++ c.rest ∧ c.offset = byteLength before

/-- The attempts were made between two characters of the text. -/
def Attempts.On (cs : List Char) (a : Attempts) : Prop :=
  ∃ before after, cs = before ++ after ∧ a.offset = byteLength before

section

variable {cs : List Char}

/-- A cursor that moves over a text comes to a place again. -/
theorem Cursor.On.move {c : Cursor} {text rest : List Char} (h : c.On cs)
    (hrest : c.rest = text ++ rest) : Cursor.On cs ⟨c.offset + byteLength text, rest⟩ := by
  obtain ⟨before, hcs, hoffset⟩ := h
  refine ⟨before ++ text, ?_, ?_⟩
  · rw [hcs, hrest, List.append_assoc]
  · rw [byteLength_append, ← hoffset]

/-- Skipping spaces leads from place to place: a space is one byte, so
counting characters counts bytes here. -/
theorem Cursor.On.skipSpace {c : Cursor} (h : c.On cs) : (Matcher.Cursor.skipSpace c).On cs := by
  have hspace : ∀ d ∈ c.rest.takeWhile Matcher.isSpace, d.utf8Size = 1 := by
    intro d hd
    have hd := List.all_eq_true.1 List.all_takeWhile d hd
    simp only [Matcher.isSpace, Bool.or_eq_true, beq_iff_eq] at hd
    rcases hd with ((rfl | rfl) | rfl) | rfl <;> rfl
  -- The induction is on the spaces alone; what they are a prefix of plays no part.
  have hlength : byteLength (c.rest.takeWhile Matcher.isSpace)
      = (c.rest.takeWhile Matcher.isSpace).length := by
    revert hspace
    induction c.rest.takeWhile Matcher.isSpace with
    | nil => exact fun _ => rfl
    | cons d ds ih =>
        intro hspace
        obtain ⟨hd, hds⟩ := List.forall_mem_cons.1 hspace
        rw [byteLength, hd, ih hds, List.length_cons, Nat.add_comm]
  have hmove := h.move (List.takeWhile_append_dropWhile (p := Matcher.isSpace)).symm
  rw [hlength] at hmove
  exact hmove

/-- A failed rule is noted where it began, or the attempts stay where they
are. -/
theorem Attempts.On.failed {before after : Attempts} {c : Cursor} (rule : Rule)
    (hc : c.On cs) (hafter : after.On cs) : (before.failed after rule c.offset).On cs := by
  have hstart : ∀ rules, Attempts.On cs ⟨c.offset, rules⟩ := fun _ =>
    hc.imp fun _ h => ⟨c.rest, h⟩
  unfold Attempts.failed
  split
  · exact hafter
  · split
    · exact hstart _
    · split
      · exact hstart _
      · exact hafter

end

/-! ### Matchers that keep to places -/

namespace Matcher

variable {α β : Type}

/-- An answer at places of the text. -/
inductive Kept (cs : List Char) : Reply α × Attempts → Prop
  | matched {value : α} {c : Cursor} {a : Attempts} (hc : c.On cs) (ha : a.On cs) :
      Kept cs (.matched value c, a)
  | failed {a : Attempts} (ha : a.On cs) : Kept cs (.failed, a)
  | tooDeep {a : Attempts} (ha : a.On cs) : Kept cs (.tooDeep, a)

/-- From a place of the text the matcher goes to a place of the text, and
its attempts are noted at such places. -/
def StaysOn (cs : List Char) (p : Matcher α) : Prop :=
  ∀ c a, c.On cs → a.On cs → Kept cs (p c a)

namespace StaysOn

variable {cs : List Char} {p q : Matcher α}

/-- Nothing moves. -/
theorem pure (value : α) : (Pure.pure value : Matcher α).StaysOn cs :=
  fun _ _ hc ha => .matched hc ha

/-- Giving up leaves the attempts as they are. -/
theorem tooDeep : (Matcher.tooDeep : Matcher α).StaysOn cs := fun _ _ _ ha => .tooDeep ha

/-- Two matchers in a row. -/
theorem bind {f : α → Matcher β} (hp : p.StaysOn cs) (hf : ∀ value, (f value).StaysOn cs) :
    (p >>= f).StaysOn cs := by
  intro c a hc ha
  change Kept cs (andThen p f c a)
  rw [andThen]
  have hstep := hp c a hc ha
  generalize p c a = r at hstep
  cases hstep with
  | matched hc ha => exact hf _ _ _ hc ha
  | failed ha => exact .failed ha
  | tooDeep ha => exact .tooDeep ha

/-- What is made of a match does not move the cursor. -/
theorem map (f : α → β) (hp : p.StaysOn cs) : (f <$> p).StaysOn cs :=
  hp.bind fun value => pure (f value)

/-- The second alternative begins where the first one did. -/
theorem orElse (hp : p.StaysOn cs) (hq : q.StaysOn cs) : (p.orElse q).StaysOn cs := by
  intro c a hc ha
  rw [Matcher.orElse]
  have hstep := hp c a hc ha
  generalize p c a = r at hstep
  cases hstep with
  | matched hc ha => exact .matched hc ha
  | failed ha => exact hq c _ hc ha
  | tooDeep ha => exact .tooDeep ha

/-- Alternatives that all keep to places. -/
theorem firstOf : {ps : List (Matcher α)} → (∀ p ∈ ps, p.StaysOn cs) → (firstOf ps).StaysOn cs
  | [], _ => fun _ _ _ ha => .failed ha
  | p :: _, hps =>
      orElse (hps p List.mem_cons_self) (firstOf fun q hq => hps q (List.mem_cons_of_mem p hq))

/-- A match that may be left out. -/
theorem optional (hp : p.StaysOn cs) : (optional p).StaysOn cs := orElse (hp.map some) (pure none)

/-- A rule is noted at the cursor it began with, which is a place. -/
theorem tracked (rule : Rule) (hp : p.StaysOn cs) : (tracked rule p).StaysOn cs := by
  intro c a hc ha
  rw [Matcher.tracked]
  have hstep := hp c a hc ha
  generalize p c a = r at hstep
  cases hstep with
  | matched hc ha => exact .matched hc ha
  | failed ha => exact .failed (.failed rule hc ha)
  | tooDeep ha => exact .tooDeep ha

/-- Skipping spaces. -/
theorem skip : Matcher.skip.StaysOn cs := fun _ _ hc ha => .matched hc.skipSpace ha

/-- One character, and the cursor moves by its bytes. -/
theorem char (expected : Char) : (char expected).StaysOn cs := by
  intro c a hc ha
  unfold Matcher.char
  split
  · rename_i d rest hrest
    split
    · have hmove : Cursor.On cs ⟨c.offset + byteLength [d], rest⟩ := hc.move hrest
      exact .matched hmove ha
    · exact .failed ha
  · exact .failed ha

/-- A token, if its scanner splits the text before it. -/
theorem token (rule : Rule) {scan : List Char → Option (α × List Char)}
    (hscan : ∀ {cs value rest}, scan cs = some (value, rest) → ∃ text, cs = text ++ rest) :
    (token rule scan).StaysOn cs := by
  refine tracked rule ?_
  intro c a hc ha
  -- The cursor moves by the difference of two lengths, which is the length of the token.
  dsimp only
  split
  · rename_i value rest hfound
    obtain ⟨text, htext⟩ := hscan hfound
    rw [htext, byteLength_append, Nat.add_sub_cancel]
    exact .matched (hc.move htext) ha
  · exact .failed ha

/-- A repetition. A round that fails leaves the cursor before the spaces. -/
theorem manyAfterSpace (hp : p.StaysOn cs) : (fuel : Nat) → (manyAfterSpace p fuel).StaysOn cs
  | 0 => pure []
  | fuel + 1 => by
      intro c a hc ha
      simp only [Matcher.manyAfterSpace]
      have hstep := hp (Cursor.skipSpace c) a hc.skipSpace ha
      generalize p (Cursor.skipSpace c) a = r at hstep
      cases hstep with
      | matched hc ha => exact (manyAfterSpace hp fuel).map _ _ _ hc ha
      | failed ha => exact .matched hc ha
      | tooDeep ha => exact .tooDeep ha

/-- A repetition, its first round without spaces before it. -/
theorem many (hp : p.StaysOn cs) : (many p).StaysOn cs := by
  intro c a hc ha
  rw [Matcher.many]
  have hstep := hp c a hc ha
  generalize p c a = r at hstep
  cases hstep with
  | matched hc ha => exact (manyAfterSpace hp _).map _ _ _ hc ha
  | failed ha => exact .matched hc ha
  | tooDeep ha => exact .tooDeep ha

/-- Matches with commas between them. -/
theorem separated (hp : p.StaysOn cs) : (separated p).StaysOn cs := by
  have hnext : ((Matcher.char ',').andThen fun _ => Matcher.skip.andThen fun _ => p).StaysOn cs :=
    bind (char ',') fun _ => bind skip fun _ => hp
  -- One round behind the first match: a comma, spaces, a match.
  intro c a hc ha
  rw [Matcher.separated]
  have hstep := hp c a hc ha
  generalize p c a = r at hstep
  cases hstep with
  | matched hc ha => exact (bind skip fun _ => hnext.many.map _) _ _ hc ha
  | failed ha => exact .matched hc ha
  | tooDeep ha => exact .tooDeep ha

end StaysOn

end Matcher

/-! ### The grammar keeps to places -/

namespace Grammar

open Matcher

variable {cs : List Char}

/-- The scanner of an operator takes off its symbol. -/
theorem binaryOperator_staysOn : binaryOperator.StaysOn cs := by
  refine .firstOf fun p hp => ?_
  obtain ⟨entry, -, rfl⟩ := List.mem_map.1 hp
  exact .token entry.1 fun h => ⟨_, (Token.eq_append_of_binaryOperator h).2⟩

/-- The scanner of a sign takes off its symbol. -/
theorem unaryOperator_staysOn : unaryOperator.StaysOn cs :=
  .token .unary fun h => ⟨_, Token.eq_append_of_unaryOperator h⟩

/-- The scanner of the truth values takes off one of the two words. -/
theorem boolean_staysOn : boolean.StaysOn cs := by
  refine (StaysOn.token .boolean fun h => ?_).map _
  rcases Token.eq_append_of_boolean h with ⟨hcs, -⟩ | ⟨hcs, -⟩
  · exact ⟨_, hcs⟩
  · exact ⟨_, hcs⟩

/-- The scanner of strings takes off both quotes with what is between them. -/
theorem string_staysOn : string.StaysOn cs := by
  refine (StaysOn.token .string fun h => ?_).map _
  obtain ⟨quote, body, rfl, -⟩ := Token.eq_append_of_string h
  exact ⟨quote :: (body ++ [quote]), by simp⟩

section

variable {nested : Matcher Phrase} (hnested : nested.StaysOn cs)

include hnested

/-- A list in brackets. -/
theorem bracketed_staysOn (opening closing : Char) :
    (bracketed nested opening closing).StaysOn cs :=
  .bind (.char opening) fun _ => .bind .skip fun _ => .bind hnested.separated fun _ =>
    .bind .skip fun _ => .bind (.char closing) fun _ => .pure _

/-- An expression between brackets. -/
theorem bracket_staysOn {α : Type} (opening closing : Char) (f : Phrase → α) :
    (do
      char opening
      skip
      let inner ← nested
      skip
      char closing
      return f inner : Matcher α).StaysOn cs :=
  .bind (.char opening) fun _ => .bind .skip fun _ => .bind hnested fun _ =>
    .bind .skip fun _ => .bind (.char closing) fun _ => .pure _

/-- Six of the primary expressions are tokens, and two have brackets. -/
theorem primary_staysOn : (primary nested).StaysOn cs := by
  refine .firstOf fun p hp => ?_
  -- The alternatives one by one, in the order of the grammar.
  simp only [List.mem_cons, List.not_mem_nil, or_false] at hp
  rcases hp with rfl | rfl | rfl | rfl | rfl | rfl | rfl | rfl
  · exact (StaysOn.token .number fun h => ⟨_, Token.eq_append_of_number h⟩).map _
  · exact string_staysOn
  · exact boolean_staysOn
  · exact (StaysOn.token .null fun h => ⟨_, Token.eq_append_of_word h⟩).map _
  · exact (StaysOn.token .this fun h => ⟨_, Token.eq_append_of_word h⟩).map _
  · exact (StaysOn.token .identifier fun h => ⟨_, (Token.eq_append_of_identifier h).1⟩).map _
  · exact ((bracketed_staysOn hnested '[' ']').tracked .array).map _
  · exact bracket_staysOn hnested '(' ')' Primary.grouped

/-- A call, an index, or a name after a dot. -/
theorem suffix_staysOn : (suffix nested).StaysOn cs := by
  refine .firstOf fun p hp => ?_
  simp only [List.mem_cons, List.not_mem_nil, or_false] at hp
  rcases hp with rfl | rfl | rfl
  · exact ((bracketed_staysOn hnested '(' ')').tracked .call).map _
  · exact (bracket_staysOn hnested '[' ']' Suffix.index).tracked .index
  · exact .tracked .field (.bind (.char '.') fun _ => .bind .skip fun _ =>
      (StaysOn.token .propertyName fun h => ⟨_, (Token.eq_append_of_propertyName h).1⟩).map _)

/-- Signs, a primary expression and suffixes. -/
theorem operand_staysOn : (operand nested).StaysOn cs :=
  .bind unaryOperator_staysOn.many fun _ => .bind .skip fun _ =>
    .bind (primary_staysOn hnested) fun _ => .bind .skip fun _ =>
    .bind (suffix_staysOn hnested).many fun _ => .pure _

/-- Operands with operators between them. -/
theorem binary_staysOn : (binary nested).StaysOn cs := by
  have hoperation : (operation nested).StaysOn cs :=
    .bind binaryOperator_staysOn fun _ => .bind .skip fun _ =>
      .bind (operand_staysOn hnested) fun _ => .pure _
  exact .tracked .binary (.bind (operand_staysOn hnested) fun _ => .bind .skip fun _ =>
    .bind hoperation.many fun _ => .pure _)

/-- One level of the grammar keeps to places if the deeper one does. -/
theorem expressionOver_staysOn : (expressionOver nested).StaysOn cs := by
  have hbranches : (branches nested).StaysOn cs :=
    .bind (.char '?') fun _ => .bind .skip fun _ => .bind hnested fun _ =>
      .bind .skip fun _ => .bind (.char ':') fun _ => .bind .skip fun _ =>
      .bind hnested fun _ => .pure _
  refine .tracked .expression (.bind (binary_staysOn hnested) fun _ => .bind .skip fun _ =>
    .bind hbranches.optional fun branches? => ?_)
  cases branches? with
  | none => exact .pure _
  | some _ => exact .pure _

end

/-- Expressions keep to places, by induction on the nesting. -/
theorem expression_staysOn : (nesting : Nat) → (expression nesting).StaysOn cs
  | 0 => .tooDeep
  | nesting + 1 => expressionOver_staysOn (expression_staysOn nesting)

/-- Formulas keep to places. The end of the input is a token without text. -/
theorem main_staysOn (nesting : Nat) : (main nesting).StaysOn cs := by
  refine .tracked .main (.bind .skip fun _ => .bind (expression_staysOn nesting) fun _ =>
    .bind .skip fun _ => .bind (.token .endOfInput fun h => ⟨[], ?_⟩) fun _ => .pure _)
  -- The end is matched by the empty text only.
  split at h
  · cases h
    rfl
  · cases h

end Grammar

/-! ### The scan of the nesting -/

namespace Nesting

/-- What opens a level is a character of one byte. -/
theorem utf8Size_of_opened {s : State} {c : Char} {next : Option Char}
    (h : (step s c next).2 = true) : c.utf8Size = 1 := by
  unfold step at h
  split at h
  · cases h
  · unfold stepCode at h
    split_ifs at h with _ _ hopen _ hquestion _ hsign
    · rcases hopen with rfl | rfl <;> rfl
    · rw [hquestion]
      rfl
    · have hprefix := hsign.1
      simp only [isPrefixSign, Bool.or_eq_true, beq_iff_eq] at hprefix
      rcases hprefix with ((rfl | rfl) | rfl) | rfl <;> rfl

/-- The scan reports the place of the character that opens the level too
many, one byte long. -/
theorem span_of_scan {limit : Nat} {s : State} {offset : Nat} {cs : List Char} {e : Excess}
    (h : scan limit s offset cs = some e) : ∃ before c after, cs = before ++ c :: after ∧
      c.utf8Size = 1 ∧ e.span = ⟨offset + byteLength before, offset + byteLength before + 1⟩ := by
  induction cs generalizing s offset with
  | nil => cases h
  | cons c cs ih =>
      rw [scan] at h
      dsimp only at h
      split at h
      · rename_i hopened
        cases h
        have hsize := utf8Size_of_opened hopened.1
        exact ⟨[], c, cs, rfl, hsize, by rw [hsize]; rfl⟩
      -- The offset has moved by the first character already.
      · obtain ⟨before, d, after, rfl, hsize, hspan⟩ := ih h
        exact ⟨c :: before, d, after, rfl, hsize, by rw [hspan, byteLength, Nat.add_assoc]⟩

end Nesting

/-! ### The errors -/

/-- How a text can be refused. -/
inductive ParseError.Pointed (source : String) (limit : Nat) : ParseError → Prop
  /-- Nothing goes on at a place between two characters. The character that
  follows is told in quotes, and the end of the text just where it is. -/
  | unexpected (expected found : String) (before after : List Char)
      (hsource : source.toList = before ++ after)
      (hchar : ∀ c ∈ after.head?, found = s!"'{c}'")
      (hend : found = "end of input" ↔ byteLength before = byteLength source.toList) :
      Pointed source limit
        ⟨.unexpected expected found, source, ⟨byteLength before, byteLength before⟩⟩
  /-- A character of one byte opens a level too many. -/
  | tooDeep (depth : Nat) (before : List Char) (c : Char) (after : List Char)
      (hsource : source.toList = before ++ c :: after) (hsize : c.utf8Size = 1) :
      Pointed source limit
        ⟨.tooDeep depth limit, source, ⟨byteLength before, byteLength before + 1⟩⟩

/-- What is told of a place is the character after it, or the end. -/
theorem ParseError.foundText_append {source : String} {before after : List Char}
    (hsource : source.toList = before ++ after) :
    foundText [] source ⟨byteLength before, byteLength before⟩
      = after.head?.elim "end of input" fun c => s!"'{c}'" := by
  rw [foundText, hsource, charAtByte?_append]
  cases after <;> rfl

/-- The attempts at a place of the text tell what is found there. -/
theorem ParseError.pointed_mismatch {source : String} {a : Attempts} (limit : Nat)
    (ha : a.On source.toList) : (Grammar.mismatch source a).Pointed source limit := by
  obtain ⟨before, after, hsource, hoffset⟩ := ha
  rw [Grammar.mismatch, ofExpectation, hoffset, foundText_append hsource]
  refine .unexpected _ _ before after hsource ?_ ?_
  · intro c hc
    rw [Option.mem_def.1 hc]
    rfl
  · have hlength : byteLength before = byteLength source.toList ↔ after = [] := by
      rw [hsource, byteLength_append, left_eq_add, byteLength_eq_zero_iff]
    rw [hlength]
    cases after with
    | nil => exact iff_of_true rfl rfl
    | cons c after =>
        refine iff_of_false (fun h => ?_) nofun
        -- A character in quotes begins with a quote.
        have hquote : (s!"'{c}'").toList.head? = "end of input".toList.head? :=
          congrArg (fun s => s.toList.head?) h
        have hhead : (s!"'{c}'").toList.head? = some '\'' := by
          simp [toString]
        rw [hhead] at hquote
        exact absurd hquote (by decide)

/-- The error of the scan points at the bracket, question mark or sign that
it stopped at. -/
theorem ParseError.pointed_check {source : String} {limit : Nat} {error : ParseError}
    (h : Nesting.check source limit = .error error) : error.Pointed source limit := by
  rw [Nesting.check] at h
  split at h
  · rename_i e hexcess
    cases h
    obtain ⟨before, c, after, hsource, hsize, hspan⟩ := Nesting.span_of_scan hexcess
    rw [hspan, Nat.zero_add]
    exact .tooDeep e.depth before c after hsource hsize
  · cases h

/-- Every error of a parse points: the scan has its own, and otherwise the
grammar tells its last attempts. -/
theorem parse_pointed {source : String} {limit : Nat} {error : ParseError}
    (h : parse source limit = .error error) : error.Pointed source limit := by
  rw [parse] at h
  rcases hcheck : Nesting.check source limit with e | ⟨⟩ <;> rw [hcheck] at h
  · cases h
    exact ParseError.pointed_check hcheck
  have hsafe := Grammar.main_enoughNesting source
  have hkept : Matcher.Kept source.toList (Grammar.main (Grammar.enoughNesting source)
      (Grammar.startOf source) .none) :=
    Grammar.main_staysOn _ _ _ ⟨[], rfl, rfl⟩ ⟨[], _, rfl, rfl⟩
  rw [phraseOf, Grammar.run] at h
  generalize Grammar.main (Grammar.enoughNesting source) (Grammar.startOf source) .none = r
    at h hkept hsafe
  cases hkept with
  | matched hc ha => cases h
  | failed ha =>
      cases h
      exact ParseError.pointed_mismatch limit ha
  -- There is nesting enough for every text.
  | tooDeep ha => exact absurd rfl hsafe

/-- A text is read by way of its pairs without a breakdown, and what comes
of it is what comes of it without them: a tree, or an error that points at
a place of the text, either at a character that does not go on there or at
the end, or at a character that opens a level too many. -/
theorem parseByPairs_pointed (source : String) (limit : Nat) :
    parseByPairs source limit = .given (parse source limit) ∧
      ((∃ e, parse source limit = .ok e) ∨
        ∃ error, parse source limit = .error error ∧ error.Pointed source limit) := by
  refine ⟨parseByPairs_eq source limit, ?_⟩
  rcases h : parse source limit with error | e
  · exact .inr ⟨error, rfl, parse_pointed h⟩
  · exact .inl ⟨e, rfl⟩

end Formula
