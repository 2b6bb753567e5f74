import Formula.Proofs.Syntax.Spelling

/-!
# `Formula.Proofs.Syntax.Embedding`: a text inside of a longer one

A scanner looks one character beyond the token that it finds, to see that
the token does not go on. The end of the text and a closing bracket or a
comma tell it the same. What a text spells is therefore spelled by the
text with a closing bracket or a comma behind it.

* `Token.Local`: a scanner that finds the same in front of a closing
  bracket or a comma as at the end of a text. Words and numbers are read
  by such scanners.
* `Phrase.spans_append`: an expression that is spelled by a text is
  spelled by it in front of a closing bracket or a comma.
-/

set_option autoImplicit false

namespace Formula

/-- The text begins with a closing bracket or a comma. -/
def Stops (t : List Char) : Prop := ∃ c t', t = c :: t' ∧ c ∈ [')', ']', ',']

/-- What a computation finds of the closing brackets and the comma. -/
theorem Stops.head {t : List Char} (ht : Stops t) {P : Char → Bool}
    (hP : ([')', ']', ','].all fun c => !P c) = true) : ∃ c t', t = c :: t' ∧ P c = false := by
  obtain ⟨c, t', rfl, hc⟩ := ht
  exact ⟨c, t', rfl, by simpa using List.all_eq_true.1 hP c hc⟩

namespace Token

variable {α : Type} {cs t : List Char}

/-! ### Scanners -/

/-- In front of a closing bracket or a comma the scanner finds what it
finds at the end of the text. -/
def Local (scan : Scanner α) : Prop :=
  ∀ cs t, Stops t → scan (cs ++ t) = (scan cs).map fun found => (found.1, found.2 ++ t)

/-- What a local scanner finds, it finds in front of a stop. -/
theorem Local.eq_some {scan : Scanner α} (h : Local scan) {value : α} {rest : List Char}
    (hscan : scan cs = some (value, rest)) (ht : Stops t) :
    scan (cs ++ t) = some (value, rest ++ t) := by
  rw [h cs t ht, hscan]
  rfl

/-- Characters of a class that ends before the stop. -/
theorem takeWhile_append_stop {P : Char → Bool} {c : Char} (hc : P c = false)
    (cs t : List Char) : (cs ++ c :: t).takeWhile P = cs.takeWhile P ∧
      (cs ++ c :: t).dropWhile P = cs.dropWhile P ++ c :: t := by
  induction cs with
  | nil => simp [hc]
  | cons d cs ih =>
      cases hd : P d <;> simp [hd, ih]

/-- Digits end before a stop, which is no digit. -/
theorem digits_local : Local digits := by
  intro cs t ht
  obtain ⟨c, t', rfl, hc⟩ := ht.head (P := Char.isDigit) rfl
  obtain ⟨htake, hdrop⟩ := takeWhile_append_stop hc cs t'
  rw [digits, digits, htake, hdrop]
  cases cs.takeWhile Char.isDigit <;> rfl

/-- Names end before a stop, which belongs to no word. -/
theorem propertyName_local : Local propertyName := by
  intro cs t ht
  obtain ⟨c, t', rfl, hc⟩ := ht.head (P := isWordChar) rfl
  -- With nothing before it, the stop itself would have to begin the name.
  cases cs with
  | nil =>
      have hstart : isWordStart c = false := by
        simp only [isWordChar, Bool.or_eq_false_iff] at hc
        exact hc.1
      simp [propertyName, hstart]
  | cons d cs =>
      obtain ⟨htake, hdrop⟩ := takeWhile_append_stop hc cs t'
      rw [List.cons_append, propertyName, propertyName, htake, hdrop]
      split <;> rfl

/-- A text without stops is not found across one. -/
theorem dropText?_append {text : List Char} (htext : ∀ c ∈ text, c ∉ [')', ']', ','])
    (ht : Stops t) : dropText? text (cs ++ t) = (dropText? text cs).map (· ++ t) := by
  induction text generalizing cs with
  | nil => rfl
  | cons d text ih =>
      -- The text would go on across the stop only if it contained it.
      cases cs with
      | nil =>
          obtain ⟨c, t', rfl, hc⟩ := ht
          have hne : d ≠ c := fun heq => htext d List.mem_cons_self (heq ▸ hc)
          simp [dropText?, hne]
      | cons c cs =>
          have hmore : dropText? text (cs ++ t) = (dropText? text cs).map (· ++ t) :=
            ih fun e he => htext e (List.mem_cons_of_mem d he)
          rw [List.cons_append, dropText?, dropText?]
          split
          · exact hmore
          · rfl

/-- A word of the language that has no stop in it. -/
theorem word_local (text : String) (htext : ∀ c ∈ text.toList, c ∉ [')', ']', ',']) :
    Local (word text) := by
  intro cs t ht
  -- Whether the word has ended is asked of one character more, and the stop answers as the end
  -- does.
  have hends (rest : List Char) : wordEnds (rest ++ t) = wordEnds rest := by
    cases rest with
    | nil =>
        obtain ⟨c, t', rfl, hc⟩ := ht.head (P := isWordChar) rfl
        simp [wordEnds, hc]
    | cons c rest => rfl
  rw [word, word, dropText?_append htext ht]
  cases dropText? text.toList cs with
  | none => rfl
  | some rest =>
      simp only [Option.map_some, hends]
      split <;> rfl

/-- Whether one of the words stands there. -/
theorem keyword_local : Local keyword := by
  intro cs t ht
  have hword : ∀ text ∈ keywords, Local (word text) := by
    intro text htext
    simp only [keywords, List.mem_cons, List.not_mem_nil, or_false] at htext
    rcases htext with rfl | rfl | rfl | rfl <;> exact word_local _ (forall_mem_of_all rfl)
  unfold keyword
  -- By induction on the list of words, each of which is local.
  revert hword
  induction keywords with
  | nil => exact fun _ => rfl
  | cons text texts ih =>
      intro hword
      rw [List.findSome?_cons, List.findSome?_cons, hword text List.mem_cons_self cs t ht]
      cases word text cs with
      | none => exact ih fun text' h => hword text' (List.mem_cons_of_mem text h)
      | some found => rfl

/-- Identifiers are names that are no words of the language. -/
theorem identifier_local : Local identifier := by
  intro cs t ht
  rw [identifier, identifier, keyword_local cs t ht, propertyName_local cs t ht]
  cases keyword cs <;> rfl

/-- The truth values are two of the words. -/
theorem boolean_local : Local boolean := by
  intro cs t ht
  rw [boolean, boolean, word_local "true" (forall_mem_of_all rfl) cs t ht,
    word_local "false" (forall_mem_of_all rfl) cs t ht]
  cases word "true" cs with
  | none => cases word "false" cs <;> rfl
  | some found => rfl

/-- A mantissa ends before a stop, which is neither a digit nor a point. -/
theorem mantissa_local : Local mantissa := by
  intro cs t ht
  obtain ⟨c, t', rfl, hpoint⟩ := ht.head (P := (· == '.')) rfl
  obtain ⟨c', t'', heq, hdigit⟩ := ht.head (P := Char.isDigit) rfl
  obtain ⟨rfl, rfl⟩ := List.cons.inj heq
  have hne : c ≠ '.' := by simpa using hpoint
  unfold mantissa
  rw [digits_local cs _ ht]
  -- Without digits before the point there have to be some behind it.
  rcases digits cs with _ | ⟨whole, rest⟩ <;> dsimp only [Option.map]
  · cases cs with
    | nil => simp [hne]
    | cons d cs =>
        by_cases hd : d = '.'
        · subst hd
          simp only [List.cons_append, digits_local cs _ ht]
          cases digits cs <;> rfl
        · simp [hd]
  · -- Behind the digits before the point comes what was there or the stop, which is no point.
    cases rest with
    | nil => simp [hne]
    | cons d rest =>
        by_cases hd : d = '.'
        · subst hd
          obtain ⟨htake, hdrop⟩ := takeWhile_append_stop hdigit rest t'
          simp [htake, hdrop]
        · simp [hd]

/-- A sign is taken alike, for a stop is none. -/
theorem sign_append (ht : Stops t) : sign (cs ++ t) = ((sign cs).1, (sign cs).2 ++ t) := by
  cases cs with
  | nil =>
      obtain ⟨c, t', rfl, hc⟩ := ht
      simp only [List.mem_cons, List.not_mem_nil, or_false] at hc
      -- The three stops one by one: none is a sign.
      rcases hc with rfl | rfl | rfl <;> rfl
  | cons d cs =>
      by_cases hplus : d = '+'
      · subst hplus
        rfl
      · by_cases hminus : d = '-'
        · subst hminus
          rfl
        · simp [sign, hplus, hminus]

/-- An exponent ends before a stop, and none begins with one. -/
theorem exponent_local : Local exponent := by
  intro cs t ht
  -- With nothing before it, the stop would have to be the letter.
  cases cs with
  | nil =>
      obtain ⟨c, t', rfl, hc⟩ := ht.head (P := fun c => c = 'e' ∨ c = 'E') rfl
      exact if_neg (of_decide_eq_false hc)
  | cons d cs =>
      rw [List.cons_append, exponent, exponent]
      split
      · rw [sign_append ht]
        simp only [digits_local _ t ht]
        cases digits (sign cs).2 <;> rfl
      · rfl

/-- A numeral is a mantissa with or without an exponent, and both are local. -/
theorem number_local : Local number := by
  intro cs t ht
  rw [number, number, mantissa_local cs t ht]
  rcases mantissa cs with _ | ⟨m, rest⟩
  · rfl
  · simp only [Option.map_some, exponent_local rest t ht]
    cases exponent rest <;> rfl

/-! ### Strings -/

/-- A string ends with its quote, whatever comes behind it. -/
theorem stringBody_append {quote : Char} {body rest : List Char}
    (h : stringBody quote cs = some (body, rest)) (t : List Char) :
    stringBody quote (cs ++ t) = some (body, rest ++ t) := by
  -- The cases are those of the definition. A string that is not closed is not found, so the end
  -- of the text does not matter.
  induction cs using stringBody.induct quote generalizing body with
  | case1 => cases h
  | case2 =>
      obtain ⟨rfl, rfl⟩ : body = [] ∧ rest = [] := by simpa [stringBody, eq_comm] using h
      cases t <;> simp [stringBody]
  | case3 c hc => simp [stringBody, hc] at h
  | case4 d cs =>
      obtain ⟨rfl, rfl⟩ : body = [] ∧ rest = d :: cs := by simpa [stringBody, eq_comm] using h
      simp [stringBody]
  | case5 d cs hquoted ih =>
      simp only [stringBody, hquoted, if_false, if_true] at h
      obtain ⟨⟨body', rest'⟩, hbody, hsome⟩ := Option.map_eq_some_iff.1 h
      cases hsome
      simp [stringBody, hquoted, ih hbody]
  | case6 c d cs hc hescape ih =>
      simp only [stringBody, hc, hescape, if_false] at h
      obtain ⟨⟨body', rest'⟩, hbody, hsome⟩ := Option.map_eq_some_iff.1 h
      cases hsome
      have hmore : stringBody quote (d :: (cs ++ t)) = some (body', rest' ++ t) := ih hbody
      simp [stringBody, hc, hescape, hmore]

/-- A string ends at its quote, whatever stands behind it. -/
theorem string_append {s : String} {rest : List Char} (h : string cs = some (s, rest))
    (t : List Char) : string (cs ++ t) = some (s, rest ++ t) := by
  cases cs with
  | nil => cases h
  | cons c cs =>
      rw [string] at h
      split at h
      · rename_i hc
        obtain ⟨⟨body, rest'⟩, hbody, hsome⟩ := Option.map_eq_some_iff.1 h
        cases hsome
        rw [List.cons_append, string, if_pos hc, stringBody_append hbody t]
        rfl
      · cases h

end Token

/-! ### Expressions -/

/-- A gap is one in front of any text. -/
theorem Gap.append {cs rest : List Char} (h : Gap cs rest) (t : List Char) :
    Gap (cs ++ t) (rest ++ t) := by
  obtain ⟨spaces, rfl, hspaces⟩ := h
  exact ⟨spaces, List.append_assoc _ _ _, hspaces⟩

/-- The text behind a symbol. -/
theorem Gap.append_text {text cs rest : List Char} (h : Gap cs (text ++ rest)) (t : List Char) :
    Gap (cs ++ t) (text ++ (rest ++ t)) := by
  rw [← List.append_assoc]
  exact h.append t

variable {t : List Char}

mutual

/-- An expression is spelled in front of a closing bracket or a comma as at
the end of a text. -/
theorem Phrase.spans_append (ht : Stops t) : (p : Phrase) → {cs rest : List Char} →
    p.Spans cs rest → p.Spans (cs ++ t) (rest ++ t)
  | .plain chain, _, _, ⟨_, hchain, hgap⟩ => ⟨_, chain.spans_append ht hchain, hgap.append t⟩
  | .conditional test consequent alternate, _, _,
      ⟨_, _, _, _, _, _, htest, hgap, hgap', hconsequent, hcolon, hgap'', halternate⟩ =>
      ⟨_, _, _, _, _, _, test.spans_append ht htest, hgap.append t, hgap'.append t,
        consequent.spans_append ht hconsequent, hcolon.append t, hgap''.append t,
        alternate.spans_append ht halternate⟩

/-- Expressions with commas before each. -/
theorem Phrase.spanMore_append (ht : Stops t) : (ps : List Phrase) → {cs rest : List Char} →
    Phrase.SpanMore ps cs rest → Phrase.SpanMore ps (cs ++ t) (rest ++ t)
  | [], _, _, h => congrArg (· ++ t) h
  | p :: ps, _, _, ⟨_, _, _, hcomma, hgap, hp, hps⟩ =>
      ⟨_, _, _, hcomma.append t, hgap.append t, p.spans_append ht hp,
        Phrase.spanMore_append ht ps hps⟩

/-- Expressions with commas between them. -/
theorem Phrase.spanAll_append (ht : Stops t) : (ps : List Phrase) → {cs rest : List Char} →
    Phrase.SpanAll ps cs rest → Phrase.SpanAll ps (cs ++ t) (rest ++ t)
  | [], _, _, h => congrArg (· ++ t) h
  | p :: ps, _, _, ⟨_, _, hp, hgap, hps⟩ =>
      ⟨_, _, p.spans_append ht hp, hgap.append t, Phrase.spanMore_append ht ps hps⟩

/-- A chain. -/
theorem Chain.spans_append (ht : Stops t) : (c : Chain) → {cs rest : List Char} →
    c.Spans cs rest → c.Spans (cs ++ t) (rest ++ t)
  | .mk first more, _, _, ⟨_, _, hfirst, hgap, hmore⟩ =>
      ⟨_, _, first.spans_append ht hfirst, hgap.append t, Chain.spanMore_append ht more hmore⟩

/-- Operators with their right operands. -/
theorem Chain.spanMore_append (ht : Stops t) : (more : List (BinaryOperator × Operand)) →
    {cs rest : List Char} → Chain.SpanMore more cs rest →
    Chain.SpanMore more (cs ++ t) (rest ++ t)
  | [], _, _, h => congrArg (· ++ t) h
  | (_, right) :: more, _, _, ⟨_, _, _, ho, hgap, hright, hmore⟩ =>
      ⟨_, _, _, ho.append_text t, hgap.append t, right.spans_append ht hright,
        Chain.spanMore_append ht more hmore⟩

/-- An operand. -/
theorem Operand.spans_append (ht : Stops t) : (e : Operand) → {cs rest : List Char} →
    e.Spans cs rest → e.Spans (cs ++ t) (rest ++ t)
  | .mk signs primary suffixes, _, _, ⟨_, _, _, _, hsigns, hgap, hprimary, hgap', hsuffixes⟩ =>
      ⟨_, _, _, _, Operand.spanSigns_append ht signs hsigns, hgap.append t,
        primary.spans_append ht hprimary, hgap'.append t,
        Suffix.spanAll_append ht suffixes hsuffixes⟩

/-- Signs. -/
theorem Operand.spanSigns_append (ht : Stops t) : (signs : List UnaryOperator) →
    {cs rest : List Char} → Operand.SpanSigns signs cs rest →
    Operand.SpanSigns signs (cs ++ t) (rest ++ t)
  | [], _, _, h => congrArg (· ++ t) h
  | _ :: os, _, _, ⟨_, ho, hos⟩ => ⟨_, ho.append_text t, Operand.spanSigns_append ht os hos⟩

/-- A primary expression: a token that is local, or brackets. -/
theorem Primary.spans_append (ht : Stops t) : (e : Primary) → {cs rest : List Char} →
    e.Spans cs rest → e.Spans (cs ++ t) (rest ++ t)
  | .number _, _, _, h => Token.number_local.eq_some h ht
  | .string _, _, _, h => Token.string_append h t
  | .boolean _, _, _, h => Token.boolean_local.eq_some h ht
  | .null, _, _, h => (Token.word_local "null" (forall_mem_of_all rfl)).eq_some h ht
  | .this, _, _, h => (Token.word_local "this" (forall_mem_of_all rfl)).eq_some h ht
  | .identifier _, _, _, h => Token.identifier_local.eq_some h ht
  | .array elements, _, _, ⟨_, _, _, hcs, hgap, helements, hclose⟩ =>
      ⟨_, _, _, congrArg (· ++ t) hcs, hgap.append t, Phrase.spanAll_append ht elements helements,
        hclose.append t⟩
  | .grouped inner, _, _, ⟨_, _, _, hcs, hgap, hinner, hclose⟩ =>
      ⟨_, _, _, congrArg (· ++ t) hcs, hgap.append t, inner.spans_append ht hinner,
        hclose.append t⟩

/-- A suffix. -/
theorem Suffix.spans_append (ht : Stops t) : (s : Suffix) → {cs rest : List Char} →
    s.Spans cs rest → s.Spans (cs ++ t) (rest ++ t)
  | .call arguments, _, _, ⟨_, _, _, hcs, hgap, harguments, hclose⟩ =>
      ⟨_, _, _, congrArg (· ++ t) hcs, hgap.append t,
        Phrase.spanAll_append ht arguments harguments, hclose.append t⟩
  | .index property, _, _, ⟨_, _, _, hcs, hgap, hproperty, hclose⟩ =>
      ⟨_, _, _, congrArg (· ++ t) hcs, hgap.append t, property.spans_append ht hproperty,
        hclose.append t⟩
  | .field _, _, _, ⟨_, _, hcs, hgap, hname⟩ =>
      ⟨_, _, congrArg (· ++ t) hcs, hgap.append t, Token.propertyName_local.eq_some hname ht⟩

/-- Suffixes in a row. -/
theorem Suffix.spanAll_append (ht : Stops t) : (ss : List Suffix) → {cs rest : List Char} →
    Suffix.SpanAll ss cs rest → Suffix.SpanAll ss (cs ++ t) (rest ++ t)
  | [], _, _, h => congrArg (· ++ t) h
  | s :: ss, _, _, ⟨_, _, hgap, hs, hss⟩ =>
      ⟨_, _, hgap.append t, s.spans_append ht hs, Suffix.spanAll_append ht ss hss⟩

end

end Formula
