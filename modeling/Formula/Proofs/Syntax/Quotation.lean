import Formula.Proofs.Syntax.Respelling

/-!
# `Formula.Proofs.Syntax.Quotation`: the ways to write a string

A text can be quoted in many ways: in either kind of quotes, and with a
backslash before any character that is no letter with a meaning behind
one. The grammar finds where a string ends, its escapes are resolved, and
the scan for nesting passes over it, each on its own. They agree on every
way to write a text.

* `Token.string_eq_some_iff`: a string is read as a text just when it is
  one of the ways to quote the text.
* `ClosesStrings`: a place in a text that is not inside of a string. Every token
  begins in such a place, `Respelled.closesStrings`.
* `Respelled.split`: a string that begins outside of others is a token.
* `parse_quotes`: a quoted text by itself is read as the text under every
  limit, and within a formula one way to quote it is as good as another.
-/

set_option autoImplicit false

namespace Formula

namespace Token

/-! ### Writing a text between quotes -/

/-- The letters that stand for control characters behind a backslash. -/
def controls : List (Char × Char) :=
  [('n', '\n'), ('r', '\r'), ('t', '\t'), ('b', '\x08'), ('f', '\x0c'), ('v', '\x0b')]

/-- The ways to write a character between quotes. -/
inductive Writes (quote : Char) : Char → List Char → Prop
  | plain {c : Char} (hquote : c ≠ quote) (hbackslash : c ≠ '\\') : Writes quote c [c]
  | escaped {c : Char} (hc : c ∉ controls.map Prod.fst) : Writes quote c ['\\', c]
  | control {letter c : Char} (hc : (letter, c) ∈ controls) : Writes quote c ['\\', letter]

/-- The ways to write a text between quotes, each of its characters in any way. -/
inductive Bodies (quote : Char) : List Char → List Char → Prop
  | nil : Bodies quote [] []
  | cons {c : Char} {piece text body : List Char} (hc : Writes quote c piece)
    (h : Bodies quote text body) : Bodies quote (c :: text) (piece ++ body)

/-- The ways to quote a text. -/
def Quotes (s : String) (t : List Char) : Prop :=
  ∃ quote body, (quote = '"' ∨ quote = '\'') ∧ Bodies quote s.toList body ∧
    t = quote :: (body ++ [quote])

variable {quote : Char}

/-- A letter with a meaning behind a backslash has this meaning. -/
theorem unescapeChar_of_controls {letter c : Char} (h : (letter, c) ∈ controls) :
    unescapeChar letter = c := by
  simp only [controls, List.mem_cons, Prod.mk.injEq, List.not_mem_nil, or_false] at h
  rcases h with ⟨rfl, rfl⟩ | ⟨rfl, rfl⟩ | ⟨rfl, rfl⟩ | ⟨rfl, rfl⟩ | ⟨rfl, rfl⟩ | ⟨rfl, rfl⟩ <;> rfl

/-- A letter that is no control stands for itself. -/
theorem unescapeChar_eq_self {c : Char} (h : c ∉ controls.map Prod.fst) : unescapeChar c = c := by
  simp only [controls, List.map_cons, List.map_nil, List.mem_cons, List.not_mem_nil, or_false] at h
  unfold unescapeChar
  split <;> simp_all

/-- Every character behind a backslash is a way to write what it stands for. -/
theorem writes_unescapeChar (c : Char) : Writes quote (unescapeChar c) ['\\', c] := by
  by_cases h : c ∈ controls.map Prod.fst
  · obtain ⟨⟨letter, d⟩, hmem, rfl⟩ := List.mem_map.1 h
    rw [unescapeChar_of_controls hmem]
    exact .control hmem
  · rw [unescapeChar_eq_self h]
    exact .escaped h

/-- A character behind a backslash, however it is meant. -/
theorem Writes.eq_plain_or_escaped {c : Char} {piece : List Char} (h : Writes quote c piece) :
    (piece = [c] ∧ c ≠ quote ∧ c ≠ '\\') ∨ ∃ d, piece = ['\\', d] ∧ unescapeChar d = c := by
  cases h with
  | plain hquote hbackslash => exact .inl ⟨rfl, hquote, hbackslash⟩
  | escaped hc => exact .inr ⟨c, rfl, unescapeChar_eq_self hc⟩
  | control hc => exact .inr ⟨_, rfl, unescapeChar_of_controls hc⟩

/-- A character that is no backslash stands for itself. -/
theorem unescape_cons {c : Char} (hc : c ≠ '\\') (body : List Char) :
    unescape (c :: body) = c :: unescape body := by
  cases body <;> simp [unescape, hc]

/-- A character that is no backslash and no end is taken into the string. -/
theorem stringBody_cons {c : Char} (hquote : c ≠ quote) (hbackslash : c ≠ '\\') (cs : List Char) :
    stringBody quote (c :: cs)
      = (stringBody quote cs).map fun (body, rest) => (c :: body, rest) := by
  cases cs <;> simp [stringBody, hquote, hbackslash]

/-- A way to write a text is resolved to the text. -/
theorem Bodies.unescape_eq {text body : List Char} (h : Bodies quote text body) :
    unescape body = text := by
  induction h with
  | nil => rfl
  | cons hc _ ih =>
      rcases hc.eq_plain_or_escaped with ⟨rfl, -, hbackslash⟩ | ⟨d, rfl, rfl⟩
      · rw [List.singleton_append, unescape_cons hbackslash, ih]
      · simp [unescape, ih]

/-- No part of a body is taken for the quote that ends it. -/
theorem Bodies.stringBody_eq {text body : List Char} (h : Bodies quote text body)
    (hquote : quote ≠ '\\') (rest : List Char) :
    stringBody quote (body ++ quote :: rest) = some (body, rest) := by
  induction h with
  | nil => cases rest <;> simp [stringBody]
  | cons hc _ ih =>
      rcases hc.eq_plain_or_escaped with ⟨rfl, hne, hbackslash⟩ | ⟨d, rfl, -⟩
      · rw [List.singleton_append, List.cons_append, stringBody_cons hne hbackslash, ih]
        rfl
      · simp [stringBody, hquote.symm, ih]

/-- What is found before a quote is a way to write what it denotes. -/
theorem bodies_of_stringBody {cs body rest : List Char}
    (h : stringBody quote cs = some (body, rest)) : Bodies quote (unescape body) body := by
  -- The cases are those of the scanner; a body is written a character or an escape at a time.
  induction cs using stringBody.induct quote generalizing body with
  | case1 => cases h
  | case2 =>
      obtain ⟨rfl, -⟩ : body = [] ∧ rest = [] := by simpa [stringBody, eq_comm] using h
      exact .nil
  | case3 c hc => simp [stringBody, hc] at h
  | case4 d cs =>
      obtain ⟨rfl, -⟩ : body = [] ∧ rest = d :: cs := by simpa [stringBody, eq_comm] using h
      exact .nil
  | case5 d cs hquote ih =>
      simp only [stringBody, hquote, if_false, if_true] at h
      obtain ⟨⟨body', rest'⟩, hbody, hsome⟩ := Option.map_eq_some_iff.1 h
      cases hsome
      exact .cons (writes_unescapeChar d) (ih hbody)
  | case6 c d cs hquote hbackslash ih =>
      simp only [stringBody, hquote, hbackslash, if_false] at h
      obtain ⟨⟨body', rest'⟩, hbody, hsome⟩ := Option.map_eq_some_iff.1 h
      cases hsome
      rw [unescape_cons hbackslash]
      exact .cons (.plain hquote hbackslash) (ih hbody)

/-- A string is read as a text just when it is one of the ways to quote the text. -/
theorem string_eq_some_iff {s : String} {t : List Char} :
    string t = some (s, []) ↔ Quotes s t := by
  -- One way the body that is found is a way to write the text, the other way it is found because
  -- its quote is not in it.
  constructor
  · intro h
    cases t with
    | nil => cases h
    | cons quote cs =>
        rw [string] at h
        split at h
        · rename_i hquote
          obtain ⟨⟨body, rest⟩, hbody, hsome⟩ := Option.map_eq_some_iff.1 h
          cases hsome
          refine ⟨quote, body, hquote, ?_, ?_⟩
          · rw [String.toList_ofList]
            exact bodies_of_stringBody hbody
          · rw [eq_append_of_stringBody hbody]
        · cases h
  · rintro ⟨quote, body, hquote, hbody, rfl⟩
    have hne : quote ≠ '\\' := by rcases hquote with rfl | rfl <;> decide
    rw [string, if_pos hquote, hbody.stringBody_eq hne []]
    simp [hbody.unescape_eq]

end Token

/-! ### Strings in a text -/

/-- Every string that begins in the text ends in it, so that what comes behind the
text is not inside of a string. -/
inductive ClosesStrings : List Char → Prop
  | nil : ClosesStrings []
  | code {c : Char} {cs : List Char} (hc : ¬(c = '"' ∨ c = '\'')) (h : ClosesStrings cs) :
    ClosesStrings (c :: cs)
  | string {s : String} {cs rest : List Char} (hcs : Token.string cs = some (s, rest))
    (h : ClosesStrings rest) : ClosesStrings cs

namespace ClosesStrings

variable {c : Char} {t cs : List Char}

/-- Behind a character that is no quote no string has begun. -/
theorem of_cons (h : ClosesStrings (c :: cs)) (hc : ¬(c = '"' ∨ c = '\'')) :
    ClosesStrings cs := by
  cases h with
  | code _ h => exact h
  | string hcs _ =>
      rw [Token.string_eq_none hc] at hcs
      cases hcs

/-- Nor behind a text without quotes. -/
theorem of_append (h : ClosesStrings (t ++ cs)) (ht : ∀ c ∈ t, ¬(c = '"' ∨ c = '\'')) :
    ClosesStrings cs := by
  induction t with
  | nil => exact h
  | cons c t ih =>
      exact ih (h.of_cons (ht c List.mem_cons_self)) fun d hd => ht d (List.mem_cons_of_mem c hd)

/-- A quote at such a place begins a string that ends. -/
theorem exists_string (h : ClosesStrings (c :: cs)) (hc : c = '"' ∨ c = '\'') :
    ∃ s rest, Token.string (c :: cs) = some (s, rest) ∧ ClosesStrings rest := by
  cases h with
  | code hne _ => exact absurd hc hne
  | string hcs h => exact ⟨_, _, hcs, h⟩

end ClosesStrings

/-- A text without quotes may stand before such a place. -/
theorem ClosesStrings.append_unquoted {t cs : List Char} (ht : ∀ c ∈ t, ¬(c = '"' ∨ c = '\''))
    (h : ClosesStrings cs) : ClosesStrings (t ++ cs) := by
  induction t with
  | nil => exact h
  | cons c t ih =>
      exact .code (ht c List.mem_cons_self) (ih fun d hd => ht d (List.mem_cons_of_mem c hd))

/-- Tokens in a row close their strings, so that every token of a formula begins outside
of strings. -/
theorem Respelled.closesStrings {xs : List Lexeme} {cs cs' : List Char}
    (h : Respelled xs cs cs') : ClosesStrings cs := by
  induction h with
  | done => exact .nil
  | inserted _ _ ih => exact ih
  | kept hc _ ih => exact .code (by rintro (rfl | rfl) <;> cases hc) ih
  | @lexeme x t t' xs cs cs' ht _ _ ih =>
      cases x with
      | fixed text =>
          obtain ⟨rfl, hplain⟩ := ht
          exact ih.append_unquoted fun c hc => by simpa using hplain.unquoted c hc
      | string s => exact .string (Token.string_append ht cs) ih

/-- A text without quotes at the front ends before the first quote. -/
theorem exists_eq_append_of_unquoted {t cs before more : List Char} {quote : Char}
    (h : t ++ cs = before ++ quote :: more) (ht : quote ∉ t) :
    ∃ between, before = t ++ between ∧ cs = between ++ quote :: more := by
  rcases List.append_eq_append_iff.1 h with ⟨between, rfl, hcs⟩ | ⟨rest, rfl, hmore⟩
  · exact ⟨between, rfl, hcs⟩
  · cases rest with
    | nil => exact ⟨[], by simp, by simpa using hmore.symm⟩
    | cons d rest =>
        cases hmore
        simp at ht

/-- A string that does not begin inside of another one is a token. -/
theorem Respelled.split {xs : List Lexeme} {before more after cs' : List Char} {s : String}
    (h : Respelled xs (before ++ more) cs') (hbefore : ClosesStrings before)
    (hmore : Token.string more = some (s, after)) :
    ∃ ys zs, xs = ys ++ .string s :: zs ∧ Laid ys before ∧ Laid zs after := by
  obtain ⟨quote, more, rfl, hquote⟩ := Token.begins_of_string hmore
  generalize hcs : before ++ quote :: more = cs at h
  induction h generalizing before with
  | done => simp at hcs
  | inserted _ _ ih => exact ih hbefore hcs
  | @kept c xs cs cs' hc _ ih =>
      have hne : ¬(c = '"' ∨ c = '\'') := by
        rintro (rfl | rfl) <;> cases hc
      cases before with
      | nil =>
          cases hcs
          exact absurd hquote hne
      | cons d before =>
          cases hcs
          obtain ⟨ys, zs, hxs, hys, hzs⟩ := ih (hbefore.of_cons hne) rfl
          exact ⟨ys, zs, hxs, .kept hc hys, hzs⟩
  | @lexeme x t t' xs cs cs' ht ht' h ih =>
      cases x with
      | fixed text =>
          obtain ⟨rfl, hplain⟩ := ht
          have hunquoted : ∀ c ∈ t, ¬(c = '"' ∨ c = '\'') := fun c hc => by
            simpa using hplain.unquoted c hc
          -- The token has no quotes, so the string begins behind it.
          obtain ⟨between, rfl, rfl⟩ :=
            exists_eq_append_of_unquoted hcs.symm fun hmem => hunquoted quote hmem hquote
          obtain ⟨ys, zs, rfl, hys, hzs⟩ := ih (hbefore.of_append hunquoted) rfl
          exact ⟨.fixed t :: ys, zs, rfl, .cons ⟨rfl, hplain⟩ hys, hzs⟩
      | string s' =>
          have hread := Token.string_append ht cs
          rw [← hcs] at hread
          cases before with
          | nil =>
              -- The token is the string that was asked for.
              rw [List.nil_append, hmore] at hread
              cases hread
              exact ⟨[], xs, rfl, .done, h.laid⟩
          | cons d before =>
              -- The text before the string begins with the token, so that the token ends there.
              obtain ⟨d', t₁, rfl, hd⟩ := Token.begins_of_string ht
              obtain rfl : d = d' := (List.cons.inj hcs).1
              obtain ⟨s₁, rest, hrest, hcloses⟩ := hbefore.exists_string hd
              have hlonger := Token.string_append hrest (quote :: more)
              rw [hread] at hlonger
              obtain ⟨rfl, rfl⟩ : s' = s₁ ∧ cs = rest ++ quote :: more := by
                simpa using hlonger
              have heq : d :: before = (d :: t₁) ++ rest := by
                rw [← List.append_assoc] at hcs
                exact List.append_cancel_right hcs
              obtain ⟨ys, zs, rfl, hys, hzs⟩ := ih hcloses rfl
              exact ⟨.string s' :: ys, zs, rfl, heq ▸ .cons ht hys, hzs⟩

/-! ### Quoted texts in formulas -/

/-- Where a formula has one way to quote a text, outside of other strings, it may have
any other way in its place. -/
theorem parse_requoted {s : String} {t t' before after : List Char} (ht : Token.Quotes s t)
    (ht' : Token.Quotes s t') (hbefore : ClosesStrings before) {limit : Nat} {e : Expr}
    (h : parse (String.ofList (before ++ t ++ after)) limit = .ok e) :
    parse (String.ofList (before ++ t' ++ after)) limit = .ok e := by
  have hstring := Token.string_eq_some_iff.2 ht
  have hstring' := Token.string_eq_some_iff.2 ht'
  obtain ⟨-, p, hp, -⟩ := parse_eq_ok_iff.1 h
  have hlaid := laid_of_phraseOf hp
  rw [String.toList_ofList, List.append_assoc] at hlaid
  obtain ⟨ys, zs, hxs, hys, hzs⟩ := hlaid.split hbefore (Token.string_append hstring after)
  refine (parse_respelled hp ?_ limit e).2 h
  rw [hxs, String.toList_ofList, String.toList_ofList, List.append_assoc, List.append_assoc]
  exact hys.append (.lexeme (x := .string s) hstring hstring' hzs)

/-- Any way to quote a text is by itself read as the text, under every limit. Within a
formula, outside of other strings, one way to quote a text is as good as any other: the
formula is accepted under the same limits and with the same tree. -/
theorem parse_quotes {s : String} {t : List Char} (ht : Token.Quotes s t) :
    (∀ limit, parse (String.ofList t) limit = .ok (.literal (.string s))) ∧
      ∀ t' before after, Token.Quotes s t' → ClosesStrings before → ∀ limit e,
        parse (String.ofList (before ++ t ++ after)) limit = .ok e ↔
          parse (String.ofList (before ++ t' ++ after)) limit = .ok e := by
  refine ⟨fun limit => ?_, fun t' before after ht' hbefore limit e =>
    ⟨parse_requoted ht ht' hbefore, parse_requoted ht' ht hbefore⟩⟩
  -- No operators, signs or suffixes, and gaps without spaces.
  have hspans : (Phrase.plain (.mk (.mk [] (.string s) []) [])).Spans t [] :=
    ⟨[], ⟨[], [], ⟨t, t, [], [], rfl, .refl t, Token.string_eq_some_iff.2 ht, .refl [], rfl⟩,
      .refl [], rfl⟩, .refl []⟩
  have hphrase := phraseOf_eq_ok_iff.2
    ⟨t, [], .of_eq (String.toList_ofList (l := t)), hspans, .refl []⟩
  exact (parse_eq_ok_iff_measured_le hphrase).2 (Nat.zero_le limit)

/-- A text with a bracket, a quote and a backslash in it, behind a string with a quote in
it: written with as few backslashes as there can be, and with as many. -/
theorem parse_quotes_argument :
    ∃ e, parse "f(\"'\", \"(é'\\\\?\\n\")" 1 = .ok e ∧
      parse "f(\"'\", '\\(\\é\\'\\\\\\?\\\n')" 1 = .ok e := by
  -- The same text is quoted twice, in double quotes with the escapes it needs and in single
  -- quotes with one before every character.
  have hquotes : Token.Quotes "(é'\\?\n" "\"(é'\\\\?\\n\"".toList :=
    ⟨'"', _, .inl rfl, .cons (.plain nofun nofun) <| .cons (.plain nofun nofun) <|
      .cons (.plain nofun nofun) <| .cons (.escaped (by decide)) <| .cons (.plain nofun nofun) <|
      .cons (.control (by decide : ('n', '\n') ∈ Token.controls)) .nil, rfl⟩
  have hquotes' : Token.Quotes "(é'\\?\n" "'\\(\\é\\'\\\\\\?\\\n'".toList :=
    ⟨'\'', _, .inr rfl, .cons (.escaped (by decide)) <| .cons (.escaped (by decide)) <|
      .cons (.escaped (by decide)) <| .cons (.escaped (by decide)) <|
      .cons (.escaped (by decide)) <| .cons (.escaped (by decide)) .nil, rfl⟩
  have hbefore : ClosesStrings "f(\"'\", ".toList :=
    .code nofun <| .code nofun <| .string (s := "'") rfl <| .code nofun <| .code nofun .nil
  have hphrase : phraseOf "f(\"'\", \"(é'\\\\?\\n\")" = .ok (.plain (.mk (.mk []
      (.identifier "f") [.call [.plain (.mk (.mk [] (.string "'") []) []),
        .plain (.mk (.mk [] (.string "(é'\\?\n") []) [])]]) [])) := by cbv
  have hparse := (parse_eq_ok_iff_measured_le hphrase).2 (by decide : Phrase.measured _ ≤ 1)
  exact ⟨_, hparse, ((parse_quotes hquotes).2 _ _ [')'] hquotes' hbefore 1 _).1 hparse⟩

end Formula
