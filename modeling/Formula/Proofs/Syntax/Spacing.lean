import Mathlib.Data.List.Forall2
import Formula.Proofs.Syntax.Respelling

/-!
# `Formula.Proofs.Syntax.Spacing`: spaces between tokens

The grammar skips spaces between any two tokens and never looks for them, so
more spaces there change nothing. Inside of a token a space is a character
like any other or ends the token, and `TokensOf` tells where that is.

* `TokensOf`: the tokens of a text that can be read, each as it is written.
* `Spaced`: two texts with the same tokens, the second with more spaces
  before, after or between them.
* `parse_spaced`: a text that is accepted has tokens, and with more spaces
  around them it is accepted under the same limit, with the same tree.
-/

set_option autoImplicit false

namespace Formula

/-- Both texts consist of the tokens, in order, and of spaces before, after
and between them. The second text has the spaces of the first one, and
perhaps more. -/
inductive Spaced : List (List Char) → List Char → List Char → Prop
  | done : Spaced [] [] []
  | inserted {c : Char} {ts : List (List Char)} {cs cs' : List Char}
    (hc : Matcher.isSpace c = true) (h : Spaced ts cs cs') : Spaced ts cs (c :: cs')
  | kept {c : Char} {ts : List (List Char)} {cs cs' : List Char}
    (hc : Matcher.isSpace c = true) (h : Spaced ts cs cs') : Spaced ts (c :: cs) (c :: cs')
  | token (t : List Char) {ts : List (List Char)} {cs cs' : List Char} (h : Spaced ts cs cs') :
    Spaced (t :: ts) (t ++ cs) (t ++ cs')

/-- The tokens of a text, in order and as they are written: the text can be
read, it spells the tokens of its expression with them, and apart from them
it consists of spaces. -/
def TokensOf (source : String) (tokens : List (List Char)) : Prop :=
  ∃ p, phraseOf source = .ok p ∧ List.Forall₂ Lexeme.Spells p.lexemes tokens ∧
    Spaced tokens source.toList source.toList

variable {xs : List Lexeme} {ts ts' : List (List Char)} {cs cs' : List Char}

/-- Tokens with other spaces between them are the same tokens. -/
theorem Spaced.respelled (h : Spaced ts cs cs') (hts : List.Forall₂ Lexeme.Spells xs ts) :
    Respelled xs cs cs' := by
  induction h generalizing xs with
  | done =>
      cases hts
      exact .done
  | inserted hc _ ih => exact .inserted hc (ih hts)
  | kept hc _ ih => exact .kept hc (ih hts)
  | token t _ ih =>
      cases hts with
      | cons ht hts => exact .lexeme ht ht (ih hts)

/-- What is laid out from tokens is written with spellings of them. -/
theorem Respelled.exists_spaced (h : Respelled xs cs cs') :
    ∃ ts, List.Forall₂ Lexeme.Spells xs ts ∧ Spaced ts cs cs := by
  induction h with
  | done => exact ⟨[], .nil, .done⟩
  | inserted _ _ ih => exact ih
  | kept hc _ ih =>
      obtain ⟨ts, hts, hspaced⟩ := ih
      exact ⟨ts, hts, .kept hc hspaced⟩
  | lexeme ht _ _ ih =>
      obtain ⟨ts, hts, hspaced⟩ := ih
      exact ⟨_ :: ts, .cons ht hts, .token _ hspaced⟩

/-- Of two spellings of a token at the front of a text, one is the other. -/
theorem Lexeme.Spells.unique {x : Lexeme} {t t' : List Char} (ht : x.Spells t) (ht' : x.Spells t')
    {rest rest' : List Char} (h : t ++ rest = t' ++ rest') : t = t' ∧ rest = rest' := by
  cases x with
  | fixed text =>
      obtain rfl : t = text := ht.1
      obtain rfl : t' = t := ht'.1
      exact ⟨rfl, List.append_cancel_left h⟩
  | string s =>
      have hstring := Token.string_append ht rest
      rw [h, Token.string_append ht' rest'] at hstring
      obtain rfl : rest' = rest := by simpa using hstring
      exact ⟨List.append_cancel_right h, rfl⟩

/-- The first token of both texts. -/
theorem Spaced.exists_token {t : List Char} (h : Spaced (t :: ts) cs cs') :
    ∃ rest rest', Gap cs (t ++ rest) ∧ Gap cs' (t ++ rest') ∧ Spaced ts rest rest' := by
  generalize heq : t :: ts = ts' at h
  -- Spaces before the token are passed over; what is found behind them is kept.
  induction h with
  | done => cases heq
  | inserted hc _ ih =>
      obtain ⟨rest, rest', hgap, hgap', hrest⟩ := ih heq
      exact ⟨rest, rest', hgap, hgap'.cons hc, hrest⟩
  | kept hc _ ih =>
      obtain ⟨rest, rest', hgap, hgap', hrest⟩ := ih heq
      exact ⟨rest, rest', hgap.cons hc, hgap'.cons hc, hrest⟩
  | token t h _ =>
      cases heq
      exact ⟨_, _, .refl _, .refl _, h⟩

/-- A text is written with one row of tokens only. -/
theorem Spaced.unique {c₁ c₂ : List Char} (hts : List.Forall₂ Lexeme.Spells xs ts)
    (hts' : List.Forall₂ Lexeme.Spells xs ts') (h : Spaced ts cs c₁) (h' : Spaced ts' cs c₂) :
    ts = ts' := by
  induction hts generalizing ts' cs c₁ c₂ with
  | nil =>
      cases hts'
      rfl
  | cons ht _ ih =>
      cases hts' with
      | cons ht' hts' =>
          obtain ⟨rest, _, hgap, -, hrest⟩ := h.exists_token
          obtain ⟨rest', _, hgap', -, hrest'⟩ := h'.exists_token
          -- Both texts are the same one: its first token is the first one of either row.
          have heq := hgap.tight_eq.symm.trans hgap'.tight_eq
          rw [ht.tight_append, ht'.tight_append] at heq
          obtain ⟨rfl, rfl⟩ := ht.unique ht' heq
          rw [ih hts' hrest hrest']

/-- A text has its tokens in one way, for a token cannot be longer or
shorter. -/
theorem TokensOf.unique {source : String} (h : TokensOf source ts) (h' : TokensOf source ts') :
    ts = ts' := by
  obtain ⟨p, hp, hspells, hspaced⟩ := h
  obtain ⟨p', hp', hspells', hspaced'⟩ := h'
  obtain rfl : p = p' := Except.ok.inj (hp.symm.trans hp')
  exact hspaced.unique hspells hspells' hspaced'

/-- A text that is accepted has tokens. With any runs of spaces put before, after
or between them it is accepted under the same limit, with the same tree. -/
theorem parse_spaced {source : String} {limit : Nat} {e : Expr} (h : parse source limit = .ok e) :
    (∃! tokens, TokensOf source tokens) ∧ ∀ (tokens : List (List Char)) (source' : String),
      TokensOf source tokens → Spaced tokens source.toList source'.toList →
      parse source' limit = .ok e := by
  obtain ⟨-, p, hp, -⟩ := parse_eq_ok_iff.1 h
  obtain ⟨tokens, hspells, hspaced⟩ := (laid_of_phraseOf hp).exists_spaced
  have htokens : TokensOf source tokens := ⟨p, hp, hspells, hspaced⟩
  refine ⟨⟨tokens, htokens, fun tokens' h' => h'.unique htokens⟩,
    fun tokens' source' h' hmore => ?_⟩
  obtain rfl := h'.unique htokens
  exact (parse_respelled hp (hmore.respelled hspells) limit e).2 h

/-- A sign behind an operator that could be one symbol with it, a number in front of a
point, and a string with spaces of its own. -/
theorem parse_spaced_member :
    ∃ e, parse "a!=!b?1 .x:'p  q'" 1 = .ok e ∧
      parse " a\t!= ! b\r\n? 1  . x :'p  q' " 1 = .ok e := by
  have hphrase : phraseOf "a!=!b?1 .x:'p  q'" = .ok (.conditional
      (.mk (.mk [] (.identifier "a") []) [(.notEqual, .mk [.not] (.identifier "b") [])])
      (.plain (.mk (.mk [] (.number ['1']) [.field "x"]) []))
      (.plain (.mk (.mk [] (.string "p  q") []) []))) := by cbv
  have hparse := (parse_eq_ok_iff_measured_le hphrase).2 (by decide : Phrase.measured _ ≤ 1)
  have hsource : "a!=!b?1 .x:'p  q'".toList = ['a', '!', '=', '!', 'b', '?', '1', ' ', '.', 'x',
      ':', '\'', 'p', ' ', ' ', 'q', '\''] := rfl
  have hsource' : " a\t!= ! b\r\n? 1  . x :'p  q' ".toList = [' ', 'a', '\t', '!', '=', ' ', '!',
      ' ', 'b', '\r', '\n', '?', ' ', '1', ' ', ' ', '.', ' ', 'x', ' ', ':', '\'', 'p', ' ', ' ',
      'q', '\'', ' '] := rfl
  -- The tokens are spelled out, and the spaces of both texts placed among them.
  refine ⟨_, hparse, (parse_spaced hparse).2 [['a'], ['!', '='], ['!'], ['b'], ['?'], ['1'], ['.'],
    ['x'], [':'], ['\'', 'p', ' ', ' ', 'q', '\'']] _ ⟨_, hphrase, ?_, ?_⟩ ?_⟩
  · have hplain {t : List Char} (ht : (!t.isEmpty && t.all fun c =>
        !Matcher.isSpace c && (c != '"' && c != '\'')) = true) : (Lexeme.fixed t).Spells t :=
      ⟨rfl, .of_all ht⟩
    exact .cons (hplain rfl) <| .cons (hplain rfl) <| .cons (hplain rfl) <|
      .cons (hplain rfl) <| .cons (hplain rfl) <| .cons (hplain rfl) <|
      .cons (hplain rfl) <| .cons (hplain rfl) <| .cons (hplain rfl) <|
      .cons rfl .nil
  · rw [hsource]
    exact .token ['a'] <| .token ['!', '='] <| .token ['!'] <| .token ['b'] <| .token ['?'] <|
      .token ['1'] <| .kept rfl <| .token ['.'] <| .token ['x'] <| .token [':'] <|
      .token ['\'', 'p', ' ', ' ', 'q', '\''] .done
  · rw [hsource, hsource']
    exact .inserted rfl <| .token ['a'] <| .inserted rfl <| .token ['!', '='] <| .inserted rfl <|
      .token ['!'] <| .inserted rfl <| .token ['b'] <| .inserted rfl <| .inserted rfl <|
      .token ['?'] <| .inserted rfl <| .token ['1'] <| .inserted rfl <| .kept rfl <|
      .token ['.'] <| .inserted rfl <| .token ['x'] <| .inserted rfl <| .token [':'] <|
      .token ['\'', 'p', ' ', ' ', 'q', '\''] <| .inserted rfl .done

end Formula
