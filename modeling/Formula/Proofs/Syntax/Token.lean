import Formula.Syntax.Token

/-!
# `Formula.Proofs.Syntax.Token`: the characters of a token

A scanner that finds something at the front of a text splits the text: it
is the characters that were found and the rest.

* `eq_append_of_propertyName`, `eq_append_of_identifier`,
  `eq_append_of_word`, `eq_append_of_boolean`: words, made of word
  characters.
* `eq_append_of_digits`, `eq_append_of_mantissa`, `eq_append_of_exponent`:
  the parts of a number, and `eq_append_of_number` the whole.
* `eq_append_of_string`: a string between its quotes.
* `eq_append_of_binaryOperator`, `eq_append_of_unaryOperator`: the symbol of
  an operator.
-/

set_option autoImplicit false

namespace Formula.Token

/-! ### Words -/

/-- What is left of a text when another one is taken from its front. -/
theorem eq_append_of_dropText? : {text cs rest : List Char} → dropText? text cs = some rest →
    cs = text ++ rest
  | [], cs, rest, h => Option.some.inj h
  | t :: ts, [], rest, h => nomatch h
  | t :: ts, c :: cs, rest, h => by
      rw [dropText?] at h
      split at h
      · rename_i heq
        rw [heq, List.cons_append, ← eq_append_of_dropText? h]
      · cases h

/-- A name is taken off the text, and has only characters of words. -/
theorem eq_append_of_propertyName {cs rest : List Char} {name : String}
    (h : propertyName cs = some (name, rest)) :
    cs = name.toList ++ rest ∧ ∀ c ∈ name.toList, isWordChar c = true := by
  cases cs with
  | nil => cases h
  | cons c cs =>
      rw [propertyName] at h
      split at h
      · rename_i hstart
        obtain ⟨rfl, rfl⟩ := Prod.mk.inj (Option.some.inj h)
        rw [String.toList_ofList, List.cons_append, List.takeWhile_append_dropWhile]
        -- The first character may begin a word, and the others were taken because they go on
        -- with one.
        refine ⟨rfl, fun d hd => ?_⟩
        rcases List.mem_cons.1 hd with rfl | hd
        · simp [isWordChar, hstart]
        · exact List.all_eq_true.1 List.all_takeWhile d hd
      · cases h

/-- So it is with an identifier. -/
theorem eq_append_of_identifier {cs rest : List Char} {name : String}
    (h : identifier cs = some (name, rest)) :
    cs = name.toList ++ rest ∧ ∀ c ∈ name.toList, isWordChar c = true := by
  rw [identifier] at h
  split at h
  · cases h
  · exact eq_append_of_propertyName h

/-- A word of the language is taken off the text. -/
theorem eq_append_of_word {text : String} {cs rest : List Char}
    (h : word text cs = some ((), rest)) : cs = text.toList ++ rest := by
  rw [word] at h
  split at h
  · rename_i rest' hdrop
    split at h
    · cases h
      exact eq_append_of_dropText? hdrop
    · cases h
  · cases h

/-- One of the two truth values is taken off the text. -/
theorem eq_append_of_boolean {cs rest : List Char} {b : Bool}
    (h : boolean cs = some (b, rest)) :
    cs = "true".toList ++ rest ∧ b = true ∨ cs = "false".toList ++ rest ∧ b = false := by
  rw [boolean] at h
  split at h
  · rename_i rest' hword
    cases h
    exact .inl ⟨eq_append_of_word hword, rfl⟩
  · obtain ⟨⟨⟨⟩, rest'⟩, hword, hpair⟩ := Option.map_eq_some_iff.1 h
    cases hpair
    exact .inr ⟨eq_append_of_word hword, rfl⟩

/-! ### Numbers -/

/-- Digits are taken off the text, one at least. -/
theorem eq_append_of_digits {cs ds rest : List Char} (h : digits cs = some (ds, rest)) :
    cs = ds ++ rest ∧ ds ≠ [] ∧ ∀ c ∈ ds, c.isDigit = true := by
  rw [digits] at h
  split at h
  · cases h
  · rename_i hne
    obtain ⟨rfl, rfl⟩ := Prod.mk.inj (Option.some.inj h)
    refine ⟨List.takeWhile_append_dropWhile.symm, hne, ?_⟩
    exact List.all_eq_true.1 List.all_takeWhile

/-- Digits with perhaps a point among them. -/
theorem eq_append_of_mantissa {cs m rest : List Char} (h : mantissa cs = some (m, rest)) :
    cs = m ++ rest ∧ (∀ c ∈ m, c.isDigit = true ∨ c = '.') ∧ ∃ c ∈ m, c.isDigit = true := by
  unfold mantissa at h
  -- Without digits at the front the mantissa begins with a point.
  rcases hdigits : digits cs with _ | ⟨whole, rest'⟩ <;> rw [hdigits] at h <;> dsimp only at h
  · split at h
    · obtain ⟨⟨fraction, rest'⟩, hfraction, hpair⟩ := Option.map_eq_some_iff.1 h
      obtain ⟨rfl, hne, hdigit⟩ := eq_append_of_digits hfraction
      obtain ⟨rfl, rfl⟩ := Prod.mk.inj hpair
      obtain ⟨c, hc⟩ := List.exists_mem_of_ne_nil fraction hne
      refine ⟨rfl, fun d hd => ?_, c, List.mem_cons_of_mem _ hc, hdigit c hc⟩
      rcases List.mem_cons.1 hd with rfl | hd
      · exact .inr rfl
      · exact .inl (hdigit d hd)
    · cases h
  · obtain ⟨rfl, hne, hwhole⟩ := eq_append_of_digits hdigits
    obtain ⟨c, hc⟩ := List.exists_mem_of_ne_nil whole hne
    split at h
    · rename_i heq
      obtain ⟨rfl, rfl⟩ := Prod.mk.inj (Option.some.inj heq)
      obtain ⟨rfl, rfl⟩ := Prod.mk.inj (Option.some.inj h)
      refine ⟨?_, fun d hd => ?_, c, List.mem_append_left _ hc, hwhole c hc⟩
      · rw [List.append_assoc, List.cons_append, List.takeWhile_append_dropWhile]
      · rcases List.mem_append.1 hd with hd | hd
        · exact .inl (hwhole d hd)
        · rcases List.mem_cons.1 hd with rfl | hd
          · exact .inr rfl
          · exact .inl (List.all_eq_true.1 List.all_takeWhile d hd)
    · rename_i heq
      obtain ⟨rfl, rfl⟩ := Prod.mk.inj (Option.some.inj heq)
      obtain ⟨rfl, rfl⟩ := Prod.mk.inj (Option.some.inj h)
      exact ⟨rfl, fun d hd => .inl (hwhole d hd), c, hc, hwhole c hc⟩
    · rename_i heq
      cases heq

/-- A letter, perhaps a sign, and digits. -/
theorem eq_append_of_exponent {cs e rest : List Char} (h : exponent cs = some (e, rest)) :
    ∃ c sign ds, cs = c :: (sign ++ (ds ++ rest)) ∧ e = c :: (sign ++ ds) ∧ (c = 'e' ∨ c = 'E') ∧
      (sign = [] ∨ sign = ['+'] ∨ sign = ['-']) ∧ ds ≠ [] ∧ ∀ d ∈ ds, d.isDigit = true := by
  cases cs with
  | nil => cases h
  | cons c cs =>
      rw [exponent] at h
      split at h
      · rename_i hletter
        -- The sign between the letter and the digits may be missing.
        have hsign : cs = (sign cs).1 ++ (sign cs).2 ∧ ((sign cs).1 = [] ∨
            (sign cs).1 = ['+'] ∨ (sign cs).1 = ['-']) := by
          unfold sign
          split <;> simp
        rcases hsigned : sign cs with ⟨sign, cs'⟩
        rw [hsigned] at h hsign
        obtain ⟨⟨ds, rest'⟩, hdigits, hpair⟩ := Option.map_eq_some_iff.1 h
        obtain ⟨rfl, hne, hds⟩ := eq_append_of_digits hdigits
        obtain ⟨rfl, rfl⟩ := Prod.mk.inj hpair
        exact ⟨c, sign, ds, congrArg _ hsign.1, rfl, hletter, hsign.2, hne, hds⟩
      · cases h

/-- A numeral is taken off the text, with its exponent if there is one. -/
theorem eq_append_of_number {cs text rest : List Char} (h : number cs = some (text, rest)) :
    cs = text ++ rest := by
  unfold number at h
  -- A mantissa first, and then an exponent or none.
  split at h
  · cases h
  · rename_i m rest₁ hmantissa
    obtain ⟨rfl, -⟩ := eq_append_of_mantissa hmantissa
    split at h
    · rename_i e rest₂ hexponent
      obtain ⟨c, sign, ds, rfl, rfl, -⟩ := eq_append_of_exponent hexponent
      cases h
      simp only [List.append_assoc, List.cons_append]
    · cases h
      rfl

/-! ### Strings -/

/-- The body of a string and its quote are taken off the text. -/
theorem eq_append_of_stringBody {quote : Char} {cs body rest : List Char}
    (h : stringBody quote cs = some (body, rest)) : cs = body ++ quote :: rest := by
  -- The cases are those of the definition; an escape takes two characters at once.
  induction cs using stringBody.induct quote generalizing body with
  | case1 => cases h
  | case2 =>
      obtain ⟨rfl, rfl⟩ : body = [] ∧ rest = [] := by simpa [stringBody, eq_comm] using h
      rfl
  | case3 c hc => simp [stringBody, hc] at h
  | case4 d cs =>
      obtain ⟨rfl, rfl⟩ : body = [] ∧ rest = d :: cs := by simpa [stringBody, eq_comm] using h
      rfl
  | case5 d cs hquoted ih =>
      simp only [stringBody, hquoted, if_false, if_true] at h
      obtain ⟨⟨body', rest'⟩, hbody, hsome⟩ := Option.map_eq_some_iff.1 h
      cases hsome
      rw [ih hbody]
      rfl
  | case6 c d cs hc hescape ih =>
      simp only [stringBody, hc, hescape, if_false] at h
      obtain ⟨⟨body', rest'⟩, hbody, hsome⟩ := Option.map_eq_some_iff.1 h
      cases hsome
      rw [ih hbody]
      rfl

/-- A string is taken off the text with both quotes, and its escapes are
resolved. -/
theorem eq_append_of_string {cs rest : List Char} {s : String} (h : string cs = some (s, rest)) :
    ∃ quote body, cs = quote :: (body ++ quote :: rest) ∧ s = String.ofList (unescape body) ∧
      (quote = '"' ∨ quote = '\'') := by
  cases cs with
  | nil => cases h
  | cons c cs =>
      rw [string] at h
      split at h
      · rename_i hquote
        obtain ⟨⟨body, rest'⟩, hbody, hsome⟩ := Option.map_eq_some_iff.1 h
        cases hsome
        exact ⟨c, body, congrArg _ (eq_append_of_stringBody hbody), rfl, hquote⟩
      · cases h

/-! ### Operators -/

/-- The symbol of an operator is taken off the text. -/
theorem eq_append_of_binaryOperator {operators : List BinaryOperator} {cs rest : List Char}
    {o : BinaryOperator} (h : binaryOperator operators cs = some (o, rest)) :
    o ∈ operators ∧ cs = o.symbol.toList ++ rest := by
  obtain ⟨o', hmem, hsymbol⟩ := List.exists_of_findSome?_eq_some h
  obtain ⟨rest', hdrop, hpair⟩ := Option.map_eq_some_iff.1 hsymbol
  cases hpair
  exact ⟨hmem, eq_append_of_dropText? hdrop⟩

/-- The symbol of a sign is taken off the text. -/
theorem eq_append_of_unaryOperator {cs rest : List Char} {o : UnaryOperator}
    (h : unaryOperator cs = some (o, rest)) : cs = o.symbol.toList ++ rest := by
  obtain ⟨o', -, hsymbol⟩ := List.exists_of_findSome?_eq_some h
  obtain ⟨rest', hdrop, hpair⟩ := Option.map_eq_some_iff.1 hsymbol
  cases hpair
  exact eq_append_of_dropText? hdrop

end Formula.Token
