import Formula.Text.Escaped

/-!
# `Formula.Text.Quoted`: texts shown in quotes

A text is shown between double quotes; the quote and the backslash are
escaped, a few control characters have a letter, and other characters
without a glyph of their own are shown by their code in braces.
-/

set_option autoImplicit false

namespace Formula

/-- The code of a character in braces. -/
def codeEscape (c : Char) : List Char :=
  '\\' :: 'u' :: '\x7b' :: (Nat.toDigits 16 c.toNat ++ ['\x7d'])

/-- How a character is shown inside quotes. -/
def quotedChar (c : Char) : List Char :=
  if c = '\x00' then ['\\', '0']
  else if c = '\t' then ['\\', 't']
  else if c = '\r' then ['\\', 'r']
  else if c = '\n' then ['\\', 'n']
  else if c = '\\' ∨ c = '"' then ['\\', c]
  else if isEscaped c then codeEscape c
  else [c]

/-- The text in quotes. -/
def quoted (text : String) : String :=
  String.ofList ('"' :: (text.toList.flatMap quotedChar ++ ['"']))

end Formula
