import Formula.Number.Reading
import Formula.Operator

/-!
# `Formula.Syntax.Token`: the tokens of a formula

Tokens are read greedily from the front of a text. A scanner gives the
token and what follows it, or nothing. Within a token no blank is
skipped.
-/

set_option autoImplicit false

namespace Formula.Token

/-- A scanner: the token at the front of a text, and what follows. -/
abbrev Scanner (α : Type) := List Char → Option (α × List Char)

/-! ### Words -/

/-- Whether a character can begin a word. -/
def isWordStart (c : Char) : Bool :=
  ('a' ≤ c && c ≤ 'z') || ('A' ≤ c && c ≤ 'Z') || c == '_' || c == '$' || 0x80 ≤ c.toNat

/-- Whether a character can stand inside a word. -/
def isWordChar (c : Char) : Bool := isWordStart c || c.isDigit

/-- What follows a fixed text at the front, if the text is there. -/
def dropText? : List Char → List Char → Option (List Char)
  | [], cs => some cs
  | _ :: _, [] => none
  | t :: ts, c :: cs => if t = c then dropText? ts cs else none

/-- Whether no word goes on at the front of a text. -/
def wordEnds : List Char → Bool
  | [] => true
  | c :: _ => !isWordChar c

/-- A fixed word that does not go on. -/
def word (text : String) : Scanner Unit := fun cs =>
  match dropText? text.toList cs with
  | some rest => if wordEnds rest then some ((), rest) else none
  | none => none

/-- The words with a meaning of their own. -/
def keywords : List String := ["true", "false", "null", "this"]

/-- One of the words with a meaning of their own. -/
def keyword : Scanner Unit := fun cs => keywords.findSome? (word · cs)

/-- Any word, also one with a meaning of its own. -/
def propertyName : Scanner String
  | [] => none
  | c :: cs =>
    if isWordStart c then
      some (String.ofList (c :: cs.takeWhile isWordChar), cs.dropWhile isWordChar)
    else
      none

/-- A word that is a name: not one with a meaning of its own. -/
def identifier : Scanner String := fun cs =>
  match keyword cs with
  | some _ => none
  | none => propertyName cs

/-- A truth value. -/
def boolean : Scanner Bool := fun cs =>
  match word "true" cs with
  | some (_, rest) => some (true, rest)
  | none => (word "false" cs).map fun r => (false, r.2)

/-! ### Numbers -/

/-- The digits at the front of a text, at least one. -/
def digits : Scanner (List Char) := fun cs =>
  match cs.takeWhile Char.isDigit with
  | [] => none
  | ds => some (ds, cs.dropWhile Char.isDigit)

/-- The digits around a point: digits with or without a point and more
digits after it, or a point with digits after it. -/
def mantissa : Scanner (List Char) := fun cs =>
  match digits cs with
  | some (whole, '.' :: rest) =>
    some (whole ++ '.' :: rest.takeWhile Char.isDigit, rest.dropWhile Char.isDigit)
  | some (whole, rest) => some (whole, rest)
  | none =>
    match cs with
    | '.' :: rest => (digits rest).map fun (fraction, rest) => ('.' :: fraction, rest)
    | _ => none

/-- The sign at the front of a text, or nothing. -/
def sign : List Char → List Char × List Char
  | '+' :: cs => (['+'], cs)
  | '-' :: cs => (['-'], cs)
  | cs => ([], cs)

/-- A power of ten: the letter `e`, an optional sign and digits. -/
def exponent : Scanner (List Char)
  | [] => none
  | c :: cs =>
    if c = 'e' ∨ c = 'E' then
      let (s, rest) := sign cs
      (digits rest).map fun (ds, rest) => (c :: (s ++ ds), rest)
    else
      none

/-- The text of a number: digits around an optional point, and a power of
ten if one follows. -/
def number : Scanner (List Char) := fun cs =>
  match mantissa cs with
  | none => none
  | some (m, rest) =>
    match exponent rest with
    | some (e, rest) => some (m ++ e, rest)
    | none => some (m, rest)

/-! ### Strings -/

/-- The body of a string up to the closing quote, with its escapes still
in it. A backslash takes the next character with it. -/
def stringBody (quote : Char) : Scanner (List Char)
  | [] => none
  | [c] => if c = quote then some ([], []) else none
  | c :: d :: cs =>
    if c = quote then some ([], d :: cs)
    else if c = '\\' then (stringBody quote cs).map fun (body, rest) => (c :: d :: body, rest)
    else (stringBody quote (d :: cs)).map fun (body, rest) => (c :: body, rest)

/-- The character that an escaped character stands for: six letters stand
for control characters, all others for themselves. -/
def unescapeChar : Char → Char
  | 'n' => '\n'
  | 'r' => '\r'
  | 't' => '\t'
  | 'b' => '\x08'
  | 'f' => '\x0c'
  | 'v' => '\x0b'
  | c => c

/-- The text that the body of a string denotes. -/
def unescape : List Char → List Char
  | [] => []
  | [c] => if c = '\\' then [] else [c]
  | c :: d :: cs => if c = '\\' then unescapeChar d :: unescape cs else c :: unescape (d :: cs)

/-- A string in either kind of quotes, as the text it denotes. -/
def string : Scanner String
  | [] => none
  | c :: cs =>
    if c = '"' ∨ c = '\'' then
      (stringBody c cs).map fun (body, rest) => (String.ofList (unescape body), rest)
    else
      none

/-! ### Operators -/

/-- The first of some binary operators whose symbol is at the front. -/
def binaryOperator (operators : List BinaryOperator) : Scanner BinaryOperator := fun cs =>
  operators.findSome? fun o => (dropText? o.symbol.toList cs).map (o, ·)

/-- A prefix operator. -/
def unaryOperator : Scanner UnaryOperator := fun cs =>
  [UnaryOperator.minus, .plus, .not, .complement].findSome? fun o =>
    (dropText? o.symbol.toList cs).map (o, ·)

end Formula.Token
