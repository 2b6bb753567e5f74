import Formula.Number.Shortest

/-!
# `Formula.Number.Layout`: how a number is written

A number is written with the fewest digits that read back. A `Layout`
holds the decisions that are left: where positional notation ends, what
stands in the exponent, and how zero and the special numbers look. There
are two layouts, the text of numbers in formulas and the one of JSON
trees.
-/

set_option autoImplicit false

namespace Formula

/-- The decisions about the look of a number besides its digits. -/
structure Layout where
  /-- which of two equally near decimals is written -/
  tie : Tie
  /-- the least leading exponent written positionally -/
  positionalFrom : Int
  /-- the first leading exponent no longer written positionally -/
  positionalTo : Int
  /-- what ends an integer in positional notation -/
  integerEnd : String
  /-- whether negative zero keeps its sign -/
  signedZero : Bool
  /-- the text of not a number -/
  nanText : String
  /-- the texts of the infinities -/
  infinityText : Bool → String

/-- Numbers in texts are positional from `1e-6` up to `1e21`, zero has no
sign, and an exponent has a sign always. -/
def formulaLayout : Layout where
  tie := .up
  positionalFrom := -6
  positionalTo := 21
  integerEnd := ""
  signedZero := false
  nanText := "NaN"
  infinityText negative := if negative then "-Infinity" else "Infinity"

/-- Numbers in JSON are positional from `1e-5` up to `1e16`, show that
they are not integers by a point or an exponent, and are null when they
are not finite. -/
def jsonLayout : Layout where
  tie := .toEven
  positionalFrom := -5
  positionalTo := 16
  integerEnd := ".0"
  signedZero := true
  nanText := "null"
  infinityText _ := "null"

namespace Significant

/-- The digits as characters, without the zeros that end them. -/
def characters (d : Significant) : List Char :=
  dropEndWhile (· == '0') (Nat.toDigits 10 d.digits)

/-- The power of ten of the first digit. -/
def leading (d : Significant) : Int :=
  (decimalLength d.digits : Int) - 1 + d.exponent

end Significant

/-- Digits in positional notation, the first of them standing at
`10 ^ leading`. -/
def positional (integerEnd : String) (digits : List Char) (leading : Int) : List Char :=
  match leading with
  | .ofNat e =>
    if digits.length ≤ e + 1 then
      digits ++ List.replicate (e + 1 - digits.length) '0' ++ integerEnd.toList
    else
      digits.take (e + 1) ++ '.' :: digits.drop (e + 1)
  | .negSucc k => '0' :: '.' :: (List.replicate k '0' ++ digits)

/-- The sign and the digits of an exponent. -/
def exponentChars (e : Int) : List Char :=
  (if e < 0 then '-' else '+') :: Nat.toDigits 10 e.natAbs

/-- Digits with a power of ten. -/
def exponential (digits : List Char) (leading : Int) : List Char :=
  match digits with
  | [] => []
  | [d] => d :: 'e' :: exponentChars leading
  | d :: ds => d :: '.' :: (ds ++ 'e' :: exponentChars leading)

namespace Layout

/-- The unsigned text of a positive magnitude. -/
def magnitudeChars (layout : Layout) (quanta : Nat) : List Char :=
  let d := shortest layout.tie quanta
  if layout.positionalFrom ≤ d.leading ∧ d.leading < layout.positionalTo then
    positional layout.integerEnd d.characters d.leading
  else
    exponential d.characters d.leading

/-- The text of a number. -/
def write (layout : Layout) : Number → String
  | .nan => layout.nanText
  | .infinite negative => layout.infinityText negative
  | .finite negative m =>
    if m.quanta = 0 then
      (if negative && layout.signedZero then "-0" else "0") ++ layout.integerEnd
    else
      String.ofList ((if negative then ['-'] else []) ++ layout.magnitudeChars m.quanta)

end Layout

/-- The text of a number in a formula's results. -/
def Number.text (x : Number) : String := formulaLayout.write x

/-- The text of a number in JSON. -/
def Number.jsonText (x : Number) : String := jsonLayout.write x

end Formula
