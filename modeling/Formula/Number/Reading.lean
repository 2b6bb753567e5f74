import Formula.Number.Arithmetic
import Formula.Text.Blank

/-!
# `Formula.Number.Reading`: numbers from text

* `Decimal.ofChars?`: the grammar of decimal numerals, an optional sign,
  digits with an optional point among or around them, and an optional
  power of ten.
* `Decimal.toNumber`: the double nearest to a decimal, ties to even.
* `Number.ofChars?`: the general reader of doubles, which takes words for
  infinity and for what is not a number besides the numerals.
* `Number.ofText`: the numeric value of any text. Blank text is zero; the
  words for infinity and prefixed integers in radix 16, 8 and 2 are read
  besides decimal numerals; all else is not a number.
-/

set_option autoImplicit false

namespace Formula

/-- The value of a run of decimal digits. -/
def natOfDigits (cs : List Char) : Nat :=
  cs.foldl (fun n c => 10 * n + (c.toNat - '0'.toNat)) 0

/-- A decimal: the signed value `digits * 10 ^ exponent`, where a zero
keeps its sign. -/
structure Decimal where
  negative : Bool
  digits : Nat
  exponent : Int
deriving DecidableEq

namespace Decimal

/-- An optional sign, and what follows it. -/
def takeSign : List Char → Bool × List Char
  | '-' :: cs => (true, cs)
  | '+' :: cs => (false, cs)
  | cs => (false, cs)

/-- The power of ten that ends a numeral: nothing at all, or the letter
`e` with an optional sign and at least one digit. -/
def exponentOfChars? : List Char → Option Int
  | [] => some 0
  | e :: cs =>
    if e = 'e' ∨ e = 'E' then
      let (negative, digits) := takeSign cs
      if digits ≠ [] ∧ digits.all Char.isDigit then
        some (if negative then -(natOfDigits digits : Int) else natOfDigits digits)
      else
        none
    else
      none

/-- The digits after a point, if a point comes next, and the rest. -/
def takeFraction : List Char → List Char × List Char
  | '.' :: cs => (cs.takeWhile Char.isDigit, cs.dropWhile Char.isDigit)
  | cs => ([], cs)

/-- An unsigned numeral: digits with an optional point, at least one
digit in all, and an optional power of ten. -/
def ofUnsigned? (negative : Bool) (cs : List Char) : Option Decimal :=
  let whole := cs.takeWhile Char.isDigit
  let (fraction, rest) := takeFraction (cs.dropWhile Char.isDigit)
  if whole = [] ∧ fraction = [] then none
  else
    (exponentOfChars? rest).map fun e =>
      ⟨negative, natOfDigits (whole ++ fraction), e - fraction.length⟩

/-- The decimal that a whole text denotes, if it is a numeral. -/
def ofChars? (cs : List Char) : Option Decimal :=
  let (negative, unsigned) := takeSign cs
  ofUnsigned? negative unsigned

/-- The double nearest to a decimal. The first two cases of a nonzero
decimal only save work: a power of ten above 400 is beyond the largest
double, and a value below `2 ^ -1076` is below half a quantum. -/
def toNumber (d : Decimal) : Number :=
  if d.digits = 0 then .zeroOf d.negative
  else
    match d.exponent with
    | .ofNat e =>
      if 400 < e then .infinite d.negative
      else .ofRatio d.negative (d.digits * Nat.pow 10 e * unitQuanta) 1
    | .negSucc k =>
      if d.digits.log2 + 1077 < 3 * (k + 1) then .zeroOf d.negative
      else .ofRatio d.negative (d.digits * unitQuanta) (Nat.pow 10 (k + 1))

end Decimal

namespace Number

/-- The value of a character as a digit of the radix, if it is one. -/
def digitOf? (radix : Nat) (c : Char) : Option Nat :=
  let value? :=
    if '0' ≤ c ∧ c ≤ '9' then some (c.toNat - '0'.toNat)
    else if 'a' ≤ c ∧ c ≤ 'z' then some (c.toNat - 'a'.toNat + 10)
    else if 'A' ≤ c ∧ c ≤ 'Z' then some (c.toNat - 'A'.toNat + 10)
    else none
  value?.filter (· < radix)

/-- Digits of a radix are taken in from the left, each step in double
arithmetic; a character that is no such digit makes the whole not a
number. -/
def foldDigits (radix : Nat) : Number → List Char → Number
  | acc, [] => acc
  | acc, c :: cs =>
    match digitOf? radix c with
    | some d => foldDigits radix (add (mul acc (ofNat radix)) (ofNat d)) cs
    | none => .nan

/-- The radix that the letter after a leading zero stands for. -/
def radixOf? : Char → Option Nat
  | 'x' | 'X' => some 16
  | 'o' | 'O' => some 8
  | 'b' | 'B' => some 2
  | _ => none

/-- The radix and the digits of a text that begins like a prefixed
integer. -/
def takeRadix? : List Char → Option (Nat × List Char)
  | '0' :: c :: cs => (radixOf? c).map (·, cs)
  | _ => none

/-- The value of a word in letters of any case: an infinity, or not a
number. -/
def ofWord? (negative : Bool) (word : List Char) : Option Number :=
  let lower := word.map Char.toLower
  if lower = "nan".toList then some .nan
  else if lower = "inf".toList ∨ lower = "infinity".toList then some (.infinite negative)
  else none

/-- The general reader of doubles: a decimal numeral, or one of the words
after an optional sign. -/
def ofChars? (cs : List Char) : Option Number :=
  match Decimal.ofChars? cs with
  | some d => some d.toNumber
  | none =>
    let (negative, word) := Decimal.takeSign cs
    ofWord? negative word

/-- The number that the general reader makes of a text, or not a number. -/
def ofNumeral (cs : List Char) : Number := (ofChars? cs).getD .nan

/-- Whether the character can stand in a decimal numeral. -/
def isNumeralChar (c : Char) : Bool :=
  c.isDigit || c == '.' || c == 'e' || c == 'E' || c == '+' || c == '-'

/-- The numeric value of a text that has been trimmed. The words of the
general reader are no number literals, so it is only asked about texts
made of the characters of numerals. -/
def ofTrimmed (cs : List Char) : Number :=
  if cs = [] then zero
  else if cs = "Infinity".toList ∨ cs = "+Infinity".toList then .infinite false
  else if cs = "-Infinity".toList then .infinite true
  else
    match takeRadix? cs with
    | some (_, []) => .nan
    | some (radix, digits) => foldDigits radix zero digits
    | none => if cs.all isNumeralChar then ofNumeral cs else .nan

/-- Whether the character is ignored at the ends of a numeric text: a
blank or the byte order mark. -/
def isPadding (c : Char) : Bool := isBlank c || c == '\uFEFF'

/-- The numeric value of a text. -/
def ofText (text : String) : Number := ofTrimmed (trimWhile isPadding text.toList)

end Number

end Formula
