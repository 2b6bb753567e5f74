/-!
# `Formula.Text.Units`: the 16-bit units of a text

Texts are measured, indexed and ordered by their UTF-16 code units: one
unit for a character of the basic plane, a pair of surrogates for any
other.
-/

set_option autoImplicit false

namespace Formula

/-- The code units of a character. -/
def unitsOfChar (c : Char) : List Nat :=
  if c.toNat < 0x10000 then [c.toNat]
  else [0xD800 + (c.toNat - 0x10000) / 0x400, 0xDC00 + (c.toNat - 0x10000) % 0x400]

/-- The code units of a text. -/
def unitsOf (text : String) : List Nat := text.toList.flatMap unitsOfChar

/-- The number of code units of a text. -/
def unitLength (text : String) : Nat := (unitsOf text).length

/-- The character of a single unit; a surrogate has none of its own and
gives the replacement character. -/
def charOfUnit (unit : Nat) : Char :=
  if 0xD800 ≤ unit ∧ unit < 0xE000 then '\uFFFD' else Char.ofNat unit

/-- The text of the unit at an index, if there is one. -/
def unitAt? (text : String) (index : Nat) : Option String :=
  ((unitsOf text)[index]?).map fun unit => String.singleton (charOfUnit unit)

/-- Whether the first list of units comes before the second. -/
def unitsBefore : List Nat → List Nat → Bool
  | _, [] => false
  | [], _ :: _ => true
  | a :: as, b :: bs => if a = b then unitsBefore as bs else decide (a < b)

/-- Whether the first text comes before the second in the order of their
units. -/
def textBefore (a b : String) : Bool := unitsBefore (unitsOf a) (unitsOf b)

end Formula
