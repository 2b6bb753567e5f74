import Formula.Json.Basic
import Formula.Json.Fault

/-!
# `Formula.Json.Number`: numbers of JSON texts

An integer that fits into 64 bits is kept as it is. Every other number is
read in double arithmetic: as many leading digits as fit into 64 bits are
taken as one integer, and the result is scaled by a single power of ten.
So a number with many digits may differ from the nearest double in its
last place; integers and short decimals are exact.
-/

set_option autoImplicit false

namespace Formula.Json

/-- The first integer that does not fit into 64 bits. -/
def wordLimit : Nat := Nat.pow 2 64

/-- Takes digits in, from the left, as long as the integer fits into 64
bits; gives the integer and the number of digits that did not fit. -/
def takeDigits : Nat → List Char → Nat × Nat
  | n, [] => (n, 0)
  | n, c :: cs =>
    let n' := 10 * n + (c.toNat - '0'.toNat)
    if n' < wordLimit then takeDigits n' cs else (n, (c :: cs).length)

/-- A power of ten as a double. -/
def powerOfTen (e : Nat) : Number := .ofNat (Nat.pow 10 e)

/-- The largest power of ten that is a finite double. -/
def maxPower : Nat := 308

/-- Scales a double by a power of ten; nothing when the result is too
large. A very small power is applied in steps, of which a few bring any
64-bit integer to zero. -/
def scale : Nat → Number → Int → Option Number
  | 0, x, _ => some x
  | steps + 1, x, e =>
    if e.natAbs ≤ maxPower then
      if 0 ≤ e then
        let y := x.mul (powerOfTen e.toNat)
        if y.isFinite then some y else none
      else
        some (x.div (powerOfTen e.natAbs))
    else if x.isZero then some x
    else if 0 ≤ e then none
    else scale steps (x.div (powerOfTen maxPower)) (e + maxPower)

/-- The number of an integer and a power of ten. -/
def floatOfParts (negative : Bool) (significand : Nat) (e : Int) : Option Json :=
  (scale 4 (.ofNat significand) e).map fun x => .float (if negative then x.neg else x)

/-- The number of an integer without point and power of ten. Negative
zero and negative integers beyond 64 bits are no integers. -/
def ofInteger (negative : Bool) (significand : Nat) : Json :=
  if !negative then .integer significand
  else if 0 < significand ∧ significand ≤ Nat.pow 2 63 then .integer (-(significand : Int))
  else .float (Number.ofNat significand).neg

/-- The first power of ten that is refused or taken for zero without
being looked at. -/
def exponentLimit : Nat := Nat.pow 2 31

/-- The value of the digits of an exponent, or the number of digits after
which it has reached the limit. -/
def takeExponent : Nat → Nat → List Char → Except Nat Nat
  | _, n, [] => .ok n
  | taken, n, c :: cs =>
    let n' := 10 * n + (c.toNat - '0'.toNat)
    if n' < exponentLimit then takeExponent (taken + 1) n' cs else .error (taken + 1)

end Formula.Json
