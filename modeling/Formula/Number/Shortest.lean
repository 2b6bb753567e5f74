import Formula.Number.Reading

/-!
# `Formula.Number.Shortest`: the fewest digits that read back

The decimals that read back as a positive double are those in an
interval around it, from halfway to the double below to halfway to the
double above. For 1, 2, … 17 digits the two decimals of that many digits
next to the double are tried; the first count with a decimal in the
interval gives the fewest digits, and of two such decimals the nearer one
is taken.

* `Significant.readsBack`: the interval, the specification of the digits.
* `shortest`: the digits chosen.

Ends of the interval are compared in quarters of a quantum, so that all
of them are whole numbers.
-/

set_option autoImplicit false

namespace Formula

/-- The positive decimal `digits * 10 ^ exponent`. -/
structure Significant where
  digits : Nat
  exponent : Int
deriving DecidableEq

/-- Which of two equally near decimals is taken. -/
inductive Tie where
  | toEven
  | up
deriving DecidableEq

/-- The weight of one unit of the last significant bit of a magnitude,
in quanta. -/
def ulp (quanta : Nat) : Nat := Nat.pow 2 (excessBits quanta)

/-- Whether the double below is half as far away as the double above:
at a power of two whose significant bits do not reach the quantum. -/
def narrowBelow (quanta : Nat) : Bool :=
  1 < ulp quanta && quanta == Nat.pow 2 quanta.log2

/-- The lower end of the interval that rounds to a magnitude, in quarters
of a quantum. -/
def lowerEnd (quanta : Nat) : Nat :=
  if narrowBelow quanta then 4 * quanta - ulp quanta else 4 * quanta - 2 * ulp quanta

/-- The upper end of the interval, in quarters of a quantum. -/
def upperEnd (quanta : Nat) : Nat := 4 * quanta + 2 * ulp quanta

/-- Whether the ends belong to the interval: when the significand is
even, ties go to it. -/
def endsIncluded (quanta : Nat) : Bool := quanta / ulp quanta % 2 == 0

/-- The factors that bring `10 ^ e` to whole numbers: `10 ^ e` is the
first over the second. -/
def tenPower (e : Int) : Nat × Nat := (Nat.pow 10 e.toNat, Nat.pow 10 (-e).toNat)

/-- Whether a place lies in an interval, from its comparisons with the
lower and the upper end and from whether the ends belong to it. -/
def insideEnds (ends : Bool) : Ordering → Ordering → Bool
  | .gt, .lt => true
  | .eq, .lt => ends
  | .gt, .eq => ends
  | _, _ => false

namespace Significant

/-- Compares a decimal with a number of quarters of a quantum. -/
def compareQuarters (d : Significant) (quarters : Nat) : Ordering :=
  let (up, down) := tenPower d.exponent
  compare (d.digits * up * (4 * unitQuanta)) (quarters * down)

/-- Whether the decimal reads back as the magnitude. -/
def readsBack (d : Significant) (quanta : Nat) : Bool :=
  insideEnds (endsIncluded quanta) (d.compareQuarters (lowerEnd quanta))
    (d.compareQuarters (upperEnd quanta))

end Significant

/-- The number of decimal digits of a natural number. -/
def decimalLength (n : Nat) : Nat := (Nat.toDigits 10 n).length

/-- The power of ten of the first significant digit of a positive
magnitude. -/
def leadingExponent (quanta : Nat) : Int :=
  if unitQuanta ≤ quanta then (decimalLength (quanta / unitQuanta) : Int) - 1
  else -(decimalLength ((unitQuanta - 1) / quanta) : Int)

/-- The multiple of `10 ^ e` at or below a magnitude, and twice the
distance to it compared with the step to the next multiple. -/
def gridBelow (quanta : Nat) (e : Int) : Nat × Ordering :=
  let (up, down) := tenPower e
  let step := unitQuanta * up
  (quanta * down / step, compare (2 * (quanta * down % step)) step)

/-- The nearer one of two neighbours on a grid, from how twice the
distance to the lower one compares with the step between them. -/
def nearer (tie : Tie) (low high : Significant) : Ordering → Significant
  | .lt => low
  | .gt => high
  | .eq =>
    match tie with
    | .up => high
    | .toEven => if low.digits % 2 = 0 then low else high

/-- The choice between two neighbours on a grid, from whether the lower
and the upper one read back: the nearer one when both do. -/
def choice (low high nearer : Significant) : Bool → Bool → Option Significant
  | true, true => some nearer
  | true, false => some low
  | false, true => some high
  | false, false => none

/-- The decimal on the grid of `10 ^ e` that reads back as the magnitude
and is nearest to it, if one of the two neighbours on the grid does. -/
def nearestOnGrid (tie : Tie) (quanta : Nat) (e : Int) : Option Significant :=
  let (below, half) := gridBelow quanta e
  let low : Significant := ⟨below, e⟩
  let high : Significant := ⟨below + 1, e⟩
  choice low high (nearer tie low high half) (low.readsBack quanta) (high.readsBack quanta)

/-- Tries one more digit until a decimal reads back. -/
def shortestFrom (tie : Tie) (quanta : Nat) : Nat → Int → Significant
  | 0, e => ⟨(gridBelow quanta e).1, e⟩
  | more + 1, e =>
    (nearestOnGrid tie quanta e).getD (shortestFrom tie quanta more (e - 1))

/-- The shortest decimal that reads back as a positive magnitude; 17
digits always suffice. -/
def shortest (tie : Tie) (quanta : Nat) : Significant :=
  shortestFrom tie quanta 17 (leadingExponent quanta)

end Formula
