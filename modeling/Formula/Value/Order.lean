import Formula.Text.Units
import Formula.Value.Conversion

/-!
# `Formula.Value.Order`: the order of values

The relational operators rest on one comparison of primitives: two texts
by their code units, all else as numbers. It has no answer when a side is
not a number.
-/

set_option autoImplicit false

namespace Formula.Value

/-- The order of primitives. -/
def lessPrimitive : Value → Value → Option Bool
  | .string a, .string b => some (textBefore a b)
  | a, b =>
    let x := a.toNumber
    let y := b.toNumber
    if x.isNaN || y.isNaN then none else some (x.less y)

/-- Whether the first value is less than the second; no answer when the
two cannot be compared. -/
def less (a b : Value) : Option Bool := lessPrimitive a.toPrimitive b.toPrimitive

end Formula.Value
