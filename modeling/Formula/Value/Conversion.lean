import Formula.Number.Reading
import Formula.Number.Word
import Formula.Value.Text

/-!
# `Formula.Value.Conversion`: truth, number and primitive of a value

Conversions never fail: every value is true or false, has a number
(perhaps not a number), and has a primitive, which for compounds is the
string form.
-/

set_option autoImplicit false

namespace Formula.Value

/-- Whether the value counts as true. -/
def isTruthy : Value → Bool
  | .undefined | .null => false
  | .bool b => b
  | .number n => !n.isZero && !n.isNaN
  | .string s => !s.isEmpty
  | .array _ _ | .object _ _ | .function _ => true

/-- The numeric value. -/
def toNumber (v : Value) : Number :=
  match v with
  | .undefined => .nan
  | .null => .zero
  | .bool b => if b then .one else .zero
  | .number n => n
  | .string s => .ofText s
  | .array _ _ | .object _ _ | .function _ => .ofText v.text

/-- The value itself unless it is a compound, whose string form is
taken. -/
def toPrimitive (v : Value) : Value :=
  if v.isCompound then .string v.text else v

/-- The 32-bit word of the value's number. -/
def toWord (v : Value) : BitVec 32 := v.toNumber.toWord

end Formula.Value
