import Formula.Evaluation.Error
import Formula.Text.Units
import Formula.Value.Text

/-!
# `Formula.Value.Member`: property reads

`Value.getNamed?` reads a property by name: objects have their own
properties, arrays and texts have a length and their elements, and other
values have none. `Value.getKey?` reads a property by any value as the
key; it finds array elements by number without a detour through text.
Only undefined and null cannot be read from.
-/

set_option autoImplicit false

namespace Formula

/-- The first number that is not an index. -/
def indexLimit : Nat := Nat.pow 2 32 - 1

/-- The index that a name stands for: a decimal numeral without leading
zeros, below the index limit. -/
def indexOfName? (name : String) : Option Nat :=
  let digits := name.toList
  if digits ≠ [] ∧ digits.all Char.isDigit ∧ (digits.head? = some '0' → digits.length = 1) then
    let n := natOfDigits digits
    if n < indexLimit then some n else none
  else
    none

/-- The index that a number stands for: an integer from zero up to the
index limit. -/
def indexOfNumber? (x : Number) : Option Nat :=
  if x.isFinite && x.isIntegral && 0 ≤ x.truncate && x.truncate < indexLimit then
    some x.truncate.toNat
  else
    none

namespace Value

/-- The property of a value under a name. -/
def getNamed? (receiver : Value) (name : String) : Except EvalError Value :=
  match receiver with
  | .undefined | .null => .error (.nullishProperty name receiver.text)
  | .object _ properties => .ok ((Properties.get? properties name).getD .undefined)
  | .array _ elements =>
    if name = "length" then .ok (.number (.ofNat elements.length))
    else
      match indexOfName? name with
      | some i => .ok (elements[i]?.getD .undefined)
      | none => .ok .undefined
  | .string s =>
    if name = "length" then .ok (.number (.ofNat (unitLength s)))
    else
      match indexOfName? name with
      | some i => .ok (((unitAt? s i).map Value.string).getD .undefined)
      | none => .ok .undefined
  | .bool _ | .number _ | .function _ => .ok .undefined

/-- The name a value stands for as a property key. -/
def propertyKey (key : Value) : String := key.text

/-- The array index a key stands for. -/
def indexOfKey? : Value → Option Nat
  | .number x => indexOfNumber? x
  | .string s => indexOfName? s
  | _ => none

/-- The property of a value under a key. -/
def getKey? (receiver key : Value) : Except EvalError Value :=
  match receiver, indexOfKey? key with
  | .array _ elements, some i => .ok (elements[i]?.getD .undefined)
  | _, _ => receiver.getNamed? key.propertyKey

end Value

end Formula
