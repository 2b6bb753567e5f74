import Formula.Number.Basic
import Formula.Value.Properties

/-!
# `Formula.Value.Basic`: the values of formulas

A value is undefined, null, a boolean, a number, a text, an array, an
object or a host function. Arrays and objects carry an identity beside
their content: two of them are the same value for strict equality when
their identities agree, whatever they hold. Content never changes in
place, so a value can be kept and handed on freely.
-/

set_option autoImplicit false

namespace Formula

/-- What tells one array or object from another. -/
abbrev Identity := Nat

/-- A function of the host, known to formulas by its number only, and
whether its result may have to be waited for. -/
structure HostFunction where
  id : Nat
  isAsync : Bool
deriving DecidableEq, Inhabited

/-- A value of a formula. -/
inductive Value where
  | undefined
  | null
  | bool (b : Bool)
  | number (n : Number)
  | string (s : String)
  | array (identity : Identity) (elements : List Value)
  | object (identity : Identity) (properties : List (String × Value))
  | function (f : HostFunction)
deriving Inhabited

/-- An object by itself, as a scope or a handle on one. -/
structure Object where
  identity : Identity
  properties : List (String × Value)
deriving Inhabited

namespace Object

/-- The object as a value. -/
def toValue (o : Object) : Value := .object o.identity o.properties

/-- The value of an own property. -/
def get? (o : Object) (name : String) : Option Value := Properties.get? o.properties name

/-- The names of the own properties, in order. -/
def keys (o : Object) : List String := Properties.names o.properties

/-- The object with a property set. What other handles see under the old
identity stays as it was, so the result has an identity of its own. -/
def insert (o : Object) (identity : Identity) (name : String) (value : Value) : Object :=
  ⟨identity, Properties.put o.properties name value⟩

end Object

namespace Value

/-- The object behind an object value. -/
def object? : Value → Option Object
  | .object identity properties => some ⟨identity, properties⟩
  | _ => none

/-- Whether the value is undefined. -/
def isUndefined : Value → Bool
  | .undefined => true
  | _ => false

/-- Whether the value is undefined or null. -/
def isNullish : Value → Bool
  | .undefined | .null => true
  | _ => false

/-- Whether the value is an array, an object or a function. -/
def isCompound : Value → Bool
  | .array _ _ | .object _ _ | .function _ => true
  | _ => false

/-- The name of the value's type. -/
def typeName : Value → String
  | .undefined => "undefined"
  | .null => "object"
  | .bool _ => "boolean"
  | .number _ => "number"
  | .string _ => "string"
  | .array _ _ => "object"
  | .object _ _ => "object"
  | .function _ => "function"

end Value

end Formula
