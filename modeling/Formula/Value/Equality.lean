import Formula.Value.Conversion

/-!
# `Formula.Value.Equality`: three equalities

* `Value.strictEqual`: the operator `===`. Values of different kinds
  differ; arrays, objects and functions are equal when they are the same.
* `Value.looseEqual`: the operator `==`, which also converts: null and
  undefined are equal, booleans and texts meet numbers as numbers, and a
  compound meets a primitive through its string form.
* `Value.sameContent`: equality of content, for the host: arrays and
  objects are compared by what they hold.
-/

set_option autoImplicit false

namespace Formula.Value

/-- The equality of `===`. -/
def strictEqual : Value → Value → Bool
  | .undefined, .undefined => true
  | .null, .null => true
  | .bool a, .bool b => a == b
  | .number a, .number b => a.equal b
  | .string a, .string b => a == b
  | .array a _, .array b _ => a == b
  | .object a _, .object b _ => a == b
  | .function a, .function b => a == b
  | _, _ => false

/-- The equality of `==` between values that are neither booleans nor
compounds. -/
def looseEqualSimple : Value → Value → Bool
  | .number n, .string s => n.equal (.ofText s)
  | .string s, .number n => n.equal (.ofText s)
  | a, b => (a.isNullish && b.isNullish) || strictEqual a b

/-- A boolean as its number; other values as they are. -/
def boolAsNumber : Value → Value
  | .bool b => .number (Value.bool b).toNumber
  | v => v

/-- The equality of `==`. Two values of one kind are compared strictly,
two compounds of different kinds differ, and null and undefined are equal
to each other only. For the rest booleans become numbers and a compound
becomes its string form. -/
def looseEqual (a b : Value) : Bool :=
  match a, b with
  | .bool x, .bool y => x == y
  | _, _ =>
    if a.isCompound && b.isCompound then strictEqual a b
    else if a.isNullish || b.isNullish then a.isNullish && b.isNullish
    else looseEqualSimple (boolAsNumber a).toPrimitive (boolAsNumber b).toPrimitive

mutual

/-- Equality of content. -/
def sameContent : Value → Value → Bool
  | .undefined, .undefined => true
  | .null, .null => true
  | .bool a, .bool b => a == b
  | .number a, .number b => a.equal b
  | .string a, .string b => a == b
  | .array _ as, .array _ bs => sameElements as bs
  | .object a as, .object b bs => a == b || sameProperties as bs
  | .function a, .function b => a == b
  | _, _ => false

/-- Equality of content, element by element. -/
def sameElements : List Value → List Value → Bool
  | [], [] => true
  | a :: as, b :: bs => sameContent a b && sameElements as bs
  | _, _ => false

/-- Equality of content, property by property. -/
def sameProperties : List (String × Value) → List (String × Value) → Bool
  | [], [] => true
  | (k, a) :: as, (l, b) :: bs => k == l && sameContent a b && sameProperties as bs
  | _, _ => false

end

end Formula.Value

namespace Formula.Object

/-- Whether two handles are on the same object. -/
def same (a b : Object) : Bool := a.identity == b.identity

/-- Whether two objects hold the same properties, or are the same. -/
def sameContent (a b : Object) : Bool := Value.sameContent a.toValue b.toValue

end Formula.Object
