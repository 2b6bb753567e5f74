import Formula.Number.Layout
import Formula.Text.Quoted
import Formula.Value.Basic

/-!
# `Formula.Value.Text`: the texts of a value

* `Value.text`: the string form, which joins the elements of an array by
  commas and shows every object alike.
* `Value.display`: the form for a developer, with quoted texts, brackets
  and the properties of objects.
-/

set_option autoImplicit false

namespace Formula.Value

/-- The parts with a separator between them. -/
def joined (separator : String) : List String → String
  | [] => ""
  | [part] => part
  | part :: rest => part ++ separator ++ joined separator rest

mutual

/-- The string form of a value. -/
def text : Value → String
  | .undefined => "undefined"
  | .null => "null"
  | .bool b => if b then "true" else "false"
  | .number n => n.text
  | .string s => s
  | .array _ elements => joined "," (elementTexts elements)
  | .object _ _ => "[object Object]"
  | .function _ => "function () \x7b [native code] \x7d"

/-- The texts of the elements of an array: undefined and null are
empty. -/
def elementTexts : List Value → List String
  | [] => []
  | v :: vs => (if v.isNullish then "" else v.text) :: elementTexts vs

end

mutual

/-- The form of a value for a developer. -/
def display : Value → String
  | .undefined => "undefined"
  | .null => "null"
  | .bool b => if b then "true" else "false"
  | .number n => n.text
  | .string s => quoted s
  | .array _ elements => "[" ++ joined ", " (displays elements) ++ "]"
  | .object _ properties => "\x7b" ++ joined ", " (displayPairs properties) ++ "\x7d"
  | .function f => if f.isAsync then "[Function (async)]" else "[Function]"

/-- The developer forms of a list of values. -/
def displays : List Value → List String
  | [] => []
  | v :: vs => v.display :: displays vs

/-- The developer forms of properties, each with its quoted name. -/
def displayPairs : List (String × Value) → List String
  | [] => []
  | (name, v) :: rest => (quoted name ++ ": " ++ v.display) :: displayPairs rest

end

end Formula.Value
