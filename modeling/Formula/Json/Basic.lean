import Formula.Number.Layout
import Formula.Text.Quoted
import Formula.Value.Text

/-!
# `Formula.Json.Basic`: JSON documents

A JSON document, and its compact text. Integers that fit into 64 bits are
kept apart from all other numbers. Members keep their order, and a name
may occur more than once.
-/

set_option autoImplicit false

namespace Formula

/-- A JSON document. -/
inductive Json where
  | null
  | bool (b : Bool)
  | integer (n : Int)
  | float (x : Number)
  | string (s : String)
  | array (elements : List Json)
  | object (members : List (String × Json))
deriving Inhabited

namespace Json

/-- How a character is written inside a JSON string. -/
def stringChar (c : Char) : List Char :=
  if c = '"' ∨ c = '\\' then ['\\', c]
  else if c = '\x08' then ['\\', 'b']
  else if c = '\t' then ['\\', 't']
  else if c = '\n' then ['\\', 'n']
  else if c = '\x0c' then ['\\', 'f']
  else if c = '\r' then ['\\', 'r']
  else if c.toNat < 0x20 then
    ['\\', 'u', '0', '0', Nat.digitChar (c.toNat / 16), Nat.digitChar (c.toNat % 16)]
  else [c]

/-- A JSON string for a text. -/
def stringText (s : String) : String :=
  String.ofList ('"' :: (s.toList.flatMap stringChar ++ ['"']))

mutual

/-- The text of a document without any space. -/
def compact : Json → String
  | .null => "null"
  | .bool b => if b then "true" else "false"
  | .integer n => toString n
  | .float x => x.jsonText
  | .string s => stringText s
  | .array elements => "[" ++ Value.joined "," (compacts elements) ++ "]"
  | .object members => "\x7b" ++ Value.joined "," (compactMembers members) ++ "\x7d"

/-- The texts of documents. -/
def compacts : List Json → List String
  | [] => []
  | j :: tail => j.compact :: compacts tail

/-- The texts of members. -/
def compactMembers : List (String × Json) → List String
  | [] => []
  | (name, j) :: rest => (stringText name ++ ":" ++ j.compact) :: compactMembers rest

end

/-- A document in words, for an error that it is not what it should
be. -/
def inWords : Json → String
  | .null => "null"
  | .bool b => if b then "boolean `true`" else "boolean `false`"
  | .integer n => s!"integer `{n}`"
  | .float x => s!"floating point `{x.jsonText}`"
  | .string s => s!"string {quoted s}"
  | .array _ => "sequence"
  | .object _ => "map"

end Json

end Formula
