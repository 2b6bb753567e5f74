import Formula.Expr
import Formula.Json.Reader

/-!
# `Formula.Expr.Tagged`: trees as JSON

A node of a tree is an object with a tag under `type` and a member for
each of its parts. Writing puts the tag first. Reading takes the members
in any order and ignores those that the node does not have; a tag that
names no node gives the unknown node, whatever else is there. A node may
also be written as an array, the tag first and its parts in order after
it.

The outermost node is decoded while the text is scanned, so a fault in
its tag has a position; inner nodes are decoded from documents that have
been read already, where a tag may also be the number of a node.
-/

set_option autoImplicit false

namespace Formula

open Json (Cause Fault Reader readString readColon readScalar readElements readEnd read
  nextElement nextMember faultAt faultPast maxNesting)

/-! ### Writing -/

/-- The document of a constant. -/
def Literal.toJson : Literal → Json
  | .null => .null
  | .bool b => .bool b
  | .number n => .float n
  | .string s => .string s

namespace Expr

/-- The name of the member that holds the tag. -/
def tagName : String := "type"

/-- A node with a tag and parts. -/
def tagged (tag : String) (parts : List (String × Json)) : Json :=
  .object ((tagName, .string tag) :: parts)

mutual

/-- The document of a tree. -/
def toJson : Expr → Json
  | .literal value => tagged "Literal" [("value", value.toJson)]
  | .identifier name => tagged "Identifier" [("name", .string name)]
  | .this => tagged "ThisExpression" []
  | .array elements => tagged "ArrayExpression" [("elements", .array (toJsons elements))]
  | .unary operator argument =>
    tagged "UnaryExpression" [("operator", .string operator), ("argument", toJson argument)]
  | .binary operator left right =>
    tagged "BinaryExpression"
      [("operator", .string operator), ("left", toJson left), ("right", toJson right)]
  | .logical operator left right =>
    tagged "LogicalExpression"
      [("operator", .string operator), ("left", toJson left), ("right", toJson right)]
  | .conditional test consequent alternate =>
    tagged "ConditionalExpression"
      [("test", toJson test), ("consequent", toJson consequent),
        ("alternate", toJson alternate)]
  | .member object property computed =>
    tagged "MemberExpression"
      [("object", toJson object), ("property", toJson property), ("computed", .bool computed)]
  | .call callee arguments =>
    tagged "CallExpression"
      [("callee", toJson callee), ("arguments", .array (toJsons arguments))]
  | .unknown => tagged "Unknown" []

/-- The documents of trees. -/
def toJsons : List Expr → List Json
  | [] => []
  | e :: es => toJson e :: toJsons es

end

/-- The JSON text of a tree. -/
def jsonText (e : Expr) : String := e.toJson.compact

/-! ### The parts of nodes -/

/-- What a part of a node holds. -/
inductive PartSort where
  | text | flag | constant | node | nodes
deriving DecidableEq

/-- A part that has been read. -/
inductive Part where
  | text (s : String)
  | flag (b : Bool)
  | constant (value : Literal)
  | node (e : Expr)
  | nodes (es : List Expr)

/-- The tag and the parts of a node. -/
structure Shape where
  tag : String
  parts : List (String × PartSort)

/-- The nodes with a tag, by number. -/
def shapes : List Shape :=
  [⟨"Literal", [("value", .constant)]⟩,
    ⟨"Identifier", [("name", .text)]⟩,
    ⟨"ThisExpression", []⟩,
    ⟨"ArrayExpression", [("elements", .nodes)]⟩,
    ⟨"UnaryExpression", [("operator", .text), ("argument", .node)]⟩,
    ⟨"BinaryExpression", [("operator", .text), ("left", .node), ("right", .node)]⟩,
    ⟨"LogicalExpression", [("operator", .text), ("left", .node), ("right", .node)]⟩,
    ⟨"ConditionalExpression", [("test", .node), ("consequent", .node), ("alternate", .node)]⟩,
    ⟨"MemberExpression", [("object", .node), ("property", .node), ("computed", .flag)]⟩,
    ⟨"CallExpression", [("callee", .node), ("arguments", .nodes)]⟩]

/-- The shape of every tag that names no node. -/
def unknownShape : Shape := ⟨"Unknown", []⟩

/-- The shape of a tag. -/
def shapeOfTag (tag : String) : Shape := (shapes.find? (·.tag == tag)).getD unknownShape

/-- The parts read so far, by name. -/
abbrev Parts := List (String × Part)

namespace Parts

/-- The text under a name. -/
def text (ps : Parts) (name : String) : Except Cause String :=
  match ps.lookup name with
  | some (.text s) => .ok s
  | _ => .error (.missingField name)

/-- The flag under a name. -/
def flag (ps : Parts) (name : String) : Except Cause Bool :=
  match ps.lookup name with
  | some (.flag b) => .ok b
  | _ => .error (.missingField name)

/-- The constant under a name. -/
def constant (ps : Parts) (name : String) : Except Cause Literal :=
  match ps.lookup name with
  | some (.constant value) => .ok value
  | _ => .error (.missingField name)

/-- The node under a name. -/
def node (ps : Parts) (name : String) : Except Cause Expr :=
  match ps.lookup name with
  | some (.node e) => .ok e
  | _ => .error (.missingField name)

/-- The nodes under a name. -/
def nodes (ps : Parts) (name : String) : Except Cause (List Expr) :=
  match ps.lookup name with
  | some (.nodes es) => .ok es
  | _ => .error (.missingField name)

end Parts

/-- The node of a tag with its parts; a missing part is a fault, the
first one in the order of the shape. -/
def ofParts (tag : String) (ps : Parts) : Except Cause Expr := do
  match tag with
  | "Literal" => return .literal (← ps.constant "value")
  | "Identifier" => return .identifier (← ps.text "name")
  | "ThisExpression" => return .this
  | "ArrayExpression" => return .array (← ps.nodes "elements")
  | "UnaryExpression" => return .unary (← ps.text "operator") (← ps.node "argument")
  | "BinaryExpression" =>
    return .binary (← ps.text "operator") (← ps.node "left") (← ps.node "right")
  | "LogicalExpression" =>
    return .logical (← ps.text "operator") (← ps.node "left") (← ps.node "right")
  | "ConditionalExpression" =>
    return .conditional (← ps.node "test") (← ps.node "consequent") (← ps.node "alternate")
  | "MemberExpression" =>
    return .member (← ps.node "object") (← ps.node "property") (← ps.flag "computed")
  | "CallExpression" => return .call (← ps.node "callee") (← ps.nodes "arguments")
  | _ => return .unknown

/-! ### Decoding documents -/

/-- The fault that a document is not what it should be. -/
def invalidType {α : Type} (j : Json) (expected : String) : Except Cause α :=
  .error (.invalidType j.inWords expected)

/-- What a tag should be. -/
def tagExpectation : String := "variant identifier"

/-- What a node should be. -/
def nodeExpectation : String := "internally tagged enum Node"

/-- The shape that a tag stands for: the tag's text, or the number of a
node. -/
def shapeOfJson : Json → Except Cause Shape
  | .string tag => .ok (shapeOfTag tag)
  | .integer (.ofNat n) => .ok (shapes.getD n unknownShape)
  | j => invalidType j tagExpectation

/-- The shape of the node with some members. -/
def shapeOfMembers : Option Shape → List (String × Json) → Except Cause Shape
  | some shape, [] => .ok shape
  | none, [] => .error (.missingField tagName)
  | found, (name, j) :: rest =>
    if name = tagName then
      match found with
      | some _ => .error (.duplicateField tagName)
      | none => do
        let shape ← shapeOfJson j
        shapeOfMembers (some shape) rest
    else
      shapeOfMembers found rest

/-- The constant of a document. -/
def literalOfJson : Json → Except Cause Literal
  | .null => .ok .null
  | .bool b => .ok (.bool b)
  | .integer n => .ok (.number (.ofInt n))
  | .float x => .ok (.number x)
  | .string s => .ok (.string s)
  | .array _ | .object _ => .error (.noVariant "Literal")

/-- A part of some sort, given how nodes are decoded. -/
def partOfJson (sort : PartSort) (j : Json) (node : Unit → Except Cause Expr)
    (nodes : Unit → Except Cause (List Expr)) : Except Cause Part :=
  match sort, j with
  | .text, .string s => .ok (.text s)
  | .text, j => invalidType j "a string"
  | .flag, .bool b => .ok (.flag b)
  | .flag, j => invalidType j "a boolean"
  | .constant, j => .constant <$> literalOfJson j
  | .node, _ => .node <$> node ()
  | .nodes, .array _ => .nodes <$> nodes ()
  | .nodes, j => invalidType j "a sequence"

/-- A number of elements in words. -/
def elementCount (n : Nat) : String := if n = 1 then "1 element" else s!"{n} elements"

/-- The fault of an array with fewer elements than its node has parts. -/
def tooFew {α : Type} (shape : Shape) (found : Nat) : Except Cause α :=
  .error (.invalidLength found
    s!"struct variant Node::{shape.tag} with {elementCount shape.parts.length}")

/-- The fault of an array with more elements than its node has parts. -/
def tooMany {α : Type} (shape : Shape) (found : Nat) : Except Cause α :=
  .error (.invalidLength found s!"{elementCount shape.parts.length} in sequence")

mutual

/-- The tree of a document. -/
def ofJson : Json → Except Cause Expr
  | .object members => do
    let shape ← shapeOfMembers none members
    ofMembers shape [] members
  | .array (tag :: elements) => do
    let shape ← shapeOfJson tag
    ofElements shape shape.parts [] elements
  | .array [] => .error (.missingField tagName)
  | j => invalidType j nodeExpectation

/-- The trees of documents. -/
def ofJsons : List Json → Except Cause (List Expr)
  | [] => .ok []
  | j :: tail => do
    let e ← ofJson j
    let es ← ofJsons tail
    return e :: es

/-- The node of a shape with some members; members the shape does not
have are ignored. -/
def ofMembers (shape : Shape) (found : Parts) : List (String × Json) → Except Cause Expr
  | [] => ofParts shape.tag found
  | (name, j) :: rest =>
    match shape.parts.lookup name with
    | none => ofMembers shape found rest
    | some sort =>
      if (found.lookup name).isSome then .error (.duplicateField name)
      else do
        let part ← partOfJson sort j (fun _ => ofJson j) (fun _ => ofElementsOf j)
        ofMembers shape ((name, part) :: found) rest

/-- The node of a shape with its remaining parts given in order. -/
def ofElements (shape : Shape) :
    List (String × PartSort) → Parts → List Json → Except Cause Expr
  | [], found, [] => ofParts shape.tag found
  | _ :: _, found, [] => tooFew shape found.length
  | [], found, j :: tail => tooMany shape (found.length + (j :: tail).length)
  | (name, sort) :: parts, found, j :: tail => do
    let part ← partOfJson sort j (fun _ => ofJson j) (fun _ => ofElementsOf j)
    ofElements shape parts ((name, part) :: found) tail

/-- The trees of the elements of a document that is an array. -/
def ofElementsOf : Json → Except Cause (List Expr)
  | .array elements => ofJsons elements
  | _ => .ok []

end

/-! ### Reading texts -/

/-- A fault found while the outermost node is scanned gets the place
reached, after the closing bracket if that comes next. -/
def placed {α : Type} (closing : Char) (c : Json.Cursor) : Except Cause α → Except Fault α
  | .ok a => .ok a
  | .error cause =>
    let c := c.skipSpace
    if c.peek = some closing then faultAt (c.drop 1) cause else faultAt c cause

/-- Reads the tag of the outermost node: it must be a text. -/
def readTag : Reader Shape := fun c =>
  let c := c.skipSpace
  match c.peek with
  | some '"' => do
    let (tag, c) ← readString c
    return (shapeOfTag tag, c)
  | some '[' => faultAt c (.invalidType (Json.array []).inWords tagExpectation)
  | some '\x7b' => faultAt c (.invalidType (Json.object []).inWords tagExpectation)
  | _ => do
    let (j, c) ← readScalar c
    faultAt c (.invalidType j.inWords tagExpectation)

/-- Reads the members of the outermost node, up to its closing bracket:
its shape, and the members without the tag. `fuel` bounds their
number. -/
def readNodeMembers :
    Nat → Bool → Option Shape → Reader (Shape × List (String × Json))
  | 0, _, _, c => faultPast c .endInObject
  | fuel + 1, first, found, c => do
    let (more, c) ← nextMember first c
    if more then
      let (name, c) ← readString c
      if name = tagName then
        match found with
        | some _ => placed '\x7d' c (.error (.duplicateField tagName))
        | none => do
          let (_, c) ← readColon c
          let (shape, c) ← readTag c
          readNodeMembers fuel false (some shape) c
      else do
        let (_, c) ← readColon c
        let (j, c) ← read (maxNesting - 1) c
        let ((shape, members), c) ← readNodeMembers fuel false found c
        return ((shape, (name, j) :: members), c)
    else
      match found with
      | some shape => return ((shape, []), c)
      | none => placed '\x7d' c (.error (.missingField tagName))

/-- Reads the elements of the outermost node written as an array. -/
def readNodeElements : Reader (Shape × List Json) := fun c => do
  let (more, c) ← nextElement true c
  if more then
    let (shape, c) ← readTag c
    let (elements, c) ← readElements (read (maxNesting - 1)) (c.rest.length + 1) false c
    return ((shape, elements), c)
  else
    placed ']' c (.error (.missingField tagName))

/-- Decoding gives a fault without a place. -/
def unplaced {α : Type} : Except Cause α → Except Fault α
  | .ok a => .ok a
  | .error cause => .error ⟨cause, none⟩

/-- Reads a tree. -/
def readNode : Reader Expr := fun c =>
  let c := c.skipSpace
  match c.peek with
  | some '\x7b' => do
    let c := c.drop 1
    let ((shape, members), c) ← readNodeMembers (c.rest.length + 1) true none c
    let e ← unplaced (ofMembers shape [] members)
    return (e, c.drop 1)
  | some '[' => do
    let ((shape, elements), c) ← readNodeElements (c.drop 1)
    let e ← unplaced (ofElements shape shape.parts [] elements)
    return (e, c.drop 1)
  | _ => do
    let (j, c) ← readScalar c
    faultAt c (.invalidType j.inWords nodeExpectation)

/-- The tree of a JSON text. -/
def ofJsonText (text : String) : Except Fault Expr := do
  let (e, c) ← readNode (Json.Cursor.start text)
  let _ ← readEnd c
  return e

end Expr

end Formula
