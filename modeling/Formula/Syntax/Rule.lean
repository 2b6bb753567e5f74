/-!
# `Formula.Syntax.Rule`: the rules of the grammar by name

The rules of the grammar, in the order in which reports list them, the
name of each, and the concept under which a report mentions it.
-/

set_option autoImplicit false

namespace Formula

/-- A rule of the grammar. -/
inductive Rule where
  | endOfInput | whitespace | main | expression | question | colon | binary | operand | infixOp
  | or | and | bitOr | bitXor | bitAnd | equality | relational | shift | additive
  | multiplicative | unary | postfixOp | call | index | field | primary | grouped | array
  | number | string | boolean | null | this | keyword | identifier | propertyName | identStart
  | identChar
deriving DecidableEq, Inhabited

namespace Rule

/-- All rules, in order. -/
def all : List Rule :=
  [endOfInput, whitespace, main, expression, question, colon, binary, operand, infixOp, or, and,
    bitOr, bitXor, bitAnd, equality, relational, shift, additive, multiplicative, unary,
    postfixOp, call, index, field, primary, grouped, array, number, string, boolean, null, this,
    keyword, identifier, propertyName, identStart, identChar]

/-- The name of a rule. -/
def name : Rule → String
  | endOfInput => "EOI"
  | whitespace => "WHITESPACE"
  | main => "main"
  | expression => "expression"
  | question => "question"
  | colon => "colon"
  | binary => "binary"
  | operand => "operand"
  | infixOp => "infix"
  | or => "or_op"
  | and => "and_op"
  | bitOr => "bit_or_op"
  | bitXor => "bit_xor_op"
  | bitAnd => "bit_and_op"
  | equality => "equality_op"
  | relational => "relational_op"
  | shift => "shift_op"
  | additive => "additive_op"
  | multiplicative => "multiplicative_op"
  | unary => "unary_op"
  | postfixOp => "postfix"
  | call => "call_op"
  | index => "index_op"
  | field => "field_op"
  | primary => "primary"
  | grouped => "grouped"
  | array => "array"
  | number => "number"
  | string => "string"
  | boolean => "boolean"
  | null => "null"
  | this => "this"
  | keyword => "keyword"
  | identifier => "identifier"
  | propertyName => "property_name"
  | identStart => "ident_start"
  | identChar => "ident_char"

/-- The rule of a name. -/
def ofName? (name : String) : Option Rule := all.find? (·.name == name)

/-- The position of a rule in the order. -/
def rank (r : Rule) : Nat := all.idxOf r

/-- The concept under which a rule is mentioned when it was expected. -/
def concept : Rule → String
  | number | string | boolean | null => "literal"
  | identifier | propertyName => "identifier"
  | or | and | bitOr | bitXor | bitAnd | equality | relational | shift | additive
  | multiplicative => "operator"
  | endOfInput => "end of input"
  | _ => "expression"

/-- The words for a rule that was found where it must not be. -/
def foundText : Rule → String
  | identifier => "identifier"
  | number => "number"
  | string => "string"
  | boolean => "boolean"
  | endOfInput => "end of input"
  | r => r.name

end Rule

/-- Puts a rule into an ordered list without repetition. -/
def insertRule (r : Rule) : List Rule → List Rule
  | [] => [r]
  | s :: rest =>
    if r = s then s :: rest
    else if r.rank < s.rank then r :: s :: rest
    else s :: insertRule r rest

/-- The rules in order, each once. -/
def orderRules (rules : List Rule) : List Rule := rules.foldr insertRule []

/-- Alternatives in words: separated by commas, with "or" before the
last. -/
def alternatives : List String → String
  | [] => "something else"
  | [only] => only
  | [first, last] => s!"{first} or {last}"
  | first :: rest => s!"{first}, {alternatives rest}"

/-- The concepts of the expected rules in words, each concept once. -/
def expectedText (rules : List Rule) : String :=
  alternatives (rules.map Rule.concept).eraseDups

end Formula
