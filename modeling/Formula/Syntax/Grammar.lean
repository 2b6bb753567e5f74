import Formula.Syntax.Matcher
import Formula.Syntax.Phrase
import Formula.Syntax.Token

/-!
# `Formula.Syntax.Grammar`: the grammar of formulas

    main       = expression, end of input
    expression = binary, [ "?", expression, ":", expression ]
    binary     = operand, { operator, operand }
    operand    = { sign }, primary, { call | index | field }
    primary    = number | string | boolean | null | this | name | array | "(", expression, ")"
    array      = "[", [ expression, { ",", expression } ], "]"
    call       = "(", [ expression, { ",", expression } ], ")"
    index      = "[", expression, "]"
    field      = ".", word

Spaces may stand between any two parts. Alternatives are tried in order
and repetitions take as much as they can.

Only `expression` is recursive. `Grammar.expression` is given how many
more expressions may be nested in one another, and every other matcher is
given the matcher for nested expressions.
-/

set_option autoImplicit false

namespace Formula.Grammar

open Matcher

/-! ### Tokens -/

/-- The operator tokens by rule, in the order in which they are tried:
longer symbols before the shorter ones that begin them. -/
def operatorRules : List (Rule × List BinaryOperator) :=
  [(.or, [.or]),
    (.and, [.and]),
    (.equality, [.identical, .notIdentical, .equal, .notEqual]),
    (.shift, [.shiftRightUnsigned, .shiftLeft, .shiftRight]),
    (.relational, [.lessEqual, .greaterEqual, .less, .greater]),
    (.bitOr, [.bitOr]),
    (.bitXor, [.bitXor]),
    (.bitAnd, [.bitAnd]),
    (.additive, [.add, .subtract]),
    (.multiplicative, [.multiply, .divide, .remainder])]

/-- A binary operator under the name of its rule. -/
def operatorToken (entry : Rule × List BinaryOperator) : Matcher BinaryOperator :=
  token entry.1 (Token.binaryOperator entry.2)

/-- A binary operator. -/
def binaryOperator : Matcher BinaryOperator := firstOf (operatorRules.map operatorToken)

/-- A prefix operator. -/
def unaryOperator : Matcher UnaryOperator := token .unary Token.unaryOperator

/-- A number. -/
def number : Matcher Primary := .number <$> token .number Token.number

/-- A string. -/
def string : Matcher Primary := .string <$> token .string Token.string

/-- A truth value. -/
def boolean : Matcher Primary := .boolean <$> token .boolean Token.boolean

/-- The word for null. -/
def null : Matcher Primary := (fun _ => .null) <$> token .null (Token.word "null")

/-- The word for the context object. -/
def this : Matcher Primary := (fun _ => .this) <$> token .this (Token.word "this")

/-- A word with a meaning of its own. -/
def keyword : Matcher Unit := token .keyword Token.keyword

/-- A name. -/
def identifier : Matcher Primary := .identifier <$> token .identifier Token.identifier

/-- The name of a static member. -/
def propertyName : Matcher String := token .propertyName Token.propertyName

/-- The end of the text. -/
def endOfInput : Matcher Unit :=
  token .endOfInput fun cs => if cs.isEmpty then some ((), cs) else none

/-! ### Rules over the matcher for nested expressions -/

section

variable (nested : Matcher Phrase)

/-- Expressions between two brackets. -/
def bracketed (opening closing : Char) : Matcher (List Phrase) := do
  char opening
  skip
  let elements ← separated nested
  skip
  char closing
  return elements

/-- A list of values. -/
def array : Matcher Primary := .array <$> tracked .array (bracketed nested '[' ']')

/-- An expression in parentheses. -/
def grouped : Matcher Primary := do
  char '('
  skip
  let inner ← nested
  skip
  char ')'
  return .grouped inner

/-- The arguments of a call. -/
def call : Matcher Suffix := .call <$> tracked .call (bracketed nested '(' ')')

/-- The property of a computed member. -/
def index : Matcher Suffix := tracked .index do
  char '['
  skip
  let property ← nested
  skip
  char ']'
  return .index property

/-- The property of a static member. -/
def field : Matcher Suffix := tracked .field do
  char '.'
  skip
  .field <$> propertyName

/-- What can follow a primary expression. -/
def suffix : Matcher Suffix := firstOf [call nested, index nested, field]

/-- The smallest expressions. -/
def primary : Matcher Primary :=
  firstOf [number, string, boolean, null, this, identifier, array nested, grouped nested]

/-- A primary expression with its signs and suffixes. -/
def operand : Matcher Operand := do
  let signs ← many unaryOperator
  skip
  let e ← primary nested
  skip
  let suffixes ← many (suffix nested)
  return .mk signs e suffixes

/-- An operator with its right operand. -/
def operation : Matcher (BinaryOperator × Operand) := do
  let o ← binaryOperator
  skip
  let right ← operand nested
  return (o, right)

/-- Operands with operators between them. -/
def binary : Matcher Chain := tracked .binary do
  let first ← operand nested
  skip
  let rest ← many (operation nested)
  return .mk first rest

/-- The branches of a conditional. -/
def branches : Matcher (Phrase × Phrase) := do
  char '?'
  skip
  let consequent ← nested
  skip
  char ':'
  skip
  let alternate ← nested
  return (consequent, alternate)

/-- An expression: operands and operators, perhaps the test of a
conditional. -/
def expressionOver : Matcher Phrase := tracked .expression do
  let test ← binary nested
  skip
  match ← optional (branches nested) with
  | some (consequent, alternate) => return .conditional test consequent alternate
  | none => return .plain test

/-- A whole formula. -/
def mainOver : Matcher Phrase := tracked .main do
  skip
  let p ← nested
  skip
  endOfInput
  return p

end

/-! ### The recursion -/

/-- An expression in which at most `nesting` expressions, itself among
them, are nested in one another. -/
def expression : Nat → Matcher Phrase
  | 0 => tooDeep
  | nesting + 1 => expressionOver (expression nesting)

/-- A whole formula in which at most `nesting` expressions are nested in
one another. -/
def main (nesting : Nat) : Matcher Phrase := mainOver (expression nesting)

/-- What a single rule makes of a text: a tree, if it is a rule for
trees. -/
def ofRule (nesting : Nat) : Rule → Matcher (Option Expr)
  | .main => (some ·.tree) <$> main nesting
  | .expression => (some ·.tree) <$> expression nesting
  | .binary => (some ·.tree) <$> binary (expression nesting)
  | .operand => (some ·.tree) <$> operand (expression nesting)
  | .primary => (some ·.tree) <$> primary (expression nesting)
  | .grouped => (some ·.tree) <$> grouped (expression nesting)
  | .array => (some ·.tree) <$> array (expression nesting)
  | .number => (some ·.tree) <$> number
  | .string => (some ·.tree) <$> string
  | .boolean => (some ·.tree) <$> boolean
  | .null => (some ·.tree) <$> null
  | .this => (some ·.tree) <$> this
  | .identifier => (some ·.tree) <$> identifier
  | .keyword => (fun _ => none) <$> keyword
  | .propertyName => (fun _ => none) <$> propertyName
  | .call => (fun _ => none) <$> call (expression nesting)
  | .index => (fun _ => none) <$> index (expression nesting)
  | .field => (fun _ => none) <$> field
  | .postfixOp => (fun _ => none) <$> suffix (expression nesting)
  | .infixOp => (fun _ => none) <$> binaryOperator
  | .unary => (fun _ => none) <$> unaryOperator
  | .endOfInput => (fun _ => none) <$> endOfInput
  | .question => (fun _ => none) <$> char '?'
  | .colon => (fun _ => none) <$> char ':'
  | .whitespace =>
    (fun _ => none) <$> firstOf [char ' ', char '\t', char '\r', char '\n']
  | .identStart => (fun _ => none) <$> wordCharacter Token.isWordStart
  | .identChar => (fun _ => none) <$> wordCharacter Token.isWordChar
  | rule => (fun _ => none) <$> firstOf
      ((operatorRules.filter (·.1 == rule)).map operatorToken)
where
  /-- One character of a class, not recorded as an attempt. -/
  wordCharacter (p : Char → Bool) : Matcher Unit := fun c a =>
    match c.rest with
    | d :: rest => if p d then (.matched () ⟨c.offset + d.utf8Size, rest⟩, a) else (.failed, a)
    | [] => (.failed, a)

end Formula.Grammar
