import Formula.Syntax.Grammar

/-!
# `Formula.Syntax.Pair`: which rule has matched which text

Here the grammar is read for its rules. A rule that is told of makes a
`Pair`: its name, the text that it has matched, and the pairs of the rules
inside of it. The rules that are not told of (`operand`, `primary`,
`grouped`, and the choices among operators and suffixes) leave their pairs
side by side in the rule around them.

The matchers have the names and the order of those of
`Formula.Syntax.Grammar`, and share its tokens.
-/

set_option autoImplicit false

namespace Formula

/-- What a rule has matched, and the pairs inside of it. -/
inductive Pair where
  | mk (rule : Rule) (span : Span) (text : List Char) (inner : List Pair)

namespace Pair

/-- The rule of a pair. -/
def rule : Pair → Rule
  | .mk rule _ _ _ => rule

/-- The text of a pair. -/
def text : Pair → List Char
  | .mk _ _ text _ => text

/-- The pair of a rule that has matched from one place to another. -/
def between (rule : Rule) (start stop : Cursor) (inner : List Pair) : Pair :=
  .mk rule ⟨start.offset, stop.offset⟩ (start.rest.take (start.rest.length - stop.rest.length))
    inner

end Pair

/-- The pair of a rule around the pairs that a matcher finds. -/
def Matcher.paired (rule : Rule) (p : Matcher (List Pair)) : Matcher (List Pair) := fun c a =>
  match p c a with
  | (.matched inner c', a') => (.matched [.between rule c c' inner] c', a')
  | (.failed, a') => (.failed, a')
  | (.tooDeep, a') => (.tooDeep, a')

namespace PairGrammar

open Matcher

/-! ### Tokens -/

/-- The pair of a rule without rules inside of it. -/
def leaf {α : Type} (rule : Rule) (p : Matcher α) : Matcher (List Pair) :=
  paired rule ((fun _ => []) <$> p)

/-- The pair of a rule with rules inside of it. -/
def node (rule : Rule) (p : Matcher (List Pair)) : Matcher (List Pair) :=
  paired rule (tracked rule p)

/-- A binary operator under the name of its rule. -/
def operatorToken (entry : Rule × List BinaryOperator) : Matcher (List Pair) :=
  leaf entry.1 (Grammar.operatorToken entry)

/-- A binary operator. -/
def binaryOperator : Matcher (List Pair) := firstOf (Grammar.operatorRules.map operatorToken)

/-- A prefix operator. -/
def unaryOperator : Matcher (List Pair) := leaf .unary Grammar.unaryOperator

/-! ### Rules over the matcher for nested expressions -/

section

variable (nested : Matcher (List Pair))

/-- Expressions between two brackets. -/
def bracketed (opening closing : Char) : Matcher (List Pair) := do
  char opening
  skip
  let elements ← separated nested
  skip
  char closing
  return elements.flatten

/-- A list of values. -/
def array : Matcher (List Pair) := node .array (bracketed nested '[' ']')

/-- An expression in parentheses. -/
def grouped : Matcher (List Pair) := do
  char '('
  skip
  let inner ← nested
  skip
  char ')'
  return inner

/-- The arguments of a call. -/
def call : Matcher (List Pair) := node .call (bracketed nested '(' ')')

/-- The property of a computed member. -/
def index : Matcher (List Pair) := node .index do
  char '['
  skip
  let property ← nested
  skip
  char ']'
  return property

/-- The property of a static member. -/
def field : Matcher (List Pair) := node .field do
  char '.'
  skip
  leaf .propertyName Grammar.propertyName

/-- What can follow a primary expression. -/
def suffix : Matcher (List Pair) := firstOf [call nested, index nested, field]

/-- The smallest expressions. -/
def primary : Matcher (List Pair) :=
  firstOf [leaf .number Grammar.number, leaf .string Grammar.string,
    leaf .boolean Grammar.boolean, leaf .null Grammar.null, leaf .this Grammar.this,
    leaf .identifier Grammar.identifier, array nested, grouped nested]

/-- A primary expression with its signs and suffixes. -/
def operand : Matcher (List Pair) := do
  let signs ← many unaryOperator
  skip
  let e ← primary nested
  skip
  let suffixes ← many (suffix nested)
  return signs.flatten ++ e ++ suffixes.flatten

/-- An operator with its right operand. -/
def operation : Matcher (List Pair) := do
  let o ← binaryOperator
  skip
  let right ← operand nested
  return o ++ right

/-- Operands with operators between them. -/
def binary : Matcher (List Pair) := node .binary do
  let first ← operand nested
  skip
  let rest ← many (operation nested)
  return first ++ rest.flatten

/-- The branches of a conditional. -/
def branches : Matcher (List Pair) := do
  char '?'
  skip
  let consequent ← nested
  skip
  char ':'
  skip
  let alternate ← nested
  return consequent ++ alternate

/-- An expression: operands and operators, perhaps the test of a
conditional. -/
def expressionOver : Matcher (List Pair) := node .expression do
  let test ← binary nested
  skip
  let branches? ← optional (branches nested)
  return test ++ branches?.getD []

/-- A whole formula. -/
def mainOver : Matcher (List Pair) := node .main do
  skip
  let inner ← nested
  skip
  let last ← leaf .endOfInput Grammar.endOfInput
  return inner ++ last

end

/-! ### The recursion -/

/-- An expression in which at most `nesting` expressions, itself among
them, are nested in one another. -/
def expression : Nat → Matcher (List Pair)
  | 0 => tooDeep
  | nesting + 1 => expressionOver (expression nesting)

/-- A whole formula in which at most `nesting` expressions are nested in
one another. -/
def main (nesting : Nat) : Matcher (List Pair) := mainOver (expression nesting)

end PairGrammar

end Formula
