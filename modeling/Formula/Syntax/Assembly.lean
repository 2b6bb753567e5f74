import Formula.Syntax.Pair
import Formula.Syntax.Parse

/-!
# `Formula.Syntax.Assembly`: pairs into trees

A tree is made of the pairs that the grammar finds in a text. The
construct of a pair is told by its rule, and a row of operands and
operators is put together by binding powers.

Pairs are taken as they come. A rule that makes no tree, a rule that
misses a pair inside of it, a suffix of another rule or a number that is
no numeral is an error at the pair; an operand where an operator is wanted,
or the other way round, is a `Breakdown`, which no error tells of.
-/

set_option autoImplicit false

namespace Formula

/-! ### Rows of operands and operators -/

/-- Where a rule stands that takes operands. -/
inductive Affix where
  | before
  | between
  | after
deriving DecidableEq

/-- Where the operators of a rule stand, and the power with which they
bind; nothing for the rules of operands. Operators between operands group
to the left. -/
def Rule.affix? : Rule → Option (Affix × Nat)
  | or => some (.between, 10)
  | and => some (.between, 20)
  | bitOr => some (.between, 30)
  | bitXor => some (.between, 40)
  | bitAnd => some (.between, 50)
  | equality => some (.between, 60)
  | relational => some (.between, 70)
  | shift => some (.between, 80)
  | additive => some (.between, 90)
  | multiplicative => some (.between, 100)
  | unary => some (.before, 110)
  | call | index | field => some (.after, 120)
  | _ => none

/-- What ends the assembly without an error. -/
inductive Breakdown where
  /-- an operand is wanted, and nothing is left -/
  | noOperand
  /-- an operand is wanted, and the rule makes none -/
  | notAnOperand (rule : Rule)
  /-- an operator is wanted, and the rule makes none -/
  | notAnOperator (rule : Rule)
  /-- a string is not between two quotes -/
  | notQuoted
  /-- more steps than pairs are taken -/
  | exhausted
deriving DecidableEq

/-- The assembly of a tree: an error can be left in the place of the tree,
and the assembly can break down. -/
abbrev Assembly (α : Type) := ExceptT ParseError (Except Breakdown) α

/-- A result that is already there. -/
def Assembly.given {α : Type} (result : Except ParseError α) : Assembly α := Except.ok result

/-- A pair in a row, with what becomes of it: the tree that it is as an
operand, and the tree that it makes of the one before it as a suffix. -/
structure Item where
  rule : Rule
  text : List Char
  operand : Assembly Expr
  suffixed : Except ParseError Expr → Assembly Expr

/-- Takes the front of a row into a tree as long as it binds more tightly
than the power. `left?` is what stands on the left, if the operand that is
wanted first has been found. `fuel` bounds the number of steps. -/
def climb : Nat → Option (Except ParseError Expr) → Nat → List Item →
    Except Breakdown (Except ParseError Expr × List Item)
  | 0, _, _, _ => .error .exhausted
  | _ + 1, none, _, [] => .error .noOperand
  | fuel + 1, none, power, x :: row =>
    match x.rule.affix? with
    | none => do
      let value ← x.operand
      climb fuel (some value) power row
    | some (.before, own) => do
      let (argument, row) ← climb fuel none (own - 1) row
      climb fuel (some (argument.map (.unary (String.ofList x.text)))) power row
    | some (_, _) => .error (.notAnOperand x.rule)
  | _ + 1, some left, _, [] => .ok (left, [])
  | fuel + 1, some left, power, x :: row =>
    match x.rule.affix? with
    | none => .error (.notAnOperator x.rule)
    | some (affix, own) =>
      if power < own then
        match affix with
        | .between => do
          let (right, row) ← climb fuel none own row
          climb fuel (some (do return .infixed (String.ofList x.text) (← left) (← right))) power row
        | .after => do
          let value ← x.suffixed left
          climb fuel (some value) power row
        | .before => .error (.notAnOperator x.rule)
      else
        .ok (left, x :: row)

/-- The tree of a row. Every step but the last takes an item. -/
def climbRow (row : List Item) : Assembly Expr :=
  (climb (row.length + 1) none 0 row).map Prod.fst

/-! ### Pairs -/

/-- The body of a string between its quotes, which are one byte each. -/
def unquoted? (text : List Char) : Option (List Char) :=
  match text with
  | [] => none
  | first :: rest =>
    match rest.getLast? with
    | some last => if first.utf8Size = 1 ∧ last.utf8Size = 1 then some rest.dropLast else none
    | none => none

namespace Pair

/-- The error at a rule that misses a pair inside of it. -/
def missing {α : Type} (source : String) (span : Span) : Assembly α :=
  throw (.ofMessage "missing expected pair in rule" source span)

mutual

/-- The tree of a pair. -/
def node (source : String) : Pair → Assembly Expr
  | .mk rule span text inner =>
    match rule with
    | .main =>
      match inner with
      | [] => missing source span
      | x :: _ => x.node source
    | .expression =>
      match inner with
      | [] => missing source span
      | [test] => test.node source
      | [test, consequent] => do
        let _ ← test.node source
        let _ ← consequent.node source
        missing source span
      | test :: consequent :: alternate :: _ => do
        let test ← test.node source
        let consequent ← consequent.node source
        let alternate ← alternate.node source
        return .conditional test consequent alternate
    | .binary => climbRow (items source inner)
    | .array => .array <$> nodes source inner
    | .number =>
      match Number.ofChars? text with
      | some x => return .literal (.number x)
      | none =>
        throw (.ofMessage (ParseCause.invalidNumberMark ++ String.ofList text) source span)
    | .string =>
      match unquoted? text with
      | some body => return .literal (.string (String.ofList (Token.unescape body)))
      | none => Except.error .notQuoted
    | .boolean => return .literal (.bool (String.ofList text == "true"))
    | .null => return .literal .null
    | .this => return .this
    | .identifier => return .identifier (String.ofList text)
    | rule => throw (.ofMessage s!"Unhandled rule: {rule.name}" source span)

/-- The trees of pairs, in order. -/
def nodes (source : String) : List Pair → Assembly (List Expr)
  | [] => return []
  | x :: xs => do
    let e ← x.node source
    let es ← nodes source xs
    return e :: es

/-- The tree that a pair makes of the tree before it. -/
def suffixed (source : String) : Pair → Except ParseError Expr → Assembly Expr
  | .mk rule span _ inner => fun left =>
    match rule with
    | .call => do
      let arguments ← nodes source inner
      return .call (← Assembly.given left) arguments
    | .index =>
      match inner with
      | [] => missing source span
      | x :: _ => do
        let property ← x.node source
        return .index (← Assembly.given left) property
    | .field =>
      match inner with
      | [] => missing source span
      | x :: _ => do
        return .field (← Assembly.given left) (String.ofList x.text)
    | rule => throw (.ofMessage s!"unknown postfix operator: {rule.name}" source span)

/-- The items of a row of pairs. -/
def items (source : String) : List Pair → List Item
  | [] => []
  | x :: xs => ⟨x.rule, x.text, x.node source, x.suffixed source⟩ :: items source xs

end

end Pair

/-- The tree of a formula that nests at most `maxDepth` levels, by way of
its pairs. -/
def parseByPairs (source : String) (maxDepth : Nat) : Assembly Expr := do
  .given (Nesting.check source maxDepth)
  let (pairs, _) ←
    .given (Grammar.run (PairGrammar.main (Grammar.enoughNesting source)) source)
  match pairs with
  | [] => Pair.missing source ⟨0, 0⟩
  | x :: _ => x.node source

end Formula
