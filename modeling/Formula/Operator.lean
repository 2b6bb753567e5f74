import Formula.Evaluation.Error
import Formula.Value.Equality
import Formula.Value.Order

/-!
# `Formula.Operator`: the operators

The binary and unary operators, their symbols, the precedence levels of
the binary ones, and what they compute. An operator has a result for all
values; an operator symbol of a tree may have no operator.
-/

set_option autoImplicit false

namespace Formula

/-- A binary operator. -/
inductive BinaryOperator where
  | or | and | bitOr | bitXor | bitAnd
  | equal | notEqual | identical | notIdentical
  | less | greater | lessEqual | greaterEqual
  | shiftLeft | shiftRight | shiftRightUnsigned
  | add | subtract | multiply | divide | remainder
deriving DecidableEq

/-- A prefix operator. -/
inductive UnaryOperator where
  | minus | plus | complement | not
deriving DecidableEq

namespace BinaryOperator

/-- All binary operators. -/
def all : List BinaryOperator :=
  [or, and, bitOr, bitXor, bitAnd, equal, notEqual, identical, notIdentical, less, greater,
    lessEqual, greaterEqual, shiftLeft, shiftRight, shiftRightUnsigned, add, subtract, multiply,
    divide, remainder]

/-- The symbol of an operator. -/
def symbol : BinaryOperator → String
  | or => "||"
  | and => "&&"
  | bitOr => "|"
  | bitXor => "^"
  | bitAnd => "&"
  | equal => "=="
  | notEqual => "!="
  | identical => "==="
  | notIdentical => "!=="
  | less => "<"
  | greater => ">"
  | lessEqual => "<="
  | greaterEqual => ">="
  | shiftLeft => "<<"
  | shiftRight => ">>"
  | shiftRightUnsigned => ">>>"
  | add => "+"
  | subtract => "-"
  | multiply => "*"
  | divide => "/"
  | remainder => "%"

/-- The operator of a symbol. -/
def ofSymbol? (symbol : String) : Option BinaryOperator := all.find? (·.symbol == symbol)

/-- How tightly an operator binds, the loosest level being zero. -/
def level : BinaryOperator → Nat
  | or => 0
  | and => 1
  | bitOr => 2
  | bitXor => 3
  | bitAnd => 4
  | equal | notEqual | identical | notIdentical => 5
  | less | greater | lessEqual | greaterEqual => 6
  | shiftLeft | shiftRight | shiftRightUnsigned => 7
  | add | subtract => 8
  | multiply | divide | remainder => 9

/-- Whether the operator may leave its right operand unevaluated. -/
def isLogical : BinaryOperator → Bool
  | or | and => true
  | _ => false

/-- The sum of two values: the texts are joined when a primitive is a
text, and the numbers are added otherwise. -/
def sum (a b : Value) : Value :=
  match a.toPrimitive, b.toPrimitive with
  | .string s, q => .string (s ++ q.text)
  | p, .string t => .string (p.text ++ t)
  | p, q => .number (p.toNumber.add q.toNumber)

/-- The result of an operator on two values. -/
def apply (operator : BinaryOperator) (a b : Value) : Value :=
  match operator with
  | or => if a.isTruthy then a else b
  | and => if a.isTruthy then b else a
  | bitOr => .number (.ofSignedWord (a.toWord ||| b.toWord))
  | bitXor => .number (.ofSignedWord (a.toWord ^^^ b.toWord))
  | bitAnd => .number (.ofSignedWord (a.toWord &&& b.toWord))
  | equal => .bool (a.looseEqual b)
  | notEqual => .bool !(a.looseEqual b)
  | identical => .bool (a.strictEqual b)
  | notIdentical => .bool !(a.strictEqual b)
  | less => .bool (a.less b == some true)
  | greater => .bool (b.less a == some true)
  | lessEqual => .bool (b.less a == some false)
  | greaterEqual => .bool (a.less b == some false)
  | shiftLeft => .number (.ofSignedWord (a.toWord <<< b.toNumber.shiftCount))
  | shiftRight => .number (.ofSignedWord (a.toWord.sshiftRight b.toNumber.shiftCount))
  | shiftRightUnsigned => .number (.ofWord (a.toWord >>> b.toNumber.shiftCount))
  | add => sum a b
  | subtract => .number (a.toNumber.sub b.toNumber)
  | multiply => .number (a.toNumber.mul b.toNumber)
  | divide => .number (a.toNumber.div b.toNumber)
  | remainder => .number (a.toNumber.rem b.toNumber)

end BinaryOperator

namespace UnaryOperator

/-- All prefix operators. -/
def all : List UnaryOperator := [minus, plus, complement, not]

/-- The symbol of an operator. -/
def symbol : UnaryOperator → String
  | minus => "-"
  | plus => "+"
  | complement => "~"
  | not => "!"

/-- The operator of a symbol. -/
def ofSymbol? (symbol : String) : Option UnaryOperator := all.find? (·.symbol == symbol)

/-- The result of an operator on a value. -/
def apply (operator : UnaryOperator) (a : Value) : Value :=
  match operator with
  | minus => .number a.toNumber.neg
  | plus => .number a.toNumber
  | complement => .number (.ofSignedWord (~~~a.toWord))
  | not => .bool !a.isTruthy

end UnaryOperator

/-- The binary operator of a symbol, or the error that it has none. -/
def binaryOperator (symbol : String) : Except EvalError BinaryOperator :=
  match BinaryOperator.ofSymbol? symbol with
  | some operator => .ok operator
  | none => .error (.unknownOperator symbol)

/-- The prefix operator of a symbol, or the error that it has none. -/
def unaryOperator (symbol : String) : Except EvalError UnaryOperator :=
  match UnaryOperator.ofSymbol? symbol with
  | some operator => .ok operator
  | none => .error (.unknownOperator symbol)

end Formula
