import Formula.Number.Basic

/-!
# `Formula.Expr`: syntax trees

The tree of a formula. Operators are kept as their symbols: a tree that
was not read from a text may hold symbols without a meaning, which only
evaluation finds out. A member expression is static when its property is
a name, and computed when the property is a value to be evaluated.
-/

set_option autoImplicit false

namespace Formula

/-- A constant in a tree. -/
inductive Literal where
  | null
  | bool (b : Bool)
  | number (n : Number)
  | string (s : String)
deriving DecidableEq, Inhabited

/-- A syntax tree. -/
inductive Expr where
  | literal (value : Literal)
  | identifier (name : String)
  | this
  | array (elements : List Expr)
  | unary (operator : String) (argument : Expr)
  /-- both operands are always evaluated -/
  | binary (operator : String) (left right : Expr)
  /-- the right operand is evaluated only if the left one does not decide;
  with other operators than `&&` and `||` the same as `binary` -/
  | logical (operator : String) (left right : Expr)
  | conditional (test consequent alternate : Expr)
  | member (object property : Expr) (computed : Bool)
  | call (callee : Expr) (arguments : List Expr)
  /-- a construct outside the language, which has no value -/
  | unknown
deriving Inhabited

namespace Expr

/-- An operator between two operands, in the constructor that fits it. -/
def infixed (operator : String) (left right : Expr) : Expr :=
  if operator = "&&" ∨ operator = "||" then .logical operator left right
  else .binary operator left right

/-- The static member with a name. -/
def field (object : Expr) (name : String) : Expr := .member object (.identifier name) false

/-- The computed member under a property. -/
def index (object property : Expr) : Expr := .member object property true

/-- The name under which a member is read, if it is a static one: its
property is a name and not computed. -/
def staticName? : (property : Expr) → (computed : Bool) → Option String
  | .identifier name, false => some name
  | _, _ => none

/-- The name of the tree's outermost construct. -/
def kind : Expr → String
  | .literal _ => "Literal"
  | .identifier _ => "Identifier"
  | .this => "ThisExpression"
  | .array _ => "ArrayExpression"
  | .unary _ _ => "UnaryExpression"
  | .binary _ _ _ => "BinaryExpression"
  | .logical _ _ _ => "LogicalExpression"
  | .conditional _ _ _ => "ConditionalExpression"
  | .member _ _ _ => "MemberExpression"
  | .call _ _ => "CallExpression"
  | .unknown => "Unknown"

end Expr

/-- Whether two constants are equal, numbers being compared
numerically. -/
def Literal.same : Literal → Literal → Bool
  | .number a, .number b => a.equal b
  | a, b => decide (a = b)

namespace Expr

mutual

/-- Whether two trees are equal, numbers being compared numerically. -/
def same : Expr → Expr → Bool
  | .literal a, .literal b => a.same b
  | .identifier a, .identifier b => a == b
  | .this, .this => true
  | .array as, .array bs => sameList as bs
  | .unary f a, .unary g b => f == g && same a b
  | .binary f a b, .binary g c d => f == g && same a c && same b d
  | .logical f a b, .logical g c d => f == g && same a c && same b d
  | .conditional a b c, .conditional d e f => same a d && same b e && same c f
  | .member a b c, .member d e f => same a d && same b e && c == f
  | .call f as, .call g bs => same f g && sameList as bs
  | .unknown, .unknown => true
  | _, _ => false

/-- Whether two lists of trees are equal. -/
def sameList : List Expr → List Expr → Bool
  | [], [] => true
  | a :: as, b :: bs => same a b && sameList as bs
  | _, _ => false

end

end Expr

end Formula
