import Formula.Expr
import Formula.Operator

/-!
# `Formula.Syntax.Precedence`: operators into trees

A run of operands with operators between them becomes a tree level by
level, from the tightest operators to the loosest: at each level the
operators of that level join their neighbours from left to right. After
the loosest level a single tree is left.
-/

set_option autoImplicit false

namespace Formula

/-- What follows the first operand: operators, each with its right
operand. -/
abbrev Tail := List (BinaryOperator × Expr)

/-- Joins the neighbours of the operators of one level, from left to
right. -/
def mergeLevel (level : Nat) : Expr → Tail → Expr × Tail
  | left, [] => (left, [])
  | left, (o, right) :: rest =>
    if o.level = level then mergeLevel level (.infixed o.symbol left right) rest
    else
      let (next, rest) := mergeLevel level right rest
      (left, (o, next) :: rest)

/-- The levels of the binary operators, tightest first. -/
def levels : List Nat := [9, 8, 7, 6, 5, 4, 3, 2, 1, 0]

/-- The tree of a run of operands. -/
def assemble (first : Expr) (rest : Tail) : Expr :=
  (levels.foldl (fun run level => mergeLevel level run.1 run.2) (first, rest)).1

end Formula
