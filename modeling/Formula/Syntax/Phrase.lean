import Formula.Syntax.Precedence

/-!
# `Formula.Syntax.Phrase`: expressions as they are written

What the grammar finds in a text, before operators are put into trees: a
phrase still has its parentheses, its operators stand in a row, and its
numbers are the characters they are written with.

`Phrase.tree` makes a tree of a phrase.
-/

set_option autoImplicit false

namespace Formula

mutual

/-- An expression. -/
inductive Phrase where
  | plain (chain : Chain)
  | conditional (test : Chain) (consequent alternate : Phrase)

/-- Operands with binary operators between them. -/
inductive Chain where
  | mk (first : Operand) (rest : List (BinaryOperator × Operand))

/-- A primary expression with signs before it, outermost first, and
suffixes after it, nearest first. -/
inductive Operand where
  | mk (signs : List UnaryOperator) (primary : Primary) (suffixes : List Suffix)

/-- The smallest expressions. -/
inductive Primary where
  | number (text : List Char)
  | string (s : String)
  | boolean (b : Bool)
  | null
  | this
  | identifier (name : String)
  | array (elements : List Phrase)
  | grouped (inner : Phrase)

/-- What can follow a primary expression. -/
inductive Suffix where
  | call (arguments : List Phrase)
  | index (property : Phrase)
  | field (name : String)

end

/-- A tree under prefix operators, outermost first. -/
def signed (signs : List UnaryOperator) (e : Expr) : Expr :=
  signs.foldr (fun o e => .unary o.symbol e) e

mutual

/-- The tree of an expression. -/
def Phrase.tree : Phrase → Expr
  | .plain chain => chain.tree
  | .conditional test consequent alternate =>
    .conditional test.tree consequent.tree alternate.tree

/-- The trees of expressions, in order. -/
def Phrase.trees : List Phrase → List Expr
  | [] => []
  | p :: ps => p.tree :: Phrase.trees ps

/-- The tree of operands with operators between them. -/
def Chain.tree : Chain → Expr
  | .mk first rest => assemble first.tree (Chain.tail rest)

/-- The operators after the first operand, each with the tree of its
right operand. -/
def Chain.tail : List (BinaryOperator × Operand) → Tail
  | [] => []
  | (o, right) :: rest => (o, right.tree) :: Chain.tail rest

/-- The tree of an operand. -/
def Operand.tree : Operand → Expr
  | .mk signs primary suffixes => signed signs (Suffix.applyAll suffixes primary.tree)

/-- The tree of a primary expression. -/
def Primary.tree : Primary → Expr
  | .number text => .literal (.number (.ofNumeral text))
  | .string s => .literal (.string s)
  | .boolean b => .literal (.bool b)
  | .null => .literal .null
  | .this => .this
  | .identifier name => .identifier name
  | .array elements => .array (Phrase.trees elements)
  | .grouped inner => inner.tree

/-- A tree with a suffix. -/
def Suffix.apply : Suffix → Expr → Expr
  | .call arguments, object => .call object (Phrase.trees arguments)
  | .index property, object => .index object property.tree
  | .field name, object => .field object name

/-- A tree with suffixes, nearest first. -/
def Suffix.applyAll : List Suffix → Expr → Expr
  | [], object => object
  | s :: rest, object => Suffix.applyAll rest (s.apply object)

end

end Formula
