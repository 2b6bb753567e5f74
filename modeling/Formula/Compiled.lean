import Formula.Error
import Formula.Evaluation.Rounds
import Formula.Expr.Tagged
import Formula.Identifiers
import Formula.Syntax.Parse

/-!
# `Formula.Compiled`: formulas ready to be evaluated

A compiled formula is a tree with its text, if it was read from one, the
mode in which it is evaluated, and the depth to which an evaluation may
go. It can be evaluated against any number of contexts.
-/

set_option autoImplicit false

namespace Formula

/-- How a compiled formula is evaluated. -/
inductive Mode where
  /-- at once -/
  | sync
  /-- in rounds, waiting for asynchronous functions -/
  | async
deriving DecidableEq, Inhabited

/-- A formula ready to be evaluated. -/
structure Compiled where
  mode : Mode
  tree : Expr
  source : Option String
  maxDepth : Nat := defaultEvalDepth
deriving Inhabited

namespace Compiled

/-- The formula of a text that nests at most `maxParseDepth` levels. -/
def ofSource (mode : Mode) (source : String) (maxParseDepth : Nat) : Except Error Compiled :=
  match parse source maxParseDepth with
  | .ok tree => .ok ⟨mode, tree, some source, defaultEvalDepth⟩
  | .error e => .error (.ofParse e)

/-- The formula of a tree. -/
def ofTree (mode : Mode) (tree : Expr) : Compiled := ⟨mode, tree, none, defaultEvalDepth⟩

/-- The formula of a tree in its JSON form. -/
def ofJsonText (mode : Mode) (text : String) : Except Error Compiled :=
  match Expr.ofJsonText text with
  | .ok tree => .ok (ofTree mode tree)
  | .error fault => .error (.usage s!"invalid expression tree: {fault.message}")

/-- The formula with another limit of depth. -/
def withMaxDepth (c : Compiled) (maxDepth : Nat) : Compiled := { c with maxDepth }

/-- The formula, to be evaluated in rounds. -/
def intoAsync (c : Compiled) : Compiled := { c with mode := .async }

section

variable {σ : Type} (h : Host σ) (c : Compiled) (ctx : Context)

/-- The value of the formula in a context. -/
def evaluate : Immediate h Value :=
  match c.mode with
  | .sync => Formula.evaluate h ctx c.maxDepth c.tree
  | .async => (evaluateInRounds h ctx c.maxDepth c.tree).run

/-- The names the formula may read from a context. -/
def identifiersIn : Immediate h (List String) := readIdentifiers h ctx c.tree

end

end Compiled

end Formula
