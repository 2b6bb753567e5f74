import Formula.Evaluation.Error
import Formula.Syntax.Error

/-!
# `Formula.Error`: what can go wrong, for users of the library

An error is a wrong use, a text that is not a formula, or a failed
evaluation. A text's errors are diagnostics with the text they refer to.
-/

set_option autoImplicit false

namespace Formula

/-- An error of the library. -/
inductive Error where
  /-- a wrong use, such as a malformed tree -/
  | usage (message : String)
  | compilation (diagnostics : List Diagnostic) (source : String)
  | evaluation (e : EvalError)
deriving Inhabited

namespace Error

/-- The error of a text that is not a formula. -/
def ofParse (e : ParseError) : Error := .compilation [e.diagnostic] e.source

/-- The number of diagnostics that are errors. -/
def errorCount (diagnostics : List Diagnostic) : Nat :=
  diagnostics.countP fun d => d.severity == .error

/-- The text of an error. -/
def message : Error → String
  | usage message => s!"API error: {message}"
  | compilation diagnostics _ =>
    s!"Compilation failed with {errorCount diagnostics} error(s)"
  | evaluation e => e.message

end Error

end Formula
