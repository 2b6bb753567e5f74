/-!
# `Formula.Evaluation.Error`: why an evaluation fails

The causes of a failed evaluation and the text of each.
-/

set_option autoImplicit false

namespace Formula

/-- The cause of a failed evaluation. -/
inductive EvalError where
  /-- an operator that has no meaning -/
  | unknownOperator (operator : String)
  /-- a property read on undefined or null; `base` is its text -/
  | nullishProperty (property base : String)
  /-- an asynchronous function met where nothing can be waited for -/
  | asyncInSync
  /-- an expression met at a depth beyond the limit -/
  | stackOverflow (depth limit : Nat)
  /-- a failure of the host, handed on as it is -/
  | host (message : String)
deriving DecidableEq, Inhabited

/-- The text of an error. -/
def EvalError.message : EvalError → String
  | .unknownOperator operator => s!"unknown operator '{operator}'"
  | .nullishProperty property base =>
    s!"cannot read properties of {base} (reading '{property}')"
  | .asyncInSync => "asynchronous function called from synchronous evaluation"
  | .stackOverflow depth limit =>
    s!"evaluation stack overflow: depth {depth} exceeds maximum of {limit}"
  | .host message => message

end Formula
