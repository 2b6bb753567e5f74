import Formula.Evaluation.Immediate

/-!
# `Formula.Identifiers`: the names a formula depends on

`readIdentifiers` walks over a tree and lists the names it may read from
its context, in the order of the walk and perhaps more than once. No
operator is applied. The name called in a plain call is not listed, and
the test of a conditional is not walked over. A call of the lookup
function names its dependency by a value: its first argument is
evaluated, and the text of the result is listed.

The walk visits the arguments of a call before what is called, and keeps
to the depth limit of evaluation.
-/

set_option autoImplicit false

namespace Formula

/-- The name of the function that looks up a name given as a value. -/
def lookupFunction : String := "getValue"

/-- Whether a tree is the name of the lookup function. -/
def isLookup : Expr → Bool
  | .identifier name => name == lookupFunction
  | _ => false

/-- Whether a tree is a name. -/
def isName : Expr → Bool
  | .identifier _ => true
  | _ => false

section

variable {σ : Type} {h : Host σ}

/-- The body, unless the depth has reached the limit. -/
def whileWithin (limit depth : Nat) (body : Immediate h (List String)) :
    Immediate h (List String) := fun w =>
  if depth < limit then body w else (.error (.stackOverflow depth limit), w)

/-- The name that a call of the lookup function depends on: the text of
its first argument. -/
def lookedUp (ctx : Context) : List Expr → Immediate h (List String)
  | [] => pure []
  | first :: _ => (fun v => [v.text]) <$> evaluate h ctx defaultEvalDepth first

mutual

/-- The names read by a tree met at a depth. -/
def identifiersAt (ctx : Context) (limit depth : Nat) : Expr → Immediate h (List String)
  | .literal _ | .this | .unknown => whileWithin limit depth (pure [])
  | .identifier name => whileWithin limit depth (pure [name])
  | .array elements => whileWithin limit depth (identifiersOfEach ctx limit (depth + 1) elements)
  | .unary _ argument => whileWithin limit depth (identifiersAt ctx limit (depth + 1) argument)
  | .binary _ left right | .logical _ left right => whileWithin limit depth do
    return (← identifiersAt ctx limit (depth + 1) left)
      ++ (← identifiersAt ctx limit (depth + 1) right)
  | .conditional _ consequent alternate => whileWithin limit depth do
    return (← identifiersAt ctx limit (depth + 1) consequent)
      ++ (← identifiersAt ctx limit (depth + 1) alternate)
  | .member object property computed => whileWithin limit depth do
    let names ← identifiersAt ctx limit (depth + 1) object
    if computed then return names ++ (← identifiersAt ctx limit (depth + 1) property)
    else return names
  | .call callee arguments => whileWithin limit depth do
    let names ← identifiersOfEach ctx limit (depth + 1) arguments
    if isLookup callee then return names ++ (← lookedUp ctx arguments)
    else if isName callee then return names
    else return names ++ (← identifiersAt ctx limit (depth + 1) callee)

/-- The names read by the trees of a list, in order. -/
def identifiersOfEach (ctx : Context) (limit depth : Nat) :
    List Expr → Immediate h (List String)
  | [] => pure []
  | e :: es => do
    return (← identifiersAt ctx limit depth e) ++ (← identifiersOfEach ctx limit depth es)

end

end

/-- The names a tree may read from a context, in the order of the
walk. -/
def readIdentifiers {σ : Type} (h : Host σ) (ctx : Context) (e : Expr) :
    Immediate h (List String) :=
  identifiersAt ctx defaultEvalDepth 0 e

/-- The names a tree may read from a context, each where it first
occurs. -/
def uniqueIdentifiers {σ : Type} (h : Host σ) (ctx : Context) (e : Expr) :
    Immediate h (List String) :=
  List.eraseDups <$> readIdentifiers h ctx e

end Formula
