import Formula.Context
import Formula.Evaluation.World
import Formula.Expr
import Formula.Operator
import Formula.Value.Member

/-!
# `Formula.Evaluation.Immediate`: the value of a tree at once

An evaluator walks over a tree without ever waiting. Children are
evaluated one after the other, from left to right; the right operand of
`&&` and `||` and the branches of a conditional are evaluated only when
they are needed. An asynchronous function cannot be called.

An evaluator counts how deeply it is nested. Every node counts against a
limit of depth, except the member expression that is called in a method
call: it shares the depth of the call.

* `Evaluator.eval`: the value of a tree, by an evaluator at work.
* `Evaluator.evalMember`: the receiver and the value of a member
  expression.
* `evaluate`, `evaluateMember`: the same by an evaluator that has just
  been made.
-/

set_option autoImplicit false

namespace Formula

/-- The value of a constant. -/
def Literal.toValue : Literal → Value
  | .null => .null
  | .bool b => .bool b
  | .number n => .number n
  | .string s => .string s

/-- How deeply an evaluation may nest unless another limit is given. -/
def defaultEvalDepth : Nat := 128

/-! ### An outcome at once -/

/-- An evaluation with an outcome at once. -/
def Immediate {σ : Type} (_ : Host σ) (α : Type) : Type :=
  World σ → Except EvalError α × World σ

namespace Immediate

variable {σ : Type} {h : Host σ} {α β : Type}

/-- One evaluation, then another that may use the value of the first. -/
def andThen (p : Immediate h α) (q : α → Immediate h β) : Immediate h β := fun w =>
  match p w with
  | (.ok a, w) => q a w
  | (.error e, w) => (.error e, w)

instance : Monad (Immediate h) where
  pure a := fun w => (.ok a, w)
  bind := andThen

/-- Calls a function that answers at once; an asynchronous function is
refused and leaves no trace. -/
def invoke (f : HostFunction) (receiver : Value) (arguments : List Value) :
    Immediate h Value := fun w =>
  if f.isAsync then (.error .asyncInSync, w)
  else (w.record (.called f receiver arguments)).respond h f receiver arguments

end Immediate

/-! ### An evaluator at work -/

/-- Why an evaluator stops without a value. -/
inductive Halt where
  /-- an error of the evaluation or of the host -/
  | failed (e : EvalError)
  /-- an asynchronous function was called -/
  | refused (f : HostFunction)
deriving DecidableEq, Inhabited

/-- The error that an evaluation ends with. -/
def Halt.error : Halt → EvalError
  | .failed e => e
  | .refused _ => .asyncInSync

/-- An evaluator at work: how deeply it is nested, and the world. -/
structure Evaluator.State (σ : Type) where
  depth : Nat
  world : World σ

/-- An evaluation by an evaluator at work. -/
def Evaluator {σ : Type} (_ : Host σ) (α : Type) : Type :=
  Evaluator.State σ → Except Halt α × Evaluator.State σ

namespace Evaluator

section

variable {σ : Type} {h : Host σ} {α β : Type}

/-- One evaluation, then another that may use the value of the first. -/
def andThen (p : Evaluator h α) (q : α → Evaluator h β) : Evaluator h β := fun s =>
  match p s with
  | (.ok a, s) => q a s
  | (.error halt, s) => (.error halt, s)

instance : Monad (Evaluator h) where
  pure a := fun s => (.ok a, s)
  bind := andThen

/-- Goes on with a value, or fails with an error. -/
def ofExcept (outcome : Except EvalError α) : Evaluator h α := fun s =>
  (outcome.mapError .failed, s)

/-- Takes an identity that was never used. -/
def fresh : Evaluator h Identity := fun s => (.ok s.world.fresh.1, ⟨s.depth, s.world.fresh.2⟩)

/-- Calls a function that answers at once. -/
def invoke (f : HostFunction) (receiver : Value) (arguments : List Value) :
    Evaluator h Value := fun s =>
  if f.isAsync then (.error (.refused f), s)
  else
    let (answer, w) :=
      (s.world.record (.called f receiver arguments)).respond h f receiver arguments
    (answer.mapError .failed, ⟨s.depth, w⟩)

/-- The body one level deeper, unless the depth has reached the limit.
The level is left again whatever the body comes to. -/
def within (limit : Nat) (body : Evaluator h α) : Evaluator h α := fun s =>
  if s.depth < limit then
    let (outcome, s) := body ⟨s.depth + 1, s.world⟩
    (outcome, ⟨s.depth - 1, s.world⟩)
  else
    (.error (.failed (.stackOverflow s.depth limit)), s)

/-- What an evaluator that has just been made comes to. -/
def start (p : Evaluator h α) : Immediate h α := fun w =>
  let (outcome, s) := p ⟨0, w⟩
  (outcome.mapError Halt.error, s.world)

end

/-! ### The walk -/

section

variable {σ : Type} {h : Host σ}

/-- The value of a name: the scope's own, or what the resolver answers,
or undefined. -/
def lookup (ctx : Context) (name : String) : Evaluator h Value :=
  match ctx.getOwn? name with
  | some value => pure value
  | none =>
    match ctx.resolver with
    | some f => invoke f ctx.thisValue [.string name]
    | none => pure .undefined

/-- An operator on two operands; an operator without a meaning is found
out before the operands are evaluated. -/
def operation (operator : String) (left right : Evaluator h Value) : Evaluator h Value := do
  let o ← ofExcept (binaryOperator operator)
  let a ← left
  let b ← right
  return o.apply a b

/-- The receiver and the value of a member. The property of a static
member is a name; any other property is evaluated to a key. -/
def memberOf (object : Evaluator h Value) (property : Expr) (computed : Bool)
    (key : Evaluator h Value) : Evaluator h (Value × Value) := do
  let receiver ← object
  match property.staticName? computed with
  | some name =>
    let value ← ofExcept (receiver.getNamed? name)
    return (receiver, value)
  | none =>
    let key ← key
    let value ← ofExcept (receiver.getKey? key)
    return (receiver, value)

/-- A call: the arguments are evaluated in any case, and what is not a
function answers undefined. -/
def callWith (target : Evaluator h (Value × Value)) (arguments : Evaluator h (List Value)) :
    Evaluator h Value := do
  let (receiver, callee) ← target
  let arguments ← arguments
  match callee with
  | .function f => invoke f receiver arguments
  | _ => return .undefined

mutual

/-- The value of a tree. -/
def eval (ctx : Context) (limit : Nat) : Expr → Evaluator h Value
  | .literal value => within limit (pure value.toValue)
  | .identifier name => within limit (lookup ctx name)
  | .this => within limit (pure ctx.thisValue)
  | .array elements => within limit do
    let values ← evalEach ctx limit elements
    let identity ← fresh
    return .array identity values
  | .unary operator argument => within limit do
    let o ← ofExcept (unaryOperator operator)
    let value ← eval ctx limit argument
    return o.apply value
  | .binary operator left right =>
    within limit (operation operator (eval ctx limit left) (eval ctx limit right))
  | .logical operator left right => within limit
    (if operator = "||" then do
      let value ← eval ctx limit left
      if value.isTruthy then return value else eval ctx limit right
    else if operator = "&&" then do
      let value ← eval ctx limit left
      if value.isTruthy then eval ctx limit right else return value
    else
      operation operator (eval ctx limit left) (eval ctx limit right))
  | .conditional test consequent alternate => within limit do
    let value ← eval ctx limit test
    if value.isTruthy then eval ctx limit consequent else eval ctx limit alternate
  | .member object property computed => within limit
    (Prod.snd <$> memberOf (eval ctx limit object) property computed (eval ctx limit property))
  | .call callee arguments => within limit
    (callWith
      (match callee with
      | .member object property computed =>
        memberOf (eval ctx limit object) property computed (eval ctx limit property)
      | callee => Prod.mk .undefined <$> eval ctx limit callee)
      (evalEach ctx limit arguments))
  | .unknown => within limit (pure .undefined)

/-- The values of trees, in order. -/
def evalEach (ctx : Context) (limit : Nat) : List Expr → Evaluator h (List Value)
  | [] => pure []
  | e :: es => do
    let value ← eval ctx limit e
    let values ← evalEach ctx limit es
    return value :: values

end

/-- The receiver and the value of a member expression; any other tree has
the receiver undefined. -/
def evalMember (ctx : Context) (limit : Nat) : Expr → Evaluator h (Value × Value)
  | .member object property computed =>
    memberOf (eval ctx limit object) property computed (eval ctx limit property)
  | e => Prod.mk .undefined <$> eval ctx limit e

end

end Evaluator

section

variable {σ : Type} (h : Host σ) (ctx : Context) (limit : Nat) (e : Expr)

/-- The value of a tree, at once. -/
def evaluate : Immediate h Value := (Evaluator.eval ctx limit e).start

/-- The receiver and the value of a member expression, at once. -/
def evaluateMember : Immediate h (Value × Value) := (Evaluator.evalMember ctx limit e).start

end

end Formula
