import Formula.Evaluation.Immediate

/-!
# `Formula.Evaluation.Rounds`: the value of a tree in rounds

An evaluation that has called an asynchronous function may be pending. It
is then polled in rounds. The elements of a list, the arguments of a call
and the operands of a binary operator are begun together, the left one
first; in each round every one of them that is pending is polled once, in
the same order, and what is ready goes on at once. A failure ends the
group without polling what is left of it.

The walk keeps no state: every node is met at a depth that its parent
tells it.

* `Round`: the state of an evaluation after a poll.
* `Rounds.eval`: the value of a tree met at a depth.
* `Rounds.evalMember`: the receiver and the value of a member expression.
* `evaluateInRounds`, `evaluateMemberInRounds`: the same for a whole tree.
-/

set_option autoImplicit false

namespace Formula

/-! ### Rounds -/

/-- The state of an evaluation after a poll: ready with an outcome, or
pending until it is polled again. -/
inductive Round (σ α : Type) where
  | ready (world : World σ) (outcome : Except EvalError α)
  | pending (world : World σ) (resume : World σ → Round σ α)

namespace Round

variable {σ α β : Type}

/-- Goes on, in the same poll, as soon as there is a value. -/
def andThen : Round σ α → (α → World σ → Round σ β) → Round σ β
  | .ready w (.ok a), q => q a w
  | .ready w (.error e), _ => .ready w (.error e)
  | .pending w resume, q => .pending w fun w => (resume w).andThen q

/-- Going on twice is going on with both steps in turn. -/
theorem andThen_assoc {γ : Type} (r : Round σ α) (q : α → World σ → Round σ β)
    (k : β → World σ → Round σ γ) :
    (r.andThen q).andThen k = r.andThen fun a w => (q a w).andThen k := by
  induction r with
  | ready w outcome => cases outcome <;> rfl
  | pending w resume ih => exact congrArg (Round.pending w) (funext ih)

/-- Polls the second part of a pair after the first one in each round, as
long as both are pending, and then the one that is left. A failure of
either part ends the pair at once. -/
def both : Round σ α → (World σ → Round σ β) → Round σ (α × β)
  | .ready w (.error e), _ => .ready w (.error e)
  | .ready w (.ok a), q => (q w).andThen fun b w => .ready w (.ok (a, b))
  | .pending w resume, q =>
    match q w with
    | .ready w (.error e) => .ready w (.error e)
    | .ready w (.ok b) =>
      .pending w fun w => (resume w).andThen fun a w => .ready w (.ok (a, b))
    | .pending w resume' => .pending w fun w => both (resume w) resume'

/-- Stays pending for a number of polls, then goes on. -/
def after (ticks : Nat) (next : World σ → Round σ α) (w : World σ) : Round σ α :=
  match ticks with
  | 0 => next w
  | ticks + 1 => .pending w (after ticks next)

/-- Polls until the evaluation is ready. -/
def finish : Round σ α → Except EvalError α × World σ
  | .ready w outcome => (outcome, w)
  | .pending w resume => (resume w).finish

/-- How often the evaluation is found pending before it is ready. -/
def pendingPolls : Round σ α → Nat
  | .ready _ _ => 0
  | .pending w resume => (resume w).pendingPolls + 1

end Round

/-- An evaluation that may be pending for some rounds. -/
def Rounds {σ : Type} (_ : Host σ) (α : Type) : Type := World σ → Round σ α

namespace Rounds

section

variable {σ : Type} {h : Host σ} {α β : Type}

instance : Monad (Rounds h) where
  pure a := fun w => .ready w (.ok a)
  bind p q := fun w => (p w).andThen q

/-- Two evaluations begun together. -/
def both (p : Rounds h α) (q : Rounds h β) : Rounds h (α × β) := fun w => (p w).both q

/-- Fails with an error. -/
def fail (e : EvalError) : Rounds h α := fun w => .ready w (.error e)

/-- Goes on with a value, or fails with an error. -/
def ofExcept (outcome : Except EvalError α) : Rounds h α := fun w => .ready w outcome

/-- Takes an identity that was never used. -/
def fresh : Rounds h Identity := fun w => .ready w.fresh.2 (.ok w.fresh.1)

/-- A function answers, and the evaluation goes on. -/
def answer (h : Host σ) (f : HostFunction) (receiver : Value) (arguments : List Value)
    (w : World σ) : Round σ Value :=
  let (outcome, w) := w.respond h f receiver arguments
  .ready w outcome

/-- Calls a function. An asynchronous one may act at once, and answers
after its delay, when it is recorded as completed. -/
def invoke (f : HostFunction) (receiver : Value) (arguments : List Value) :
    Rounds h Value := fun w =>
  let w := w.record (.called f receiver arguments)
  if f.isAsync then
    Round.after (h.delay f) (fun w => answer h f receiver arguments (w.record (.completed f)))
      (w.start h f receiver arguments)
  else
    answer h f receiver arguments w

/-- The body, unless the depth has reached the limit. -/
def within (limit depth : Nat) (body : Rounds h α) : Rounds h α :=
  if depth < limit then body else fail (.stackOverflow depth limit)

/-- Polls an evaluation until it is ready. -/
def run (p : Rounds h α) : Immediate h α := fun w => (p w).finish

end

/-! ### The walk -/

section

variable {σ : Type} {h : Host σ}

/-- The value of a name: the scope's own, or what the resolver answers,
or undefined. -/
def lookup (ctx : Context) (name : String) : Rounds h Value :=
  match ctx.getOwn? name with
  | some value => pure value
  | none =>
    match ctx.resolver with
    | some f => invoke f ctx.thisValue [.string name]
    | none => pure .undefined

/-- An operator on two operands begun together; an operator without a
meaning is found out before the operands are begun. -/
def operation (operator : String) (left right : Rounds h Value) : Rounds h Value := do
  let o ← ofExcept (binaryOperator operator)
  let (a, b) ← both left right
  return o.apply a b

/-- The receiver and the value of a member. The property of a static
member is a name; any other property is evaluated to a key, after the
receiver. -/
def memberOf (object : Rounds h Value) (property : Expr) (computed : Bool)
    (key : Rounds h Value) : Rounds h (Value × Value) := do
  let receiver ← object
  match property.staticName? computed with
  | some name =>
    let value ← ofExcept (receiver.getNamed? name)
    return (receiver, value)
  | none =>
    let key ← key
    let value ← ofExcept (receiver.getKey? key)
    return (receiver, value)

/-- A call: the arguments are evaluated in any case, after what is
called, and what is not a function answers undefined. -/
def callWith (target : Rounds h (Value × Value)) (arguments : Rounds h (List Value)) :
    Rounds h Value := do
  let (receiver, callee) ← target
  let arguments ← arguments
  match callee with
  | .function f => invoke f receiver arguments
  | _ => return .undefined

mutual

/-- The value of a tree met at a depth. -/
def eval (ctx : Context) (limit depth : Nat) : Expr → Rounds h Value
  | .literal value => within limit depth (pure value.toValue)
  | .identifier name => within limit depth (lookup ctx name)
  | .this => within limit depth (pure ctx.thisValue)
  | .array elements => within limit depth do
    let values ← evalEach ctx limit (depth + 1) elements
    let identity ← fresh
    return .array identity values
  | .unary operator argument => within limit depth do
    let o ← ofExcept (unaryOperator operator)
    let value ← eval ctx limit (depth + 1) argument
    return o.apply value
  | .binary operator left right => within limit depth
    (operation operator (eval ctx limit (depth + 1) left) (eval ctx limit (depth + 1) right))
  | .logical operator left right => within limit depth
    (if operator = "||" then do
      let value ← eval ctx limit (depth + 1) left
      if value.isTruthy then return value else eval ctx limit (depth + 1) right
    else if operator = "&&" then do
      let value ← eval ctx limit (depth + 1) left
      if value.isTruthy then eval ctx limit (depth + 1) right else return value
    else
      operation operator (eval ctx limit (depth + 1) left) (eval ctx limit (depth + 1) right))
  | .conditional test consequent alternate => within limit depth do
    let value ← eval ctx limit (depth + 1) test
    if value.isTruthy then eval ctx limit (depth + 1) consequent
    else eval ctx limit (depth + 1) alternate
  | .member object property computed => within limit depth
    (Prod.snd <$> memberOf (eval ctx limit (depth + 1) object) property computed
      (eval ctx limit (depth + 1) property))
  | .call callee arguments => within limit depth
    (callWith
      (match callee with
      | .member object property computed =>
        memberOf (eval ctx limit (depth + 1) object) property computed
          (eval ctx limit (depth + 1) property)
      | callee => Prod.mk .undefined <$> eval ctx limit (depth + 1) callee)
      (evalEach ctx limit (depth + 1) arguments))
  | .unknown => within limit depth (pure .undefined)

/-- The values of trees begun together, in order. -/
def evalEach (ctx : Context) (limit depth : Nat) : List Expr → Rounds h (List Value)
  | [] => pure []
  | e :: es =>
    (fun p => p.1 :: p.2) <$> both (eval ctx limit depth e) (evalEach ctx limit depth es)

end

/-- The receiver and the value of a member expression; any other tree has
the receiver undefined. -/
def evalMember (ctx : Context) (limit : Nat) : Expr → Rounds h (Value × Value)
  | .member object property computed =>
    memberOf (eval ctx limit 0 object) property computed (eval ctx limit 0 property)
  | e => Prod.mk .undefined <$> eval ctx limit 0 e

end

end Rounds

section

variable {σ : Type} (h : Host σ) (ctx : Context) (limit : Nat) (e : Expr)

/-- The value of a tree, in rounds. -/
def evaluateInRounds : Rounds h Value := Rounds.eval ctx limit 0 e

/-- The receiver and the value of a member expression, in rounds. -/
def evaluateMemberInRounds : Rounds h (Value × Value) := Rounds.evalMember ctx limit e

end

end Formula
