import Formula.Evaluation.World
import Formula.Operator
import Formula.Value.Member

/-!
# `Formula.Host.Registry`: a host of ready-made functions

A registry is a list of functions with a behavior from a small stock:
constants, projections, property reads, tables, counters and failures. It
is a host: a function's number is its place in the registry, and the
state of the host counts the calls of each counter.
-/

set_option autoImplicit false

namespace Formula

/-- What a ready-made function does. -/
inductive Behavior where
  /-- answers a fixed value -/
  | constant (value : Value)
  /-- answers the argument at a position -/
  | argument (position : Nat)
  /-- answers the receiver -/
  | receiver
  /-- answers a new array of the arguments -/
  | arguments
  /-- adds the first two arguments -/
  | add
  /-- reads a property of the receiver -/
  | property
  /-- adds the first argument to a property of the receiver -/
  | prefixed (name : String)
  /-- tells whether the first argument is an array -/
  | isArray
  /-- looks the text of the first argument up in a table -/
  | table (entries : List (String × Value))
  /-- counts its calls -/
  | counter
  /-- fails with a message -/
  | failure (message : String)
deriving Inhabited

/-- A function of a registry. -/
structure Registration where
  /-- the name it is reported under -/
  name : String
  behavior : Behavior
  /-- how many polls it stays pending, if it is asynchronous -/
  delay : Nat
  /-- whether it resolves names: then it sees no receiver, and the name
  alone as its argument -/
  resolvesNames : Bool
deriving Inhabited

/-- The functions of a host by number. -/
abbrev Registry := Array Registration

/-- How often each counter was called. -/
abbrev Counters := List (Nat × Nat)

namespace Counters

/-- The calls of a counter. -/
def count (cs : Counters) (id : Nat) : Nat := (cs.lookup id).getD 0

/-- The counters after one more call. -/
def increment (cs : Counters) (id : Nat) : Counters :=
  (id, cs.count id + 1) :: cs.filter (·.1 != id)

end Counters

/-- The argument at a position; a missing one is undefined. -/
def argumentAt (arguments : List Value) (position : Nat) : Value :=
  arguments[position]?.getD .undefined

namespace Behavior

/-- What a function with this behavior answers. -/
def respond (behavior : Behavior) (id : Nat) (receiver : Value) (arguments : List Value)
    (s : Store Counters) : Except EvalError Value × Store Counters :=
  let first := argumentAt arguments 0
  match behavior with
  | .constant value => (.ok value, s)
  | .argument position => (.ok (argumentAt arguments position), s)
  | .receiver => (.ok receiver, s)
  | .arguments =>
    (.ok (.array s.nextIdentity arguments), { s with nextIdentity := s.nextIdentity + 1 })
  | .add => (.ok (BinaryOperator.add.apply first (argumentAt arguments 1)), s)
  | .property => (receiver.getKey? first, s)
  | .prefixed name =>
    ((receiver.getKey? (.string name)).map fun v => BinaryOperator.add.apply v first, s)
  | .isArray =>
    match first with
    | .array _ _ => (.ok (.bool true), s)
    | _ => (.ok (.bool false), s)
  | .table entries => (.ok ((Properties.get? entries first.text).getD .undefined), s)
  | .counter =>
    let counters := s.state.increment id
    (.ok (.number (.ofNat (counters.count id))), { s with state := counters })
  | .failure message => (.error (.host message), s)

end Behavior

namespace Registry

/-- The registration of a function. -/
def find (r : Registry) (f : HostFunction) : Registration := r.getD f.id default

/-- The registry as a host. -/
def host (r : Registry) : Host Counters where
  delay f := (r.find f).delay
  respond f receiver arguments s :=
    let registration := r.find f
    if registration.resolvesNames then
      registration.behavior.respond f.id .undefined [.string (argumentAt arguments 0).text] s
    else
      registration.behavior.respond f.id receiver arguments s

end Registry

end Formula
