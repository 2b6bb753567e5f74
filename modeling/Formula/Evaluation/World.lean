import Formula.Evaluation.Error
import Formula.Value.Basic

/-!
# `Formula.Evaluation.World`: the host and the log

An evaluation runs in a world: the state of the host, the supply of
identities for new arrays and objects, and the log of what has happened
at the border to the host. A `Host` says what a function answers, how long an
asynchronous one makes its caller wait, and what it does already when it is
called. The host may change its state and take identities, but the log is
written by the evaluation alone.
-/

set_option autoImplicit false

namespace Formula

/-- Something that happens between a formula and its host. -/
inductive Event where
  /-- a function is called -/
  | called (f : HostFunction) (receiver : Value) (arguments : List Value)
  /-- an asynchronous function becomes ready -/
  | completed (f : HostFunction)
deriving Inhabited

/-- What a host may change: its state, and the next free identity. -/
structure Store (σ : Type) where
  nextIdentity : Identity
  state : σ

/-- Where an evaluation runs. -/
structure World (σ : Type) extends Store σ where
  log : Array Event

/-- The functions of a host with a state. -/
structure Host (σ : Type) where
  /-- how many polls an asynchronous function stays pending -/
  delay : HostFunction → Nat
  /-- what an asynchronous function does when it is called, before it answers -/
  start : HostFunction → Value → List Value → Store σ → Store σ := fun _ _ _ store => store
  /-- what a function answers to a receiver and arguments -/
  respond : HostFunction → Value → List Value → Store σ → Except EvalError Value × Store σ

namespace World

variable {σ : Type}

/-- The world with an event written to the log. -/
def record (w : World σ) (e : Event) : World σ := { w with log := w.log.push e }

/-- The world in which an asynchronous function has been called. -/
def start (h : Host σ) (f : HostFunction) (receiver : Value) (arguments : List Value)
    (w : World σ) : World σ :=
  { h.start f receiver arguments w.toStore with log := w.log }

/-- The world in which a function has answered. -/
def respond (h : Host σ) (f : HostFunction) (receiver : Value) (arguments : List Value)
    (w : World σ) : Except EvalError Value × World σ :=
  let (answer, store) := h.respond f receiver arguments w.toStore
  (answer, { store with log := w.log })

/-- A fresh identity. -/
def fresh (w : World σ) : Identity × World σ :=
  (w.nextIdentity, { w with nextIdentity := w.nextIdentity + 1 })

end World

end Formula
