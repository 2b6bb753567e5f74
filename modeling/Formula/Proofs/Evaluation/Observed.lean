import Formula.Identifiers

/-!
# `Formula.Proofs.Evaluation.Observed`: what an evaluation does

The log of a world has the calls of host functions. It does not tell which
names were looked up: a name that the scope has is found without the host.
The evaluator is therefore run once more with a record of its deeds: the
names that it looks up, each with the place in the tree where it stands,
and the functions that it calls.

* `Place`: where a name stands. The two places whose names need not be
  told beforehand are the callee of a plain call and the test of a
  conditional.
* `Observed.eval`: the evaluator with the record of its deeds.
* `eval_observed`: the record changes nothing of the evaluation, and the
  calls among the deeds are those that the log has.
-/

set_option autoImplicit false

namespace Formula

/-! ### Places and deeds -/

/-- Where in a tree a name stands. -/
inductive Place where
  /-- where its value is an operand, or the value of the tree -/
  | operand
  /-- it is the callee of a plain call -/
  | callee
  /-- inside the test of a conditional -/
  | test
  /-- inside a property that is neither computed nor a name -/
  | property
deriving DecidableEq, Inhabited

namespace Place

/-- A place inside of another one. A name within an exceptional place
stands there, whatever else it is within. -/
def enter (outer inner : Place) : Place :=
  match outer with
  | .operand => inner
  | _ => outer

/-- The place of the callee of a call. -/
def ofCallee (place : Place) (callee : Expr) : Place :=
  if isName callee then place.enter .callee else place

/-- The place of the property of a member, if it is evaluated. -/
def ofProperty (place : Place) (computed : Bool) : Place :=
  if computed then place else place.enter .property

end Place

/-- What an evaluation does that its context or the host can notice. -/
inductive Deed where
  /-- a name is looked up that stands at a place -/
  | lookedUp (name : String) (place : Place)
  /-- a function is called -/
  | called (f : HostFunction) (receiver : Value) (arguments : List Value)

/-- The events of a deed. A name that the scope does not have is asked of
the resolver. -/
def Deed.events (ctx : Context) : Deed → List Event
  | .lookedUp name _ =>
    match ctx.getOwn? name, ctx.resolver with
    | none, some f => if f.isAsync then [] else [.called f ctx.thisValue [.string name]]
    | _, _ => []
  | .called f receiver arguments => [.called f receiver arguments]

/-! ### The evaluator observed -/

/-- An evaluation by an evaluator at work, with the record of its deeds. -/
def Observed {σ : Type} (_ : Host σ) (α : Type) : Type :=
  Evaluator.State σ → List Deed × Except Halt α × Evaluator.State σ

namespace Observed

section

variable {σ : Type} {h : Host σ} {α β : Type}

/-- An evaluation of which the deeds are known. -/
def doing (deeds : List Deed) (p : Evaluator h α) : Observed h α := fun s => (deeds, p s)

/-- The evaluation without its record. -/
def erase (o : Observed h α) : Evaluator h α := fun s => (o s).2

/-- One evaluation, then another that may use the value of the first. -/
def andThen (p : Observed h α) (q : α → Observed h β) : Observed h β := fun s =>
  match p s with
  | (deeds, .ok a, s) => (deeds ++ (q a s).1, (q a s).2)
  | (deeds, .error halt, s) => (deeds, .error halt, s)

instance : Monad (Observed h) where
  pure a := doing [] (pure a)
  bind := andThen

/-- The body one level deeper, unless the depth has reached the limit. -/
def within (limit : Nat) (body : Observed h α) : Observed h α := fun s =>
  (if s.depth < limit then (body ⟨s.depth + 1, s.world⟩).1 else [], body.erase.within limit s)

/-- The value of a name that stands at a place. -/
def lookup (ctx : Context) (name : String) (place : Place) : Observed h Value :=
  doing [.lookedUp name place] (Evaluator.lookup ctx name)

/-- Calls a function; a refused one is not called. -/
def invoke (f : HostFunction) (receiver : Value) (arguments : List Value) : Observed h Value :=
  doing (if f.isAsync then [] else [.called f receiver arguments])
    (Evaluator.invoke f receiver arguments)

/-- An operator on two operands. -/
def operation (operator : String) (left right : Observed h Value) : Observed h Value := do
  let o ← doing [] (.ofExcept (binaryOperator operator))
  let a ← left
  let b ← right
  return o.apply a b

/-- The receiver and the value of a member. -/
def memberOf (object : Observed h Value) (property : Expr) (computed : Bool)
    (key : Observed h Value) : Observed h (Value × Value) := do
  let receiver ← object
  match property.staticName? computed with
  | some name =>
    let value ← doing [] (.ofExcept (receiver.getNamed? name))
    return (receiver, value)
  | none =>
    let key ← key
    let value ← doing [] (.ofExcept (receiver.getKey? key))
    return (receiver, value)

/-- A call. -/
def callWith (target : Observed h (Value × Value)) (arguments : Observed h (List Value)) :
    Observed h Value := do
  let (receiver, callee) ← target
  let arguments ← arguments
  match callee with
  | .function f => invoke f receiver arguments
  | _ => return .undefined

end

section

variable {σ : Type} {h : Host σ}

mutual

/-- The value of a tree that stands at a place. -/
def eval (ctx : Context) (limit : Nat) (place : Place) : Expr → Observed h Value
  | .literal value => within limit (pure value.toValue)
  | .identifier name => within limit (lookup ctx name place)
  | .this => within limit (pure ctx.thisValue)
  | .array elements => within limit do
    let values ← evalEach ctx limit place elements
    let identity ← doing [] .fresh
    return .array identity values
  | .unary operator argument => within limit do
    let o ← doing [] (.ofExcept (unaryOperator operator))
    let value ← eval ctx limit place argument
    return o.apply value
  | .binary operator left right =>
    within limit (operation operator (eval ctx limit place left) (eval ctx limit place right))
  | .logical operator left right => within limit
    (if operator = "||" then do
      let value ← eval ctx limit place left
      if value.isTruthy then return value else eval ctx limit place right
    else if operator = "&&" then do
      let value ← eval ctx limit place left
      if value.isTruthy then eval ctx limit place right else return value
    else
      operation operator (eval ctx limit place left) (eval ctx limit place right))
  | .conditional test consequent alternate => within limit do
    let value ← eval ctx limit (place.enter .test) test
    if value.isTruthy then eval ctx limit place consequent else eval ctx limit place alternate
  | .member object property computed => within limit
    (Prod.snd <$> memberOf (eval ctx limit place object) property computed
      (eval ctx limit (place.ofProperty computed) property))
  | .call callee arguments => within limit
    (callWith
      (match callee with
      | .member object property computed =>
        memberOf (eval ctx limit place object) property computed
          (eval ctx limit (place.ofProperty computed) property)
      | callee => Prod.mk .undefined <$> eval ctx limit (place.ofCallee callee) callee)
      (evalEach ctx limit place arguments))
  | .unknown => within limit (pure .undefined)

/-- The values of trees, in order. -/
def evalEach (ctx : Context) (limit : Nat) (place : Place) : List Expr → Observed h (List Value)
  | [] => pure []
  | e :: es => do
    let value ← eval ctx limit place e
    let values ← evalEach ctx limit place es
    return value :: values

end

end

end Observed

section

variable {σ : Type} (h : Host σ) (ctx : Context) (limit : Nat) (e : Expr) (w : World σ)

/-- What the evaluation of a tree does that begins in a world. -/
def deeds : List Deed := (Observed.eval (h := h) ctx limit .operand e ⟨0, w⟩).1

end

/-! ### The record changes nothing -/

variable {σ : Type} {h : Host σ} {α β : Type}

/-- Without its record the one evaluation is the other, and the log has the
events of its deeds. -/
def Observed.Records (ctx : Context) (o : Observed h α) (p : Evaluator h α) : Prop :=
  ∀ s, o.erase s = p s ∧
    (p s).2.world.log.toList = s.world.log.toList ++ (o s).1.flatMap (Deed.events ctx)

namespace Observed.Records

variable {ctx : Context}

/-- An evaluator that adds the events of some deeds records those. -/
theorem doing {deeds : List Deed} {p : Evaluator h α}
    (hlog : ∀ s, (p s).2.world.log.toList
      = s.world.log.toList ++ deeds.flatMap (Deed.events ctx)) :
    Records ctx (.doing deeds p) p :=
  fun s => ⟨rfl, hlog s⟩

/-- An evaluation that leaves the log as it was. -/
theorem silent {p : Evaluator h α} (hlog : ∀ s, (p s).2.world.log = s.world.log) :
    Records ctx (.doing [] p) p :=
  doing fun s => by rw [hlog, List.flatMap_nil, List.append_nil]

/-- A value by itself records nothing. -/
theorem pure (a : α) : Records (h := h) ctx (Pure.pure a) (Pure.pure a) := silent fun _ => rfl

/-- Nor does a given outcome. -/
theorem ofExcept (outcome : Except EvalError α) :
    Records (h := h) ctx (.doing [] (.ofExcept outcome)) (.ofExcept outcome) :=
  silent fun _ => rfl

/-- Two evaluators in a row record the deeds of both. -/
theorem bind {o : Observed h α} {p : Evaluator h α} {o' : α → Observed h β}
    {p' : α → Evaluator h β} (hp : Records ctx o p) (hp' : ∀ a, Records ctx (o' a) (p' a)) :
    Records ctx (o >>= o') (p >>= p') := by
  intro s
  obtain ⟨hsame, hlog⟩ := hp s
  show (Observed.andThen o o' s).2 = Evaluator.andThen p p' s ∧
    (Evaluator.andThen p p' s).2.world.log.toList
      = _ ++ (Observed.andThen o o' s).1.flatMap _
  rcases hrun : o s with ⟨ds, outcome, s'⟩
  have hp : p s = (outcome, s') := by rw [← hsame, Observed.erase, hrun]
  simp only [Observed.andThen, Evaluator.andThen, hrun, hp] at hlog ⊢
  -- If the first one fails, the second one does nothing on either side.
  cases outcome with
  | error halt => exact ⟨rfl, hlog⟩
  | ok a =>
      obtain ⟨hsame', hlog'⟩ := hp' a s'
      refine ⟨hsame', ?_⟩
      rw [hlog', hlog, List.flatMap_append, List.append_assoc]

/-- What is made of a value records nothing. -/
theorem map (f : α → β) {o : Observed h α} {p : Evaluator h α} (hp : Records ctx o p) :
    Records ctx (f <$> o) (f <$> p) :=
  hp.bind fun a => pure (f a)

/-- A level records what is inside of it, or nothing. -/
theorem within {limit : Nat} {o : Observed h α} {p : Evaluator h α} (hp : Records ctx o p) :
    Records ctx (.within limit o) (.within limit p) := by
  intro s
  obtain ⟨hsame, hlog⟩ := hp ⟨s.depth + 1, s.world⟩
  unfold Observed.erase Observed.within Evaluator.within
  split
  · rw [hsame]
    exact ⟨rfl, hlog⟩
  · exact ⟨rfl, (List.append_nil _).symm⟩

/-- A call that is not refused is written to the log. -/
theorem log_invoke (f : HostFunction) (receiver : Value) (arguments : List Value)
    (s : Evaluator.State σ) :
    (Evaluator.invoke (h := h) f receiver arguments s).2.world.log.toList
      = s.world.log.toList ++ if f.isAsync then [] else [.called f receiver arguments] := by
  unfold Evaluator.invoke
  split
  · exact (List.append_nil _).symm
  · exact Array.toList_push

/-- A call is recorded. -/
theorem invoke (f : HostFunction) (receiver : Value) (arguments : List Value) :
    Records (h := h) ctx (.invoke f receiver arguments) (.invoke f receiver arguments) :=
  doing fun s => by
    rw [log_invoke]
    cases f.isAsync <;> rfl

/-- A lookup is recorded by the call of the resolver, if there is one to be
called. -/
theorem lookup (name : String) (place : Place) :
    Records (h := h) ctx (.lookup ctx name place) (.lookup ctx name) := by
  refine doing fun s => ?_
  rw [List.flatMap_singleton]
  unfold Evaluator.lookup
  cases hown : ctx.getOwn? name with
  | some value => simp [Deed.events, hown, Pure.pure]
  | none =>
      cases hresolver : ctx.resolver with
      | none => simp [Deed.events, hown, hresolver, Pure.pure]
      | some f =>
          simp only [Deed.events, hown, hresolver]
          exact log_invoke f ctx.thisValue [.string name] s

/-- An operator records what its operands do. -/
theorem operation (operator : String) {left right : Observed h Value}
    {left' right' : Evaluator h Value} (hleft : Records ctx left left')
    (hright : Records ctx right right') :
    Records ctx (.operation operator left right) (.operation operator left' right') :=
  (ofExcept _).bind fun _ => hleft.bind fun _ => hright.bind fun _ => pure _

/-- A member records what its object and its property do. -/
theorem memberOf {object key : Observed h Value} {object' key' : Evaluator h Value}
    (property : Expr) (computed : Bool) (hobject : Records ctx object object')
    (hkey : Records ctx key key') :
    Records ctx (.memberOf object property computed key)
      (.memberOf object' property computed key') := by
  refine hobject.bind fun receiver => ?_
  cases property.staticName? computed with
  | some name => exact (ofExcept _).bind fun _ => pure _
  | none => exact hkey.bind fun _ => (ofExcept _).bind fun _ => pure _

/-- The truth of the left operand decides what is evaluated next in both. -/
theorem logical (operator : String) {left right : Observed h Value}
    {left' right' : Evaluator h Value} (hleft : Records ctx left left')
    (hright : Records ctx right right') :
    Records ctx
      (if operator = "||" then do
        let value ← left
        if value.isTruthy then return value else right
      else if operator = "&&" then do
        let value ← left
        if value.isTruthy then right else return value
      else .operation operator left right)
      (if operator = "||" then do
        let value ← left'
        if value.isTruthy then return value else right'
      else if operator = "&&" then do
        let value ← left'
        if value.isTruthy then right' else return value
      else .operation operator left' right') := by
  split
  · refine hleft.bind fun value => ?_
    split
    · exact pure value
    · exact hright
  · split
    · refine hleft.bind fun value => ?_
      split
      · exact hright
      · exact pure value
    · exact operation operator hleft hright

/-- A conditional records its test and the branch that is taken. -/
theorem conditional {test consequent alternate : Observed h Value}
    {test' consequent' alternate' : Evaluator h Value} (htest : Records ctx test test')
    (hconsequent : Records ctx consequent consequent')
    (halternate : Records ctx alternate alternate') :
    Records ctx
      (do
        let value ← test
        if value.isTruthy then consequent else alternate)
      (do
        let value ← test'
        if value.isTruthy then consequent' else alternate') := by
  refine htest.bind fun value => ?_
  split
  · exact hconsequent
  · exact halternate

/-- A call records its target, its arguments and itself. -/
theorem callWith {target : Observed h (Value × Value)} {target' : Evaluator h (Value × Value)}
    {arguments : Observed h (List Value)} {arguments' : Evaluator h (List Value)}
    (htarget : Records ctx target target') (harguments : Records ctx arguments arguments') :
    Records ctx (.callWith target arguments) (.callWith target' arguments') := by
  refine htarget.bind fun ⟨receiver, callee⟩ => harguments.bind fun values => ?_
  cases callee with
  | function f => exact invoke f receiver values
  | _ => exact pure _

end Observed.Records

section

variable (ctx : Context) (limit : Nat)

open Observed (Records)

mutual

/-- The observed evaluator is the evaluator, and the log tells which
functions it has called. -/
theorem eval_observed (place : Place) : (e : Expr) →
    Records (h := h) ctx (.eval ctx limit place e) (.eval ctx limit e)
  -- The log is written by calls alone, so that the claim is carried by `Records.invoke`, and
  -- every other node passes it on.
  | .literal _ => (Records.pure _).within
  | .identifier name => (Records.lookup name place).within
  | .this => (Records.pure _).within
  | .array elements =>
      ((evalEach_observed place elements).bind fun _ =>
        (Records.silent fun _ => rfl).bind fun _ => .pure _).within
  | .unary _ argument =>
      ((Records.ofExcept _).bind fun _ => (eval_observed place argument).bind fun _ =>
        .pure _).within
  | .binary operator left right =>
      (Records.operation operator (eval_observed place left) (eval_observed place right)).within
  | .logical operator left right =>
      (Records.logical operator (eval_observed place left) (eval_observed place right)).within
  | .conditional test consequent alternate =>
      (Records.conditional (eval_observed _ test) (eval_observed place consequent)
        (eval_observed place alternate)).within
  | .member object property computed =>
      ((Records.memberOf property computed (eval_observed place object)
        (eval_observed _ property)).map Prod.snd).within
  | .call callee arguments => by
      have hcallee := eval_observed (place.ofCallee callee) callee
      have harguments := evalEach_observed place arguments
      cases callee with
      | member object property computed =>
          rw [Observed.eval, Evaluator.eval]
          exact .within (.callWith (.memberOf property computed (eval_observed place object)
            (eval_observed _ property)) harguments)
      | _ =>
          rw [Observed.eval, Evaluator.eval]
          · exact .within (.callWith (.map _ hcallee) harguments)
          all_goals exact nofun
  | .unknown => (Records.pure _).within

/-- The trees of a list are recorded one after the other. -/
theorem evalEach_observed (place : Place) : (es : List Expr) →
    Records (h := h) ctx (.evalEach ctx limit place es) (.evalEach ctx limit es)
  | [] => .pure []
  | e :: es => (eval_observed place e).bind fun _ => (evalEach_observed place es).bind fun _ =>
      .pure _

end

end

end Formula
