import Formula.Evaluation.Rounds

/-!
# `Formula.Proofs.Evaluation.Walk`: one walk, many evaluations

The evaluator at work and the evaluation in rounds go over a tree in the
same order and differ only in how they put evaluations together. A `Walk`
names these ways, and `Walk.eval` goes over a tree by them. So a fact that
each way keeps holds of the walk over any tree, and the induction over
trees is made once.

* `Expr.nodes`: the nodes that an evaluation can come to.
* `Walk.Relates`: a relation between two kinds of evaluations that each way
  of putting them together keeps.
* `Walk.Relates.eval`: such a relation holds between the two walks over a
  tree, and so for member expressions.
* `Evaluator.eval_eq_walk`, `Rounds.eval_eq_walk`: the two evaluations are
  walks.
-/

set_option autoImplicit false

namespace Formula

/-! ### The nodes of a tree -/

mutual

/-- The nodes of a tree that an evaluation can come to: all but the names of
static members. -/
def Expr.nodes : Expr → List Expr
  | .literal value => [.literal value]
  | .identifier name => [.identifier name]
  | .this => [.this]
  | .array elements => .array elements :: Expr.nodesOfEach elements
  | .unary operator argument => .unary operator argument :: argument.nodes
  | .binary operator left right => .binary operator left right :: (left.nodes ++ right.nodes)
  | .logical operator left right => .logical operator left right :: (left.nodes ++ right.nodes)
  | .conditional test consequent alternate =>
    .conditional test consequent alternate :: (test.nodes ++ consequent.nodes ++ alternate.nodes)
  | .member object property computed =>
    .member object property computed ::
      (object.nodes ++ if (property.staticName? computed).isSome then [] else property.nodes)
  | .call callee arguments =>
    .call callee arguments :: (callee.nodes ++ Expr.nodesOfEach arguments)
  | .unknown => [.unknown]

/-- The nodes of trees. -/
def Expr.nodesOfEach : List Expr → List Expr
  | [] => []
  | e :: es => e.nodes ++ Expr.nodesOfEach es

end

/-- The errors that the operator of a node can fail with, if it is without a
meaning, are among some errors. -/
def Expr.OperatorFails (Own : EvalError → Prop) : Expr → Prop
  | .unary operator _ => ∀ e, unaryOperator operator = .error e → Own e
  | .binary operator _ _ => ∀ e, binaryOperator operator = .error e → Own e
  | .logical operator _ _ => operator ≠ "||" → operator ≠ "&&" →
      ∀ e, binaryOperator operator = .error e → Own e
  | _ => True

/-- The only error of an operator is that it is without a meaning. -/
theorem Expr.operatorFails {Own : EvalError → Prop}
    (hown : ∀ operator, Own (.unknownOperator operator)) (e : Expr) : e.OperatorFails Own := by
  have hunary : ∀ operator error, unaryOperator operator = .error error → Own error := by
    intro operator error h
    unfold unaryOperator at h
    split at h <;> cases h
    exact hown operator
  have hbinary : ∀ operator error, binaryOperator operator = .error error → Own error := by
    intro operator error h
    unfold binaryOperator at h
    split at h <;> cases h
    exact hown operator
  -- The lazy nodes with a strict operator in them evaluate it as the strict nodes do.
  cases e with
  | unary operator argument => exact hunary operator
  | binary operator left right => exact hbinary operator
  | logical operator left right => exact fun _ _ => hbinary operator
  | _ => trivial

/-- The only error of a property read is that the receiver is undefined or
null. -/
theorem Value.eq_nullishProperty_of_getNamed? {receiver : Value} {name : String} {e : EvalError}
    (h : receiver.getNamed? name = .error e) : ∃ base, e = .nullishProperty name base := by
  unfold Value.getNamed? at h
  -- The two nullish values come first in the definition, and nothing else fails.
  split at h
  · exact ⟨_, (Except.error.inj h).symm⟩
  · exact ⟨_, (Except.error.inj h).symm⟩
  · cases h
  · split at h
    · cases h
    · split at h <;> cases h
  · split at h
    · cases h
    · split at h <;> cases h
  all_goals cases h

/-- So does looking up by a key, which comes to a name. -/
theorem Value.eq_nullishProperty_of_getKey? {receiver key : Value} {e : EvalError}
    (h : receiver.getKey? key = .error e) :
    ∃ property base, e = .nullishProperty property base := by
  unfold Value.getKey? at h
  split at h
  · cases h
  · exact ⟨_, Value.eq_nullishProperty_of_getNamed? h⟩

/-! ### Walks -/

/-- The ways in which a walk over a tree puts evaluations together, besides
one after the other. -/
structure Walk (M : Type → Type) [Monad M] where
  /-- a value or an error that is there already -/
  ofExcept : {α : Type} → Except EvalError α → M α
  /-- an identity that was never used -/
  fresh : M Identity
  /-- the call of a function -/
  invoke : HostFunction → Value → List Value → M Value
  /-- two parts that do not depend on each other -/
  both : {α β : Type} → M α → M β → M (α × β)
  /-- a level of nesting, met at a depth -/
  within : {α : Type} → (limit depth : Nat) → M α → M α

namespace Walk

section

variable {M : Type → Type} [Monad M] (W : Walk M)

/-- The value of a name. -/
def lookup (ctx : Context) (name : String) : M Value :=
  match ctx.getOwn? name with
  | some value => pure value
  | none =>
    match ctx.resolver with
    | some f => W.invoke f ctx.thisValue [.string name]
    | none => pure .undefined

/-- An operator on two operands. -/
def operation (operator : String) (left right : M Value) : M Value := do
  let o ← W.ofExcept (binaryOperator operator)
  let (a, b) ← W.both left right
  return o.apply a b

/-- The receiver and the value of a member. -/
def memberOf (object : M Value) (property : Expr) (computed : Bool) (key : M Value) :
    M (Value × Value) := do
  let receiver ← object
  match property.staticName? computed with
  | some name =>
    let value ← W.ofExcept (receiver.getNamed? name)
    return (receiver, value)
  | none =>
    let key ← key
    let value ← W.ofExcept (receiver.getKey? key)
    return (receiver, value)

/-- A call. -/
def callWith (target : M (Value × Value)) (arguments : M (List Value)) : M Value := do
  let (receiver, callee) ← target
  let arguments ← arguments
  match callee with
  | .function f => W.invoke f receiver arguments
  | _ => return .undefined

mutual

/-- The value of a tree met at a depth. -/
def eval (ctx : Context) (limit depth : Nat) : Expr → M Value
  | .literal value => W.within limit depth (pure value.toValue)
  | .identifier name => W.within limit depth (W.lookup ctx name)
  | .this => W.within limit depth (pure ctx.thisValue)
  | .array elements => W.within limit depth do
    let values ← evalEach ctx limit (depth + 1) elements
    let identity ← W.fresh
    return .array identity values
  | .unary operator argument => W.within limit depth do
    let o ← W.ofExcept (unaryOperator operator)
    let value ← eval ctx limit (depth + 1) argument
    return o.apply value
  | .binary operator left right => W.within limit depth
    (W.operation operator (eval ctx limit (depth + 1) left) (eval ctx limit (depth + 1) right))
  | .logical operator left right => W.within limit depth
    (if operator = "||" then do
      let value ← eval ctx limit (depth + 1) left
      if value.isTruthy then return value else eval ctx limit (depth + 1) right
    else if operator = "&&" then do
      let value ← eval ctx limit (depth + 1) left
      if value.isTruthy then eval ctx limit (depth + 1) right else return value
    else
      W.operation operator (eval ctx limit (depth + 1) left) (eval ctx limit (depth + 1) right))
  | .conditional test consequent alternate => W.within limit depth do
    let value ← eval ctx limit (depth + 1) test
    if value.isTruthy then eval ctx limit (depth + 1) consequent
    else eval ctx limit (depth + 1) alternate
  | .member object property computed => W.within limit depth
    (do
      let p ← W.memberOf (eval ctx limit (depth + 1) object) property computed
        (eval ctx limit (depth + 1) property)
      return p.2)
  | .call callee arguments => W.within limit depth
    (W.callWith
      (match callee with
      | .member object property computed =>
        W.memberOf (eval ctx limit (depth + 1) object) property computed
          (eval ctx limit (depth + 1) property)
      | callee => do
        let value ← eval ctx limit (depth + 1) callee
        return (.undefined, value))
      (evalEach ctx limit (depth + 1) arguments))
  | .unknown => W.within limit depth (pure .undefined)

/-- The values of trees, in order. -/
def evalEach (ctx : Context) (limit depth : Nat) : List Expr → M (List Value)
  | [] => pure []
  | e :: es => do
    let p ← W.both (eval ctx limit depth e) (evalEach ctx limit depth es)
    return p.1 :: p.2

end

/-- What is called: a member with its receiver, and any other tree with the
receiver undefined. -/
def target (ctx : Context) (limit depth : Nat) : Expr → M (Value × Value)
  | .member object property computed =>
    W.memberOf (W.eval ctx limit depth object) property computed (W.eval ctx limit depth property)
  | e => do
    let value ← W.eval ctx limit depth e
    return (.undefined, value)

/-- The receiver and the value of a member expression; any other tree has
the receiver undefined. -/
def evalMember (ctx : Context) (limit : Nat) : Expr → M (Value × Value)
  | .member object property computed =>
    W.memberOf (W.eval ctx limit 0 object) property computed (W.eval ctx limit 0 property)
  | e => do
    let value ← W.eval ctx limit 0 e
    return (.undefined, value)

end

/-- A call of anything but a member has the receiver undefined. -/
theorem eval_call {M : Type → Type} [Monad M] (W : Walk M) (ctx : Context) (limit depth : Nat)
    {callee : Expr}
    (hcallee : ∀ object property computed, callee ≠ .member object property computed)
    (arguments : List Expr) :
    W.eval ctx limit depth (.call callee arguments) = W.within limit depth
      (W.callWith
        (do
          let value ← W.eval ctx limit (depth + 1) callee
          return (.undefined, value))
        (W.evalEach ctx limit (depth + 1) arguments)) := by
  rw [Walk.eval]
  exact hcallee

section

variable {M : Type → Type} [Monad M] (W : Walk M) (ctx : Context) (limit : Nat)

/-- A member expression is evaluated as the target of a call. -/
theorem evalMember_eq_target (e : Expr) : W.evalMember ctx limit e = W.target ctx limit 0 e := by
  cases e <;> rfl

/-- A call, whatever is called. -/
theorem eval_call_target (depth : Nat) (callee : Expr) (arguments : List Expr) :
    W.eval ctx limit depth (.call callee arguments) = W.within limit depth
      (W.callWith (W.target ctx limit (depth + 1) callee)
        (W.evalEach ctx limit (depth + 1) arguments)) := by
  cases callee <;> rfl

/-- Every node is a level. -/
theorem eval_eq_within (depth : Nat) (e : Expr) :
    ∃ body, W.eval ctx limit depth e = W.within limit depth body := by
  cases e with
  | call callee arguments => exact ⟨_, W.eval_call_target ctx limit depth callee arguments⟩
  | _ => exact ⟨_, rfl⟩

/-- The tree of a property matters only through its name, if it is a static one. -/
theorem memberOf_congr {object key : M Value} {property property' : Expr} {computed : Bool}
    (hname : property.staticName? computed = property'.staticName? computed) :
    W.memberOf object property computed key = W.memberOf object property' computed key := by
  unfold Walk.memberOf
  rw [hname]

end

/-! ### Relations that walks keep -/

/-- A relation between evaluations of two kinds, at each depth, that is kept
by every way of putting evaluations together. Of the errors that a walk
finds by itself, only some need to be related. -/
structure Relates {M N : Type → Type} [Monad M] [Monad N] (W : Walk M) (V : Walk N)
    (limit limit' : Nat) (Own : EvalError → Prop)
    (R : {α : Type} → Nat → M α → N α → Prop) : Prop where
  pure : ∀ {α : Type} {depth : Nat} (a : α), R depth (Pure.pure a) (Pure.pure a)
  bind : ∀ {α β : Type} {depth : Nat} {p : M α} {q : N α} {k : α → M β} {l : α → N β},
    R depth p q → (∀ a, R depth (k a) (l a)) → R depth (p >>= k) (q >>= l)
  ofExcept : ∀ {α : Type} {depth : Nat} (outcome : Except EvalError α),
    (∀ e, outcome = .error e → Own e) → R depth (W.ofExcept outcome) (V.ofExcept outcome)
  fresh : ∀ {depth : Nat}, R depth W.fresh V.fresh
  invoke : ∀ {depth : Nat} (f : HostFunction) (receiver : Value) (arguments : List Value),
    R depth (W.invoke f receiver arguments) (V.invoke f receiver arguments)
  both : ∀ {α β : Type} {depth : Nat} {p : M α} {q : N α} {p' : M β} {q' : N β},
    R depth p q → R depth p' q' → R depth (W.both p p') (V.both q q')
  within : ∀ {α : Type} {depth : Nat} {p : M α} {q : N α}, R (depth + 1) p q →
    R depth (W.within limit depth p) (V.within limit' depth q)
  /-- a property read on undefined or null -/
  nullish : ∀ property base, Own (.nullishProperty property base)

namespace Relates

variable {M N : Type → Type} [Monad M] [Monad N] {W : Walk M} {V : Walk N} {limit limit' : Nat}
  {Own : EvalError → Prop} {R : {α : Type} → Nat → M α → N α → Prop} {depth : Nat}
  (hR : W.Relates V limit limit' Own R)

include hR

/-- A name is looked up alike. -/
theorem lookup (ctx : Context) (name : String) :
    R depth (W.lookup ctx name) (V.lookup ctx name) := by
  unfold Walk.lookup
  cases ctx.getOwn? name with
  | some value => exact hR.pure value
  | none =>
      cases ctx.resolver with
      | some f => exact hR.invoke f _ _
      | none => exact hR.pure _

/-- An operator is alike if its operands are, and an unknown one is an error
of its own. -/
theorem operation {operator : String} {left right : M Value} {left' right' : N Value}
    (hown : ∀ e, binaryOperator operator = .error e → Own e)
    (hleft : R depth left left') (hright : R depth right right') :
    R depth (W.operation operator left right) (V.operation operator left' right') :=
  hR.bind (hR.ofExcept _ hown) fun _ => hR.bind (hR.both hleft hright) fun _ => hR.pure _

/-- A member is alike if its object is, and its property where that has no
name. -/
theorem memberOf (property : Expr) (computed : Bool) {object key : M Value} {object' key' : N Value}
    (hobject : R depth object object')
    (hkey : (property.staticName? computed).isSome = false → R depth key key') :
    R depth (W.memberOf object property computed key)
      (V.memberOf object' property computed key') := by
  refine hR.bind hobject fun receiver => ?_
  cases hname : property.staticName? computed with
  | some name =>
      refine hR.bind (hR.ofExcept _ fun e he => ?_) fun _ => hR.pure _
      obtain ⟨base, rfl⟩ := Value.eq_nullishProperty_of_getNamed? he
      exact hR.nullish name base
  | none =>
      refine hR.bind (hkey (by rw [hname]; rfl)) fun k =>
        hR.bind (hR.ofExcept _ fun e he => ?_) fun _ => hR.pure _
      obtain ⟨property, base, rfl⟩ := Value.eq_nullishProperty_of_getKey? he
      exact hR.nullish property base

/-- A call is alike if its target and its arguments are. -/
theorem callWith {target : M (Value × Value)} {target' : N (Value × Value)}
    {arguments : M (List Value)} {arguments' : N (List Value)} (htarget : R depth target target')
    (harguments : R depth arguments arguments') :
    R depth (W.callWith target arguments) (V.callWith target' arguments') := by
  refine hR.bind htarget fun p => hR.bind harguments fun values => ?_
  rcases p with ⟨receiver, callee⟩
  cases callee with
  | function f => exact hR.invoke f receiver values
  | _ => exact hR.pure _

/-- An array is alike if its elements are: both take a fresh identity for
it. -/
theorem array {elements : M (List Value)} {elements' : N (List Value)}
    (helements : R depth elements elements') :
    R depth
      (do
        let values ← elements
        let identity ← W.fresh
        return Value.array identity values)
      (do
        let values ← elements'
        let identity ← V.fresh
        return Value.array identity values) :=
  hR.bind helements fun _ => hR.bind hR.fresh fun _ => hR.pure _

/-- A sign is alike if its operand is. -/
theorem unary {operator : String} {argument : M Value} {argument' : N Value}
    (hown : ∀ e, unaryOperator operator = .error e → Own e)
    (hargument : R depth argument argument') :
    R depth
      (do
        let o ← W.ofExcept (unaryOperator operator)
        let value ← argument
        return o.apply value)
      (do
        let o ← V.ofExcept (unaryOperator operator)
        let value ← argument'
        return o.apply value) :=
  hR.bind (hR.ofExcept _ hown) fun _ => hR.bind hargument fun _ => hR.pure _

/-- The one symbol that decides by truth, the other, and all the rest. -/
theorem logical {operator : String} {left right : M Value} {left' right' : N Value}
    (hown : operator ≠ "||" → operator ≠ "&&" → ∀ e, binaryOperator operator = .error e → Own e)
    (hleft : R depth left left') (hright : R depth right right') :
    R depth
      (if operator = "||" then do
        let value ← left
        if value.isTruthy then return value else right
      else if operator = "&&" then do
        let value ← left
        if value.isTruthy then right else return value
      else W.operation operator left right)
      (if operator = "||" then do
        let value ← left'
        if value.isTruthy then return value else right'
      else if operator = "&&" then do
        let value ← left'
        if value.isTruthy then right' else return value
      else V.operation operator left' right') := by
  -- The operator is one of the two lazy ones, or it is evaluated as a strict one.
  split
  · refine hR.bind hleft fun value => ?_
    split
    · exact hR.pure value
    · exact hright
  · rename_i hor
    split
    · refine hR.bind hleft fun value => ?_
      split
      · exact hright
      · exact hR.pure value
    · rename_i hand
      exact hR.operation (hown hor hand) hleft hright

/-- A conditional is alike if its test and both branches are. -/
theorem conditional {test consequent alternate : M Value} {test' consequent' alternate' : N Value}
    (htest : R depth test test') (hconsequent : R depth consequent consequent')
    (halternate : R depth alternate alternate') :
    R depth
      (do
        let value ← test
        if value.isTruthy then consequent else alternate)
      (do
        let value ← test'
        if value.isTruthy then consequent' else alternate') := by
  refine hR.bind htest fun value => ?_
  split
  · exact hconsequent
  · exact halternate

/-- A member whose property is evaluated only if it is not a static name. -/
theorem member (ctx : Context) {object property : Expr} {computed : Bool} {at₁ : Nat}
    (hobject : (∀ n ∈ object.nodes, n.OperatorFails Own) →
      R depth (W.eval ctx limit at₁ object) (V.eval ctx limit' at₁ object))
    (hproperty : (∀ n ∈ property.nodes, n.OperatorFails Own) →
      R depth (W.eval ctx limit at₁ property) (V.eval ctx limit' at₁ property))
    (hown : ∀ n ∈ (Expr.member object property computed).nodes, n.OperatorFails Own) :
    R depth
      (W.memberOf (W.eval ctx limit at₁ object) property computed (W.eval ctx limit at₁ property))
      (V.memberOf (V.eval ctx limit' at₁ object) property computed
        (V.eval ctx limit' at₁ property)) := by
  refine hR.memberOf property computed (hobject fun n hn =>
    hown n (List.mem_cons_of_mem _ (List.mem_append_left _ hn))) fun hname => ?_
  refine hproperty fun n hn => hown n (List.mem_cons_of_mem _ (List.mem_append_right _ ?_))
  rw [hname]
  exact hn

mutual

/-- The relation holds between the two walks over a tree, met at the same
depth. -/
theorem eval (ctx : Context) : (e : Expr) → (depth : Nat) →
    (∀ n ∈ e.nodes, n.OperatorFails Own) →
    R depth (W.eval ctx limit depth e) (V.eval ctx limit' depth e)
  | .literal value, depth, _ => hR.within (hR.pure _)
  | .identifier name, depth, _ => hR.within (hR.lookup ctx name)
  | .this, depth, _ => hR.within (hR.pure _)
  | .array elements, depth, hown => by
      have helements := evalEach ctx elements (depth + 1) fun n hn =>
        hown n (List.mem_cons_of_mem _ hn)
      exact hR.within (hR.array helements)
  | .unary operator argument, depth, hown => by
      have hargument := eval ctx argument (depth + 1) fun n hn => hown n (List.mem_cons_of_mem _ hn)
      exact hR.within (hR.unary (hown _ List.mem_cons_self) hargument)
  | .binary operator left right, depth, hown => by
      have hleft := eval ctx left (depth + 1) fun n hn =>
        hown n (List.mem_cons_of_mem _ (List.mem_append_left _ hn))
      have hright := eval ctx right (depth + 1) fun n hn =>
        hown n (List.mem_cons_of_mem _ (List.mem_append_right _ hn))
      exact hR.within (hR.operation (hown _ List.mem_cons_self) hleft hright)
  | .logical operator left right, depth, hown => by
      have hleft := eval ctx left (depth + 1) fun n hn =>
        hown n (List.mem_cons_of_mem _ (List.mem_append_left _ hn))
      have hright := eval ctx right (depth + 1) fun n hn =>
        hown n (List.mem_cons_of_mem _ (List.mem_append_right _ hn))
      exact hR.within (hR.logical (hown _ List.mem_cons_self) hleft hright)
  | .conditional test consequent alternate, depth, hown => by
      have htest := eval ctx test (depth + 1) fun n hn =>
        hown n (List.mem_cons_of_mem _ (List.mem_append_left _ (List.mem_append_left _ hn)))
      have hconsequent := eval ctx consequent (depth + 1) fun n hn =>
        hown n (List.mem_cons_of_mem _ (List.mem_append_left _ (List.mem_append_right _ hn)))
      have halternate := eval ctx alternate (depth + 1) fun n hn =>
        hown n (List.mem_cons_of_mem _ (List.mem_append_right _ hn))
      exact hR.within (hR.conditional htest hconsequent halternate)
  | .member object property computed, depth, hown => by
      refine hR.within (hR.bind ?_ fun _ => hR.pure _)
      exact hR.member ctx (eval ctx object (depth + 1)) (eval ctx property (depth + 1)) hown
  | .call callee arguments, depth, hown => by
      have hcallee : ∀ n ∈ callee.nodes, n.OperatorFails Own := fun n hn =>
        hown n (List.mem_cons_of_mem _ (List.mem_append_left _ hn))
      have harguments := evalEach ctx arguments (depth + 1) fun n hn =>
        hown n (List.mem_cons_of_mem _ (List.mem_append_right _ hn))
      have hplain := eval ctx callee (depth + 1) hcallee
      rw [eval_call_target, eval_call_target]
      refine hR.within (hR.callWith ?_ harguments)
      -- A member that is called has no level of its own: its parts are met at that of the callee.
      cases callee with
      | member object property computed =>
          exact hR.member ctx (eval ctx object (depth + 1)) (eval ctx property (depth + 1)) hcallee
      | _ => exact hR.bind hplain fun _ => hR.pure _
  | .unknown, depth, _ => hR.within (hR.pure _)

/-- The relation holds between the two walks over trees. -/
theorem evalEach (ctx : Context) : (es : List Expr) → (depth : Nat) →
    (∀ n ∈ Expr.nodesOfEach es, n.OperatorFails Own) →
    R depth (W.evalEach ctx limit depth es) (V.evalEach ctx limit' depth es)
  | [], depth, _ => hR.pure []
  | e :: es, depth, hown => by
      have he := eval ctx e depth fun n hn => hown n (List.mem_append_left _ hn)
      have hes := evalEach ctx es depth fun n hn => hown n (List.mem_append_right _ hn)
      exact hR.bind (hR.both he hes) fun _ => hR.pure _

end

/-- The relation holds between the two walks over a member expression. -/
theorem evalMember (ctx : Context) (e : Expr) (hown : ∀ n ∈ e.nodes, n.OperatorFails Own) :
    R 0 (W.evalMember ctx limit e) (V.evalMember ctx limit' e) := by
  have he := hR.eval ctx e 0 hown
  cases e with
  | member object property computed =>
      exact hR.member ctx (hR.eval ctx object 0) (hR.eval ctx property 0) hown
  | _ => exact hR.bind he fun _ => hR.pure _

end Relates

end Walk

/-! ### The two evaluations -/

variable {σ : Type}

/-- An evaluator at work puts evaluations one after the other, and counts its
depth by itself. -/
def Evaluator.walk (h : Host σ) : Walk (Evaluator h) where
  ofExcept := .ofExcept
  fresh := .fresh
  invoke := .invoke
  both p q := do
    let a ← p
    let b ← q
    return (a, b)
  within limit _ := .within limit

/-- An evaluation in rounds begins both parts together, and is told its
depth. -/
def Rounds.walk (h : Host σ) : Walk (Rounds h) where
  ofExcept := .ofExcept
  fresh := .fresh
  invoke := .invoke
  both := .both
  within := .within

section

variable {h : Host σ}

/-- Two parts and what goes on with both, as a pair and what goes on with
it. -/
theorem Evaluator.pair_bind {α β γ : Type} (p : Evaluator h α) (p' : Evaluator h β)
    (k : α → β → Evaluator h γ) :
    (p >>= fun a => p' >>= fun b => k a b)
      = (p >>= fun a => p' >>= fun b => pure (a, b)) >>= fun x : α × β => k x.1 x.2 := by
  funext s
  show andThen p _ s = andThen (andThen p _) _ s
  simp only [andThen]
  rcases p s with ⟨halt | a, s₁⟩
  · rfl
  · show andThen p' (k a) s₁ = andThen (andThen p' fun b => pure (a, b))
      (fun x : α × β => k x.1 x.2) s₁
    simp only [andThen]
    rcases p' s₁ with ⟨halt | b, s₂⟩ <;> rfl

/-- An operator is evaluated as in the walk. -/
theorem Evaluator.operation_eq_walk (operator : String) (left right : Evaluator h Value) :
    Evaluator.operation operator left right
      = (Evaluator.walk h).operation operator left right :=
  congrArg (Evaluator.ofExcept (binaryOperator operator) >>= ·)
    (funext fun o => Evaluator.pair_bind left right fun a b => pure (o.apply a b))

variable (ctx : Context) (limit : Nat)

mutual

/-- The evaluator at work walks over a tree, at whatever depth. -/
theorem Evaluator.eval_eq_walk : (e : Expr) → (depth : Nat) →
    Evaluator.eval (h := h) ctx limit e = (Evaluator.walk h).eval ctx limit depth e
  | .literal _, _ => rfl
  | .identifier _, _ => rfl
  | .this, _ => rfl
  -- The parts are the same by induction, and so is what the node makes of them by definition.
  | .array elements, depth => by
      rw [Evaluator.eval, Walk.eval, evalEach_eq_walk elements (depth + 1)]
      rfl
  | .unary operator argument, depth => by
      rw [Evaluator.eval, Walk.eval, eval_eq_walk argument (depth + 1)]
      rfl
  | .binary operator left right, depth => by
      rw [Evaluator.eval, Walk.eval, eval_eq_walk left (depth + 1), eval_eq_walk right (depth + 1),
        operation_eq_walk]
      rfl
  | .logical operator left right, depth => by
      rw [Evaluator.eval, Walk.eval, eval_eq_walk left (depth + 1), eval_eq_walk right (depth + 1),
        operation_eq_walk]
      rfl
  | .conditional test consequent alternate, depth => by
      rw [Evaluator.eval, Walk.eval, eval_eq_walk test (depth + 1),
        eval_eq_walk consequent (depth + 1), eval_eq_walk alternate (depth + 1)]
      rfl
  | .member object property computed, depth => by
      rw [Evaluator.eval, Walk.eval, eval_eq_walk object (depth + 1),
        eval_eq_walk property (depth + 1)]
      rfl
  | .call callee arguments, depth => by
      have hplain := eval_eq_walk callee (depth + 1)
      have harguments := evalEach_eq_walk arguments (depth + 1)
      cases callee with
      | member object property computed =>
          rw [Evaluator.eval, Walk.eval, eval_eq_walk object (depth + 1),
            eval_eq_walk property (depth + 1), harguments]
          rfl
      | _ =>
          rw [Evaluator.eval, Walk.eval_call, hplain, harguments]
          · rfl
          all_goals exact nofun
  | .unknown, _ => rfl

/-- So are the trees of a list. -/
theorem Evaluator.evalEach_eq_walk : (es : List Expr) → (depth : Nat) →
    Evaluator.evalEach (h := h) ctx limit es = (Evaluator.walk h).evalEach ctx limit depth es
  | [], _ => rfl
  | e :: es, depth => by
      rw [Evaluator.evalEach, Walk.evalEach, eval_eq_walk e depth, evalEach_eq_walk es depth]
      exact pair_bind _ _ fun value values => pure (value :: values)

end

/-- So is a member expression. -/
theorem Evaluator.evalMember_eq_walk (e : Expr) :
    Evaluator.evalMember (h := h) ctx limit e = (Evaluator.walk h).evalMember ctx limit e := by
  cases e with
  | member object property computed =>
      rw [Evaluator.evalMember, Walk.evalMember, eval_eq_walk ctx limit object 0,
        eval_eq_walk ctx limit property 0]
      rfl
  | _ =>
      rw [Evaluator.evalMember, Walk.evalMember, eval_eq_walk ctx limit _ 0]
      · rfl
      all_goals exact nofun

mutual

/-- The evaluation in rounds walks over a tree. -/
theorem Rounds.eval_eq_walk : (e : Expr) → (depth : Nat) →
    Rounds.eval (h := h) ctx limit depth e = (Rounds.walk h).eval ctx limit depth e
  | .literal _, _ => rfl
  | .identifier _, _ => rfl
  | .this, _ => rfl
  -- As with the native evaluation, with the depth handed down.
  | .array elements, depth => by
      rw [Rounds.eval, Walk.eval, evalEach_eq_walk elements (depth + 1)]
      rfl
  | .unary operator argument, depth => by
      rw [Rounds.eval, Walk.eval, eval_eq_walk argument (depth + 1)]
      rfl
  | .binary operator left right, depth => by
      rw [Rounds.eval, Walk.eval, eval_eq_walk left (depth + 1), eval_eq_walk right (depth + 1)]
      rfl
  | .logical operator left right, depth => by
      rw [Rounds.eval, Walk.eval, eval_eq_walk left (depth + 1), eval_eq_walk right (depth + 1)]
      rfl
  | .conditional test consequent alternate, depth => by
      rw [Rounds.eval, Walk.eval, eval_eq_walk test (depth + 1),
        eval_eq_walk consequent (depth + 1), eval_eq_walk alternate (depth + 1)]
      rfl
  | .member object property computed, depth => by
      rw [Rounds.eval, Walk.eval, eval_eq_walk object (depth + 1),
        eval_eq_walk property (depth + 1)]
      rfl
  | .call callee arguments, depth => by
      have hplain := eval_eq_walk callee (depth + 1)
      have harguments := evalEach_eq_walk arguments (depth + 1)
      cases callee with
      | member object property computed =>
          rw [Rounds.eval, Walk.eval, eval_eq_walk object (depth + 1),
            eval_eq_walk property (depth + 1), harguments]
          rfl
      | _ =>
          rw [Rounds.eval, Walk.eval_call, hplain, harguments]
          · rfl
          all_goals exact nofun
  | .unknown, _ => rfl

/-- So are the trees of a list. -/
theorem Rounds.evalEach_eq_walk : (es : List Expr) → (depth : Nat) →
    Rounds.evalEach (h := h) ctx limit depth es = (Rounds.walk h).evalEach ctx limit depth es
  | [], _ => rfl
  | e :: es, depth => by
      rw [Rounds.evalEach, Walk.evalEach, eval_eq_walk e depth, evalEach_eq_walk es depth]
      rfl

end

/-- So is a member expression. -/
theorem Rounds.evalMember_eq_walk (e : Expr) :
    Rounds.evalMember (h := h) ctx limit e = (Rounds.walk h).evalMember ctx limit e := by
  cases e with
  | member object property computed =>
      rw [Rounds.evalMember, Walk.evalMember, eval_eq_walk ctx limit object 0,
        eval_eq_walk ctx limit property 0]
      rfl
  | _ =>
      rw [Rounds.evalMember, Walk.evalMember, eval_eq_walk ctx limit _ 0]
      · rfl
      all_goals exact nofun

end

end Formula
