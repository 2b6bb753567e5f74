import Formula.Value.Basic

/-!
# `Formula.Context`: what a formula can see

A context is a scope object and perhaps a resolver, a host function that
is asked for every name the scope does not have. Whether there is a
resolver is settled when the context is made.
-/

set_option autoImplicit false

namespace Formula

/-- The names a formula can see. -/
structure Context where
  scope : Object
  resolver : Option HostFunction
deriving Inhabited

namespace Context

/-- The scope alone. -/
def ofScope (scope : Object) : Context := ⟨scope, none⟩

/-- The property of a scope that `ofObject` takes for the resolver. -/
def resolverProperty : String := "getValue"

/-- The scope, with the function under its resolver property, if there
is one, as the resolver. -/
def ofObject (scope : Object) : Context :=
  match scope.get? resolverProperty with
  | some (.function f) => ⟨scope, some f⟩
  | _ => ⟨scope, none⟩

/-- The value of a name in the scope. -/
def getOwn? (ctx : Context) (name : String) : Option Value := ctx.scope.get? name

/-- Whether there is a resolver. -/
def hasResolver (ctx : Context) : Bool := ctx.resolver.isSome

/-- What `this` stands for: the scope. -/
def thisValue (ctx : Context) : Value := ctx.scope.toValue

end Context

end Formula
