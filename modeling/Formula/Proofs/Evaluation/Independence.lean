import Mathlib
import Formula.Compiled
import Formula.Host.Registry
import Formula.Proofs.Evaluation.Coverage
import Formula.Proofs.Syntax.Built

/-!
# `Formula.Proofs.Evaluation.Independence`: what a formula does not depend on

Two contexts that agree on the names of a formula are the same to it. The
evaluation comes to the same outcome, looks up the same names and calls
the same functions in the same order. Only the resolver can tell the
contexts apart, since it is called on the scope.

* `Observed.Same`: two evaluations do the same, whatever their logs hold.
  Each way of putting evaluations together keeps it.
* `eval_same`: a tree without `this` is evaluated alike in contexts that
  agree on what is mentioned in it.
* `Event.Counterpart`: a call and the call in its place in the other log.
* `mentions_of_lists`: what is mentioned in a tree that was read is listed,
  but for the callees of plain calls and the names in tests.
* `evaluate_eq_of_agree`: a compiled text is evaluated alike in contexts
  that agree on the names it is listed to read, on the callees of its plain
  calls and on the names in its tests.
* `evaluate_receiver_ne_of_agree`: the resolver is called on different
  scopes.
-/

set_option autoImplicit false

namespace Formula

variable {σ : Type} {h : Host σ} {α β : Type}

/-! ### Evaluations that do the same -/

/-- The states differ in nothing that an evaluation or the host can see. -/
structure Evaluator.State.Alike (s s' : Evaluator.State σ) : Prop where
  depth : s.depth = s'.depth
  store : s.world.toStore = s'.world.toStore

/-- From states that differ in their logs only, the two evaluations do the
same, come to the same outcome and leave states that differ in their logs
only. -/
def Observed.Same (o o' : Observed h α) : Prop :=
  ∀ s s', s.Alike s' → (o s).1 = (o' s').1 ∧ (o s).2.1 = (o' s').2.1 ∧
    (o s).2.2.Alike (o' s').2.2

namespace Observed.Same

/-- The same value, and nothing done. -/
theorem pure (a : α) : Same (Pure.pure a : Observed h α) (Pure.pure a) :=
  fun _ _ hs => ⟨rfl, rfl, hs⟩

/-- The same outcome, and nothing done. -/
theorem ofExcept (outcome : Except EvalError α) :
    Same (.doing [] (.ofExcept outcome) : Observed h α) (.doing [] (.ofExcept outcome)) :=
  fun _ _ hs => ⟨rfl, rfl, hs⟩

/-- The next identity is the same on both sides. -/
theorem fresh : Same (.doing [] .fresh : Observed h Identity) (.doing [] .fresh) := by
  rintro ⟨depth, ⟨store, log⟩⟩ ⟨depth', ⟨store', log'⟩⟩ ⟨hdepth, hstore⟩
  obtain rfl : store = store' := hstore
  exact ⟨rfl, rfl, hdepth, rfl⟩

/-- What is the same one after the other is the same. -/
theorem bind {o o' : Observed h α} {p p' : α → Observed h β} (ho : Same o o')
    (hp : ∀ a, Same (p a) (p' a)) : Same (o >>= p) (o' >>= p') := by
  intro s s' hs
  show (Observed.andThen o p s).1 = (Observed.andThen o' p' s').1 ∧
    (Observed.andThen o p s).2.1 = (Observed.andThen o' p' s').2.1 ∧
    (Observed.andThen o p s).2.2.Alike (Observed.andThen o' p' s').2.2
  obtain ⟨hdeeds, houtcome, hstate⟩ := ho s s' hs
  unfold Observed.andThen
  rcases hrun : o s with ⟨ds, outcome, t⟩
  rcases hrun' : o' s' with ⟨ds', outcome', t'⟩
  rw [hrun, hrun'] at hdeeds houtcome hstate
  obtain rfl : ds = ds' := hdeeds
  obtain rfl : outcome = outcome' := houtcome
  -- Deeds and outcome of the first part are the same, so the second one begins with one value on
  -- both sides or not at all.
  cases outcome with
  | error halt => exact ⟨rfl, rfl, hstate⟩
  | ok a =>
      obtain ⟨hdeeds', houtcome', hstate'⟩ := hp a t t' hstate
      exact ⟨congrArg (ds ++ ·) hdeeds', houtcome', hstate'⟩

/-- What is made of the same values is the same. -/
theorem map (f : α → β) {o o' : Observed h α} (ho : Same o o') : Same (f <$> o) (f <$> o') :=
  ho.bind fun a => pure (f a)

/-- A level is refused on both sides or on neither. -/
theorem within {limit : Nat} {o o' : Observed h α} (ho : Same o o') :
    Same (.within limit o) (.within limit o') := by
  intro s s' hs
  obtain ⟨hdeeds, houtcome, hstate⟩ := ho ⟨s.depth + 1, s.world⟩ ⟨s'.depth + 1, s'.world⟩
    ⟨congrArg (· + 1) hs.depth, hs.store⟩
  unfold Observed.within Evaluator.within
  rw [← hs.depth] at hdeeds houtcome hstate ⊢
  split
  · exact ⟨hdeeds, houtcome, congrArg (· - 1) hstate.depth, hstate.store⟩
  · exact ⟨rfl, rfl, hs⟩

/-- A function that is called in the same state answers the same, if its
answers to the two receivers are the same. -/
theorem doing_invoke (deeds : List Deed) {f : HostFunction} {receiver receiver' : Value}
    {arguments : List Value} (hrespond : ∀ store,
      h.respond f receiver arguments store = h.respond f receiver' arguments store) :
    Same (.doing deeds (.invoke f receiver arguments) : Observed h Value)
      (.doing deeds (.invoke f receiver' arguments)) := by
  rintro ⟨depth, ⟨store, log⟩⟩ ⟨depth', ⟨store', log'⟩⟩ ⟨hdepth, hstore⟩
  obtain rfl : store = store' := hstore
  obtain rfl : depth = depth' := hdepth
  unfold Observed.doing Evaluator.invoke World.respond
  split
  · exact ⟨rfl, rfl, rfl, rfl⟩
  · simp only [World.record, hrespond store]
    exact ⟨trivial, trivial, rfl, rfl⟩

/-- A call of the same function with the same arguments. -/
theorem invoke (f : HostFunction) (receiver : Value) (arguments : List Value) :
    Same (.invoke f receiver arguments : Observed h Value) (.invoke f receiver arguments) :=
  doing_invoke _ fun _ => rfl

/-- An operator of the same operands. -/
theorem operation (operator : String) {left left' right right' : Observed h Value}
    (hleft : Same left left') (hright : Same right right') :
    Same (.operation operator left right) (.operation operator left' right') :=
  (ofExcept _).bind fun _ => hleft.bind fun _ => hright.bind fun _ => pure _

/-- A member of the same object, the property being evaluated only if it has
no name. -/
theorem memberOf {object object' key key' : Observed h Value} {property : Expr} {computed : Bool}
    (hobject : Same object object')
    (hkey : property.staticName? computed = none → Same key key') :
    Same (.memberOf object property computed key) (.memberOf object' property computed key') := by
  refine hobject.bind fun receiver => ?_
  cases hname : property.staticName? computed with
  | some name => exact (ofExcept _).bind fun _ => pure _
  | none => exact (hkey hname).bind fun _ => (ofExcept _).bind fun _ => pure _

/-- The truth of the left operand decides what is evaluated next in both. -/
theorem logical (operator : String) {left left' right right' : Observed h Value}
    (hleft : Same left left') (hright : Same right right') :
    Same
      (if operator = "||" then do
        let value ← left
        if value.isTruthy then return value else right
      else if operator = "&&" then do
        let value ← left
        if value.isTruthy then right else return value
      else .operation operator left right)
      (if operator = "||" then do
        let value ← left'
        if value.isTruthy then return value else right'
      else if operator = "&&" then do
        let value ← left'
        if value.isTruthy then right' else return value
      else .operation operator left' right') := by
  split
  · refine hleft.bind fun value => ?_
    split
    · exact pure value
    · exact hright
  · split
    · refine hleft.bind fun value => ?_
      split
      · exact hright
      · exact pure value
    · exact operation operator hleft hright

/-- A conditional of the same test and branches. -/
theorem conditional {test test' consequent consequent' alternate alternate' : Observed h Value}
    (htest : Same test test') (hconsequent : Same consequent consequent')
    (halternate : Same alternate alternate') :
    Same
      (do
        let value ← test
        if value.isTruthy then consequent else alternate)
      (do
        let value ← test'
        if value.isTruthy then consequent' else alternate') := by
  refine htest.bind fun value => ?_
  split
  · exact hconsequent
  · exact halternate

/-- A call of the same target and arguments. -/
theorem callWith {target target' : Observed h (Value × Value)}
    {arguments arguments' : Observed h (List Value)} (htarget : Same target target')
    (harguments : Same arguments arguments') :
    Same (.callWith target arguments) (.callWith target' arguments') := by
  refine htarget.bind fun ⟨receiver, callee⟩ => harguments.bind fun values => ?_
  cases callee with
  | function f => exact invoke f receiver values
  | _ => exact pure _

end Observed.Same

/-! ### Contexts that agree -/

mutual

/-- Nothing in the tree stands for the scope as a whole. -/
def Expr.WithoutThis : Expr → Prop
  | .this => False
  | .array elements => Expr.WithoutThisEach elements
  | .unary _ argument => argument.WithoutThis
  | .binary _ left right | .logical _ left right => left.WithoutThis ∧ right.WithoutThis
  | .conditional test consequent alternate =>
    test.WithoutThis ∧ consequent.WithoutThis ∧ alternate.WithoutThis
  | .member object property _ => object.WithoutThis ∧ property.WithoutThis
  | .call callee arguments => callee.WithoutThis ∧ Expr.WithoutThisEach arguments
  | .literal _ | .identifier _ | .unknown => True

/-- The same of every tree of a list. -/
def Expr.WithoutThisEach : List Expr → Prop
  | [] => True
  | e :: es => e.WithoutThis ∧ Expr.WithoutThisEach es

end

/-- The contexts ask the same resolver, and it does not look at its
receiver. -/
structure Context.SameResolver (h : Host σ) (ctx ctx' : Context) : Prop where
  eq : ctx.resolver = ctx'.resolver
  blind : ∀ f, ctx.resolver = some f → ∀ receiver receiver' arguments store,
    h.respond f receiver arguments store = h.respond f receiver' arguments store

section

variable {ctx ctx' : Context} (limit : Nat)

/-- A lookup is the same if the name is, and the resolvers answer alike. -/
theorem lookup_same (hresolver : ctx.SameResolver h ctx') (name : String) (place : Place)
    (hown : ctx.getOwn? name = ctx'.getOwn? name) :
    Observed.Same (.lookup ctx name place : Observed h Value) (.lookup ctx' name place) := by
  unfold Observed.lookup Evaluator.lookup
  rw [← hown, ← hresolver.eq]
  cases ctx.getOwn? name with
  | some value => exact fun _ _ hs => ⟨rfl, rfl, hs⟩
  | none =>
      cases hf : ctx.resolver with
      | none => exact fun _ _ hs => ⟨rfl, rfl, hs⟩
      -- The two scopes are the receivers, which the resolver does not look at.
      | some f => exact .doing_invoke _ fun store => hresolver.blind f hf _ _ _ store

mutual

/-- A tree without `this` is evaluated alike in contexts that agree on what
is mentioned in it. -/
theorem eval_same (hresolver : ctx.SameResolver h ctx') {place : Place} : (e : Expr) →
    e.WithoutThis → (∀ mention ∈ e.mentions place, ctx.getOwn? mention.1 = ctx'.getOwn? mention.1) →
    Observed.Same (.eval ctx limit place e : Observed h Value) (.eval ctx' limit place e)
  | .literal _, _, _ => (Observed.Same.pure _).within
  | .identifier name, _, hown =>
      (lookup_same hresolver name place (hown _ (List.mem_singleton.2 rfl))).within
  | .this, hthis, _ => hthis.elim
  | .array elements, hthis, hown =>
      ((evalEach_same hresolver elements hthis hown).bind fun _ =>
        Observed.Same.fresh.bind fun _ => .pure _).within
  | .unary _ argument, hthis, hown =>
      ((Observed.Same.ofExcept _).bind fun _ =>
        (eval_same hresolver argument hthis hown).bind fun _ => .pure _).within
  | .binary operator left right, hthis, hown => by
      obtain ⟨hleft, hright⟩ := List.forall_mem_append.1 hown
      exact (Observed.Same.operation operator (eval_same hresolver left hthis.1 hleft)
        (eval_same hresolver right hthis.2 hright)).within
  | .logical operator left right, hthis, hown => by
      obtain ⟨hleft, hright⟩ := List.forall_mem_append.1 hown
      exact (Observed.Same.logical operator (eval_same hresolver left hthis.1 hleft)
        (eval_same hresolver right hthis.2 hright)).within
  | .conditional test consequent alternate, ⟨htest, hconsequent, halternate⟩, hown => by
      obtain ⟨hbefore, hown₃⟩ := List.forall_mem_append.1 hown
      obtain ⟨hown₁, hown₂⟩ := List.forall_mem_append.1 hbefore
      exact (Observed.Same.conditional (eval_same hresolver test htest hown₁)
        (eval_same hresolver consequent hconsequent hown₂)
        (eval_same hresolver alternate halternate hown₃)).within
  | .member object property computed, ⟨hobject, hproperty⟩, hown => by
      obtain ⟨hown₁, hown₂⟩ := List.forall_mem_append.1 hown
      have hobject' := eval_same hresolver object hobject hown₁
      refine ((Observed.Same.memberOf hobject' fun hname => ?_).map Prod.snd).within
      rw [hname] at hown₂
      exact eval_same hresolver property hproperty hown₂
  | .call callee arguments, ⟨hcallee, harguments⟩, hown => by
      obtain ⟨hown₁, hown₂⟩ := List.forall_mem_append.1 hown
      have hvalues := evalEach_same hresolver arguments harguments hown₂
      -- In a method call the object is evaluated once, for the receiver and the function.
      cases callee with
      | member object property computed =>
          obtain ⟨hown₃, hown₄⟩ := List.forall_mem_append.1 hown₁
          have hobject := eval_same hresolver object hcallee.1 hown₃
          refine .within (.callWith (.memberOf hobject fun hname => ?_) hvalues)
          rw [hname] at hown₄
          exact eval_same hresolver property hcallee.2 hown₄
      | _ =>
          exact .within (.callWith (.map _ (eval_same hresolver _ hcallee hown₁)) hvalues)
  | .unknown, _, _ => (Observed.Same.pure _).within

/-- The trees of a list are the same one by one. -/
theorem evalEach_same (hresolver : ctx.SameResolver h ctx') {place : Place} :
    (es : List Expr) → Expr.WithoutThisEach es →
    (∀ mention ∈ Expr.mentionsOfEach place es, ctx.getOwn? mention.1 = ctx'.getOwn? mention.1) →
    Observed.Same (.evalEach ctx limit place es : Observed h (List Value))
      (.evalEach ctx' limit place es)
  | [], _, _ => .pure []
  | e :: es, ⟨he, hes⟩, hown => by
      obtain ⟨hown₁, hown₂⟩ := List.forall_mem_append.1 hown
      exact (eval_same hresolver e he hown₁).bind fun _ =>
        (evalEach_same hresolver es hes hown₂).bind fun _ => .pure _

end

end

/-! ### The two logs -/

/-- A call for one context and the call in its place for the other: the same
call, or the same name asked of the resolver, with the context's own scope
as the receiver. -/
inductive Event.Counterpart (ctx ctx' : Context) : Event → Event → Prop
  | same (event : Event) : Counterpart ctx ctx' event event
  | asked {f : HostFunction} (hf : ctx.resolver = some f) (name : String) :
    Counterpart ctx ctx' (.called f ctx.thisValue [.string name])
      (.called f ctx'.thisValue [.string name])

section

variable {ctx ctx' : Context}

/-- The events of a deed are the same, or both ask their resolver for the same
name. -/
theorem Deed.events_counterpart (hresolver : ctx.resolver = ctx'.resolver) : (deed : Deed) →
    (∀ name place, deed = .lookedUp name place → ctx.getOwn? name = ctx'.getOwn? name) →
    List.Forall₂ (Event.Counterpart ctx ctx') (deed.events ctx) (deed.events ctx')
  | .called _ _ _, _ => .cons (.same _) .nil
  | .lookedUp name place, hown => by
      simp only [Deed.events, ← hresolver, ← hown name place rfl]
      -- The resolver is asked only for a name that the context does not have, and it has it or
      -- not on both sides.
      cases ctx.getOwn? name with
      | some value => exact .nil
      | none =>
          cases hf : ctx.resolver with
          | none => exact .nil
          | some f =>
              dsimp only
              split
              · exact .nil
              · exact .cons (.asked hf name) .nil

/-- The same deeds in both contexts are the same calls, but for the
receivers of the resolver. -/
theorem Deed.flatMap_events_counterpart (hresolver : ctx.resolver = ctx'.resolver) :
    (deeds : List Deed) →
    (∀ name place, .lookedUp name place ∈ deeds → ctx.getOwn? name = ctx'.getOwn? name) →
    List.Forall₂ (Event.Counterpart ctx ctx') (deeds.flatMap (Deed.events ctx))
      (deeds.flatMap (Deed.events ctx'))
  | [], _ => .nil
  | deed :: deeds, hown =>
      List.rel_append
        (deed.events_counterpart hresolver fun name place h => hown name place (h ▸ .head _))
        (Deed.flatMap_events_counterpart hresolver deeds fun name place h =>
          hown name place (.tail _ h))

end

/-- A tree without `this` comes to the same in contexts that agree on the
names in it, and calls the same functions. -/
theorem evaluate_same {ctx ctx' : Context} (hresolver : ctx.SameResolver h ctx') {e : Expr}
    (hthis : e.WithoutThis)
    (hown : ∀ mention ∈ e.mentions .operand, ctx.getOwn? mention.1 = ctx'.getOwn? mention.1)
    (limit : Nat) (start : World σ) :
    (evaluate h ctx limit e start).1 = (evaluate h ctx' limit e start).1 ∧
      (evaluate h ctx limit e start).2.toStore = (evaluate h ctx' limit e start).2.toStore ∧
      ∃ calls calls',
        (evaluate h ctx limit e start).2.log.toList = start.log.toList ++ calls ∧
        (evaluate h ctx' limit e start).2.log.toList = start.log.toList ++ calls' ∧
        List.Forall₂ (Event.Counterpart ctx ctx') calls calls' := by
  obtain ⟨hdeeds, houtcome, hstate⟩ :=
    eval_same limit hresolver e hthis hown ⟨0, start⟩ ⟨0, start⟩ ⟨rfl, rfl⟩
  -- Without their records the two evaluations are the evaluator.
  obtain ⟨hrun, hlog⟩ := eval_observed ctx limit .operand e ⟨0, start⟩
  obtain ⟨hrun', hlog'⟩ := eval_observed ctx' limit .operand e ⟨0, start⟩
  have houtcome' : (Evaluator.eval (h := h) ctx limit e ⟨0, start⟩).1
      = (Evaluator.eval (h := h) ctx' limit e ⟨0, start⟩).1 :=
    (congrArg (·.1) hrun).symm.trans (houtcome.trans (congrArg (·.1) hrun'))
  have hstore : (Evaluator.eval (h := h) ctx limit e ⟨0, start⟩).2.world.toStore
      = (Evaluator.eval (h := h) ctx' limit e ⟨0, start⟩).2.world.toStore :=
    (congrArg (·.2.world.toStore) hrun).symm.trans
      (hstate.store.trans (congrArg (·.2.world.toStore) hrun'))
  rw [← hdeeds] at hlog'
  refine ⟨congrArg (Except.mapError Halt.error) houtcome', hstore, _, _, hlog, hlog',
    Deed.flatMap_events_counterpart hresolver.eq _ fun name place hdeed => ?_⟩
  have hmention : (name, place) ∈ e.mentions .operand :=
    eval_looks (S := fun name place => (name, place) ∈ e.mentions .operand) ctx limit e
      (fun _ hmem => hmem) _ name place hdeed
  exact hown _ hmention

/-! ### The names of a text -/

/-- In a list every tree counts by itself. -/
theorem Expr.fieldsNamedEach_of_forall : {es : List Expr} → (∀ e ∈ es, e.FieldsNamed) →
    Expr.FieldsNamedEach es
  | [], _ => trivial
  | _ :: _, h => ⟨h _ (.head _), fieldsNamedEach_of_forall fun e he => h e (.tail _ he)⟩

/-- Every property that the grammar builds is computed or a name. -/
theorem Expr.Built.fieldsNamed {e : Expr} (he : e.Built) : e.FieldsNamed := by
  induction he with
  | literal _ | identifier _ | this => trivial
  | array _ ih => exact Expr.fieldsNamedEach_of_forall ih
  | unary _ _ ih => exact ih
  | infixed o _ _ ihleft ihright =>
      unfold Expr.infixed
      split <;> exact ⟨ihleft, ihright⟩
  | conditional _ _ _ ihtest ihconsequent ihalternate => exact ⟨ihtest, ihconsequent, ihalternate⟩
  | call _ _ ihcallee iharguments => exact ⟨ihcallee, Expr.fieldsNamedEach_of_forall iharguments⟩
  | index _ _ ihobject ihproperty => exact ⟨ihobject, ihproperty, .inl rfl⟩
  | field _ _ ihobject => exact ⟨ihobject, trivial, .inr rfl⟩

/-- In a formula that was parsed every field is a name. -/
theorem fieldsNamed_of_ofSource {mode : Mode} {source : String} {limit : Nat} {c : Compiled}
    (hc : Compiled.ofSource mode source limit = .ok c) : c.tree.FieldsNamed := by
  unfold Compiled.ofSource at hc
  split at hc
  · next tree hparse =>
      cases hc
      exact (built_of_parse hparse).fieldsNamed
  · cases hc

/-- Where the names of a tree can be listed and all properties are named,
the names in the tree are the listed ones, the callees of plain calls and
those in tests. -/
theorem mentions_of_lists {ctx : Context} {e : Expr} (he : e.FieldsNamed) {names : List String}
    {w w' : World σ} (hread : readIdentifiers h ctx e w = (.ok names, w')) :
    ∀ mention ∈ e.mentions .operand, mention.1 ∈ names ∨
      (mention.1, .callee) ∈ e.mentions .operand ∨ (mention.1, .test) ∈ e.mentions .operand := by
  rintro ⟨name, place⟩ hmention
  cases place with
  | operand => exact .inl (identifiersAt_lists ctx _ e 0 w names w' hread name hmention)
  | callee => exact .inr (.inl hmention)
  | test => exact .inr (.inr hmention)
  | property => exact absurd rfl (e.place_ne_property (by decide) he _ hmention)

/-- A compiled text without `this` comes to the same, under any limit, in two
contexts with the same resolver that agree on the names which the formula
is listed to read, on the callees of its plain calls and on the names in
its tests. The functions that it calls are the same, in the same order,
with the same receivers and arguments, except that the resolver is called
on the scope of its own context. -/
theorem evaluate_eq_of_agree (h : Host σ) {mode : Mode} {source : String} {parseLimit : Nat}
    {c : Compiled} (hc : Compiled.ofSource mode source parseLimit = .ok c)
    (hthis : c.tree.WithoutThis) {ctx ctx' : Context} (hresolver : ctx.SameResolver h ctx')
    {names : List String} {w w' : World σ} (hread : c.identifiersIn h ctx w = (.ok names, w'))
    (hown : ∀ name, name ∈ names ∨ (name, .callee) ∈ c.tree.mentions .operand ∨
      (name, .test) ∈ c.tree.mentions .operand → ctx.getOwn? name = ctx'.getOwn? name)
    (limit : Nat) (start : World σ) :
    (evaluate h ctx limit c.tree start).1 = (evaluate h ctx' limit c.tree start).1 ∧
      (evaluate h ctx limit c.tree start).2.toStore
        = (evaluate h ctx' limit c.tree start).2.toStore ∧
      ∃ calls calls',
        (evaluate h ctx limit c.tree start).2.log.toList = start.log.toList ++ calls ∧
        (evaluate h ctx' limit c.tree start).2.log.toList = start.log.toList ++ calls' ∧
        List.Forall₂ (Event.Counterpart ctx ctx') calls calls' :=
  evaluate_same hresolver hthis
    (fun mention hmention =>
      hown _ (mentions_of_lists (fieldsNamed_of_ofSource hc) hread mention hmention))
    limit start

/-- The name `y` is none of those of the text and differs. `x` is asked of the
resolver, which answers from a table. -/
theorem evaluate_eq_of_agree_unlisted :
    let h := Registry.host #[⟨"f", .argument 0, 0, false⟩,
      ⟨"r", .table [("x", .string "7")], 0, false⟩]
    let scope : List (String × Value) :=
      [("t", .bool true), ("f", .function ⟨0, false⟩), ("a", .string "1")]
    let ctx : Context := ⟨⟨0, ("y", .bool true) :: scope⟩, some ⟨1, false⟩⟩
    let ctx' : Context := ⟨⟨1, ("y", .bool false) :: scope⟩, some ⟨1, false⟩⟩
    let c : Compiled := ⟨.sync, .conditional (.identifier "t")
      (.binary "+" (.call (.identifier "f") [.identifier "a"]) (.identifier "x"))
      (.identifier "a"), some "t ? f(a) + x : a", 128⟩
    let w : World Counters := ⟨⟨2, []⟩, #[]⟩
    Compiled.ofSource .sync "t ? f(a) + x : a" 128 = .ok c ∧
      c.identifiersIn h ctx w = (.ok ["a", "x", "a"], w) ∧
      (evaluate h ctx 128 c.tree w).1 = .ok (.string "17") ∧
      (evaluate h ctx' 128 c.tree w).1 = .ok (.string "17") := by
  intro h scope ctx ctx' c w
  have hc : Compiled.ofSource .sync "t ? f(a) + x : a" 128 = .ok c := by cbv
  have hread : c.identifiersIn h ctx w = (.ok ["a", "x", "a"], w) := rfl
  have hthis : c.tree.WithoutThis := ⟨trivial, ⟨⟨trivial, trivial, trivial⟩, trivial⟩, trivial⟩
  have hresolver : ctx.SameResolver h ctx' := ⟨rfl, fun f hf _ _ _ _ => by cases hf; rfl⟩
  -- The contexts differ in a name that the formula does not mention, so they agree on all that
  -- it does.
  have hown : ∀ name, name ∈ ["a", "x", "a"] ∨ (name, .callee) ∈ c.tree.mentions .operand ∨
      (name, .test) ∈ c.tree.mentions .operand → ctx.getOwn? name = ctx'.getOwn? name := by
    have hmentions : c.tree.mentions .operand = [("t", .test), ("f", .callee), ("a", .operand),
      ("x", .operand), ("a", .operand)] := rfl
    intro name hname
    have hy : name ≠ "y" := by
      rintro rfl
      rw [hmentions] at hname
      exact absurd hname (by decide)
    simp [Context.getOwn?, Object.get?, Properties.get?, ctx, ctx', hy.symm]
  have hsame := (evaluate_eq_of_agree h hc hthis hresolver hread hown 128 w).1
  have hvalue : (evaluate h ctx 128 c.tree w).1 = .ok (.string "17") := rfl
  exact ⟨hc, hread, hvalue, hsame.symm.trans hvalue⟩

/-- Both contexts have the resolver in their scopes, the other name in them is
not in the text, and the resolver does not look at its receiver. It is
called on different scopes all the same. -/
theorem evaluate_receiver_ne_of_agree :
    let h := Registry.host #[⟨"getValue", .constant (.string "7"), 0, false⟩]
    let f : HostFunction := ⟨0, false⟩
    let ctx := Context.ofObject ⟨0, [("getValue", .function f)]⟩
    let ctx' := Context.ofObject ⟨1, [("getValue", .function f), ("y", .bool true)]⟩
    let c : Compiled := ⟨.sync, .identifier "x", some "x", 128⟩
    let w : World Counters := ⟨⟨2, []⟩, #[]⟩
    Compiled.ofSource .sync "x" 128 = .ok c ∧ c.tree.WithoutThis ∧ ctx.SameResolver h ctx' ∧
      c.identifiersIn h ctx w = (.ok ["x"], w) ∧
      (∀ name, name ∈ ["x"] ∨ (name, .callee) ∈ c.tree.mentions .operand ∨
        (name, .test) ∈ c.tree.mentions .operand → ctx.getOwn? name = ctx'.getOwn? name) ∧
      (evaluate h ctx 128 c.tree w).2.log = #[.called f ctx.thisValue [.string "x"]] ∧
      (evaluate h ctx' 128 c.tree w).2.log = #[.called f ctx'.thisValue [.string "x"]] ∧
      ctx.thisValue ≠ ctx'.thisValue := by
  intro h f ctx ctx' c w
  refine ⟨by cbv, trivial, ⟨rfl, fun g hg _ _ _ _ => by cases hg; rfl⟩, rfl, ?_, rfl, rfl, nofun⟩
  intro name hname
  -- The one name of the formula is in neither context, so both resolvers are asked, each with
  -- its own scope.
  have hmentions : c.tree.mentions .operand = [("x", .operand)] := rfl
  have hx : name = "x" := by simpa [hmentions] using hname
  rw [hx]
  rfl

end Formula
