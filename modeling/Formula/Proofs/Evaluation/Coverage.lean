import Formula.Host.Registry
import Formula.Proofs.Evaluation.Observed

/-!
# `Formula.Proofs.Evaluation.Coverage`: which names an evaluation looks up

The names of a tree, each with the place where it stands, are known before
an evaluation (`Expr.mentions`). The evaluation looks up no others, and
those among them whose value is an operand are the ones that
`readIdentifiers` lists.

* `eval_looks`: what is looked up is mentioned.
* `identifiersAt_lists`: a mention where an operand stands is listed.
* `Expr.FieldsNamed`: every property that is not computed is a name.
* `mem_readIdentifiers_of_lookedUp`: what is looked up is listed, but for
  the callees of plain calls, the tests of conditionals and the properties
  that are neither computed nor names.
* `not_mem_readIdentifiers_property`: a name in such a property is looked
  up and not listed.
-/

set_option autoImplicit false

namespace Formula

/-! ### Names and their places -/

namespace Expr

mutual

/-- The names in a tree that stands at a place, each with the place where
it stands. The name of a static member is none of them. -/
def mentions (place : Place) : Expr → List (String × Place)
  | .identifier name => [(name, place)]
  | .array elements => mentionsOfEach place elements
  | .unary _ argument => mentions place argument
  | .binary _ left right | .logical _ left right => mentions place left ++ mentions place right
  | .conditional test consequent alternate =>
    mentions (place.enter .test) test ++ mentions place consequent ++ mentions place alternate
  | .member object property computed =>
    mentions place object ++
      match property.staticName? computed with
      | some _ => []
      | none => mentions (place.ofProperty computed) property
  | .call callee arguments =>
    mentions (place.ofCallee callee) callee ++ mentionsOfEach place arguments
  | .literal _ | .this | .unknown => []

/-- The names in the trees of a list. -/
def mentionsOfEach (place : Place) : List Expr → List (String × Place)
  | [] => []
  | e :: es => mentions place e ++ mentionsOfEach place es

end

mutual

/-- Every property of a member in the tree is computed or a name. -/
def FieldsNamed : Expr → Prop
  | .array elements => FieldsNamedEach elements
  | .unary _ argument => argument.FieldsNamed
  | .binary _ left right | .logical _ left right => left.FieldsNamed ∧ right.FieldsNamed
  | .conditional test consequent alternate =>
    test.FieldsNamed ∧ consequent.FieldsNamed ∧ alternate.FieldsNamed
  | .member object property computed =>
    object.FieldsNamed ∧ property.FieldsNamed ∧ (computed = true ∨ isName property = true)
  | .call callee arguments => callee.FieldsNamed ∧ FieldsNamedEach arguments
  | .literal _ | .identifier _ | .this | .unknown => True

/-- The same of every tree of a list. -/
def FieldsNamedEach : List Expr → Prop
  | [] => True
  | e :: es => e.FieldsNamed ∧ FieldsNamedEach es

end

end Expr

/-- Only from the place of an operand another place is entered. -/
theorem Place.enter_of_ne {outer : Place} (h : outer ≠ .operand) (inner : Place) :
    outer.enter inner = outer := by
  cases outer with
  | operand => exact absurd rfl h
  | _ => rfl

/-- A callee stands elsewhere only under an operand. -/
theorem Place.ofCallee_of_ne {place : Place} (h : place ≠ .operand) (callee : Expr) :
    place.ofCallee callee = place := by
  unfold ofCallee
  split
  · exact enter_of_ne h _
  · rfl

/-- So does a property. -/
theorem Place.ofProperty_of_ne {place : Place} (h : place ≠ .operand) (computed : Bool) :
    place.ofProperty computed = place := by
  unfold ofProperty
  split
  · rfl
  · exact enter_of_ne h _

mutual

/-- All names within an exceptional place stand there. -/
theorem Expr.place_of_mem_mentions {place : Place} (hplace : place ≠ .operand) : (e : Expr) →
    {mention : String × Place} → mention ∈ e.mentions place → mention.2 = place
  | .literal _, _, h => nomatch h
  | .identifier _, _, h => by rw [List.mem_singleton.1 h]
  | .this, _, h => nomatch h
  | .array elements, _, h => Expr.place_of_mem_mentionsOfEach hplace elements h
  | .unary _ argument, _, h => argument.place_of_mem_mentions hplace h
  | .binary _ left right, _, h =>
      (List.mem_append.1 h).elim (left.place_of_mem_mentions hplace)
        (right.place_of_mem_mentions hplace)
  | .logical _ left right, _, h =>
      (List.mem_append.1 h).elim (left.place_of_mem_mentions hplace)
        (right.place_of_mem_mentions hplace)
  | .conditional test consequent alternate, _, h => by
      -- From an exceptional place one enters no other, neither a test nor a callee nor a property.
      rw [Expr.mentions, Place.enter_of_ne hplace, List.mem_append, List.mem_append] at h
      rcases h with (h | h) | h
      · exact test.place_of_mem_mentions hplace h
      · exact consequent.place_of_mem_mentions hplace h
      · exact alternate.place_of_mem_mentions hplace h
  | .member object property computed, _, h => by
      rw [Expr.mentions, Place.ofProperty_of_ne hplace, List.mem_append] at h
      rcases h with h | h
      · exact object.place_of_mem_mentions hplace h
      · split at h
        · cases h
        · exact property.place_of_mem_mentions hplace h
  | .call callee arguments, _, h => by
      rw [Expr.mentions, Place.ofCallee_of_ne hplace, List.mem_append] at h
      rcases h with h | h
      · exact callee.place_of_mem_mentions hplace h
      · exact Expr.place_of_mem_mentionsOfEach hplace arguments h
  | .unknown, _, h => nomatch h

/-- In a list all names stand at the place of the list, if it is no
operand. -/
theorem Expr.place_of_mem_mentionsOfEach {place : Place} (hplace : place ≠ .operand) :
    (es : List Expr) → {mention : String × Place} → mention ∈ Expr.mentionsOfEach place es →
    mention.2 = place
  | [], _, h => nomatch h
  | e :: es, _, h =>
      (List.mem_append.1 h).elim (e.place_of_mem_mentions hplace)
        (Expr.place_of_mem_mentionsOfEach hplace es)

end

/-! ### What is looked up is mentioned -/

variable {σ : Type} {h : Host σ} {α β : Type}

/-- Every name that the evaluation looks up has the property, with its
place. -/
def Observed.Looks (o : Observed h α) (S : String → Place → Prop) : Prop :=
  ∀ s name place, .lookedUp name place ∈ (o s).1 → S name place

namespace Observed.Looks

variable {S : String → Place → Prop}

/-- An evaluator that does nothing that is noted. -/
theorem silent (p : Evaluator h α) : (Observed.doing [] p).Looks S := nofun

/-- A value by itself looks nothing up. -/
theorem pure (a : α) : (Pure.pure a : Observed h α).Looks S := nofun

/-- What looks up one after the other. -/
theorem bind {o : Observed h α} {o' : α → Observed h β} (ho : o.Looks S)
    (ho' : ∀ a, (o' a).Looks S) : (o >>= o').Looks S := by
  intro s name place hmem
  change _ ∈ (Observed.andThen o o' s).1 at hmem
  unfold Observed.andThen at hmem
  have hfirst := ho s name place
  rcases hrun : o s with ⟨ds, _ | a, s'⟩ <;> rw [hrun] at hfirst hmem
  · exact hfirst hmem
  · exact (List.mem_append.1 hmem).elim hfirst (ho' a s' name place)

/-- What is made of a value looks nothing up. -/
theorem map (f : α → β) {o : Observed h α} (ho : o.Looks S) : (f <$> o).Looks S :=
  ho.bind fun a => pure (f a)

/-- A level looks up what is inside of it, or nothing. -/
theorem within {limit : Nat} {o : Observed h α} (ho : o.Looks S) :
    (Observed.within limit o).Looks S := by
  intro s name place hmem
  unfold Observed.within at hmem
  dsimp only at hmem
  split at hmem
  · exact ho _ name place hmem
  · cases hmem

/-- A name that is looked up, and that the places allow. -/
theorem lookup (ctx : Context) {name : String} {place : Place} (hname : S name place) :
    (Observed.lookup (h := h) ctx name place).Looks S := by
  intro s name' place' hmem
  cases List.mem_singleton.1 hmem
  exact hname

/-- A call looks nothing up. -/
theorem invoke (f : HostFunction) (receiver : Value) (arguments : List Value) :
    (Observed.invoke (h := h) f receiver arguments).Looks S := by
  intro s name place hmem
  change _ ∈ (if f.isAsync then [] else [Deed.called f receiver arguments]) at hmem
  split at hmem
  · cases hmem
  · cases List.mem_singleton.1 hmem

/-- An operator looks up what its operands do. -/
theorem operation (operator : String) {left right : Observed h Value} (hleft : left.Looks S)
    (hright : right.Looks S) : (Observed.operation operator left right).Looks S :=
  (silent _).bind fun _ => hleft.bind fun _ => hright.bind fun _ => pure _

/-- The property is evaluated only if it is no static name. -/
theorem memberOf {object key : Observed h Value} {property : Expr} {computed : Bool}
    (hobject : object.Looks S) (hkey : property.staticName? computed = none → key.Looks S) :
    (Observed.memberOf object property computed key).Looks S := by
  refine hobject.bind fun receiver => ?_
  cases hname : property.staticName? computed with
  | some name => exact (silent _).bind fun _ => pure _
  | none => exact (hkey hname).bind fun _ => (silent _).bind fun _ => pure _

/-- Both branches may be evaluated, one of them is. -/
theorem conditional {test consequent alternate : Observed h Value} (htest : test.Looks S)
    (hconsequent : consequent.Looks S) (halternate : alternate.Looks S) :
    Observed.Looks
      (do
        let value ← test
        if value.isTruthy then consequent else alternate) S := by
  refine htest.bind fun value => ?_
  split
  · exact hconsequent
  · exact halternate

/-- The right operand may be evaluated or not. -/
theorem logical (operator : String) {left right : Observed h Value} (hleft : left.Looks S)
    (hright : right.Looks S) :
    Observed.Looks
      (if operator = "||" then do
        let value ← left
        if value.isTruthy then return value else right
      else if operator = "&&" then do
        let value ← left
        if value.isTruthy then right else return value
      else Observed.operation operator left right) S := by
  split
  · refine hleft.bind fun value => ?_
    split
    · exact pure value
    · exact hright
  · split
    · refine hleft.bind fun value => ?_
      split
      · exact hright
      · exact pure value
    · exact operation operator hleft hright

/-- A call looks up what its target and its arguments do. -/
theorem callWith {target : Observed h (Value × Value)} {arguments : Observed h (List Value)}
    (htarget : target.Looks S) (harguments : arguments.Looks S) :
    (Observed.callWith target arguments).Looks S := by
  refine htarget.bind fun ⟨receiver, callee⟩ => harguments.bind fun values => ?_
  cases callee with
  | function f => exact invoke f receiver values
  | _ => exact pure _

end Observed.Looks

section

variable (ctx : Context) (limit : Nat) {S : String → Place → Prop}

open Observed (Looks)

mutual

/-- What the evaluation of a tree looks up is mentioned in the tree. -/
theorem eval_looks {place : Place} : (e : Expr) →
    (∀ mention ∈ e.mentions place, S mention.1 mention.2) →
    (Observed.eval (h := h) ctx limit place e).Looks S
  | .literal _, _ => (Looks.pure _).within
  | .identifier name, hS => (Looks.lookup ctx (hS _ (List.mem_singleton.2 rfl))).within
  | .this, _ => (Looks.pure _).within
  | .array elements, hS =>
      ((evalEach_looks elements hS).bind fun _ => (Looks.silent _).bind fun _ => .pure _).within
  | .unary _ argument, hS =>
      ((Looks.silent _).bind fun _ => (eval_looks argument hS).bind fun _ => .pure _).within
  | .binary operator left right, hS => by
      obtain ⟨hleft, hright⟩ := List.forall_mem_append.1 hS
      exact (Looks.operation operator (eval_looks left hleft) (eval_looks right hright)).within
  | .logical operator left right, hS => by
      obtain ⟨hleft, hright⟩ := List.forall_mem_append.1 hS
      exact (Looks.logical operator (eval_looks left hleft) (eval_looks right hright)).within
  | .conditional test consequent alternate, hS => by
      obtain ⟨hbefore, halternate⟩ := List.forall_mem_append.1 hS
      obtain ⟨htest, hconsequent⟩ := List.forall_mem_append.1 hbefore
      exact (Looks.conditional (eval_looks test htest) (eval_looks consequent hconsequent)
        (eval_looks alternate halternate)).within
  | .member object property computed, hS => by
      -- Only a computed name is evaluated, and only the names in it count.
      obtain ⟨hobject, hproperty⟩ := List.forall_mem_append.1 hS
      refine ((Looks.memberOf (eval_looks object hobject) fun hname => ?_).map Prod.snd).within
      rw [hname] at hproperty
      exact eval_looks property hproperty
  | .call callee arguments, hS => by
      obtain ⟨hcallee, harguments⟩ := List.forall_mem_append.1 hS
      have hvalues := evalEach_looks arguments harguments
      cases callee with
      | member object property computed =>
          obtain ⟨hobject, hproperty⟩ := List.forall_mem_append.1 hcallee
          rw [Observed.eval]
          refine .within (.callWith (.memberOf (eval_looks object hobject) fun hname => ?_) hvalues)
          rw [hname] at hproperty
          exact eval_looks property hproperty
      | _ =>
          have htarget := eval_looks _ hcallee
          rw [Observed.eval]
          · exact .within (.callWith (.map _ htarget) hvalues)
          all_goals exact nofun
  | .unknown, _ => (Looks.pure _).within

/-- What is looked up in a list is mentioned in it. -/
theorem evalEach_looks {place : Place} : (es : List Expr) →
    (∀ mention ∈ Expr.mentionsOfEach place es, S mention.1 mention.2) →
    (Observed.evalEach (h := h) ctx limit place es).Looks S
  | [], _ => .pure []
  | e :: es, hS => by
      obtain ⟨he, hes⟩ := List.forall_mem_append.1 hS
      exact (eval_looks e he).bind fun _ => (evalEach_looks es hes).bind fun _ => .pure _

end

end

/-! ### What is mentioned is listed -/

/-- A walk that succeeds lists every name of a class. -/
def Lists (p : Immediate h (List String)) (S : String → Prop) : Prop :=
  ∀ w names w', p w = (.ok names, w') → ∀ name, S name → name ∈ names

namespace Lists

variable {S T : String → Prop} {p q : Immediate h (List String)}

/-- A walk that lists a class lists a smaller one. -/
theorem imp (hp : Lists p S) (hST : ∀ name, T name → S name) : Lists p T :=
  fun w names w' hrun name hname => hp w names w' hrun name (hST name hname)

/-- Where no name has to be listed. -/
theorem nothing (hS : ∀ name, ¬S name) : Lists p S :=
  fun _ _ _ _ name hname => absurd hname (hS name)

/-- A single name is listed. -/
theorem single (name : String) :
    Lists (pure [name] : Immediate h (List String)) fun name' => name' = name := by
  intro w names w' hrun name' hname'
  cases hrun
  exact List.mem_singleton.2 hname'

/-- A level lists what is inside of it. -/
theorem within {limit depth : Nat} (hp : Lists p S) : Lists (whileWithin limit depth p) S := by
  intro w names w' hrun
  unfold whileWithin at hrun
  split at hrun
  · exact hp w names w' hrun
  · cases hrun

/-- What one walk lists and what another one adds. -/
theorem bind {r : List String → Immediate h (List String)} (hp : Lists p S)
    (hr : ∀ names w more w', r names w = (.ok more, w') →
      (∀ name ∈ names, name ∈ more) ∧ ∀ name, T name → name ∈ more) :
    Lists (p >>= r) fun name => S name ∨ T name := by
  intro w names w' hrun
  change Immediate.andThen p r w = _ at hrun
  unfold Immediate.andThen at hrun
  have hfirst := hp w
  rcases hstep : p w with ⟨_ | first, w₁⟩ <;> rw [hstep] at hrun hfirst
  · cases hrun
  · obtain ⟨hkept, hadded⟩ := hr first w₁ names w' hrun
    rintro name (hname | hname)
    · exact hkept name (hfirst first w₁ rfl name hname)
    · exact hadded name hname

/-- Two walks one after the other. -/
theorem append (hp : Lists p S) (hq : Lists q T) :
    Lists (do return (← p) ++ (← q)) fun name => S name ∨ T name := by
  refine hp.bind fun names w more w' hrun => ?_
  change Immediate.andThen q _ w = _ at hrun
  unfold Immediate.andThen at hrun
  have hsecond := hq w
  rcases hstep : q w with ⟨_ | second, w₁⟩ <;> rw [hstep] at hrun hsecond
  · cases hrun
  · cases hrun
    exact ⟨fun name hname => List.mem_append_left _ hname,
      fun name hname => List.mem_append_right _ (hsecond second w' rfl name hname)⟩

/-- A walk, and nothing more to be listed. -/
theorem alone (hp : Lists p S) : Lists (p >>= fun names => pure names) S :=
  (hp.bind (T := fun _ => False) fun names w more w' hrun => by
    cases hrun
    exact ⟨fun _ hname => hname, fun _ hfalse => hfalse.elim⟩).imp fun _ => .inl

end Lists

/-- A name of a tree where an operand stands. -/
def Expr.Reads (e : Expr) (name : String) : Prop := (name, Place.operand) ∈ e.mentions .operand

/-- A name of a list of trees where an operand stands. -/
def Expr.ReadsEach (es : List Expr) (name : String) : Prop :=
  (name, Place.operand) ∈ Expr.mentionsOfEach .operand es

namespace Expr

variable {name : String} {object property callee test consequent alternate : Expr}
  {arguments : List Expr}

/-- The names of a test stand there and not where operands do. -/
theorem reads_conditional (hname : (Expr.conditional test consequent alternate).Reads name) :
    consequent.Reads name ∨ alternate.Reads name := by
  rw [Reads, mentions, List.append_assoc] at hname
  rcases List.mem_append.1 hname with htest | hbranches
  · cases test.place_of_mem_mentions (by decide) htest
  · exact List.mem_append.1 hbranches

/-- A name that is read in an index is read in its object or in its
property. -/
theorem reads_index (hname : (object.index property).Reads name) :
    object.Reads name ∨ property.Reads name := by
  have hcomputed : property.staticName? true = none := by cases property <;> rfl
  rw [Reads, index, mentions, hcomputed] at hname
  exact List.mem_append.1 hname

/-- What stands in a property that is not computed is not where operands stand. -/
theorem reads_of_not_computed (hname : (Expr.member object property false).Reads name) :
    object.Reads name := by
  rcases List.mem_append.1 hname with hname | hname
  · exact hname
  · split at hname
    · cases hname
    · cases property.place_of_mem_mentions (by decide) hname

/-- A name that is called stands as a callee and nowhere else. -/
theorem reads_call_name (hcallee : isName callee = true)
    (hname : (Expr.call callee arguments).Reads name) : ReadsEach arguments name := by
  have hplace : Place.operand.ofCallee callee = .callee := by
    rw [Place.ofCallee, hcallee]
    rfl
  rcases List.mem_append.1 hname with hname | hname
  · rw [hplace] at hname
    cases callee.place_of_mem_mentions (by decide) hname
  · exact hname

/-- A name that is read in a call of anything but a name is read in an
argument or in the callee. -/
theorem reads_call (hcallee : isName callee = false)
    (hname : (Expr.call callee arguments).Reads name) :
    ReadsEach arguments name ∨ callee.Reads name := by
  have hplace : Place.operand.ofCallee callee = .operand := by
    rw [Place.ofCallee, hcallee]
    rfl
  rw [Reads, mentions, hplace] at hname
  exact (List.mem_append.1 hname).symm

end Expr

section

variable (ctx : Context) (limit : Nat)

mutual

/-- The walk lists every name of the tree where an operand stands. -/
theorem identifiersAt_lists : (e : Expr) → (depth : Nat) →
    Lists (identifiersAt (h := h) ctx limit depth e) e.Reads
  | .literal _, _ => .within (.nothing nofun)
  | .identifier name, _ => .within ((Lists.single name).imp fun name' hname => by
      cases List.mem_singleton.1 hname
      rfl)
  | .this, _ => .within (.nothing nofun)
  | .array elements, depth => .within (identifiersOfEach_lists elements (depth + 1))
  | .unary _ argument, depth => .within (identifiersAt_lists argument (depth + 1))
  | .binary _ left right, depth =>
      .within (((identifiersAt_lists left (depth + 1)).append
        (identifiersAt_lists right (depth + 1))).imp fun _ => List.mem_append.1)
  | .logical _ left right, depth =>
      .within (((identifiersAt_lists left (depth + 1)).append
        (identifiersAt_lists right (depth + 1))).imp fun _ => List.mem_append.1)
  | .conditional test consequent alternate, depth => by
      have hbranches := (identifiersAt_lists consequent (depth + 1)).append
        (identifiersAt_lists alternate (depth + 1))
      exact .within (hbranches.imp fun _ => Expr.reads_conditional)
  | .member object property computed, depth => by
      have hobject := identifiersAt_lists object (depth + 1)
      have hproperty := identifiersAt_lists property (depth + 1)
      cases computed with
      | true => exact .within ((hobject.append hproperty).imp fun _ => Expr.reads_index)
      | false => exact .within (hobject.alone.imp fun _ => Expr.reads_of_not_computed)
  | .call callee arguments, depth => by
      have harguments := identifiersOfEach_lists arguments (depth + 1)
      have hcallee := identifiersAt_lists callee (depth + 1)
      rw [identifiersAt]
      refine .within ?_
      -- What is called is walked over only if it is no name.
      cases hplain : isName callee with
      | true =>
          split
          · exact (harguments.append (.nothing fun _ => not_false)).imp
              fun _ hname => .inl (Expr.reads_call_name hplain hname)
          · exact harguments.alone.imp fun _ => Expr.reads_call_name hplain
      | false =>
          have hlookup : isLookup callee = false := by
            cases callee <;> first | rfl | cases hplain
          simp only [hlookup, Bool.false_eq_true, if_false]
          exact (harguments.append hcallee).imp fun _ => Expr.reads_call hplain
  | .unknown, _ => .within (.nothing nofun)

/-- What is read in a list is listed. -/
theorem identifiersOfEach_lists : (es : List Expr) → (depth : Nat) →
    Lists (identifiersOfEach (h := h) ctx limit depth es) (Expr.ReadsEach es)
  | [], _ => .nothing nofun
  | e :: es, depth =>
      ((identifiersAt_lists e depth).append (identifiersOfEach_lists es depth)).imp
        fun _ => List.mem_append.1

end

end

/-! ### Properties that are names -/

/-- No place is that of a property but through one. -/
theorem Place.enter_ne_property {outer inner : Place} (houter : outer ≠ .property)
    (hinner : inner ≠ .property) : outer.enter inner ≠ .property := by
  cases outer with
  | operand => exact hinner
  | _ => exact houter

mutual

/-- Where all properties are named, nothing stands in one that is
evaluated without being computed. -/
theorem Expr.place_ne_property {place : Place} (hplace : place ≠ .property) : (e : Expr) →
    e.FieldsNamed → ∀ mention ∈ e.mentions place, mention.2 ≠ .property
  | .literal _, _ => nofun
  | .identifier _, _ => List.forall_mem_singleton.2 hplace
  | .this, _ => nofun
  | .array elements, he => Expr.place_ne_property_of_each hplace elements he
  | .unary _ argument, he => argument.place_ne_property hplace he
  | .binary _ left right, he =>
      List.forall_mem_append.2
        ⟨left.place_ne_property hplace he.1, right.place_ne_property hplace he.2⟩
  | .logical _ left right, he =>
      List.forall_mem_append.2
        ⟨left.place_ne_property hplace he.1, right.place_ne_property hplace he.2⟩
  | .conditional test consequent alternate, ⟨htest, hconsequent, halternate⟩ =>
      List.forall_mem_append.2 ⟨List.forall_mem_append.2
        ⟨test.place_ne_property (Place.enter_ne_property hplace (by decide)) htest,
          consequent.place_ne_property hplace hconsequent⟩,
        alternate.place_ne_property hplace halternate⟩
  | .member object property computed, ⟨hobject, hproperty, hnamed⟩ => by
      refine List.forall_mem_append.2 ⟨object.place_ne_property hplace hobject, ?_⟩
      cases computed with
      | true =>
          have hcomputed : property.staticName? true = none := by cases property <;> rfl
          rw [hcomputed]
          exact property.place_ne_property hplace hproperty
      | false =>
          -- A property that is not computed is a name, and so nothing is mentioned in it.
          have hname : isName property = true := by simpa using hnamed
          cases property with
          | identifier name => exact nofun
          | _ => cases hname
  | .call callee arguments, ⟨hcallee, harguments⟩ => by
      have hcallee' : place.ofCallee callee ≠ .property := by
        unfold Place.ofCallee
        split
        · exact Place.enter_ne_property hplace (by decide)
        · exact hplace
      exact List.forall_mem_append.2 ⟨callee.place_ne_property hcallee' hcallee,
        Expr.place_ne_property_of_each hplace arguments harguments⟩
  | .unknown, _ => nofun

/-- In a list no name stands in the property of a member. -/
theorem Expr.place_ne_property_of_each {place : Place} (hplace : place ≠ .property) :
    (es : List Expr) → Expr.FieldsNamedEach es →
    ∀ mention ∈ Expr.mentionsOfEach place es, mention.2 ≠ .property
  | [], _ => nofun
  | e :: es, ⟨he, hes⟩ =>
      List.forall_mem_append.2 ⟨e.place_ne_property hplace he,
        Expr.place_ne_property_of_each hplace es hes⟩

end

/-! ### What is looked up is listed -/

/-- If the names of a tree can be listed, whatever an evaluation of the
tree looks up is among them, unless it is the callee of a plain call,
stands in the test of a conditional, or stands in a property that is
neither computed nor a name. Where all properties are named there is no
such property. The evaluation is the one whose deeds are told: without
the record it is the evaluator, and its log has the events of the
deeds. -/
theorem mem_readIdentifiers_of_lookedUp (h : Host σ) (ctx : Context) (e : Expr)
    (names : List String) (w w' : World σ) (hread : readIdentifiers h ctx e w = (.ok names, w'))
    (limit : Nat) (start : World σ) :
    (∀ name place, .lookedUp name place ∈ deeds h ctx limit e start →
        name ∈ names ∨ place = .callee ∨ place = .test ∨ place = .property ∧ ¬e.FieldsNamed) ∧
      (Observed.eval (h := h) ctx limit .operand e).erase = Evaluator.eval ctx limit e ∧
      (evaluate h ctx limit e start).2.log.toList
        = start.log.toList ++ (deeds h ctx limit e start).flatMap (Deed.events ctx) := by
  refine ⟨fun name place hdeed => ?_, funext fun s => (eval_observed ctx limit .operand e s).1,
    (eval_observed ctx limit .operand e ⟨0, start⟩).2⟩
  -- What is looked up is mentioned, and where it is mentioned decides whether it is listed.
  have hmention : (name, place) ∈ e.mentions .operand :=
    eval_looks (S := fun name place => (name, place) ∈ e.mentions .operand) ctx limit e
      (fun _ hmem => hmem) ⟨0, start⟩ name place hdeed
  cases place with
  | operand => exact .inl (identifiersAt_lists ctx _ e 0 w names w' hread name hmention)
  | callee => exact .inr (.inl rfl)
  | test => exact .inr (.inr (.inl rfl))
  | property =>
      exact .inr (.inr (.inr ⟨rfl, fun he => e.place_ne_property (by decide) he _ hmention rfl⟩))

/-- A call, a test and two kinds of members, with nothing in the scope. The
called name and the test are looked up and not listed. -/
theorem mem_readIdentifiers_of_lookedUp_members :
    let h := Registry.host #[]
    let ctx := Context.ofScope default
    let e := Expr.logical "||" (.call (.identifier "f") [.identifier "a"])
      (.conditional (.identifier "t") (.field (.identifier "b") "k")
        (.index (.identifier "c") (.identifier "d")))
    let w : World Counters := ⟨⟨0, []⟩, #[]⟩
    readIdentifiers h ctx e w = (.ok ["a", "b", "c", "d"], w) ∧
      deeds h ctx 128 e w = [.lookedUp "f" .callee, .lookedUp "a" .operand, .lookedUp "t" .test,
        .lookedUp "c" .operand, .lookedUp "d" .operand] ∧
      ∀ name place, .lookedUp name place ∈ deeds h ctx 128 e w →
        name ∈ ["a", "b", "c", "d"] ∨ place = .callee ∨ place = .test ∨
          place = .property ∧ ¬e.FieldsNamed := by
  intro h ctx e w
  -- The callee and the test are looked up without being listed, and the arm that is not taken is
  -- listed without being looked up.
  have hread : readIdentifiers h ctx e w = (.ok ["a", "b", "c", "d"], w) := rfl
  exact ⟨hread, rfl, (mem_readIdentifiers_of_lookedUp h ctx e _ w w hread 128 w).1⟩

/-- The property is not computed and no name: it is evaluated to a key, and
the name in it is looked up there and not listed. -/
theorem not_mem_readIdentifiers_property :
    let h := Registry.host #[]
    let ctx := Context.ofScope ⟨0, [("a", .object 1 [("k1", .bool true)]), ("x", .string "k1")]⟩
    let e := Expr.member (.identifier "a")
      (.logical "||" (.identifier "x") (.literal (.string "k"))) false
    let w : World Counters := ⟨⟨2, []⟩, #[]⟩
    readIdentifiers h ctx e w = (.ok ["a"], w) ∧
      evaluate h ctx 128 e w = (.ok (.bool true), w) ∧
      ¬∀ name place, .lookedUp name place ∈ deeds h ctx 128 e w →
        name ∈ ["a"] ∨ place = .callee ∨ place = .test := by
  refine ⟨rfl, rfl, fun hlisted => ?_⟩
  -- The property is evaluated, as it is no name, and so its name is looked up.
  have hdeed : Deed.lookedUp "x" .property ∈
      [Deed.lookedUp "a" .operand, Deed.lookedUp "x" .property] := .tail _ (.head _)
  rcases hlisted "x" .property hdeed with hname | hplace | hplace
  · exact absurd hname (by decide)
  · cases hplace
  · cases hplace

end Formula
