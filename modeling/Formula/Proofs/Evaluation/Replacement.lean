import Formula.Host.Registry
import Formula.Identifiers
import Formula.Proofs.Evaluation.Agreement
import Formula.Proofs.Evaluation.Walk

/-!
# `Formula.Proofs.Evaluation.Replacement`: parts that can be replaced

The value of a tree depends on its parts only through their values, and so
does what the walk over names lists. So wherever a rule replaces nodes by
others that evaluate alike, the whole tree evaluates alike, however many
of its nodes are replaced.

* `Expr.Replaces`: a tree with any set of its nodes replaced by a rule.
* `Walk.Same`, `SameNames`: two trees that no evaluation, and no walk over
  names, can tell apart.
* `Walk.same_of_replaces`, `sameNames_of_replaces`: replacing nodes by such
  nodes gives such a tree.
* `Expr.FieldAsIndex`: a static member, and the computed one whose property
  is the name as a text.
* `evaluations_eq_of_fieldAsIndex`: the two kinds of members can stand for
  each other, anywhere in a tree.
-/

set_option autoImplicit false

namespace Formula

/-! ### Trees with replaced nodes -/

/-- A node as it is, or what a rule makes of it. -/
def Expr.Becomes (rule : Expr → Expr → Prop) (e e' : Expr) : Prop := e' = e ∨ rule e e'

mutual

/-- The second tree is the first one with any of its nodes replaced by a
rule. In each node the parts come first, and then perhaps the node. -/
def Expr.Replaces (rule : Expr → Expr → Prop) : Expr → Expr → Prop
  | .array elements, e' =>
    ∃ elements', Expr.ReplacesEach rule elements elements' ∧
      (Expr.array elements').Becomes rule e'
  | .unary operator argument, e' =>
    ∃ argument', argument.Replaces rule argument' ∧
      (Expr.unary operator argument').Becomes rule e'
  | .binary operator left right, e' =>
    ∃ left' right', left.Replaces rule left' ∧ right.Replaces rule right' ∧
      (Expr.binary operator left' right').Becomes rule e'
  | .logical operator left right, e' =>
    ∃ left' right', left.Replaces rule left' ∧ right.Replaces rule right' ∧
      (Expr.logical operator left' right').Becomes rule e'
  | .conditional test consequent alternate, e' =>
    ∃ test' consequent' alternate', test.Replaces rule test' ∧
      consequent.Replaces rule consequent' ∧ alternate.Replaces rule alternate' ∧
      (Expr.conditional test' consequent' alternate').Becomes rule e'
  | .member object property computed, e' =>
    ∃ object' property', object.Replaces rule object' ∧ property.Replaces rule property' ∧
      (Expr.member object' property' computed).Becomes rule e'
  | .call callee arguments, e' =>
    ∃ callee' arguments', callee.Replaces rule callee' ∧
      Expr.ReplacesEach rule arguments arguments' ∧ (Expr.call callee' arguments').Becomes rule e'
  | .literal value, e' => (Expr.literal value).Becomes rule e'
  | .identifier name, e' => (Expr.identifier name).Becomes rule e'
  | .this, e' => Expr.this.Becomes rule e'
  | .unknown, e' => Expr.unknown.Becomes rule e'

/-- The same of lists of trees, one by one. -/
def Expr.ReplacesEach (rule : Expr → Expr → Prop) : List Expr → List Expr → Prop
  | [], es' => es' = []
  | e :: es, es' =>
    ∃ e' rest, e.Replaces rule e' ∧ Expr.ReplacesEach rule es rest ∧ es' = e' :: rest

end

/-- Whether a tree is neither a member nor a name, so that it does not matter
what kind of tree it is where it is called or is the property of a
member. -/
def Expr.isPlain : Expr → Bool
  | .member _ _ _ | .identifier _ => false
  | _ => true

/-! ### Evaluations that cannot tell trees apart -/

namespace Walk

section

variable {M : Type → Type} [Monad M] (W : Walk M) (ctx : Context) (limit : Nat)

/-- Two trees that the walk cannot tell apart, whether their values are asked
for, or they are called, or they are the property of a member. -/
structure Same (e e' : Expr) : Prop where
  eval : ∀ depth, W.eval ctx limit depth e = W.eval ctx limit depth e'
  target : ∀ depth, W.target ctx limit depth e = W.target ctx limit depth e'
  staticName : ∀ computed, e.staticName? computed = e'.staticName? computed

variable {W ctx limit}

namespace Same

/-- A tree is the same as itself. -/
theorem refl (e : Expr) : W.Same ctx limit e e := ⟨fun _ => rfl, fun _ => rfl, fun _ => rfl⟩

/-- Sameness goes on from tree to tree. -/
theorem trans {e₁ e₂ e₃ : Expr} (h : W.Same ctx limit e₁ e₂) (h' : W.Same ctx limit e₂ e₃) :
    W.Same ctx limit e₁ e₃ :=
  ⟨fun depth => (h.eval depth).trans (h'.eval depth),
    fun depth => (h.target depth).trans (h'.target depth),
    fun computed => (h.staticName computed).trans (h'.staticName computed)⟩

/-- Of trees that are neither members nor names only the values are asked
for. -/
theorem of_eval {e e' : Expr} (he : e.isPlain = true) (he' : e'.isPlain = true)
    (heval : ∀ depth, W.eval ctx limit depth e = W.eval ctx limit depth e') :
    W.Same ctx limit e e' := by
  have htarget : ∀ {e : Expr}, e.isPlain = true → ∀ depth, W.target ctx limit depth e
      = (W.eval ctx limit depth e >>= fun value => pure (.undefined, value)) := by
    intro e he depth
    cases e <;> first | rfl | cases he
  have hname : ∀ {e : Expr}, e.isPlain = true → ∀ computed, e.staticName? computed = none := by
    intro e he computed
    cases e <;> first | rfl | cases he
  refine ⟨heval, fun depth => ?_, fun computed => ?_⟩
  · rw [htarget he, htarget he', heval]
  · rw [hname he, hname he']

/-- An operator of the same operands is the same. -/
theorem operation (operator : String) {left right left' right' : Expr}
    (hleft : W.Same ctx limit left left') (hright : W.Same ctx limit right right') (depth : Nat) :
    W.operation operator (W.eval ctx limit depth left) (W.eval ctx limit depth right)
      = W.operation operator (W.eval ctx limit depth left') (W.eval ctx limit depth right') := by
  rw [hleft.eval, hright.eval]

/-- A member of the same object and property is the same, as a value and as a
callee. -/
theorem member {object property object' property' : Expr} (computed : Bool)
    (hobject : W.Same ctx limit object object') (hproperty : W.Same ctx limit property property') :
    W.Same ctx limit (.member object property computed) (.member object' property' computed) := by
  have htarget : ∀ depth, W.target ctx limit depth (.member object property computed)
      = W.target ctx limit depth (.member object' property' computed) := fun depth => by
    show W.memberOf _ _ _ _ = W.memberOf _ _ _ _
    rw [hobject.eval, hproperty.eval, W.memberOf_congr (hproperty.staticName computed)]
  refine ⟨fun depth => ?_, htarget, fun _ => rfl⟩
  exact congrArg (fun p => W.within limit depth (do let x ← p; return x.2)) (htarget (depth + 1))

end Same

/-- What a rule makes of a node is the same, if the rule keeps to that. -/
theorem Same.of_becomes {rule : Expr → Expr → Prop}
    (hrule : ∀ e e', rule e e' → W.Same ctx limit e e') {e₁ e₂ e₃ : Expr}
    (hbecomes : e₂.Becomes rule e₃) (h : W.Same ctx limit e₁ e₂) : W.Same ctx limit e₁ e₃ := by
  obtain rfl | hstep := hbecomes
  · exact h
  · exact h.trans (hrule _ _ hstep)

section

variable {rule : Expr → Expr → Prop}

mutual

/-- Nodes that are replaced by others which the walk cannot tell from them
leave the tree as it is for the walk. -/
theorem same_of_replaces (hrule : ∀ e e', rule e e' → W.Same ctx limit e e') :
    (e : Expr) → {e' : Expr} → e.Replaces rule e' → W.Same ctx limit e e'
  | .literal _, _, h => Same.of_becomes hrule h (.refl _)
  | .identifier _, _, h => Same.of_becomes hrule h (.refl _)
  | .this, _, h => Same.of_becomes hrule h (.refl _)
  | .unknown, _, h => Same.of_becomes hrule h (.refl _)
  -- At each node the parts are replaced first, and then the node itself or not.
  | .array elements, _, ⟨elements', helements, h⟩ => by
      have heach := same_of_replacesEach hrule elements helements
      refine Same.of_becomes hrule h (.of_eval rfl rfl fun depth => ?_)
      rw [Walk.eval, Walk.eval, heach]
  | .unary operator argument, _, ⟨argument', hargument, h⟩ => by
      have hsame := same_of_replaces hrule argument hargument
      refine Same.of_becomes hrule h (.of_eval rfl rfl fun depth => ?_)
      rw [Walk.eval, Walk.eval, hsame.eval]
  | .binary operator left right, _, ⟨left', right', hleft, hright, h⟩ => by
      have hsame := Same.operation operator (same_of_replaces hrule left hleft)
        (same_of_replaces hrule right hright)
      refine Same.of_becomes hrule h (.of_eval rfl rfl fun depth => ?_)
      rw [Walk.eval, Walk.eval, hsame]
  | .logical operator left right, _, ⟨left', right', hleft, hright, h⟩ => by
      have hleft' := same_of_replaces hrule left hleft
      have hright' := same_of_replaces hrule right hright
      refine Same.of_becomes hrule h (.of_eval rfl rfl fun depth => ?_)
      rw [Walk.eval, Walk.eval, hleft'.eval, hright'.eval]
  | .conditional test consequent alternate, _,
      ⟨test', consequent', alternate', htest, hconsequent, halternate, h⟩ => by
      have htest' := same_of_replaces hrule test htest
      have hconsequent' := same_of_replaces hrule consequent hconsequent
      have halternate' := same_of_replaces hrule alternate halternate
      refine Same.of_becomes hrule h (.of_eval rfl rfl fun depth => ?_)
      rw [Walk.eval, Walk.eval, htest'.eval, hconsequent'.eval, halternate'.eval]
  | .member object property computed, _, ⟨object', property', hobject, hproperty, h⟩ =>
      Same.of_becomes hrule h
        (.member computed (same_of_replaces hrule object hobject)
          (same_of_replaces hrule property hproperty))
  | .call callee arguments, _, ⟨callee', arguments', hcallee, harguments, h⟩ => by
      have hcallee' := same_of_replaces hrule callee hcallee
      have heach := same_of_replacesEach hrule arguments harguments
      refine Same.of_becomes hrule h (.of_eval rfl rfl fun depth => ?_)
      rw [W.eval_call_target, W.eval_call_target, hcallee'.target, heach]

/-- Trees of a list that are replaced one by one. -/
theorem same_of_replacesEach (hrule : ∀ e e', rule e e' → W.Same ctx limit e e') :
    (es : List Expr) → {es' : List Expr} → Expr.ReplacesEach rule es es' →
    ∀ depth, W.evalEach ctx limit depth es = W.evalEach ctx limit depth es'
  | [], _, h => fun _ => by rw [h]
  | e :: es, _, ⟨e', rest, he, hes, h⟩ => fun depth => by
      rw [h, Walk.evalEach, Walk.evalEach, (same_of_replaces hrule e he).eval,
        same_of_replacesEach hrule es hes]

end

end

end

end Walk

/-! ### Walks over names that cannot tell trees apart -/

section

variable {σ : Type}

/-- Two trees that the walk over names cannot tell apart, whether their names
are listed or they are called. -/
structure SameNames (h : Host σ) (ctx : Context) (limit : Nat) (e e' : Expr) : Prop where
  identifiers : ∀ depth,
    identifiersAt (h := h) ctx limit depth e = identifiersAt ctx limit depth e'
  name : e.staticName? false = e'.staticName? false

/-- A tree is a name if it has one as a property that is not computed. -/
theorem isName_eq_isSome_staticName? (e : Expr) : isName e = (e.staticName? false).isSome := by
  cases e <;> rfl

/-- Whether it is the name of lookups is told by that name. -/
theorem isLookup_eq_any_staticName? (e : Expr) :
    isLookup e = (e.staticName? false).any (· == lookupFunction) := by
  cases e <;> rfl

namespace SameNames

variable {h : Host σ} {ctx : Context} {limit : Nat} {e₁ e₂ e₃ : Expr}

/-- A tree has the same names as itself. -/
theorem refl (e : Expr) : SameNames h ctx limit e e := ⟨fun _ => rfl, rfl⟩

/-- Of trees with the same names both are names or neither. -/
theorem isName_eq (he : SameNames h ctx limit e₁ e₂) : isName e₁ = isName e₂ := by
  rw [isName_eq_isSome_staticName?, isName_eq_isSome_staticName?, he.name]

/-- So it is with lookups. -/
theorem isLookup_eq (he : SameNames h ctx limit e₁ e₂) : isLookup e₁ = isLookup e₂ := by
  rw [isLookup_eq_any_staticName?, isLookup_eq_any_staticName?, he.name]

/-- A node that is replaced or not. -/
theorem of_becomes {rule : Expr → Expr → Prop}
    (hrule : ∀ e e', rule e e' → SameNames h ctx limit e e') (hbecomes : e₂.Becomes rule e₃)
    (he : SameNames h ctx limit e₁ e₂) : SameNames h ctx limit e₁ e₃ := by
  obtain rfl | hstep := hbecomes
  · exact he
  · have hstep' := hrule _ _ hstep
    exact ⟨fun depth => (he.identifiers depth).trans (hstep'.identifiers depth),
      he.name.trans hstep'.name⟩

end SameNames

section

variable {h : Host σ} {ctx : Context} {limit : Nat} {rule : Expr → Expr → Prop}

/-- A call of the lookup function depends on the value of its first argument
only. -/
theorem lookedUp_eq_of_replacesEach
    (hvalue : ∀ e e', e.Replaces rule e' →
      evaluate h ctx defaultEvalDepth e = evaluate h ctx defaultEvalDepth e') {es es' : List Expr}
    (hes : Expr.ReplacesEach rule es es') :
    lookedUp (h := h) ctx es = lookedUp ctx es' := by
  cases es with
  | nil => rw [show es' = [] from hes]
  | cons e es =>
      obtain ⟨e', rest, he, -, rfl⟩ := hes
      rw [lookedUp, lookedUp, hvalue e e' he]

mutual

/-- Nodes that are replaced by others with the same names and the same values
leave the names of the tree as they are. -/
theorem sameNames_of_replaces
    (hvalue : ∀ e e', e.Replaces rule e' →
      evaluate h ctx defaultEvalDepth e = evaluate h ctx defaultEvalDepth e')
    (hrule : ∀ e e', rule e e' → SameNames h ctx limit e e') :
    (e : Expr) → {e' : Expr} → e.Replaces rule e' → SameNames h ctx limit e e'
  | .literal _, _, h => .of_becomes hrule h (.refl _)
  | .identifier _, _, h => .of_becomes hrule h (.refl _)
  | .this, _, h => .of_becomes hrule h (.refl _)
  | .unknown, _, h => .of_becomes hrule h (.refl _)
  -- As with the evaluation, part by part and then the node. Only a call also asks for a value.
  | .array elements, _, ⟨elements', helements, h⟩ => by
      have heach := sameNames_of_replacesEach hvalue hrule elements helements
      refine .of_becomes hrule h ⟨fun depth => ?_, rfl⟩
      rw [identifiersAt, identifiersAt, heach]
  | .unary _ argument, _, ⟨argument', hargument, h⟩ => by
      have hargument' := sameNames_of_replaces hvalue hrule argument hargument
      refine .of_becomes hrule h ⟨fun depth => ?_, rfl⟩
      rw [identifiersAt, identifiersAt, hargument'.identifiers]
  | .binary _ left right, _, ⟨left', right', hleft, hright, h⟩ => by
      have hleft' := sameNames_of_replaces hvalue hrule left hleft
      have hright' := sameNames_of_replaces hvalue hrule right hright
      refine .of_becomes hrule h ⟨fun depth => ?_, rfl⟩
      rw [identifiersAt, identifiersAt, hleft'.identifiers, hright'.identifiers]
  | .logical _ left right, _, ⟨left', right', hleft, hright, h⟩ => by
      have hleft' := sameNames_of_replaces hvalue hrule left hleft
      have hright' := sameNames_of_replaces hvalue hrule right hright
      refine .of_becomes hrule h ⟨fun depth => ?_, rfl⟩
      rw [identifiersAt, identifiersAt, hleft'.identifiers, hright'.identifiers]
  | .conditional _ consequent alternate, _,
      ⟨test', consequent', alternate', _, hconsequent, halternate, h⟩ => by
      have hconsequent' := sameNames_of_replaces hvalue hrule consequent hconsequent
      have halternate' := sameNames_of_replaces hvalue hrule alternate halternate
      refine .of_becomes hrule h ⟨fun depth => ?_, rfl⟩
      rw [identifiersAt, identifiersAt, hconsequent'.identifiers, halternate'.identifiers]
  | .member object property computed, _, ⟨object', property', hobject, hproperty, h⟩ => by
      have hobject' := sameNames_of_replaces hvalue hrule object hobject
      have hproperty' := sameNames_of_replaces hvalue hrule property hproperty
      refine .of_becomes hrule h ⟨fun depth => ?_, rfl⟩
      rw [identifiersAt, identifiersAt, hobject'.identifiers, hproperty'.identifiers]
  | .call callee arguments, _, ⟨callee', arguments', hcallee, harguments, h⟩ => by
      have hcallee' := sameNames_of_replaces hvalue hrule callee hcallee
      have heach := sameNames_of_replacesEach hvalue hrule arguments harguments
      refine .of_becomes hrule h ⟨fun depth => ?_, rfl⟩
      rw [identifiersAt, identifiersAt, heach, lookedUp_eq_of_replacesEach hvalue harguments,
        hcallee'.isLookup_eq, hcallee'.isName_eq, hcallee'.identifiers]

/-- Trees of a list that are replaced one by one. -/
theorem sameNames_of_replacesEach
    (hvalue : ∀ e e', e.Replaces rule e' →
      evaluate h ctx defaultEvalDepth e = evaluate h ctx defaultEvalDepth e')
    (hrule : ∀ e e', rule e e' → SameNames h ctx limit e e') :
    (es : List Expr) → {es' : List Expr} → Expr.ReplacesEach rule es es' →
    ∀ depth, identifiersOfEach (h := h) ctx limit depth es = identifiersOfEach ctx limit depth es'
  | [], _, h => fun _ => by rw [h]
  | e :: es, _, ⟨e', rest, he, hes, h⟩ => fun depth => by
      rw [h, identifiersOfEach, identifiersOfEach,
        (sameNames_of_replaces hvalue hrule e he).identifiers,
        sameNames_of_replacesEach hvalue hrule es hes]

end

end

end

/-! ### Members by a text -/

/-- A static member, and the computed one whose property is its name as a
text. -/
inductive Expr.FieldAsIndex : Expr → Expr → Prop
  | intro (object : Expr) (name : String) :
    FieldAsIndex (object.field name) (object.index (.literal (.string name)))

/-- A text as the key reads the property of that name: if it is the numeral of
an element, the element is found either way. -/
theorem Value.getKey?_string (receiver : Value) (name : String) :
    receiver.getKey? (.string name) = receiver.getNamed? name := by
  have hkey : (Value.string name).propertyKey = name := rfl
  cases receiver with
  | array identity elements =>
      simp only [Value.getKey?, Value.indexOfKey?, Value.getNamed?, hkey]
      cases hindex : indexOfName? name with
      | none => rfl
      | some i =>
          -- The numeral of an element is not the name of the length.
          have hlength : indexOfName? "length" = none := by decide
          have hname : name ≠ "length" := fun heq => by
            rw [heq, hlength] at hindex
            cases hindex
          rw [if_neg hname]
  | _ => rfl

namespace Walk

variable {M : Type → Type} [Monad M] {W : Walk M} {ctx : Context} {limit : Nat}

/-- Once a node has a value, a node at the same depth is not refused. -/
def KeepsDepth (W : Walk M) (ctx : Context) (limit : Nat) : Prop :=
  ∀ (e : Expr) (depth : Nat) {α : Type} (a : Value) (k : Value → Value → M α),
    (W.eval ctx limit depth e >>= fun value => W.within limit depth (pure a) >>= k value)
      = W.eval ctx limit depth e >>= fun value => k value a

/-- A constant key is evaluated without being noticed, and reads the property
of its name. -/
theorem Same.of_fieldAsIndex (hW : W.KeepsDepth ctx limit) {e e' : Expr}
    (hrule : e.FieldAsIndex e') : W.Same ctx limit e e' := by
  obtain ⟨object, name⟩ := hrule
  have htarget : ∀ depth, W.target ctx limit depth (object.field name)
      = W.target ctx limit depth (object.index (.literal (.string name))) := by
    intro depth
    show (W.eval ctx limit depth object >>= fun receiver =>
        W.ofExcept (receiver.getNamed? name) >>= fun value => pure (receiver, value))
      = W.eval ctx limit depth object >>= fun receiver =>
        W.within limit depth (pure (.string name)) >>= fun key =>
          W.ofExcept (receiver.getKey? key) >>= fun value => pure (receiver, value)
    -- The index is a literal, whose level is within the limit whenever that of the object is.
    rw [hW]
    simp only [Value.getKey?_string]
  refine ⟨fun depth => ?_, htarget, fun computed => by cases computed <;> rfl⟩
  exact congrArg (fun p => W.within limit depth (do let x ← p; return x.2)) (htarget (depth + 1))

end Walk

section

variable {σ : Type} (h : Host σ) (ctx : Context) (limit : Nat)

/-- With a value the evaluator is back at its depth, which was below the
limit. -/
theorem Evaluator.walk_keepsDepth : (Evaluator.walk h).KeepsDepth ctx limit := by
  intro e depth α a k
  obtain ⟨body, hbody⟩ := (Evaluator.walk h).eval_eq_within ctx limit depth e
  have hsame := Evaluator.eval_eq_walk (h := h) ctx limit e depth
  funext ⟨d, w⟩
  obtain ⟨outcome, w', hrun, -⟩ := eval_agrees (h := h) ctx limit e d w
  rw [hsame] at hrun
  show Evaluator.andThen _ _ _ = Evaluator.andThen _ _ _
  simp only [Evaluator.andThen, hrun]
  -- Behind an evaluation the depth is as before, so a further level is entered if the first one
  -- was.
  by_cases hlt : d < limit
  · cases outcome with
    | error halt => rfl
    | ok value =>
        have hlevel : (Evaluator.walk h).within limit depth (pure a) ⟨d, w'⟩
            = (.ok a, ⟨d, w'⟩) := if_pos hlt
        show Evaluator.andThen _ _ _ = _
        simp only [Evaluator.andThen, hlevel]
  · have hrefused : (Evaluator.walk h).eval ctx limit depth e ⟨d, w⟩
        = (.error (.failed (.stackOverflow d limit)), ⟨d, w⟩) := by
      rw [hbody]
      exact if_neg hlt
    rw [hrefused] at hrun
    cases hrun
    rfl

/-- In rounds the depth is handed down, and so the same. -/
theorem Rounds.walk_keepsDepth : (Rounds.walk h).KeepsDepth ctx limit := by
  intro e depth α a k
  obtain ⟨body, hbody⟩ := (Rounds.walk h).eval_eq_within ctx limit depth e
  by_cases hlt : depth < limit
  · have hlevel : (Rounds.walk h).within limit depth (pure a) = pure a := if_pos hlt
    rw [hlevel]
    rfl
  · have hrefused : (Rounds.walk h).eval ctx limit depth e
        = Rounds.fail (.stackOverflow depth limit) := hbody.trans (if_neg hlt)
    rw [hrefused]
    rfl

/-- Every tree is one level of the walk for names. -/
theorem identifiersAt_eq_whileWithin (depth : Nat) (e : Expr) :
    ∃ body, identifiersAt (h := h) ctx limit depth e = whileWithin limit depth body := by
  cases e <;> exact ⟨_, rfl⟩

/-- The text is visited where the name is not, and has no names. -/
theorem SameNames.of_fieldAsIndex {e e' : Expr} (hrule : e.FieldAsIndex e') :
    SameNames h ctx limit e e' := by
  obtain ⟨object, name⟩ := hrule
  refine ⟨fun depth => ?_, rfl⟩
  obtain ⟨body, hbody⟩ := identifiersAt_eq_whileWithin h ctx limit (depth + 1) object
  show whileWithin limit depth (identifiersAt ctx limit (depth + 1) object >>= pure)
    = whileWithin limit depth (identifiersAt ctx limit (depth + 1) object >>= fun names =>
      whileWithin limit (depth + 1) (pure []) >>= fun more => pure (names ++ more))
  refine congrArg (whileWithin limit depth) (funext fun w => ?_)
  show Immediate.andThen _ _ _ = Immediate.andThen _ _ _
  -- The literal adds a level with no names in it, which is within the limit if that of the
  -- object is.
  by_cases hlt : depth + 1 < limit
  · have htext : (whileWithin limit (depth + 1) (pure []) : Immediate h (List String)) = pure [] :=
      funext fun w => if_pos hlt
    rw [htext]
    simp only [Immediate.andThen]
    rcases identifiersAt ctx limit (depth + 1) object w with ⟨error | names, w'⟩
    · rfl
    · show (Except.ok names, w') = (Except.ok (names ++ []), w')
      rw [List.append_nil]
  · have hrefused : identifiersAt (h := h) ctx limit (depth + 1) object w
        = (.error (.stackOverflow (depth + 1) limit), w) := by
      rw [hbody]
      exact if_neg hlt
    simp only [Immediate.andThen, hrefused]

end

/-- Where static members are written as computed ones, wherever in a tree and
however many, nothing else changes: both evaluations of the tree, and of it
as a member expression, do the same in every world, and so does the walk
over its names. -/
theorem evaluations_eq_of_fieldAsIndex {σ : Type} (h : Host σ) (ctx : Context) (limit : Nat)
    {e e' : Expr} (he : e.Replaces Expr.FieldAsIndex e') :
    evaluate h ctx limit e = evaluate h ctx limit e' ∧
    evaluateInRounds h ctx limit e = evaluateInRounds h ctx limit e' ∧
    evaluateMember h ctx limit e = evaluateMember h ctx limit e' ∧
    evaluateMemberInRounds h ctx limit e = evaluateMemberInRounds h ctx limit e' ∧
    readIdentifiers h ctx e = readIdentifiers h ctx e' := by
  -- Both limits are needed, since the walk for names evaluates under its own.
  have hat (limit : Nat) (e e' : Expr) (he : e.Replaces Expr.FieldAsIndex e') :
      (Evaluator.walk h).Same ctx limit e e' :=
    Walk.same_of_replaces
      (fun _ _ => Walk.Same.of_fieldAsIndex (Evaluator.walk_keepsDepth h ctx limit)) e he
  have hrounds : (Rounds.walk h).Same ctx limit e e' :=
    Walk.same_of_replaces
      (fun _ _ => Walk.Same.of_fieldAsIndex (Rounds.walk_keepsDepth h ctx limit)) e he
  have hvalue (limit : Nat) (e e' : Expr) (he : e.Replaces Expr.FieldAsIndex e') :
      evaluate h ctx limit e = evaluate h ctx limit e' := by
    unfold evaluate
    rw [Evaluator.eval_eq_walk ctx limit e 0, Evaluator.eval_eq_walk ctx limit e' 0,
      (hat limit e e' he).eval]
  refine ⟨hvalue limit e e' he, ?_, ?_, ?_, ?_⟩
  · unfold evaluateInRounds
    rw [Rounds.eval_eq_walk, Rounds.eval_eq_walk, hrounds.eval]
  · unfold evaluateMember
    rw [Evaluator.evalMember_eq_walk, Evaluator.evalMember_eq_walk, Walk.evalMember_eq_target,
      Walk.evalMember_eq_target, (hat limit e e' he).target]
  · unfold evaluateMemberInRounds
    rw [Rounds.evalMember_eq_walk, Rounds.evalMember_eq_walk, Walk.evalMember_eq_target,
      Walk.evalMember_eq_target, hrounds.target]
  · exact (sameNames_of_replaces (hvalue defaultEvalDepth)
      (fun _ _ => SameNames.of_fieldAsIndex h ctx defaultEvalDepth) e he).identifiers 0

/-- A method is called with its receiver, and then a property of null is read:
with the names as texts the call has the same receiver, and the error names
the same property. -/
theorem evaluations_eq_of_fieldAsIndex_method :
    let h := Registry.host #[⟨"tick", .counter, 0, false⟩]
    let ctx : Context := ⟨⟨0, [("tick", .function ⟨0, false⟩)]⟩, none⟩
    let e : Expr := .array [.call (.field .this "tick") [], .field (.literal .null) "x"]
    let e' : Expr := .array [.call (.index .this (.literal (.string "tick"))) [],
      .index (.literal .null) (.literal (.string "x"))]
    e.Replaces Expr.FieldAsIndex e' ∧ evaluate h ctx 3 e = evaluate h ctx 3 e' ∧
    evaluate h ctx 3 e' ⟨⟨1, []⟩, #[]⟩
      = (.error (.nullishProperty "x" "null"),
        ⟨⟨1, [(0, 1)]⟩, #[.called ⟨0, false⟩ ctx.thisValue []]⟩) := by
  intro h ctx e e'
  -- One replacement is in a callee, where the receiver has to stay the same, and one on null,
  -- where the error has to.
  have htick : (Expr.call (.field .this "tick") []).Replaces Expr.FieldAsIndex
      (.call (.index .this (.literal (.string "tick"))) []) :=
    ⟨_, _, ⟨_, _, .inl rfl, .inl rfl, .inr ⟨.this, "tick"⟩⟩, rfl, .inl rfl⟩
  have hnull : (Expr.field (.literal .null) "x").Replaces Expr.FieldAsIndex
      (.index (.literal .null) (.literal (.string "x"))) :=
    ⟨_, _, .inl rfl, .inl rfl, .inr ⟨.literal .null, "x"⟩⟩
  have he : e.Replaces Expr.FieldAsIndex e' :=
    ⟨_, ⟨_, _, htick, ⟨_, _, hnull, rfl, rfl⟩, rfl⟩, .inl rfl⟩
  exact ⟨he, (evaluations_eq_of_fieldAsIndex h ctx 3 he).1, rfl⟩

end Formula
