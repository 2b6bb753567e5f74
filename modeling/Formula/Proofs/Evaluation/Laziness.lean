import Mathlib.Data.List.Forall2
import Formula.Proofs.Evaluation.Replacement
import Formula.Proofs.Evaluation.Schedule

/-!
# `Formula.Proofs.Evaluation.Laziness`: operands that are spared

`&&` and `||` look at their left operand before they evaluate the right one.
As binary operators they evaluate both and give one of the two. If both can
be evaluated, and the host is pure, that is the only difference: the lazy
tree comes to a like value, and it makes some of the calls of the strict one,
in the same order.

* `Expr.LogicalAsBinary`: a lazy node, and the strict one of the same
  operator.
* `Evaluator.Spares`: an evaluator spares the work of another. Whenever the
  other has a value it has a like one, after some of the calls of the other.
  Each way of putting evaluations together keeps it, and so does leaving out
  what the other evaluates in vain (`Spares.skip`).
* `spares_of_replaces`: a tree spares the work of the tree with strict nodes
  in place of lazy ones.
* `evaluate_of_logicalAsBinary`: the same for whole evaluations.
-/

set_option autoImplicit false

namespace Formula

variable {σ α α' β β' : Type} {h : Host σ}

/-- A node that may leave its right operand alone, and the one with the same
operator that does not. -/
inductive Expr.LogicalAsBinary : Expr → Expr → Prop
  | intro {operator : String} (hoperator : operator = "&&" ∨ operator = "||")
    (left right : Expr) :
    LogicalAsBinary (.logical operator left right) (.binary operator left right)

/-- Other nodes stay as they are. -/
theorem Expr.Becomes.eq_of_ne_logical {e e' : Expr} (hr : e.Becomes Expr.LogicalAsBinary e')
    (he : ∀ operator left right, e ≠ .logical operator left right) : e' = e := by
  obtain rfl | hstep := hr
  · rfl
  · cases hstep with
    | intro _ left right => exact absurd rfl (he _ left right)

/-! ### Calls in order -/

/-- The event that a call leaves in the log. -/
def Call.event (c : Call) : Event := .called c.function c.receiver c.arguments

/-- From the one world to the other functions were called, in this order, and
perhaps identities taken. -/
structure World.Calls (w : World σ) (calls : List Call) (w' : World σ) : Prop where
  le : w.nextIdentity ≤ w'.nextIdentity
  log : w'.log.toList = w.log.toList ++ calls.map Call.event

namespace World.Calls

/-- Nothing is called where nothing happens. -/
theorem refl (w : World σ) : w.Calls [] w := ⟨le_rfl, (List.append_nil _).symm⟩

/-- The calls of two steps are called one after the other. -/
theorem trans {w w₁ w₂ : World σ} {calls calls' : List Call} (h₁ : w.Calls calls w₁)
    (h₂ : w₁.Calls calls' w₂) : w.Calls (calls ++ calls') w₂ := by
  refine ⟨h₁.le.trans h₂.le, ?_⟩
  rw [h₂.log, h₁.log, List.map_append, List.append_assoc]

end World.Calls

section

variable {R R' : α → β → Prop} {as as' : List α} {bs bs' : List β}

/-- The relation may be weakened. -/
theorem sublistForall₂_imp (hR : ∀ a b, R a b → R' a b) (hab : List.SublistForall₂ R as bs) :
    List.SublistForall₂ R' as bs := by
  induction hab with
  | nil => exact .nil
  | cons hfirst _ ih => exact .cons (hR _ _ hfirst) ih
  | cons_right _ ih => exact .cons_right ih

/-- More may stand before in the longer list. -/
theorem sublistForall₂_append_right (bs : List β) (hab : List.SublistForall₂ R as bs') :
    List.SublistForall₂ R as (bs ++ bs') := by
  induction bs with
  | nil => exact hab
  | cons _ _ ih => exact .cons_right ih

/-- Two lists after each other, each within its own. -/
theorem sublistForall₂_append (hab : List.SublistForall₂ R as bs)
    (hab' : List.SublistForall₂ R as' bs') : List.SublistForall₂ R (as ++ as') (bs ++ bs') := by
  induction hab with
  | nil => exact sublistForall₂_append_right _ hab'
  | cons hfirst _ ih => exact .cons hfirst ih
  | cons_right _ ih => exact .cons_right ih

end

/-! ### Evaluators that spare work -/

/-- An evaluator comes back to its depth with a value, after some calls. -/
structure Evaluator.Yields (p : Evaluator h α) (depth : Nat) (w : World σ) (a : α)
    (calls : List Call) (w' : World σ) : Prop where
  eq : p ⟨depth, w⟩ = (.ok a, ⟨depth, w'⟩)
  calls : w.Calls calls w'

/-- Like results, and calls that are like some of the other calls in order,
through a larger renaming. -/
structure SparedThrough (R : Renaming → α → α' → Prop) (ρ : Renaming) (w w' : World σ)
    (a : α) (a' : α') (calls calls' : List Call) (ρ' : Renaming) : Prop where
  le : ρ ≤ ρ'
  oneToOne : ρ'.OneToOne
  within : ρ'.Within (Set.Iio w.nextIdentity) (Set.Iio w'.nextIdentity)
  result : R ρ' a a'
  calls : List.SublistForall₂ (Call.Alike id ρ') calls calls'

/-- Receivers and values that are alike. -/
def TargetsAlike (ρ : Renaming) (x x' : Value × Value) : Prop :=
  x.1.Alike id ρ x'.1 ∧ x.2.Alike id ρ x'.2

/-- Like targets stay so under a larger renaming. -/
theorem TargetsAlike.monotone : Monotone TargetsAlike :=
  fun _ _ hρ _ _ hx => ⟨Value.Alike.mono hρ _ _ hx.1, Value.Alike.mono hρ _ _ hx.2⟩

/-- The first evaluator spares the work of the second: begun with worlds whose
identities stand for each other, it has a value if the other has one. -/
def Evaluator.Spares (depth : Nat) (ρ₀ : Renaming) (R : Renaming → α → α' → Prop)
    (p : Evaluator h α) (p' : Evaluator h α') : Prop :=
  ∀ ⦃ρ : Renaming⦄, ρ₀ ≤ ρ → ρ.OneToOne → ∀ w w' : World σ,
    ρ.Within (Set.Iio w.nextIdentity) (Set.Iio w'.nextIdentity) →
    ∀ (a' : α') (s' : Evaluator.State σ), p' ⟨depth, w'⟩ = (.ok a', s') →
    ∃ a calls w₁ calls' w₁' ρ', p.Yields depth w a calls w₁ ∧ p'.Yields depth w' a' calls' w₁' ∧
      SparedThrough R ρ w₁ w₁' a a' calls calls' ρ'

namespace Evaluator.Yields

variable {p : Evaluator h α} {depth : Nat} {w w₁ w₂ : World σ} {a : α} {calls calls' : List Call}

/-- A value by itself calls nothing. -/
theorem pure (a : α) (w : World σ) : (Pure.pure a : Evaluator h α).Yields depth w a [] w :=
  ⟨rfl, .refl w⟩

/-- Two evaluators in a row make the calls of both. -/
theorem bind {k : α → Evaluator h β} {b : β} (hp : p.Yields depth w a calls w₁)
    (hk : (k a).Yields depth w₁ b calls' w₂) :
    (p >>= k).Yields depth w b (calls ++ calls') w₂ := by
  refine ⟨?_, hp.calls.trans hk.calls⟩
  show Evaluator.andThen p k ⟨depth, w⟩ = _
  rw [Evaluator.andThen, hp.eq]
  exact hk.eq

/-- A level that is entered is left again. -/
theorem within {limit : Nat} (hdepth : depth < limit) (hp : p.Yields (depth + 1) w a calls w₁) :
    (Evaluator.within limit p).Yields depth w a calls w₁ := by
  refine ⟨?_, hp.calls⟩
  simp only [Evaluator.within, hdepth, if_true, hp.eq, Nat.add_sub_cancel]

end Evaluator.Yields

/-- A value of two evaluators, one after the other, is a value of each. -/
theorem Evaluator.exists_ok_of_bind {p : Evaluator h α} {k : α → Evaluator h β}
    {s s₂ : Evaluator.State σ} {b : β} (hrun : (p >>= k) s = (.ok b, s₂)) :
    ∃ a s₁, p s = (.ok a, s₁) ∧ k a s₁ = (.ok b, s₂) := by
  change Evaluator.andThen p k s = _ at hrun
  rcases hp : p s with ⟨halt | a, s₁⟩
  · rw [Evaluator.andThen, hp] at hrun
    cases hrun
  · rw [Evaluator.andThen, hp] at hrun
    exact ⟨a, s₁, rfl, hrun⟩

/-- Making of a value the value itself changes nothing. -/
theorem Evaluator.id_map (p : Evaluator h α) : id <$> p = p := by
  funext s
  show Evaluator.andThen p _ s = p s
  unfold Evaluator.andThen
  rcases p s with ⟨halt | a, s₁⟩ <;> rfl

namespace Evaluator.Spares

variable {depth : Nat} {ρ₀ ρ₁ : Renaming} {R : Renaming → α → α' → Prop}
  {R' : Renaming → β → β' → Prop}

/-- A larger renaming to begin with will do as well. -/
theorem mono {p : Evaluator h α} {p' : Evaluator h α'} (hρ : ρ₀ ≤ ρ₁)
    (hp : Spares depth ρ₀ R p p') : Spares depth ρ₁ R p p' :=
  fun _ hle => hp (hρ.trans hle)

/-- Two like values, and no calls. -/
theorem pure {a : α} {a' : α'} (ha : ∀ ρ, ρ₀ ≤ ρ → ρ.OneToOne → R ρ a a') :
    Spares depth ρ₀ R (Pure.pure a : Evaluator h α) (Pure.pure a' : Evaluator h α') := by
  intro ρ hle hρ w w' hwithin b' s' hrun
  cases hrun
  exact ⟨a, [], w, [], w', ρ, .pure a w, .pure a' w', le_rfl, hρ, hwithin, ha ρ hle hρ, .nil⟩

/-- A value that is there already, or none. -/
theorem ofExcept {outcome : Except EvalError α} {outcome' : Except EvalError α'}
    (hsame : ∀ ρ, ρ₀ ≤ ρ → ρ.OneToOne → SameOutcome (R ρ) outcome outcome') :
    Spares depth ρ₀ R (.ofExcept outcome : Evaluator h α) (.ofExcept outcome') := by
  intro ρ hle hρ w w' hwithin b' s' hrun
  have hout := hsame ρ hle hρ
  cases outcome' with
  | error e => cases hrun
  | ok a' =>
      cases outcome with
      | error e => exact hout.elim
      | ok a =>
          cases hrun
          exact ⟨a, [], w, [], w', ρ, .pure a w, .pure b' w', le_rfl, hρ, hwithin, hout, .nil⟩

/-- The same outcome of both. -/
theorem same (outcome : Except EvalError α) :
    Spares depth ρ₀ (fun _ => Eq) (.ofExcept outcome : Evaluator h α) (.ofExcept outcome) :=
  ofExcept fun _ _ _ => by cases outcome <;> trivial

/-- The identities that both take next stand for each other from now on. -/
theorem fresh :
    Spares depth ρ₀ (fun ρ => ρ) (.fresh : Evaluator h Nat) (.fresh : Evaluator h Nat) := by
  intro ρ hle hρ w w' hwithin b' s' hrun
  cases hrun
  have hlt : w.nextIdentity < w.fresh.2.nextIdentity := Nat.lt_succ_self _
  have hlt' : w'.nextIdentity < w'.fresh.2.nextIdentity := Nat.lt_succ_self _
  have hnew := Renaming.Extends.fresh hρ hwithin hlt hlt'
  refine ⟨w.fresh.1, [], w.fresh.2, [], w'.fresh.2, _, ⟨rfl, hlt.le, (List.append_nil _).symm⟩,
    ⟨rfl, hlt'.le, (List.append_nil _).symm⟩, hnew.le, hnew.oneToOne, ?_, .inr ⟨rfl, rfl⟩, .nil⟩
  exact hnew.within hwithin hlt.le hlt'.le (fun _ hi => hi.2) fun _ hi => hi.2

/-- One evaluation after the other. -/
theorem bind {p : Evaluator h α} {p' : Evaluator h α'} {k : α → Evaluator h β}
    {k' : α' → Evaluator h β'} (hp : Spares depth ρ₀ R p p')
    (hk : ∀ ρ, ρ₀ ≤ ρ → ρ.OneToOne → ∀ a a', R ρ a a' → Spares depth ρ R' (k a) (k' a')) :
    Spares depth ρ₀ R' (p >>= k) (p' >>= k') := by
  intro ρ hle hρ w w' hwithin b' s' hrun
  obtain ⟨a', s₁', hrun₁, hrun₂⟩ := exists_ok_of_bind hrun
  obtain ⟨a, calls, w₁, calls', w₁', ρ₁, hy, hy', h₁⟩ := hp hle hρ w w' hwithin a' s₁' hrun₁
  obtain rfl : s₁' = ⟨depth, w₁'⟩ := (Prod.mk.inj (hrun₁.symm.trans hy'.eq)).2
  -- The second parts begin with all the identities that stand for each other by then.
  obtain ⟨b, more, w₂, more', w₂', ρ₂, hz, hz', h₂⟩ := hk ρ₁ (hle.trans h₁.le) h₁.oneToOne a a'
    h₁.result le_rfl h₁.oneToOne w₁ w₁' h₁.within b' s' hrun₂
  refine ⟨b, calls ++ more, w₂, calls' ++ more', w₂', ρ₂, hy.bind hz, hy'.bind hz',
    h₁.le.trans h₂.le, h₂.oneToOne, h₂.within, h₂.result, ?_⟩
  exact sublistForall₂_append (sublistForall₂_imp (fun _ _ hc => hc.mono h₂.le) h₁.calls) h₂.calls

/-- What is made of like values is alike again. -/
theorem map {p : Evaluator h α} {p' : Evaluator h α'} {f : α → β} {f' : α' → β'}
    (hp : Spares depth ρ₀ R p p') (hR : Monotone R)
    (hf : ∀ ρ, ρ₀ ≤ ρ → ρ.OneToOne → ∀ a a', R ρ a a' → R' ρ (f a) (f' a')) :
    Spares depth ρ₀ R' (f <$> p) (f' <$> p') :=
  hp.bind fun _ hle _ a a' ha => pure fun ρ' hle' hρ' =>
    hf ρ' (hle.trans hle') hρ' a a' (hR hle' a a' ha)

/-- What is evaluated in vain is left out. Its calls are among those of the
other evaluator only. -/
theorem skip {q : Evaluator h β} {q' : Evaluator h β'} {a : α} {f' : β' → α'}
    (hq : Spares depth ρ₀ R' q q') (ha : ∀ ρ, ρ₀ ≤ ρ → ∀ b', R ρ a (f' b')) :
    Spares depth ρ₀ R (Pure.pure a) (f' <$> q') := by
  intro ρ hle hρ w w' hwithin a' s' hrun
  obtain ⟨b', s₁', hrun₁, hrun₂⟩ := exists_ok_of_bind hrun
  -- What `q` would do is of no interest, only what `q'` has done.
  obtain ⟨-, -, -, calls', w₁', -, -, hy', -⟩ := hq hle hρ w w' hwithin b' s₁' hrun₁
  cases hrun₂
  refine ⟨a, [], w, calls' ++ [], w₁', ρ, .pure a w, hy'.bind (.pure (f' b') w₁'), le_rfl, hρ, ?_,
    ha ρ hle b', .nil⟩
  exact fun i j hij => ⟨(hwithin hij).1, (hwithin hij).2.trans_le hy'.calls.le⟩

/-- A level of nesting. -/
theorem within {limit : Nat} {p : Evaluator h α} {p' : Evaluator h α'}
    (hp : Spares (depth + 1) ρ₀ R p p') :
    Spares depth ρ₀ R (.within limit p) (.within limit p') := by
  intro ρ hle hρ w w' hwithin a' s' hrun
  by_cases hdepth : depth < limit
  · rcases hbody : p' ⟨depth + 1, w'⟩ with ⟨outcome', s₁'⟩
    simp only [Evaluator.within, hdepth, if_true, hbody] at hrun
    obtain ⟨rfl, -⟩ := Prod.mk.inj hrun
    obtain ⟨a, calls, w₁, calls', w₁', ρ', hy, hy', hthrough⟩ :=
      hp hle hρ w w' hwithin a' s₁' hbody
    exact ⟨a, calls, w₁, calls', w₁', ρ', hy.within hdepth, hy'.within hdepth, hthrough⟩
  · rw [Evaluator.within, if_neg hdepth] at hrun
    cases hrun

section

variable {floor : Identity} (hh : h.Pure floor)

include hh in
/-- A call that both make. -/
theorem invoke (hfloor : Renaming.below floor ≤ ρ₀) (f : HostFunction)
    {receiver receiver' : Value} {arguments arguments' : List Value}
    (hreceiver : receiver.Alike id ρ₀ receiver')
    (harguments : Value.AlikeEach id ρ₀ arguments arguments') :
    Spares depth ρ₀ (Value.Alike id) (.invoke f receiver arguments : Evaluator h Value)
      (.invoke f receiver' arguments') := by
  intro ρ hle hρ w w' hwithin a' s' hrun
  have hreceiver₁ := Value.Alike.mono hle _ _ hreceiver
  have harguments₁ := Value.AlikeEach.mono hle _ _ harguments
  obtain ⟨-, hgrows, hgrows', hsame⟩ := hh f receiver receiver' arguments arguments' w.toStore
    w'.toStore hρ (hfloor.trans hle) hwithin hreceiver₁ harguments₁
  cases hasync : f.isAsync with
  | true =>
      rw [Evaluator.invoke, if_pos hasync] at hrun
      cases hrun
  | false =>
      rcases hr : h.respond f receiver arguments w.toStore with ⟨answer, s₁⟩
      rcases hr' : h.respond f receiver' arguments' w'.toStore with ⟨answer', s₁'⟩
      simp only [id, hr, hr'] at hgrows hgrows' hsame
      have hcomes : (Evaluator.invoke f receiver arguments : Evaluator h Value) ⟨depth, w⟩ = _ :=
        (Evaluator.Comes.invoke hasync hr hgrows).eq
      have hcomes' :
          (Evaluator.invoke f receiver' arguments' : Evaluator h Value) ⟨depth, w'⟩ = _ :=
        (Evaluator.Comes.invoke hasync hr' hgrows').eq
      -- The strict call has come to a value, so that its answer was one.
      obtain ⟨houtcome, -⟩ := Prod.mk.inj (hcomes'.symm.trans hrun)
      cases answer' with
      | error e => cases houtcome
      | ok b' =>
          obtain rfl : b' = a' := Except.ok.inj houtcome
          cases answer with
          | error e => exact hsame.elim
          | ok a =>
              obtain ⟨ρ', hextends, ha⟩ := hsame
              refine ⟨a, [⟨f, receiver, arguments⟩], _, [⟨f, receiver', arguments'⟩], _, ρ',
                ⟨hcomes, hgrows, Array.toList_push⟩, ⟨hcomes', hgrows', Array.toList_push⟩,
                hextends.le, hextends.oneToOne, ?_, ha, .cons ?_ .nil⟩
              · exact hextends.within hwithin hgrows hgrows' (fun _ hi => hi.2) fun _ hi => hi.2
              · exact Call.Alike.mono hextends.le ⟨rfl, hreceiver₁, harguments₁⟩

include hh in
/-- A name of the scope, or a call of the resolver. -/
theorem lookup (hfloor : Renaming.below floor ≤ ρ₀) {ctx : Context} (hctx : ctx.Below floor)
    (name : String) :
    Spares depth ρ₀ (Value.Alike id) (.lookup ctx name : Evaluator h Value)
      (.lookup ctx name) := by
  have hthis : ctx.thisValue.Alike id ρ₀ ctx.thisValue := Value.Alike.mono hfloor _ _ hctx
  have hown : Option.Rel (Value.Alike id ρ₀) (ctx.getOwn? name) (ctx.getOwn? name) :=
    Value.AlikeProperties.get? _ _ hthis.2 name
  unfold Evaluator.lookup
  -- The name is in the context, or the resolver is asked, or there is none. The context is below
  -- the floor and so like itself.
  cases hvalue : ctx.getOwn? name with
  | some value =>
      rw [hvalue] at hown
      cases hown with
      | some ha => exact pure fun _ hle _ => Value.Alike.mono hle _ _ ha
  | none =>
      cases ctx.resolver with
      | none => exact pure fun _ _ _ => Value.alike_undefined.2 rfl
      | some f =>
          have hname : Value.AlikeEach id ρ₀ [.string name] [.string name] :=
            Value.alikeEach_cons.2 ⟨_, _, rfl, Value.alike_string.2 rfl, Value.alikeEach_nil.2 rfl⟩
          exact invoke hh hfloor f hthis hname

include hh in
/-- A call spares what its target and its arguments spare. -/
theorem callWith (hfloor : Renaming.below floor ≤ ρ₀) {target target' : Evaluator h (Value × Value)}
    {arguments arguments' : Evaluator h (List Value)}
    (htarget : Spares depth ρ₀ TargetsAlike
      target target')
    (harguments : Spares depth ρ₀ (Value.AlikeEach id) arguments arguments') :
    Spares depth ρ₀ (Value.Alike id) (.callWith target arguments)
      (.callWith target' arguments') := by
  refine htarget.bind fun ρ hle _ ⟨receiver, callee⟩ ⟨receiver', callee'⟩ hx => ?_
  refine (harguments.mono hle).bind fun ρ' hle' _ as as' has => ?_
  have hreceiver := Value.Alike.mono hle' _ _ hx.1
  -- Only a function is called, and the same one on both sides. Anything else gives the undefined
  -- value.
  cases hx.2.shape with
  | function hf =>
      subst hf
      exact invoke hh ((hfloor.trans hle).trans hle') _ hreceiver has
  | primitive hcompound =>
      cases callee with
      | function f => cases hcompound
      | _ => exact pure fun _ _ _ => Value.alike_undefined.2 rfl
  | array _ _ => exact pure fun _ _ _ => Value.alike_undefined.2 rfl
  | object _ _ => exact pure fun _ _ _ => Value.alike_undefined.2 rfl

end

/-- An operator spares what its operands spare. -/
theorem operation (operator : String) {left right left' right' : Evaluator h Value}
    (hleft : Spares depth ρ₀ (Value.Alike id) left left')
    (hright : Spares depth ρ₀ (Value.Alike id) right right') :
    Spares depth ρ₀ (Value.Alike id) (.operation operator left right)
      (.operation operator left' right') := by
  refine (same (binaryOperator operator)).bind fun ρ hle _ o o' ho => ?_
  subst ho
  refine (hleft.mono hle).bind fun ρ₁ hle₁ _ a a' ha => ?_
  refine (hright.mono (hle.trans hle₁)).bind fun ρ₂ hle₂ _ b b' hb => ?_
  exact pure fun ρ₃ hle₃ hρ₃ => .apply_binary o Function.injective_id hρ₃
    (Value.Alike.mono (hle₂.trans hle₃) _ _ ha) (Value.Alike.mono hle₃ _ _ hb)

/-- A member spares what its object and its property spare. -/
theorem memberOf {property property' : Expr} (computed : Bool)
    {object key object' key' : Evaluator h Value}
    (hname : property.staticName? computed = property'.staticName? computed)
    (hobject : Spares depth ρ₀ (Value.Alike id) object object')
    (hkey : Spares depth ρ₀ (Value.Alike id) key key') :
    Spares depth ρ₀ TargetsAlike
      (.memberOf object property computed key) (.memberOf object' property' computed key') := by
  have hpair {ρ : Renaming} {a a' b b' : Value} (ha : a.Alike id ρ a') (hb : b.Alike id ρ b') :
      Spares depth ρ TargetsAlike
        (Pure.pure (a, b) : Evaluator h (Value × Value)) (Pure.pure (a', b')) :=
    pure fun _ hle _ => TargetsAlike.monotone hle (a, b) (a', b') ⟨ha, hb⟩
  unfold Evaluator.memberOf
  rw [← hname]
  refine hobject.bind fun ρ hle _ a a' ha => ?_
  -- A key is evaluated only where the member is computed, in both alike.
  cases property.staticName? computed with
  | some name =>
      refine (ofExcept (R := Value.Alike id) fun ρ' hle' _ => ?_).bind ?_
      · exact (Value.Alike.mono hle' _ _ ha).getNamed? name
      · exact fun ρ' hle' _ b b' hb => hpair (Value.Alike.mono hle' _ _ ha) hb
  | none =>
      refine (hkey.mono hle).bind fun ρ' hle' _ k k' hk => ?_
      have ha' := Value.Alike.mono hle' _ _ ha
      refine (ofExcept (R := Value.Alike id) fun ρ'' hle'' _ => ?_).bind ?_
      · exact (Value.Alike.mono hle'' _ _ ha').getKey? (Value.Alike.mono hle'' _ _ hk)
      · exact fun ρ'' hle'' _ b b' hb => hpair (Value.Alike.mono hle'' _ _ ha') hb

/-- An operand that decides by its truth spares the other one. -/
theorem decided {decides : Bool} {operator : String} {o : BinaryOperator}
    (hoperator : binaryOperator operator = .ok o)
    (happly : ∀ a b, o.apply a b = if a.isTruthy = decides then a else b)
    {left right left' right' : Evaluator h Value}
    (hleft : Spares depth ρ₀ (Value.Alike id) left left')
    (hright : Spares depth ρ₀ (Value.Alike id) right right') :
    Spares depth ρ₀ (Value.Alike id)
      (left >>= fun a => if a.isTruthy = decides then Pure.pure a else right)
      (.operation operator left' right') := by
  -- The strict operator evaluates both sides and then chooses.
  have hstrict : Evaluator.operation operator left' right'
      = left' >>= fun a => o.apply a <$> right' := by
    unfold Evaluator.operation
    rw [hoperator]
    rfl
  rw [hstrict]
  refine hleft.bind fun ρ hle _ a a' ha => ?_
  rw [ha.isTruthy_eq]
  by_cases htruth : a'.isTruthy = decides
  · -- The left operand is the value of both, and the right one is evaluated in vain.
    rw [if_pos htruth]
    refine skip (hright.mono hle) fun ρ' hle' b' => ?_
    rw [happly, if_pos htruth]
    exact Value.Alike.mono hle' _ _ ha
  · -- The right operand is the value of both.
    have hsecond : o.apply a' = id := funext fun b => (happly a' b).trans (if_neg htruth)
    rw [if_neg htruth, hsecond, Evaluator.id_map]
    exact hright.mono hle

end Evaluator.Spares

/-! ### The walk -/

/-- A call goes on with the receiver and the value of what is called. -/
theorem Evaluator.eval_call (ctx : Context) (limit : Nat) (callee : Expr) (arguments : List Expr) :
    Evaluator.eval (h := h) ctx limit (.call callee arguments)
      = Evaluator.within limit (Evaluator.callWith (Evaluator.evalMember ctx limit callee)
          (Evaluator.evalEach ctx limit arguments)) := by
  cases callee <;> rfl

/-- A tree spares the work of another one, whether its value is asked for or
it is called, and the two are the same static name or none. -/
structure Expr.Spares (h : Host σ) (ctx : Context) (limit : Nat) (floor : Identity)
    (e e' : Expr) : Prop where
  eval : ∀ depth, Evaluator.Spares depth (Renaming.below floor) (Value.Alike id)
    (Evaluator.eval ctx limit e : Evaluator h Value) (Evaluator.eval ctx limit e')
  evalMember : ∀ depth, Evaluator.Spares depth (Renaming.below floor) TargetsAlike
    (Evaluator.evalMember ctx limit e : Evaluator h (Value × Value))
    (Evaluator.evalMember ctx limit e')
  staticName : ∀ computed, e.staticName? computed = e'.staticName? computed

section

variable {ctx : Context} {limit : Nat} {floor : Identity}

namespace Expr.Spares

/-- Of trees that are no members only the values are asked for. -/
theorem of_eval {e e' : Expr}
    (hmember : (Evaluator.evalMember ctx limit e : Evaluator h (Value × Value))
      = Prod.mk .undefined <$> Evaluator.eval ctx limit e)
    (hmember' : (Evaluator.evalMember ctx limit e' : Evaluator h (Value × Value))
      = Prod.mk .undefined <$> Evaluator.eval ctx limit e')
    (hname : ∀ computed, e.staticName? computed = e'.staticName? computed)
    (heval : ∀ depth, Evaluator.Spares depth (Renaming.below floor) (Value.Alike id)
      (Evaluator.eval ctx limit e : Evaluator h Value) (Evaluator.eval ctx limit e')) :
    e.Spares h ctx limit floor e' := by
  refine ⟨heval, fun depth => ?_, hname⟩
  rw [hmember, hmember']
  exact (heval depth).map Follows.value_mono
    fun _ _ _ _ _ ha => ⟨Value.alike_undefined.2 rfl, ha⟩

/-- A member whose parts spare spares, as a value and as a callee. -/
theorem member {object property object' property' : Expr} (computed : Bool)
    (hobject : object.Spares h ctx limit floor object')
    (hproperty : property.Spares h ctx limit floor property') :
    (Expr.member object property computed).Spares h ctx limit floor
      (.member object' property' computed) := by
  have hmember : ∀ depth, Evaluator.Spares depth (Renaming.below floor) TargetsAlike
      (Evaluator.evalMember ctx limit (.member object property computed) :
        Evaluator h (Value × Value))
      (Evaluator.evalMember ctx limit (.member object' property' computed)) := fun depth =>
    .memberOf computed (hproperty.staticName computed) (hobject.eval depth) (hproperty.eval depth)
  refine ⟨fun depth => ?_, hmember, fun _ => rfl⟩
  rw [Evaluator.eval, Evaluator.eval]
  exact .within ((hmember (depth + 1)).map TargetsAlike.monotone fun _ _ _ _ _ hx => hx.2)

/-- The two arrays have identities of their own, which the renaming takes to each
other. -/
theorem array {elements elements' : List Expr}
    (heach : ∀ depth, Evaluator.Spares depth (Renaming.below floor) (Value.AlikeEach id)
      (Evaluator.evalEach ctx limit elements : Evaluator h (List Value))
      (Evaluator.evalEach ctx limit elements')) :
    (Expr.array elements).Spares h ctx limit floor (.array elements') := by
  refine of_eval rfl rfl (fun _ => rfl) fun depth => ?_
  rw [Evaluator.eval, Evaluator.eval]
  refine .within ((heach (depth + 1)).bind fun ρ _ _ as as' has => ?_)
  refine Evaluator.Spares.fresh.bind fun ρ' hle _ i i' hi => .pure fun ρ'' hle' _ => ?_
  exact Value.alike_array.2
    ⟨i', as', rfl, hle' i i' hi, Value.AlikeEach.mono (hle.trans hle') _ _ has⟩

/-- A sign spares what its operand spares. -/
theorem unary (operator : String) {argument argument' : Expr}
    (hargument : argument.Spares h ctx limit floor argument') :
    (Expr.unary operator argument).Spares h ctx limit floor (.unary operator argument') := by
  refine of_eval rfl rfl (fun _ => rfl) fun depth => ?_
  rw [Evaluator.eval, Evaluator.eval]
  refine .within ((Evaluator.Spares.same _).bind fun ρ hle _ o o' ho => ?_)
  subst ho
  refine ((hargument.eval (depth + 1)).mono hle).bind fun ρ' _ _ a a' ha => ?_
  exact .pure fun ρ'' hle' _ => .apply_unary o (Value.Alike.mono hle' _ _ ha)

/-- An operator spares what its operands spare. -/
theorem binary (operator : String) {left right left' right' : Expr}
    (hleft : left.Spares h ctx limit floor left')
    (hright : right.Spares h ctx limit floor right') :
    (Expr.binary operator left right).Spares h ctx limit floor (.binary operator left' right') := by
  refine of_eval rfl rfl (fun _ => rfl) fun depth => ?_
  rw [Evaluator.eval, Evaluator.eval]
  exact .within (.operation operator (hleft.eval _) (hright.eval _))

/-- Alike tests take the same branch, and so the other one is spared by both. -/
theorem conditional {test consequent alternate test' consequent' alternate' : Expr}
    (htest : test.Spares h ctx limit floor test')
    (hconsequent : consequent.Spares h ctx limit floor consequent')
    (halternate : alternate.Spares h ctx limit floor alternate') :
    (Expr.conditional test consequent alternate).Spares h ctx limit floor
      (.conditional test' consequent' alternate') := by
  refine of_eval rfl rfl (fun _ => rfl) fun depth => ?_
  rw [Evaluator.eval, Evaluator.eval]
  refine .within ((htest.eval (depth + 1)).bind fun ρ hle _ a a' ha => ?_)
  rw [ha.isTruthy_eq]
  split
  · exact (hconsequent.eval (depth + 1)).mono hle
  · exact (halternate.eval (depth + 1)).mono hle

/-- A call spares what its callee and its arguments spare. -/
theorem call (hh : h.Pure floor) {callee callee' : Expr} {arguments arguments' : List Expr}
    (hcallee : callee.Spares h ctx limit floor callee')
    (heach : ∀ depth, Evaluator.Spares depth (Renaming.below floor) (Value.AlikeEach id)
      (Evaluator.evalEach ctx limit arguments : Evaluator h (List Value))
      (Evaluator.evalEach ctx limit arguments')) :
    (Expr.call callee arguments).Spares h ctx limit floor (.call callee' arguments') := by
  refine of_eval rfl rfl (fun _ => rfl) fun depth => ?_
  rw [Evaluator.eval_call, Evaluator.eval_call]
  exact .within (.callWith hh le_rfl (hcallee.evalMember _) (heach _))

/-- Both nodes are lazy. -/
theorem logical (operator : String) {left right left' right' : Expr}
    (hleft : left.Spares h ctx limit floor left')
    (hright : right.Spares h ctx limit floor right') :
    (Expr.logical operator left right).Spares h ctx limit floor
      (.logical operator left' right') := by
  refine of_eval rfl rfl (fun _ => rfl) fun depth => ?_
  have hleft' := hleft.eval (depth + 1)
  have hright' := hright.eval (depth + 1)
  rw [Evaluator.eval, Evaluator.eval]
  refine .within ?_
  -- By its truth the left operand decides in both nodes or in neither.
  split
  · refine hleft'.bind fun ρ hle _ a a' ha => ?_
    rw [ha.isTruthy_eq]
    split
    · exact .pure fun _ hle' _ => Value.Alike.mono hle' _ _ ha
    · exact hright'.mono hle
  · split
    · refine hleft'.bind fun ρ hle _ a a' ha => ?_
      rw [ha.isTruthy_eq]
      split
      · exact hright'.mono hle
      · exact .pure fun _ hle' _ => Value.Alike.mono hle' _ _ ha
    · exact .operation operator hleft' hright'

/-- The first node is lazy, the second is strict. -/
theorem logical_binary {operator : String} (hoperator : operator = "&&" ∨ operator = "||")
    {left right left' right' : Expr} (hleft : left.Spares h ctx limit floor left')
    (hright : right.Spares h ctx limit floor right') :
    (Expr.logical operator left right).Spares h ctx limit floor
      (.binary operator left' right') := by
  refine of_eval rfl rfl (fun _ => rfl) fun depth => ?_
  have hleft' := hleft.eval (depth + 1)
  have hright' := hright.eval (depth + 1)
  rw [Evaluator.eval, Evaluator.eval]
  refine .within ?_
  -- Both operators keep the left operand for one truth value, and the two differ in which.
  obtain rfl | rfl := hoperator
  · have hswap : ∀ (a : Value) (p q : Evaluator h Value),
        (if a.isTruthy then p else q) = if a.isTruthy = false then q else p := by
      intro a p q
      cases a.isTruthy <;> rfl
    simp only [hswap]
    refine Evaluator.Spares.decided (o := .and) (by rfl) (fun a b => ?_) hleft' hright'
    show (if a.isTruthy then b else a) = _
    cases a.isTruthy <;> rfl
  · exact Evaluator.Spares.decided (o := .or) (by rfl) (fun _ _ => rfl) hleft' hright'

end Expr.Spares

mutual

/-- A tree spares the work of the one with strict nodes in place of some lazy
ones. -/
theorem spares_of_replaces (hh : h.Pure floor) (hctx : ctx.Below floor) :
    (e : Expr) → {e' : Expr} → e.Replaces Expr.LogicalAsBinary e' →
    e.Spares h ctx limit floor e'
  -- Only a logical node is replaced itself. Every other one stays, with its parts replaced.
  | .literal value, _, hr => by
      obtain rfl := hr.eq_of_ne_logical nofun
      refine .of_eval rfl rfl (fun _ => rfl) fun depth => ?_
      rw [Evaluator.eval]
      exact .within (.pure fun _ _ _ => by cases value <;> exact .refl_of_not_isCompound rfl)
  | .identifier name, _, hr => by
      obtain rfl := hr.eq_of_ne_logical nofun
      refine .of_eval rfl rfl (fun _ => rfl) fun depth => ?_
      rw [Evaluator.eval]
      exact .within (.lookup hh le_rfl hctx name)
  | .this, _, hr => by
      obtain rfl := hr.eq_of_ne_logical nofun
      refine .of_eval rfl rfl (fun _ => rfl) fun depth => ?_
      rw [Evaluator.eval]
      exact .within (.pure fun _ hle _ => Value.Alike.mono hle _ _ hctx)
  | .unknown, _, hr => by
      obtain rfl := hr.eq_of_ne_logical nofun
      refine .of_eval rfl rfl (fun _ => rfl) fun depth => ?_
      rw [Evaluator.eval]
      exact .within (.pure fun _ _ _ => Value.alike_undefined.2 rfl)
  | .array elements, _, ⟨elements', helements, hr⟩ => by
      obtain rfl := hr.eq_of_ne_logical nofun
      exact .array (sparesEach_of_replacesEach hh hctx elements helements)
  | .unary operator argument, _, ⟨argument', hargument, hr⟩ => by
      obtain rfl := hr.eq_of_ne_logical nofun
      exact .unary operator (spares_of_replaces hh hctx argument hargument)
  | .binary operator left right, _, ⟨left', right', hleft, hright, hr⟩ => by
      obtain rfl := hr.eq_of_ne_logical nofun
      exact .binary operator (spares_of_replaces hh hctx left hleft)
        (spares_of_replaces hh hctx right hright)
  | .logical operator left right, _, ⟨left', right', hleft, hright, hr⟩ => by
      have hleft' := spares_of_replaces hh hctx left hleft
      have hright' := spares_of_replaces hh hctx right hright
      obtain rfl | hstep := hr
      · exact .logical operator hleft' hright'
      · cases hstep with
        | intro hoperator => exact .logical_binary hoperator hleft' hright'
  | .conditional test consequent alternate, _,
      ⟨test', consequent', alternate', htest, hconsequent, halternate, hr⟩ => by
      obtain rfl := hr.eq_of_ne_logical nofun
      exact .conditional (spares_of_replaces hh hctx test htest)
        (spares_of_replaces hh hctx consequent hconsequent)
        (spares_of_replaces hh hctx alternate halternate)
  | .member object property computed, _, ⟨object', property', hobject, hproperty, hr⟩ => by
      obtain rfl := hr.eq_of_ne_logical nofun
      exact .member computed (spares_of_replaces hh hctx object hobject)
        (spares_of_replaces hh hctx property hproperty)
  | .call callee arguments, _, ⟨callee', arguments', hcallee, harguments, hr⟩ => by
      obtain rfl := hr.eq_of_ne_logical nofun
      exact .call hh (spares_of_replaces hh hctx callee hcallee)
        (sparesEach_of_replacesEach hh hctx arguments harguments)

/-- Trees of a list that are replaced one by one. -/
theorem sparesEach_of_replacesEach (hh : h.Pure floor) (hctx : ctx.Below floor) :
    (es : List Expr) → {es' : List Expr} → Expr.ReplacesEach Expr.LogicalAsBinary es es' →
    ∀ depth, Evaluator.Spares depth (Renaming.below floor) (Value.AlikeEach id)
      (Evaluator.evalEach ctx limit es : Evaluator h (List Value))
      (Evaluator.evalEach ctx limit es')
  | [], _, hr => fun depth => by
      rw [hr, Evaluator.evalEach]
      exact .pure fun _ _ _ => Value.alikeEach_nil.2 rfl
  | e :: es, _, ⟨e', rest, he, hes, hr⟩ => fun depth => by
      have he' := spares_of_replaces hh hctx e he
      have hes' := sparesEach_of_replacesEach hh hctx es hes depth
      rw [hr, Evaluator.evalEach, Evaluator.evalEach]
      refine (he'.eval depth).bind fun ρ hle _ a a' ha => ?_
      refine (hes'.mono hle).bind fun ρ' hle' _ as as' has => .pure fun ρ'' hle'' _ => ?_
      exact Value.alikeEach_cons.2 ⟨a', as', rfl, Value.Alike.mono (hle'.trans hle'') _ _ ha,
        Value.AlikeEach.mono hle'' _ _ has⟩

end

end

/-- Wherever lazy nodes of a tree are made strict, however many: if the strict
tree has a value under a pure host, so has the lazy one under the same limit.
The values are alike up to the identities of new arrays and objects, and the
calls of the lazy tree are some of those of the strict one, in the same
order. -/
theorem evaluate_of_logicalAsBinary (h : Host σ) (ctx : Context) (limit : Nat) {e e' : Expr}
    (he : e.Replaces Expr.LogicalAsBinary e') {w w₁' : World σ} (hpure : h.Pure w.nextIdentity)
    (hctx : ctx.Below w.nextIdentity) {v' : Value}
    (hrun : evaluate h ctx limit e' w = (.ok v', w₁')) :
    ∃ (v : Value) (w₁ : World σ) (calls calls' : List Call) (ρ : Renaming),
      evaluate h ctx limit e w = (.ok v, w₁) ∧
      w.Calls calls w₁ ∧ w.Calls calls' w₁' ∧
      ρ.OneToOne ∧ Renaming.below w.nextIdentity ≤ ρ ∧ v.Alike id ρ v' ∧
      List.SublistForall₂ (Call.Alike id ρ) calls calls' := by
  rcases hstrict : (Evaluator.eval ctx limit e' : Evaluator h Value) ⟨0, w⟩ with ⟨outcome, s'⟩
  simp only [evaluate, Evaluator.start, hstrict] at hrun
  obtain ⟨houtcome, rfl⟩ := Prod.mk.inj hrun
  -- The strict run succeeds, so it yields its value and its calls, and the lazy run is the one
  -- beside it.
  cases outcome with
  | error halt => cases houtcome
  | ok b' =>
      obtain rfl : b' = v' := Except.ok.inj houtcome
      obtain ⟨v, calls, w₁, calls', w₁', ρ, hy, hy', hthrough⟩ :=
        (spares_of_replaces hpure hctx e he).eval 0 le_rfl (Renaming.oneToOne_below _) w w
          (fun i j hij => ⟨hij.2, hij.1 ▸ hij.2⟩) b' s' hstrict
      obtain rfl : s' = ⟨0, w₁'⟩ := (Prod.mk.inj (hstrict.symm.trans hy'.eq)).2
      refine ⟨v, w₁, calls, calls', ρ, ?_, hy.calls, hy'.calls, hthrough.oneToOne, hthrough.le,
        hthrough.result, hthrough.calls⟩
      simp only [evaluate, Evaluator.start, hy.eq]
      rfl

/-- The right operand of `&&` is a call that makes an array. The lazy tree does
not make it, and so its own array has another identity. -/
theorem evaluate_of_logicalAsBinary_sparedCall :
    let h := Registry.host #[⟨"list", .arguments, 0, false⟩]
    let ctx : Context := ⟨⟨0, [("list", .function ⟨0, false⟩)]⟩, none⟩
    let first : Expr := .call (.identifier "list") []
    let second : Expr := .call (.identifier "list") [.this]
    let e : Expr := .logical "||" (.logical "&&" (.literal (.bool false)) first) second
    let e' : Expr := .binary "||" (.binary "&&" (.literal (.bool false)) first) second
    let w : World Counters := ⟨⟨1, []⟩, #[]⟩
    let w₁' : World Counters := ⟨⟨3, []⟩, #[.called ⟨0, false⟩ .undefined [],
      .called ⟨0, false⟩ .undefined [ctx.thisValue]]⟩
    evaluate h ctx 4 e' w = (.ok (.array 2 [ctx.thisValue]), w₁') ∧
    evaluate h ctx 4 e w = (.ok (.array 1 [ctx.thisValue]),
      ⟨⟨2, []⟩, #[.called ⟨0, false⟩ .undefined [ctx.thisValue]]⟩) ∧
    ∃ (v : Value) (w₁ : World Counters) (calls calls' : List Call) (ρ : Renaming),
      evaluate h ctx 4 e w = (.ok v, w₁) ∧ w.Calls calls w₁ ∧ w.Calls calls' w₁' ∧
      ρ.OneToOne ∧ Renaming.below 1 ≤ ρ ∧ v.Alike id ρ (.array 2 [ctx.thisValue]) ∧
      List.SublistForall₂ (Call.Alike id ρ) calls calls' := by
  intro h ctx first second e e' w w₁'
  have hpure : h.Pure 1 := by
    refine Registry.host_pure fun registration hregistration => ?_
    obtain rfl := Array.mem_singleton.1 hregistration
    exact True.intro
  have hctx : ctx.Below 1 := ⟨⟨rfl, Nat.zero_lt_one⟩, rfl, rfl, trivial⟩
  -- The replaced operators stand inside one another, and the calls are left as they are.
  have hcall (arguments : List Expr) (harguments : Expr.ReplacesEach Expr.LogicalAsBinary
      arguments arguments) : (Expr.call (.identifier "list") arguments).Replaces
      Expr.LogicalAsBinary (.call (.identifier "list") arguments) :=
    ⟨_, _, .inl rfl, harguments, .inl rfl⟩
  have he : e.Replaces Expr.LogicalAsBinary e' :=
    ⟨_, _, ⟨_, _, .inl rfl, hcall [] rfl, .inr ⟨.inl rfl, _, _⟩⟩,
      hcall [.this] ⟨_, _, .inl rfl, rfl, rfl⟩, .inr ⟨.inr rfl, _, _⟩⟩
  have hrun : evaluate h ctx 4 e' w = (.ok (.array 2 [ctx.thisValue]), w₁') := by rfl
  exact ⟨hrun, rfl, evaluate_of_logicalAsBinary h ctx 4 he hpure hctx hrun⟩

end Formula
