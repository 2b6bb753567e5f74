import Formula.Proofs.Evaluation.Walk

/-!
# `Formula.Proofs.Evaluation.Invariance`: what holds throughout an evaluation

An invariant of the world that the host keeps holds throughout an evaluation:
whenever it is found pending, and when it has come to a value. How it can
fail is told apart: by a property of the error and of the world it fails in.
While an evaluation is pending, other parts of it may change the world, and
all that is known of them is that they keep the invariant.

* `Settled`: what is left of the invariant when an outcome is there.
* `Evaluator.Keeps`, `Rounds.Keeps`: the evaluations that keep an invariant.
* `Invariance`: what is to be shown of a host for it.
* `Invariance.evaluator`, `Invariance.rounds`: each way of putting
  evaluations together then keeps the invariant.
* `Invariance.settled`: and so does each run over a whole tree or over a
  member expression.
-/

set_option autoImplicit false

namespace Formula

variable {σ α β : Type} {h : Host σ} {Own : EvalError → Prop} {I : World σ → Prop}
  {Fails : EvalError → World σ → Prop}

/-- With a value the invariant holds, and a failure is one of its kind. -/
def Settled (I : World σ → Prop) (Fails : EvalError → World σ → Prop) :
    Except EvalError α → World σ → Prop
  | .ok _, w => I w
  | .error e, w => Fails e w

/-- Begun with the invariant, the evaluator ends with it, or fails. -/
def Evaluator.Keeps (I : World σ → Prop) (Fails : EvalError → World σ → Prop)
    (p : Evaluator h α) : Prop :=
  ∀ s, I s.world → Settled I Fails ((p s).1.mapError Halt.error) (p s).2.world

/-- The rounds are found pending with the invariant, and go on with it. -/
def Round.Keeps (I : World σ → Prop) (Fails : EvalError → World σ → Prop) : Round σ α → Prop
  | .ready w outcome => Settled I Fails outcome w
  | .pending w resume => I w ∧ ∀ w', I w' → (resume w').Keeps I Fails

/-- Begun with the invariant, the evaluation in rounds keeps it. -/
def Rounds.Keeps (I : World σ → Prop) (Fails : EvalError → World σ → Prop)
    (q : Rounds h α) : Prop :=
  ∀ w, I w → Round.Keeps I Fails (q w)

/-- A host keeps an invariant: at each answer it holds, or the function
fails in a way of its kind. Some errors the walk may find by itself. -/
structure Invariance (h : Host σ) (Own : EvalError → Prop) (I : World σ → Prop)
    (Fails : EvalError → World σ → Prop) : Prop where
  fresh : ∀ w, I w → I w.fresh.2
  /-- an asynchronous function is called, and has acted -/
  called : ∀ f receiver arguments w, f.isAsync = true → I w →
    I ((w.record (.called f receiver arguments)).start h f receiver arguments)
  /-- an asynchronous function answers -/
  completed : ∀ f receiver arguments w, f.isAsync = true → I w →
    Settled I Fails ((w.record (.completed f)).respond h f receiver arguments).1
      ((w.record (.completed f)).respond h f receiver arguments).2
  /-- a native function answers when it is called -/
  answered : ∀ f receiver arguments w, f.isAsync = false → I w →
    Settled I Fails
      ((w.record (.called f receiver arguments)).respond h f receiver arguments).1
      ((w.record (.called f receiver arguments)).respond h f receiver arguments).2
  own : ∀ e w, Own e → I w → Fails e w
  stackOverflow : ∀ depth limit, Own (.stackOverflow depth limit)
  nullish : ∀ property base, Own (.nullishProperty property base)
  asyncInSync : Own .asyncInSync

/-! ### The evaluator at work -/

namespace Evaluator.Keeps

/-- Two evaluators in a row keep the invariant. -/
theorem bind {p : Evaluator h α} {k : α → Evaluator h β} (hp : p.Keeps I Fails)
    (hk : ∀ a, (k a).Keeps I Fails) : (p >>= k).Keeps I Fails := by
  intro s hs
  have hstep := hp s hs
  show Settled I Fails ((Evaluator.andThen p k s).1.mapError Halt.error)
    (Evaluator.andThen p k s).2.world
  rcases hrun : p s with ⟨outcome, s'⟩
  rw [hrun] at hstep
  simp only [Evaluator.andThen, hrun]
  cases outcome with
  | ok a => exact hk a s' hstep
  | error halt => exact hstep

/-- A call keeps it: the event and the answer do, and a refusal is an error
that is allowed. -/
theorem invoke (hh : Invariance h Own I Fails) (f : HostFunction) (receiver : Value)
    (arguments : List Value) :
    (Evaluator.invoke f receiver arguments : Evaluator h Value).Keeps I Fails := by
  intro s hs
  unfold Evaluator.invoke
  cases hasync : f.isAsync with
  -- A refused function is not called.
  | true => exact hh.own _ _ hh.asyncInSync hs
  | false =>
      have hanswered := hh.answered f receiver arguments s.world hasync hs
      rcases hrun : (s.world.record (.called f receiver arguments)).respond h f receiver arguments
        with ⟨outcome, w'⟩
      rw [hrun] at hanswered
      cases outcome <;> exact hanswered

/-- A level keeps it, be it entered or refused. -/
theorem within (hh : Invariance h Own I Fails) {limit : Nat} {p : Evaluator h α}
    (hp : p.Keeps I Fails) : (p.within limit).Keeps I Fails := by
  intro s hs
  unfold Evaluator.within
  split
  · exact hp ⟨s.depth + 1, s.world⟩ hs
  · exact hh.own _ _ (hh.stackOverflow _ _) hs

end Evaluator.Keeps

/-- Each way of putting evaluations together keeps the invariant at work. -/
theorem Invariance.evaluator (hh : Invariance h Own I Fails) (limit : Nat) :
    (Evaluator.walk h).Relates (Evaluator.walk h) limit limit Own
      (fun _ p _ => p.Keeps I Fails) where
  pure _ _ hs := hs
  bind hp hk := hp.bind hk
  ofExcept outcome hown s hs := by
    cases outcome with
    | ok a => exact hs
    | error e => exact hh.own e _ (hown e rfl) hs
  fresh s hs := hh.fresh s.world hs
  invoke := .invoke hh
  both hp hp' := hp.bind fun _ => hp'.bind fun _ _ hs => hs
  within := .within hh
  nullish := hh.nullish

/-! ### The evaluation in rounds -/

namespace Round.Keeps

/-- A run to its end keeps it. -/
theorem finish {r : Round σ α} (hr : r.Keeps I Fails) :
    Settled I Fails r.finish.1 r.finish.2 := by
  induction r with
  | ready w outcome => exact hr
  | pending w resume ih => exact ih w (hr.2 w hr.1)

/-- Two rounds in a row keep it. -/
theorem andThen {r : Round σ α} {k : α → World σ → Round σ β} (hr : r.Keeps I Fails)
    (hk : ∀ a w, I w → (k a w).Keeps I Fails) : (r.andThen k).Keeps I Fails := by
  induction r with
  | ready w outcome =>
      cases outcome with
      | ok a => exact hk a w hr
      | error e => exact hr
  | pending w resume ih => exact ⟨hr.1, fun w' hw' => ih w' (hr.2 w' hw')⟩

/-- A part that fails ends the pair: the other part is not polled again. -/
theorem both {r : Round σ α} {q : World σ → Round σ β} (hr : r.Keeps I Fails)
    (hq : ∀ w, I w → (q w).Keeps I Fails) : (r.both q).Keeps I Fails := by
  induction r generalizing q with
  | ready w outcome =>
      cases outcome with
      | ok a => exact (hq w hr).andThen fun b w hw => hw
      | error e => exact hr
  | pending w resume ih =>
      obtain ⟨hw, hresume⟩ := hr
      have hright := hq w hw
      rw [Round.both]
      generalize q w = s at hright
      -- The left round is pending. The right one is ready with a value, or has failed and ends
      -- both, or is pending as well.
      cases s with
      | ready w₁ outcome =>
          cases outcome with
          | ok b => exact ⟨hright, fun w₂ hw₂ => (hresume w₂ hw₂).andThen fun a w hw => hw⟩
          | error e => exact hright
      | pending w₁ resume₁ => exact ⟨hright.1, fun w₂ hw₂ => ih w₂ (hresume w₂ hw₂) hright.2⟩

/-- Waiting keeps it. -/
theorem after (ticks : Nat) {next : World σ → Round σ α}
    (hnext : ∀ w, I w → (next w).Keeps I Fails) {w : World σ} (hw : I w) :
    (Round.after ticks next w).Keeps I Fails := by
  induction ticks generalizing w with
  | zero => exact hnext w hw
  | succ ticks ih => exact ⟨hw, fun w' hw' => ih hw'⟩

end Round.Keeps

/-- A call in rounds keeps it, at the call and at the completion. -/
theorem Rounds.Keeps.invoke (hh : Invariance h Own I Fails) (f : HostFunction) (receiver : Value)
    (arguments : List Value) :
    (Rounds.invoke f receiver arguments : Rounds h Value).Keeps I Fails := by
  intro w hw
  unfold Rounds.invoke
  cases hasync : f.isAsync with
  | true =>
      refine Round.Keeps.after _ (fun w₁ hw₁ => ?_) (hh.called f receiver arguments w hasync hw)
      exact hh.completed f receiver arguments w₁ hasync hw₁
  | false => exact hh.answered f receiver arguments w hasync hw

/-- Each way of putting evaluations together keeps the invariant in rounds. -/
theorem Invariance.rounds (hh : Invariance h Own I Fails) (limit : Nat) :
    (Rounds.walk h).Relates (Rounds.walk h) limit limit Own
      (fun _ q _ => q.Keeps I Fails) where
  pure _ _ hw := hw
  bind hq hk w hw := (hq w hw).andThen hk
  ofExcept outcome hown w hw := by
    cases outcome with
    | ok a => exact hw
    | error e => exact hh.own e w (hown e rfl) hw
  fresh := hh.fresh
  invoke := .invoke hh
  both hq hq' w hw := (hq w hw).both hq'
  -- A level that is refused fails with an error of the evaluation itself.
  within hq w hw := by
    show Round.Keeps I Fails (Rounds.within _ _ _ w)
    unfold Rounds.within
    split
    · exact hq w hw
    · exact hh.own _ w (hh.stackOverflow _ _) hw
  nullish := hh.nullish

/-! ### Runs -/

/-- The outcome of any run over a tree is settled, if the invariant held at
first. -/
theorem Invariance.settled (hh : Invariance h Own I Fails) (ctx : Context) (limit : Nat)
    {e : Expr} (he : ∀ n ∈ e.nodes, n.OperatorFails Own) {w : World σ} (hw : I w) :
    Settled I Fails (evaluate h ctx limit e w).1 (evaluate h ctx limit e w).2 ∧
    Settled I Fails ((evaluateInRounds h ctx limit e).run w).1
      ((evaluateInRounds h ctx limit e).run w).2 ∧
    Settled I Fails (evaluateMember h ctx limit e w).1 (evaluateMember h ctx limit e w).2 ∧
    Settled I Fails ((evaluateMemberInRounds h ctx limit e).run w).1
      ((evaluateMemberInRounds h ctx limit e).run w).2 := by
  unfold evaluate evaluateInRounds evaluateMember evaluateMemberInRounds
  rw [Evaluator.eval_eq_walk ctx limit e 0, Rounds.eval_eq_walk ctx limit e 0,
    Evaluator.evalMember_eq_walk, Rounds.evalMember_eq_walk]
  exact ⟨(hh.evaluator limit).eval ctx e 0 he ⟨0, w⟩ hw,
    ((hh.rounds limit).eval ctx e 0 he w hw).finish,
    (hh.evaluator limit).evalMember ctx e he ⟨0, w⟩ hw,
    ((hh.rounds limit).evalMember ctx e he w hw).finish⟩

end Formula
