import Formula.Host.Registry
import Formula.Proofs.Evaluation.Walk

/-!
# `Formula.Proofs.Evaluation.Agreement`: at once and in rounds

The two walks over a tree are written apart: one counts its depth and
evaluates one part after the other, the other is told its depth and begins
independent parts together. As long as the evaluator calls no asynchronous
function they come to the same.

* `Agrees`: at a depth, an evaluator comes back to that depth, and unless
  it has called an asynchronous function the evaluation in rounds is ready
  after its first poll, in the same world and with the same outcome. Each
  way of putting evaluations together keeps it.
* `eval_agrees`, `evalMember_agrees`: the walks agree on every tree.
* `inRounds_eq_ready_of_callsNoAsync`: the agreement for whole trees and
  for member expressions.
-/

set_option autoImplicit false

namespace Formula

variable {σ : Type} {h : Host σ} {α β γ : Type}

/-- An evaluator that has just been made, run from a world, calls no
asynchronous function: an evaluator that calls one stops there. -/
def Evaluator.CallsNoAsync (p : Evaluator h α) (w : World σ) : Prop :=
  ∀ f : HostFunction, (p ⟨0, w⟩).1 ≠ .error (.refused f)

/-- From every world the evaluator comes back to its depth; unless it has
refused an asynchronous function, the rounds are ready after one poll with
its outcome in its world. -/
def Agrees (depth : Nat) (p : Evaluator h α) (q : Rounds h α) : Prop :=
  ∀ w, ∃ outcome w', p ⟨depth, w⟩ = (outcome, ⟨depth, w'⟩) ∧
    ((∀ f, outcome ≠ .error (.refused f)) → q w = .ready w' (outcome.mapError Halt.error))

namespace Agrees

variable {depth : Nat}

/-- A value by itself. -/
theorem pure (a : α) : Agrees (h := h) depth (Pure.pure a) (Pure.pure a) :=
  fun w => ⟨.ok a, w, rfl, fun _ => rfl⟩

/-- A value or an error that is there already. -/
theorem ofExcept (outcome : Except EvalError α) :
    Agrees (h := h) depth (.ofExcept outcome) (.ofExcept outcome) := by
  intro w
  refine ⟨outcome.mapError .failed, w, rfl, fun _ => ?_⟩
  cases outcome <;> rfl

/-- A fresh identity, taken from the same counter. -/
theorem fresh : Agrees (h := h) depth .fresh .fresh :=
  fun w => ⟨.ok w.fresh.1, w.fresh.2, rfl, fun _ => rfl⟩

/-- One evaluation after the other. A refusal in the first part is the
refusal of the whole. -/
theorem bind {p : Evaluator h α} {q : Rounds h α} {p' : α → Evaluator h β} {q' : α → Rounds h β}
    (hpq : Agrees depth p q) (hpq' : ∀ a, Agrees depth (p' a) (q' a)) :
    Agrees depth (p >>= p') (q >>= q') := by
  intro w
  obtain ⟨outcome, w₁, hp, hq⟩ := hpq w
  cases outcome with
  | ok a =>
      have hq₁ : q w = .ready w₁ (.ok a) := hq (fun f => by simp)
      obtain ⟨outcome', w₂, hp', hq'⟩ := hpq' a w₁
      refine ⟨outcome', w₂, ?_, fun hsync => ?_⟩
      · show Evaluator.andThen p p' ⟨depth, w⟩ = _
        simp only [Evaluator.andThen, hp, hp']
      · show (q w).andThen q' = _
        rw [hq₁]
        exact hq' hsync
  | error halt =>
      -- The second part is begun by neither.
      refine ⟨.error halt, w₁, ?_, fun hsync => ?_⟩
      · show Evaluator.andThen p p' ⟨depth, w⟩ = _
        simp only [Evaluator.andThen, hp]
      · have hq₁ : q w = .ready w₁ (.error halt.error) :=
          hq (fun f hf => hsync f (by cases hf; rfl))
        show (q w).andThen q' = _
        rw [hq₁]
        rfl

/-- Two parts begun together do what they do one after the other: neither
is ever pending. -/
theorem both {p : Evaluator h α} {q : Rounds h α} {p' : Evaluator h β} {q' : Rounds h β}
    (hpq : Agrees depth p q) (hpq' : Agrees depth p' q') :
    Agrees depth (p >>= fun a => p' >>= fun b => Pure.pure (a, b)) (q.both q') := by
  intro w
  obtain ⟨outcome, w₁, hp, hq⟩ := hpq w
  cases outcome with
  | ok a =>
      have hq₁ : q w = .ready w₁ (.ok a) := hq (fun f => by simp)
      obtain ⟨outcome', w₂, hrun, hready⟩ := hpq'.bind (fun b => pure (a, b)) w₁
      refine ⟨outcome', w₂, ?_, fun hsync => ?_⟩
      · show Evaluator.andThen p _ ⟨depth, w⟩ = _
        simp only [Evaluator.andThen, hp]
        exact hrun
      · show (q w).both q' = _
        -- The right part is polled in the world that the left one has left.
        rw [hq₁]
        exact hready hsync
  | error halt =>
      refine ⟨.error halt, w₁, ?_, fun hsync => ?_⟩
      · show Evaluator.andThen p _ ⟨depth, w⟩ = _
        simp only [Evaluator.andThen, hp]
      · have hq₁ : q w = .ready w₁ (.error halt.error) :=
          hq (fun f hf => hsync f (by cases hf; rfl))
        show (q w).both q' = _
        rw [hq₁]
        rfl

/-- A native function answers in both alike, and an asynchronous one is
refused by the evaluator. -/
theorem invoke (f : HostFunction) (receiver : Value) (arguments : List Value) :
    Agrees (h := h) depth (.invoke f receiver arguments) (.invoke f receiver arguments) := by
  intro w
  -- The native evaluation refuses a function that has to be waited for, and there nothing is
  -- claimed of the other one.
  cases hasync : f.isAsync with
  | true =>
      refine ⟨.error (.refused f), w, ?_, fun hsync => absurd rfl (hsync f)⟩
      simp only [Evaluator.invoke, hasync, if_true]
  | false =>
      rcases hanswer : (w.record (.called f receiver arguments)).respond h f receiver arguments
        with ⟨answer, w'⟩
      refine ⟨answer.mapError .failed, w', ?_, fun _ => ?_⟩
      · simp only [Evaluator.invoke, hasync, hanswer, Bool.false_eq_true, if_false]
      · simp only [Rounds.invoke, Rounds.answer, hasync, hanswer, Bool.false_eq_true, if_false]
        cases answer <;> rfl

/-- A level of nesting. The evaluator counts the level and leaves it again,
in rounds the body is told of it. -/
theorem within {limit : Nat} {p : Evaluator h α} {q : Rounds h α}
    (hpq : Agrees (depth + 1) p q) :
    Agrees depth (.within limit p) (.within limit depth q) := by
  intro w
  by_cases hdepth : depth < limit
  · obtain ⟨outcome, w', hp, hq⟩ := hpq w
    refine ⟨outcome, w', ?_, fun hsync => ?_⟩
    · simp only [Evaluator.within, hdepth, if_true, hp, Nat.add_sub_cancel]
    · simpa only [Rounds.within, hdepth, if_true] using hq hsync
  · refine ⟨.error (.failed (.stackOverflow depth limit)), w, ?_, fun _ => ?_⟩
    · simp only [Evaluator.within, hdepth, if_false]
    · simp only [Rounds.within, hdepth, if_false]
      rfl

/-- Each way of putting evaluations together keeps the agreement. -/
theorem walks (limit : Nat) : (Evaluator.walk h).Relates (Rounds.walk h) limit limit
    (fun _ => True) (fun depth p q => Agrees depth p q) where
  pure := .pure
  bind := .bind
  ofExcept outcome _ := .ofExcept outcome
  fresh := .fresh
  invoke := .invoke
  both := .both
  within := .within
  nullish _ _ := trivial

end Agrees

/-! ### The walk -/

/-- The walks agree on a tree at every depth. -/
theorem eval_agrees (ctx : Context) (limit : Nat) (e : Expr) (depth : Nat) :
    Agrees (h := h) depth (Evaluator.eval ctx limit e) (Rounds.eval ctx limit depth e) := by
  rw [Evaluator.eval_eq_walk ctx limit e depth, Rounds.eval_eq_walk]
  exact (Agrees.walks limit).eval ctx e depth fun n _ => n.operatorFails fun _ => trivial

/-- The walks agree on member expressions. -/
theorem evalMember_agrees (ctx : Context) (limit : Nat) (e : Expr) :
    Agrees (h := h) 0 (Evaluator.evalMember ctx limit e) (Rounds.evalMember ctx limit e) := by
  rw [Evaluator.evalMember_eq_walk, Rounds.evalMember_eq_walk]
  exact (Agrees.walks limit).evalMember ctx e fun n _ => n.operatorFails fun _ => trivial

/-- Agreement from depth zero, in terms of an evaluator that has just been
made. -/
theorem Agrees.eq_ready {p : Evaluator h α} {q : Rounds h α} (hpq : Agrees 0 p q) {w : World σ}
    (hsync : p.CallsNoAsync w) : q w = .ready (p.start w).2 (p.start w).1 := by
  obtain ⟨outcome, w', hp, hq⟩ := hpq w
  have hstart : p.start w = (outcome.mapError Halt.error, w') := by
    simp only [Evaluator.start, hp]
  rw [hstart]
  exact hq fun f hf => hsync f (by rw [hp, hf])

/-- Where the evaluation of a tree at once calls no asynchronous function,
its evaluation in rounds is ready after the first poll, with the same
outcome and in the same world: the host is in the same state, and the log
holds the same calls with the same receivers and arguments in the same
order. So it is for the receiver and the value of a member expression. -/
theorem inRounds_eq_ready_of_callsNoAsync (h : Host σ) (ctx : Context) (limit : Nat) (e : Expr)
    (w : World σ) :
    ((Evaluator.eval ctx limit e : Evaluator h Value).CallsNoAsync w →
      evaluateInRounds h ctx limit e w
        = .ready (evaluate h ctx limit e w).2 (evaluate h ctx limit e w).1) ∧
    ((Evaluator.evalMember ctx limit e : Evaluator h (Value × Value)).CallsNoAsync w →
      evaluateMemberInRounds h ctx limit e w
        = .ready (evaluateMember h ctx limit e w).2 (evaluateMember h ctx limit e w).1) :=
  ⟨(eval_agrees ctx limit e 0).eq_ready, (evalMember_agrees ctx limit e).eq_ready⟩

/-- A counter is called in the left operand, and the name on the right is
asked of a resolver that fails: both calls are made, and the failure is the
outcome after one poll. -/
theorem inRounds_eq_ready_counter_then_failure :
    let h := Registry.host #[⟨"tick", .counter, 0, false⟩, ⟨"find", .failure "down", 0, true⟩]
    let ctx : Context := ⟨⟨0, [("tick", .function ⟨0, false⟩)]⟩, some ⟨1, false⟩⟩
    let e : Expr := .binary "+" (.call (.field .this "tick") [.literal .null]) (.identifier "x")
    let w : World Counters := ⟨⟨1, []⟩, #[]⟩
    (Evaluator.eval ctx 3 e : Evaluator h Value).CallsNoAsync w ∧
    evaluateInRounds h ctx 3 e w
      = .ready ⟨⟨1, [(0, 1)]⟩, #[.called ⟨0, false⟩ ctx.thisValue [.null],
          .called ⟨1, false⟩ ctx.thisValue [.string "x"]]⟩ (.error (.host "down")) := by
  intro h ctx e w
  -- The run meets no function to be waited for: it fails with the error of the resolver.
  have hsync : (Evaluator.eval ctx 3 e : Evaluator h Value).CallsNoAsync w := by
    intro f hf
    have hrun : (Evaluator.eval ctx 3 e : Evaluator h Value) ⟨0, w⟩
        = (.error (.failed (.host "down")), ⟨0, ⟨⟨1, [(0, 1)]⟩, #[
            .called ⟨0, false⟩ ctx.thisValue [.null],
            .called ⟨1, false⟩ ctx.thisValue [.string "x"]]⟩⟩) := by rfl
    rw [hrun] at hf
    cases hf
  exact ⟨hsync, (inRounds_eq_ready_of_callsNoAsync h ctx 3 e w).1 hsync⟩

end Formula
