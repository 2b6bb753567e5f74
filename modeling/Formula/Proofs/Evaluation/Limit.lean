import Formula.Proofs.Evaluation.Agreement
import Formula.Proofs.Evaluation.Invariance
import Formula.Proofs.Host.Failing

/-!
# `Formula.Proofs.Evaluation.Limit`: the limit of depth only cuts

An evaluation under a limit of depth is the evaluation under any higher limit,
cut off where it meets the limit. As long as it does not meet it, the two take
the same steps; where it does, it ends with an overflow at the limit, and the
other one goes on from the same log.

* `Evaluator.Adds`, `Rounds.Adds`: evaluations that take nothing back of what
  is in the log.
* `Evaluator.Cuts`, `Rounds.Cuts`: an evaluation under the lower limit cuts one
  under the higher. `Evaluator.cuts`, `Rounds.cuts`: each way of putting
  evaluations together keeps this.
* `Expr.height`: the nodes on a longest path from the root of a tree.
  `Walk.eval_eq_unlimited`: no level of a tree within the limit is refused.
* `evaluations_isCut`: the limit only cuts, in both evaluations of trees and of
  member expressions, and never a tree whose height is within it.
-/

set_option autoImplicit false

namespace Formula

variable {σ α β : Type} {h : Host σ}

/-- The error of a tree that is nested too deeply. -/
def EvalError.IsOverflow : EvalError → Prop
  | .stackOverflow _ _ => True
  | _ => False

/-- An outcome that is an overflow. -/
def Overflows : Except EvalError α → Prop
  | .ok _ => False
  | .error e => e.IsOverflow

/-- No function of the host fails with an overflow of its own. -/
def Host.NeverOverflows (h : Host σ) : Prop :=
  ∀ f receiver arguments store, ¬ Overflows (h.respond f receiver arguments store).1

/-- A run under a limit is a cut of a run under another one: the same run, or
one that has overflown at the limit, in whose log is the beginning of the
other's. -/
structure IsCut (limit : Nat) (run run' : Except EvalError α × World σ) : Prop where
  same : ¬ Overflows run.1 → run' = run
  overflow : ∀ depth max, run.1 = .error (.stackOverflow depth max) →
    depth = limit ∧ max = limit ∧ run.2.log.toList <+: run'.2.log.toList

/-- A run that does not overflow is a cut of itself. -/
theorem IsCut.refl (limit : Nat) {run : Except EvalError α × World σ} (hrun : ¬ Overflows run.1) :
    IsCut limit run run :=
  ⟨fun _ => rfl, fun _ _ h => (hrun (h ▸ trivial)).elim⟩

/-- A run that overflows at the limit is a cut, if the other has its log as a
beginning. -/
theorem IsCut.cut {limit : Nat} {w : World σ} {run' : Except EvalError α × World σ}
    (hlog : w.log.toList <+: run'.2.log.toList) :
    IsCut limit (.error (.stackOverflow limit limit), w) run' := by
  refine ⟨fun h => absurd trivial h, fun depth max h => ?_⟩
  cases h
  exact ⟨rfl, rfl, hlog⟩

/-- An event goes to the end of the log. -/
theorem World.prefix_record (w : World σ) (event : Event) :
    w.log.toList <+: (w.record event).log.toList := by
  simp [World.record]

/-! ### The evaluator at work -/

/-- The log only grows. -/
def Evaluator.Adds (p : Evaluator h α) : Prop :=
  ∀ s, s.world.log.toList <+: (p s).2.world.log.toList

/-- At a depth within the limit the evaluator comes back to that depth. Either
it has come to no overflow, and the other evaluator does the same, or it has
overflown at the limit, with the beginning of the other's log. -/
def Evaluator.Cuts (limit depth : Nat) (p p' : Evaluator h α) : Prop :=
  p'.Adds ∧ (depth ≤ limit → ∀ w, ∃ outcome w₁, p ⟨depth, w⟩ = (outcome, ⟨depth, w₁⟩) ∧
    ((¬ Overflows (outcome.mapError Halt.error) ∧ p' ⟨depth, w⟩ = (outcome, ⟨depth, w₁⟩)) ∨
      (outcome = .error (.failed (.stackOverflow limit limit)) ∧
        w₁.log.toList <+: (p' ⟨depth, w⟩).2.world.log.toList)))

namespace Evaluator

/-- Two evaluators in a row only add. -/
theorem Adds.bind {p : Evaluator h α} {k : α → Evaluator h β} (hp : p.Adds)
    (hk : ∀ a, (k a).Adds) : (p >>= k).Adds := by
  intro s
  have hfirst := hp s
  show _ <+: (andThen p k s).2.world.log.toList
  rcases hrun : p s with ⟨outcome, s₁⟩
  rw [hrun] at hfirst
  simp only [andThen, hrun]
  cases outcome with
  | ok a => exact hfirst.trans (hk a s₁)
  | error halt => exact hfirst

/-- Refusing a level adds nothing, and entering it only what is inside. -/
theorem Adds.within {p : Evaluator h α} (limit : Nat) (hp : p.Adds) : (p.within limit).Adds := by
  intro s
  unfold Evaluator.within
  split
  · exact hp ⟨s.depth + 1, s.world⟩
  · exact List.prefix_rfl

namespace Cuts

variable {limit limit' depth : Nat}

/-- An evaluator that leaves the world alone and does not overflow. -/
theorem still {p : Evaluator h α} {outcome : Except Halt α}
    (hp : ∀ s, p s = (outcome, s)) (houtcome : ¬ Overflows (outcome.mapError Halt.error)) :
    p.Cuts limit depth p := by
  refine ⟨fun s => ?_, fun _ w => ⟨outcome, w, hp _, .inl ⟨houtcome, hp _⟩⟩⟩
  have hworld : (p s).2 = s := congrArg Prod.snd (hp s)
  exact hworld.symm ▸ List.prefix_rfl

/-- A result that is no overflow is the same under any limit. -/
theorem ofExcept (outcome : Except EvalError α) (houtcome : ¬ Overflows outcome) :
    (Evaluator.ofExcept outcome : Evaluator h α).Cuts limit depth (.ofExcept outcome) := by
  refine still (fun s => rfl) ?_
  cases outcome <;> exact houtcome

/-- What goes on after a cut only adds to the log. -/
theorem bind {p p' : Evaluator h α} {k k' : α → Evaluator h β} (hp : p.Cuts limit depth p')
    (hk : ∀ a, (k a).Cuts limit depth (k' a)) : (p >>= k).Cuts limit depth (p' >>= k') := by
  refine ⟨hp.1.bind fun a => (hk a).1, fun hdepth w => ?_⟩
  show ∃ outcome w₁, andThen p k ⟨depth, w⟩ = (outcome, ⟨depth, w₁⟩) ∧
    ((_ ∧ andThen p' k' ⟨depth, w⟩ = _) ∨ (_ ∧ _ <+: (andThen p' k' ⟨depth, w⟩).2.world.log.toList))
  -- As long as the first part is the same on both sides, the second one decides. If it has
  -- overflown, the other side goes on from a log that only grows.
  obtain ⟨outcome, w₁, hrun, ⟨hover, hrun'⟩ | ⟨rfl, hlog⟩⟩ := hp.2 hdepth w
  · cases outcome with
    | ok a =>
        simp only [andThen, hrun, hrun']
        exact (hk a).2 hdepth w₁
    | error halt =>
        simp only [andThen, hrun, hrun']
        exact ⟨_, _, rfl, .inl ⟨hover, rfl⟩⟩
  · have hadds : w₁.log.toList <+: (andThen p' k' ⟨depth, w⟩).2.world.log.toList := by
      rcases hrun' : p' ⟨depth, w⟩ with ⟨outcome', s'⟩
      rw [hrun'] at hlog
      simp only [andThen, hrun']
      cases outcome' with
      | ok a => exact hlog.trans ((hk a).1 s')
      | error halt => exact hlog
    refine ⟨_, w₁, ?_, .inr ⟨rfl, hadds⟩⟩
    simp only [andThen, hrun]

/-- A call is the same under any limit, since the host does not overflow. -/
theorem invoke (hh : h.NeverOverflows) (f : HostFunction) (receiver : Value)
    (arguments : List Value) :
    (Evaluator.invoke f receiver arguments : Evaluator h Value).Cuts limit depth
      (.invoke f receiver arguments) := by
  cases hasync : f.isAsync with
  | true =>
      have hrefused : ¬ Overflows ((Except.error (.refused f) : Except Halt Value).mapError
        Halt.error) := id
      exact still (fun s => by simp only [Evaluator.invoke, hasync, if_true]) hrefused
  | false =>
      refine ⟨fun s => ?_, fun _ w => ?_⟩
      · simp only [Evaluator.invoke, hasync, Bool.false_eq_true, if_false]
        exact s.world.prefix_record _
      -- The event of the call is recorded on both sides before the host answers.
      · have hanswer : ¬ Overflows
            ((w.record (.called f receiver arguments)).respond h f receiver arguments).1 :=
          hh f receiver arguments _
        simp only [Evaluator.invoke, hasync, Bool.false_eq_true, if_false]
        generalize (w.record (.called f receiver arguments)).respond h f receiver arguments = run
          at hanswer
        rcases run with ⟨answer, w₁⟩
        refine ⟨_, w₁, rfl, .inl ⟨?_, rfl⟩⟩
        cases answer <;> exact hanswer

/-- A level that is refused is met at the limit itself. -/
theorem within (hle : limit ≤ limit') {p p' : Evaluator h α}
    (hp : p.Cuts limit (depth + 1) p') :
    (p.within limit).Cuts limit depth (p'.within limit') := by
  refine ⟨hp.1.within limit', fun hdepth w => ?_⟩
  -- Below the lower limit both sides enter the level. At the limit the first one overflows
  -- before it takes a step.
  by_cases hlt : depth < limit
  · have hlt' : depth < limit' := by omega
    obtain ⟨outcome, w₁, hrun, hcut⟩ := hp.2 hlt w
    refine ⟨outcome, w₁, by simp only [Evaluator.within, hlt, if_true, hrun, Nat.add_sub_cancel],
      ?_⟩
    simp only [Evaluator.within, hlt', if_true]
    obtain ⟨hover, hrun'⟩ | ⟨houtcome, hlog⟩ := hcut
    · exact .inl ⟨hover, by simp only [hrun', Nat.add_sub_cancel]⟩
    · exact .inr ⟨houtcome, hlog⟩
  · obtain rfl : depth = limit := by omega
    refine ⟨_, w, by simp only [Evaluator.within, hlt, if_false], .inr ⟨rfl, ?_⟩⟩
    exact hp.1.within limit' ⟨depth, w⟩

/-- The runs of two evaluators that have just been made. -/
theorem start {p p' : Evaluator h α} (hp : p.Cuts limit 0 p') (w : World σ) :
    IsCut limit (p.start w) (p'.start w) := by
  obtain ⟨outcome, w₁, hrun, ⟨hover, hrun'⟩ | ⟨rfl, hlog⟩⟩ := hp.2 (Nat.zero_le limit) w
  · simp only [Evaluator.start, hrun, hrun']
    exact .refl limit hover
  · simp only [Evaluator.start, hrun]
    exact .cut hlog

end Cuts

end Evaluator

/-- An outcome whose error is no overflow is none. -/
theorem not_overflows_of_error {outcome : Except EvalError α}
    (h : ∀ e, outcome = .error e → ¬ e.IsOverflow) : ¬ Overflows outcome := by
  cases outcome with
  | ok a => exact id
  | error e => exact h e rfl

/-- Each way of putting evaluations together keeps the cut at work. -/
theorem Evaluator.cuts (hh : h.NeverOverflows) {limit limit' : Nat} (hle : limit ≤ limit') :
    (Evaluator.walk h).Relates (Evaluator.walk h) limit limit' (¬ EvalError.IsOverflow ·)
      (fun depth p p' => p.Cuts limit depth p') where
  pure _ := .still (fun _ => rfl) id
  bind hp hk := hp.bind hk
  ofExcept outcome hown := .ofExcept outcome (not_overflows_of_error hown)
  fresh := ⟨fun _ => List.prefix_rfl, fun _ _ => ⟨_, _, rfl, .inl ⟨id, rfl⟩⟩⟩
  invoke := .invoke hh
  both hp hp' := hp.bind fun _ => hp'.bind fun _ => .still (fun _ => rfl) id
  within := .within hle
  nullish _ _ := id

/-! ### The evaluation in rounds -/

/-- The log goes on from some events, and in each poll from what it was at
the poll's beginning. -/
def Round.Adds : Round σ α → List Event → Prop
  | .ready w _, events => events <+: w.log.toList
  | .pending w resume, events =>
    events <+: w.log.toList ∧ ∀ w', (resume w').Adds w'.log.toList

/-- In every poll the log only grows. -/
def Rounds.Adds (q : Rounds h α) : Prop := ∀ w, (q w).Adds w.log.toList

/-- Poll by poll the same as the other round, until one of the polls overflows
at the limit: from its log the other one goes on. -/
def Round.Cuts (limit : Nat) : Round σ α → Round σ α → Prop
  | .ready w outcome, r' => (¬ Overflows outcome ∧ r' = .ready w outcome) ∨
      (outcome = .error (.stackOverflow limit limit) ∧ r'.Adds w.log.toList)
  | .pending w resume, r' =>
    ∃ resume', r' = .pending w resume' ∧ ∀ w₁, (resume w₁).Cuts limit (resume' w₁)

/-- At a depth within the limit the evaluation in rounds is a cut of another
one. -/
def Rounds.Cuts (limit depth : Nat) (q q' : Rounds h α) : Prop :=
  q'.Adds ∧ (depth ≤ limit → ∀ w, (q w).Cuts limit (q' w))

namespace Round

variable {limit : Nat} {events events' : List Event}

/-- Adding to a log adds to its beginnings. -/
theorem Adds.mono {r : Round σ α} (hr : r.Adds events) (hle : events' <+: events) :
    r.Adds events' := by
  cases r with
  | ready w outcome => exact hle.trans hr
  | pending w resume => exact ⟨hle.trans hr.1, hr.2⟩

/-- At the end of a round everything is still in the log. -/
theorem Adds.finish {r : Round σ α} (hr : r.Adds events) :
    events <+: r.finish.2.log.toList := by
  induction r generalizing events with
  | ready w outcome => exact hr
  | pending w resume ih => exact hr.1.trans (ih w (hr.2 w))

/-- A round that goes on into others only adds if they do. -/
theorem Adds.andThen {r : Round σ α} {k : α → World σ → Round σ β} (hr : r.Adds events)
    (hk : ∀ a w, (k a w).Adds w.log.toList) : (r.andThen k).Adds events := by
  induction r generalizing events with
  | ready w outcome =>
      cases outcome with
      | ok a => exact (hk a w).mono hr
      | error e => exact hr
  | pending w resume ih => exact ⟨hr.1, fun w' => ih w' (hr.2 w')⟩

/-- A pair whose left part is pending goes on from where its right part has
been polled. -/
theorem Adds.both_pending {w : World σ} {resume : World σ → Round σ α}
    {q : World σ → Round σ β} (hq : (q w).Adds events)
    (hresume : ∀ w', (resume w').Adds w'.log.toList)
    (hpair : ∀ w' (resume' : World σ → Round σ β), (∀ w₁, (resume' w₁).Adds w₁.log.toList) →
      ((resume w').both resume').Adds w'.log.toList) :
    ((Round.pending w resume).both q).Adds events := by
  rw [Round.both]
  generalize q w = s at hq
  cases s with
  | ready w₁ outcome =>
      cases outcome with
      | ok b => exact ⟨hq, fun w' => (hresume w').andThen fun a w => List.prefix_rfl⟩
      | error e => exact hq
  | pending w₁ resume' => exact ⟨hq.1, fun w' => hpair w' resume' hq.2⟩

/-- Two rounds side by side only add if both do. -/
theorem Adds.both {r : Round σ α} {q : World σ → Round σ β} (hr : r.Adds events)
    (hq : ∀ w, (q w).Adds w.log.toList) : (r.both q).Adds events := by
  induction r generalizing q events with
  | ready w outcome =>
      cases outcome with
      | ok a => exact ((hq w).mono hr).andThen fun b w => List.prefix_rfl
      | error e => exact hr
  | pending w resume ih =>
      exact .both_pending ((hq w).mono hr.1) hr.2 fun w' resume' hresume' =>
        ih w' (hr.2 w') hresume'

/-- What holds round by round holds of the run to its end. -/
theorem Cuts.finish {r r' : Round σ α} (hr : r.Cuts limit r') :
    IsCut limit r.finish r'.finish := by
  induction r generalizing r' with
  | ready w outcome =>
      obtain ⟨hover, rfl⟩ | ⟨rfl, hadds⟩ := hr
      · exact .refl limit hover
      · exact .cut hadds.finish
  | pending w resume ih =>
      obtain ⟨resume', rfl, hresume⟩ := hr
      show IsCut limit (resume w).finish (resume' w).finish
      exact ih w (hresume w)

/-- Two rounds in a row are cut as two evaluators are. -/
theorem Cuts.andThen {r r' : Round σ α} {k k' : α → World σ → Round σ β}
    (hr : r.Cuts limit r') (hk : ∀ a w, (k a w).Cuts limit (k' a w))
    (hadds : ∀ a w, (k' a w).Adds w.log.toList) :
    (r.andThen k).Cuts limit (r'.andThen k') := by
  induction r generalizing r' with
  | ready w outcome =>
      obtain ⟨hover, rfl⟩ | ⟨rfl, hr'⟩ := hr
      · cases outcome with
        | ok a => exact hk a w
        | error e => exact .inl ⟨hover, rfl⟩
      · exact .inr ⟨rfl, hr'.andThen hadds⟩
  | pending w resume ih =>
      obtain ⟨resume', rfl, hresume⟩ := hr
      exact ⟨_, rfl, fun w₁ => ih w₁ (hresume w₁)⟩

/-- An overflow in either part ends the pair. If it is the right one, the left
one has been polled by both. -/
theorem Cuts.both {r r' : Round σ α} {q q' : World σ → Round σ β} (hr : r.Cuts limit r')
    (hr' : r'.Adds events) (hq : ∀ w, (q w).Cuts limit (q' w))
    (hq' : ∀ w, (q' w).Adds w.log.toList) : (r.both q).Cuts limit (r'.both q') := by
  induction r generalizing r' q q' events with
  -- The left part is over before the right one begins, or it is polled first each time.
  | ready w outcome =>
      obtain ⟨hover, rfl⟩ | ⟨rfl, hadds⟩ := hr
      · cases outcome with
        | ok a =>
            exact (hq w).andThen (fun b w => .inl ⟨id, rfl⟩)
              fun b w => List.prefix_rfl
        | error e => exact .inl ⟨hover, rfl⟩
      · exact .inr ⟨rfl, hadds.both hq'⟩
  | pending w resume ih =>
      obtain ⟨resume', rfl, hresume⟩ := hr
      have hright := hq w
      rw [Round.both]
      generalize q w = s at hright
      cases s with
      | ready w₁ outcome =>
          obtain ⟨hover, hsame⟩ | ⟨rfl, hadds⟩ := hright
          · rw [Round.both, hsame]
            cases outcome with
            | ok b =>
                refine ⟨_, rfl, fun w₂ => (hresume w₂).andThen (fun a w => ?_)
                  fun a w => List.prefix_rfl⟩
                exact .inl ⟨id, rfl⟩
            | error e => exact .inl ⟨hover, rfl⟩
          · refine .inr ⟨rfl, hadds.both_pending hr'.2 fun w' resume'' hresume'' => ?_⟩
            exact (hr'.2 w').both hresume''
      | pending w₁ resume₁ =>
          obtain ⟨resume₁', hsame, hresume₁⟩ := hright
          have hadds : (∀ w', (resume₁' w').Adds w'.log.toList) := by
            have := hq' w
            rw [hsame] at this
            exact this.2
          rw [Round.both, hsame]
          exact ⟨_, rfl, fun w₂ => ih w₂ (hresume w₂) (hr'.2 w₂) hresume₁ hadds⟩

/-- Waiting adds nothing. -/
theorem Adds.after (ticks : Nat) {next : World σ → Round σ α}
    (hnext : ∀ w, (next w).Adds w.log.toList) (w : World σ) :
    (Round.after ticks next w).Adds w.log.toList := by
  induction ticks generalizing w with
  | zero => exact hnext w
  | succ ticks ih => exact ⟨List.prefix_rfl, ih⟩

/-- Waiting is the same under any limit. -/
theorem Cuts.after (ticks : Nat) {next : World σ → Round σ α}
    (hnext : ∀ w, (next w).Cuts limit (next w)) (w : World σ) :
    (Round.after ticks next w).Cuts limit (Round.after ticks next w) := by
  induction ticks generalizing w with
  | zero => exact hnext w
  | succ ticks ih => exact ⟨_, rfl, ih⟩

end Round

/-- A call is the same under any limit, be the function one that has to be
waited for or not. -/
theorem Rounds.Cuts.invoke (hh : h.NeverOverflows) {limit depth : Nat} (f : HostFunction)
    (receiver : Value) (arguments : List Value) :
    (Rounds.invoke f receiver arguments : Rounds h Value).Cuts limit depth
      (.invoke f receiver arguments) := by
  -- A function that has to be waited for records its call, and later its completion.
  cases hasync : f.isAsync with
  | true =>
      refine ⟨fun w => ?_, fun _ w => ?_⟩
      · simp only [Rounds.invoke, hasync, if_true]
        refine (Round.Adds.after _ (fun w₁ => ?_) _).mono (w.prefix_record _)
        exact w₁.prefix_record (.completed f)
      · simp only [Rounds.invoke, hasync, if_true]
        refine .after _ (fun w₁ => ?_) _
        exact .inl ⟨hh f receiver arguments _, rfl⟩
  | false =>
      refine ⟨fun w => ?_, fun _ w => ?_⟩
      · simp only [Rounds.invoke, hasync, Bool.false_eq_true, if_false]
        exact w.prefix_record _
      · simp only [Rounds.invoke, hasync, Bool.false_eq_true, if_false]
        exact .inl ⟨hh f receiver arguments _, rfl⟩

/-- Refusing a level adds nothing, and entering it only what is inside. -/
theorem Rounds.Adds.within {q : Rounds h α} (limit depth : Nat) (hq : q.Adds) :
    (q.within limit depth).Adds := by
  intro w
  unfold Rounds.within
  split
  · exact hq w
  · exact List.prefix_rfl

/-- A level is entered on both sides, or refused at the lower limit. -/
theorem Rounds.Cuts.within {limit limit' depth : Nat} (hle : limit ≤ limit') {q q' : Rounds h α}
    (hq : q.Cuts limit (depth + 1) q') :
    (q.within limit depth).Cuts limit depth (q'.within limit' depth) := by
  refine ⟨hq.1.within limit' depth, fun hdepth w => ?_⟩
  by_cases hlt : depth < limit
  · have hlt' : depth < limit' := by omega
    simp only [Rounds.within, hlt, hlt', if_true]
    exact hq.2 hlt w
  · obtain rfl : depth = limit := by omega
    rw [Rounds.within, if_neg hlt]
    exact .inr ⟨rfl, hq.1.within limit' depth w⟩

/-- Each way of putting evaluations together keeps the cut in rounds. -/
theorem Rounds.cuts (hh : h.NeverOverflows) {limit limit' : Nat} (hle : limit ≤ limit') :
    (Rounds.walk h).Relates (Rounds.walk h) limit limit' (¬ EvalError.IsOverflow ·)
      (fun depth q q' => q.Cuts limit depth q') where
  pure _ := ⟨fun _ => List.prefix_rfl, fun _ _ => .inl ⟨id, rfl⟩⟩
  bind hq hk := ⟨fun w => (hq.1 w).andThen fun a => (hk a).1, fun hdepth w =>
    (hq.2 hdepth w).andThen (fun a => (hk a).2 hdepth) fun a => (hk a).1⟩
  ofExcept _ hown := ⟨fun _ => List.prefix_rfl, fun _ _ =>
    .inl ⟨not_overflows_of_error hown, rfl⟩⟩
  fresh := ⟨fun _ => List.prefix_rfl, fun _ _ => .inl ⟨id, rfl⟩⟩
  invoke := .invoke hh
  both hq hq' := ⟨fun w => (hq.1 w).both hq'.1, fun hdepth w =>
    (hq.2 hdepth w).both (hq.1 w) (hq'.2 hdepth) hq'.1⟩
  within := .within hle
  nullish _ _ := id

/-! ### Trees within the limit -/

mutual

/-- The nodes on a longest path from the root to a leaf. A call and the member
expression that is called count as one. -/
def Expr.height : Expr → Nat
  | .literal _ => 1
  | .identifier _ => 1
  | .this => 1
  | .array elements => 1 + Expr.heightOfEach elements
  | .unary _ argument => 1 + argument.height
  | .binary _ left right => 1 + max left.height right.height
  | .logical _ left right => 1 + max left.height right.height
  | .conditional test consequent alternate =>
    1 + max test.height (max consequent.height alternate.height)
  | .member object property _ => 1 + max object.height property.height
  | .call callee arguments =>
    1 + max
      (match callee with
      | .member object property _ => max object.height property.height
      | callee => callee.height)
      (Expr.heightOfEach arguments)
  | .unknown => 1

/-- The greatest height in a list of trees. -/
def Expr.heightOfEach : List Expr → Nat
  | [] => 0
  | e :: es => max e.height (Expr.heightOfEach es)

end

/-- The walk that counts no levels. -/
def Walk.unlimited {M : Type → Type} [Monad M] (W : Walk M) : Walk M :=
  { W with within := fun _ _ p => p }

section

variable {M : Type → Type} [Monad M] {W : Walk M} {limit : Nat}

mutual

/-- No level of a tree that ends within the limit is refused. -/
theorem Walk.eval_eq_unlimited
    (hW : ∀ {α : Type} (depth : Nat) (p : M α), depth < limit → W.within limit depth p = p)
    (ctx : Context) : (e : Expr) → (depth : Nat) → depth + e.height ≤ limit →
    W.eval ctx limit depth e = W.unlimited.eval ctx limit depth e
  -- Each level is below the limit, so that `hW` takes the limit away, and the parts are one
  -- level lower and less high.
  | .literal _, depth, hheight => hW depth _ hheight
  | .identifier _, depth, hheight => hW depth _ hheight
  | .this, depth, hheight => hW depth _ hheight
  | .array elements, depth, hheight => by
      rw [Expr.height] at hheight
      rw [Walk.eval, hW depth _ (by omega),
        evalEach_eq_unlimited hW ctx elements (depth + 1) (by omega), Walk.eval]
      rfl
  | .unary operator argument, depth, hheight => by
      rw [Expr.height] at hheight
      rw [Walk.eval, hW depth _ (by omega),
        eval_eq_unlimited hW ctx argument (depth + 1) (by omega), Walk.eval]
      rfl
  | .binary operator left right, depth, hheight => by
      rw [Expr.height] at hheight
      rw [Walk.eval, hW depth _ (by omega),
        eval_eq_unlimited hW ctx left (depth + 1) (by omega),
        eval_eq_unlimited hW ctx right (depth + 1) (by omega), Walk.eval]
      rfl
  | .logical operator left right, depth, hheight => by
      rw [Expr.height] at hheight
      rw [Walk.eval, hW depth _ (by omega),
        eval_eq_unlimited hW ctx left (depth + 1) (by omega),
        eval_eq_unlimited hW ctx right (depth + 1) (by omega), Walk.eval]
      rfl
  | .conditional test consequent alternate, depth, hheight => by
      rw [Expr.height] at hheight
      rw [Walk.eval, hW depth _ (by omega),
        eval_eq_unlimited hW ctx test (depth + 1) (by omega),
        eval_eq_unlimited hW ctx consequent (depth + 1) (by omega),
        eval_eq_unlimited hW ctx alternate (depth + 1) (by omega), Walk.eval]
      rfl
  | .member object property computed, depth, hheight => by
      rw [Expr.height] at hheight
      rw [Walk.eval, hW depth _ (by omega),
        eval_eq_unlimited hW ctx object (depth + 1) (by omega),
        eval_eq_unlimited hW ctx property (depth + 1) (by omega), Walk.eval]
      rfl
  | .call callee arguments, depth, hheight => by
      -- The callee of a method is no level of its own, and its object and name take its level.
      have hplain := eval_eq_unlimited hW ctx callee (depth + 1)
      have harguments := evalEach_eq_unlimited hW ctx arguments (depth + 1)
      cases callee with
      | member object property computed =>
          simp only [Expr.height] at hheight
          rw [Walk.eval, hW depth _ (by omega), harguments (by omega),
            eval_eq_unlimited hW ctx object (depth + 1) (by omega),
            eval_eq_unlimited hW ctx property (depth + 1) (by omega), Walk.eval]
          rfl
      | _ =>
          simp only [Expr.height] at hheight hplain
          rw [Walk.eval_call, hW depth _ (by omega), hplain (by omega), harguments (by omega),
            Walk.eval_call W.unlimited ctx limit depth]
          · rfl
          all_goals exact nofun
  | .unknown, depth, hheight => hW depth _ hheight

/-- No tree of a list is refused if all are within the limit. -/
theorem Walk.evalEach_eq_unlimited
    (hW : ∀ {α : Type} (depth : Nat) (p : M α), depth < limit → W.within limit depth p = p)
    (ctx : Context) : (es : List Expr) → (depth : Nat) → depth + Expr.heightOfEach es ≤ limit →
    W.evalEach ctx limit depth es = W.unlimited.evalEach ctx limit depth es
  | [], _, _ => rfl
  | e :: es, depth, hheight => by
      rw [Expr.heightOfEach] at hheight
      rw [Walk.evalEach, eval_eq_unlimited hW ctx e depth (by omega),
        evalEach_eq_unlimited hW ctx es depth (by omega), Walk.evalEach]
      rfl

end

/-- Nor is the tree of a member. -/
theorem Walk.evalMember_eq_unlimited
    (hW : ∀ {α : Type} (depth : Nat) (p : M α), depth < limit → W.within limit depth p = p)
    (ctx : Context) (e : Expr) (he : e.height ≤ limit) :
    W.evalMember ctx limit e = W.unlimited.evalMember ctx limit e := by
  have hplain := Walk.eval_eq_unlimited hW ctx e 0 (by omega)
  cases e with
  | member object property computed =>
      simp only [Expr.height] at he
      rw [Walk.evalMember, Walk.eval_eq_unlimited hW ctx object 0 (by omega),
        Walk.eval_eq_unlimited hW ctx property 0 (by omega), Walk.evalMember]
      rfl
  | _ =>
      rw [Walk.evalMember, hplain, Walk.evalMember]
      all_goals exact nofun

end

/-- Without levels nothing overflows in rounds. -/
theorem Rounds.unlimited_keeps (hh : h.NeverOverflows) (limit : Nat) :
    (Rounds.walk h).unlimited.Relates (Rounds.walk h).unlimited limit limit
      (¬ EvalError.IsOverflow ·)
      (fun _ q _ => q.Keeps (fun _ => True) fun e _ => ¬ e.IsOverflow) where
  pure _ _ _ := trivial
  bind hq hk w hw := (hq w hw).andThen hk
  ofExcept outcome hown w _ := by
    cases outcome with
    | ok a => trivial
    | error e => exact hown e rfl
  fresh _ _ := trivial
  -- Only a host function could report an overflow, and those of `h` do not.
  invoke f receiver arguments w _ := by
    have hanswer : ∀ w₁ : World σ, Round.Keeps (fun _ => True) (fun e _ => ¬ e.IsOverflow)
        (Rounds.answer h f receiver arguments w₁) := by
      intro w₁
      have hrespond := hh f receiver arguments w₁.toStore
      show Settled _ _ (h.respond f receiver arguments w₁.toStore).1 _
      generalize (h.respond f receiver arguments w₁.toStore).1 = answer at hrespond
      cases answer with
      | ok a => trivial
      | error e => exact hrespond
    show Round.Keeps _ _ (Rounds.invoke f receiver arguments w)
    unfold Rounds.invoke
    dsimp only
    split
    · exact .after _ (fun w₁ _ => hanswer _) trivial
    · exact hanswer _
  both hq hq' w hw := (hq w hw).both hq'
  within hq := hq
  nullish _ _ := id

/-- Below the limit every level is entered. -/
theorem Rounds.within_of_lt {limit : Nat} (depth : Nat) (q : Rounds h α) (hlt : depth < limit) :
    (Rounds.walk h).within limit depth q = q :=
  if_pos hlt

/-- A run all of whose errors are no overflows is none. -/
theorem Round.Keeps.not_overflows {r : Round σ α}
    (hr : r.Keeps (fun _ => True) fun e _ => ¬ e.IsOverflow) : ¬ Overflows r.finish.1 := by
  have hend := hr.finish
  generalize r.finish = run at hend
  rcases run with ⟨outcome, w⟩
  cases outcome with
  | ok a => exact id
  | error e => exact hend

/-- If the evaluation in rounds is never pending it has the evaluator's
outcome, and a refused function is no overflow. -/
theorem Agrees.not_overflows {p : Evaluator h α} {q : Rounds h α} (hpq : Agrees 0 p q)
    {w : World σ} (hq : ¬ Overflows (q.run w).1) : ¬ Overflows (p.start w).1 := by
  obtain ⟨outcome, w₁, hp, hready⟩ := hpq w
  by_cases hrefused : ∃ f, outcome = .error (.refused f)
  · obtain ⟨f, rfl⟩ := hrefused
    simp only [Evaluator.start, hp]
    exact id
  · have hrun : q w = .ready w₁ (outcome.mapError Halt.error) :=
      hready fun f hf => hrefused ⟨f, hf⟩
    simp only [Rounds.run, hrun, Round.finish] at hq
    simpa only [Evaluator.start, hp] using hq

/-- A tree within the limit does not overflow, nor does the receiver and the
value of a member. -/
theorem Expr.not_overflows_of_height_le (hh : h.NeverOverflows) (ctx : Context) {limit : Nat}
    {e : Expr} (he : e.height ≤ limit) (w : World σ) :
    ¬ Overflows (evaluate h ctx limit e w).1 ∧
    ¬ Overflows ((evaluateInRounds h ctx limit e).run w).1 ∧
    ¬ Overflows (evaluateMember h ctx limit e w).1 ∧
    ¬ Overflows ((evaluateMemberInRounds h ctx limit e).run w).1 := by
  have hown : ∀ n ∈ e.nodes, n.OperatorFails (¬ EvalError.IsOverflow ·) := fun n _ =>
    n.operatorFails fun _ => id
  -- Within its height a tree is evaluated as without a limit, and there only the limit itself
  -- overflows. The native evaluation ends as the one in rounds.
  have htree : ¬ Overflows ((evaluateInRounds h ctx limit e).run w).1 := by
    have hkeeps := (Rounds.unlimited_keeps hh limit).eval ctx e 0 hown w trivial
    rw [← Walk.eval_eq_unlimited Rounds.within_of_lt ctx e 0 (by omega),
      ← Rounds.eval_eq_walk] at hkeeps
    exact hkeeps.not_overflows
  have hmember : ¬ Overflows ((evaluateMemberInRounds h ctx limit e).run w).1 := by
    have hkeeps := (Rounds.unlimited_keeps hh limit).evalMember ctx e hown w trivial
    rw [← Walk.evalMember_eq_unlimited Rounds.within_of_lt ctx e he,
      ← Rounds.evalMember_eq_walk] at hkeeps
    exact hkeeps.not_overflows
  exact ⟨(eval_agrees ctx limit e 0).not_overflows htree, htree,
    (evalMember_agrees ctx limit e).not_overflows hmember, hmember⟩

/-! ### Runs -/

/-- The limit only cuts. If no function of the host overflows by itself, the
evaluation of a tree under a limit is the same as under any higher one, with
the same outcome in the same world, or else it ends with an overflow at the
limit, and its log is the beginning of the other's. This holds of both
evaluations, of trees and of member expressions. No tree whose height is within
the limit overflows. -/
theorem evaluations_isCut (hh : h.NeverOverflows) (ctx : Context) (e : Expr) (w : World σ)
    {limit limit' : Nat} (hle : limit ≤ limit') :
    IsCut limit (evaluate h ctx limit e w) (evaluate h ctx limit' e w) ∧
    IsCut limit ((evaluateInRounds h ctx limit e).run w)
      ((evaluateInRounds h ctx limit' e).run w) ∧
    IsCut limit (evaluateMember h ctx limit e w) (evaluateMember h ctx limit' e w) ∧
    IsCut limit ((evaluateMemberInRounds h ctx limit e).run w)
      ((evaluateMemberInRounds h ctx limit' e).run w) ∧
    (e.height ≤ limit →
      ¬ Overflows (evaluate h ctx limit e w).1 ∧
      ¬ Overflows ((evaluateInRounds h ctx limit e).run w).1 ∧
      ¬ Overflows (evaluateMember h ctx limit e w).1 ∧
      ¬ Overflows ((evaluateMemberInRounds h ctx limit e).run w).1) := by
  have hown : ∀ n ∈ e.nodes, n.OperatorFails (¬ EvalError.IsOverflow ·) := fun n _ =>
    n.operatorFails fun _ => id
  -- Both evaluations are walks, so each of the four is an instance of one relation.
  refine ⟨?_, ?_, ?_, ?_, fun he => Expr.not_overflows_of_height_le hh ctx he w⟩
  · unfold evaluate
    rw [Evaluator.eval_eq_walk ctx limit e 0, Evaluator.eval_eq_walk ctx limit' e 0]
    exact ((Evaluator.cuts hh hle).eval ctx e 0 hown).start w
  · unfold evaluateInRounds
    rw [Rounds.eval_eq_walk ctx limit e 0, Rounds.eval_eq_walk ctx limit' e 0]
    exact (((Rounds.cuts hh hle).eval ctx e 0 hown).2 (Nat.zero_le limit) w).finish
  · unfold evaluateMember
    rw [Evaluator.evalMember_eq_walk, Evaluator.evalMember_eq_walk]
    exact ((Evaluator.cuts hh hle).evalMember ctx e hown).start w
  · unfold evaluateMemberInRounds
    rw [Rounds.evalMember_eq_walk, Rounds.evalMember_eq_walk]
    exact (((Rounds.cuts hh hle).evalMember ctx e hown).2 (Nat.zero_le limit) w).finish

/-- No registered function fails with an overflow. -/
theorem Registry.neverOverflows (r : Registry) : r.host.NeverOverflows := by
  intro f receiver arguments s
  refine not_overflows_of_error fun e he => ?_
  obtain ⟨property, base, rfl⟩ | ⟨message, rfl⟩ := Registry.eq_of_respond_error he <;> exact id

/-- Between two calls stands a constant at the depth of three. Under a limit of
three the evaluation ends there, after the first call, and under four it comes
to the second one: the tree is no higher. So it is in rounds, where the first
call is pending and answers only after the second. -/
theorem evaluations_isCut_between_calls :
    let h := Registry.host #[⟨"tick", .counter, 0, false⟩, ⟨"slow", .counter, 1, false⟩]
    let tick : HostFunction := ⟨0, false⟩
    let slow : HostFunction := ⟨1, true⟩
    let ctx : Context := ⟨⟨0, [("tick", .function tick), ("slow", .function slow)]⟩, none⟩
    let e (first : String) : Expr := .array [.call (.field .this first) [],
      .unary "-" (.unary "-" (.literal .null)), .call (.field .this "tick") []]
    let w : World Counters := ⟨⟨1, []⟩, #[]⟩
    h.NeverOverflows ∧ (e "tick").height = 4 ∧
      (evaluate h ctx 3 (e "tick") w).1 = .error (.stackOverflow 3 3) ∧
      (evaluate h ctx 3 (e "tick") w).2.log = #[.called tick ctx.thisValue []] ∧
      (evaluate h ctx 4 (e "tick") w).2.log
        = #[.called tick ctx.thisValue [], .called tick ctx.thisValue []] ∧
      IsCut 3 (evaluate h ctx 3 (e "tick") w) (evaluate h ctx 4 (e "tick") w) ∧
      ¬ Overflows (evaluate h ctx 4 (e "tick") w).1 ∧
      ((evaluateInRounds h ctx 3 (e "slow")).run w).2.log = #[.called slow ctx.thisValue []] ∧
      ((evaluateInRounds h ctx 4 (e "slow")).run w).2.log = #[.called slow ctx.thisValue [],
        .called tick ctx.thisValue [], .completed slow] ∧
      IsCut 3 ((evaluateInRounds h ctx 3 (e "slow")).run w)
        ((evaluateInRounds h ctx 4 (e "slow")).run w) := by
  -- The middle element is one level too high, so only the first call is in the log; with a first
  -- one that is waited for, the third is not even begun.
  intro h tick slow ctx e w
  have hh : h.NeverOverflows := Registry.neverOverflows _
  have hheight : (e "tick").height = 4 := rfl
  have hcut := evaluations_isCut hh ctx (e "tick") w (show 3 ≤ 4 by decide)
  have hcut' := evaluations_isCut hh ctx (e "slow") w (show 3 ≤ 4 by decide)
  have hwithin := (evaluations_isCut hh ctx (e "tick") w (Nat.le_refl 4)).2.2.2.2
    (Nat.le_of_eq hheight)
  exact ⟨hh, hheight, rfl, rfl, rfl, hcut.1, hwithin.1, rfl, rfl, hcut'.2.1⟩

end Formula
