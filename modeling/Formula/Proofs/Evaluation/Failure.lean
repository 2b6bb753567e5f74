import Formula.Host.Registry
import Formula.Proofs.Evaluation.Invariance

/-!
# `Formula.Proofs.Evaluation.Failure`: the first failure ends an evaluation

The log of a world has the calls of the host, and not what the host has
answered. A host that keeps a record of its answers tells it, and changes
nothing of the evaluation: it answers and delays like the one it records.

* `Host.recording`: the host with the record of its answers.
* `Round.Mirrors`: an evaluation with the record and one without it go the
  same way, in each round.
* `World.Unfailed`, `World.Stopped`: an evaluation goes on while no answer
  was a failure; it fails with an error of its own, or with the last answer,
  which was given at the last event.
* `unfailed_invariance`: the host that keeps a record keeps this invariant.
* `run_endsWithFirstFailure`: the runs of both evaluations, over whole trees and
  over member expressions, end with the first failure.
-/

set_option autoImplicit false

namespace Formula

variable {σ α β : Type}

/-! ### The record -/

/-- What a function of the host has answered. -/
structure Answer where
  function : HostFunction
  receiver : Value
  arguments : List Value
  outcome : Except EvalError Value

/-- The event at which an answer is given: a native function answers when it
is called, and an asynchronous one when it becomes ready. -/
def Answer.event (a : Answer) : Event :=
  if a.function.isAsync then .completed a.function
  else .called a.function a.receiver a.arguments

/-- Whether a function answers at an event. -/
def Event.isAnswered : Event → Bool
  | .called f _ _ => !f.isAsync
  | .completed _ => true

/-- An answer is recorded as one. -/
theorem Answer.isAnswered_event (a : Answer) : a.event.isAnswered = true := by
  unfold Answer.event
  cases hasync : a.function.isAsync with
  | true => rfl
  | false => simp [Event.isAnswered, hasync]

/-- The host that keeps a record of its answers beside its state. -/
def Host.recording (h : Host σ) : Host (σ × List Answer) where
  delay := h.delay
  start f receiver arguments s :=
    let s' := h.start f receiver arguments ⟨s.nextIdentity, s.state.1⟩
    ⟨s'.nextIdentity, s'.state, s.state.2⟩
  respond f receiver arguments s :=
    let (outcome, s') := h.respond f receiver arguments ⟨s.nextIdentity, s.state.1⟩
    (outcome, ⟨s'.nextIdentity, s'.state, s.state.2 ++ [⟨f, receiver, arguments, outcome⟩]⟩)

namespace World

/-- The world with an empty record. -/
def recording (w : World σ) : World (σ × List Answer) := ⟨⟨w.nextIdentity, w.state, []⟩, w.log⟩

/-- The world without its record. -/
def plain (w : World (σ × List Answer)) : World σ := ⟨⟨w.nextIdentity, w.state.1⟩, w.log⟩

/-- The answers that the host has given, the first one first. -/
def answers (w : World (σ × List Answer)) : List Answer := w.state.2

/-- A recording host writes down each of its answers. -/
theorem answers_respond (h : Host σ) (f : HostFunction) (receiver : Value)
    (arguments : List Value) (w : World (σ × List Answer)) :
    (w.respond h.recording f receiver arguments).2.answers = w.answers ++
      [⟨f, receiver, arguments, (w.respond h.recording f receiver arguments).1⟩] := rfl

/-- It leaves the log alone. -/
theorem log_respond (h : Host σ) (f : HostFunction) (receiver : Value)
    (arguments : List Value) (w : World (σ × List Answer)) :
    (w.respond h.recording f receiver arguments).2.log = w.log := rfl

end World

/-- The state of an evaluator without the record. -/
def Evaluator.State.plain (s : Evaluator.State (σ × List Answer)) : Evaluator.State σ :=
  ⟨s.depth, s.world.plain⟩

/-! ### The record changes nothing -/

/-- The evaluator without the record does what the one with it does. -/
def Evaluator.Mirrors {h : Host σ} (p : Evaluator h α) (p' : Evaluator h.recording α) : Prop :=
  ∀ s, p s.plain = ((p' s).1, (p' s).2.plain)

/-- In each poll the evaluation without the record does what the one with it
does, if they are polled in the same world. -/
def Round.Mirrors : Round σ α → Round (σ × List Answer) α → Prop
  | .ready w outcome, .ready w' outcome' => w = w'.plain ∧ outcome = outcome'
  | .pending w resume, .pending w' resume' =>
    w = w'.plain ∧ ∀ w₁, (resume w₁.plain).Mirrors (resume' w₁)
  | _, _ => False

/-- The evaluation in rounds without the record does what the one with it
does. -/
def Rounds.Mirrors {h : Host σ} (q : Rounds h α) (q' : Rounds h.recording α) : Prop :=
  ∀ w, (q w.plain).Mirrors (q' w)

namespace Round.Mirrors

/-- Runs that mirror each other end alike. -/
theorem finish {r : Round σ α} {r' : Round (σ × List Answer) α} (hr : r.Mirrors r') :
    r.finish = (r'.finish.1, r'.finish.2.plain) := by
  induction r generalizing r' with
  | ready w outcome =>
      -- Both are ready or both are pending, and then they stay in step.
      cases r' with
      | ready w' outcome' =>
          obtain ⟨rfl, rfl⟩ := hr
          rfl
      | pending w' resume' => exact hr.elim
  | pending w resume ih =>
      cases r' with
      | ready w' outcome' => exact hr.elim
      | pending w' resume' =>
          obtain ⟨rfl, hresume⟩ := hr
          have hfinish := ih w'.plain (hresume w')
          exact hfinish

/-- Two rounds in a row mirror if each does. -/
theorem andThen {r : Round σ α} {r' : Round (σ × List Answer) α} {k : α → World σ → Round σ β}
    {k' : α → World (σ × List Answer) → Round (σ × List Answer) β} (hr : r.Mirrors r')
    (hk : ∀ a w, (k a w.plain).Mirrors (k' a w)) : (r.andThen k).Mirrors (r'.andThen k') := by
  induction r generalizing r' with
  | ready w outcome =>
      -- By the first round; a pending one goes on in step.
      cases r' with
      | ready w' outcome' =>
          obtain ⟨rfl, rfl⟩ := hr
          cases outcome with
          | ok a => exact hk a w'
          | error e => exact ⟨rfl, rfl⟩
      | pending w' resume' => exact hr.elim
  | pending w resume ih =>
      cases r' with
      | ready w' outcome' => exact hr.elim
      | pending w' resume' =>
          obtain ⟨rfl, hresume⟩ := hr
          exact ⟨rfl, fun w₁ => ih _ (hresume w₁)⟩

/-- Two rounds side by side mirror if both do. -/
theorem both {r : Round σ α} {r' : Round (σ × List Answer) α} {q : World σ → Round σ β}
    {q' : World (σ × List Answer) → Round (σ × List Answer) β} (hr : r.Mirrors r')
    (hq : ∀ w, (q w.plain).Mirrors (q' w)) : (r.both q).Mirrors (r'.both q') := by
  induction r generalizing r' q q' with
  | ready w outcome =>
      cases r' with
      | pending w' resume' => exact hr.elim
      | ready w' outcome' =>
          obtain ⟨rfl, rfl⟩ := hr
          cases outcome with
          | ok a => exact (hq w').andThen fun b w => ⟨rfl, rfl⟩
          | error e => exact ⟨rfl, rfl⟩
  | pending w resume ih =>
      cases r' with
      | ready w' outcome' => exact hr.elim
      | pending w' resume' =>
          obtain ⟨rfl, hresume⟩ := hr
          have hright := hq w'
          rw [Round.both, Round.both]
          -- The right parts are polled alike, and so they are ready together.
          generalize q w'.plain = s at hright
          generalize q' w' = s' at hright
          cases s with
          | ready w₁ outcome =>
              cases s' with
              | pending w₁' resume₁' => exact hright.elim
              | ready w₁' outcome' =>
                  obtain ⟨rfl, rfl⟩ := hright
                  cases outcome with
                  | ok b => exact ⟨rfl, fun w₂ => (hresume w₂).andThen fun a w => ⟨rfl, rfl⟩⟩
                  | error e => exact ⟨rfl, rfl⟩
          | pending w₁ resume₁ =>
              cases s' with
              | ready w₁' outcome' => exact hright.elim
              | pending w₁' resume₁' =>
                  obtain ⟨rfl, hresume₁⟩ := hright
                  exact ⟨rfl, fun w₂ => ih _ (hresume w₂) hresume₁⟩

/-- Waiting mirrors waiting. -/
theorem after (ticks : Nat) {next : World σ → Round σ α}
    {next' : World (σ × List Answer) → Round (σ × List Answer) α}
    (hnext : ∀ w, (next w.plain).Mirrors (next' w)) (w : World (σ × List Answer)) :
    (Round.after ticks next w.plain).Mirrors (Round.after ticks next' w) := by
  induction ticks generalizing w with
  | zero => exact hnext w
  | succ ticks ih => exact ⟨rfl, ih⟩

end Round.Mirrors

variable {h : Host σ}

/-- Two evaluators in a row mirror if each does. -/
theorem Evaluator.Mirrors.bind {p : Evaluator h α} {p' : Evaluator h.recording α}
    {k : α → Evaluator h β} {k' : α → Evaluator h.recording β} (hp : p.Mirrors p')
    (hk : ∀ a, (k a).Mirrors (k' a)) : (p >>= k).Mirrors (p' >>= k') := by
  intro s
  have hstep := hp s
  show Evaluator.andThen p k _
    = ((Evaluator.andThen p' k' s).1, (Evaluator.andThen p' k' s).2.plain)
  rcases hrun : p' s with ⟨outcome, s'⟩
  rw [hrun] at hstep
  simp only [Evaluator.andThen, hstep, hrun]
  cases outcome with
  | ok a => exact hk a s'
  | error halt => rfl

/-- A call mirrors the recorded one. -/
theorem Evaluator.Mirrors.invoke (f : HostFunction) (receiver : Value) (arguments : List Value) :
    (Evaluator.invoke f receiver arguments : Evaluator h Value).Mirrors
      (.invoke f receiver arguments) := by
  intro s
  unfold Evaluator.invoke
  cases f.isAsync <;> rfl

/-- A level mirrors a level. -/
theorem Evaluator.Mirrors.within {limit : Nat} {p : Evaluator h α} {p' : Evaluator h.recording α}
    (hp : p.Mirrors p') : (p.within limit).Mirrors (p'.within limit) := by
  intro s
  have hbody : p ⟨s.depth + 1, s.world.plain⟩ = _ := hp ⟨s.depth + 1, s.world⟩
  unfold Evaluator.within
  by_cases hdepth : s.depth < limit
  · simp only [Evaluator.State.plain, hdepth, if_true, hbody]
  · simp only [Evaluator.State.plain, hdepth, if_false]

/-- From a plain world on, the outcome and the plain end are the same. -/
theorem Evaluator.Mirrors.start {p : Evaluator h α} {p' : Evaluator h.recording α}
    (hp : p.Mirrors p') (w : World (σ × List Answer)) :
    p.start w.plain = ((p'.start w).1, (p'.start w).2.plain) := by
  have hrun : p ⟨0, w.plain⟩ = _ := hp ⟨0, w⟩
  simp only [Evaluator.start, hrun]
  rfl

/-- The evaluator at work does the same without the record. -/
theorem Evaluator.mirrors_relates (limit : Nat) :
    (Evaluator.walk h).Relates (Evaluator.walk h.recording) limit limit (fun _ => True)
      (fun _ => Evaluator.Mirrors) where
  pure _ _ := rfl
  bind := .bind
  ofExcept _ _ _ := rfl
  fresh _ := rfl
  invoke := .invoke
  both hp hp' := .bind hp fun _ => .bind hp' fun _ _ => rfl
  within := .within
  nullish _ _ := trivial

/-- A call in rounds mirrors the recorded one. -/
theorem Rounds.Mirrors.invoke (f : HostFunction) (receiver : Value) (arguments : List Value) :
    (Rounds.invoke f receiver arguments : Rounds h Value).Mirrors
      (.invoke f receiver arguments) := by
  intro w
  unfold Rounds.invoke
  cases f.isAsync with
  | false => exact ⟨rfl, rfl⟩
  | true =>
      refine Round.Mirrors.after (h.delay f) ?_
        ((w.record (.called f receiver arguments)).start h.recording f receiver arguments)
      exact fun w => ⟨rfl, rfl⟩

/-- A level in rounds mirrors a level. -/
theorem Rounds.Mirrors.within {limit depth : Nat} {q : Rounds h α} {q' : Rounds h.recording α}
    (hq : q.Mirrors q') : (q.within limit depth).Mirrors (q'.within limit depth) := by
  intro w
  unfold Rounds.within
  split
  · exact hq w
  · exact ⟨rfl, rfl⟩

/-- The evaluation in rounds does the same without the record. -/
theorem Rounds.mirrors_relates (limit : Nat) :
    (Rounds.walk h).Relates (Rounds.walk h.recording) limit limit (fun _ => True)
      (fun _ => Rounds.Mirrors) where
  pure _ _ := ⟨rfl, rfl⟩
  bind hq hk w := (hq w).andThen hk
  ofExcept _ _ _ := ⟨rfl, rfl⟩
  fresh _ := ⟨rfl, rfl⟩
  invoke := .invoke
  both hq hq' w := (hq w).both hq'
  within := .within
  nullish _ _ := trivial

/-- Each run over a tree is the one with the record, without it. -/
theorem run_eq_plain_recording (h : Host σ) (ctx : Context) (limit : Nat) (e : Expr)
    (w : World σ) :
    evaluate h ctx limit e w = ((evaluate h.recording ctx limit e w.recording).1,
      (evaluate h.recording ctx limit e w.recording).2.plain) ∧
    (evaluateInRounds h ctx limit e).run w
      = (((evaluateInRounds h.recording ctx limit e).run w.recording).1,
        ((evaluateInRounds h.recording ctx limit e).run w.recording).2.plain) ∧
    evaluateMember h ctx limit e w = ((evaluateMember h.recording ctx limit e w.recording).1,
      (evaluateMember h.recording ctx limit e w.recording).2.plain) ∧
    (evaluateMemberInRounds h ctx limit e).run w
      = (((evaluateMemberInRounds h.recording ctx limit e).run w.recording).1,
        ((evaluateMemberInRounds h.recording ctx limit e).run w.recording).2.plain) := by
  have hany : ∀ n ∈ e.nodes, n.OperatorFails fun _ => True :=
    fun n _ => n.operatorFails fun _ => trivial
  unfold evaluate evaluateInRounds evaluateMember evaluateMemberInRounds
  simp only [Evaluator.eval_eq_walk ctx limit e 0, Rounds.eval_eq_walk,
    Evaluator.evalMember_eq_walk, Rounds.evalMember_eq_walk]
  exact ⟨((Evaluator.mirrors_relates limit).eval ctx e 0 hany).start w.recording,
    ((Rounds.mirrors_relates limit).eval ctx e 0 hany w.recording).finish,
    ((Evaluator.mirrors_relates limit).evalMember ctx e hany).start w.recording,
    ((Rounds.mirrors_relates limit).evalMember ctx e hany w.recording).finish⟩

/-! ### What a run has come to -/

/-- Since the log had some events, the host has answered just at the events
at which it answers. -/
def World.Answered (before : List Event) (w : World (σ × List Answer)) : Prop :=
  ∃ events, w.log.toList = before ++ events ∧
    events.filter Event.isAnswered = w.answers.map Answer.event

/-- No answer was a failure so far. -/
structure World.Unfailed (before : List Event) (w : World (σ × List Answer)) : Prop where
  answered : w.Answered before
  ok : ∀ a ∈ w.answers, ∀ e, a.outcome ≠ .error e

/-- The last answer is a failure with an error and the only one, and it was
given at the last event. -/
structure World.Failed (before : List Event) (w : World (σ × List Answer)) (e : EvalError) :
    Prop where
  answered : w.Answered before
  last : ∃ earlier a, w.answers = earlier ++ [a] ∧ (∀ b ∈ earlier, ∀ e', b.outcome ≠ .error e') ∧
    a.outcome = .error e ∧ ∃ events, w.log.toList = before ++ events ++ [a.event]

/-- How a run fails: with an error of its own after answers that were no
failures, or with the failure that was answered last. -/
def World.Stopped (before : List Event) (e : EvalError) (w : World (σ × List Answer)) : Prop :=
  (w.Unfailed before ∧ ∀ m, e ≠ .host m) ∨ w.Failed before e

variable {before : List Event} {w : World (σ × List Answer)}

/-- A call is written to the log at which nothing is answered yet. -/
theorem World.Unfailed.record (hw : w.Unfailed before) {event : Event}
    (hevent : event.isAnswered = false) : (w.record event).Unfailed before := by
  obtain ⟨events, hlog, hanswers⟩ := hw.answered
  refine ⟨⟨events ++ [event], ?_, ?_⟩, hw.ok⟩
  · show (w.log.push event).toList = _
    rw [Array.toList_push, hlog, List.append_assoc]
  · rw [List.filter_append, hanswers, List.filter_cons_of_neg (by simp [hevent])]
    exact List.append_nil _

/-- A function answers at the event that was written last. -/
theorem World.Unfailed.respond (hw : w.Unfailed before) (f : HostFunction) (receiver : Value)
    (arguments : List Value) (event : Event)
    (hevent : event = if f.isAsync then .completed f else .called f receiver arguments) :
    Settled (World.Unfailed before) (World.Stopped before)
      ((w.record event).respond h.recording f receiver arguments).1
      ((w.record event).respond h.recording f receiver arguments).2 := by
  obtain ⟨events, hlog, hanswers⟩ := hw.answered
  rcases hrun : (w.record event).respond h.recording f receiver arguments with ⟨outcome, w'⟩
  have hanswers' : w'.answers = w.answers ++ [⟨f, receiver, arguments, outcome⟩] := by
    have := World.answers_respond h f receiver arguments (w.record event)
    rw [hrun] at this
    exact this
  have hlog' : w'.log.toList = before ++ events ++ [event] := by
    have := World.log_respond h f receiver arguments (w.record event)
    rw [hrun] at this
    rw [this, ← hlog]
    exact Array.toList_push
  -- Since the event of an answer is the one just written, answers and events still match.
  have hanswered : w'.Answered before := by
    refine ⟨events ++ [event], by rw [hlog', List.append_assoc], ?_⟩
    have hlast : event = Answer.event ⟨f, receiver, arguments, outcome⟩ := hevent
    rw [List.filter_append, hanswers, hlast,
      List.filter_cons_of_pos (Answer.isAnswered_event _), hanswers', List.map_append]
    rfl
  cases outcome with
  | ok value =>
      refine ⟨hanswered, fun a ha => ?_⟩
      rw [hanswers'] at ha
      rcases List.mem_append.1 ha with ha | ha
      · exact hw.ok a ha
      · obtain rfl := List.mem_singleton.1 ha
        exact nofun
  | error e =>
      rw [hevent] at hlog'
      exact .inr ⟨hanswered, w.answers, _, hanswers', hw.ok, rfl, events, hlog'⟩

/-- While no answer of the recording host was a failure an evaluation goes
on. Of its own errors it has none that the host raises. -/
theorem unfailed_invariance (h : Host σ) (before : List Event) :
    Invariance h.recording (fun e => ∀ m, e ≠ .host m) (World.Unfailed before)
      (World.Stopped before) where
  fresh _ hw := ⟨hw.answered, hw.ok⟩
  called f _ _ _ hasync hw :=
    -- What the function does at once is no answer.
    have hcalled := hw.record (by simp [Event.isAnswered, hasync])
    ⟨hcalled.answered, hcalled.ok⟩
  completed f receiver arguments _ hasync hw :=
    hw.respond f receiver arguments _ (by rw [hasync]; rfl)
  answered f receiver arguments _ hasync hw :=
    hw.respond f receiver arguments _ (by rw [hasync]; rfl)
  own _ _ he hw := .inl ⟨hw, he⟩
  stackOverflow _ _ := nofun
  nullish _ _ := nofun
  asyncInSync := nofun

/-! ### The first failure is the last event -/

/-- A run from a world, told with the record of the host's answers: an answer
that is a failure is the last one, it was given at the last event, and the
run has ended with it. -/
structure EndsWithFirstFailure (w : World σ) (run : Except EvalError α × World σ)
    (recorded : Except EvalError α × World (σ × List Answer)) : Prop where
  /-- the record changes nothing of the run -/
  erases : run = (recorded.1, recorded.2.plain)
  /-- the record has the answers at the events of the run, and no others -/
  answered : recorded.2.Answered w.log.toList
  /-- a failure of the host is the outcome, and nothing happens after it -/
  of_failure : ∀ earlier a later e, recorded.2.answers = earlier ++ a :: later →
    a.outcome = .error e → run.1 = .error e ∧ later = [] ∧
      ∃ events, run.2.log.toList = w.log.toList ++ events ++ [a.event]
  /-- a failure of the host as the outcome was raised at the last event -/
  failure_of : ∀ m, run.1 = .error (.host m) → ∃ earlier a, recorded.2.answers = earlier ++ [a] ∧
    a.outcome = .error (.host m) ∧
      ∃ events, run.2.log.toList = w.log.toList ++ events ++ [a.event]

/-- At the beginning nothing has been answered. -/
theorem World.unfailed_recording (w : World σ) : w.recording.Unfailed w.log.toList :=
  ⟨⟨[], (List.append_nil _).symm, rfl⟩, nofun⟩

/-- What a run has come to, in terms of the positions of failures among the
answers. -/
theorem EndsWithFirstFailure.of_settled {w : World σ} {run : Except EvalError α × World σ}
    {recorded : Except EvalError α × World (σ × List Answer)}
    (herases : run = (recorded.1, recorded.2.plain))
    (hsettled : Settled (World.Unfailed w.log.toList) (World.Stopped w.log.toList) recorded.1
      recorded.2) : EndsWithFirstFailure w run recorded := by
  subst herases
  rcases recorded with ⟨outcome, w'⟩
  have hcases : (w'.Unfailed w.log.toList ∧ ∀ m, outcome ≠ .error (.host m)) ∨
      ∃ e, outcome = .error e ∧ w'.Failed w.log.toList e := by
    cases outcome with
    | ok a => exact .inl ⟨hsettled, nofun⟩
    | error e =>
        rcases hsettled with ⟨hw, he⟩ | hw
        · exact .inl ⟨hw, fun m hm => he m (Except.error.inj hm)⟩
        · exact .inr ⟨e, rfl, hw⟩
  -- Either no answer has failed, and then no failure of the host is the outcome, or the last one
  -- has.
  rcases hcases with ⟨hw, hhost⟩ | ⟨e, rfl, hanswered, hlast⟩
  · refine ⟨rfl, hw.answered, fun earlier a later e hanswers ha => ?_, fun m hm => ?_⟩
    · exact absurd ha (hw.ok a (by rw [hanswers]; simp) e)
    · exact absurd hm (hhost m)
  · obtain ⟨ok, last, hanswers, hok, hfailed, hlog⟩ := hlast
    refine ⟨rfl, hanswered, fun earlier a later e' hanswers' ha => ?_, fun m hm => ?_⟩
    · -- The failing answer is none of those before the last one.
      rcases List.eq_nil_or_concat later with rfl | ⟨later, b, rfl⟩
      · obtain ⟨-, hsame⟩ := List.append_inj' (hanswers.symm.trans hanswers') rfl
        obtain rfl : last = a := List.singleton_inj.1 hsame
        rw [hfailed] at ha
        obtain rfl : e = e' := Except.error.inj ha
        exact ⟨rfl, rfl, hlog⟩
      · have hmore : ok ++ [last] = (earlier ++ a :: later) ++ [b] := by
          rw [← hanswers, hanswers', List.concat_eq_append, List.append_assoc, List.cons_append]
        have hearlier : ok = earlier ++ a :: later := (List.append_inj' hmore rfl).1
        exact absurd ha (hok a (by rw [hearlier]; simp) e')
    · obtain rfl : e = .host m := Except.error.inj hm
      exact ⟨ok, last, hanswers, hfailed, hlog⟩

/-- The run of any evaluation, at once or in rounds, over a tree or a member
expression, and however long asynchronous functions stay pending: if a
function or a resolver of the host fails, the failure is the outcome as it
is and the last event of the run, and a failure of the host as the outcome
is the one of the last event. -/
theorem run_endsWithFirstFailure (h : Host σ) (ctx : Context) (limit : Nat) (e : Expr)
    (w : World σ) :
    EndsWithFirstFailure w (evaluate h ctx limit e w)
      (evaluate h.recording ctx limit e w.recording) ∧
    EndsWithFirstFailure w ((evaluateInRounds h ctx limit e).run w)
      ((evaluateInRounds h.recording ctx limit e).run w.recording) ∧
    EndsWithFirstFailure w (evaluateMember h ctx limit e w)
      (evaluateMember h.recording ctx limit e w.recording) ∧
    EndsWithFirstFailure w ((evaluateMemberInRounds h ctx limit e).run w)
      ((evaluateMemberInRounds h.recording ctx limit e).run w.recording) := by
  have hown : ∀ n ∈ e.nodes, n.OperatorFails fun e => ∀ m, e ≠ .host m :=
    fun n _ => n.operatorFails fun _ _ => nofun
  obtain ⟨herased₁, herased₂, herased₃, herased₄⟩ := run_eq_plain_recording h ctx limit e w
  obtain ⟨h₁, h₂, h₃, h₄⟩ := (unfailed_invariance h w.log.toList).settled ctx limit hown
    w.unfailed_recording
  exact ⟨.of_settled herased₁ h₁, .of_settled herased₂ h₂, .of_settled herased₃ h₃,
    .of_settled herased₄ h₄⟩

/-- While a first element is pending and a third one has been called, the
second one fails: its failure is the outcome and the last event. -/
theorem run_endsWithFirstFailure_pendingSiblings :
    let h := Registry.host #[⟨"slow", .constant .null, 3, false⟩,
      ⟨"bad", .failure "down", 1, false⟩, ⟨"tick", .counter, 0, false⟩]
    let ctx : Context := ⟨⟨0, [("slow", .function ⟨0, true⟩), ("bad", .function ⟨1, true⟩),
      ("tick", .function ⟨2, false⟩)]⟩, none⟩
    let e : Expr := .array [.call (.identifier "slow") [], .call (.identifier "bad") [],
      .call (.identifier "tick") []]
    let w : World Counters := ⟨⟨1, []⟩, #[]⟩
    let run := (evaluateInRounds h ctx 3 e).run w
    run.1 = .error (.host "down") ∧
      ∃ events, run.2.log.toList = events ++ [.completed ⟨1, true⟩] := by
  intro h ctx e w run
  obtain ⟨-, hrun, -⟩ := run_endsWithFirstFailure h ctx 3 e w
  -- The native call is answered in the first round, and the failing one while the slow one is
  -- pending.
  have hanswers : ((evaluateInRounds h.recording ctx 3 e).run w.recording).2.answers
      = [⟨⟨2, false⟩, .undefined, [], .ok (.number (.ofNat 1))⟩] ++
        ⟨⟨1, true⟩, .undefined, [], .error (.host "down")⟩ :: [] := by rfl
  obtain ⟨houtcome, -, events, hlog⟩ := hrun.of_failure _ _ _ (.host "down") hanswers rfl
  exact ⟨houtcome, events, hlog⟩

end Formula
