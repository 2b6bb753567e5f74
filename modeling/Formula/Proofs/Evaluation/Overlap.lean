import Formula.Proofs.Evaluation.Walk
import Formula.Host.Registry

/-!
# `Formula.Proofs.Evaluation.Overlap`: parts that are begun together overlap

An evaluation in rounds is pending for as many polls as its critical path is
long: what is done one after the other adds up, what is begun together takes
as long as its longest part, and a call takes as long as the function stays
pending.

`Timed` is the evaluation in rounds that keeps this account. Its ways of
putting evaluations together have the account written into them and never
look at how often they are found pending; `Timed.walk` makes it go over
trees. So the length of the critical path is that of the steps which a run
really takes: the operand of `&&` that is not needed, and the branch that is
not taken, have no part in it.

* `criticalPath`, `criticalPathOfMember`: the value of a tree with the length
  of its critical path.
* `Round.Lasts`: an account that is the number of pending polls whatever
  happens between the polls. Each way of putting evaluations together keeps
  it.
* `pendingPolls_eq_criticalPath`: the account is right, and keeping it changes
  nothing of the run.
-/

set_option autoImplicit false

namespace Formula

variable {σ α β : Type} {h : Host σ}

/-! ### The account -/

/-- An evaluation in rounds that accounts for the length of its critical
path. -/
def Timed (h : Host σ) (α : Type) : Type := Rounds h (α × Nat)

namespace Timed

/-- The value, with a length. -/
def lasting (n : Nat) (p : Rounds h α) : Timed h α := fun w =>
  (p w).andThen fun a w => .ready w (.ok (a, n))

/-- A value takes no time, and of two evaluations one after the other the
times add up. -/
instance : Monad (Timed h) where
  pure a := lasting 0 (pure a)
  bind p k := fun w => (p w).andThen fun x w =>
    (k x.1 w).andThen fun y w => .ready w (.ok (y.1, x.2 + y.2))

/-- Two evaluations begun together take as long as the longer one. -/
def both (p : Timed h α) (q : Timed h β) : Timed h (α × β) := fun w =>
  ((p w).both q).andThen fun x w => .ready w (.ok ((x.1.1, x.2.1), max x.1.2 x.2.2))

/-- A call takes as long as an asynchronous function stays pending. -/
def invoke (f : HostFunction) (receiver : Value) (arguments : List Value) : Timed h Value :=
  lasting (if f.isAsync then h.delay f else 0) (Rounds.invoke f receiver arguments)

/-- The evaluation that keeps the account goes over trees like the others. -/
def walk (h : Host σ) : Walk (Timed h) where
  ofExcept outcome := lasting 0 (.ofExcept outcome)
  fresh := lasting 0 .fresh
  invoke := invoke
  both := both
  within limit depth p := Rounds.within limit depth p

end Timed

/-- The value of a tree, with the length of the critical path of its
evaluation: nothing for what is there already; as long as the resolver stays
pending for a name that it resolves; the longest element, argument or strict
operand; the sum of the steps taken for all that goes one after the other; and
for a call what is called, then its longest argument, then the function. -/
def criticalPath (h : Host σ) (ctx : Context) (limit : Nat) (e : Expr) : Timed h Value :=
  (Timed.walk h).eval ctx limit 0 e

/-- The receiver and the value of a member expression, with the length of the
critical path of its evaluation. -/
def criticalPathOfMember (h : Host σ) (ctx : Context) (limit : Nat) (e : Expr) :
    Timed h (Value × Value) :=
  (Timed.walk h).evalMember ctx limit e

/-! ### Accounts that are right -/

namespace Round

/-- The evaluation without the account. -/
def erase (r : Round σ (α × Nat)) : Round σ α := r.andThen fun x w => .ready w (.ok x.1)

/-- The account, begun some polls ago, is the number of pending polls,
whatever happens between the polls. A failure needs no account. -/
def Lasts : Round σ (α × Nat) → Nat → Prop
  | .ready _ (.ok x), polls => x.2 = polls
  | .ready _ (.error _), _ => True
  | .pending _ resume, polls => ∀ w, (resume w).Lasts (polls + 1)

/-- The account may be begun earlier, and may be put together with others
that are over. -/
theorem Lasts.map {r : Round σ (α × Nat)} {polls : Nat} (hr : r.Lasts polls)
    (g : α × Nat → β × Nat) (earlier : Nat)
    (hg : ∀ x : α × Nat, polls ≤ x.2 → (g x).2 = earlier + x.2) :
    (r.andThen fun x w => .ready w (.ok (g x))).Lasts (earlier + polls) := by
  induction r generalizing polls with
  | ready w outcome =>
      cases outcome with
      | ok x =>
          obtain rfl : x.2 = polls := hr
          exact hg x (Nat.le_refl _)
      | error e => trivial
  | pending w resume ih =>
      exact fun w => ih w (hr w) fun x hx => hg x (Nat.le_of_succ_le hx)

/-- Of one evaluation after the other the account is the sum. -/
theorem Lasts.andThen {r : Round σ (α × Nat)} {polls : Nat} (hr : r.Lasts polls)
    {k : α → World σ → Round σ (β × Nat)} (hk : ∀ a w, (k a w).Lasts 0) :
    (r.andThen fun x w => (k x.1 w).andThen fun y w => .ready w (.ok (y.1, x.2 + y.2))).Lasts
      polls := by
  induction r generalizing polls with
  | ready w outcome =>
      cases outcome with
      | ok x =>
          obtain rfl : x.2 = polls := hr
          exact (hk x.1 w).map (fun y => (y.1, x.2 + y.2)) x.2 fun _ _ => rfl
      | error e => trivial
  | pending w resume ih => exact fun w => ih w (hr w)

/-- Of two evaluations begun together the account is the maximum: a part that
was ready earlier has the smaller one. -/
theorem Lasts.both {r : Round σ (α × Nat)} {q : World σ → Round σ (β × Nat)} {polls : Nat}
    (hr : r.Lasts polls) (hq : ∀ w, (q w).Lasts polls) :
    ((r.both q).andThen fun x w => .ready w (.ok ((x.1.1, x.2.1), max x.1.2 x.2.2))).Lasts
      polls := by
  induction r generalizing q polls with
  | ready w outcome =>
      cases outcome with
      | ok x =>
          obtain rfl : x.2 = polls := hr
          -- The left part is ready, and the right one takes as long or longer.
          rw [Round.both, Round.andThen_assoc]
          have hlater := (hq w).map (fun y => ((x.1, y.1), max x.2 y.2)) 0 fun y hy => by
            rw [Nat.zero_add]
            exact Nat.max_eq_right hy
          rwa [Nat.zero_add] at hlater
      | error e => trivial
  | pending w resume ih =>
      have hright := hq w
      rw [Round.both]
      generalize q w = s at hright
      cases s with
      | ready w₁ outcome =>
          cases outcome with
          | ok y =>
              obtain rfl : y.2 = polls := hright
              intro w₂
              -- The right part is ready, and the left one takes at least one poll more.
              show (((resume w₂).andThen _).andThen _).Lasts _
              rw [Round.andThen_assoc]
              have hlater := (hr w₂).map (fun x => ((x.1, y.1), max x.2 y.2)) 0 fun x hx => by
                rw [Nat.zero_add]
                exact Nat.max_eq_left (Nat.le_of_succ_le hx)
              rwa [Nat.zero_add] at hlater
          | error e => trivial
      | pending w₁ resume₁ => exact fun w₂ => ih w₂ (hr w₂) hright

/-- A function that stays pending for some polls is ready after them. -/
theorem Lasts.after (ticks : Nat) {next : World σ → Round σ (α × Nat)} {polls : Nat}
    (hnext : ∀ w, (next w).Lasts (polls + ticks)) (w : World σ) :
    (Round.after ticks next w).Lasts polls := by
  induction ticks generalizing polls w with
  | zero => exact hnext w
  | succ ticks ih =>
      refine fun w => ih (fun w => ?_) w
      rw [Nat.add_assoc, Nat.add_comm 1 ticks]
      exact hnext w

/-- To go on after waiting is to wait and then go on. -/
theorem after_andThen (ticks : Nat) (next : World σ → Round σ α) (k : α → World σ → Round σ β)
    (w : World σ) :
    (Round.after ticks next w).andThen k = Round.after ticks (fun w => (next w).andThen k) w := by
  induction ticks generalizing w with
  | zero => rfl
  | succ ticks ih => exact congrArg (Round.pending w) (funext ih)

/-- One evaluation after the other is the same without the accounts. -/
theorem andThen_erase (r : Round σ (α × Nat)) (k : α → World σ → Round σ (β × Nat)) :
    (r.andThen fun x w => (k x.1 w).andThen fun y w => .ready w (.ok (y.1, x.2 + y.2))).erase
      = r.erase.andThen fun a w => (k a w).erase := by
  rw [erase, erase, andThen_assoc, andThen_assoc]
  congr 1
  funext x w
  rw [andThen_assoc]
  rfl

/-- Evaluations begun together are the same without the accounts. -/
theorem both_erase (r : Round σ (α × Nat)) (q : World σ → Round σ (β × Nat)) :
    ((r.both q).andThen fun x w => .ready w (.ok ((x.1.1, x.2.1), max x.1.2 x.2.2))).erase
      = r.erase.both fun w => (q w).erase := by
  rw [erase, andThen_assoc]
  -- The accounts are added at the end of each part and never looked at before.
  induction r generalizing q with
  | ready w outcome =>
      cases outcome with
      | ok x =>
          show ((q w).andThen _).andThen _ = ((q w).andThen _).andThen _
          rw [andThen_assoc, andThen_assoc]
          rfl
      | error e => rfl
  | pending w resume ih =>
      show _ = (pending w fun w => (resume w).erase).both fun w => (q w).erase
      rw [both, both]
      generalize q w = s
      cases s with
      | ready w₁ outcome =>
          cases outcome with
          | ok y =>
              refine congrArg (pending w₁) (funext fun w₂ => ?_)
              show ((resume w₂).andThen _).andThen _ = ((resume w₂).andThen _).andThen _
              rw [andThen_assoc, andThen_assoc]
              rfl
          | error e => rfl
      | pending w₁ resume₁ => exact congrArg (pending w₁) (funext fun w₂ => ih w₂ resume₁)

/-- What the evaluation with a right account ends with. -/
theorem Lasts.finish {r : Round σ (α × Nat)} {polls : Nat} (hr : r.Lasts polls) :
    r.finish = (r.erase.finish.1.map fun a => (a, polls + r.erase.pendingPolls),
      r.erase.finish.2) := by
  induction r generalizing polls with
  | ready w outcome =>
      cases outcome with
      | ok x =>
          obtain rfl : x.2 = polls := hr
          rfl
      | error e => rfl
  | pending w resume ih =>
      have hlater := ih w (hr w)
      rw [Nat.add_right_comm, Nat.add_assoc] at hlater
      exact hlater

end Round

/-! ### The account of a walk -/

/-- An evaluation that keeps a right account of another one. -/
def Timed.Accounts (p : Timed h α) (q : Rounds h α) : Prop :=
  ∀ w, Round.erase (p w) = q w ∧ Round.Lasts (p w) 0

namespace Timed.Accounts

/-- An evaluation that is never pending. -/
theorem lasting_zero {q : Rounds h α} (hq : ∀ w, ∃ w' outcome, q w = .ready w' outcome) :
    (lasting 0 q).Accounts q := by
  intro w
  obtain ⟨w', outcome, hready⟩ := hq w
  show ((q w).andThen _).erase = q w ∧ ((q w).andThen _).Lasts 0
  rw [hready]
  cases outcome <;> exact ⟨rfl, by trivial⟩

/-- Two in a row last for the sum. -/
theorem bind {p : Timed h α} {q : Rounds h α} {k : α → Timed h β} {l : α → Rounds h β}
    (hpq : p.Accounts q) (hkl : ∀ a, (k a).Accounts (l a)) : (p >>= k).Accounts (q >>= l) := by
  intro w
  obtain ⟨herase, hlasts⟩ := hpq w
  refine ⟨?_, hlasts.andThen fun a w => (hkl a w).2⟩
  have hgoes : l = fun a w => Round.erase (k a w) :=
    (funext fun a => funext fun w => (hkl a w).1).symm
  rw [hgoes]
  exact (Round.andThen_erase (p w) k).trans (congrArg (Round.andThen · _) herase)

/-- Two side by side last for the longer one. -/
theorem both {p : Timed h α} {q : Rounds h α} {p' : Timed h β} {q' : Rounds h β}
    (hpq : p.Accounts q) (hpq' : p'.Accounts q') : (p.both p').Accounts (q.both q') := by
  intro w
  refine ⟨?_, (hpq w).2.both fun w => (hpq' w).2⟩
  have hright : q' = fun w => Round.erase (p' w) := (funext fun w => (hpq' w).1).symm
  rw [hright]
  exact (Round.both_erase (p w) p').trans (congrArg (Round.both · _) (hpq w).1)

/-- A call lasts for the ticks of its function, if that has to be waited
for. -/
theorem invoke (f : HostFunction) (receiver : Value) (arguments : List Value) :
    (Timed.invoke f receiver arguments : Timed h Value).Accounts
      (Rounds.invoke f receiver arguments) := by
  cases hasync : f.isAsync with
  | true =>
      intro w
      -- The rounds of the call are those of its delay, and then the answer.
      have hwaits : (Rounds.invoke f receiver arguments : Rounds h Value) w
          = Round.after (h.delay f) (fun w => Rounds.answer h f receiver arguments
              (w.record (.completed f)))
              ((w.record (.called f receiver arguments)).start h f receiver arguments) := by
        simp only [Rounds.invoke, hasync, if_true]
      show (Round.andThen (Rounds.invoke f receiver arguments w) _).andThen _ = _ ∧
        Round.Lasts (Round.andThen (Rounds.invoke f receiver arguments w) _) 0
      rw [hwaits, hasync]
      refine ⟨?_, ?_⟩
      · rw [Round.andThen_assoc, Round.after_andThen]
        congr 1
        funext w₁
        unfold Rounds.answer
        rcases (w₁.record (.completed f)).respond h f receiver arguments with ⟨_ | _, _⟩ <;> rfl
      · rw [Round.after_andThen]
        refine Round.Lasts.after _ (fun w₁ => ?_) _
        unfold Rounds.answer
        rw [Nat.zero_add]
        rcases (w₁.record (.completed f)).respond h f receiver arguments with ⟨_ | _, _⟩ <;> trivial
  | false =>
      have hnow : (Timed.invoke f receiver arguments : Timed h Value)
          = lasting 0 (Rounds.invoke f receiver arguments) := by
        simp only [Timed.invoke, hasync, Bool.false_eq_true, if_false]
      rw [hnow]
      refine lasting_zero fun w => ?_
      simp only [Rounds.invoke, hasync, Bool.false_eq_true, if_false]
      exact ⟨_, _, rfl⟩

/-- A level lasts as long as what is inside. -/
theorem within {p : Timed h α} {q : Rounds h α} (hpq : p.Accounts q) (limit depth : Nat) :
    ((Timed.walk h).within limit depth p).Accounts (q.within limit depth) := by
  by_cases hdepth : depth < limit
  · have hp : (Timed.walk h).within limit depth p = p := if_pos hdepth
    have hq : q.within limit depth = q := if_pos hdepth
    rw [hp, hq]
    exact hpq
  · have hp : (Timed.walk h).within limit depth p = Rounds.fail (.stackOverflow depth limit) :=
      if_neg hdepth
    have hq : q.within limit depth = Rounds.fail (.stackOverflow depth limit) := if_neg hdepth
    rw [hp, hq]
    exact fun w => ⟨rfl, trivial⟩

/-- Each way of putting evaluations together keeps the account right. -/
theorem relates (limit : Nat) :
    (Timed.walk h).Relates (Rounds.walk h) limit limit (fun _ => True)
      (fun _ p q => p.Accounts q) where
  pure a := lasting_zero fun w => ⟨w, .ok a, rfl⟩
  bind := bind
  ofExcept outcome _ := lasting_zero fun w => ⟨w, outcome, rfl⟩
  fresh := lasting_zero fun w => ⟨w.fresh.2, .ok w.fresh.1, rfl⟩
  invoke := invoke
  both := both
  within hpq := hpq.within limit _
  nullish _ _ := trivial

/-- At the end of a run the account is the number of pending polls. -/
theorem run {p : Timed h α} {q : Rounds h α} (hpq : p.Accounts q) (w : World σ) :
    Rounds.run p w = ((q.run w).1.map fun a => (a, (q w).pendingPolls), (q.run w).2) := by
  obtain ⟨herase, hlasts⟩ := hpq w
  have hfinish := hlasts.finish
  rw [herase, Nat.zero_add] at hfinish
  exact hfinish

end Timed.Accounts

/-- A successful evaluation in rounds, of a tree or of a member expression, is
found pending exactly as often as its critical path is long; and the account
of the critical path changes neither the outcome nor what happens on the
way. -/
theorem pendingPolls_eq_criticalPath (h : Host σ) (ctx : Context) (limit : Nat) (e : Expr)
    (w : World σ) :
    Rounds.run (criticalPath h ctx limit e) w
      = (((evaluateInRounds h ctx limit e).run w).1.map fun value =>
          (value, (evaluateInRounds h ctx limit e w).pendingPolls),
        ((evaluateInRounds h ctx limit e).run w).2) ∧
    Rounds.run (criticalPathOfMember h ctx limit e) w
      = (((evaluateMemberInRounds h ctx limit e).run w).1.map fun p =>
          (p, (evaluateMemberInRounds h ctx limit e w).pendingPolls),
        ((evaluateMemberInRounds h ctx limit e).run w).2) := by
  have hany : ∀ n ∈ e.nodes, n.OperatorFails fun _ => True :=
    fun n _ => n.operatorFails fun _ => trivial
  unfold evaluateInRounds evaluateMemberInRounds
  rw [Rounds.eval_eq_walk ctx limit e 0, Rounds.evalMember_eq_walk]
  exact ⟨((Timed.Accounts.relates limit).eval ctx e 0 hany).run w,
    ((Timed.Accounts.relates limit).evalMember ctx e hany).run w⟩

-- The longest argument takes two polls, the function that is called then takes
-- three, and so does the branch that is not taken.
example :
    let h := Registry.host #[⟨"one", .constant .null, 1, false⟩, ⟨"two", .constant .null, 2, false⟩,
      ⟨"three", .arguments, 3, false⟩]
    let ctx : Context := ⟨⟨0, [("one", .function ⟨0, true⟩), ("two", .function ⟨1, true⟩),
      ("three", .function ⟨2, true⟩)]⟩, none⟩
    let call (name : String) (arguments : List Expr) : Expr := .call (.identifier name) arguments
    let e : Expr := .conditional
      (call "three" [call "one" [], .array [call "two" [], call "two" []], call "one" []])
      (.literal .null) (call "three" [])
    (Rounds.run (criticalPath h ctx 9 e) ⟨⟨1, []⟩, #[]⟩).1.toOption.map Prod.snd = some 5 := by
  decide +kernel

end Formula
