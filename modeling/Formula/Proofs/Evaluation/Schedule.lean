import Formula.Proofs.Evaluation.Trace
import Formula.Proofs.Evaluation.Walk
import Formula.Proofs.Host.Pure

/-!
# `Formula.Proofs.Evaluation.Schedule`: no schedule can be seen

How long asynchronous functions stay pending settles in which order the
calls of an evaluation in rounds are made and answered. If the host is
pure, nothing else depends on it: every schedule comes to what the
evaluation at once comes to with native functions in the place of the
asynchronous ones, up to the identities of new arrays and objects and the
order of the calls.

* `Follows`: an evaluation in rounds follows an evaluator, one whose host
  mirrors the other. Whatever happens between its polls, both fail, or
  both succeed with like results and like calls. Each way of putting
  evaluations together keeps it.
* `eval_follows`: the walk in rounds follows the walk at once.
* `inRounds_sameRun`: any two schedules, and the evaluation at once, come
  to the same.
-/

set_option autoImplicit false

namespace Formula

variable {σ α α' β β' γ γ' : Type} {h h' : Host σ} {φ : HostFunction → HostFunction}

/-- Two calls of functions that stand for each other, with like receivers
and arguments. -/
structure Call.Alike (φ : HostFunction → HostFunction) (ρ : Renaming) (c c' : Call) : Prop where
  function : c'.function = φ c.function
  receiver : c.receiver.Alike φ ρ c'.receiver
  arguments : Value.AlikeEach φ ρ c.arguments c'.arguments

/-- Like calls stay so under a larger renaming. -/
theorem Call.Alike.mono {ρ ρ' : Renaming} (hρ : ρ ≤ ρ') {c c' : Call} (h : c.Alike φ ρ c') :
    c.Alike φ ρ' c' :=
  ⟨h.function, Value.Alike.mono hρ _ _ h.receiver, Value.AlikeEach.mono hρ _ _ h.arguments⟩

/-- An evaluator comes back to its depth with an outcome, leaving a
trace. -/
structure Evaluator.Comes (p : Evaluator h α) (depth : Nat) (w : World σ) (outcome : Except Halt α)
    (t : Trace) (w' : World σ) : Prop where
  eq : p ⟨depth, w⟩ = (outcome, ⟨depth, w'⟩)
  passes : w.Passes t w'

/-- Results and traces that are like each other through an extension of a
renaming to the identities taken meanwhile. -/
structure AlikeThrough (φ : HostFunction → HostFunction) (R : Renaming → α → α' → Prop)
    (ρ : Renaming) (t t' : Trace) (a : α) (a' : α') (ρ' : Renaming) : Prop where
  extension : ρ.Extends ρ' t.taken t'.taken
  result : R ρ' a a'
  calls : Multiset.Rel (Call.Alike φ ρ') t.calls t'.calls

/-- The evaluation in rounds follows the evaluator at a depth: begun with
worlds whose identities stand for each other, it ends however it is
polled, and either both fail or their results and calls are alike. -/
def Follows (φ : HostFunction → HostFunction) (depth : Nat) (ρ₀ : Renaming)
    (R : Renaming → α → α' → Prop) (p : Evaluator h' α') (q : Rounds h α) : Prop :=
  ∀ ⦃ρ : Renaming⦄, ρ₀ ≤ ρ → ρ.OneToOne → ∀ (w w' : World σ),
    ρ.Within (Set.Iio w.nextIdentity) (Set.Iio w'.nextIdentity) →
    ∃ outcome' t' w₁', p.Comes depth w' outcome' t' w₁' ∧
      (q w).Ends (fun outcome t =>
        SameOutcome (fun a a' => ∃ ρ', AlikeThrough φ R ρ t t' a a' ρ') outcome outcome') 0 w

namespace Evaluator.Comes

variable {p : Evaluator h α} {depth : Nat} {w w₁ w₂ : World σ} {t u : Trace}

/-- A native run comes to one end. -/
theorem unique {outcome₁ outcome₂ : Except Halt α} (h₁ : p.Comes depth w outcome₁ t w₁)
    (h₂ : p.Comes depth w outcome₂ u w₂) : outcome₁ = outcome₂ ∧ t = u ∧ w₁ = w₂ := by
  obtain ⟨rfl, hs⟩ := Prod.mk.inj (h₁.eq.symm.trans h₂.eq)
  obtain rfl : w₁ = w₂ := congrArg Evaluator.State.world hs
  exact ⟨rfl, h₁.passes.unique h₂.passes, rfl⟩

/-- A failure ends the whole. -/
theorem bind_error {halt : Halt} (hp : p.Comes depth w (.error halt) t w₁)
    (k : α → Evaluator h β) : (p >>= k).Comes depth w (.error halt) t w₁ := by
  refine ⟨?_, hp.passes⟩
  show Evaluator.andThen p k ⟨depth, w⟩ = _
  rw [Evaluator.andThen, hp.eq]

/-- After a result another evaluator goes on. -/
theorem bind_ok {a : α} {k : α → Evaluator h β} {outcome : Except Halt β}
    (hp : p.Comes depth w (.ok a) t w₁) (hk : (k a).Comes depth w₁ outcome u w₂) :
    (p >>= k).Comes depth w outcome (t + u) w₂ := by
  refine ⟨?_, hp.passes.trans hk.passes⟩
  show Evaluator.andThen p k ⟨depth, w⟩ = _
  rw [Evaluator.andThen, hp.eq]
  exact hk.eq

/-- What is made of a value comes to it. -/
theorem map_ok {a : α} (hp : p.Comes depth w (.ok a) t w₁) (f : α → β) :
    (p >>= fun a => pure (f a)).Comes depth w (.ok (f a)) t w₁ := by
  have hpure : (pure (f a) : Evaluator h β).Comes depth w₁ (.ok (f a)) 0 w₁ := ⟨rfl, .refl w₁⟩
  rw [← add_zero t]
  exact hp.bind_ok hpure

/-- A native function answers from the store of the world. -/
theorem invoke {f : HostFunction} {receiver : Value} {arguments : List Value}
    {answer : Except EvalError Value} {s : Store σ} (hf : f.isAsync = false)
    (hrespond : h.respond f receiver arguments w.toStore = (answer, s))
    (hgrows : w.nextIdentity ≤ s.nextIdentity) :
    (Evaluator.invoke f receiver arguments : Evaluator h Value).Comes depth w
      (answer.mapError .failed)
      (⟨callsOf [.called f receiver arguments], ∅⟩ + ⟨0, Set.Ico w.nextIdentity s.nextIdentity⟩)
      { s with log := (w.record (.called f receiver arguments)).log } := by
  refine ⟨?_, (World.Passes.record w (.called f receiver arguments)).trans (.store hgrows)⟩
  have hrecorded : (w.record (.called f receiver arguments)).respond h f receiver arguments
      = (answer, { s with log := (w.record (.called f receiver arguments)).log }) :=
    congrArg (fun r => (r.1, (⟨r.2, (w.record (.called f receiver arguments)).log⟩ : World σ)))
      hrespond
  simp only [Evaluator.invoke, hf, Bool.false_eq_true, if_false]
  rw [hrecorded]

end Evaluator.Comes

namespace AlikeThrough

variable {R : Renaming → α → α' → Prop} {R' : Renaming → β → β' → Prop} {ρ ρ₁ ρ₂ : Renaming}
  {t t' u u' : Trace} {a : α} {a' : α'} {b : β} {b' : β'}

/-- One after the other. -/
theorem trans (h₁ : AlikeThrough φ R ρ t t' a a' ρ₁) (h₂ : AlikeThrough φ R' ρ₁ u u' b b' ρ₂) :
    AlikeThrough φ R' ρ (t + u) (t' + u') b b' ρ₂ where
  extension := h₁.extension.trans h₂.extension
  result := h₂.result
  calls := (h₁.calls.mono fun _ _ _ _ hc => hc.mono h₂.extension.le).add h₂.calls

/-- Side by side, with different identities taken. -/
theorem pair (hR : Monotone R) (hR' : Monotone R') (h₁ : AlikeThrough φ R ρ t t' a a' ρ₁)
    (h₂ : AlikeThrough φ R' ρ u u' b b' ρ₂) (htu : Disjoint t.taken u.taken)
    (htu' : Disjoint t'.taken u'.taken) :
    AlikeThrough φ (fun ρ p p' => R ρ p.1 p'.1 ∧ R' ρ p.2 p'.2) ρ (t + u) (t' + u') (a, b) (a', b')
      (ρ₁ ⊔ ρ₂) where
  extension := h₁.extension.sup h₂.extension htu htu'
  result := ⟨hR le_sup_left a a' h₁.result, hR' le_sup_right b b' h₂.result⟩
  calls := (h₁.calls.mono fun _ _ _ _ hc => hc.mono le_sup_left).add
    (h₂.calls.mono fun _ _ _ _ hc => hc.mono le_sup_right)

end AlikeThrough

namespace Follows

variable {depth : Nat} {ρ₀ ρ₁ : Renaming} {R : Renaming → α → α' → Prop}
  {R' : Renaming → β → β' → Prop}

/-- A larger renaming to begin with will do as well. -/
theorem mono {p : Evaluator h' α'} {q : Rounds h α} (hρ : ρ₀ ≤ ρ₁)
    (hpq : Follows φ depth ρ₀ R p q) : Follows φ depth ρ₁ R p q :=
  fun _ hle => hpq (hρ.trans hle)

/-- A result that is there already, or a failure. -/
theorem ofExcept {outcome : Except EvalError α} {outcome' : Except EvalError α'}
    (hsame : ∀ ρ, ρ₀ ≤ ρ → ρ.OneToOne → SameOutcome (R ρ) outcome outcome') :
    Follows φ depth ρ₀ R (.ofExcept outcome' : Evaluator h' α')
      (.ofExcept outcome : Rounds h α) := by
  intro ρ hle hρ w w' _
  refine ⟨outcome'.mapError .failed, 0, w', ⟨rfl, .refl w'⟩, .ready ?_⟩
  have hout := hsame ρ hle hρ
  cases outcome <;> cases outcome' <;> first
    | exact hout
    | exact ⟨ρ, .refl hρ, hout, .zero⟩

/-- Two like values. -/
theorem pure {a : α} {a' : α'} (ha : ∀ ρ, ρ₀ ≤ ρ → ρ.OneToOne → R ρ a a') :
    Follows φ depth ρ₀ R (Pure.pure a' : Evaluator h' α') (Pure.pure a : Rounds h α) :=
  show Follows φ depth ρ₀ R (.ofExcept (.ok a')) (.ofExcept (.ok a)) from ofExcept ha

/-- The identities that both take next stand for each other from now on. -/
theorem fresh :
    Follows φ depth ρ₀ (fun ρ => ρ) (.fresh : Evaluator h' Nat) (.fresh : Rounds h Nat) := by
  intro ρ hle hρ w w' hwithin
  have hlt : w.nextIdentity < w.fresh.2.nextIdentity := Nat.lt_succ_self _
  have hlt' : w'.nextIdentity < w'.fresh.2.nextIdentity := Nat.lt_succ_self _
  refine ⟨.ok w'.fresh.1, _, w'.fresh.2, ⟨rfl, .store hlt'.le⟩, _, .store hlt.le, ?_⟩
  rw [zero_add]
  exact ⟨_, .fresh hρ hwithin hlt hlt', .inr ⟨rfl, rfl⟩, .zero⟩

/-- One evaluation after the other. The second part begins with the
identities that the first one took. -/
theorem bind {p : Evaluator h' α'} {q : Rounds h α} {k' : α' → Evaluator h' β'}
    {k : α → Rounds h β} (hpq : Follows φ depth ρ₀ R p q)
    (hk : ∀ ρ, ρ₀ ≤ ρ → ρ.OneToOne → ∀ a a', R ρ a a' → Follows φ depth ρ R' (k' a') (k a)) :
    Follows φ depth ρ₀ R' (p >>= k') (q >>= k) := by
  intro ρ hle hρ w w' hwithin
  obtain ⟨outcome, t', w₁', hp, hq⟩ := hpq hle hρ w w' hwithin
  cases outcome with
  | error halt =>
      -- Both stop where the first part has failed.
      refine ⟨.error halt, t', w₁', hp.bind_error k', ?_⟩
      exact hq.andThen .zero (fun a u w₁ _ _ hQ => hQ.elim) fun e u _ => trivial
  | ok a' =>
      -- What holds of the second part wherever the first one may have ended.
      have hnext : ∀ a u w₁, w.nextIdentity ≤ w₁.nextIdentity → u.Before w₁ →
          (∃ ρ₁, AlikeThrough φ R ρ u t' a a' ρ₁) →
          ∃ outcome' u' w₂', (k' a').Comes depth w₁' outcome' u' w₂' ∧
            (k a w₁).Ends (fun outcome v => SameOutcome (fun b b' =>
              ∃ ρ₂, AlikeThrough φ R' ρ (u + v) (t' + u') b b' ρ₂) outcome outcome') 0 w₁ := by
        rintro a u w₁ hw₁ hu ⟨ρ₁, hρ₁⟩
        have hwithin₁ : ρ₁.Within (Set.Iio w₁.nextIdentity) (Set.Iio w₁'.nextIdentity) :=
          hρ₁.extension.within hwithin hw₁ hp.passes.le hu
            (Trace.Before.of_passes hp.passes)
        obtain ⟨outcome', u', w₂', hcomes, hends⟩ := hk ρ₁ (hle.trans hρ₁.extension.le)
          hρ₁.extension.oneToOne a a' hρ₁.result le_rfl hρ₁.extension.oneToOne w₁ w₁' hwithin₁
        refine ⟨outcome', u', w₂', hcomes, hends.mono fun outcome v hsame => hsame.imp ?_⟩
        rintro b b' ⟨ρ₂, hρ₂⟩
        exact ⟨ρ₂, hρ₁.trans hρ₂⟩
      -- The evaluator runs its second part once, but the rounds may begin theirs in many
      -- worlds. One of them, the end without a break, tells what the evaluator does.
      obtain ⟨u, hu, hfinish⟩ := hq.finish
      rw [zero_add] at hfinish
      rcases hresult : (q w).finish.1 with e | a
      · rw [hresult] at hfinish
        exact hfinish.elim
      · rw [hresult] at hfinish
        obtain ⟨outcome', u', w₂', hk', -⟩ := hnext a u _ hu.le (.of_passes hu) hfinish
        refine ⟨outcome', t' + u', w₂', hp.bind_ok hk', ?_⟩
        refine hq.andThen .zero (fun a v w₁ hw₁ hv hQ => ?_) fun e v hQ => hQ.elim
        obtain ⟨outcome'', u'', w₂'', hk'', hends⟩ := hnext a v w₁ hw₁ hv hQ
        -- In whatever world the rounds go on, it is the same run of the evaluator.
        obtain ⟨rfl, rfl, rfl⟩ := hk''.unique hk'
        rw [← add_zero v]
        exact hends.frame hv (Set.disjoint_empty _) fun _ _ _ hsame => hsame

/-- What is made of like values is alike again. -/
theorem map {p : Evaluator h' α'} {q : Rounds h α} {f' : α' → β'} {f : α → β}
    (hpq : Follows φ depth ρ₀ R p q) (hf : ∀ ρ a a', R ρ a a' → R' ρ (f a) (f' a'))
    (hR : Monotone R) : Follows φ depth ρ₀ R' (f' <$> p) (f <$> q) :=
  hpq.bind fun _ _ _ a a' ha => pure fun ρ' hle _ => hf ρ' a a' (hR hle a a' ha)

/-- Two parts begun together follow one after the other. They are polled
in turns, but each begins with identities that were there before both, and
takes others than the other one. -/
theorem both {p : Evaluator h' α'} {q : Rounds h α} {p' : Evaluator h' β'} {q' : Rounds h β}
    (hR : Monotone R) (hR' : Monotone R') (hpq : Follows φ depth ρ₀ R p q)
    (hpq' : Follows φ depth ρ₀ R' p' q') :
    Follows φ depth ρ₀ (fun ρ x x' => R ρ x.1 x'.1 ∧ R' ρ x.2 x'.2)
      (p >>= fun a => p' >>= fun b => Pure.pure (a, b)) (.both q q') := by
  intro ρ hle hρ w w' hwithin
  obtain ⟨outcome, t', w₁', hp, hq⟩ := hpq hle hρ w w' hwithin
  -- The second part is begun in a world that the first one has polled meanwhile.
  have hlater : ∀ w₁ : World σ, w.nextIdentity ≤ w₁.nextIdentity →
      ρ.Within (Set.Iio w₁.nextIdentity) (Set.Iio w₁'.nextIdentity) :=
    fun w₁ hw₁ i j hij => ⟨(hwithin hij).1.trans_le hw₁, (hwithin hij).2.trans_le hp.passes.le⟩
  obtain ⟨outcome', u', w₂', hp', -⟩ := hpq' hle hρ w w₁' (hlater w le_rfl)
  have hq' : ∀ w₁ : World σ, w.nextIdentity ≤ w₁.nextIdentity →
      (q' w₁).Ends (fun outcome t => SameOutcome
        (fun b b' => ∃ ρ', AlikeThrough φ R' ρ t u' b b' ρ') outcome outcome') 0 w₁ := by
    intro w₁ hw₁
    obtain ⟨_, _, _, hp'', hends⟩ := hpq' hle hρ w₁ w₁' (hlater w₁ hw₁)
    obtain ⟨rfl, rfl, rfl⟩ := hp''.unique hp'
    exact hends
  have hdisjoint : Disjoint t'.taken u'.taken :=
    (Trace.Before.of_passes hp.passes).disjoint hp'.passes
  have hends : ∀ Q : Except EvalError (α × β) → Trace → Prop,
      (∀ a b v v', Disjoint v.taken v'.taken →
        SameOutcome (fun a a' => ∃ ρ', AlikeThrough φ R ρ v t' a a' ρ')
          (.ok a : Except EvalError α) outcome →
        SameOutcome (fun b b' => ∃ ρ', AlikeThrough φ R' ρ v' u' b b' ρ')
          (.ok b : Except EvalError β) outcome' → Q (.ok (a, b)) (v + v')) →
      (∀ halt, outcome = .error halt ∨ outcome' = .error halt → ∀ e v, Q (.error e) v) →
      (Rounds.both q q' w).Ends Q 0 w := by
    intro Q hok herror
    have hboth := hq.both hq' .zero .zero (Set.disjoint_empty _) hok
      (fun e v v' hQ => ?_) (fun e v v' hQ => ?_)
    · rwa [add_zero] at hboth
    · cases outcome with
      | ok a' => exact hQ.elim
      | error halt => exact herror halt (.inl rfl) e v'
    · cases outcome' with
      | ok b' => exact hQ.elim
      | error halt => exact herror halt (.inr rfl) e v'
  -- The evaluator stops at the first failure, the rounds at the one that comes first.
  cases outcome with
  | error halt =>
      refine ⟨.error halt, t', w₁', hp.bind_error _, hends _ ?_ fun _ _ _ _ => trivial⟩
      exact fun a b v v' _ hQ _ => hQ.elim
  | ok a' =>
      cases outcome' with
      | error halt =>
          refine ⟨.error halt, t' + u', w₂', hp.bind_ok (hp'.bind_error _), hends _ ?_
            fun _ _ _ _ => trivial⟩
          exact fun a b v v' _ _ hQ => hQ.elim
      | ok b' =>
          refine ⟨.ok (a', b'), t' + u', w₂', hp.bind_ok (hp'.map_ok (a', ·)), hends _ ?_ ?_⟩
          · rintro a b v v' hv ⟨ρ₁, h₁⟩ ⟨ρ₂, h₂⟩
            exact ⟨_, h₁.pair hR hR' h₂ hv hdisjoint⟩
          · rintro halt (herror | herror) <;> cases herror

/-- A level of nesting. -/
theorem within {limit : Nat} {p : Evaluator h' α'} {q : Rounds h α}
    (hpq : Follows φ (depth + 1) ρ₀ R p q) :
    Follows φ depth ρ₀ R (.within limit p) (.within limit depth q) := by
  intro ρ hle hρ w w' hwithin
  by_cases hdepth : depth < limit
  · obtain ⟨outcome, t', w₁', hp, hq⟩ := hpq hle hρ w w' hwithin
    refine ⟨outcome, t', w₁', ⟨?_, hp.passes⟩, ?_⟩
    · simp only [Evaluator.within, hdepth, if_true, hp.eq, Nat.add_sub_cancel]
    · simpa only [Rounds.within, hdepth, if_true] using hq
  · refine ⟨.error (.failed (.stackOverflow depth limit)), 0, w', ⟨?_, .refl w'⟩, ?_⟩
    · simp only [Evaluator.within, hdepth, if_false]
    · simp only [Rounds.within, hdepth, if_false]
      exact .ready trivial

section

variable {floor : Identity}

/-- A call. The function may answer later, from whatever state the host is
in by then; its native counterpart has answered at once. -/
theorem invoke (hh : h.Mirrors φ h' floor) (hnative : ∀ f, (φ f).isAsync = false)
    (hfloor : Renaming.below floor ≤ ρ₀) (f : HostFunction) {receiver receiver' : Value}
    {arguments arguments' : List Value} (hreceiver : receiver.Alike φ ρ₀ receiver')
    (harguments : Value.AlikeEach φ ρ₀ arguments arguments') :
    Follows φ depth ρ₀ (Value.Alike φ) (.invoke (h := h') (φ f) receiver' arguments')
      (.invoke (h := h) f receiver arguments) := by
  intro ρ hle hρ w w' hwithin
  have hreceiver₁ := Value.Alike.mono hle _ _ hreceiver
  have harguments₁ := Value.AlikeEach.mono hle _ _ harguments
  -- The store that the native function answers from.
  have hanswer := fun (s : Store σ) (hs : w.nextIdentity ≤ s.nextIdentity) =>
    hh f receiver receiver' arguments arguments' s w'.toStore hρ (hfloor.trans hle)
      (fun i j hij => ⟨(hwithin hij).1.trans_le hs, (hwithin hij).2⟩) hreceiver₁ harguments₁
  obtain ⟨hstart, -, hgrows', -⟩ := hanswer w.toStore le_rfl
  rcases hr' : h'.respond (φ f) receiver' arguments' w'.toStore with ⟨answer', s'⟩
  simp only [hr'] at hanswer hgrows'
  let t' : Trace := ⟨callsOf [.called (φ f) receiver' arguments'], ∅⟩ +
    ⟨0, Set.Ico w'.nextIdentity s'.nextIdentity⟩
  -- The answer in rounds, from whatever store the host has by then. Identities that the
  -- function took when it was called are in the trace, but not in the answer.
  have hends : ∀ (taken : Set Identity) (w₁ : World σ), w.nextIdentity ≤ w₁.nextIdentity →
      (Rounds.answer h f receiver arguments w₁).Ends (fun outcome t =>
        SameOutcome (fun a a' => ∃ ρ', AlikeThrough φ (Value.Alike φ) ρ t t' a a' ρ') outcome
          (answer'.mapError Halt.failed))
        ⟨callsOf [.called f receiver arguments], taken⟩ w₁ := by
    intro taken w₁ hw₁
    obtain ⟨-, hgrows, -, hsame⟩ := hanswer w₁.toStore hw₁
    refine ⟨_, .store hgrows, ?_⟩
    refine (hsame.imp ?_).mapError
    rintro a a' ⟨ρ', hextends, ha⟩
    have hcall : Call.Alike φ ρ' ⟨f, receiver, arguments⟩ ⟨φ f, receiver', arguments'⟩ :=
      Call.Alike.mono hextends.le ⟨rfl, hreceiver₁, harguments₁⟩
    refine ⟨ρ', hextends.mono Set.subset_union_right Set.subset_union_right, ha,
      (Multiset.Rel.cons hcall .zero).add .zero⟩
  refine ⟨_, t', _, .invoke (hnative f) hr' hgrows', ?_⟩
  cases hasync : f.isAsync with
  | false =>
      simp only [Rounds.invoke, hasync, Bool.false_eq_true, if_false]
      refine .prepend (.record w (.called f receiver arguments)) ?_
      rw [zero_add]
      exact hends ∅ _ le_rfl
  | true =>
      simp only [Rounds.invoke, hasync, if_true]
      refine .prepend (.record w (.called f receiver arguments)) ?_
      refine .prepend (.store (s := h.start f receiver arguments w.toStore) hstart)
        (.after fun w₁ hw₁ => ?_)
      refine .prepend (.record w₁ (.completed f)) ?_
      -- Neither acting at once nor becoming ready is a call.
      have hcompleted : (⟨callsOf [.completed f], ∅⟩ : Trace) = 0 := rfl
      rw [hcompleted, add_zero, zero_add]
      exact hends _ _ (hstart.trans hw₁)

end

end Follows

/-! ### The parts of the walk -/

/-- Contexts with like scopes and resolvers that stand for each other. -/
structure Context.Alike (φ : HostFunction → HostFunction) (ρ : Renaming) (ctx ctx' : Context) :
    Prop where
  thisValue : ctx.thisValue.Alike φ ρ ctx'.thisValue
  resolver : ctx'.resolver = ctx.resolver.map φ

section

variable {floor : Identity} (hh : h.Mirrors φ h' floor) (hnative : ∀ f, (φ f).isAsync = false)
  (hφ : Function.Injective φ) {depth : Nat} {ρ₀ : Renaming}

namespace Follows

/-- Two evaluations side by side follow the two in a row, since neither sees
what the other calls. -/
theorem both_bind {R : Renaming → α → α' → Prop} {R' : Renaming → β → β' → Prop}
    {R'' : Renaming → γ → γ' → Prop} {p : Evaluator h' α'} {q : Rounds h α} {p' : Evaluator h' β'}
    {q' : Rounds h β} {k' : α' → β' → Evaluator h' γ'} {k : α × β → Rounds h γ}
    (hR : Monotone R) (hR' : Monotone R') (hpq : Follows φ depth ρ₀ R p q)
    (hpq' : Follows φ depth ρ₀ R' p' q')
    (hk : ∀ ρ, ρ₀ ≤ ρ → ρ.OneToOne → ∀ a a' b b', R ρ a a' → R' ρ b b' →
      Follows φ depth ρ R'' (k' a' b') (k (a, b))) :
    Follows φ depth ρ₀ R'' (p >>= fun a => p' >>= fun b => k' a b) (Rounds.both q q' >>= k) := by
  rw [Evaluator.pair_bind]
  exact (both hR hR' hpq hpq').bind fun ρ hle hρ x x' hx =>
    hk ρ hle hρ x.1 x'.1 x.2 x'.2 hx.1 hx.2

/-- Like values stay so under a larger renaming. -/
theorem value_mono : Monotone (Value.Alike φ) := fun _ _ hρ a b hab => Value.Alike.mono hρ a b hab

/-- So do lists of them. -/
theorem values_mono : Monotone (Value.AlikeEach φ) :=
  fun _ _ hρ as bs has => Value.AlikeEach.mono hρ as bs has

include hh hnative in
/-- A name of like scopes, or a call of the resolver. -/
theorem lookup (hfloor : Renaming.below floor ≤ ρ₀) {ctx ctx' : Context}
    (hctx : ctx.Alike φ ρ₀ ctx') (name : String) :
    Follows φ depth ρ₀ (Value.Alike φ) (.lookup ctx' name : Evaluator h' Value)
      (.lookup ctx name : Rounds h Value) := by
  have hown : Option.Rel (Value.Alike φ ρ₀) (ctx.getOwn? name) (ctx'.getOwn? name) :=
    Value.AlikeProperties.get? _ _ hctx.thisValue.2 name
  simp only [Evaluator.lookup, Rounds.lookup, hctx.resolver]
  -- A name is in both scopes or in neither.
  generalize ctx.getOwn? name = own at hown ⊢
  generalize ctx'.getOwn? name = own' at hown ⊢
  cases hown with
  | some hvalue => exact pure fun ρ hle _ => value_mono hle _ _ hvalue
  | none =>
      cases ctx.resolver with
      | none => exact pure fun _ _ _ => Value.alike_undefined.2 rfl
      | some f =>
          have hname : Value.AlikeEach φ ρ₀ [.string name] [.string name] :=
            Value.alikeEach_cons.2
              ⟨_, _, rfl, Value.alike_string.2 rfl, Value.alikeEach_nil.2 rfl⟩
          exact invoke hh hnative hfloor f hctx.thisValue hname

include hφ in
/-- An operator follows if its operands do. -/
theorem operation (operator : String) {left' right' : Evaluator h' Value}
    {left right : Rounds h Value}
    (hleft : Follows φ depth ρ₀ (Value.Alike φ) left' left)
    (hright : Follows φ depth ρ₀ (Value.Alike φ) right' right) :
    Follows φ depth ρ₀ (Value.Alike φ) (.operation operator left' right')
      (.operation operator left right) := by
  have hoperator : Follows φ depth ρ₀ (fun _ => Eq)
      (.ofExcept (binaryOperator operator) : Evaluator h' BinaryOperator)
      (.ofExcept (binaryOperator operator) : Rounds h BinaryOperator) :=
    ofExcept fun _ _ _ => by cases binaryOperator operator <;> trivial
  refine hoperator.bind fun ρ hle _ o o' ho => ?_
  subst ho
  refine both_bind value_mono value_mono (hleft.mono hle) (hright.mono hle) ?_
  intro ρ' _ _ a a' b b' ha hb
  exact pure fun ρ'' hle'' hρ'' => .apply_binary o hφ hρ'' (value_mono hle'' _ _ ha)
    (value_mono hle'' _ _ hb)

/-- An array follows if its elements do. Its identity is new on both sides. -/
theorem array {elements' : Evaluator h' (List Value)} {elements : Rounds h (List Value)}
    (helements : Follows φ depth ρ₀ (Value.AlikeEach φ) elements' elements) :
    Follows φ depth ρ₀ (Value.Alike φ)
      (do
        let values ← elements'
        let identity ← Evaluator.fresh
        return Value.array identity values)
      (do
        let values ← elements
        let identity ← Rounds.fresh
        return Value.array identity values) := by
  refine helements.bind fun ρ _ _ as as' has => ?_
  refine fresh.bind fun ρ' hle _ i i' hi => pure fun ρ'' hle' _ => ?_
  exact Value.alike_array.2 ⟨i', as', rfl, hle' i i' hi, values_mono (hle.trans hle') _ _ has⟩

/-- A sign follows if its operand does. -/
theorem unary (operator : String) {argument' : Evaluator h' Value} {argument : Rounds h Value}
    (hargument : Follows φ depth ρ₀ (Value.Alike φ) argument' argument) :
    Follows φ depth ρ₀ (Value.Alike φ)
      (do
        let o ← Evaluator.ofExcept (unaryOperator operator)
        let value ← argument'
        return o.apply value)
      (do
        let o ← Rounds.ofExcept (unaryOperator operator)
        let value ← argument
        return o.apply value) := by
  have hoperator : Follows φ depth ρ₀ (fun _ => Eq)
      (.ofExcept (unaryOperator operator) : Evaluator h' UnaryOperator)
      (.ofExcept (unaryOperator operator) : Rounds h UnaryOperator) :=
    ofExcept fun _ _ _ => by cases unaryOperator operator <;> trivial
  refine hoperator.bind fun ρ hle _ o o' ho => ?_
  subst ho
  refine (hargument.mono hle).bind fun ρ' _ _ a a' ha => ?_
  exact pure fun ρ'' hle' _ => .apply_unary o (value_mono hle' _ _ ha)

/-- The test decides in both evaluations alike. -/
theorem conditional {test' consequent' alternate' : Evaluator h' Value}
    {test consequent alternate : Rounds h Value}
    (htest : Follows φ depth ρ₀ (Value.Alike φ) test' test)
    (hconsequent : Follows φ depth ρ₀ (Value.Alike φ) consequent' consequent)
    (halternate : Follows φ depth ρ₀ (Value.Alike φ) alternate' alternate) :
    Follows φ depth ρ₀ (Value.Alike φ)
      (do
        let value ← test'
        if value.isTruthy then consequent' else alternate')
      (do
        let value ← test
        if value.isTruthy then consequent else alternate) := by
  refine htest.bind fun ρ hle _ a a' ha => ?_
  rw [ha.isTruthy_eq]
  split
  · exact hconsequent.mono hle
  · exact halternate.mono hle

include hφ in
/-- The left operand decides in both evaluations alike, or with other symbols than the
two lazy ones both operands are evaluated. -/
theorem logical (operator : String) {left' right' : Evaluator h' Value}
    {left right : Rounds h Value}
    (hleft : Follows φ depth ρ₀ (Value.Alike φ) left' left)
    (hright : Follows φ depth ρ₀ (Value.Alike φ) right' right) :
    Follows φ depth ρ₀ (Value.Alike φ)
      (if operator = "||" then do
        let value ← left'
        if value.isTruthy then return value else right'
      else if operator = "&&" then do
        let value ← left'
        if value.isTruthy then right' else return value
      else .operation operator left' right')
      (if operator = "||" then do
        let value ← left
        if value.isTruthy then return value else right
      else if operator = "&&" then do
        let value ← left
        if value.isTruthy then right else return value
      else .operation operator left right) := by
  -- Like left operands have the same truth value, so the right one is evaluated on both sides or
  -- on neither.
  split
  · refine hleft.bind fun ρ hle _ a a' ha => ?_
    rw [ha.isTruthy_eq]
    split
    · exact pure fun _ hle' _ => value_mono hle' _ _ ha
    · exact hright.mono hle
  · split
    · refine hleft.bind fun ρ hle _ a a' ha => ?_
      rw [ha.isTruthy_eq]
      split
      · exact hright.mono hle
      · exact pure fun _ hle' _ => value_mono hle' _ _ ha
    · exact operation hφ operator hleft hright

/-- The key is evaluated in both evaluations or in neither. -/
theorem memberOf (property : Expr) (computed : Bool) {object' key' : Evaluator h' Value}
    {object key : Rounds h Value} (hobject : Follows φ depth ρ₀ (Value.Alike φ) object' object)
    (hkey : Follows φ depth ρ₀ (Value.Alike φ) key' key) :
    Follows φ depth ρ₀ (fun ρ x x' => x.1.Alike φ ρ x'.1 ∧ x.2.Alike φ ρ x'.2)
      (.memberOf object' property computed key') (.memberOf object property computed key) := by
  have hpair {ρ : Renaming} {a a' b b' : Value} (ha : a.Alike φ ρ a') (hb : b.Alike φ ρ b') :
      Follows φ depth ρ (fun ρ x x' => x.1.Alike φ ρ x'.1 ∧ x.2.Alike φ ρ x'.2)
        (Pure.pure (a', b') : Evaluator h' (Value × Value))
        (Pure.pure (a, b) : Rounds h (Value × Value)) :=
    pure fun _ hle _ => ⟨value_mono hle _ _ ha, value_mono hle _ _ hb⟩
  refine hobject.bind fun ρ hle _ a a' ha => ?_
  -- A key is evaluated only where the member is computed, in both alike.
  cases property.staticName? computed with
  | some name =>
      refine (ofExcept (R := Value.Alike φ) fun ρ' hle' _ => ?_).bind ?_
      · exact (value_mono hle' _ _ ha).getNamed? name
      · exact fun ρ' hle' _ b b' hb => hpair (value_mono hle' _ _ ha) hb
  | none =>
      refine (hkey.mono hle).bind fun ρ' hle' _ k k' hk => ?_
      have ha' := value_mono hle' _ _ ha
      refine (ofExcept (R := Value.Alike φ) fun ρ'' hle'' _ => ?_).bind ?_
      · exact (value_mono hle'' _ _ ha').getKey? (value_mono hle'' _ _ hk)
      · exact fun ρ'' hle'' _ b b' hb => hpair (value_mono hle'' _ _ ha') hb

include hh hnative in
/-- A call follows if its target and its arguments do. -/
theorem callWith (hfloor : Renaming.below floor ≤ ρ₀) {target' : Evaluator h' (Value × Value)}
    {target : Rounds h (Value × Value)} {arguments' : Evaluator h' (List Value)}
    {arguments : Rounds h (List Value)}
    (htarget : Follows φ depth ρ₀ (fun ρ x x' => x.1.Alike φ ρ x'.1 ∧ x.2.Alike φ ρ x'.2)
      target' target)
    (harguments : Follows φ depth ρ₀ (Value.AlikeEach φ) arguments' arguments) :
    Follows φ depth ρ₀ (Value.Alike φ) (.callWith target' arguments')
      (.callWith target arguments) := by
  refine htarget.bind fun ρ hle _ ⟨receiver, callee⟩ ⟨receiver', callee'⟩ hx => ?_
  refine (harguments.mono hle).bind fun ρ' hle' _ as as' has => ?_
  have hreceiver := value_mono hle' _ _ hx.1
  -- Only a function is called; what is no function has no value.
  cases hx.2.shape with
  | function hf =>
      subst hf
      exact invoke hh hnative ((hfloor.trans hle).trans hle') _ hreceiver has
  | primitive hcompound =>
      cases callee with
      | function f => cases hcompound
      | _ => exact pure fun _ _ _ => Value.alike_undefined.2 rfl
  | array _ _ => exact pure fun _ _ _ => Value.alike_undefined.2 rfl
  | object _ _ => exact pure fun _ _ _ => Value.alike_undefined.2 rfl

end Follows

end

/-! ### The walk -/

/-- A host and a context that stand for others: their functions answer at
once, and they answer as those of the others do. -/
structure Counterpart (φ : HostFunction → HostFunction) (floor : Identity) (h h' : Host σ)
    (ctx ctx' : Context) : Prop where
  host : h.Mirrors φ h' floor
  native : ∀ f, (φ f).isAsync = false
  injective : Function.Injective φ
  context : ctx.Alike φ (Renaming.below floor) ctx'

section

variable {floor : Identity} {ctx ctx' : Context}

mutual

/-- The walk in rounds follows the walk at once, on every tree and at every
depth. -/
theorem eval_follows (hc : Counterpart φ floor h h' ctx ctx') (limit : Nat) :
    (e : Expr) → (depth : Nat) → Follows φ depth (Renaming.below floor) (Value.Alike φ)
      (Evaluator.eval (h := h') ctx' limit e) (Rounds.eval (h := h) ctx limit depth e)
  | .literal value, depth => by
      rw [Evaluator.eval, Rounds.eval]
      refine .within (.pure fun _ _ _ => ?_)
      cases value <;> exact .refl_of_not_isCompound rfl
  | .identifier name, depth => by
      rw [Evaluator.eval, Rounds.eval]
      exact .within (.lookup hc.host hc.native le_rfl hc.context name)
  | .this, depth => by
      rw [Evaluator.eval, Rounds.eval]
      exact .within (.pure fun _ hle _ => Follows.value_mono hle _ _ hc.context.thisValue)
  | .array elements, depth => by
      rw [Evaluator.eval, Rounds.eval]
      exact .within (.array (evalEach_follows hc limit elements (depth + 1)))
  | .unary operator argument, depth => by
      rw [Evaluator.eval, Rounds.eval]
      exact .within (.unary operator (eval_follows hc limit argument (depth + 1)))
  | .binary operator left right, depth => by
      rw [Evaluator.eval, Rounds.eval]
      exact .within (.operation hc.injective operator (eval_follows hc limit left (depth + 1))
        (eval_follows hc limit right (depth + 1)))
  | .logical operator left right, depth => by
      rw [Evaluator.eval, Rounds.eval]
      exact .within (.logical hc.injective operator (eval_follows hc limit left (depth + 1))
        (eval_follows hc limit right (depth + 1)))
  | .conditional test consequent alternate, depth => by
      rw [Evaluator.eval, Rounds.eval]
      exact .within (.conditional (eval_follows hc limit test (depth + 1))
        (eval_follows hc limit consequent (depth + 1))
        (eval_follows hc limit alternate (depth + 1)))
  | .member object property computed, depth => by
      have hobject := eval_follows hc limit object (depth + 1)
      have hproperty := eval_follows hc limit property (depth + 1)
      rw [Evaluator.eval, Rounds.eval]
      refine .within ((Follows.memberOf property computed hobject hproperty).map
        (fun _ _ _ hx => hx.2) ?_)
      exact fun _ _ hρ x x' hx => ⟨Follows.value_mono hρ _ _ hx.1, Follows.value_mono hρ _ _ hx.2⟩
  | .call callee arguments, depth => by
      have hcallee := eval_follows hc limit callee (depth + 1)
      have harguments := evalEach_follows hc limit arguments (depth + 1)
      cases callee with
      | member object property computed =>
          have hobject := eval_follows hc limit object (depth + 1)
          have hproperty := eval_follows hc limit property (depth + 1)
          rw [Evaluator.eval, Rounds.eval]
          exact .within (.callWith hc.host hc.native le_rfl
            (.memberOf property computed hobject hproperty) harguments)
      | _ =>
          rw [Evaluator.eval, Rounds.eval]
          · refine .within (.callWith hc.host hc.native le_rfl (hcallee.map (fun _ _ _ ha => ?_)
              Follows.value_mono) harguments)
            exact ⟨Value.alike_undefined.2 rfl, ha⟩
          -- What is left is that the callee is no member expression.
          all_goals exact nofun
  | .unknown, depth => by
      rw [Evaluator.eval, Rounds.eval]
      exact .within (.pure fun _ _ _ => Value.alike_undefined.2 rfl)

/-- The walk in rounds over a list begins all its elements together. -/
theorem evalEach_follows (hc : Counterpart φ floor h h' ctx ctx') (limit : Nat) :
    (es : List Expr) → (depth : Nat) →
    Follows φ depth (Renaming.below floor) (Value.AlikeEach φ)
      (Evaluator.evalEach (h := h') ctx' limit es) (Rounds.evalEach (h := h) ctx limit depth es)
  | [], depth => by
      rw [Evaluator.evalEach, Rounds.evalEach]
      exact .pure fun _ _ _ => Value.alikeEach_nil.2 rfl
  | e :: es, depth => by
      rw [Evaluator.evalEach, Rounds.evalEach]
      have he := eval_follows hc limit e depth
      have hes := evalEach_follows hc limit es depth
      refine .both_bind Follows.value_mono Follows.values_mono he hes
        fun ρ _ _ a a' as as' ha has => .pure fun ρ' hle _ => ?_
      exact Value.alikeEach_cons.2
        ⟨a', as', rfl, Follows.value_mono hle _ _ ha, Follows.values_mono hle _ _ has⟩

end

end

/-! ### Whole runs -/

/-- The calls in the log of a world since an earlier one, in no order. -/
def World.callsSince (w w' : World σ) : Multiset Call := callsOf (w'.log.toList.drop w.log.size)

/-- The calls that are traced are those at the end of the log. -/
theorem World.Passes.callsSince_eq {w w' : World σ} {t : Trace} (ht : w.Passes t w') :
    w.callsSince w' = t.calls := by
  obtain ⟨es, hlog, hcalls⟩ := ht.log
  rw [World.callsSince, hlog, ← Array.length_toList, List.drop_left, hcalls]

/-- Two runs that began in one world come to the same: both fail, or both
succeed with like values and have made like calls, as often. Identities
that were there before stand for themselves. -/
def SameRun (φ : HostFunction → HostFunction) (w : World σ)
    (r r' : Except EvalError Value × World σ) : Prop :=
  SameOutcome (fun a a' => ∃ ρ : Renaming, ρ.OneToOne ∧ Renaming.below w.nextIdentity ≤ ρ ∧
    a.Alike φ ρ a' ∧ Multiset.Rel (Call.Alike φ ρ) (w.callsSince r.2) (w.callsSince r'.2)) r.1 r'.1

/-- Calls that are like the same calls are like each other. -/
theorem Call.rel_through (hφ : Function.Injective φ) {ρ ρ' : Renaming} {s t u : Multiset Call}
    (hs : Multiset.Rel (Call.Alike φ ρ) s u) (ht : Multiset.Rel (Call.Alike φ ρ') t u) :
    Multiset.Rel (Call.Alike id (ρ.through ρ')) s t := by
  induction hs generalizing t with
  | zero =>
      rw [Multiset.rel_zero_right] at ht
      rw [ht]
      exact .zero
  | cons hac _ ih =>
      -- Some call of `t` is like the one at the front of `u`.
      obtain ⟨b, t', hbc, ht', rfl⟩ := Multiset.rel_cons_right.1 ht
      refine .cons ⟨?_, ?_, ?_⟩ (ih ht')
      · exact hφ (hbc.function.symm.trans hac.function)
      · exact Value.Alike.through hφ _ _ _ hac.receiver hbc.receiver
      · exact Value.AlikeEach.through hφ _ _ _ hac.arguments hbc.arguments

/-- Two runs that are the same as a third one are the same as each
other. -/
theorem SameRun.through (hφ : Function.Injective φ) {w : World σ}
    {r₁ r₂ r : Except EvalError Value × World σ} (h₁ : SameRun φ w r₁ r) (h₂ : SameRun φ w r₂ r) :
    SameRun id w r₁ r₂ := by
  rcases r₁ with ⟨e₁ | a₁, w₁⟩ <;> rcases r₂ with ⟨e₂ | a₂, w₂⟩ <;> rcases r with ⟨e | a, w'⟩ <;>
    try first | trivial | exact h₁.elim | exact h₂.elim
  obtain ⟨ρ₁, hρ₁, hbelow₁, ha₁, hcalls₁⟩ := h₁
  obtain ⟨ρ₂, hρ₂, hbelow₂, ha₂, hcalls₂⟩ := h₂
  exact ⟨ρ₁.through ρ₂, hρ₁.through hρ₂, Renaming.below_le_through hbelow₁ hbelow₂,
    Value.Alike.through hφ _ _ _ ha₁ ha₂, Call.rel_through hφ hcalls₁ hcalls₂⟩

/-- Polled until it is ready, an evaluation that follows another comes to
the same. -/
theorem Follows.sameRun {p : Evaluator h' Value} {q : Rounds h Value} {w : World σ}
    (hpq : Follows φ 0 (Renaming.below w.nextIdentity) (Value.Alike φ) p q) :
    SameRun φ w (q.run w) (p.start w) := by
  obtain ⟨outcome', t', w₁', hp, hq⟩ := hpq le_rfl (Renaming.oneToOne_below _) w w
    fun i j hij => ⟨hij.2, hij.1 ▸ hij.2⟩
  -- The rounds are run to their end, and there the relation of the values says all that is
  -- claimed.
  obtain ⟨t, ht, hsame⟩ := hq.finish
  have hstart : p.start w = (outcome'.mapError Halt.error, w₁') := by
    simp only [Evaluator.start, hp.eq]
  rw [hstart, zero_add] at *
  refine (hsame.imp ?_).mapError
  rintro a a' ⟨ρ, hρ⟩
  refine ⟨ρ, hρ.extension.oneToOne, hρ.extension.le, hρ.result, ?_⟩
  have hcalls : w.callsSince (q.run w).2 = t.calls := ht.callsSince_eq
  rw [hcalls, hp.passes.callsSince_eq]
  exact hρ.calls

/-- Every identity that a context shows is below a bound. -/
def Context.Below (n : Identity) (ctx : Context) : Prop := ctx.thisValue.Below n

/-- A context is like the one with native functions in the places of the
others. -/
theorem Context.alike_native {ctx : Context} {n : Identity} (hctx : ctx.Below n) :
    ctx.Alike .asNative (Renaming.below n) ctx.native :=
  ⟨Value.Alike.mapFunctions .asNative _ _ hctx, rfl⟩

/-- For a pure host, however long each asynchronous function stays
pending, an evaluation in rounds comes to the same: it succeeds under one
schedule just when it does under another, with the same value up to the
identities of new arrays, and has made the same calls. It also comes to
the same as the evaluation at once with native functions in the place of
all functions. -/
theorem inRounds_sameRun (h : Host σ) (ctx : Context) (limit : Nat) (e : Expr) (w : World σ)
    (hpure : h.Pure w.nextIdentity) (hctx : ctx.Below w.nextIdentity)
    (delay₁ delay₂ : HostFunction → Nat) :
    SameRun id w ((evaluateInRounds (h.withDelay delay₁) ctx limit e).run w)
      ((evaluateInRounds (h.withDelay delay₂) ctx limit e).run w) ∧
    SameRun .asNative w ((evaluateInRounds (h.withDelay delay₁) ctx limit e).run w)
      (evaluate h.native ctx.native limit e w) := by
  have hnative (delay : HostFunction → Nat) :
      SameRun .asNative w ((evaluateInRounds (h.withDelay delay) ctx limit e).run w)
        (evaluate h.native ctx.native limit e w) := by
    have hc : Counterpart .asNative w.nextIdentity (h.withDelay delay) h.native ctx ctx.native :=
      ⟨hpure.mirrors_native, fun _ => rfl, HostFunction.asNative_injective, ctx.alike_native hctx⟩
    exact (eval_follows hc limit e 0).sameRun
  exact ⟨(hnative delay₁).through HostFunction.asNative_injective (hnative delay₂), hnative delay₁⟩

/-- A sum of two calls of an asynchronous function that makes arrays, and a
name that is asked of an asynchronous resolver: whether the left operand is
ready before the right one or after it, the run is the same. -/
theorem inRounds_sameRun_opposite_delays :
    let h := Registry.host #[⟨"first", .arguments, 0, false⟩, ⟨"second", .arguments, 0, false⟩,
      ⟨"find", .constant .null, 0, true⟩]
    let ctx : Context :=
      ⟨⟨0, [("f", .function ⟨0, true⟩), ("g", .function ⟨1, true⟩)]⟩, some ⟨2, true⟩⟩
    let e : Expr := .binary "+" (.call (.identifier "f") [.identifier "x"])
      (.call (.identifier "g") [.array []])
    let w : World Counters := ⟨⟨1, []⟩, #[]⟩
    h.Pure 1 ∧ ctx.Below 1 ∧
    SameRun id w ((evaluateInRounds (h.withDelay fun f => f.id) ctx 4 e).run w)
      ((evaluateInRounds (h.withDelay fun f => 2 - f.id) ctx 4 e).run w) := by
  intro h ctx e w
  -- The delays turn the order of the two calls around, and each makes a new array of its
  -- arguments.
  have hpure : h.Pure 1 := by
    refine Registry.host_pure fun registration hregistration => ?_
    simp only [Array.mem_toList_iff.symm, List.mem_cons, List.not_mem_nil, or_false]
      at hregistration
    rcases hregistration with rfl | rfl | rfl <;> exact True.intro
  have hctx : ctx.Below 1 :=
    ⟨⟨rfl, Nat.zero_lt_one⟩, rfl, rfl, rfl, rfl, trivial⟩
  exact ⟨hpure, hctx, (inRounds_sameRun h ctx 4 e w hpure hctx (fun f => f.id) fun f => 2 - f.id).1⟩

end Formula
