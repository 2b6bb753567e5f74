import Mathlib.Algebra.Order.Group.Multiset
import Mathlib.Data.Set.BooleanAlgebra
import Mathlib.Data.Set.Disjoint
import Mathlib.Order.CompletePartialOrder
import Mathlib.Order.Interval.Set.LinearOrder
import Formula.Evaluation.Rounds

/-!
# `Formula.Proofs.Evaluation.Trace`: what an evaluation in rounds leaves

While an evaluation in rounds is pending, others run: the world that it is
polled in is not the one that it left. What it comes to is therefore said
without naming a world. A `Trace` is what the evaluation itself has done
so far, however much was done in between: the calls that it made, in no
order, and the identities that were taken meanwhile.

* `Round.Ends`: whatever happens between its polls, the evaluation comes
  to an end that has a property.
* `Ends.andThen`, `Ends.both`, `Ends.after`: the property of a whole, from
  those of its parts. Parts that are begun together may be interleaved in
  any way; they take different identities.
* `Ends.finish`: the property holds when nothing happens in between.
-/

set_option autoImplicit false

namespace Formula

/-! ### Calls and identities -/

/-- A call of a function of the host. -/
structure Call where
  function : HostFunction
  receiver : Value
  arguments : List Value

/-- The call that an event begins. -/
def Event.call? : Event → Option Call
  | .called f receiver arguments => some ⟨f, receiver, arguments⟩
  | .completed _ => none

/-- The calls among some events, in no order. -/
def callsOf (events : List Event) : Multiset Call := ↑(events.filterMap Event.call?)

/-- The calls in two logs add up. -/
theorem callsOf_append (es es' : List Event) :
    callsOf (es ++ es') = callsOf es + callsOf es' := by
  simp only [callsOf, List.filterMap_append, Multiset.coe_add]

/-- What an evaluation has done. -/
@[ext]
structure Trace where
  calls : Multiset Call
  taken : Set Identity

namespace Trace

instance : Add Trace := ⟨fun t u => ⟨t.calls + u.calls, t.taken ∪ u.taken⟩⟩

instance : Zero Trace := ⟨⟨0, ∅⟩⟩

instance : AddCommMonoid Trace where
  add_assoc _ _ _ := Trace.ext (add_assoc _ _ _) (Set.union_assoc _ _ _)
  zero_add _ := Trace.ext (zero_add _) (Set.empty_union _)
  add_zero _ := Trace.ext (add_zero _) (Set.union_empty _)
  add_comm _ _ := Trace.ext (add_comm _ _) (Set.union_comm _ _)
  nsmul := nsmulRec

/-- The calls of a sum are those of both. -/
theorem calls_add (t u : Trace) : (t + u).calls = t.calls + u.calls := rfl

/-- The identities of a sum are taken in one of both. -/
theorem taken_add (t u : Trace) : (t + u).taken = t.taken ∪ u.taken := rfl

end Trace

/-- From the one world to the other a trace was left, and nothing else. -/
structure World.Passes {σ : Type} (w : World σ) (t : Trace) (w' : World σ) : Prop where
  le : w.nextIdentity ≤ w'.nextIdentity
  log : ∃ events, w'.log.toList = w.log.toList ++ events ∧ callsOf events = t.calls
  taken : t.taken = Set.Ico w.nextIdentity w'.nextIdentity

/-- The identities of the trace were taken before a world. -/
def Trace.Before {σ : Type} (t : Trace) (w : World σ) : Prop := ∀ i ∈ t.taken, i < w.nextIdentity

variable {σ α β : Type} {w w' w'' : World σ} {t u : Trace}

namespace World.Passes

/-- Where nothing happens nothing is traced. -/
theorem refl (w : World σ) : w.Passes 0 w :=
  ⟨le_rfl, ⟨[], (List.append_nil _).symm, rfl⟩, (Set.Ico_self _).symm⟩

/-- Taken are the identities from the one counter to the other. -/
theorem mem_taken (h : w.Passes t w') {i : Identity} :
    i ∈ t.taken ↔ w.nextIdentity ≤ i ∧ i < w'.nextIdentity := by
  rw [h.taken]
  exact Iff.rfl

/-- What is traced in two steps is the sum. -/
theorem trans (h : w.Passes t w') (h' : w'.Passes u w'') : w.Passes (t + u) w'' := by
  obtain ⟨es, hlog, hcalls⟩ := h.log
  obtain ⟨es', hlog', hcalls'⟩ := h'.log
  refine ⟨h.le.trans h'.le, ⟨es ++ es', ?_, ?_⟩, ?_⟩
  · rw [hlog', hlog, List.append_assoc]
  · rw [callsOf_append, hcalls, hcalls', Trace.calls_add]
  · rw [Trace.taken_add, h.taken, h'.taken, Set.Ico_union_Ico_eq_Ico h.le h'.le]

/-- The trace can be told from the worlds. -/
theorem unique (h : w.Passes t w') (h' : w.Passes u w') : t = u := by
  obtain ⟨es, hlog, hcalls⟩ := h.log
  obtain ⟨es', hlog', hcalls'⟩ := h'.log
  obtain rfl : es = es' := List.append_cancel_left (hlog.symm.trans hlog')
  exact Trace.ext (hcalls.symm.trans hcalls') (h.taken.trans h'.taken.symm)

/-- An event is written to the log. -/
theorem record (w : World σ) (e : Event) : w.Passes ⟨callsOf [e], ∅⟩ (w.record e) :=
  ⟨le_rfl, ⟨[e], Array.toList_push, rfl⟩, (Set.Ico_self _).symm⟩

/-- The host changes what it may change. -/
theorem store {s : Store σ} (hs : w.nextIdentity ≤ s.nextIdentity) :
    w.Passes ⟨0, Set.Ico w.nextIdentity s.nextIdentity⟩ { s with log := w.log } :=
  ⟨hs, ⟨[], (List.append_nil _).symm, rfl⟩, rfl⟩

end World.Passes

namespace Trace.Before

/-- Nothing is before every world. -/
theorem zero : (0 : Trace).Before w := fun _ hi => hi.elim

/-- What is before a world is before later ones. -/
theorem mono (ht : t.Before w) (hw : w.nextIdentity ≤ w'.nextIdentity) : t.Before w' :=
  fun i hi => (ht i hi).trans_le hw

/-- What is taken later is something else. -/
theorem disjoint (ht : t.Before w) (hu : w.Passes u w') : Disjoint t.taken u.taken :=
  Set.disjoint_left.2 fun i hi hi' => absurd (ht i hi) (hu.mem_taken.1 hi').1.not_gt

/-- What was before a step, and the step itself, are before the world behind
it. -/
theorem add (ht : t.Before w) (hu : w.Passes u w') : (t + u).Before w' := by
  rintro i (hi | hi)
  · exact (ht i hi).trans_le hu.le
  · exact (hu.mem_taken.1 hi).2

/-- A step is before the world behind it. -/
theorem of_passes (hu : w.Passes u w') : u.Before w' := fun _ hi => (hu.mem_taken.1 hi).2

end Trace.Before

/-! ### The end of an evaluation -/

/-- After the trace left so far, and with this poll begun in a world, the
evaluation comes to an outcome that has a property together with the whole
trace. Between two polls the supply of identities may go on, and anything
may happen to the log and to the state of the host. -/
def Round.Ends (Q : Except EvalError α → Trace → Prop) : Round σ α → Trace → World σ → Prop
  | .ready w' outcome, t, w => ∃ u, w.Passes u w' ∧ Q outcome (t + u)
  | .pending w' resume, t, w => ∃ u, w.Passes u w' ∧
      ∀ w'', w'.nextIdentity ≤ w''.nextIdentity → (resume w'').Ends Q (t + u) w''

namespace Round.Ends

variable {Q : Except EvalError α → Trace → Prop} {r : Round σ α} {s : Trace}

/-- A round that is ready ends where it stands. -/
theorem ready {outcome : Except EvalError α} (hQ : Q outcome t) :
    (Round.ready w outcome).Ends Q t w :=
  ⟨0, .refl w, (add_zero t).symm ▸ hQ⟩

/-- What is known of the end may be weakened. -/
theorem mono {Q' : Except EvalError α → Trace → Prop} (hr : r.Ends Q t w)
    (hQ : ∀ outcome u, Q outcome u → Q' outcome u) : r.Ends Q' t w := by
  induction r generalizing t w with
  | ready w' outcome =>
      obtain ⟨u, hu, hoc⟩ := hr
      exact ⟨u, hu, hQ _ _ hoc⟩
  | pending w' resume ih =>
      obtain ⟨u, hu, hresume⟩ := hr
      exact ⟨u, hu, fun w'' hw => ih w'' (hresume w'' hw)⟩

/-- What was done before, in the same poll. -/
theorem prepend (hu : w.Passes u w') (hr : r.Ends Q (t + u) w') : r.Ends Q t w := by
  cases r with
  | ready w'' outcome =>
      obtain ⟨v, hv, hQ⟩ := hr
      exact ⟨u + v, hu.trans hv, by rwa [← add_assoc]⟩
  | pending w'' resume =>
      obtain ⟨v, hv, hresume⟩ := hr
      exact ⟨u + v, hu.trans hv, by rwa [← add_assoc]⟩

/-- What something else has done meanwhile: it took other identities. -/
theorem frame {Q' : Except EvalError α → Trace → Prop} (hr : r.Ends Q t w) (hs : s.Before w)
    (hst : Disjoint s.taken t.taken)
    (hQ : ∀ outcome u, Disjoint s.taken u.taken → Q outcome u → Q' outcome (s + u)) :
    r.Ends Q' (s + t) w := by
  induction r generalizing t w with
  | ready w' outcome =>
      obtain ⟨u, hu, hoc⟩ := hr
      refine ⟨u, hu, ?_⟩
      rw [add_assoc]
      exact hQ _ _ (Set.disjoint_union_right.2 ⟨hst, hs.disjoint hu⟩) hoc
  | pending w' resume ih =>
      obtain ⟨u, hu, hresume⟩ := hr
      refine ⟨u, hu, fun w'' hw => ?_⟩
      rw [add_assoc]
      -- Between the polls the supply only goes on, so what was taken stays taken.
      exact ih w'' (hresume w'' hw) (hs.mono (hu.le.trans hw))
        (Set.disjoint_union_right.2 ⟨hst, hs.disjoint hu⟩)

/-- One evaluation, then another that begins in the same poll. -/
theorem andThen {Q' : Except EvalError β → Trace → Prop} {k : α → World σ → Round σ β}
    (hr : r.Ends Q t w) (ht : t.Before w)
    (hok : ∀ a u w', w.nextIdentity ≤ w'.nextIdentity → u.Before w' → Q (.ok a) u →
      (k a w').Ends Q' u w')
    (herror : ∀ e u, Q (.error e) u → Q' (.error e) u) :
    (r.andThen k).Ends Q' t w := by
  induction r generalizing t w with
  | ready w' outcome =>
      obtain ⟨u, hu, hQ⟩ := hr
      cases outcome with
      -- The second evaluation begins in the poll that ends the first one.
      | ok a => exact .prepend hu (hok a _ w' hu.le (ht.add hu) hQ)
      | error e => exact ⟨u, hu, herror e _ hQ⟩
  | pending w' resume ih =>
      obtain ⟨u, hu, hresume⟩ := hr
      refine ⟨u, hu, fun w'' hw => ih w'' (hresume w'' hw) ((ht.add hu).mono hw) ?_⟩
      exact fun a v w₃ hw₃ => hok a v w₃ ((hu.le.trans hw).trans hw₃)

/-- One part of a pair goes on when the other is ready. -/
theorem rest {Q' : Except EvalError β → Trace → Prop} {f : α → β} (hr : r.Ends Q t w)
    (hs : s.Before w) (ht : t.Before w) (hst : Disjoint s.taken t.taken)
    (hok : ∀ a u, Disjoint s.taken u.taken → Q (.ok a) u → Q' (.ok (f a)) (s + u))
    (herror : ∀ e u v, Q (.error e) u → Q' (.error e) v) :
    (r.andThen fun a w => .ready w (.ok (f a))).Ends Q' (s + t) w := by
  have hframe : r.Ends (fun outcome u => ∃ v, u = s + v ∧ Disjoint s.taken v.taken ∧ Q outcome v)
      (s + t) w :=
    hr.frame hs hst fun outcome u hdisjoint hQ => ⟨u, rfl, hdisjoint, hQ⟩
  refine hframe.andThen ?_ ?_ ?_
  · rintro i (hi | hi)
    · exact hs i hi
    · exact ht i hi
  · rintro a u w' - - ⟨v, rfl, hdisjoint, hQ⟩
    exact .ready (hok a v hdisjoint hQ)
  · rintro e u ⟨v, rfl, -, hQ⟩
    exact herror e v _ hQ

/-- Two parts polled in turns. Each of them sees only that time has passed
when it is polled again, and whatever one takes, the other does not. A
failure of either part is one of the pair. -/
theorem both {Q₁ : Except EvalError α → Trace → Prop} {Q₂ : Except EvalError β → Trace → Prop}
    {Q : Except EvalError (α × β) → Trace → Prop} {q : World σ → Round σ β}
    (hr : r.Ends Q₁ t w)
    (hq : ∀ w', w.nextIdentity ≤ w'.nextIdentity → (q w').Ends Q₂ u w')
    (ht : t.Before w) (hu : u.Before w) (htu : Disjoint t.taken u.taken)
    (hok : ∀ a b v v', Disjoint v.taken v'.taken → Q₁ (.ok a) v → Q₂ (.ok b) v' →
      Q (.ok (a, b)) (v + v'))
    (hleft : ∀ e v v', Q₁ (.error e) v → Q (.error e) v')
    (hright : ∀ e v v', Q₂ (.error e) v → Q (.error e) v') :
    (r.both q).Ends Q (t + u) w := by
  induction r generalizing t u w q with
  | ready w₁ outcome =>
      obtain ⟨v, hv, hQ⟩ := hr
      cases outcome with
      | error e => exact ⟨v, hv, hleft e _ _ hQ⟩
      | ok a =>
          -- The left part is ready before the right one is polled again.
          refine .prepend hv ?_
          rw [add_right_comm]
          refine (hq w₁ hv.le).rest (ht.add hv) (hu.mono hv.le) ?_ ?_ hright
          · exact Set.disjoint_union_left.2 ⟨htu, (hu.disjoint hv).symm⟩
          · exact fun b v' hdisjoint hQ₂ => hok a b _ _ hdisjoint hQ hQ₂
  | pending w₁ resume ih =>
      obtain ⟨v, hv, hresume⟩ := hr
      have htv : (t + v).Before w₁ := ht.add hv
      have hu₁ : u.Before w₁ := hu.mono hv.le
      have htvu : Disjoint (t + v).taken u.taken :=
        Set.disjoint_union_left.2 ⟨htu, (hu.disjoint hv).symm⟩
      -- The right part is polled in the world that the left one has left in this poll.
      have hq₁ := hq w₁ hv.le
      rw [Round.both]
      generalize q w₁ = rq at hq₁
      cases rq with
      | ready w₂ outcome =>
          obtain ⟨v', hv', hQ₂⟩ := hq₁
          cases outcome with
          | error e => exact ⟨v + v', hv.trans hv', hright e _ _ hQ₂⟩
          | ok b =>
              -- The right part is ready first, and its result waits for the left one.
              refine ⟨v + v', hv.trans hv', fun w₃ hw₃ => ?_⟩
              rw [add_add_add_comm, add_comm (t + v)]
              refine (hresume w₃ (hv'.le.trans hw₃)).rest ((hu₁.add hv').mono hw₃)
                (htv.mono (hv'.le.trans hw₃)) ?_ ?_ hleft
              · exact Set.disjoint_union_left.2 ⟨htvu.symm, (htv.disjoint hv').symm⟩
              · intro a v'' hdisjoint hQ₁
                rw [add_comm]
                exact hok a b _ _ hdisjoint.symm hQ₁ hQ₂
      | pending w₂ resume' =>
          -- Neither is ready: the next poll begins with what both have taken by now.
          obtain ⟨v', hv', hresume'⟩ := hq₁
          refine ⟨v + v', hv.trans hv', fun w₃ hw₃ => ?_⟩
          rw [add_add_add_comm]
          refine ih w₃ (hresume w₃ (hv'.le.trans hw₃)) (fun w₄ hw₄ => hresume' w₄ (hw₃.trans hw₄))
            (htv.mono (hv'.le.trans hw₃)) ((hu₁.add hv').mono hw₃) ?_
          exact Set.disjoint_union_right.2 ⟨htvu, htv.disjoint hv'⟩

/-- A number of polls passes. -/
theorem after {ticks : Nat} {next : World σ → Round σ α}
    (hnext : ∀ w', w.nextIdentity ≤ w'.nextIdentity → (next w').Ends Q t w') :
    (Round.after ticks next w).Ends Q t w := by
  induction ticks generalizing w with
  | zero => exact hnext w le_rfl
  | succ ticks ih =>
      refine ⟨0, .refl w, fun w' hw => ?_⟩
      rw [add_zero]
      exact ih fun w'' hw' => hnext w'' (hw.trans hw')

/-- Polled without a break the evaluation leaves its trace in the world,
and no other. -/
theorem finish (hr : r.Ends Q t w) : ∃ u, w.Passes u r.finish.2 ∧ Q r.finish.1 (t + u) := by
  induction r generalizing t w with
  | ready w' outcome => exact hr
  | pending w' resume ih =>
      obtain ⟨u, hu, hresume⟩ := hr
      obtain ⟨v, hv, hQ⟩ := ih w' (hresume w' le_rfl)
      exact ⟨u + v, hu.trans hv, by rwa [← add_assoc]⟩

end Round.Ends

end Formula
