import Formula.Host.Registry
import Formula.Proofs.Evaluation.Walk

/-!
# `Formula.Proofs.Host.Failing`: how a ready-made function fails

A function of a registry fails with a message of its own, or because it reads
a property of undefined or null. So no failure of a registry is one of those
that an evaluation finds by itself in a tree.
-/

set_option autoImplicit false

namespace Formula

/-- A registered function fails with a nullish property or with a message of
its own. -/
theorem Behavior.eq_of_respond_error {b : Behavior} {id : Nat} {receiver : Value}
    {arguments : List Value} {s : Store Counters} {e : EvalError}
    (he : (b.respond id receiver arguments s).1 = .error e) :
    (∃ property base, e = .nullishProperty property base) ∨ ∃ message, e = .host message := by
  -- Only reads of properties and the failing functions answer with an error.
  cases b with
  | property => exact .inl (Value.eq_nullishProperty_of_getKey? he)
  | prefixed name =>
      change (receiver.getKey? (.string name)).map _ = .error e at he
      cases hread : receiver.getKey? (.string name) with
      | ok value =>
          rw [hread] at he
          cases he
      | error e' =>
          rw [hread] at he
          cases he
          exact .inl (Value.eq_nullishProperty_of_getKey? hread)
  | failure message =>
      cases he
      exact .inr ⟨message, rfl⟩
  | isArray =>
      simp only [Behavior.respond] at he
      split at he <;> cases he
  | _ => cases he

/-- The failures of a registry. -/
theorem Registry.eq_of_respond_error {r : Registry} {f : HostFunction} {receiver : Value}
    {arguments : List Value} {s : Store Counters} {e : EvalError}
    (he : (r.host.respond f receiver arguments s).1 = .error e) :
    (∃ property base, e = .nullishProperty property base) ∨ ∃ message, e = .host message := by
  change (if (r.find f).resolvesNames then _ else _ : Except EvalError Value × Store Counters).1 = _
    at he
  split at he <;> exact Behavior.eq_of_respond_error he

end Formula
