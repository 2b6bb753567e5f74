import Formula.Syntax.Grammar

/-!
# `Formula.Proofs.Syntax.Extension`: matching with more nesting allowed

A matcher that gives up says nothing about a text. Where it does not give
up, its answer is the answer for every greater nesting, and so is its
record of attempts.

* `Matcher.Extends`: the one matcher agrees with the other wherever the
  other does not give up. Each way of putting matchers together keeps
  this.
* `expression_extends`, `main_extends`: more nesting extends the grammar.
-/

set_option autoImplicit false

namespace Formula

section

variable {α : Type}

/-- A match is not giving up. -/
theorem Reply.matched_ne_tooDeep {value : α} {c : Cursor} : Reply.matched value c ≠ .tooDeep := by
  intro h
  cases h

/-- Nor is a plain failure: another alternative may still be tried. -/
theorem Reply.failed_ne_tooDeep : (.failed : Reply α) ≠ .tooDeep := by
  intro h
  cases h

end

namespace Matcher

variable {α β : Type}

/-- Where the first matcher does not give up, the second one does the
same. -/
def Extends (p p' : Matcher α) : Prop := ∀ c a, (p c a).1 ≠ .tooDeep → p' c a = p c a

namespace Extends

variable {p p' : Matcher α}

/-- A matcher extends itself. -/
theorem refl (p : Matcher α) : p.Extends p := fun _ _ _ => rfl

/-- Extensions chain: the middle matcher does not give up where the first
one does not. -/
theorem trans {p'' : Matcher α} (h : p.Extends p') (h' : p'.Extends p'') : p.Extends p'' := by
  intro c a hp
  have hp' : p' c a = p c a := h c a hp
  exact (h' c a (hp' ▸ hp)).trans hp'

/-- An answer that is not giving up is the answer of both. -/
theorem eq (hp : p.Extends p') {c : Cursor} {a : Attempts} {answer : Reply α × Attempts}
    (h : p c a = answer) (hanswer : answer.1 ≠ .tooDeep) : p' c a = answer :=
  (hp c a (h ▸ hanswer)).trans h

/-- Two matchers in a row are extended one by one. A row that does not give
up has not given up at its first matcher. -/
theorem bind {q q' : α → Matcher β} (hp : p.Extends p')
    (hq : ∀ value, (q value).Extends (q' value)) : (p >>= q).Extends (p' >>= q') := by
  intro c a
  change (andThen p q c a).1 ≠ .tooDeep → andThen p' q' c a = andThen p q c a
  rw [andThen, andThen]
  intro h
  -- By what the first matcher answers. Only in the last case nothing is said, and there the row
  -- gives up too.
  rcases hstep : p c a with ⟨value | _ | _, a'⟩ <;> rw [hstep] at h
  · rw [hp.eq hstep Reply.matched_ne_tooDeep]
    exact hq value _ _ h
  · rw [hp.eq hstep Reply.failed_ne_tooDeep]
  · exact absurd rfl h

/-- One matcher extended, and then the same. -/
theorem bind_same {q : α → Matcher β} (hp : p.Extends p') : (p >>= q).Extends (p' >>= q) :=
  hp.bind fun value => refl (q value)

/-- The same matcher, and then one extended. -/
theorem same_bind {q q' : α → Matcher β} (hq : ∀ value, (q value).Extends (q' value)) :
    (p >>= q).Extends (p >>= q') :=
  (refl p).bind hq

/-- What is made of a match changes nothing. -/
theorem map (f : α → β) (hp : p.Extends p') : (f <$> p).Extends (f <$> p') := hp.bind_same

/-- A choice is extended alternative by alternative. -/
theorem orElse {q q' : Matcher α} (hp : p.Extends p') (hq : q.Extends q') :
    (p.orElse q).Extends (p'.orElse q') := by
  intro c a h
  rw [Matcher.orElse] at h ⊢
  rw [Matcher.orElse]
  rcases hstep : p c a with ⟨_ | _ | _, a'⟩ <;> rw [hstep] at h
  · rw [hp.eq hstep Reply.matched_ne_tooDeep]
  · rw [hp.eq hstep Reply.failed_ne_tooDeep]
    -- The alternative is tried with the record that the first matcher has left.
    exact hq c a' h
  · exact absurd rfl h

/-- A list of alternatives is extended from its head. -/
theorem firstOf_cons {ps ps' : List (Matcher α)} (hp : p.Extends p')
    (hps : (firstOf ps).Extends (firstOf ps')) :
    (firstOf (p :: ps)).Extends (firstOf (p' :: ps')) :=
  hp.orElse hps

/-- A match that may be left out. -/
theorem optional (hp : p.Extends p') : (optional p).Extends (optional p') :=
  (hp.map some).orElse (refl _)

/-- The attempts are noted alike, since the two record the same before and
after. -/
theorem tracked (rule : Rule) (hp : p.Extends p') : (tracked rule p).Extends (tracked rule p') := by
  intro c a h
  rw [Matcher.tracked] at h ⊢
  rw [Matcher.tracked]
  rcases hstep : p c a with ⟨_ | _ | _, a'⟩ <;> rw [hstep] at h
  · rw [hp.eq hstep Reply.matched_ne_tooDeep]
  · rw [hp.eq hstep Reply.failed_ne_tooDeep]
  · exact absurd rfl h

/-- A repetition is extended round by round, with the same fuel on both
sides. -/
theorem manyAfterSpace (hp : p.Extends p') :
    (fuel : Nat) → (manyAfterSpace p fuel).Extends (manyAfterSpace p' fuel)
  | 0 => refl _
  | fuel + 1 => by
      intro c a h
      rcases hstep : p (Cursor.skipSpace c) a with ⟨value | _ | _, a'⟩ <;>
        simp only [Matcher.manyAfterSpace, hstep] at h ⊢
      · rw [hp.eq hstep Reply.matched_ne_tooDeep]
        exact (manyAfterSpace hp fuel).map _ _ _ h
      · rw [hp.eq hstep Reply.failed_ne_tooDeep]
      · exact absurd rfl h

/-- A repetition, the first round without a gap before it. -/
theorem many (hp : p.Extends p') : (many p).Extends (many p') := by
  intro c a h
  rw [Matcher.many] at h ⊢
  rw [Matcher.many]
  rcases hstep : p c a with ⟨value | _ | _, a'⟩ <;> rw [hstep] at h
  · rw [hp.eq hstep Reply.matched_ne_tooDeep]
    exact (manyAfterSpace hp _).map _ _ _ h
  · rw [hp.eq hstep Reply.failed_ne_tooDeep]
  · exact absurd rfl h

/-- Matches with commas between them. -/
theorem separated (hp : p.Extends p') : (separated p).Extends (separated p') := by
  have hnext : ((Matcher.char ',').andThen fun _ => skip.andThen fun _ => p).Extends
      ((Matcher.char ',').andThen fun _ => skip.andThen fun _ => p') :=
    same_bind fun _ => same_bind fun _ => hp
  -- What follows the first match is the same row on both sides, over the matcher extended.
  intro c a h
  rw [Matcher.separated] at h ⊢
  rw [Matcher.separated]
  rcases hstep : p c a with ⟨first | _ | _, a'⟩ <;> rw [hstep] at h
  · rw [hp.eq hstep Reply.matched_ne_tooDeep]
    exact same_bind (p := skip) (fun _ => hnext.many.map (first :: ·)) _ _ h
  · rw [hp.eq hstep Reply.failed_ne_tooDeep]
  · exact absurd rfl h

end Extends

end Matcher

namespace Grammar

open Matcher

section

variable {nested nested' : Matcher Phrase} (h : nested.Extends nested')

include h

/-- A list in brackets uses the matcher for nested expressions in one place. -/
theorem bracketed_extends (opening closing : Char) :
    (bracketed nested opening closing).Extends (bracketed nested' opening closing) :=
  .same_bind fun _ => .same_bind fun _ => h.separated.bind_same

/-- Calls and indices nest; the name after a dot does not. -/
theorem suffix_extends : (suffix nested).Extends (suffix nested') := by
  refine .firstOf_cons ?_ (.firstOf_cons ?_ (.refl _))
  · exact ((bracketed_extends h '(' ')').tracked .call).map _
  · exact .tracked .index (.same_bind fun _ => .same_bind fun _ => h.bind_same)

/-- Of the eight kinds of primary expressions two nest. -/
theorem primary_extends : (primary nested).Extends (primary nested') := by
  have harray : (array nested).Extends (array nested') :=
    ((bracketed_extends h '[' ']').tracked .array).map _
  have hgrouped : (grouped nested).Extends (grouped nested') :=
    .same_bind fun _ => .same_bind fun _ => h.bind_same
  -- The tokens before them do not use the matcher for nested expressions.
  iterate 6 refine .firstOf_cons (.refl _) ?_
  exact .firstOf_cons harray (.firstOf_cons hgrouped (.refl _))

/-- The signs of an operand do not nest. -/
theorem operand_extends : (operand nested).Extends (operand nested') :=
  .same_bind fun _ => .same_bind fun _ => (primary_extends h).bind fun _ =>
    .same_bind fun _ => (suffix_extends h).many.bind_same

/-- Operators do not nest, their operands do. -/
theorem binary_extends : (binary nested).Extends (binary nested') := by
  have hoperation : (operation nested).Extends (operation nested') :=
    .same_bind fun _ => .same_bind fun _ => (operand_extends h).bind_same
  exact .tracked .binary ((operand_extends h).bind fun _ =>
    .same_bind fun _ => hoperation.many.bind_same)

/-- The two branches of a conditional. -/
theorem branches_extends : (branches nested).Extends (branches nested') :=
  .same_bind fun _ => .same_bind fun _ => h.bind fun _ =>
    .same_bind fun _ => .same_bind fun _ => .same_bind fun _ => h.bind_same

/-- One level of the grammar is extended by a deeper one below it. -/
theorem expressionOver_extends : (expressionOver nested).Extends (expressionOver nested') :=
  .tracked .expression ((binary_extends h).bind fun _ =>
    .same_bind fun _ => (branches_extends h).optional.bind_same)

/-- A whole formula. -/
theorem mainOver_extends : (mainOver nested).Extends (mainOver nested') :=
  .tracked .main (.same_bind fun _ => h.bind_same)

end

/-- One more level. Without any level the grammar gives up at once, so
nothing has to be shown there. -/
theorem expression_extends_succ : (nesting : Nat) →
    (expression nesting).Extends (expression (nesting + 1))
  | 0 => fun _ _ h => absurd rfl h
  | nesting + 1 => expressionOver_extends (expression_extends_succ nesting)

/-- More nesting extends the matcher of expressions. -/
theorem expression_extends {nesting more : Nat} (hle : nesting ≤ more) :
    (expression nesting).Extends (expression more) := by
  induction hle with
  | refl => exact .refl _
  | step _ ih => exact ih.trans (expression_extends_succ _)

/-- More nesting extends the matcher of formulas. -/
theorem main_extends {nesting more : Nat} (hle : nesting ≤ more) :
    (main nesting).Extends (main more) := mainOver_extends (expression_extends hle)

end Grammar

end Formula
