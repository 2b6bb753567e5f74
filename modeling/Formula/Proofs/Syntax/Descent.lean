import Formula.Proofs.Syntax.Extension
import Formula.Proofs.Syntax.Measure

/-!
# `Formula.Proofs.Syntax.Descent`: how deep the matching goes

The grammar is matched by recursive descent, and an expression inside a
bracket or a branch is one step further down. `Grammar.main nesting`
allows `nesting` expressions inside one another. A further one makes the
whole match give up, whatever became of the attempt it was part of, since
giving up is not failure and no alternative is tried for it.

The texts are not assumed to be formulas. Before every expression that is
begun the matchers have found something, and what they have found the scan
has measured (`scan_spans`); so the scan is at least as deep as the
descent, whatever comes after.

* `Matcher.SafeOn`: a matcher does not give up on the texts of a class.
  Each way of putting matchers together has its rule.
* `Reached`: the class of texts that the scan comes to and goes through
  within the limit.
* `expression_safeOn`: what the scan lets through is matched.
* `main_fits_of_check`: a text whose nesting is within the limit is matched
  with at most one expression more than the limit inside one another.
-/

set_option autoImplicit false

namespace Formula

open Nesting

/-! ### Matchers that do not give up -/

/-- Whether a matcher has given up can be computed. -/
instance Reply.decidableTooDeep {α : Type} : (answer : Reply α) → Decidable (answer = .tooDeep)
  | .matched _ _ => isFalse Reply.matched_ne_tooDeep
  | .failed => isFalse Reply.failed_ne_tooDeep
  | .tooDeep => isTrue rfl

namespace Matcher

variable {α β : Type}

/-- On the texts of a class the matcher does not give up. -/
def SafeOn (p : Matcher α) (P : List Char → Prop) : Prop :=
  ∀ c a, P c.rest → (p c a).1 ≠ .tooDeep

namespace SafeOn

variable {p : Matcher α} {P Q : List Char → Prop} {R : α → List Char → List Char → Prop}

/-- What is safe on a class is safe on a smaller one. -/
theorem imp (hp : p.SafeOn Q) (h : ∀ cs, P cs → Q cs) : p.SafeOn P :=
  fun c a hc => hp c a (h c.rest hc)

/-- A value is always given. -/
theorem pure (value : α) : (Pure.pure value : Matcher α).SafeOn P :=
  fun _ _ _ => Reply.matched_ne_tooDeep

/-- What the first matcher finds leads from the one class of texts to the
other. -/
theorem bind {q : α → Matcher β} (hp : p.SafeOn P) (hyields : p.Yields R)
    (hmid : ∀ value cs rest, P cs → R value cs rest → Q rest) (hq : ∀ value, (q value).SafeOn Q) :
    (p >>= q).SafeOn P := by
  intro c a hc
  change (andThen p q c a).1 ≠ .tooDeep
  rw [andThen]
  rcases hstep : p c a with ⟨value | _ | _, a'⟩
  · exact hq value _ _ (hmid _ _ _ hc (hyields _ _ _ _ _ hstep))
  · exact Reply.failed_ne_tooDeep
  · exact absurd (congrArg Prod.fst hstep) (hp c a hc)

/-- What never gives up may follow anything. -/
theorem bind_always {q : α → Matcher β} (hp : p.SafeOn P)
    (hq : ∀ value, (q value).SafeOn fun _ => True) : (p >>= q).SafeOn P :=
  hp.bind (R := fun _ _ _ => True) (fun _ _ _ _ _ _ => trivial) (fun _ _ _ _ _ => trivial) hq

/-- What is made of a match does not give up. -/
theorem map (f : α → β) (hp : p.SafeOn P) : (f <$> p).SafeOn P :=
  hp.bind_always fun value => pure (f value)

/-- Both alternatives begin at the same text. -/
theorem orElse {q : Matcher α} (hp : p.SafeOn P) (hq : q.SafeOn P) : (p.orElse q).SafeOn P := by
  intro c a hc
  rw [Matcher.orElse]
  rcases hstep : p c a with ⟨_ | _ | _, a'⟩
  · exact Reply.matched_ne_tooDeep
  · exact hq c a' hc
  · exact absurd (congrArg Prod.fst hstep) (hp c a hc)

/-- Alternatives that are all safe. -/
theorem firstOf : {ps : List (Matcher α)} → (∀ p ∈ ps, p.SafeOn P) → (firstOf ps).SafeOn P
  | [], _ => fun _ _ _ => Reply.failed_ne_tooDeep
  | p :: _, hps =>
      orElse (hps p List.mem_cons_self) (firstOf fun q hq => hps q (List.mem_cons_of_mem p hq))

/-- A match that may be left out. -/
theorem optional (hp : p.SafeOn P) : (optional p).SafeOn P := orElse (hp.map some) (pure none)

/-- Noting attempts gives nothing up. -/
theorem tracked (rule : Rule) (hp : p.SafeOn P) : (tracked rule p).SafeOn P := by
  intro c a hc
  rw [Matcher.tracked]
  rcases hstep : p c a with ⟨_ | _ | _, a'⟩
  · exact Reply.matched_ne_tooDeep
  · exact Reply.failed_ne_tooDeep
  · exact absurd (congrArg Prod.fst hstep) (hp c a hc)

/-- Skipping spaces never gives up. -/
theorem skip : Matcher.skip.SafeOn P := fun _ _ _ => Reply.matched_ne_tooDeep

/-- Neither does looking for a character. -/
theorem char (expected : Char) : (char expected).SafeOn P := by
  intro c a _
  unfold Matcher.char
  split
  · split
    · exact Reply.matched_ne_tooDeep
    · exact Reply.failed_ne_tooDeep
  · exact Reply.failed_ne_tooDeep

/-- Nor does looking for a token. -/
theorem token (rule : Rule) (scan : List Char → Option (α × List Char)) :
    (token rule scan).SafeOn P := by
  refine tracked rule ?_
  intro c a _
  dsimp only
  split
  · exact Reply.matched_ne_tooDeep
  · exact Reply.failed_ne_tooDeep

/-- Spaces first, if the class does not mind them. -/
theorem skip_bind {q : Unit → Matcher β} (hgap : ∀ cs rest, Gap cs rest → P cs → P rest)
    (hq : (q ()).SafeOn P) : (Matcher.skip >>= q).SafeOn P :=
  skip.bind .skip (fun _ cs rest hcs h => hgap cs rest h hcs) fun _ => hq

/-- A character first, which leads from one class to another. -/
theorem char_bind {q : Unit → Matcher β} {expected : Char} (hchar : ∀ cs, P (expected :: cs) → Q cs)
    (hq : (q ()).SafeOn Q) : (Matcher.char expected >>= q).SafeOn P :=
  (char expected).bind (.char expected) (fun _ _ rest hcs h => hchar rest (h ▸ hcs)) fun _ => hq

section

variable (hp : p.SafeOn P) (hyields : p.Yields R) (hgap : ∀ cs rest, Gap cs rest → P cs → P rest)
  (hmatch : ∀ value cs rest, P cs → R value cs rest → P rest)

include hp hyields hgap hmatch

/-- A repetition is safe if a round leads back into the class. -/
theorem manyAfterSpace : (fuel : Nat) → (manyAfterSpace p fuel).SafeOn P
  | 0 => pure []
  | fuel + 1 => by
      intro c a hc
      have hc' := hgap _ _ (gap_skipSpace c) hc
      rcases hstep : p (Cursor.skipSpace c) a with ⟨value | _ | _, a'⟩ <;>
        simp only [Matcher.manyAfterSpace, hstep]
      · exact (manyAfterSpace fuel).map _ _ _ (hmatch _ _ _ hc' (hyields _ _ _ _ _ hstep))
      · exact Reply.matched_ne_tooDeep
      · exact absurd (congrArg Prod.fst hstep) (hp _ _ hc')

/-- A class of texts that gaps and matches do not leave is safe for a
repetition. -/
theorem many : (many p).SafeOn P := by
  intro c a hc
  rw [Matcher.many]
  rcases hstep : p c a with ⟨value | _ | _, a'⟩
  · exact (manyAfterSpace hp hyields hgap hmatch _).map _ _ _
      (hmatch _ _ _ hc (hyields _ _ _ _ _ hstep))
  · exact Reply.matched_ne_tooDeep
  · exact absurd (congrArg Prod.fst hstep) (hp c a hc)

end

/-- Matches with commas between them: a match leads from the texts that one
may begin to those that may go on with a comma. -/
theorem separated (hp : p.SafeOn P) (hyields : p.Yields R)
    (hgap : ∀ cs rest, Gap cs rest → P cs → P rest)
    (hgap' : ∀ cs rest, Gap cs rest → Q cs → Q rest)
    (hmatch : ∀ value cs rest, P cs → R value cs rest → Q rest)
    (hcomma : ∀ cs, Q (',' :: cs) → P cs) : (separated p).SafeOn P := by
  -- A comma leads back to where a match may begin.
  have hnext : ((Matcher.char ',').andThen fun _ => Matcher.skip.andThen fun _ => p).SafeOn Q :=
    char_bind hcomma (skip_bind hgap hp)
  have hmany := many hnext (.comma hyields) hgap' (by
    rintro value _ rest hQ ⟨c₁, c₂, rfl, hspace, hvalue⟩
    exact hmatch value c₂ rest (hgap c₁ c₂ hspace (hcomma c₁ hQ)) hvalue)
  intro c a hc
  rw [Matcher.separated]
  rcases hstep : p c a with ⟨first | _ | _, a'⟩
  · exact skip_bind (q := fun _ => _) hgap' (hmany.map (first :: ·)) _ _
      (hmatch _ _ _ hc (hyields _ _ _ _ _ hstep))
  · exact Reply.matched_ne_tooDeep
  · exact absurd (congrArg Prod.fst hstep) (hp c a hc)

end SafeOn

end Matcher

/-! ### What the scan knows of the rest of a text -/

/-- The depth of a bracket without anything that is open inside of it. -/
def Gauge.base (g : Gauge) : Nat := g.state.depth - g.state.inner.levels

/-- Open conditionals stand between the base and the floor. -/
theorem Gauge.base_le_floor (g : Gauge) : g.base ≤ g.floor := by
  simp only [base, floor, Frame.levels]
  omega

/-- Within a bracket the base does not change. -/
theorem Gauge.Stays.base_eq {g g' : Gauge} (hg : g.Sound) (h : g.Stays g') : g'.base = g.base := by
  have hdepth := h.depth
  have hlevels := hg.levels_le
  have hlevels' := h.sound.levels_le
  simp only [base]
  omega

/-- The scan comes to the text with a gauge of the family, and goes through
the rest of it within the limit. -/
def Reached (limit : Nat) (I : Gauge → Prop) (cs : List Char) : Prop :=
  ∃ g, g.Sound ∧ I g ∧ (g.scan cs).peak ≤ limit

/-- Where an expression may begin, inside of `k` brackets and branches. -/
def Gauge.Begins (k : Nat) (g : Gauge) : Prop := g.state.afterOperand = false ∧ k ≤ g.floor

/-- Somewhere in an expression that is inside of `k` brackets and
branches. -/
def Gauge.Within (k : Nat) (g : Gauge) : Prop := k ≤ g.floor

/-- Where an expression may begin, right inside of the `k`th bracket. -/
def Gauge.Enters (k : Nat) (g : Gauge) : Prop := g.state.afterOperand = false ∧ k ≤ g.base

/-- Behind an expression in the `k`th bracket. -/
def Gauge.Encloses (k : Nat) (g : Gauge) : Prop := k ≤ g.base

namespace Reached

variable {limit k : Nat} {I J : Gauge → Prop} {cs rest : List Char}

/-- A family of gauges may be taken for a larger one. -/
theorem imp (h : Reached limit I cs) (hI : ∀ g, I g → J g) : Reached limit J cs := by
  obtain ⟨g, hg, hIg, hpeak⟩ := h
  exact ⟨g, hg, hI g hIg, hpeak⟩

/-- The scan goes on from a gauge to another. -/
theorem go (h : Reached limit I cs)
    (hgo : ∀ g, g.Sound → I g → ∃ g' : Gauge, g'.Sound ∧ J g' ∧ g.scan cs = g'.scan rest) :
    Reached limit J rest := by
  obtain ⟨g, hg, hI, hpeak⟩ := h
  obtain ⟨g', hg', hJ, hscan⟩ := hgo g hg hI
  exact ⟨g', hg', hJ, hscan ▸ hpeak⟩

/-- The scan passes over spaces. -/
theorem gap (cs rest : List Char) (hgap : Gap cs rest) (h : Reached limit I cs) :
    Reached limit I rest :=
  h.go fun g hg hI => ⟨g, hg, hI, Gauge.scan_gap hgap hg.quote⟩

/-- Within the limit no more brackets and branches can be open than it
allows. -/
theorem le_limit (h : Reached limit (Gauge.Begins k) cs) : k ≤ limit := by
  obtain ⟨g, hg, ⟨-, hfloor⟩, hpeak⟩ := h
  exact (hfloor.trans hg.floor_le_peak).trans (Gauge.peak_le_scan.trans hpeak)

/-- A bracket leads one level down. -/
theorem openBracket {c : Char} (hc : c = '(' ∨ c = '[')
    (h : Reached limit (Gauge.Within k) (c :: cs)) : Reached limit (Gauge.Enters (k + 1)) cs :=
  h.go fun g hg hk => ⟨_, hg.openBracket, ⟨rfl, Nat.succ_le_succ (hk.trans g.floor_le_depth)⟩,
    Gauge.scan_open hc hg.quote⟩

/-- A comma leads to the next expression in the bracket. -/
theorem comma (h : Reached limit (Gauge.Encloses k) (',' :: cs)) :
    Reached limit (Gauge.Enters k) cs :=
  h.go fun _ hg hk => ⟨_, (Gauge.Stays.comma hg).sound,
    ⟨rfl, hk.trans ((Gauge.Stays.comma hg).base_eq hg).ge⟩, Gauge.scan_comma hg.quote⟩

/-- A question mark leads one level down, to the first branch. -/
theorem question (h : Reached limit (Gauge.Within k) ('?' :: cs)) :
    Reached limit (Gauge.Begins (k + 1)) cs :=
  h.go fun _ hg hk => ⟨_, (Gauge.Goes.openConditional hg).sound, ⟨rfl, Nat.succ_le_succ hk⟩,
    Gauge.scan_question hg.quote⟩

/-- A colon leads to the second branch, on the level of the test at least. -/
theorem colon (h : Reached limit (Gauge.Within k) (':' :: cs)) :
    Reached limit (Gauge.Begins k) cs :=
  h.go fun _ hg hk => ⟨_, (Gauge.Goes.operator hg).sound, ⟨rfl, hk⟩, Gauge.scan_colon hg.quote⟩

/-- An expression leaves the bracket as it was. -/
theorem enclosed {p : Phrase} (hp : p.Spans cs rest) (h : Reached limit (Gauge.Enters k) cs) :
    Reached limit (Gauge.Encloses k) rest := by
  refine h.go fun g hg hk => ?_
  have hgoes := p.measure_goes hg
  exact ⟨_, hgoes.sound, hk.2.trans (hgoes.base_eq hg).ge, p.scan_spans hg hk.1 hp⟩

/-- Right inside of a bracket an expression may begin. -/
theorem begins (h : Reached limit (Gauge.Enters k) cs) : Reached limit (Gauge.Begins k) cs :=
  h.imp fun g hk => ⟨hk.1, hk.2.trans g.base_le_floor⟩

/-- Where an expression begins is within it. -/
theorem within (h : Reached limit (Gauge.Begins k) cs) : Reached limit (Gauge.Within k) cs :=
  h.imp fun _ hk => hk.2

/-- What may begin an expression does not lower the floor if it leaves all
conditionals open. -/
theorem begun (h : Reached limit (Gauge.Begins k) cs)
    (hgo : ∀ g : Gauge, g.Sound → g.state.afterOperand = false →
      ∃ g' : Gauge, g.Goes g' ∧ g.scan cs = g'.scan rest) :
    Reached limit (Gauge.Within k) rest := by
  refine h.go fun g hg hk => ?_
  obtain ⟨g', hg', hscan⟩ := hgo g hg hk.1
  exact ⟨g', hg'.sound, hk.2.trans (hg'.floor_le hg), hscan⟩

/-- What leaves all conditionals open does not lower the floor. -/
theorem goes (h : Reached limit (Gauge.Within k) cs)
    (hgo : ∀ g : Gauge, g.Sound → ∃ g' : Gauge, g.Goes g' ∧ g.scan cs = g'.scan rest) :
    Reached limit (Gauge.Within k) rest := by
  refine h.go fun g hg hk => ?_
  obtain ⟨g', hg', hscan⟩ := hgo g hg
  exact ⟨g', hg'.sound, hk.trans (hg'.floor_le hg), hscan⟩

/-- A sign, wherever the scan comes to it, is taken for a sign or for an
operator. -/
theorem sign (o : UnaryOperator) (h : Reached limit (Gauge.Within k) (o.symbol.toList ++ rest)) :
    Reached limit (Gauge.Within k) rest := by
  have hstep (c : Char) (hc : isPrefixSign c = true) (hblank : isBlank c = false)
      (hspecial : c ∉ ['"', '\'', '(', '[', ')', ']', '?', ',']) (g : Gauge) (hg : g.Sound) :
      ∃ g', g.Goes g' ∧ g.scan (c :: rest) = g'.scan rest := by
    simp only [List.mem_cons, List.not_mem_nil, or_false, not_or] at hspecial
    -- Where an operand has ended, or an equals sign follows, it is no sign.
    have hcode : stepCode g.state c rest.head?
        = if g.state.afterOperand = false ∧ ¬(c = '!' ∧ rest.head? = some '=') then
            (g.state.openPrefix, true)
          else (g.state.operator, false) := by
      simp [stepCode, hblank, hspecial, hc, isOperatorChar]
    split at hcode
    · exact ⟨_, .openPrefix hg, Gauge.scan_cons_opened hg.quote hcode⟩
    · exact ⟨_, .operator hg, Gauge.scan_cons_code hg.quote hcode⟩
  refine h.goes fun g hg => ?_
  cases o with
  | minus => exact hstep '-' rfl rfl (by decide) g hg
  | plus => exact hstep '+' rfl rfl (by decide) g hg
  | complement => exact hstep '~' rfl rfl (by decide) g hg
  | not => exact hstep '!' rfl rfl (by decide) g hg

end Reached

/-! ### The grammar does not give up -/

namespace Grammar

open Matcher

variable {limit k : Nat}

section

variable {nested : Matcher Phrase} (hnested : nested.Yields Phrase.Spans)
  (hsafe : nested.SafeOn (Reached limit (Gauge.Begins (k + 1))))

include hsafe

/-- An expression between brackets, one level further down. -/
theorem bracket_safeOn {α : Type} {opening : Char} (hopen : opening = '(' ∨ opening = '[')
    (closing : Char) (f : Phrase → α) :
    (do
      char opening
      skip
      let inner ← nested
      skip
      char closing
      return f inner : Matcher α).SafeOn (Reached limit (Gauge.Within k)) := by
  have hinner : nested.SafeOn (Reached limit (Gauge.Enters (k + 1))) :=
    hsafe.imp fun _ h => h.begins
  exact .char_bind (fun _ h => h.openBracket hopen) (.skip_bind .gap (hinner.bind_always fun _ =>
    SafeOn.skip.bind_always fun _ => (SafeOn.char closing).bind_always fun _ => .pure _))

include hnested

/-- Expressions between brackets, one level further down. -/
theorem bracketed_safeOn {opening : Char} (hopen : opening = '(' ∨ opening = '[') (closing : Char) :
    (bracketed nested opening closing).SafeOn (Reached limit (Gauge.Within k)) := by
  have helements : (separated nested).SafeOn (Reached limit (Gauge.Enters (k + 1))) :=
    .separated (Q := Reached limit (Gauge.Encloses (k + 1))) (hsafe.imp fun _ h => h.begins) hnested
      .gap .gap (fun _ _ _ h hp => h.enclosed hp) fun _ h => h.comma
  exact .char_bind (fun _ h => h.openBracket hopen) (.skip_bind .gap (helements.bind_always fun _ =>
    SafeOn.skip.bind_always fun _ => (SafeOn.char closing).bind_always fun _ => .pure _))

/-- A suffix is safe: a bracket leads one level down. -/
theorem suffix_safeOn : (suffix nested).SafeOn (Reached limit (Gauge.Within k)) := by
  refine .firstOf fun p hp => ?_
  simp only [List.mem_cons, List.not_mem_nil, or_false] at hp
  rcases hp with rfl | rfl | rfl
  · exact ((bracketed_safeOn hnested hsafe (.inl rfl) ')').tracked .call).map _
  · exact (bracket_safeOn hsafe (.inr rfl) ']' Suffix.index).tracked .index
  · exact ((SafeOn.char '.').bind_always fun _ => SafeOn.skip.bind_always fun _ =>
      (SafeOn.token .propertyName Token.propertyName).map _).tracked .field

/-- A primary expression is safe: two kinds have brackets, and the tokens
nest nothing. -/
theorem primary_safeOn : (primary nested).SafeOn (Reached limit (Gauge.Within k)) := by
  refine .firstOf fun p hp => ?_
  simp only [List.mem_cons, List.not_mem_nil, or_false] at hp
  rcases hp with rfl | rfl | rfl | rfl | rfl | rfl | rfl | rfl
  · exact (SafeOn.token .number Token.number).map _
  · exact (SafeOn.token .string Token.string).map _
  · exact (SafeOn.token .boolean Token.boolean).map _
  · exact (SafeOn.token .null (Token.word "null")).map _
  · exact (SafeOn.token .this (Token.word "this")).map _
  · exact (SafeOn.token .identifier Token.identifier).map _
  · exact ((bracketed_safeOn hnested hsafe (.inr rfl) ']').tracked .array).map _
  · exact bracket_safeOn hsafe (.inl rfl) ')' Primary.grouped

/-- An operand is safe. Its parts leave the floor where it was. -/
theorem operand_safeOn : (operand nested).SafeOn (Reached limit (Gauge.Within k)) := by
  have hsign : ∀ (o : UnaryOperator) cs rest, Reached limit (Gauge.Within k) cs →
      cs = o.symbol.toList ++ rest → Reached limit (Gauge.Within k) rest := by
    rintro o _ rest h rfl
    exact h.sign o
  have hsigns : (many unaryOperator).SafeOn (Reached limit (Gauge.Within k)) :=
    .many (.token .unary Token.unaryOperator) unaryOperator_yields .gap hsign
  have hsuffixes : (many (suffix nested)).SafeOn (Reached limit (Gauge.Within k)) :=
    .many (suffix_safeOn hnested hsafe) (suffix_yields hnested) .gap fun s _ _ h hs =>
      h.goes fun _ hg => ⟨_, s.measure_goes hg, s.scan_spans hg hs⟩
  refine hsigns.bind unaryOperator_yields.many (fun signs cs rest h hrepeated => ?_) fun signs =>
    .skip_bind .gap ((primary_safeOn hnested hsafe).bind (primary_yields hnested)
      (fun e _ _ h he => h.goes fun _ hg => ⟨_, e.measure_goes hg, e.scan_spans hg he⟩)
      fun _ => .skip_bind .gap (hsuffixes.bind_always fun _ => .pure _))
  -- Reached before the signs, and so after each of them.
  revert h
  exact hrepeated.fold
    (S := fun _ cs rest => Reached limit (Gauge.Within k) cs → Reached limit (Gauge.Within k) rest)
    (fun _ h => h) fun o _ cs c₁ _ _ hgap ho hmore h => hmore (hsign o _ _ (h.gap cs c₁ hgap) ho)

/-- An operator with its right operand is safe. -/
theorem operation_safeOn : (operation nested).SafeOn (Reached limit (Gauge.Within k)) := by
  have hoperator : binaryOperator.SafeOn (Reached limit (Gauge.Within k)) := by
    refine .firstOf fun p hp => ?_
    obtain ⟨entry, -, rfl⟩ := List.mem_map.1 hp
    exact .token entry.1 _
  refine hoperator.bind binaryOperator_yields (fun o cs rest h ho => ?_) fun _ =>
    .skip_bind .gap ((operand_safeOn hnested hsafe).bind_always fun _ => .pure _)
  subst ho
  exact h.goes fun _ hg => ⟨_, .operate hg o, Gauge.scan_operate o hg.quote⟩

/-- A chain is safe where an expression may begin. -/
theorem binary_safeOn : (binary nested).SafeOn (Reached limit (Gauge.Begins k)) := by
  have hfirst : (operand nested).SafeOn (Reached limit (Gauge.Begins k)) :=
    (operand_safeOn hnested hsafe).imp fun _ h => h.within
  have hmore : (many (operation nested)).SafeOn (Reached limit (Gauge.Within k)) :=
    .many (operation_safeOn hnested hsafe) (operation_yields hnested) .gap fun x _ _ h hx =>
      h.goes fun _ hg => ⟨_, Chain.measureMore_goes [x] hg, Chain.scan_spanMore [x] hg hx⟩
  refine (hfirst.bind (operand_yields hnested) (fun first _ _ h hspans => ?_) fun _ =>
    .skip_bind .gap (hmore.bind_always fun _ => .pure _)).tracked .binary
  exact h.begun fun _ hg hafter =>
    ⟨_, first.measure_goes hg, first.scan_spans hg hafter hspans⟩

/-- The branches of a conditional are safe: the question mark leads one
level down, and the colon does not lead up. -/
theorem branches_safeOn : (branches nested).SafeOn (Reached limit (Gauge.Within k)) := by
  -- The second branch begins where the first one is still counted, so the same level is at hand.
  have hrest (consequent : Phrase) : (do
      skip
      char ':'
      skip
      let alternate ← nested
      return (consequent, alternate) : Matcher (Phrase × Phrase)).SafeOn
        (Reached limit (Gauge.Within (k + 1))) :=
    .skip_bind .gap (.char_bind (fun _ h => h.colon)
      (.skip_bind .gap (hsafe.bind_always fun _ => .pure _)))
  refine .char_bind (fun _ h => h.question) (.skip_bind .gap (hsafe.bind hnested
    (fun consequent _ _ h hspans => ?_) hrest))
  exact h.begun fun _ hg hafter =>
    ⟨_, consequent.measure_goes hg, consequent.scan_spans hg hafter hspans⟩

/-- An expression inside of `k` brackets and branches does not give up if
those nested in it, inside of one more, do not. -/
theorem expressionOver_safeOn :
    (expressionOver nested).SafeOn (Reached limit (Gauge.Begins k)) := by
  refine ((binary_safeOn hnested hsafe).bind (binary_yields hnested) (fun test _ _ h hspans => ?_)
    fun _ => .skip_bind .gap ((branches_safeOn hnested hsafe).optional.bind_always
      fun branches? => ?_)).tracked .expression
  · exact h.begun fun _ hg hafter => ⟨_, test.measure_goes hg, test.scan_spans hg hafter hspans⟩
  · cases branches? with
    | none => exact .pure _
    | some _ => exact .pure _

end

/-- Where the scan is inside of `k` brackets and branches, no more than
`limit + 1 - k` expressions are nested in one another. -/
theorem expression_safeOn {nesting : Nat} (h : limit + 1 ≤ nesting + k) :
    (expression nesting).SafeOn (Reached limit (Gauge.Begins k)) := by
  induction nesting generalizing k with
  | zero =>
      -- Nothing is allowed, but the scan has never come to such a place.
      intro c a hc
      have hk := hc.le_limit
      omega
  | succ nesting ih => exact expressionOver_safeOn (expression_yields nesting) (ih (by omega))

/-- A formula is safe if one expression more than the limit may be inside
one another. -/
theorem main_safeOn {nesting : Nat} (h : limit + 1 ≤ nesting) :
    (main nesting).SafeOn fun cs => (Gauge.initial.scan cs).peak ≤ limit := by
  have hnested : (expression nesting).SafeOn (Reached limit (Gauge.Begins 0)) := expression_safeOn h
  have hmain : (main nesting).SafeOn (Reached limit (Gauge.Begins 0)) :=
    SafeOn.tracked .main (.skip_bind .gap (hnested.bind_always fun _ =>
      SafeOn.skip.bind_always fun _ => SafeOn.bind_always (.token _ _) fun _ => .pure _))
  exact hmain.imp fun _ hpeak => ⟨.initial, Gauge.sound_initial, ⟨rfl, Nat.zero_le _⟩, hpeak⟩

end Grammar

/-- A text whose nesting is within the limit is matched with no more than
`limit + 1` expressions nested in one another, in whatever attempts: a
further one would make the match give up. Allowing more of them changes
neither the answer nor the attempts. -/
theorem main_fits_of_check (source : String) (limit : Nat)
    (hcheck : Nesting.check source limit = .ok ()) :
    (Grammar.main (limit + 1) (Grammar.startOf source) .none).1 ≠ .tooDeep ∧
      ∀ nesting, limit + 1 ≤ nesting →
        Grammar.main nesting (Grammar.startOf source) .none
          = Grammar.main (limit + 1) (Grammar.startOf source) .none := by
  have hpeak : (Gauge.initial.scan source.toList).peak ≤ limit := check_eq_ok_iff.1 hcheck
  have hsafe : (Grammar.main (limit + 1) (Grammar.startOf source) .none).1 ≠ .tooDeep :=
    Grammar.main_safeOn le_rfl (Grammar.startOf source) .none hpeak
  exact ⟨hsafe, fun nesting hle => Grammar.main_extends hle _ _ hsafe⟩

/-- A text that is no formula: no bracket is closed rightly, and the
conditional has no branches. Four expressions are nested in one another
before that is found out. -/
theorem main_fits_of_check_unbalanced :
    Nesting.check "(a[-b ? ]" 3 = .ok () ∧
      (Grammar.main 4 (Grammar.startOf "(a[-b ? ]") .none).1 ≠ .tooDeep ∧
      (Grammar.main 3 (Grammar.startOf "(a[-b ? ]") .none).1 = .tooDeep :=
  ⟨rfl, (main_fits_of_check "(a[-b ? ]" 3 rfl).1, by decide +kernel⟩

end Formula
