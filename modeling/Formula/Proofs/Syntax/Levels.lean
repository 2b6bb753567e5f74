import Mathlib.Order.MinMax
import Formula.Proofs.Syntax.Built

/-!
# `Formula.Proofs.Syntax.Levels`: how deeply an accepted text nests

`Phrase.nesting` says how deeply an expression nests: the brackets around
a place, the signs whose operand it is in, and the conditionals with a
branch it is in. What is measured (`Phrase.measured`) can be less. The
scan does not know where a number ends: it takes the sign of a power of
ten for an operator, which ends the signs before the number, and brackets
after the number are then measured as if the signs were not there.

* `floor_add_nesting_le`: where that does not happen, the peak is at least
  the nesting.
* `tree_nesting_le`: the tree of an expression nests no deeper than the
  expression.
* `nesting_le_of_parse_iff`: the limit bounds the nesting of a text under
  every limit just when its expression nests no deeper than is measured.
* `nesting_not_le_of_parse`: for one text it does not.
-/

set_option autoImplicit false

namespace Formula

open Nesting

/-! ### Nesting -/

mutual

/-- How many levels an expression has: brackets, signs over their operands
and conditionals over their branches. -/
def Phrase.nesting : Phrase → Nat
  | .plain chain => chain.nesting
  | .conditional test consequent alternate =>
    max test.nesting (1 + max consequent.nesting alternate.nesting)

/-- The levels of the deepest of some expressions. -/
def Phrase.nestingAll : List Phrase → Nat
  | [] => 0
  | p :: ps => max p.nesting (Phrase.nestingAll ps)

/-- The levels of the deepest operand. -/
def Chain.nesting : Chain → Nat
  | .mk first more => max first.nesting (Chain.nestingMore more)

/-- The levels of the deepest right operand. -/
def Chain.nestingMore : List (BinaryOperator × Operand) → Nat
  | [] => 0
  | (_, right) :: more => max right.nesting (Chain.nestingMore more)

/-- The levels of an operand: every sign is one, over the primary
expression with all its suffixes. -/
def Operand.nesting : Operand → Nat
  | .mk signs primary suffixes => signs.length + max primary.nesting (Suffix.nestingAll suffixes)

/-- The levels of a primary expression. -/
def Primary.nesting : Primary → Nat
  | .array elements => 1 + Phrase.nestingAll elements
  | .grouped inner => 1 + inner.nesting
  | _ => 0

/-- The levels of a suffix. -/
def Suffix.nesting : Suffix → Nat
  | .call arguments => 1 + Phrase.nestingAll arguments
  | .index property => 1 + property.nesting
  | .field _ => 0

/-- The levels of the deepest suffix. -/
def Suffix.nestingAll : List Suffix → Nat
  | [] => 0
  | s :: ss => max s.nesting (Suffix.nestingAll ss)

end

/-- Whether a primary expression is a number whose power of ten has a
sign. -/
def Primary.isSigned : Primary → Bool
  | .number text => Nesting.isSigned text
  | _ => false

mutual

/-- Nowhere in the expression is a number signed twice, before it and in
its power of ten, while a suffix of it has brackets. -/
def Phrase.Covered : Phrase → Prop
  | .plain chain => chain.Covered
  | .conditional test consequent alternate =>
    test.Covered ∧ consequent.Covered ∧ alternate.Covered

/-- The same of every one of some expressions. -/
def Phrase.CoveredAll : List Phrase → Prop
  | [] => True
  | p :: ps => p.Covered ∧ Phrase.CoveredAll ps

/-- The same of every operand. -/
def Chain.Covered : Chain → Prop
  | .mk first more => first.Covered ∧ Chain.CoveredMore more

/-- The same of every right operand. -/
def Chain.CoveredMore : List (BinaryOperator × Operand) → Prop
  | [] => True
  | (_, right) :: more => right.Covered ∧ Chain.CoveredMore more

/-- The same of an operand. -/
def Operand.Covered : Operand → Prop
  | .mk signs primary suffixes =>
    (signs = [] ∨ primary.isSigned = false ∨ Suffix.nestingAll suffixes = 0) ∧
      primary.Covered ∧ Suffix.CoveredAll suffixes

/-- The same of a primary expression. -/
def Primary.Covered : Primary → Prop
  | .array elements => Phrase.CoveredAll elements
  | .grouped inner => inner.Covered
  | _ => True

/-- The same of a suffix. -/
def Suffix.Covered : Suffix → Prop
  | .call arguments => Phrase.CoveredAll arguments
  | .index property => property.Covered
  | .field _ => True

/-- The same of every suffix. -/
def Suffix.CoveredAll : List Suffix → Prop
  | [] => True
  | s :: ss => s.Covered ∧ Suffix.CoveredAll ss

end

/-! ### Depths -/

section Depths

variable {g g' b : Gauge}

/-- Where nothing was open at first, the floor never falls. -/
theorem Gauge.Stays.floor_le (hb : b.state.inner.levels = 0) (h : b.Stays g) :
    b.floor ≤ g.floor := by
  have hdepth := h.depth
  have hlevels := h.sound.levels_le
  simp only [Frame.levels] at hb hdepth hlevels
  simp only [floor]
  omega

/-- A bracket begins with the floor at its own level. -/
theorem Gauge.floor_openBracket (g : Gauge) :
    (g.raise .openBracket).floor = g.state.depth + 1 := rfl

/-- A question mark raises the floor by its own level. -/
theorem Gauge.floor_openConditional (g : Gauge) :
    (g.raise .openConditional).floor = g.floor + 1 := rfl

/-- An operator does not move the floor. -/
theorem Gauge.floor_operator (g : Gauge) : (g.move .operator).floor = g.floor := rfl

/-- Every sign is a level. -/
theorem Gauge.depth_signs (n : Nat) : (g.signs n).state.depth = g.state.depth + n := by
  induction n generalizing g with
  | zero => rfl
  | succ n ih =>
      rw [signs, ih]
      simp only [raise, State.openPrefix]
      omega

/-- A closed bracket leaves the depth as it was before it. -/
theorem Gauge.depth_closeBracket (hg : g.Sound) (h : (g.raise .openBracket).Stays g') :
    (g'.move .closeBracket).state.depth = g.state.depth := by
  rw [h.closeBracket hg]
  rfl

/-- Behind a suffix the depth is that before it. -/
theorem Suffix.depth_measure (s : Suffix) (hg : g.Sound) :
    (s.measure g).state.depth = g.state.depth := by
  cases s with
  | call arguments =>
      exact Gauge.depth_closeBracket hg (Phrase.measureAll_stays arguments hg.openBracket)
  | index property =>
      exact Gauge.depth_closeBracket hg (property.measure_goes hg.openBracket).toStays
  | field name => rfl

/-- Only the sign of a power of ten closes levels in an operand. -/
theorem Primary.depth_measure (e : Primary) (hg : g.Sound) (he : e.isSigned = false) :
    (e.measure g).state.depth = g.state.depth := by
  cases e with
  | array elements =>
      exact Gauge.depth_closeBracket hg (Phrase.measureAll_stays elements hg.openBracket)
  | grouped inner => exact Gauge.depth_closeBracket hg (inner.measure_goes hg.openBracket).toStays
  | number text =>
      have hnumeral : g.state.numeral text = g.state.endOperand :=
        if_neg (Bool.eq_false_iff.1 he)
      rw [Primary.measure, Gauge.move, hnumeral]
      rfl
  | _ => rfl

end Depths

/-! ### The nesting is measured -/

mutual

/-- From its floor on, a covered expression reaches all of its levels. -/
theorem Phrase.floor_add_nesting_le : (p : Phrase) → {g : Gauge} → p.Covered → g.Sound →
    g.floor + p.nesting ≤ (p.measure g).peak
  | .plain chain, g, hp, hg => chain.floor_add_nesting_le hp hg
  | .conditional test consequent alternate, g, ⟨htest, hconsequent, halternate⟩, hg => by
      have htest' := test.measure_goes hg
      have hquestion := Gauge.Goes.openConditional htest'.sound
      have hconsequent' := consequent.measure_goes hquestion.sound
      have hcolon := Gauge.Goes.operator hconsequent'.sound
      have halternate' := alternate.measure_goes hcolon.sound
      have hle := test.floor_add_nesting_le htest hg
      have hle' := consequent.floor_add_nesting_le hconsequent hquestion.sound
      have hle'' := alternate.floor_add_nesting_le halternate hcolon.sound
      -- The question mark lifts the floor for both branches.
      have hfloor := htest'.floor_le hg
      have hfloor' := hconsequent'.floor_le hquestion.sound
      rw [Gauge.floor_operator] at hle''
      rw [Gauge.floor_openConditional] at hle' hfloor'
      have hpeak := hquestion.peak
      have hpeak' := hconsequent'.peak
      have hpeak'' := hcolon.peak
      have hpeak₃ := halternate'.peak
      simp only [Phrase.nesting, Phrase.measure]
      omega

/-- The peak over expressions with commas before each. They begin at the
depth of the bracket, since a comma closes all that was open in it. -/
theorem Phrase.floor_add_nestingMore_le : (ps : List Phrase) → {b g : Gauge} →
    Phrase.CoveredAll ps → b.state.inner.levels = 0 → b.Sound → b.Stays g →
    b.floor + Phrase.nestingAll ps ≤ (Phrase.measureMore ps g).peak
  | [], b, g, _, hb, _, h => (h.floor_le hb).trans h.sound.floor_le_peak
  | p :: ps, b, g, ⟨hp, hps⟩, hb, hsound, h => by
      -- The comma closes all that the elements before it have left open.
      have hcomma := h.trans (.comma h.sound)
      have hp' := hcomma.trans (p.measure_goes hcomma.sound).toStays
      have hle := p.floor_add_nesting_le hp hcomma.sound
      have hle' := Phrase.floor_add_nestingMore_le ps hps hb hsound hp'
      have hfloor := hcomma.floor_le hb
      have hpeak := (Phrase.measureMore_stays ps hp'.sound).peak
      simp only [Phrase.nestingAll, Phrase.measureMore]
      omega

/-- The peak over expressions with commas between them. -/
theorem Phrase.floor_add_nestingAll_le : (ps : List Phrase) → {b : Gauge} →
    Phrase.CoveredAll ps → b.state.inner.levels = 0 → b.Sound →
    b.floor + Phrase.nestingAll ps ≤ (Phrase.measureAll ps b).peak
  | [], b, _, _, hsound => hsound.floor_le_peak
  | p :: ps, b, ⟨hp, hps⟩, hb, hsound => by
      have hp' := (p.measure_goes hsound).toStays
      have hle := p.floor_add_nesting_le hp hsound
      have hle' := Phrase.floor_add_nestingMore_le ps hps hb hsound hp'
      have hpeak := (Phrase.measureMore_stays ps hp'.sound).peak
      simp only [Phrase.nestingAll, Phrase.measureAll]
      omega

/-- The peak over a chain. -/
theorem Chain.floor_add_nesting_le : (c : Chain) → {g : Gauge} → c.Covered → g.Sound →
    g.floor + c.nesting ≤ (c.measure g).peak
  | .mk first more, g, ⟨hfirst, hmore⟩, hg => by
      have hfirst' := first.measure_goes hg
      have hle := first.floor_add_nesting_le hfirst hg
      have hle' := Chain.floor_add_nestingMore_le more hmore hfirst'.sound
      have hfloor := hfirst'.floor_le hg
      have hpeak := (Chain.measureMore_goes more hfirst'.sound).peak
      simp only [Chain.nesting, Chain.measure]
      omega

/-- The peak over operators and operands. An operator may close signs, so
only the floor counts. -/
theorem Chain.floor_add_nestingMore_le : (more : List (BinaryOperator × Operand)) → {g : Gauge} →
    Chain.CoveredMore more → g.Sound →
    g.floor + Chain.nestingMore more ≤ (Chain.measureMore more g).peak
  | [], g, _, hg => hg.floor_le_peak
  | (o, right) :: more, g, ⟨hright, hmore⟩, hg => by
      -- An operator taken for a sign only adds to the depth.
      have ho := Gauge.Goes.operate hg o
      have hright' := right.measure_goes ho.sound
      have hle := right.floor_add_nesting_le hright ho.sound
      have hle' := Chain.floor_add_nestingMore_le more hmore hright'.sound
      have hfloor := ho.floor_le hg
      have hfloor' := hright'.floor_le ho.sound
      have hpeak := (Chain.measureMore_goes more hright'.sound).peak
      simp only [Chain.nestingMore, Chain.measureMore]
      omega

/-- The peak over an operand: its signs raise the depth, and its parts reach
up from there. -/
theorem Operand.floor_add_nesting_le : (e : Operand) → {g : Gauge} → e.Covered → g.Sound →
    g.floor + e.nesting ≤ (e.measure g).peak
  | .mk signs primary suffixes, g, ⟨hopen, hprimary, hsuffixes⟩, hg => by
      have hsigns := Gauge.Goes.signs hg signs.length
      have hprimary' := primary.measure_goes hsigns.sound
      have hdepth := Gauge.depth_signs (g := g) signs.length
      have hle := primary.depth_add_nesting_le hprimary hsigns.sound
      have hle' := Suffix.depth_add_nestingAll_le suffixes hsuffixes hprimary'.sound
      have hfloor := g.floor_le_depth
      have hpeak := (Suffix.measureAll_goes suffixes hprimary'.sound).peak
      simp only [Operand.nesting, Operand.measure]
      -- The suffixes are as deep as the signs unless the number has closed them.
      rcases hopen with rfl | hsigned | hnone
      · have hfloor' := hprimary'.floor_le hsigns.sound
        have hfloor'' := (primary.measure g).floor_le_depth
        simp only [List.length_nil, Gauge.signs] at *
        omega
      · have hdepth' := primary.depth_measure hsigns.sound hsigned
        omega
      · rw [hnone]
        omega

/-- The peak over a primary expression. -/
theorem Primary.depth_add_nesting_le : (e : Primary) → {g : Gauge} → e.Covered → g.Sound →
    g.state.depth + e.nesting ≤ (e.measure g).peak
  | .array elements, g, he, hg => by
      -- Within the bracket the floor is one more than the depth outside.
      have hle := Phrase.floor_add_nestingAll_le elements he rfl hg.openBracket
      rw [Gauge.floor_openBracket, Nat.add_assoc] at hle
      exact hle
  | .grouped inner, g, he, hg => by
      have hle := inner.floor_add_nesting_le he hg.openBracket
      rw [Gauge.floor_openBracket, Nat.add_assoc] at hle
      exact hle
  | .number _, _, _, hg => hg.depth_le
  | .string _, _, _, hg => hg.depth_le
  | .boolean _, _, _, hg => hg.depth_le
  | .null, _, _, hg => hg.depth_le
  | .this, _, _, hg => hg.depth_le
  | .identifier _, _, _, hg => hg.depth_le

/-- The peak over a suffix. -/
theorem Suffix.depth_add_nesting_le : (s : Suffix) → {g : Gauge} → s.Covered → g.Sound →
    g.state.depth + s.nesting ≤ (s.measure g).peak
  | .call arguments, g, hs, hg => by
      have hle := Phrase.floor_add_nestingAll_le arguments hs rfl hg.openBracket
      rw [Gauge.floor_openBracket, Nat.add_assoc] at hle
      exact hle
  | .index property, g, hs, hg => by
      have hle := property.floor_add_nesting_le hs hg.openBracket
      rw [Gauge.floor_openBracket, Nat.add_assoc] at hle
      exact hle
  | .field _, _, _, hg => hg.depth_le

/-- The peak over suffixes, all of which begin at the same depth. -/
theorem Suffix.depth_add_nestingAll_le : (ss : List Suffix) → {g : Gauge} →
    Suffix.CoveredAll ss → g.Sound →
    g.state.depth + Suffix.nestingAll ss ≤ (Suffix.measureAll ss g).peak
  | [], _, _, hg => hg.depth_le
  | s :: ss, g, ⟨hs, hss⟩, hg => by
      have hs' := s.measure_goes hg
      have hle := s.depth_add_nesting_le hs hg
      have hle' := Suffix.depth_add_nestingAll_le ss hss hs'.sound
      -- Every suffix begins at the depth of the first one.
      have hdepth := s.depth_measure hg
      have hpeak := (Suffix.measureAll_goes ss hs'.sound).peak
      simp only [Suffix.nestingAll, Suffix.measureAll]
      omega

end

/-! ### Nesting in trees -/

mutual

/-- How many levels a tree has: lists, arguments, computed properties,
prefix operators over their arguments and conditionals over their
branches. Parentheses leave no trace in a tree. -/
def Expr.nesting : Expr → Nat
  | .array elements => 1 + Expr.nestingAll elements
  | .unary _ argument => 1 + argument.nesting
  | .binary _ left right => max left.nesting right.nesting
  | .logical _ left right => max left.nesting right.nesting
  | .conditional test consequent alternate =>
    max test.nesting (1 + max consequent.nesting alternate.nesting)
  | .member object property true => max object.nesting (1 + property.nesting)
  | .member object property false => max object.nesting property.nesting
  | .call callee arguments => max callee.nesting (1 + Expr.nestingAll arguments)
  | _ => 0

/-- The levels of the deepest of some trees. -/
def Expr.nestingAll : List Expr → Nat
  | [] => 0
  | e :: es => max e.nesting (Expr.nestingAll es)

end

/-- The levels of the deepest operand of a run. -/
def Tail.nesting (rest : Tail) : Nat := Expr.nestingAll (rest.map Prod.snd)

/-- An operator between two trees adds no level. -/
theorem Expr.nesting_infixed (operator : String) (left right : Expr) :
    (Expr.infixed operator left right).nesting = max left.nesting right.nesting := by
  unfold Expr.infixed
  split <;> rfl

/-- Joining neighbours changes no operand, and an operator between operands
is no level. -/
theorem nesting_mergeLevel (level : Nat) (rest : Tail) (left : Expr) :
    max (mergeLevel level left rest).1.nesting (mergeLevel level left rest).2.nesting
      = max left.nesting rest.nesting := by
  induction rest generalizing left with
  | nil => rfl
  | cons entry rest ih =>
      rcases entry with ⟨o, right⟩
      rw [mergeLevel]
      split
      · rw [ih, Expr.nesting_infixed]
        exact max_assoc _ _ _
      -- The operator is kept for a looser level, and merging goes on behind it.
      · have hmore := ih right
        rcases hmerge : mergeLevel level right rest with ⟨next, rest'⟩
        rw [hmerge] at hmore
        exact congrArg (max left.nesting) hmore

/-- Putting a chain together adds no level. -/
theorem nesting_assemble_le (first : Expr) (rest : Tail) :
    (assemble first rest).nesting ≤ max first.nesting rest.nesting := by
  -- Whatever levels are merged, and in whatever order, no operand gets deeper.
  obtain ⟨rest', hassemble⟩ := assemble_keeps
    (S := fun e more => max e.nesting more.nesting ≤ max first.nesting rest.nesting)
    (fun level left more h => (nesting_mergeLevel level more left).trans_le h) le_rfl
  exact (le_max_left _ _).trans hassemble

/-- Every sign is a level. -/
theorem nesting_signed (signs : List UnaryOperator) (e : Expr) :
    (signed signs e).nesting = signs.length + e.nesting := by
  induction signs with
  | nil => exact (Nat.zero_add _).symm
  | cons o signs ih =>
      have hcons : (signed (o :: signs) e).nesting = 1 + (signed signs e).nesting := rfl
      rw [hcons, ih, List.length_cons]
      omega

mutual

/-- The tree of an expression nests no deeper than the expression. -/
theorem Phrase.tree_nesting_le : (p : Phrase) → p.tree.nesting ≤ p.nesting
  | .plain chain => chain.tree_nesting_le
  | .conditional test consequent alternate => by
      have htest := test.tree_nesting_le
      have hconsequent := consequent.tree_nesting_le
      have halternate := alternate.tree_nesting_le
      simp only [Phrase.tree, Phrase.nesting, Expr.nesting]
      omega

/-- The trees of some expressions. -/
theorem Phrase.trees_nesting_le : (ps : List Phrase) →
    Expr.nestingAll (Phrase.trees ps) ≤ Phrase.nestingAll ps
  | [] => le_rfl
  | p :: ps => max_le_max p.tree_nesting_le (Phrase.trees_nesting_le ps)

/-- The tree of a chain. -/
theorem Chain.tree_nesting_le : (c : Chain) → c.tree.nesting ≤ c.nesting
  | .mk first more =>
      (nesting_assemble_le _ _).trans
        (max_le_max first.tree_nesting_le (Chain.tail_nesting_le more))

/-- The trees of the right operands. -/
theorem Chain.tail_nesting_le : (more : List (BinaryOperator × Operand)) →
    (Chain.tail more).nesting ≤ Chain.nestingMore more
  | [] => le_rfl
  | (_, right) :: more => max_le_max right.tree_nesting_le (Chain.tail_nesting_le more)

/-- The tree of an operand. -/
theorem Operand.tree_nesting_le : (e : Operand) → e.tree.nesting ≤ e.nesting
  | .mk signs primary suffixes => by
      have hsuffixes := Suffix.applyAll_nesting_le suffixes primary.tree
      have hprimary := primary.tree_nesting_le
      rw [Operand.tree, nesting_signed, Operand.nesting]
      omega

/-- The tree of a primary expression. A group has none of its own, so a
level may be lost. -/
theorem Primary.tree_nesting_le : (e : Primary) → e.tree.nesting ≤ e.nesting
  | .number _ => le_rfl
  | .string _ => le_rfl
  | .boolean _ => le_rfl
  | .null => le_rfl
  | .this => le_rfl
  | .identifier _ => le_rfl
  | .array elements => Nat.add_le_add_left (Phrase.trees_nesting_le elements) 1
  | .grouped inner => inner.tree_nesting_le.trans (Nat.le_add_left _ _)

/-- The tree of a suffix over its object. -/
theorem Suffix.apply_nesting_le : (s : Suffix) → (object : Expr) →
    (s.apply object).nesting ≤ max object.nesting s.nesting
  | .call arguments, _ =>
      max_le_max le_rfl (Nat.add_le_add_left (Phrase.trees_nesting_le arguments) 1)
  | .index property, _ => max_le_max le_rfl (Nat.add_le_add_left property.tree_nesting_le 1)
  | .field _, _ => le_rfl

/-- The tree of suffixes over an object. -/
theorem Suffix.applyAll_nesting_le : (ss : List Suffix) → (object : Expr) →
    (Suffix.applyAll ss object).nesting ≤ max object.nesting (Suffix.nestingAll ss)
  | [], _ => le_max_left _ _
  | s :: ss, object => by
      have hs := s.apply_nesting_le object
      have hss := Suffix.applyAll_nesting_le ss (s.apply object)
      simp only [Suffix.applyAll, Suffix.nestingAll]
      omega

end

/-! ### The nesting of accepted texts -/

/-- A reading that a computation finds to have a property. -/
theorem exists_of_passes (source : String) (P : Phrase → Prop) [DecidablePred P]
    (h : ((phraseOf source).toOption.any fun p => P p) = true) :
    ∃ p, phraseOf source = .ok p ∧ P p := by
  cases hread : phraseOf source with
  | error _ =>
      rw [hread] at h
      cases h
  | ok p =>
      rw [hread] at h
      exact ⟨p, rfl, of_decide_eq_true h⟩

/-- A text is accepted under the limits that are at least what is measured
of its expression. So they bound its nesting, and that of its tree, just
when the expression nests no deeper than is measured; and it does unless
an operand with a sign before it is a number with another sign in its
power of ten and brackets after it. -/
theorem nesting_le_of_parse_iff (source : String) (p : Phrase) (hp : phraseOf source = .ok p) :
    (∀ limit, parse source limit = .ok p.tree ↔ p.measured ≤ limit) ∧
      ((∀ limit e, parse source limit = .ok e → p.nesting ≤ limit) ↔ p.nesting ≤ p.measured) ∧
      (p.Covered → p.nesting ≤ p.measured) ∧ p.tree.nesting ≤ p.nesting := by
  have haccepted (limit : Nat) : parse source limit = .ok p.tree ↔ p.measured ≤ limit :=
    parse_eq_ok_iff_measured_le hp
  refine ⟨haccepted, ⟨fun h => ?_, fun h limit e he => ?_⟩, fun h => ?_, p.tree_nesting_le⟩
  -- What is measured is itself a limit under which the text is accepted.
  · exact h p.measured p.tree ((haccepted _).2 le_rfl)
  · obtain ⟨-, p', hp', rfl⟩ := parse_eq_ok_iff.1 he
    obtain rfl : p' = p := Except.ok.inj (hp'.symm.trans hp)
    exact h.trans ((haccepted limit).1 he)
  · have hfloor := p.floor_add_nesting_le h Gauge.sound_initial
    exact (Nat.le_add_left _ _).trans hfloor

/-- An expression with a sign, a list and a member of it. -/
theorem nesting_le_of_parse_iff_signed_list :
    ∃ p, phraseOf "-[1e-5][0]" = .ok p ∧ p.nesting = 2 ∧
      ∀ limit e, parse "-[1e-5][0]" limit = .ok e → p.nesting ≤ limit := by
  obtain ⟨p, hread, hnesting, hmeasured⟩ := exists_of_passes "-[1e-5][0]"
    (fun p => p.nesting = 2 ∧ p.measured = 2) (by decide +kernel)
  have hle : p.nesting ≤ p.measured := hnesting.le.trans hmeasured.ge
  exact ⟨p, hread, hnesting, (nesting_le_of_parse_iff _ p hread).2.1.2 hle⟩

/-- The sign of the power of ten hides the sign before the number: the text
is accepted under a limit of one level and has two. -/
theorem nesting_not_le_of_parse :
    ∃ p, phraseOf "-1e-5[0]" = .ok p ∧ parse "-1e-5[0]" 1 = .ok p.tree ∧ ¬ p.nesting ≤ 1 ∧
      ¬ p.tree.nesting ≤ 1 := by
  obtain ⟨p, hread, hnesting, htree⟩ := exists_of_passes "-1e-5[0]"
    (fun p => ¬ p.nesting ≤ 1 ∧ ¬ p.tree.nesting ≤ 1) (by decide +kernel)
  exact ⟨p, hread, parse_eq_ok_iff.2 ⟨rfl, p, hread, rfl⟩, hnesting, htree⟩

end Formula
