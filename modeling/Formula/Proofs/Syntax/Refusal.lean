import Formula.Proofs.Syntax.Levels

/-!
# `Formula.Proofs.Syntax.Refusal`: how deeply a refused text nests

A text is refused when more is measured of its expression than the limit allows.
What is measured (`Phrase.measured`) can be more than the levels of the
expression (`Phrase.nesting`), for two reasons. The scan closes a conditional
only together with the bracket around it, and does not see that one which stands
between the question mark and the colon of another has ended before the colon:
it is still counted over the alternate. And it passes over blanks, of which a
name may consist, so that a plus or a minus after such a name is taken for a
sign.

* `Phrase.Followed`: nothing of the kind happens in the expression.
* `Phrase.conditional_measure`: how many conditionals are left open.
* `Phrase.peak_le_nesting`: the peak is at most the nesting.
* `refuses_iff`: the limits under which a text is refused, and when no text is
  refused under the limit of its own nesting.
* `refuses_of_nesting_le`: two texts that are.
-/

set_option autoImplicit false

namespace Formula

open Nesting

/-! ### What the scan follows -/

/-- How many conditionals an expression opens outside of brackets. -/
def Phrase.conditionals : Phrase → Nat
  | .plain _ => 0
  | .conditional _ consequent alternate => 1 + consequent.conditionals + alternate.conditionals

/-- Whether a primary expression has a character that ends an operand. -/
def Primary.noticed : Primary → Bool
  | .identifier name => name.toList.any marks
  | _ => true

/-- The same of a suffix. -/
def Suffix.noticed : Suffix → Bool
  | .field name => name.toList.any marks
  | _ => true

/-- The same of an operand. -/
def Operand.noticed : Operand → Bool
  | .mk _ primary suffixes => primary.noticed || suffixes.any Suffix.noticed

mutual

/-- Nowhere in the expression has a conditional another one for its consequent and
levels in its alternate, and nowhere is a plus or a minus after an operand that
consists of blanks and points. -/
def Phrase.Followed : Phrase → Prop
  | .plain chain => chain.Followed
  | .conditional test consequent alternate =>
    (consequent.conditionals = 0 ∨ alternate.nesting = 0) ∧
      test.Followed ∧ consequent.Followed ∧ alternate.Followed

/-- The same of every one of some expressions. -/
def Phrase.FollowedAll : List Phrase → Prop
  | [] => True
  | p :: ps => p.Followed ∧ Phrase.FollowedAll ps

/-- The same of every operand and operator. -/
def Chain.Followed : Chain → Prop
  | .mk first more => first.Followed ∧ Chain.FollowedMore first.noticed more

/-- The same of every operator and right operand, from whether the operand before
was noticed. -/
def Chain.FollowedMore : Bool → List (BinaryOperator × Operand) → Prop
  | _, [] => True
  | noticed, (o, right) :: more =>
    (noticed = true ∨ ¬(o = .add ∨ o = .subtract)) ∧ right.Followed ∧
      Chain.FollowedMore right.noticed more

/-- The same of an operand. -/
def Operand.Followed : Operand → Prop
  | .mk _ primary suffixes => primary.Followed ∧ Suffix.FollowedAll suffixes

/-- The same of a primary expression. -/
def Primary.Followed : Primary → Prop
  | .array elements => Phrase.FollowedAll elements
  | .grouped inner => inner.Followed
  | _ => True

/-- The same of a suffix. -/
def Suffix.Followed : Suffix → Prop
  | .call arguments => Phrase.FollowedAll arguments
  | .index property => property.Followed
  | .field _ => True

/-- The same of every suffix. -/
def Suffix.FollowedAll : List Suffix → Prop
  | [] => True
  | s :: ss => s.Followed ∧ Suffix.FollowedAll ss

end

/-! ### Operands that have ended -/

section Operands

variable {g g' : Gauge}

/-- Behind a bracket an operand has ended. -/
theorem Nesting.State.afterOperand_closeBracket (s : State) :
    s.closeBracket.afterOperand = true := by
  unfold State.closeBracket
  split <;> rfl

/-- Behind a numeral an operand has ended. -/
theorem Nesting.State.afterOperand_numeral (s : State) (text : List Char) :
    (s.numeral text).afterOperand = true := by
  unfold State.numeral
  split <;> rfl

/-- Behind a primary expression an operand has ended if the scan has noticed
it, or one had ended before. -/
theorem Primary.afterOperand_measure (e : Primary) (g : Gauge) :
    (e.measure g).state.afterOperand = (g.state.afterOperand || e.noticed) := by
  cases e with
  | identifier name => rfl
  | number text => exact (State.afterOperand_numeral _ _).trans (Bool.or_true _).symm
  | array elements => exact (State.afterOperand_closeBracket _).trans (Bool.or_true _).symm
  | grouped inner => exact (State.afterOperand_closeBracket _).trans (Bool.or_true _).symm
  | _ => exact (Bool.or_true _).symm

/-- It is the same behind a suffix. -/
theorem Suffix.afterOperand_measure (s : Suffix) (g : Gauge) :
    (s.measure g).state.afterOperand = (g.state.afterOperand || s.noticed) := by
  cases s with
  | call arguments => exact (State.afterOperand_closeBracket _).trans (Bool.or_true _).symm
  | index property => exact (State.afterOperand_closeBracket _).trans (Bool.or_true _).symm
  | field name => rfl

/-- One suffix that is noticed is enough. -/
theorem Suffix.afterOperand_measureAll (ss : List Suffix) (g : Gauge) :
    (Suffix.measureAll ss g).state.afterOperand
      = (g.state.afterOperand || ss.any Suffix.noticed) := by
  induction ss generalizing g with
  | nil => exact (Bool.or_false _).symm
  | cons s ss ih => rw [Suffix.measureAll, ih, s.afterOperand_measure, List.any_cons, Bool.or_assoc]

/-- The scan sees that a noticed operand has ended. -/
theorem Operand.afterOperand_measure {e : Operand} (he : e.noticed = true) (g : Gauge) :
    (e.measure g).state.afterOperand = true := by
  rcases e with ⟨signs, primary, suffixes⟩
  rw [Operand.measure, Suffix.afterOperand_measureAll, Primary.afterOperand_measure, Bool.or_assoc]
  rw [Operand.noticed] at he
  rw [he, Bool.or_true]

/-- An operator that is taken for one. -/
theorem Gauge.operate_eq {o : BinaryOperator}
    (h : g.state.afterOperand = true ∨ ¬(o = .add ∨ o = .subtract)) :
    g.operate o = g.move .operator := by
  unfold operate
  refine if_neg fun ⟨hafter, ho⟩ => ?_
  rcases h with h | h
  · rw [h] at hafter
    cases hafter
  · exact h ho

/-! ### Conditionals that stay open -/

/-- Signs open no conditional. -/
theorem Gauge.conditional_signs (n : Nat) :
    (g.signs n).state.inner.conditional = g.state.inner.conditional := by
  induction n generalizing g with
  | zero => rfl
  | succ n ih => exact ih

/-- Operators neither open nor close one. -/
theorem Gauge.conditional_operate (g : Gauge) (o : BinaryOperator) :
    (g.operate o).state.inner.conditional = g.state.inner.conditional := by
  unfold operate
  split <;> rfl

/-- Behind a bracket the conditionals are those before it. -/
theorem Gauge.conditional_closeBracket (hg : g.Sound) (h : (g.raise .openBracket).Stays g') :
    (g'.move .closeBracket).state.inner.conditional = g.state.inner.conditional := by
  rw [h.closeBracket hg]
  rfl

/-- A primary expression leaves no conditional open around it. -/
theorem Primary.conditional_measure (e : Primary) (hg : g.Sound) :
    (e.measure g).state.inner.conditional = g.state.inner.conditional := by
  cases e with
  | array elements =>
      exact Gauge.conditional_closeBracket hg (Phrase.measureAll_stays elements hg.openBracket)
  | grouped inner =>
      exact Gauge.conditional_closeBracket hg (inner.measure_goes hg.openBracket).toStays
  | number text =>
      show (g.state.numeral text).inner.conditional = _
      unfold State.numeral
      split <;> rfl
  | _ => rfl

/-- Nor does a suffix. -/
theorem Suffix.conditional_measure (s : Suffix) (hg : g.Sound) :
    (s.measure g).state.inner.conditional = g.state.inner.conditional := by
  cases s with
  | call arguments =>
      exact Gauge.conditional_closeBracket hg (Phrase.measureAll_stays arguments hg.openBracket)
  | index property =>
      exact Gauge.conditional_closeBracket hg (property.measure_goes hg.openBracket).toStays
  | field name => rfl

/-- Nor do suffixes in a row. -/
theorem Suffix.conditional_measureAll (ss : List Suffix) (hg : g.Sound) :
    (Suffix.measureAll ss g).state.inner.conditional = g.state.inner.conditional := by
  induction ss generalizing g with
  | nil => rfl
  | cons s ss ih => rw [Suffix.measureAll, ih (s.measure_goes hg).sound, s.conditional_measure hg]

/-- Nor does an operand. -/
theorem Operand.conditional_measure (e : Operand) (hg : g.Sound) :
    (e.measure g).state.inner.conditional = g.state.inner.conditional := by
  rcases e with ⟨signs, primary, suffixes⟩
  have hsigns := Gauge.Goes.signs hg signs.length
  rw [Operand.measure, Suffix.conditional_measureAll _ (primary.measure_goes hsigns.sound).sound,
    primary.conditional_measure hsigns.sound, Gauge.conditional_signs]

/-- Nor do operators with their operands. -/
theorem Chain.conditional_measureMore (more : List (BinaryOperator × Operand)) (hg : g.Sound) :
    (Chain.measureMore more g).state.inner.conditional = g.state.inner.conditional := by
  induction more generalizing g with
  | nil => rfl
  | cons entry more ih =>
      rcases entry with ⟨o, right⟩
      have ho := Gauge.Goes.operate hg o
      rw [Chain.measureMore, ih (right.measure_goes ho.sound).sound,
        right.conditional_measure ho.sound, Gauge.conditional_operate]

/-- Nor does a chain: conditionals are opened by expressions only. -/
theorem Chain.conditional_measure (c : Chain) (hg : g.Sound) :
    (c.measure g).state.inner.conditional = g.state.inner.conditional := by
  rcases c with ⟨first, more⟩
  rw [Chain.measure, Chain.conditional_measureMore _ (first.measure_goes hg).sound,
    first.conditional_measure hg]

/-- Every conditional outside of brackets is left open. -/
theorem Phrase.conditional_measure (p : Phrase) {g : Gauge} (hg : g.Sound) :
    (p.measure g).state.inner.conditional = g.state.inner.conditional + p.conditionals := by
  cases p with
  | plain chain => exact chain.conditional_measure hg
  | conditional test consequent alternate =>
      -- The gauges behind the four parts. Only the question mark adds a conditional.
      have htest := test.measure_goes hg
      have hquestion := Gauge.Goes.openConditional htest.sound
      have hconsequent := consequent.measure_goes hquestion.sound
      have hcolon := Gauge.Goes.operator hconsequent.sound
      have hopen : ∀ g' : Gauge, (g'.raise .openConditional).state.inner.conditional
          = g'.state.inner.conditional + 1 := fun _ => rfl
      have hkept : ∀ g' : Gauge, (g'.move .operator).state.inner.conditional
          = g'.state.inner.conditional := fun _ => rfl
      rw [Phrase.measure, alternate.conditional_measure hcolon.sound, hkept,
        consequent.conditional_measure hquestion.sound, hopen, test.conditional_measure hg,
        Phrase.conditionals]
      omega

/-- The floor rises by the conditionals that are opened, and by nothing else. -/
theorem Gauge.Goes.floor_eq (hg : g.Sound) (h : g.Goes g') {n : Nat}
    (hn : g'.state.inner.conditional = g.state.inner.conditional + n) :
    g'.floor = g.floor + n := by
  have hdepth := h.depth
  have hlevels := hg.levels_le
  simp only [Frame.levels] at hdepth hlevels
  simp only [floor]
  omega

/-- An operand leaves the floor where it was. -/
theorem Operand.floor_measure (e : Operand) (hg : g.Sound) : (e.measure g).floor = g.floor :=
  (e.measure_goes hg).floor_eq (n := 0) hg (e.conditional_measure hg)

/-- So does a chain. -/
theorem Chain.floor_measure (c : Chain) (hg : g.Sound) : (c.measure g).floor = g.floor :=
  (c.measure_goes hg).floor_eq (n := 0) hg (c.conditional_measure hg)

/-- An expression leaves the floor higher by the conditionals it opens. -/
theorem Phrase.floor_measure (p : Phrase) (hg : g.Sound) :
    (p.measure g).floor = g.floor + p.conditionals :=
  (p.measure_goes hg).floor_eq hg (p.conditional_measure hg)

/-- The sign of a power of ten closes levels, and nothing in an operand leaves more
of them open than its signs. -/
theorem Primary.depth_measure_le (e : Primary) (hg : g.Sound) :
    (e.measure g).state.depth ≤ g.state.depth := by
  cases he : e.isSigned with
  | false => exact (e.depth_measure hg he).le
  | true =>
      cases e with
      | number text =>
          show (g.state.numeral text).depth ≤ _
          unfold State.numeral
          split
          · exact Nat.sub_le _ _
          · exact le_rfl
      | _ => cases he

/-- Signs raise the peak one by one. -/
theorem Gauge.peak_signs_le (hg : g.Sound) (n : Nat) :
    (g.signs n).peak ≤ max g.peak (g.state.depth + n) := by
  induction n generalizing g with
  | zero => exact le_max_left _ _
  | succ n ih =>
      have hmore := ih (Gauge.Goes.openPrefix hg).sound
      have hpeak : (g.raise .openPrefix).peak = max g.peak (g.state.depth + 1) := rfl
      have hdepth : (g.raise .openPrefix).state.depth = g.state.depth + 1 := rfl
      rw [Gauge.signs]
      omega

end Operands

/-! ### The peak of what is followed -/

mutual

/-- From the depth on, an expression that the scan follows reaches no more than its
levels. -/
theorem Phrase.peak_le_nesting : (p : Phrase) → {g : Gauge} → p.Followed → g.Sound →
    (p.measure g).peak ≤ max g.peak (g.state.depth + p.nesting)
  | .plain chain, g, hp, hg => chain.peak_le_nesting hp hg
  | .conditional test consequent alternate, g, ⟨hends, htest, hconsequent, halternate⟩, hg => by
      have htest' := test.measure_goes hg
      have hquestion := Gauge.Goes.openConditional htest'.sound
      have hconsequent' := consequent.measure_goes hquestion.sound
      have hcolon := Gauge.Goes.operator hconsequent'.sound
      have hle := test.peak_le_nesting htest hg
      have hle' := consequent.peak_le_nesting hconsequent hquestion.sound
      have hle'' := alternate.peak_le_nesting halternate hcolon.sound
      -- The branches begin a level above the test, the alternate above what is still open.
      have hfloor := test.floor_measure hg
      have hfloor' := consequent.floor_measure hquestion.sound
      rw [Gauge.floor_openConditional] at hfloor'
      have hstart := g.floor_le_depth
      have hdepth : ((test.measure g).raise .openConditional).state.depth
          = (test.measure g).floor + 1 := rfl
      have hpeak : ((test.measure g).raise .openConditional).peak
          = max (test.measure g).peak ((test.measure g).floor + 1) := rfl
      have hdepth' : ∀ g' : Gauge, (g'.move .operator).state.depth = g'.floor := fun _ => rfl
      have hpeak' : ∀ g' : Gauge, (g'.move .operator).peak = g'.peak := fun _ => rfl
      have hbelow := hconsequent'.sound.floor_le_peak
      rw [hdepth', hpeak'] at hle''
      simp only [Phrase.nesting, Phrase.measure]
      rcases hends with hnone | hflat <;> omega

/-- The peak over expressions with commas: each begins again at the depth of
the bracket. -/
theorem Phrase.peakMore_le_nesting : (ps : List Phrase) → {b g : Gauge} → Phrase.FollowedAll ps →
    b.state.inner.levels = 0 → b.Stays g →
    (Phrase.measureMore ps g).peak ≤ max g.peak (b.state.depth + Phrase.nestingAll ps)
  | [], _, _, _, _, _ => le_max_left _ _
  | p :: ps, b, g, ⟨hp, hps⟩, hb, h => by
      have hcomma := h.trans (.comma h.sound)
      have hp' := hcomma.trans (p.measure_goes hcomma.sound).toStays
      have hle := p.peak_le_nesting hp hcomma.sound
      have hle' := Phrase.peakMore_le_nesting ps hps hb hp'
      -- Behind a comma nothing is open, so that the depth is that of the bracket.
      have hdepth := hcomma.depth
      have hnone : (g.move .comma).state.inner.levels = 0 := rfl
      have hpeak : (g.move .comma).peak = g.peak := rfl
      simp only [Phrase.nestingAll, Phrase.measureMore]
      omega

/-- The peak over expressions with commas between them. -/
theorem Phrase.peakAll_le_nesting : (ps : List Phrase) → {b : Gauge} → Phrase.FollowedAll ps →
    b.state.inner.levels = 0 → b.Sound →
    (Phrase.measureAll ps b).peak ≤ max b.peak (b.state.depth + Phrase.nestingAll ps)
  | [], _, _, _, _ => le_max_left _ _
  | p :: ps, b, ⟨hp, hps⟩, hb, hsound => by
      have hle := p.peak_le_nesting hp hsound
      have hle' := Phrase.peakMore_le_nesting ps hps hb (p.measure_goes hsound).toStays
      simp only [Phrase.nestingAll, Phrase.measureAll]
      omega

/-- The peak over a chain. -/
theorem Chain.peak_le_nesting : (c : Chain) → {g : Gauge} → c.Followed → g.Sound →
    (c.measure g).peak ≤ max g.peak (g.state.depth + c.nesting)
  | .mk first more, g, ⟨hfirst, hmore⟩, hg => by
      have hle := first.peak_le_nesting hfirst hg
      have hle' := Chain.peakMore_le_nesting more hmore (first.measure_goes hg).sound
        fun hnoticed => first.afterOperand_measure hnoticed g
      have hfloor := first.floor_measure hg
      have hstart := g.floor_le_depth
      simp only [Chain.nesting, Chain.measure]
      omega

/-- The peak over operators and operands. The operands begin at the floor,
since an operator closes the signs before it. -/
theorem Chain.peakMore_le_nesting : (more : List (BinaryOperator × Operand)) → {noticed : Bool} →
    {g : Gauge} → Chain.FollowedMore noticed more → g.Sound →
    (noticed = true → g.state.afterOperand = true) →
    (Chain.measureMore more g).peak ≤ max g.peak (g.floor + Chain.nestingMore more)
  | [], _, _, _, _, _ => le_max_left _ _
  | (o, right) :: more, noticed, g, ⟨ho, hright, hmore⟩, hg, hafter => by
      -- The operator ends the operand before it, with all its signs.
      have hoperator := Gauge.Goes.operator hg
      have hle := right.peak_le_nesting hright hoperator.sound
      have hle' := Chain.peakMore_le_nesting more hmore (right.measure_goes hoperator.sound).sound
        fun hnoticed => right.afterOperand_measure hnoticed _
      have hfloor := right.floor_measure hoperator.sound
      have hdepth : (g.move .operator).state.depth = g.floor := rfl
      have hpeak : (g.move .operator).peak = g.peak := rfl
      rw [Gauge.floor_operator] at hfloor
      rw [Chain.measureMore, Gauge.operate_eq (ho.imp_left hafter), Chain.nestingMore]
      omega

/-- The peak over an operand: its signs, and above them what is in its
brackets. -/
theorem Operand.peak_le_nesting : (e : Operand) → {g : Gauge} → e.Followed → g.Sound →
    (e.measure g).peak ≤ max g.peak (g.state.depth + e.nesting)
  | .mk signs primary suffixes, g, ⟨hprimary, hsuffixes⟩, hg => by
      have hsigns := Gauge.Goes.signs hg signs.length
      have hpeak := Gauge.peak_signs_le hg signs.length
      have hdepth := Gauge.depth_signs (g := g) signs.length
      have hdepth' := primary.depth_measure_le hsigns.sound
      have hle := primary.peak_le_nesting hprimary hsigns.sound
      have hle' := Suffix.peakAll_le_nesting suffixes hsuffixes
        (primary.measure_goes hsigns.sound).sound
      simp only [Operand.nesting, Operand.measure]
      omega

/-- The peak over a primary expression. A bracket is one level, and what it
holds stands above it. -/
theorem Primary.peak_le_nesting : (e : Primary) → {g : Gauge} → e.Followed → g.Sound →
    (e.measure g).peak ≤ max g.peak (g.state.depth + e.nesting)
  | .array elements, g, he, hg => by
      -- What the bracket itself does to depth and peak holds by definition.
      have hle := Phrase.peakAll_le_nesting elements he rfl hg.openBracket
      have hdepth : (g.raise .openBracket).state.depth = g.state.depth + 1 := rfl
      have hpeak : (g.raise .openBracket).peak = max g.peak (g.state.depth + 1) := rfl
      show (Phrase.measureAll elements (g.raise .openBracket)).peak ≤ _
      rw [Primary.nesting]
      omega
  | .grouped inner, g, he, hg => by
      have hle := inner.peak_le_nesting he hg.openBracket
      have hdepth : (g.raise .openBracket).state.depth = g.state.depth + 1 := rfl
      have hpeak : (g.raise .openBracket).peak = max g.peak (g.state.depth + 1) := rfl
      show (inner.measure (g.raise .openBracket)).peak ≤ _
      rw [Primary.nesting]
      omega
  | .number _, _, _, _ => le_max_left _ _
  | .string _, _, _, _ => le_max_left _ _
  | .boolean _, _, _, _ => le_max_left _ _
  | .null, _, _, _ => le_max_left _ _
  | .this, _, _, _ => le_max_left _ _
  | .identifier _, _, _, _ => le_max_left _ _

/-- The peak over a suffix. -/
theorem Suffix.peak_le_nesting : (s : Suffix) → {g : Gauge} → s.Followed → g.Sound →
    (s.measure g).peak ≤ max g.peak (g.state.depth + s.nesting)
  | .call arguments, g, hs, hg => by
      -- As with a primary expression, the bracket is one level.
      have hle := Phrase.peakAll_le_nesting arguments hs rfl hg.openBracket
      have hdepth : (g.raise .openBracket).state.depth = g.state.depth + 1 := rfl
      have hpeak : (g.raise .openBracket).peak = max g.peak (g.state.depth + 1) := rfl
      show (Phrase.measureAll arguments (g.raise .openBracket)).peak ≤ _
      rw [Suffix.nesting]
      omega
  | .index property, g, hs, hg => by
      have hle := property.peak_le_nesting hs hg.openBracket
      have hdepth : (g.raise .openBracket).state.depth = g.state.depth + 1 := rfl
      have hpeak : (g.raise .openBracket).peak = max g.peak (g.state.depth + 1) := rfl
      show (property.measure (g.raise .openBracket)).peak ≤ _
      rw [Suffix.nesting]
      omega
  | .field _, _, _, _ => le_max_left _ _

/-- The peak over suffixes in a row, each of which closes its bracket again. -/
theorem Suffix.peakAll_le_nesting : (ss : List Suffix) → {g : Gauge} → Suffix.FollowedAll ss →
    g.Sound → (Suffix.measureAll ss g).peak ≤ max g.peak (g.state.depth + Suffix.nestingAll ss)
  | [], _, _, _ => le_max_left _ _
  | s :: ss, g, ⟨hs, hss⟩, hg => by
      have hle := s.peak_le_nesting hs hg
      have hle' := Suffix.peakAll_le_nesting ss hss (s.measure_goes hg).sound
      have hdepth := s.depth_measure hg
      simp only [Suffix.nestingAll, Suffix.measureAll]
      omega

end

/-- Of an expression that the scan follows, no more is measured than it
nests. -/
theorem Phrase.measured_le_of_followed {p : Phrase} (hp : p.Followed) : p.measured ≤ p.nesting := by
  have hpeak := p.peak_le_nesting hp Gauge.sound_initial
  have hstart : Gauge.initial.peak = 0 ∧ Gauge.initial.state.depth = 0 := ⟨rfl, rfl⟩
  rw [Phrase.measured]
  omega

/-- What is both covered and followed is measured as it nests. -/
theorem Phrase.measured_eq_nesting {p : Phrase} (hcovered : p.Covered) (hfollowed : p.Followed) :
    p.measured = p.nesting := by
  refine Nat.le_antisymm (Phrase.measured_le_of_followed hfollowed) ?_
  exact (Nat.le_add_left _ _).trans (p.floor_add_nesting_le hcovered Gauge.sound_initial)

/-! ### Refused texts -/

/-- A text is refused under a limit because it nests too deeply. -/
def Refuses (source : String) (limit : Nat) : Prop :=
  ∃ depth span, parse source limit = .error ⟨.tooDeep depth limit, source, span⟩

/-- A text that the grammar accepts is refused under the limits that are less than
what is measured of its expression. So it is refused under no limit that its
nesting is within just when no more is measured than its expression nests; and so
it is unless a conditional has another one for its consequent and levels in its
alternate, or a plus or a minus follows an operand of blanks. -/
theorem refuses_iff (source : String) (p : Phrase) (hp : phraseOf source = .ok p) :
    (∀ limit, Refuses source limit ↔ limit < p.measured) ∧
      ((∀ limit, p.nesting ≤ limit → ¬ Refuses source limit) ↔ p.measured ≤ p.nesting) ∧
      (p.Followed → p.measured ≤ p.nesting) := by
  -- A text with an expression in it is refused by the scan only, and the scan compares the peak.
  have hrefuses (limit : Nat) : Refuses source limit ↔ limit < p.measured := by
    constructor
    · rintro ⟨depth, span, herror⟩
      by_contra hle
      rw [(parse_eq_ok_iff_measured_le hp).2 (Nat.le_of_not_lt hle)] at herror
      cases herror
    · intro hlt
      have hcheck : Nesting.check source limit ≠ .ok () := by
        rw [Ne, check_eq_ok_iff, scan_phraseOf hp]
        exact Nat.not_le_of_lt hlt
      unfold Nesting.check at hcheck
      cases hexcess : firstExcess source limit with
      | none =>
          rw [hexcess] at hcheck
          exact absurd rfl hcheck
      | some excess =>
          refine ⟨excess.depth, excess.span, ?_⟩
          unfold parse Nesting.check
          rw [hexcess]
          rfl
  refine ⟨hrefuses, ⟨fun h => ?_, fun h limit hle hrefused => ?_⟩, Phrase.measured_le_of_followed⟩
  · exact Nat.le_of_not_lt fun hlt => h p.nesting le_rfl ((hrefuses _).2 hlt)
  · have hlt := (hrefuses limit).1 hrefused
    omega

/-- A chain of conditionals whose last alternate has a list in it. -/
theorem refuses_iff_chain :
    ∃ p, phraseOf "a ? b : c ? -d : [e]" = .ok p ∧ p.nesting = 3 ∧
      ∀ limit, p.nesting ≤ limit → ¬ Refuses "a ? b : c ? -d : [e]" limit := by
  obtain ⟨p, hread, hnesting, hmeasured⟩ := exists_of_passes "a ? b : c ? -d : [e]"
    (fun p => p.nesting = 3 ∧ p.measured = 3) (by decide +kernel)
  have hle : p.measured ≤ p.nesting := hmeasured.le.trans hnesting.ge
  exact ⟨p, hread, hnesting, (refuses_iff _ p hread).2.1.2 hle⟩

/-- The conditional in the consequent has ended before the parenthesis, which is
the second level there; and the name that consists of a blank is an operand, so
that there is no sign. Both texts are refused under the limit of their nesting. -/
theorem refuses_of_nesting_le :
    (∃ p, phraseOf "a ? b ? c : d : (e)" = .ok p ∧ p.nesting ≤ 2 ∧
      Refuses "a ? b ? c : d : (e)" 2) ∧
    ∃ p, phraseOf "\u00a0-b" = .ok p ∧ p.nesting ≤ 0 ∧ Refuses "\u00a0-b" 0 := by
  obtain ⟨p, hread, hnesting⟩ := exists_of_passes "a ? b ? c : d : (e)"
    (fun p => p.nesting ≤ 2) (by decide +kernel)
  obtain ⟨p', hread', hnesting'⟩ := exists_of_passes "\u00a0-b"
    (fun p => p.nesting ≤ 0) (by decide +kernel)
  exact ⟨⟨p, hread, hnesting, 3, ⟨16, 17⟩, rfl⟩, ⟨p', hread', hnesting', 1, ⟨2, 3⟩, rfl⟩⟩

end Formula
