import Formula.Proofs.Syntax.Measure

/-!
# `Formula.Proofs.Syntax.Lifting`: expressions deeper in a text

What is measured of an expression depends on where it stands only through
the depth there. Inside of brackets an expression is measured as it is by
itself, every depth being greater by the depth of the brackets.

* `Phrase.measure_lifts`: gauges that differ by a lift still differ by it
  after an expression.
* `Phrase.peak_measure_le`, `Phrase.peak_measureAll_le`: how deep
  expressions reach from a depth on.
-/

set_option autoImplicit false

namespace Formula

open Nesting

/-! ### Measuring at a depth -/

/-- The second gauge is as the first one, `k` levels further down, and its
peak may come from elsewhere. -/
structure Gauge.Lifts (k elsewhere : Nat) (g g' : Gauge) : Prop where
  inner : g'.state.inner = g.state.inner
  afterOperand : g'.state.afterOperand = g.state.afterOperand
  depth : g'.state.depth = g.state.depth + k
  peak : g'.peak ≤ max elsewhere (g.peak + k)

variable {k n d : Nat} {g g' : Gauge}

namespace Gauge.Lifts

variable {m m' : Gauge}

/-- A change that opens no level keeps the lift, if it does the same to both
innermost frames and depths. -/
theorem move {f : State → State} (h : g.Lifts k n g')
    (hinner : (f g'.state).inner = (f g.state).inner)
    (hafter : (f g'.state).afterOperand = (f g.state).afterOperand)
    (hdepth : (f g'.state).depth = (f g.state).depth + k) : (g.move f).Lifts k n (g'.move f) :=
  ⟨hinner, hafter, hdepth, h.peak⟩

/-- A change that opens a level keeps it as well: both depths are `k` apart,
and so are the peaks. -/
theorem raise {f : State → State} (h : g.Lifts k n g')
    (hinner : (f g'.state).inner = (f g.state).inner)
    (hafter : (f g'.state).afterOperand = (f g.state).afterOperand)
    (hdepth : (f g'.state).depth = (f g.state).depth + k) :
    (g.raise f).Lifts k n (g'.raise f) := by
  refine ⟨hinner, hafter, hdepth, ?_⟩
  have hpeak := h.peak
  simp only [Gauge.raise]
  omega

/-- A sign. -/
theorem openPrefix (h : g.Lifts k n g') :
    (g.raise .openPrefix).Lifts k n (g'.raise .openPrefix) := by
  have hdepth := h.depth
  refine h.raise ?_ h.afterOperand ?_ <;> simp only [State.openPrefix, h.inner]
  omega

/-- A bracket. -/
theorem openBracket (h : g.Lifts k n g') :
    (g.raise .openBracket).Lifts k n (g'.raise .openBracket) := by
  have hdepth := h.depth
  refine h.raise rfl rfl ?_
  simp only [State.openBracket]
  omega

/-- A question mark. The signs that it closes are subtracted on both sides,
and both have them. -/
theorem openConditional (hg : g.Sound) (h : g.Lifts k n g') :
    (g.raise .openConditional).Lifts k n (g'.raise .openConditional) := by
  have hdepth := h.depth
  have hlevels := hg.levels_le
  simp only [Frame.levels] at hlevels
  refine h.raise ?_ rfl ?_ <;> simp only [State.openConditional, State.closeUnary, h.inner]
  omega

/-- An operator. -/
theorem operator (hg : g.Sound) (h : g.Lifts k n g') :
    (g.move .operator).Lifts k n (g'.move .operator) := by
  have hdepth := h.depth
  have hlevels := hg.levels_le
  simp only [Frame.levels] at hlevels
  refine h.move ?_ rfl ?_ <;> simp only [State.operator, State.closeUnary, h.inner]
  omega

/-- A comma. -/
theorem comma (hg : g.Sound) (h : g.Lifts k n g') :
    (g.move .comma).Lifts k n (g'.move .comma) := by
  have hdepth := h.depth
  have hlevels := hg.levels_le
  refine h.move rfl rfl ?_
  simp only [State.comma, h.inner]
  omega

/-- A text that means nothing to the scan. -/
theorem read (h : g.Lifts k n g') (text : List Char) :
    (g.move (·.read text)).Lifts k n (g'.move (·.read text)) :=
  h.move h.inner (by simp only [State.read, h.afterOperand]) h.depth

/-- The end of an operand. -/
theorem endOperand (h : g.Lifts k n g') :
    (g.move .endOperand).Lifts k n (g'.move .endOperand) :=
  h.move h.inner rfl h.depth

/-- A numeral. -/
theorem numeral (hg : g.Sound) (h : g.Lifts k n g') (text : List Char) :
    (g.move (·.numeral text)).Lifts k n (g'.move (·.numeral text)) := by
  show Gauge.Lifts k n ⟨g.state.numeral text, g.peak⟩ ⟨g'.state.numeral text, g'.peak⟩
  unfold State.numeral
  split
  · exact (h.operator hg).endOperand
  · exact h.endOperand

/-- An operator between operands. -/
theorem operate (hg : g.Sound) (h : g.Lifts k n g') (o : BinaryOperator) :
    (g.operate o).Lifts k n (g'.operate o) := by
  unfold Gauge.operate
  rw [h.afterOperand]
  split
  · exact h.openPrefix
  · exact h.operator hg

/-- Signs, one after the other. -/
theorem signs (h : g.Lifts k n g') (count : Nat) : (g.signs count).Lifts k n (g'.signs count) := by
  induction count generalizing g g' with
  | zero => exact h
  | succ count ih => exact ih h.openPrefix

/-- A closed bracket, if what is in it was lifted. -/
theorem closeBracket (hg : g.Sound) (hg' : g'.Sound) (h : g.Lifts k n g')
    (hm : (g.raise .openBracket).Stays m) (hm' : (g'.raise .openBracket).Stays m')
    (hinside : m.Lifts k n m') : (m.move .closeBracket).Lifts k n (m'.move .closeBracket) := by
  rw [hm.closeBracket hg, hm'.closeBracket hg']
  exact ⟨h.inner, rfl, h.depth, hinside.peak⟩

end Gauge.Lifts

mutual

/-- An expression is measured deeper in a text as it is elsewhere, every
depth being lifted by the same number. -/
theorem Phrase.measure_lifts : (p : Phrase) → {g g' : Gauge} → g.Sound → g'.Sound →
    g.Lifts k n g' → (p.measure g).Lifts k n (p.measure g')
  | .plain chain, _, _, hg, hg', h => chain.measure_lifts hg hg' h
  | .conditional test consequent alternate, g, g', hg, hg', h => by
      -- Soundness of the gauges on both sides, part by part, since closing subtracts.
      have htest := test.measure_goes hg
      have htest' := test.measure_goes hg'
      have hquestion := Gauge.Goes.openConditional htest.sound
      have hquestion' := Gauge.Goes.openConditional htest'.sound
      have hconsequent := consequent.measure_goes hquestion.sound
      have hconsequent' := consequent.measure_goes hquestion'.sound
      have hcolon := Gauge.Goes.operator hconsequent.sound
      have hcolon' := Gauge.Goes.operator hconsequent'.sound
      have hlifted := consequent.measure_lifts hquestion.sound hquestion'.sound
        ((test.measure_lifts hg hg' h).openConditional htest.sound)
      exact alternate.measure_lifts hcolon.sound hcolon'.sound (hlifted.operator hconsequent.sound)

/-- Expressions with commas before each. -/
theorem Phrase.measureMore_lifts : (ps : List Phrase) → {g g' : Gauge} → g.Sound → g'.Sound →
    g.Lifts k n g' → (Phrase.measureMore ps g).Lifts k n (Phrase.measureMore ps g')
  | [], _, _, _, _, h => h
  | p :: ps, g, g', hg, hg', h => by
      have hcomma := (Gauge.Stays.comma hg).sound
      have hcomma' := (Gauge.Stays.comma hg').sound
      exact Phrase.measureMore_lifts ps (p.measure_goes hcomma).sound (p.measure_goes hcomma').sound
        (p.measure_lifts hcomma hcomma' (h.comma hg))

/-- Expressions with commas between them. -/
theorem Phrase.measureAll_lifts : (ps : List Phrase) → {g g' : Gauge} → g.Sound → g'.Sound →
    g.Lifts k n g' → (Phrase.measureAll ps g).Lifts k n (Phrase.measureAll ps g')
  | [], _, _, _, _, h => h
  | p :: ps, _, _, hg, hg', h =>
      Phrase.measureMore_lifts ps (p.measure_goes hg).sound (p.measure_goes hg').sound
        (p.measure_lifts hg hg' h)

/-- A chain. -/
theorem Chain.measure_lifts : (c : Chain) → {g g' : Gauge} → g.Sound → g'.Sound →
    g.Lifts k n g' → (c.measure g).Lifts k n (c.measure g')
  | .mk first more, _, _, hg, hg', h =>
      Chain.measureMore_lifts more (first.measure_goes hg).sound (first.measure_goes hg').sound
        (first.measure_lifts hg hg' h)

/-- Operators with their right operands. -/
theorem Chain.measureMore_lifts : (more : List (BinaryOperator × Operand)) → {g g' : Gauge} →
    g.Sound → g'.Sound → g.Lifts k n g' →
    (Chain.measureMore more g).Lifts k n (Chain.measureMore more g')
  | [], _, _, _, _, h => h
  | (o, right) :: more, g, g', hg, hg', h => by
      have ho := (Gauge.Goes.operate hg o).sound
      have ho' := (Gauge.Goes.operate hg' o).sound
      exact Chain.measureMore_lifts more (right.measure_goes ho).sound
        (right.measure_goes ho').sound (right.measure_lifts ho ho' (h.operate hg o))

/-- An operand. -/
theorem Operand.measure_lifts : (e : Operand) → {g g' : Gauge} → g.Sound → g'.Sound →
    g.Lifts k n g' → (e.measure g).Lifts k n (e.measure g')
  | .mk signs primary suffixes, g, g', hg, hg', h => by
      have hsigns := (Gauge.Goes.signs hg signs.length).sound
      have hsigns' := (Gauge.Goes.signs hg' signs.length).sound
      exact Suffix.measureAll_lifts suffixes (primary.measure_goes hsigns).sound
        (primary.measure_goes hsigns').sound (primary.measure_lifts hsigns hsigns' (h.signs _))

/-- A primary expression. -/
theorem Primary.measure_lifts : (e : Primary) → {g g' : Gauge} → g.Sound → g'.Sound →
    g.Lifts k n g' → (e.measure g).Lifts k n (e.measure g')
  | .number text, _, _, hg, _, h => h.numeral hg text
  | .string _, _, _, _, _, h => h.endOperand
  | .boolean _, _, _, _, _, h => h.endOperand
  | .null, _, _, _, _, h => h.endOperand
  | .this, _, _, _, _, h => h.endOperand
  | .identifier name, _, _, _, _, h => h.read name.toList
  | .array elements, _, _, hg, hg', h =>
      h.closeBracket hg hg' (Phrase.measureAll_stays elements hg.openBracket)
        (Phrase.measureAll_stays elements hg'.openBracket)
        (Phrase.measureAll_lifts elements hg.openBracket hg'.openBracket h.openBracket)
  | .grouped inner, _, _, hg, hg', h =>
      h.closeBracket hg hg' (inner.measure_goes hg.openBracket).toStays
        (inner.measure_goes hg'.openBracket).toStays
        (inner.measure_lifts hg.openBracket hg'.openBracket h.openBracket)

/-- A suffix. -/
theorem Suffix.measure_lifts : (s : Suffix) → {g g' : Gauge} → g.Sound → g'.Sound →
    g.Lifts k n g' → (s.measure g).Lifts k n (s.measure g')
  | .call arguments, _, _, hg, hg', h =>
      h.closeBracket hg hg' (Phrase.measureAll_stays arguments hg.openBracket)
        (Phrase.measureAll_stays arguments hg'.openBracket)
        (Phrase.measureAll_lifts arguments hg.openBracket hg'.openBracket h.openBracket)
  | .index property, _, _, hg, hg', h =>
      h.closeBracket hg hg' (property.measure_goes hg.openBracket).toStays
        (property.measure_goes hg'.openBracket).toStays
        (property.measure_lifts hg.openBracket hg'.openBracket h.openBracket)
  | .field name, _, _, _, _, h => h.read name.toList

/-- Suffixes in a row. -/
theorem Suffix.measureAll_lifts : (ss : List Suffix) → {g g' : Gauge} → g.Sound → g'.Sound →
    g.Lifts k n g' → (Suffix.measureAll ss g).Lifts k n (Suffix.measureAll ss g')
  | [], _, _, _, _, h => h
  | s :: ss, _, _, hg, hg', h =>
      Suffix.measureAll_lifts ss (s.measure_goes hg).sound (s.measure_goes hg').sound
        (s.measure_lifts hg hg' h)

end

/-- Where nothing is open in the bracket and an operand is due, an
expression reaches what is measured of it, from the depth there. -/
theorem Phrase.peak_measure_le (p : Phrase) (hg : g.Sound) (hinner : g.state.inner = .empty)
    (hafter : g.state.afterOperand = false) :
    (p.measure g).peak ≤ max g.peak (g.state.depth + p.measured) := by
  have hstart : Gauge.initial.Lifts g.state.depth g.peak g :=
    ⟨hinner, hafter, (Nat.zero_add _).symm, le_max_left _ _⟩
  have hpeak := (p.measure_lifts Gauge.sound_initial hg hstart).peak
  rw [Nat.add_comm] at hpeak
  exact hpeak

/-- The same of expressions with a comma before each. -/
theorem Phrase.peak_measureMore_le {b : Gauge} (hinner : b.state.inner = .empty)
    (ps : List Phrase) (hps : ∀ p ∈ ps, p.measured ≤ d) (h : b.Stays g) :
    (Phrase.measureMore ps g).peak ≤ max g.peak (b.state.depth + d) := by
  induction ps generalizing g with
  | nil => exact le_max_left _ _
  | cons p ps ih =>
      -- A comma leads back to the depth of the bracket.
      have hcomma := h.trans (.comma h.sound)
      have hdepth := hcomma.depth
      rw [hinner] at hdepth
      have hp := p.peak_measure_le hcomma.sound rfl rfl
      have hmeasured := hps p List.mem_cons_self
      have hmore := ih (fun q hq => hps q (List.mem_cons_of_mem p hq))
        (hcomma.trans (p.measure_goes hcomma.sound).toStays)
      simp only [Phrase.measureMore, Gauge.move, State.comma, Frame.empty, Frame.levels] at *
      omega

/-- The same of expressions with commas between them. -/
theorem Phrase.peak_measureAll_le (hg : g.Sound) (hinner : g.state.inner = .empty)
    (hafter : g.state.afterOperand = false) (ps : List Phrase) (hps : ∀ p ∈ ps, p.measured ≤ d) :
    (Phrase.measureAll ps g).peak ≤ max g.peak (g.state.depth + d) := by
  cases ps with
  | nil => exact le_max_left _ _
  | cons p ps =>
      have hp := p.peak_measure_le hg hinner hafter
      have hmeasured := hps p List.mem_cons_self
      have hmore := Phrase.peak_measureMore_le hinner ps
        (fun q hq => hps q (List.mem_cons_of_mem p hq)) (p.measure_goes hg).toStays
      simp only [Phrase.measureAll]
      omega

end Formula
