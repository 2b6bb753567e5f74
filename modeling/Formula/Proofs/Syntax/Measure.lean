import Formula.Proofs.Syntax.Gauge
import Formula.Syntax.Parse

/-!
# `Formula.Proofs.Syntax.Measure`: what the scan makes of an expression

The scan reads characters and not expressions. `Phrase.measure` follows an
expression instead, part by part, and what it does to a gauge is what the
scan does to it on any text that spells the expression.

* `measure_goes`: within one bracket, depth and open levels go together,
  and a conditional once open stays open.
* `scan_spans`: scanning a text that spells an expression is measuring
  the expression.
* `parse_eq_ok_iff_measured_le`: a text is accepted just when what is
  measured of its expression is within the limit.
-/

set_option autoImplicit false

namespace Formula

open Nesting

/-! ### What the scan makes of an expression -/

/-- The gauge after some signs. -/
def Gauge.signs (g : Gauge) : Nat → Gauge
  | 0 => g
  | n + 1 => (g.raise .openPrefix).signs n

mutual

/-- The gauge after an expression. -/
def Phrase.measure : Phrase → Gauge → Gauge
  | .plain chain, g => chain.measure g
  | .conditional test consequent alternate, g =>
    alternate.measure
      ((consequent.measure ((test.measure g).raise .openConditional)).move .operator)

/-- The gauge after expressions, a comma before each. -/
def Phrase.measureMore : List Phrase → Gauge → Gauge
  | [], g => g
  | p :: ps, g => Phrase.measureMore ps (p.measure (g.move .comma))

/-- The gauge after expressions, commas between them. -/
def Phrase.measureAll : List Phrase → Gauge → Gauge
  | [], g => g
  | p :: ps, g => Phrase.measureMore ps (p.measure g)

/-- The gauge after operands with operators between them. -/
def Chain.measure : Chain → Gauge → Gauge
  | .mk first more, g => Chain.measureMore more (first.measure g)

/-- The gauge after operators, each with its right operand. -/
def Chain.measureMore : List (BinaryOperator × Operand) → Gauge → Gauge
  | [], g => g
  | (o, right) :: more, g => Chain.measureMore more (right.measure (g.operate o))

/-- The gauge after an operand. -/
def Operand.measure : Operand → Gauge → Gauge
  | .mk signs primary suffixes, g =>
    Suffix.measureAll suffixes (primary.measure (g.signs signs.length))

/-- The gauge after a primary expression. -/
def Primary.measure : Primary → Gauge → Gauge
  | .number text, g => g.move (·.numeral text)
  | .string _, g => g.move .endOperand
  | .boolean _, g => g.move .endOperand
  | .null, g => g.move .endOperand
  | .this, g => g.move .endOperand
  | .identifier name, g => g.move (·.read name.toList)
  | .array elements, g => (Phrase.measureAll elements (g.raise .openBracket)).move .closeBracket
  | .grouped inner, g => (inner.measure (g.raise .openBracket)).move .closeBracket

/-- The gauge after a suffix. -/
def Suffix.measure : Suffix → Gauge → Gauge
  | .call arguments, g => (Phrase.measureAll arguments (g.raise .openBracket)).move .closeBracket
  | .index property, g => (property.measure (g.raise .openBracket)).move .closeBracket
  | .field name, g => g.move (·.read name.toList)

/-- The gauge after suffixes. -/
def Suffix.measureAll : List Suffix → Gauge → Gauge
  | [], g => g
  | s :: ss, g => Suffix.measureAll ss (s.measure g)

end

/-! ### What an expression leaves as it was -/

/-- Outside of strings, and with no more levels open in the innermost frame
than there are at all. -/
structure Gauge.Sound (g : Gauge) : Prop where
  quote : g.state.quote = none
  escaped : g.state.escaped = false
  levels_le : g.state.inner.levels ≤ g.state.depth
  depth_le : g.state.depth ≤ g.peak

/-- From the one gauge to the other the scan has stayed within a bracket:
the frames around it are the same, and the depth tells the levels. -/
structure Gauge.Stays (g g' : Gauge) : Prop where
  sound : g'.Sound
  outer : g'.state.outer = g.state.outer
  depth : g'.state.depth + g.state.inner.levels = g.state.depth + g'.state.inner.levels
  peak : g.peak ≤ g'.peak

/-- The scan has stayed within a bracket, and no conditional was closed. -/
structure Gauge.Goes (g g' : Gauge) : Prop extends g.Stays g' where
  conditional : g.state.inner.conditional ≤ g'.state.inner.conditional

/-- The depth around the operand that is scanned: its signs do not count. -/
def Gauge.floor (g : Gauge) : Nat := g.state.depth - g.state.inner.unary

/-- The floor is at most the depth. -/
theorem Gauge.floor_le_depth (g : Gauge) : g.floor ≤ g.state.depth := Nat.sub_le _ _

variable {g g' g'' : Gauge}

/-- The floor has been reached on the way. -/
theorem Gauge.Sound.floor_le_peak (hg : g.Sound) : g.floor ≤ g.peak :=
  g.floor_le_depth.trans hg.depth_le

/-- Without a character the scan stays where it is. -/
theorem Gauge.Stays.refl (hg : g.Sound) : g.Stays g := ⟨hg, rfl, rfl, le_rfl⟩

/-- Two ways within a bracket, one after the other. -/
theorem Gauge.Stays.trans (h : g.Stays g') (h' : g'.Stays g'') : g.Stays g'' where
  sound := h'.sound
  outer := h'.outer.trans h.outer
  depth := by have := h.depth; have := h'.depth; omega
  peak := h.peak.trans h'.peak

namespace Gauge.Goes

/-- Without a character no conditional is closed. -/
theorem refl (hg : g.Sound) : g.Goes g := ⟨.refl hg, le_rfl⟩

/-- Two ways, one after the other, neither of which closes a conditional. -/
theorem trans (h : g.Goes g') (h' : g'.Goes g'') : g.Goes g'' :=
  ⟨h.toStays.trans h'.toStays, h.conditional.trans h'.conditional⟩

/-- The floor does not fall on the way: brackets are closed again, and
conditionals stay open. -/
theorem floor_le (hg : g.Sound) (h : g.Goes g') : g.floor ≤ g'.floor := by
  have hdepth := h.depth
  have hlevels := hg.levels_le
  have hconditional := h.conditional
  simp only [Frame.levels] at hdepth hlevels
  simp only [floor]
  omega

/-- A change that opens a level, if the depth follows the levels. -/
theorem raise {f : State → State} (hg : g.Sound) (hquote : (f g.state).quote = g.state.quote)
    (hescaped : (f g.state).escaped = g.state.escaped)
    (houter : (f g.state).outer = g.state.outer)
    (hdepth : (f g.state).depth + g.state.inner.levels
      = g.state.depth + (f g.state).inner.levels)
    (hconditional : g.state.inner.conditional ≤ (f g.state).inner.conditional) :
    g.Goes (g.raise f) := by
  refine ⟨⟨⟨hquote.trans hg.quote, hescaped.trans hg.escaped, ?_, le_max_right _ _⟩, houter, hdepth,
    le_max_left _ _⟩, hconditional⟩
  have hlevels := hg.levels_le
  show (f g.state).inner.levels ≤ (f g.state).depth
  omega

/-- A change that opens no level, if the depth follows the levels. -/
theorem move {f : State → State} (hg : g.Sound) (hquote : (f g.state).quote = g.state.quote)
    (hescaped : (f g.state).escaped = g.state.escaped)
    (houter : (f g.state).outer = g.state.outer)
    (hdepth : (f g.state).depth + g.state.inner.levels
      = g.state.depth + (f g.state).inner.levels)
    (hconditional : g.state.inner.conditional ≤ (f g.state).inner.conditional)
    (hle : (f g.state).depth ≤ g.state.depth) : g.Goes (g.move f) := by
  refine ⟨⟨⟨hquote.trans hg.quote, hescaped.trans hg.escaped, ?_, hle.trans hg.depth_le⟩, houter,
    hdepth, le_rfl⟩, hconditional⟩
  have hlevels := hg.levels_le
  show (f g.state).inner.levels ≤ (f g.state).depth
  omega

/-- A sign. -/
theorem openPrefix (hg : g.Sound) : g.Goes (g.raise .openPrefix) := by
  refine .raise hg rfl rfl rfl ?_ le_rfl
  simp only [State.openPrefix, Frame.levels]
  omega

/-- A question mark. It closes the signs before it, which are counted in the
depth. -/
theorem openConditional (hg : g.Sound) : g.Goes (g.raise .openConditional) := by
  have hlevels := hg.levels_le
  simp only [Frame.levels] at hlevels
  refine .raise hg rfl rfl rfl ?_ (Nat.le_succ _)
  simp only [State.openConditional, State.closeUnary, Frame.levels]
  omega

/-- An operator. It closes the signs as well. -/
theorem operator (hg : g.Sound) : g.Goes (g.move .operator) := by
  have hlevels := hg.levels_le
  simp only [Frame.levels] at hlevels
  refine .move hg rfl rfl rfl ?_ le_rfl (Nat.sub_le _ _)
  simp only [State.operator, State.closeUnary, Frame.levels]
  omega

/-- A text of characters that mean nothing to the scan. -/
theorem read (hg : g.Sound) (text : List Char) : g.Goes (g.move (·.read text)) :=
  .move hg rfl rfl rfl rfl le_rfl le_rfl

/-- The end of an operand. -/
theorem endOperand (hg : g.Sound) : g.Goes (g.move .endOperand) :=
  .move hg rfl rfl rfl rfl le_rfl le_rfl

/-- A numeral. The sign of its exponent may be read as an operator. -/
theorem numeral (hg : g.Sound) (text : List Char) : g.Goes (g.move (·.numeral text)) := by
  show g.Goes ⟨g.state.numeral text, g.peak⟩
  unfold State.numeral
  split
  · exact (operator hg).trans (endOperand (operator hg).sound)
  · exact endOperand hg

/-- An operator between operands, be it one that the scan takes for such or
not. -/
theorem operate (hg : g.Sound) (o : BinaryOperator) : g.Goes (g.operate o) := by
  unfold Gauge.operate
  split
  · exact openPrefix hg
  · exact operator hg

/-- Signs, one after the other. -/
theorem signs (hg : g.Sound) (n : Nat) : g.Goes (g.signs n) := by
  induction n generalizing g with
  | zero => exact .refl hg
  | succ n ih => exact (openPrefix hg).trans (ih (openPrefix hg).sound)

end Gauge.Goes

/-- A comma closes what is open in its frame, conditionals too. -/
theorem Gauge.Stays.comma (hg : g.Sound) : g.Stays (g.move .comma) where
  sound := ⟨hg.quote, hg.escaped, Nat.zero_le _, (Nat.sub_le _ _).trans hg.depth_le⟩
  outer := rfl
  depth := Nat.sub_add_cancel hg.levels_le
  peak := le_rfl

/-- The gauge inside a bracket that was just opened. -/
theorem Gauge.Sound.openBracket (hg : g.Sound) : (g.raise .openBracket).Sound :=
  ⟨hg.quote, hg.escaped, Nat.zero_le _, le_max_right _ _⟩

/-- When a bracket is closed, the levels are what they were before it. -/
theorem Gauge.Stays.closeBracket (hg : g.Sound) (h : (g.raise .openBracket).Stays g') :
    g'.move .closeBracket = ⟨g.state.endOperand, g'.peak⟩ := by
  rcases g with ⟨⟨inner, outer, depth, quote, escaped, afterOperand⟩, peak⟩
  rcases g' with ⟨⟨inner', outer', depth', quote', escaped', afterOperand'⟩, peak'⟩
  obtain rfl : outer' = inner :: outer := h.outer
  obtain rfl : quote' = none := h.sound.quote
  obtain rfl : escaped' = false := h.sound.escaped
  obtain rfl : quote = none := hg.quote
  obtain rfl : escaped = false := hg.escaped
  -- A bracket is opened with no levels, so the depth above it is what is open in it.
  have hdepth : depth' + 0 = depth + 1 + inner'.levels := h.depth
  have hclose : depth' - (inner'.levels + 1) = depth := by omega
  simp [Gauge.move, State.closeBracket, State.endOperand, hclose]

/-- What stays within a bracket goes on behind it as if it had not been
there. -/
theorem Gauge.Goes.bracket (hg : g.Sound) (h : (g.raise .openBracket).Stays g') :
    g.Goes (g'.move .closeBracket) := by
  rw [h.closeBracket hg]
  have hpeak : g.peak ≤ g'.peak := (le_max_left _ _).trans h.peak
  exact ⟨⟨⟨hg.quote, hg.escaped, hg.levels_le, hg.depth_le.trans hpeak⟩, rfl, rfl, hpeak⟩, le_rfl⟩

mutual

/-- Measuring an expression stays within a bracket, and what is open before
it stays open. -/
theorem Phrase.measure_goes : (p : Phrase) → {g : Gauge} → g.Sound → g.Goes (p.measure g)
  | .plain chain, g, hg => chain.measure_goes hg
  | .conditional test consequent alternate, g, hg => by
      have htest := test.measure_goes hg
      have hquestion := htest.trans (.openConditional htest.sound)
      have hconsequent := hquestion.trans (consequent.measure_goes hquestion.sound)
      have hcolon := hconsequent.trans (.operator hconsequent.sound)
      exact hcolon.trans (alternate.measure_goes hcolon.sound)

/-- Expressions with commas stay within the bracket around them. -/
theorem Phrase.measureMore_stays : (ps : List Phrase) → {g : Gauge} → g.Sound →
    g.Stays (Phrase.measureMore ps g)
  | [], g, hg => .refl hg
  | p :: ps, g, hg => by
      have hcomma := Gauge.Stays.comma hg
      have hp := hcomma.trans (p.measure_goes hcomma.sound).toStays
      exact hp.trans (Phrase.measureMore_stays ps hp.sound)

/-- So do expressions with commas between them. -/
theorem Phrase.measureAll_stays : (ps : List Phrase) → {g : Gauge} → g.Sound →
    g.Stays (Phrase.measureAll ps g)
  | [], g, hg => .refl hg
  | p :: ps, g, hg => by
      have hp := p.measure_goes hg
      exact hp.toStays.trans (Phrase.measureMore_stays ps hp.sound)

/-- A chain closes no conditional. -/
theorem Chain.measure_goes : (c : Chain) → {g : Gauge} → g.Sound → g.Goes (c.measure g)
  | .mk first more, g, hg => by
      have hfirst := first.measure_goes hg
      exact hfirst.trans (Chain.measureMore_goes more hfirst.sound)

/-- Nor do operators with their right operands. -/
theorem Chain.measureMore_goes : (more : List (BinaryOperator × Operand)) → {g : Gauge} →
    g.Sound → g.Goes (Chain.measureMore more g)
  | [], g, hg => .refl hg
  | (o, right) :: more, g, hg => by
      have ho := Gauge.Goes.operate hg o
      have hright := ho.trans (right.measure_goes ho.sound)
      exact hright.trans (Chain.measureMore_goes more hright.sound)

/-- An operand goes from its signs on, part by part. -/
theorem Operand.measure_goes : (e : Operand) → {g : Gauge} → g.Sound → g.Goes (e.measure g)
  | .mk signs primary suffixes, g, hg => by
      have hsigns := Gauge.Goes.signs hg signs.length
      have hprimary := hsigns.trans (primary.measure_goes hsigns.sound)
      exact hprimary.trans (Suffix.measureAll_goes suffixes hprimary.sound)

/-- A primary expression is one operand, or it is a bracket. -/
theorem Primary.measure_goes : (e : Primary) → {g : Gauge} → g.Sound → g.Goes (e.measure g)
  | .number text, _, hg => .numeral hg text
  | .string _, _, hg => .endOperand hg
  | .boolean _, _, hg => .endOperand hg
  | .null, _, hg => .endOperand hg
  | .this, _, hg => .endOperand hg
  | .identifier name, _, hg => .read hg name.toList
  | .array elements, _, hg => .bracket hg (Phrase.measureAll_stays elements hg.openBracket)
  | .grouped inner, _, hg => .bracket hg (inner.measure_goes hg.openBracket).toStays

/-- A suffix is a bracket, or a name. -/
theorem Suffix.measure_goes : (s : Suffix) → {g : Gauge} → g.Sound → g.Goes (s.measure g)
  | .call arguments, _, hg => .bracket hg (Phrase.measureAll_stays arguments hg.openBracket)
  | .index property, _, hg => .bracket hg (property.measure_goes hg.openBracket).toStays
  | .field name, _, hg => .read hg name.toList

/-- Suffixes, one after the other. -/
theorem Suffix.measureAll_goes : (ss : List Suffix) → {g : Gauge} → g.Sound →
    g.Goes (Suffix.measureAll ss g)
  | [], g, hg => .refl hg
  | s :: ss, g, hg => by
      have hs := s.measure_goes hg
      exact hs.trans (Suffix.measureAll_goes ss hs.sound)

end

/-! ### Scanning is measuring -/

/-- A gap before something that does not begin with an equals sign does not
begin with one either. -/
theorem Gap.head?_ne {cs rest : List Char} (h : Gap cs rest) (hrest : rest.head? ≠ some '=') :
    cs.head? ≠ some '=' := by
  obtain ⟨spaces, rfl, hspaces⟩ := h
  cases spaces with
  | nil => exact hrest
  | cons c spaces =>
      intro hc
      obtain rfl : c = '=' := Option.some.inj hc
      exact absurd (hspaces '=' List.mem_cons_self) (by decide)

/-- No primary expression begins with an equals sign. -/
theorem Primary.Spans.head?_ne {e : Primary} {cs rest : List Char} (h : e.Spans cs rest) :
    cs.head? ≠ some '=' := by
  cases cs with
  | nil => nofun
  | cons c cs =>
      intro hc
      obtain rfl : c = '=' := Option.some.inj hc
      -- No kind of primary expression begins with an equals sign: the scanners fail on it, and
      -- brackets are other characters.
      cases e with
      | number text => exact nomatch (show none = some (text, rest) from h)
      | string s => exact nomatch (show none = some (s, rest) from h)
      | boolean b => exact nomatch (show none = some (b, rest) from h)
      | null => exact nomatch (show none = some ((), rest) from h)
      | this => exact nomatch (show none = some ((), rest) from h)
      | identifier name => exact nomatch (show none = some (name, rest) from h)
      | array elements =>
          obtain ⟨_, _, _, hcs, -⟩ := h
          cases hcs
      | grouped inner =>
          obtain ⟨_, _, _, hcs, -⟩ := h
          cases hcs

/-- Scanning signs, where an operand is due and no equals sign follows. -/
theorem scan_signs : (signs : List UnaryOperator) → {g : Gauge} → {cs rest : List Char} →
    g.Sound → g.state.afterOperand = false → Operand.SpanSigns signs cs rest →
    rest.head? ≠ some '=' →
    g.scan cs = (g.signs signs.length).scan rest ∧ (g.signs signs.length).state.afterOperand = false
  | [], g, cs, rest, _, hafter, h, _ => by
      obtain rfl : cs = rest := h
      exact ⟨rfl, hafter⟩
  | o :: os, g, cs, rest, hg, hafter, ⟨c₁, hgap, hos⟩, hrest => by
      -- After a sign comes another one or what the operand begins with.
      have hnext : c₁.head? ≠ some '=' := by
        cases os with
        | nil =>
            obtain rfl : c₁ = rest := hos
            exact hrest
        | cons o' os =>
            obtain ⟨c₂, hgap', -⟩ := hos
            refine hgap'.head?_ne ?_
            cases o' <;> exact nofun
      have hmore := scan_signs os (g := g.raise .openPrefix) (Gauge.Goes.openPrefix hg).sound hafter
        hos hrest
      rw [Gauge.scan_gap hgap hg.quote, Gauge.scan_sign o hg.quote hafter hnext]
      exact hmore

mutual

/-- Scanning a text that spells an expression is measuring the
expression. -/
theorem Phrase.scan_spans : (p : Phrase) → {g : Gauge} → {cs rest : List Char} → g.Sound →
    g.state.afterOperand = false → p.Spans cs rest → g.scan cs = (p.measure g).scan rest
  | .plain chain, g, cs, rest, hg, hafter, ⟨c₁, hchain, hgap⟩ => by
      rw [chain.scan_spans hg hafter hchain]
      exact Gauge.scan_gap hgap (chain.measure_goes hg).sound.quote
  | .conditional test consequent alternate, g, cs, rest, hg, hafter,
      ⟨c₁, c₂, c₃, c₄, c₅, c₆, htest, hgap, hgap', hconsequent, hgap'', hgap₃, halternate⟩ => by
      -- The gauges at the five places between the parts, each sound because of the one before.
      have htest' := test.measure_goes hg
      have hquestion := Gauge.Goes.openConditional htest'.sound
      have hconsequent' := consequent.measure_goes hquestion.sound
      have hcolon := Gauge.Goes.operator hconsequent'.sound
      rw [test.scan_spans hg hafter htest, Gauge.scan_gap hgap htest'.sound.quote,
        Gauge.scan_question htest'.sound.quote, Gauge.scan_gap hgap' hquestion.sound.quote,
        consequent.scan_spans hquestion.sound rfl hconsequent,
        Gauge.scan_gap hgap'' hconsequent'.sound.quote, Gauge.scan_colon hconsequent'.sound.quote,
        Gauge.scan_gap hgap₃ hcolon.sound.quote, alternate.scan_spans hcolon.sound rfl halternate]
      rfl

/-- Scanning expressions with commas is measuring them. -/
theorem Phrase.scan_spanMore : (ps : List Phrase) → {g : Gauge} → {cs rest : List Char} → g.Sound →
    Phrase.SpanMore ps cs rest → g.scan cs = (Phrase.measureMore ps g).scan rest
  | [], g, cs, rest, _, h => by
      obtain rfl : cs = rest := h
      rfl
  | p :: ps, g, cs, rest, hg, ⟨c₁, c₂, c₃, hgap, hgap', hp, hps⟩ => by
      have hcomma := Gauge.Stays.comma hg
      have hp' := p.measure_goes hcomma.sound
      rw [Gauge.scan_gap hgap hg.quote, Gauge.scan_comma hg.quote,
        Gauge.scan_gap hgap' hcomma.sound.quote, p.scan_spans hcomma.sound rfl hp,
        Phrase.scan_spanMore ps hp'.sound hps]
      rfl

/-- So it is with commas between them only. -/
theorem Phrase.scan_spanAll : (ps : List Phrase) → {g : Gauge} → {cs rest : List Char} → g.Sound →
    g.state.afterOperand = false → Phrase.SpanAll ps cs rest →
    g.scan cs = (Phrase.measureAll ps g).scan rest
  | [], g, cs, rest, _, _, h => by
      obtain rfl : cs = rest := h
      rfl
  | p :: ps, g, cs, rest, hg, hafter, ⟨c₁, c₂, hp, hgap, hps⟩ => by
      have hp' := p.measure_goes hg
      rw [p.scan_spans hg hafter hp, Gauge.scan_gap hgap hp'.sound.quote,
        Phrase.scan_spanMore ps hp'.sound hps]
      rfl

/-- Scanning a chain is measuring it. -/
theorem Chain.scan_spans : (c : Chain) → {g : Gauge} → {cs rest : List Char} → g.Sound →
    g.state.afterOperand = false → c.Spans cs rest → g.scan cs = (c.measure g).scan rest
  | .mk first more, g, cs, rest, hg, hafter, ⟨c₁, c₂, hfirst, hgap, hmore⟩ => by
      have hfirst' := first.measure_goes hg
      rw [first.scan_spans hg hafter hfirst, Gauge.scan_gap hgap hfirst'.sound.quote,
        Chain.scan_spanMore more hfirst'.sound hmore]
      rfl

/-- Scanning operators and operands is measuring them. -/
theorem Chain.scan_spanMore : (more : List (BinaryOperator × Operand)) → {g : Gauge} →
    {cs rest : List Char} → g.Sound → Chain.SpanMore more cs rest →
    g.scan cs = (Chain.measureMore more g).scan rest
  | [], g, cs, rest, _, h => by
      obtain rfl : cs = rest := h
      rfl
  | (o, right) :: more, g, cs, rest, hg, ⟨c₁, c₂, c₃, hgap, hgap', hright, hmore⟩ => by
      have ho := Gauge.Goes.operate hg o
      -- Whichever way the operator was taken, an operand is due.
      have hafter : (g.operate o).state.afterOperand = false := by
        unfold Gauge.operate
        split
        · rename_i h
          exact h.1
        · rfl
      have hright' := right.measure_goes ho.sound
      rw [Gauge.scan_gap hgap hg.quote, Gauge.scan_operate o hg.quote,
        Gauge.scan_gap hgap' ho.sound.quote, right.scan_spans ho.sound hafter hright,
        Chain.scan_spanMore more hright'.sound hmore]
      rfl

/-- Scanning an operand is measuring it. Its signs are signs to the scan
because no operand stands before them. -/
theorem Operand.scan_spans : (e : Operand) → {g : Gauge} → {cs rest : List Char} → g.Sound →
    g.state.afterOperand = false → e.Spans cs rest → g.scan cs = (e.measure g).scan rest
  | .mk signs primary suffixes, g, cs, rest, hg, hafter,
      ⟨c₁, c₂, c₃, c₄, hsigns, hgap, hprimary, hgap', hsuffixes⟩ => by
      have hnext : c₁.head? ≠ some '=' := hgap.head?_ne hprimary.head?_ne
      obtain ⟨hscan, hafter'⟩ := scan_signs signs hg hafter hsigns hnext
      have hsigns' := Gauge.Goes.signs hg signs.length
      have hprimary' := primary.measure_goes hsigns'.sound
      rw [hscan, Gauge.scan_gap hgap hsigns'.sound.quote,
        primary.scan_spans hsigns'.sound hprimary, Gauge.scan_gap hgap' hprimary'.sound.quote,
        Suffix.scan_spanAll suffixes hprimary'.sound hsuffixes]
      rfl

/-- Scanning a primary expression is measuring it. -/
theorem Primary.scan_spans : (e : Primary) → {g : Gauge} → {cs rest : List Char} → g.Sound →
    e.Spans cs rest → g.scan cs = (e.measure g).scan rest
  | .number text, g, cs, rest, hg, h => Gauge.scan_numeral h hg.quote
  | .string s, g, cs, rest, hg, h => Gauge.scan_string h hg.quote hg.escaped
  | .boolean b, g, cs, rest, hg, h => by
      rcases Token.eq_append_of_boolean h with ⟨rfl, -⟩ | ⟨rfl, -⟩ <;>
        exact Gauge.scan_word (forall_mem_of_all rfl) (by decide) hg.quote
  | .null, g, cs, rest, hg, h => by
      obtain rfl := Token.eq_append_of_word h
      exact Gauge.scan_word (forall_mem_of_all rfl) (by decide) hg.quote
  | .this, g, cs, rest, hg, h => by
      obtain rfl := Token.eq_append_of_word h
      exact Gauge.scan_word (forall_mem_of_all rfl) (by decide) hg.quote
  | .identifier name, g, cs, rest, hg, h => by
      obtain ⟨rfl, hname⟩ := Token.eq_append_of_identifier h
      exact Gauge.scan_read (fun c hc => notMem_special_of_isWordChar (hname c hc)) hg.quote
  -- The elements leave the scan sound inside of the brackets, so that they can be closed.
  | .array elements, g, cs, rest, hg, ⟨c₁, c₂, c₃, hcs, hgap, helements, hgap'⟩ => by
      have helements' := Phrase.measureAll_stays elements hg.openBracket
      rw [hcs, Gauge.scan_open (.inr rfl) hg.quote, Gauge.scan_gap hgap hg.openBracket.quote,
        Phrase.scan_spanAll elements hg.openBracket rfl helements,
        Gauge.scan_gap hgap' helements'.sound.quote,
        Gauge.scan_close (.inr rfl) helements'.sound.quote]
      rfl
  | .grouped inner, g, cs, rest, hg, ⟨c₁, c₂, c₃, hcs, hgap, hinner, hgap'⟩ => by
      have hinner' := inner.measure_goes hg.openBracket
      rw [hcs, Gauge.scan_open (.inl rfl) hg.quote, Gauge.scan_gap hgap hg.openBracket.quote,
        inner.scan_spans hg.openBracket rfl hinner, Gauge.scan_gap hgap' hinner'.sound.quote,
        Gauge.scan_close (.inl rfl) hinner'.sound.quote]
      rfl

/-- Scanning a suffix is measuring it. -/
theorem Suffix.scan_spans : (s : Suffix) → {g : Gauge} → {cs rest : List Char} → g.Sound →
    s.Spans cs rest → g.scan cs = (s.measure g).scan rest
  | .call arguments, g, cs, rest, hg, ⟨c₁, c₂, c₃, hcs, hgap, harguments, hgap'⟩ => by
      -- A bracket: what is inside is scanned from the gauge with one frame more.
      have harguments' := Phrase.measureAll_stays arguments hg.openBracket
      rw [hcs, Gauge.scan_open (.inl rfl) hg.quote, Gauge.scan_gap hgap hg.openBracket.quote,
        Phrase.scan_spanAll arguments hg.openBracket rfl harguments,
        Gauge.scan_gap hgap' harguments'.sound.quote,
        Gauge.scan_close (.inl rfl) harguments'.sound.quote]
      rfl
  | .index property, g, cs, rest, hg, ⟨c₁, c₂, c₃, hcs, hgap, hproperty, hgap'⟩ => by
      have hproperty' := property.measure_goes hg.openBracket
      rw [hcs, Gauge.scan_open (.inr rfl) hg.quote, Gauge.scan_gap hgap hg.openBracket.quote,
        property.scan_spans hg.openBracket rfl hproperty,
        Gauge.scan_gap hgap' hproperty'.sound.quote,
        Gauge.scan_close (.inr rfl) hproperty'.sound.quote]
      rfl
  | .field name, g, cs, rest, hg, ⟨c₁, c₂, hcs, hgap, hname⟩ => by
      obtain ⟨rfl, hchars⟩ := Token.eq_append_of_propertyName hname
      rw [hcs, Gauge.scan_point hg.quote, Gauge.scan_gap hgap hg.quote]
      exact Gauge.scan_read (fun c hc => notMem_special_of_isWordChar (hchars c hc)) hg.quote

/-- Scanning suffixes is measuring them. -/
theorem Suffix.scan_spanAll : (ss : List Suffix) → {g : Gauge} → {cs rest : List Char} → g.Sound →
    Suffix.SpanAll ss cs rest → g.scan cs = (Suffix.measureAll ss g).scan rest
  | [], g, cs, rest, _, h => by
      obtain rfl : cs = rest := h
      rfl
  | s :: ss, g, cs, rest, hg, ⟨c₁, c₂, hgap, hs, hss⟩ => by
      have hs' := s.measure_goes hg
      rw [Gauge.scan_gap hgap hg.quote, s.scan_spans hg hs, Suffix.scan_spanAll ss hs'.sound hss]
      rfl

end

/-! ### Accepted texts -/

/-- How deeply an expression nests as far as the scan can tell. -/
def Phrase.measured (p : Phrase) : Nat := (p.measure .initial).peak

/-- The gauge is sound before any text. -/
theorem Gauge.sound_initial : Gauge.initial.Sound := ⟨rfl, rfl, le_rfl, le_rfl⟩

/-- A text is accepted if the scan lets it pass and the grammar reads an
expression in it. -/
theorem parse_eq_ok_iff {source : String} {limit : Nat} {e : Expr} :
    parse source limit = .ok e ↔
      Nesting.check source limit = .ok () ∧ ∃ p, phraseOf source = .ok p ∧ e = p.tree := by
  unfold parse
  -- The scan comes first, and its error hides what the grammar would say.
  cases Nesting.check source limit with
  | error _ => exact iff_of_false nofun fun h => nomatch h.1
  | ok _ =>
      cases phraseOf source with
      | error _ => exact iff_of_false nofun fun ⟨_, p, hp, _⟩ => nomatch hp
      | ok p =>
          constructor
          · intro h
            exact ⟨rfl, p, rfl, (Except.ok.inj h).symm⟩
          · rintro ⟨-, p', hp, rfl⟩
            cases hp
            rfl

/-- A formula that was read spans the text, up to the spaces around it. -/
theorem spans_of_phraseOf {source : String} {p : Phrase} (hp : phraseOf source = .ok p) :
    ∃ c₁ c₂, Gap source.toList c₁ ∧ p.Spans c₁ c₂ ∧ Gap c₂ [] := by
  unfold phraseOf Grammar.run at hp
  split at hp
  · rename_i p' c a hmain
    cases hp
    obtain ⟨c₁, c₂, hgap, hspans, hgap', -⟩ := Grammar.main_yields _ _ _ _ _ _ hmain
    exact ⟨c₁, c₂, hgap, hspans, hgap'⟩
  · cases hp
  · cases hp

/-- Scanning a text is measuring the expression that is read from it. -/
theorem scan_phraseOf {source : String} {p : Phrase} (hp : phraseOf source = .ok p) :
    Gauge.initial.scan source.toList = p.measure .initial := by
  obtain ⟨c₁, c₂, hgap, hspans, hgap'⟩ := spans_of_phraseOf hp
  -- The spaces around the formula do not move the gauge.
  have hmeasure := p.measure_goes Gauge.sound_initial
  rw [Gauge.scan_gap hgap rfl, p.scan_spans Gauge.sound_initial rfl hspans,
    Gauge.scan_gap hgap' hmeasure.sound.quote]
  rfl

/-- The limit that a text needs is what is measured of its expression. -/
theorem parse_eq_ok_iff_measured_le {source : String} {p : Phrase} {limit : Nat}
    (hp : phraseOf source = .ok p) : parse source limit = .ok p.tree ↔ p.measured ≤ limit := by
  have hcheck : Nesting.check source limit = .ok () ↔ p.measured ≤ limit := by
    rw [check_eq_ok_iff, scan_phraseOf hp]
    rfl
  rw [parse_eq_ok_iff, hcheck]
  exact ⟨fun h => h.1, fun h => ⟨h, p, hp, rfl⟩⟩

end Formula
