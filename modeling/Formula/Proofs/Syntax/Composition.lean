import Mathlib
import Formula.Proofs.Syntax.Embedding
import Formula.Proofs.Syntax.Lifting
import Formula.Proofs.Syntax.Reading
import Formula.Value.Text

/-!
# `Formula.Proofs.Syntax.Composition`: texts put together

A text that is read as a tree can be put into parentheses, brackets or a
list, and the larger text is read as the larger tree, whatever the text
looks like. A closing bracket or a comma ends what is spelled before it
(`Phrase.spans_append`), what is spelled is read (`phraseOf_eq_ok_iff`),
and inside of brackets an expression nests as it does by itself
(`Phrase.peak_measure_le`).

* `Composite`: the ways to put texts together, each with its text and its
  tree.
* `parse_composite`: a composite of accepted texts is accepted with two
  levels more, and its tree is the composite of their trees.
-/

set_option autoImplicit false

namespace Formula

open Nesting

/-! ### Composites -/

/-- A word, with a meaning of its own or without: a character that can
begin one, and characters that can stand inside one. -/
def Token.IsWord (name : String) : Prop :=
  ∃ c cs, name.toList = c :: cs ∧ isWordStart c = true ∧ ∀ d ∈ cs, isWordChar d = true

/-- A word is read as the name of a property. -/
theorem Token.IsWord.propertyName {name : String} (h : IsWord name) :
    propertyName name.toList = some (name, []) := by
  obtain ⟨c, cs, hname, hc, hcs⟩ := h
  have htake : cs.takeWhile isWordChar = cs := List.takeWhile_eq_self_iff.2 hcs
  have hdrop : cs.dropWhile isWordChar = [] := List.dropWhile_eq_nil_iff.2 hcs
  rw [hname, Token.propertyName, if_pos hc, htake, hdrop, ← hname, String.ofList_toList]

/-- A text and the tree that it is to be read as. -/
structure Part where
  text : String
  tree : Expr

/-- The ways to put texts together. Every part stands in parentheses,
brackets or a list. -/
inductive Composite where
  | grouped (inner : Part)
  | operation (operator : BinaryOperator) (left right : Part)
  | signed (operator : UnaryOperator) (argument : Part)
  | conditional (test consequent alternate : Part)
  | list (elements : List Part)
  | call (callee : Part) (arguments : List Part)
  | index (object property : Part)
  | field (object : Part) (name : String) (isWord : Token.IsWord name)

namespace Composite

/-- The texts of some parts, with commas between them. -/
def enumerated (parts : List Part) : String := Value.joined ", " (parts.map Part.text)

/-- The text of a composite. -/
def text : Composite → String
  | .grouped inner => "(" ++ inner.text ++ ")"
  | .operation o left right => "(" ++ left.text ++ ") " ++ o.symbol ++ " (" ++ right.text ++ ")"
  | .signed o argument => o.symbol ++ "(" ++ argument.text ++ ")"
  | .conditional test consequent alternate =>
    "(" ++ test.text ++ ") ? (" ++ consequent.text ++ ") : (" ++ alternate.text ++ ")"
  | .list elements => "[" ++ enumerated elements ++ "]"
  | .call callee arguments => "(" ++ callee.text ++ ")(" ++ enumerated arguments ++ ")"
  | .index object property => "(" ++ object.text ++ ")[" ++ property.text ++ "]"
  | .field object name _ => "(" ++ object.text ++ ")." ++ name

/-- The tree of a composite. Parentheses leave no trace in it. -/
def tree : Composite → Expr
  | .grouped inner => inner.tree
  | .operation o left right => .infixed o.symbol left.tree right.tree
  | .signed o argument => .unary o.symbol argument.tree
  | .conditional test consequent alternate =>
    .conditional test.tree consequent.tree alternate.tree
  | .list elements => .array (elements.map Part.tree)
  | .call callee arguments => .call callee.tree (arguments.map Part.tree)
  | .index object property => .index object.tree property.tree
  | .field object name _ => .field object.tree name

/-- The parts of a composite. -/
def parts : Composite → List Part
  | .grouped inner => [inner]
  | .operation _ left right => [left, right]
  | .signed _ argument => [argument]
  | .conditional test consequent alternate => [test, consequent, alternate]
  | .list elements => elements
  | .call callee arguments => callee :: arguments
  | .index object property => [object, property]
  | .field object _ _ => [object]

end Composite

/-! ### Depths within a limit -/

/-- No deeper than `k` at the moment, and nowhere deeper than `n`. -/
structure Gauge.Below (k n : Nat) (g : Gauge) : Prop where
  sound : g.Sound
  depth : g.state.depth ≤ k
  peak : g.peak ≤ n

variable {k n d : Nat} {g g' : Gauge}

namespace Gauge.Below

/-- The gauge before any text is below every limit. -/
theorem initial : Gauge.initial.Below 0 n := ⟨sound_initial, le_rfl, Nat.zero_le n⟩

/-- What opens one level at the most. -/
theorem raise (hg : g.Below k n) (h : g.Goes g') (hdepth : g'.state.depth ≤ g.state.depth + 1)
    (hpeak : g'.peak ≤ max g.peak (g.state.depth + 1)) (hk : k + 1 ≤ n) : g'.Below (k + 1) n := by
  have hle := hg.depth
  have hle' := hg.peak
  exact ⟨h.sound, by omega, by omega⟩

/-- A sign is one level. -/
theorem openPrefix (hg : g.Below k n) (hk : k + 1 ≤ n) :
    (g.raise .openPrefix).Below (k + 1) n :=
  hg.raise (.openPrefix hg.sound) le_rfl le_rfl hk

/-- A question mark is one level. -/
theorem openConditional (hg : g.Below k n) (hk : k + 1 ≤ n) :
    (g.raise .openConditional).Below (k + 1) n := by
  have hdepth : (g.raise .openConditional).state.depth ≤ g.state.depth + 1 :=
    Nat.succ_le_succ (Nat.sub_le _ _)
  exact hg.raise (.openConditional hg.sound) hdepth (max_le_max le_rfl hdepth) hk

/-- An operator is none. -/
theorem operator (hg : g.Below k n) : (g.move .operator).Below k n :=
  ⟨(Goes.operator hg.sound).sound, (Nat.sub_le _ _).trans hg.depth, hg.peak⟩

/-- An operator between operands may be taken for a sign, which is one
level. -/
theorem operate (hg : g.Below k n) (hk : k + 1 ≤ n) (o : BinaryOperator) :
    (g.operate o).Below (k + 1) n := by
  unfold Gauge.operate
  split
  · exact hg.openPrefix hk
  · exact ⟨hg.operator.sound, hg.operator.depth.trans (Nat.le_succ k), hg.operator.peak⟩

/-- A text that means nothing to the scan is no level. -/
theorem read (hg : g.Below k n) (text : List Char) : (g.move (·.read text)).Below k n :=
  ⟨(Goes.read hg.sound text).sound, hg.depth, hg.peak⟩

/-- A closed bracket, if what is in it stays within the limit. -/
theorem closeBracket (hg : g.Below k n) (h : (g.raise .openBracket).Stays g')
    (hpeak : g'.peak ≤ n) : (g'.move .closeBracket).Below k n := by
  have hsound := (Goes.bracket hg.sound h).sound
  rw [h.closeBracket hg.sound] at hsound ⊢
  exact ⟨hsound, hg.depth, hpeak⟩

/-- An expression between brackets. -/
theorem bracket {p : Phrase} (hg : g.Below k n) (hp : p.measured ≤ d) (hk : k + 1 + d ≤ n) :
    ((p.measure (g.raise .openBracket)).move .closeBracket).Below k n := by
  refine hg.closeBracket (p.measure_goes hg.sound.openBracket).toStays ?_
  have hpeak : (p.measure (g.raise .openBracket)).peak
      ≤ max (max g.peak (g.state.depth + 1)) (g.state.depth + 1 + p.measured) :=
    p.peak_measure_le hg.sound.openBracket rfl rfl
  have hdepth := hg.depth
  have hle := hg.peak
  omega

/-- Expressions between brackets. -/
theorem brackets {ps : List Phrase} (hg : g.Below k n) (hps : ∀ p ∈ ps, p.measured ≤ d)
    (hk : k + 1 + d ≤ n) :
    ((Phrase.measureAll ps (g.raise .openBracket)).move .closeBracket).Below k n := by
  refine hg.closeBracket (Phrase.measureAll_stays ps hg.sound.openBracket) ?_
  have hpeak : (Phrase.measureAll ps (g.raise .openBracket)).peak
      ≤ max (max g.peak (g.state.depth + 1)) (g.state.depth + 1 + d) :=
    Phrase.peak_measureAll_le hg.sound.openBracket rfl rfl ps hps
  have hdepth := hg.depth
  have hle := hg.peak
  omega

end Gauge.Below

/-! ### Parts between brackets -/

/-- The text is read as the phrase, which has the tree and nests within the
limit as far as that is measured. -/
structure ReadAs (d : Nat) (text : String) (tree : Expr) (p : Phrase) : Prop where
  read : phraseOf text = .ok p
  tree : p.tree = tree
  measured : p.measured ≤ d

/-- A text is accepted if there is an expression that it is read as. -/
theorem parse_eq_ok_iff_readAs {text : String} {tree : Expr} :
    parse text d = .ok tree ↔ ∃ p, ReadAs d text tree p := by
  constructor
  · intro h
    obtain ⟨-, p, hp, rfl⟩ := parse_eq_ok_iff.1 h
    exact ⟨p, hp, rfl, (parse_eq_ok_iff_measured_le hp).1 h⟩
  · rintro ⟨p, hp, rfl, hmeasured⟩
    exact (parse_eq_ok_iff_measured_le hp).2 hmeasured

/-- The part is read as the phrase. -/
def Part.ReadAs (d : Nat) (part : Part) (p : Phrase) : Prop :=
  Formula.ReadAs d part.text part.tree p

/-- The parts of a list are read one by one. -/
theorem Part.exists_readAs_all {parts : List Part}
    (h : ∀ part ∈ parts, parse part.text d = .ok part.tree) :
    ∃ ps, List.Forall₂ (Part.ReadAs d) parts ps := by
  induction parts with
  | nil => exact ⟨[], .nil⟩
  | cons part parts ih =>
      obtain ⟨p, hp⟩ := parse_eq_ok_iff_readAs.1 (h part List.mem_cons_self)
      obtain ⟨ps, hps⟩ := ih fun part' h' => h part' (List.mem_cons_of_mem part h')
      exact ⟨p :: ps, .cons hp hps⟩

/-- Of accepted parts no more is measured than the limit. -/
theorem Part.measured_of_readAs {parts : List Part} {ps : List Phrase}
    (h : List.Forall₂ (Part.ReadAs d) parts ps) : ∀ p ∈ ps, p.measured ≤ d := by
  induction h with
  | nil => exact nofun
  | cons hp _ ih => exact List.forall_mem_cons.2 ⟨hp.measured, ih⟩

/-- Accepted parts are read as their trees. -/
theorem Part.trees_of_readAs {parts : List Part} {ps : List Phrase}
    (h : List.Forall₂ (Part.ReadAs d) parts ps) : Phrase.trees ps = parts.map Part.tree := by
  induction h with
  | nil => rfl
  | cons hp _ ih => rw [Phrase.trees, List.map_cons, hp.tree, ih]

section

variable {text : String} {tree : Expr} {p : Phrase}

/-- A text up to a closing bracket or a comma. -/
theorem ReadAs.spans (h : ReadAs d text tree p) {t : List Char} (ht : Stops t) :
    ∃ c₁ c₂, Gap (text.toList ++ t) c₁ ∧ p.Spans c₁ c₂ ∧ Gap c₂ t := by
  obtain ⟨c₁, c₂, hgap, hspans, hgap'⟩ := spans_of_phraseOf h.read
  exact ⟨c₁ ++ t, c₂ ++ t, hgap.append t, p.spans_append ht hspans, hgap'.append t⟩

/-- A text in parentheses is a primary expression. -/
theorem ReadAs.grouped (h : ReadAs d text tree p) (t : List Char) :
    (Primary.grouped p).Spans ('(' :: (text.toList ++ ')' :: t)) t := by
  obtain ⟨c₁, c₂, hgap, hspans, hgap'⟩ := h.spans ⟨')', t, rfl, by decide⟩
  exact ⟨_, c₁, c₂, rfl, hgap, hspans, hgap'⟩

/-- A text in square brackets is a suffix. -/
theorem ReadAs.index (h : ReadAs d text tree p) (t : List Char) :
    (Suffix.index p).Spans ('[' :: (text.toList ++ ']' :: t)) t := by
  obtain ⟨c₁, c₂, hgap, hspans, hgap'⟩ := h.spans ⟨']', t, rfl, by decide⟩
  exact ⟨_, c₁, c₂, rfl, hgap, hspans, hgap'⟩

end

/-- A single space is a gap. -/
theorem gap_space (cs : List Char) : Gap (' ' :: cs) cs := ⟨[' '], rfl, forall_mem_of_all rfl⟩

/-- Texts with commas between them, up to a closing bracket. -/
theorem Part.spanAll_of_readAs {parts : List Part} {ps : List Phrase}
    (h : List.Forall₂ (Part.ReadAs d) parts ps) {t : List Char} (ht : Stops t) :
    ∃ c₁ c₂, Gap ((Composite.enumerated parts).toList ++ t) c₁ ∧ Phrase.SpanAll ps c₁ c₂ ∧
      Gap c₂ t := by
  -- With a first part, the others go on with a comma before each.
  have hcons : ∀ {parts : List Part} {part : Part} {p : Phrase} {ps : List Phrase},
      part.ReadAs d p → List.Forall₂ (Part.ReadAs d) parts ps →
      ∃ c₁ c₂ c₃, Gap ((Composite.enumerated (part :: parts)).toList ++ t) c₁ ∧ p.Spans c₁ c₂ ∧
        Phrase.SpanMore ps c₂ c₃ ∧ Gap c₃ t := by
    intro parts
    induction parts with
    | nil =>
        intro part p ps hp hps
        cases hps
        obtain ⟨c₁, c₂, hgap, hspans, hgap'⟩ := Formula.ReadAs.spans hp ht
        exact ⟨c₁, c₂, c₂, hgap, hspans, rfl, hgap'⟩
    | cons part' parts ih =>
        intro part p ps hp hps
        cases hps with
        | cons hp' hps =>
            obtain ⟨c₃, c₄, c₅, hgap, hspans, hmore, hgap'⟩ := ih hp' hps
            have hcomma : Stops (',' :: ' ' ::
                ((Composite.enumerated (part' :: parts)).toList ++ t)) := ⟨_, _, rfl, by decide⟩
            obtain ⟨c₁, c₂, hgap₁, hspans₁, hgap₂⟩ := Formula.ReadAs.spans hp hcomma
            have htext : (Composite.enumerated (part :: part' :: parts)).toList ++ t
                = part.text.toList ++
                  ',' :: ' ' :: ((Composite.enumerated (part' :: parts)).toList ++ t) := by
              simp [Composite.enumerated, Value.joined, String.toList_append]
            exact ⟨c₁, c₂, c₅, htext ▸ hgap₁, hspans₁,
              ⟨_, c₃, c₄, hgap₂, (gap_space _).trans hgap, hspans, hmore⟩, hgap'⟩
  cases h with
  | nil => exact ⟨t, t, .refl t, rfl, .refl t⟩
  | cons hp hps =>
      obtain ⟨c₁, c₂, c₃, hgap, hspans, hmore, hgap'⟩ := hcons hp hps
      exact ⟨c₁, c₃, hgap, ⟨c₂, c₂, hspans, .refl c₂, hmore⟩, hgap'⟩

/-! ### Composites are read -/

/-- A phrase of a single operand. -/
def Phrase.single (e : Operand) : Phrase := .plain (.mk e [])

/-- An expression in parentheses, with signs and suffixes. -/
def Operand.group (signs : List UnaryOperator) (p : Phrase) (suffixes : List Suffix) : Operand :=
  .mk signs (.grouped p) suffixes

/-- An operand by itself is an expression. -/
theorem Phrase.spans_single {e : Operand} {cs : List Char} (h : e.Spans cs []) :
    (Phrase.single e).Spans cs [] :=
  ⟨[], ⟨[], [], h, .refl [], rfl⟩, .refl []⟩

/-- A text is read as an expression that it spells and that stays below the
limit. -/
theorem ReadAs.of_spans {text : String} {tree : Expr} {p : Phrase} {cs : List Char}
    (hcs : text.toList = cs) (h : p.Spans cs []) (htree : p.tree = tree)
    (hp : (p.measure .initial).Below k d) : ReadAs d text tree p :=
  ⟨phraseOf_eq_ok_iff.2 ⟨cs, [], hcs ▸ .refl _, h, .refl []⟩, htree, hp.peak⟩

/-- With a single operator there is nothing to split. -/
theorem assemble_single (o : BinaryOperator) (left right : Expr) :
    assemble left [(o, right)] = .infixed o.symbol left right := by
  cases o <;> rfl

namespace Composite

variable {part part₁ part₂ part₃ : Part} {parts : List Part} {p p₁ p₂ p₃ : Phrase}
  {ps : List Phrase}

/-- The operand that a part in parentheses is. -/
theorem spans_group (h : part.ReadAs d p) (t : List Char) :
    (Operand.group [] p []).Spans ('(' :: (part.text.toList ++ ')' :: t)) t :=
  ⟨_, _, t, t, rfl, .refl _, h.grouped t, .refl t, rfl⟩

/-- A part in parentheses with a suffix. -/
theorem spans_group_suffix (h : part.ReadAs d p) {s : Suffix} {t : List Char}
    (hs : s.Spans t []) :
    (Phrase.single (.group [] p [s])).Spans ('(' :: (part.text.toList ++ ')' :: t)) [] :=
  Phrase.spans_single ⟨_, _, t, t, rfl, .refl _, h.grouped t, .refl t, t, [], .refl t, hs, rfl⟩

/-- A part in parentheses. -/
theorem grouped_readAs (h : part.ReadAs d p) :
    ReadAs (d + 2) (grouped part).text (grouped part).tree (.single (.group [] p [])) := by
  refine .of_spans ?_ (Phrase.spans_single (spans_group h [])) h.tree
    (Gauge.Below.initial.bracket h.measured (by omega))
  simp [text, String.toList_append]

/-- An operator between two parts in parentheses. -/
theorem operation_readAs (o : BinaryOperator) (h₁ : part₁.ReadAs d p₁) (h₂ : part₂.ReadAs d p₂) :
    ReadAs (d + 2) (operation o part₁ part₂).text (operation o part₁ part₂).tree
      (.plain (.mk (.group [] p₁ []) [(o, .group [] p₂ [])])) := by
  have hleft := spans_group h₁
    (' ' :: (o.symbol.toList ++ ' ' :: '(' :: (part₂.text.toList ++ [')'])))
  have hright := spans_group h₂ []
  have hbelow := Gauge.Below.initial.bracket (n := d + 2) h₁.measured (by omega)
  refine .of_spans ?_ ⟨[], ⟨_, _, hleft, gap_space _, _, _, [], .refl _, gap_space _, hright, rfl⟩,
    .refl []⟩ ?_ ((hbelow.operate (by omega) o).bracket h₂.measured (by omega))
  · simp [text, String.toList_append]
  · exact (assemble_single o p₁.tree p₂.tree).trans
      (congrArg₂ (Expr.infixed o.symbol) h₁.tree h₂.tree)

/-- A sign before a part in parentheses. -/
theorem signed_readAs (o : UnaryOperator) (h : part.ReadAs d p) :
    ReadAs (d + 2) (signed o part).text (signed o part).tree (.single (.group [o] p [])) := by
  have hgroup := h.grouped []
  have hbelow := Gauge.Below.initial.openPrefix (n := d + 2) (by omega)
  refine .of_spans ?_ (Phrase.spans_single ⟨_, _, [], [], ⟨_, .refl _, rfl⟩, .refl _, hgroup,
    .refl [], rfl⟩) (congrArg (Expr.unary o.symbol) h.tree) (hbelow.bracket h.measured (by omega))
  simp [text, String.toList_append]

/-- A conditional of three parts in parentheses. -/
theorem conditional_readAs (h₁ : part₁.ReadAs d p₁) (h₂ : part₂.ReadAs d p₂)
    (h₃ : part₃.ReadAs d p₃) :
    ReadAs (d + 2) (conditional part₁ part₂ part₃).text (conditional part₁ part₂ part₃).tree
      (.conditional (.mk (.group [] p₁ []) []) (.single (.group [] p₂ []))
        (.single (.group [] p₃ []))) := by
  have halternate := spans_group h₃ []
  have hconsequent := spans_group h₂ (' ' :: ':' :: ' ' :: '(' :: (part₃.text.toList ++ [')']))
  have htest := spans_group h₁ (' ' :: '?' :: ' ' :: '(' :: (part₂.text.toList ++
    ')' :: ' ' :: ':' :: ' ' :: '(' :: (part₃.text.toList ++ [')'])))
  -- The question mark opens a level, and each branch has its brackets within it.
  have hbelow := Gauge.Below.initial.bracket (n := d + 2) h₁.measured (by omega)
  have hbelow' := (hbelow.openConditional (by omega)).bracket h₂.measured (by omega)
  refine .of_spans ?_ ⟨_, _, _, _, _, _, ⟨_, _, htest, .refl _, rfl⟩, gap_space _, gap_space _,
    ⟨_, ⟨_, _, hconsequent, .refl _, rfl⟩, .refl _⟩, gap_space _, gap_space _,
    Phrase.spans_single halternate⟩ ?_ (hbelow'.operator.bracket h₃.measured (by omega))
  · simp [text, String.toList_append]
  · show Expr.conditional p₁.tree p₂.tree p₃.tree = _
    rw [h₁.tree, h₂.tree, h₃.tree]
    rfl

/-- A list of parts. -/
theorem list_readAs (h : List.Forall₂ (Part.ReadAs d) parts ps) :
    ReadAs (d + 2) (list parts).text (list parts).tree (.single (.mk [] (.array ps) [])) := by
  obtain ⟨c₁, c₂, hgap, hspans, hgap'⟩ := Part.spanAll_of_readAs h ⟨']', [], rfl, by decide⟩
  refine .of_spans ?_ (Phrase.spans_single ⟨_, _, [], [], rfl, .refl _, ⟨_, c₁, c₂, rfl, hgap,
    hspans, hgap'⟩, .refl [], rfl⟩) (congrArg Expr.array (Part.trees_of_readAs h))
    (Gauge.Below.initial.brackets (Part.measured_of_readAs h) (by omega))
  simp [text, String.toList_append]

/-- A call of a part in parentheses, with parts as arguments. -/
theorem call_readAs (h : part.ReadAs d p) (hs : List.Forall₂ (Part.ReadAs d) parts ps) :
    ReadAs (d + 2) (call part parts).text (call part parts).tree
      (.single (.group [] p [.call ps])) := by
  obtain ⟨c₁, c₂, hgap, hspans, hgap'⟩ := Part.spanAll_of_readAs hs ⟨')', [], rfl, by decide⟩
  have hbelow := Gauge.Below.initial.bracket (n := d + 2) h.measured (by omega)
  refine .of_spans ?_ (spans_group_suffix h ⟨_, c₁, c₂, rfl, hgap, hspans, hgap'⟩)
    (congrArg₂ Expr.call h.tree (Part.trees_of_readAs hs))
    (hbelow.brackets (Part.measured_of_readAs hs) (by omega))
  simp [text, String.toList_append]

/-- A part in parentheses, indexed by another. -/
theorem index_readAs (h₁ : part₁.ReadAs d p₁) (h₂ : part₂.ReadAs d p₂) :
    ReadAs (d + 2) (index part₁ part₂).text (index part₁ part₂).tree
      (.single (.group [] p₁ [.index p₂])) := by
  have hbelow := Gauge.Below.initial.bracket (n := d + 2) h₁.measured (by omega)
  refine .of_spans ?_ (spans_group_suffix h₁ (h₂.index []))
    (congrArg₂ Expr.index h₁.tree h₂.tree) (hbelow.bracket h₂.measured (by omega))
  simp [text, String.toList_append]

/-- A field of a part in parentheses. -/
theorem field_readAs (h : part.ReadAs d p) {name : String} (hname : Token.IsWord name) :
    ReadAs (d + 2) (field part name hname).text (field part name hname).tree
      (.single (.group [] p [.field name])) := by
  have hbelow := Gauge.Below.initial.bracket (n := d + 2) h.measured (by omega)
  refine .of_spans ?_ (spans_group_suffix h ⟨_, _, rfl, .refl _, hname.propertyName⟩)
    (congrArg (Expr.field · name) h.tree) (hbelow.read name.toList)
  simp [text, String.toList_append]

end Composite

/-- Texts that are accepted can be put together: the text of the composite
is accepted with two levels more, and read as the composite of the
trees. -/
theorem parse_composite (composite : Composite) (limit : Nat)
    (hparts : ∀ part ∈ composite.parts, parse part.text limit = .ok part.tree) :
    parse composite.text (limit + 2) = .ok composite.tree := by
  rw [parse_eq_ok_iff_readAs]
  -- Every part is read as an expression, and the composite as the one put together from them.
  cases composite with
  | grouped inner =>
      obtain ⟨p, hp⟩ := parse_eq_ok_iff_readAs.1 (hparts inner (by simp [Composite.parts]))
      exact ⟨_, Composite.grouped_readAs hp⟩
  | operation o left right =>
      obtain ⟨p₁, h₁⟩ := parse_eq_ok_iff_readAs.1 (hparts left (by simp [Composite.parts]))
      obtain ⟨p₂, h₂⟩ := parse_eq_ok_iff_readAs.1 (hparts right (by simp [Composite.parts]))
      exact ⟨_, Composite.operation_readAs o h₁ h₂⟩
  | signed o argument =>
      obtain ⟨p, hp⟩ := parse_eq_ok_iff_readAs.1 (hparts argument (by simp [Composite.parts]))
      exact ⟨_, Composite.signed_readAs o hp⟩
  | conditional test consequent alternate =>
      obtain ⟨p₁, h₁⟩ := parse_eq_ok_iff_readAs.1 (hparts test (by simp [Composite.parts]))
      obtain ⟨p₂, h₂⟩ := parse_eq_ok_iff_readAs.1 (hparts consequent (by simp [Composite.parts]))
      obtain ⟨p₃, h₃⟩ := parse_eq_ok_iff_readAs.1 (hparts alternate (by simp [Composite.parts]))
      exact ⟨_, Composite.conditional_readAs h₁ h₂ h₃⟩
  | list elements =>
      obtain ⟨ps, hps⟩ := Part.exists_readAs_all hparts
      exact ⟨_, Composite.list_readAs hps⟩
  | call callee arguments =>
      obtain ⟨p, hp⟩ := parse_eq_ok_iff_readAs.1 (hparts callee (by simp [Composite.parts]))
      obtain ⟨ps, hps⟩ := Part.exists_readAs_all fun part h =>
        hparts part (List.mem_cons_of_mem callee h)
      exact ⟨_, Composite.call_readAs hp hps⟩
  | index object property =>
      obtain ⟨p₁, h₁⟩ := parse_eq_ok_iff_readAs.1 (hparts object (by simp [Composite.parts]))
      obtain ⟨p₂, h₂⟩ := parse_eq_ok_iff_readAs.1 (hparts property (by simp [Composite.parts]))
      exact ⟨_, Composite.index_readAs h₁ h₂⟩
  | field object name isWord =>
      obtain ⟨p, hp⟩ := parse_eq_ok_iff_readAs.1 (hparts object (by simp [Composite.parts]))
      exact ⟨_, Composite.field_readAs hp isWord⟩

/-- A conditional is called with a string that closes brackets and with a
member whose name is a keyword. -/
def Composite.conditionalCall : Composite :=
  .call ⟨"a ? f : g", .conditional (.identifier "a") (.identifier "f") (.identifier "g")⟩
    [⟨"\")]\"", .literal (.string ")]")⟩, ⟨"x . null", .field (.identifier "x") "null"⟩]

/-- Each part is accepted with one level, and the call with three. -/
theorem parse_composite_conditionalCall :
    Composite.conditionalCall.text = "(a ? f : g)(\")]\", x . null)" ∧
      parse Composite.conditionalCall.text 3 = .ok Composite.conditionalCall.tree := by
  have hcallee : parse "a ? f : g" 1
      = .ok (.conditional (.identifier "a") (.identifier "f") (.identifier "g")) := by cbv
  have hstring : parse "\")]\"" 1 = .ok (.literal (.string ")]")) := by cbv
  have hmember : parse "x . null" 1 = .ok (.field (.identifier "x") "null") := by cbv
  have hparts : ∀ part ∈ Composite.conditionalCall.parts, parse part.text 1 = .ok part.tree :=
    List.forall_mem_cons.2 ⟨hcallee, List.forall_mem_cons.2 ⟨hstring,
      List.forall_mem_singleton.2 hmember⟩⟩
  exact ⟨by decide, parse_composite Composite.conditionalCall 1 hparts⟩

end Formula
