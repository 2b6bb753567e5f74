import Formula.Proofs.Evaluation.Lawful
import Formula.Proofs.Syntax.Climbing
import Formula.Proofs.Syntax.Reading

/-!
# `Formula.Proofs.Syntax.Pairing`: reading a text by way of its pairs

The matchers for pairs and those for expressions take the same steps: they
answer alike at every place, and they leave the same attempts. So the
pairs of a text are those of an expression that the grammar reads in it,
and the assembly of pairs meets nothing that it cannot deal with.

* `Matcher.InStep`: two matchers take the same steps, and their values are
  related. Each way of putting matchers together has its rule.
* `Pair.Alone`, `Pair.InRow`: pairs that make the tree of an operand, and
  pairs that stand in a row for signs, operands, suffixes and operators.
  `Pair.Alone.binary` and its like say of each rule what its pair makes of
  the pairs inside of it.
* `expression_inStep`, `main_inStep`: the two readings of the grammar.
* `parseByPairs_eq`: by way of the pairs a text has the tree or the error
  that it has without.
-/

set_option autoImplicit false

namespace Formula

/-! ### Two matchers in step -/

namespace Matcher

variable {α β γ δ : Type}

/-- Two answers to the same effect, with related values. -/
inductive Answers (R : α → β → Prop) : Reply α × Attempts → Reply β × Attempts → Prop
  | matched {x : α} {y : β} (c : Cursor) (a : Attempts) (h : R x y) :
      Answers R (.matched x c, a) (.matched y c, a)
  | failed (a : Attempts) : Answers R (.failed, a) (.failed, a)
  | tooDeep (a : Attempts) : Answers R (.tooDeep, a) (.tooDeep, a)

/-- Two matchers answer to the same effect everywhere. -/
def InStep (R : α → β → Prop) (p : Matcher α) (q : Matcher β) : Prop :=
  ∀ c a, Answers R (p c a) (q c a)

namespace InStep

variable {R R' : α → β → Prop} {S : γ → δ → Prop} {p p' : Matcher α} {q q' : Matcher β}

/-- The relation of the values may be weakened. -/
theorem imp (h : InStep R p q) (hR : ∀ x y, R x y → R' x y) : InStep R' p q := by
  intro c a
  have hpq := h c a
  generalize p c a = r, q c a = r' at hpq
  cases hpq with
  | matched c a hxy => exact .matched c a (hR _ _ hxy)
  | failed a => exact .failed a
  | tooDeep a => exact .tooDeep a

/-- Two related values, and no step at all. -/
theorem pure {x : α} {y : β} (h : R x y) : InStep R (Pure.pure x) (Pure.pure y) :=
  fun c a => .matched c a h

/-- A matcher is in step with itself, and finds equal values. -/
theorem refl (p : Matcher α) : InStep (fun x y => x = y) p p := by
  intro c a
  rcases p c a with ⟨x | _ | _, a'⟩
  · exact .matched _ _ rfl
  · exact .failed _
  · exact .tooDeep _

/-- One step on each side, and then matchers that are in step for related
values. -/
theorem bind {f : α → Matcher γ} {g : β → Matcher δ} (h : InStep R p q)
    (hfg : ∀ x y, R x y → InStep S (f x) (g y)) : InStep S (p >>= f) (q >>= g) := by
  intro c a
  change Answers S (andThen p f c a) (andThen q g c a)
  rw [andThen, andThen]
  have hpq := h c a
  -- The two answers are of the same form, so the two sides go on or stop together.
  generalize p c a = r, q c a = r' at hpq
  cases hpq with
  | matched c a hxy => exact hfg _ _ hxy c a
  | failed a => exact .failed a
  | tooDeep a => exact .tooDeep a

/-- The same step on both sides, and then two matchers in step. -/
theorem same_bind {ε : Type} {p : Matcher ε} {f : ε → Matcher γ} {g : ε → Matcher δ}
    (hfg : ∀ x, InStep S (f x) (g x)) : InStep S (p >>= f) (p >>= g) :=
  (refl p).bind fun x _ hxy => hxy ▸ hfg x

/-- Functions that keep the values related. -/
theorem map {f : α → γ} {g : β → δ} (h : InStep R p q) (hfg : ∀ x y, R x y → S (f x) (g y)) :
    InStep S (f <$> p) (g <$> q) :=
  h.bind fun x y hxy => pure (hfg x y hxy)

/-- A function on the one side only. -/
theorem map_left {f : α → γ} {S : γ → β → Prop} (h : InStep (fun x => S (f x)) p q) :
    InStep S (f <$> p) q := by
  intro c a
  change Answers S (andThen p (fun x => Pure.pure (f x)) c a) _
  rw [andThen]
  have hpq := h c a
  generalize p c a = r, q c a = r' at hpq
  cases hpq with
  | matched c a hxy => exact .matched c a hxy
  | failed a => exact .failed a
  | tooDeep a => exact .tooDeep a

/-- Both sides try their second alternative at the same places. -/
theorem orElse (h : InStep R p q) (h' : InStep R p' q') :
    InStep R (p.orElse p') (q.orElse q') := by
  intro c a
  rw [Matcher.orElse, Matcher.orElse]
  have hpq := h c a
  generalize p c a = r, q c a = r' at hpq
  cases hpq with
  | matched c a hxy => exact .matched c a hxy
  | failed a => exact h' c a
  | tooDeep a => exact .tooDeep a

/-- Lists of alternatives, in step one by one. -/
theorem firstOf {ps : List (Matcher α)} {qs : List (Matcher β)}
    (h : List.Forall₂ (InStep R) ps qs) : InStep R (firstOf ps) (firstOf qs) := by
  induction h with
  | nil => exact fun _ a => .failed a
  | cons h _ ih => exact h.orElse ih

/-- A match that both sides leave out or neither. -/
theorem optional (h : InStep R p q) :
    InStep (Option.Rel R) (optional p) (optional q) :=
  (h.map fun _ _ => .some).orElse (pure .none)

/-- Both sides note the same failed rule. -/
theorem tracked (rule : Rule) (h : InStep R p q) :
    InStep R (tracked rule p) (tracked rule q) := by
  intro c a
  rw [Matcher.tracked, Matcher.tracked]
  have hpq := h c a
  generalize p c a = r, q c a = r' at hpq
  cases hpq with
  | matched c a hxy => exact .matched c a hxy
  | failed a => exact .failed _
  | tooDeep a => exact .tooDeep a

/-- A pair put around the values of the one side. -/
theorem paired {q : Matcher (List Pair)} {S : α → List Pair → Prop} (rule : Rule)
    (h : InStep (fun x inner => ∀ c c', S x [.between rule c c' inner]) p q) :
    InStep S p (paired rule q) := by
  intro c a
  rw [Matcher.paired]
  have hpq := h c a
  generalize p c a = r, q c a = r' at hpq
  cases hpq with
  | matched c' a hinner => exact .matched c' a (hinner c c')
  | failed a => exact .failed a
  | tooDeep a => exact .tooDeep a

/-- Both sides go the same number of rounds. -/
theorem manyAfterSpace (h : InStep R p q) : (fuel : Nat) →
    InStep (List.Forall₂ R) (manyAfterSpace p fuel) (manyAfterSpace q fuel)
  | 0 => pure .nil
  | fuel + 1 => by
      intro c a
      simp only [Matcher.manyAfterSpace]
      have hpq := h (Cursor.skipSpace c) a
      generalize p (Cursor.skipSpace c) a = r, q (Cursor.skipSpace c) a = r' at hpq ⊢
      cases hpq with
      | matched c a hxy => exact (manyAfterSpace h fuel).map (fun _ _ => .cons hxy) c a
      | failed a => exact .matched c a .nil
      | tooDeep a => exact .tooDeep a

/-- A repetition, its first round without spaces before it. -/
theorem many (h : InStep R p q) : InStep (List.Forall₂ R) (many p) (many q) := by
  intro c a
  rw [Matcher.many, Matcher.many]
  have hpq := h c a
  generalize p c a = r, q c a = r' at hpq ⊢
  cases hpq with
  | matched c a hxy => exact (h.manyAfterSpace _).map (fun _ _ => .cons hxy) c a
  | failed a => exact .matched c a .nil
  | tooDeep a => exact .tooDeep a

/-- Matches with commas between them. -/
theorem separated (h : InStep R p q) : InStep (List.Forall₂ R) (separated p) (separated q) := by
  have hnext : InStep R ((char ',').andThen fun _ => skip.andThen fun _ => p)
      ((char ',').andThen fun _ => skip.andThen fun _ => q) :=
    same_bind fun _ => same_bind fun _ => h
  -- A comma, spaces and a match: one round behind the first match.
  intro c a
  rw [Matcher.separated, Matcher.separated]
  have hpq := h c a
  generalize p c a = r, q c a = r' at hpq ⊢
  cases hpq with
  | matched c a hxy =>
      exact same_bind (p := skip) (fun _ => hnext.many.map fun _ _ => .cons hxy) c a
  | failed a => exact .matched c a .nil
  | tooDeep a => exact .tooDeep a

end InStep

end Matcher

/-! ### What pairs stand for -/

namespace Pair

variable {source : String}

/-- A single pair, of a rule for operands, that makes the tree. -/
def Alone (source : String) (e : Expr) (xs : List Pair) : Prop :=
  ∃ x, xs = [x] ∧ x.rule.affix? = none ∧ x.node source = pure e

/-- Pairs that stand in a row for the pieces. -/
def InRow (source : String) (row : List Piece) (xs : List Pair) : Prop :=
  RowPlayedBy row (items source xs)

/-- The text of a pair is what the cursor has moved over. -/
theorem between_text (rule : Rule) {c c' : Cursor} {text : List Char} (inner : List Pair)
    (h : c.rest = text ++ c'.rest) :
    between rule c c' inner = .mk rule ⟨c.offset, c'.offset⟩ text inner := by
  rw [between, h, List.length_append, Nat.add_sub_cancel, List.take_left]

/-- The items of pairs are told one after the other. -/
theorem items_append (xs ys : List Pair) :
    items source (xs ++ ys) = items source xs ++ items source ys := by
  induction xs with
  | nil => rfl
  | cons x xs ih => rw [List.cons_append, items, items, ih, List.cons_append]

/-- Two rows in a row. -/
theorem InRow.append {row row' : List Piece} {xs ys : List Pair} (h : InRow source row xs)
    (h' : InRow source row' ys) : InRow source (row ++ row') (xs ++ ys) := by
  rw [InRow, items_append]
  exact List.rel_append h h'

/-- The rows of some values, one after the other, are a row. -/
theorem InRow.flatten {α : Type} {pieces : α → List Piece} {values : List α}
    {xss : List (List Pair)} (h : List.Forall₂ (fun v => InRow source (pieces v)) values xss) :
    InRow source (values.flatMap pieces) xss.flatten := by
  induction h with
  | nil => exact .nil
  | cons h _ ih =>
      rw [List.flatMap_cons, List.flatten_cons]
      exact h.append ih

/-- A pair that makes a tree is an operand in a row. -/
theorem Alone.inRow {e : Expr} {xs : List Pair} (h : Alone source e xs) :
    InRow source [.value e] xs := by
  obtain ⟨x, rfl, hrule, hnode⟩ := h
  exact .cons ⟨hrule, hnode⟩ .nil

/-- The trees of expressions that stand each in a pair of its own. -/
theorem nodes_flatten {ps : List Phrase} {xss : List (List Pair)}
    (h : List.Forall₂ (fun p => Alone source p.tree) ps xss) :
    nodes source xss.flatten = pure (Phrase.trees ps) := by
  induction h with
  | nil => rfl
  | cons h _ ih =>
      obtain ⟨x, rfl, -, hnode⟩ := h
      rw [List.flatten_cons, List.singleton_append, nodes, hnode, ih, Phrase.trees]
      rfl

section Rules

variable {c c' : Cursor} {inner : List Pair}

/-- The pair of an array makes the array of the trees inside. -/
theorem Alone.array {elements : List Phrase}
    (h : nodes source inner = pure (Phrase.trees elements)) :
    Alone source (Primary.array elements).tree [between .array c c' inner] := by
  refine ⟨_, rfl, rfl, ?_⟩
  simp only [between, node, h, Primary.tree]
  rfl

/-- The pair of a call is a suffix that calls with the trees inside. -/
theorem InRow.call {arguments : List Phrase}
    (h : nodes source inner = pure (Phrase.trees arguments)) :
    InRow source [.suffix (.call arguments)] [between .call c c' inner] := by
  refine .cons ⟨rfl, fun e => ?_⟩ .nil
  simp only [between, suffixed, h, Suffix.over, Phrase.trees_eq_map]
  rfl

/-- The pair of an index is a suffix that looks up the tree inside. -/
theorem InRow.index {property : Phrase} (h : Alone source property.tree inner) :
    InRow source [.suffix (.index property)] [between .index c c' inner] := by
  obtain ⟨x, rfl, -, hnode⟩ := h
  refine .cons ⟨rfl, fun e => ?_⟩ .nil
  simp only [between, suffixed, hnode, Suffix.over]
  rfl

/-- The pair of a field is a suffix that looks up the name inside. -/
theorem InRow.field {x : Pair} {name : String} (h : String.ofList x.text = name) :
    InRow source [.suffix (.field name)] [between .field c c' [x]] := by
  subst h
  exact .cons ⟨rfl, fun e => rfl⟩ .nil

/-- The pair of a chain makes the tree that its row is climbed to. -/
theorem Alone.binary {chain : Chain} (h : InRow source chain.pieces inner) :
    Alone source chain.tree [between .binary c c' inner] :=
  ⟨_, rfl, rfl, climbRow_pieces chain h⟩

/-- An expression without branches makes the tree of its operands. -/
theorem Alone.plain {e : Expr} (h : Alone source e inner) :
    Alone source e [between .expression c c' inner] := by
  obtain ⟨x, rfl, -, hnode⟩ := h
  exact ⟨_, rfl, rfl, hnode⟩

/-- With branches the pair of an expression holds three, the test before
both of them. -/
theorem Alone.conditional {test consequent alternate : Expr} {xs ys zs : List Pair}
    (htest : Alone source test xs) (hconsequent : Alone source consequent ys)
    (halternate : Alone source alternate zs) :
    Alone source (.conditional test consequent alternate)
      [between .expression c c' (xs ++ (ys ++ zs))] := by
  obtain ⟨x, rfl, -, hx⟩ := htest
  obtain ⟨y, rfl, -, hy⟩ := hconsequent
  obtain ⟨z, rfl, -, hz⟩ := halternate
  refine ⟨_, rfl, rfl, ?_⟩
  simp only [List.cons_append, List.nil_append, between, node, hx, hy, hz]
  rfl

/-- A whole formula makes the tree of its expression; what follows the
expression is not looked at. -/
theorem Alone.main {e : Expr} {xs ys : List Pair} (h : Alone source e xs) :
    Alone source e [between .main c c' (xs ++ ys)] := by
  obtain ⟨x, rfl, -, hnode⟩ := h
  exact ⟨_, rfl, rfl, hnode⟩

end Rules

end Pair

/-! ### The two readings of the grammar -/

/-- A pair of an operator between operands binds as its operator does. -/
theorem Rule.affix?_of_mem_operatorRules : ∀ entry ∈ Grammar.operatorRules, ∀ o ∈ entry.2,
    entry.1.affix? = some (.between, o.power) := by
  decide

namespace PairGrammar

open Matcher Pair

variable {source : String}

/-- A token and its pair. -/
theorem leaf_inStep {α : Type} {p : Matcher α} {S : α → List Pair → Prop} (rule : Rule)
    (h : p.Yields fun value cs rest =>
      ∃ text, cs = text ++ rest ∧ ∀ span, S value [.mk rule span text []]) :
    InStep S p (leaf rule p) := by
  intro c a
  change Answers S _ (paired rule (p.andThen fun _ => Pure.pure []) c a)
  rw [paired, andThen]
  rcases hstep : p c a with ⟨value | _ | _, a'⟩
  · obtain ⟨text, htext, hvalue⟩ := h _ _ _ _ _ hstep
    refine .matched _ _ ?_
    rw [between_text rule [] htext]
    exact hvalue _
  · exact .failed a'
  · exact .tooDeep a'

/-- The pair of a sign has the text of its symbol. -/
theorem unaryOperator_inStep :
    InStep (fun o => InRow source [.sign o]) Grammar.unaryOperator unaryOperator := by
  refine leaf_inStep .unary (Grammar.unaryOperator_yields.imp fun o cs rest h => ?_)
  exact ⟨o.symbol.toList, h, fun span => .cons ⟨rfl, String.ofList_toList⟩ .nil⟩

/-- The pair of an operator has the rule of its group and the text of its
symbol. -/
theorem binaryOperator_inStep :
    InStep (fun o => InRow source [.operator o]) Grammar.binaryOperator binaryOperator := by
  refine .firstOf (List.forall₂_map_left_iff.2 (List.forall₂_map_right_iff.2
    (List.forall₂_same.2 fun entry hentry => ?_)))
  refine leaf_inStep entry.1 ((Grammar.operatorToken_yields entry).imp fun o cs rest h => ?_)
  have hrule := Rule.affix?_of_mem_operatorRules entry hentry o h.1
  exact ⟨o.symbol.toList, h.2, fun span => .cons ⟨hrule, String.ofList_toList⟩ .nil⟩

/-- A primary expression that is a single token. -/
theorem token_inStep {α : Type} {rule : Rule} {scan : Token.Scanner α} {f : α → Primary}
    (hrule : rule.affix? = none)
    (h : ∀ value cs rest, scan cs = some (value, rest) → ∃ text, cs = text ++ rest ∧
      ∀ span, (Pair.mk rule span text []).node source = pure (f value).tree) :
    InStep (fun e => Alone source e.tree) (f <$> token rule scan)
      (leaf rule (f <$> token rule scan)) := by
  refine leaf_inStep rule (((Yields.token rule scan).map f).imp ?_)
  rintro _ cs rest ⟨value, rfl, hscan⟩
  obtain ⟨text, hcs, hnode⟩ := h value cs rest hscan
  exact ⟨text, hcs, fun span => ⟨_, rfl, hrule, hnode span⟩⟩

/-- Every text of the rule for numbers is a numeral. -/
theorem number_inStep :
    InStep (fun e => Alone source e.tree) Grammar.number (leaf .number Grammar.number) := by
  refine token_inStep rfl fun text cs rest h => ⟨text, Token.eq_append_of_number h, fun span => ?_⟩
  obtain ⟨d, hd, -⟩ := Token.decimal_of_number h
  simp only [Pair.node, Number.ofChars?_of_decimal hd, Primary.tree, Number.ofNumeral_of_decimal hd]

/-- The pair of a string has both quotes in its text, which the assembly
takes off. -/
theorem string_inStep :
    InStep (fun e => Alone source e.tree) Grammar.string (leaf .string Grammar.string) := by
  refine token_inStep rfl fun s cs rest h => ?_
  obtain ⟨quote, body, rfl, rfl, hquote⟩ := Token.eq_append_of_string h
  refine ⟨quote :: (body ++ [quote]), by simp, fun span => ?_⟩
  have hbody : unquoted? (quote :: (body ++ [quote])) = some body := by
    -- Taking off the quotes counts bytes, and either quote is one byte long.
    have hsize : quote.utf8Size = 1 := by rcases hquote with rfl | rfl <;> rfl
    simp [unquoted?, hsize]
  simp only [Pair.node, hbody, Primary.tree]

/-- The pair of a truth value has one of the two words. -/
theorem boolean_inStep :
    InStep (fun e => Alone source e.tree) Grammar.boolean (leaf .boolean Grammar.boolean) := by
  refine token_inStep rfl fun b cs rest h => ?_
  rcases Token.eq_append_of_boolean h with ⟨hcs, rfl⟩ | ⟨hcs, rfl⟩
  · exact ⟨_, hcs, fun span => rfl⟩
  · exact ⟨_, hcs, fun span => rfl⟩

/-- The pair of the word for null. -/
theorem null_inStep :
    InStep (fun e => Alone source e.tree) Grammar.null (leaf .null Grammar.null) :=
  token_inStep rfl fun _ _ _ h => ⟨_, Token.eq_append_of_word h, fun _ => rfl⟩

/-- The pair of the word for the whole context. -/
theorem this_inStep :
    InStep (fun e => Alone source e.tree) Grammar.this (leaf .this Grammar.this) :=
  token_inStep rfl fun _ _ _ h => ⟨_, Token.eq_append_of_word h, fun _ => rfl⟩

/-- The pair of an identifier has its name. -/
theorem identifier_inStep :
    InStep (fun e => Alone source e.tree) Grammar.identifier
      (leaf .identifier Grammar.identifier) := by
  refine token_inStep rfl fun name cs rest h =>
    ⟨_, (Token.eq_append_of_identifier h).1, fun _ => ?_⟩
  simp only [Pair.node, String.ofList_toList, Primary.tree]

section

variable {nested : Matcher Phrase} {pairs : Matcher (List Pair)}
  (hnested : InStep (fun p => Alone source p.tree) nested pairs)

include hnested

/-- Between brackets both sides go from comma to comma. -/
theorem bracketed_inStep (opening closing : Char) :
    InStep (fun ps xs => nodes source xs = pure (Phrase.trees ps))
      (Grammar.bracketed nested opening closing) (bracketed pairs opening closing) :=
  .same_bind fun _ => .same_bind fun _ => hnested.separated.bind fun _ _ h =>
    .same_bind fun _ => .same_bind fun _ => .pure (nodes_flatten h)

/-- An array is noted as a rule and gets a pair of its own. -/
theorem array_inStep :
    InStep (fun e => Alone source e.tree) (Grammar.array nested) (array pairs) :=
  .map_left (.paired .array (.tracked .array
    ((bracketed_inStep hnested '[' ']').imp fun _ _ h _ _ => .array h)))

/-- A group gets no pair: what is inside stands for it. -/
theorem grouped_inStep :
    InStep (fun e => Alone source e.tree) (Grammar.grouped nested) (grouped pairs) :=
  .same_bind fun _ => .same_bind fun _ => hnested.bind fun _ _ h =>
    .same_bind fun _ => .same_bind fun _ => .pure h

/-- The eight kinds of primary expressions, in the order of both grammars. -/
theorem primary_inStep :
    InStep (fun e => Alone source e.tree) (Grammar.primary nested) (primary pairs) :=
  .firstOf (.cons number_inStep (.cons string_inStep (.cons boolean_inStep (.cons null_inStep
    (.cons this_inStep (.cons identifier_inStep (.cons (array_inStep hnested)
      (.cons (grouped_inStep hnested) .nil))))))))

/-- A call gets a pair of its own. -/
theorem call_inStep :
    InStep (fun s => InRow source [.suffix s]) (Grammar.call nested) (call pairs) :=
  .map_left (.paired .call (.tracked .call
    ((bracketed_inStep hnested '(' ')').imp fun _ _ h _ _ => .call h)))

/-- An index gets a pair of its own. -/
theorem index_inStep :
    InStep (fun s => InRow source [.suffix s]) (Grammar.index nested) (index pairs) :=
  .paired .index (.tracked .index (.same_bind fun _ => .same_bind fun _ =>
    hnested.bind fun _ _ h => .same_bind fun _ => .same_bind fun _ =>
    .pure fun _ _ => .index h))

omit hnested in
/-- A field has the pair of its name inside its own. -/
theorem field_inStep :
    InStep (fun s => InRow source [.suffix s]) Grammar.field field := by
  have hname : InStep (fun name xs => ∃ x, xs = [x] ∧ String.ofList x.text = name)
      Grammar.propertyName (leaf .propertyName Grammar.propertyName) := by
    refine leaf_inStep _ ((Yields.token _ _).imp fun name cs rest h => ?_)
    exact ⟨name.toList, (Token.eq_append_of_propertyName h).1, fun _ =>
      ⟨_, rfl, String.ofList_toList⟩⟩
  refine .paired .field (.tracked .field (.same_bind fun _ => .same_bind fun _ =>
    .map_left (hname.imp ?_)))
  rintro name _ ⟨x, rfl, h⟩ c c'
  exact .field h

/-- The three kinds of suffixes. -/
theorem suffix_inStep :
    InStep (fun s => InRow source [.suffix s]) (Grammar.suffix nested) (suffix pairs) :=
  .firstOf (.cons (call_inStep hnested) (.cons (index_inStep hnested) (.cons field_inStep .nil)))

/-- An operand gets no pair: its signs, its primary expression and its
suffixes join the row. -/
theorem operand_inStep :
    InStep (fun e => InRow source e.pieces) (Grammar.operand nested) (operand pairs) := by
  have hsign : InStep (fun o => InRow source [.sign o]) Grammar.unaryOperator unaryOperator :=
    unaryOperator_inStep
  refine hsign.many.bind fun signs _ hsigns => .same_bind fun _ =>
    (primary_inStep hnested).bind fun e _ he => .same_bind fun _ =>
    (suffix_inStep hnested).many.bind fun suffixes _ hsuffixes => .pure ?_
  -- The pieces of an operand are signs, value, suffixes, in this order.
  have hrow := ((InRow.flatten hsigns).append he.inRow).append (InRow.flatten hsuffixes)
  rw [← List.map_eq_flatMap, ← List.map_eq_flatMap, List.append_assoc] at hrow
  exact hrow

/-- An operator and its right operand join the row as well. -/
theorem operation_inStep :
    InStep (fun x => InRow source (operationPieces x)) (Grammar.operation nested)
      (operation pairs) :=
  binaryOperator_inStep.bind fun _ _ ho => .same_bind fun _ =>
    (operand_inStep hnested).bind fun _ _ hright => .pure (ho.append hright)

/-- A chain gets a pair, with the whole row inside. -/
theorem binary_inStep :
    InStep (fun chain => Alone source chain.tree) (Grammar.binary nested) (binary pairs) :=
  .paired .binary (.tracked .binary ((operand_inStep hnested).bind fun _ _ hfirst =>
    .same_bind fun _ => (operation_inStep hnested).many.bind fun _ _ hrest =>
    .pure fun _ _ => .binary (hfirst.append (InRow.flatten hrest))))

/-- The branches are two expressions, one after the other. -/
theorem branches_inStep :
    InStep (fun b xs => ∃ ys zs, xs = ys ++ zs ∧ Alone source b.1.tree ys ∧
        Alone source b.2.tree zs) (Grammar.branches nested) (branches pairs) :=
  .same_bind fun _ => .same_bind fun _ => hnested.bind fun _ ys hconsequent =>
    .same_bind fun _ => .same_bind fun _ => .same_bind fun _ =>
    hnested.bind fun _ zs halternate => .pure ⟨ys, zs, rfl, hconsequent, halternate⟩

/-- One level of the grammar is in step if the deeper one is. -/
theorem expressionOver_inStep :
    InStep (fun p => Alone source p.tree) (Grammar.expressionOver nested)
      (expressionOver pairs) := by
  refine .paired .expression (.tracked .expression ((binary_inStep hnested).bind
    fun test _ htest => .same_bind fun _ => (branches_inStep hnested).optional.bind
    fun _ _ hbranches => ?_))
  cases hbranches with
  | none =>
      refine .pure fun c c' => ?_
      rw [Option.getD_none, List.append_nil]
      exact htest.plain
  | some hbranches =>
      obtain ⟨ys, zs, rfl, hconsequent, halternate⟩ := hbranches
      exact .pure fun c c' => htest.conditional hconsequent halternate

/-- A formula, and the pair of the end behind its expression. -/
theorem mainOver_inStep :
    InStep (fun p => Alone source p.tree) (Grammar.mainOver nested) (mainOver pairs) := by
  -- The end is matched with no text, and its pair stands for nothing.
  have hend : InStep (fun _ _ => True) Grammar.endOfInput
      (leaf .endOfInput Grammar.endOfInput) := by
    refine leaf_inStep _ ((Yields.token _ _).imp fun _ cs rest h => ?_)
    split at h
    · cases h
      exact ⟨[], rfl, fun _ => trivial⟩
    · cases h
  exact .paired .main (.tracked .main (.same_bind fun _ => hnested.bind fun _ _ h =>
    .same_bind fun _ => hend.bind fun _ _ _ => .pure fun _ _ => h.main))

end

/-- Expressions are in step with their pairs, by induction on the nesting. -/
theorem expression_inStep : (nesting : Nat) →
    InStep (fun p => Alone source p.tree) (Grammar.expression nesting) (expression nesting)
  | 0 => fun _ a => .tooDeep a
  | nesting + 1 => expressionOver_inStep (expression_inStep nesting)

/-- Formulas are in step with their pairs. -/
theorem main_inStep (nesting : Nat) :
    InStep (fun p => Alone source p.tree) (Grammar.main nesting) (main nesting) :=
  mainOver_inStep (expression_inStep nesting)

end PairGrammar

/-- By way of its pairs every text has the tree, or the error, that it has
without: no pair misses another, none is of an unknown rule, every number
is a numeral, and in every row of operands and operators each is in its
place. -/
theorem parseByPairs_eq (source : String) (limit : Nat) :
    parseByPairs source limit = .given (parse source limit) := by
  rw [parseByPairs, parse]
  rcases Nesting.check source limit with e | ⟨⟩
  · rfl
  have hstep : Matcher.InStep (fun (p : Phrase) => Pair.Alone source p.tree) _ _ :=
    PairGrammar.main_inStep (Grammar.enoughNesting source)
  -- Both readings at the start of the text, so that the answers are of one form.
  have hmain := hstep (Grammar.startOf source) .none
  rw [phraseOf, Grammar.run, Grammar.run]
  generalize Grammar.main (Grammar.enoughNesting source) (Grammar.startOf source) .none = r,
    PairGrammar.main (Grammar.enoughNesting source) (Grammar.startOf source) .none = r' at hmain ⊢
  cases hmain with
  | matched c a h =>
      obtain ⟨x, rfl, -, hnode⟩ := h
      exact hnode
  | failed a => rfl
  | tooDeep a => rfl

end Formula
