import Formula.Proofs.Evaluation.Invariance
import Formula.Proofs.Host.Failing
import Formula.Proofs.Number.Decimal
import Formula.Proofs.Syntax.Built
import Formula.Proofs.Syntax.Composition

/-!
# `Formula.Proofs.Evaluation.Lawful`: every operator of a text has a meaning

Evaluation looks the operators of a tree up by their symbols, and a symbol
may be without a meaning. The grammar takes the symbols from the table that
evaluation looks them up in, and keeps to the shape that evaluation expects
of a tree. So no evaluation of a tree that was read from a text comes to an
operator without a meaning.

* `Expr.Lawful`: what evaluation expects of a node.
* `Token.decimal_of_number`: a number in a text is a numeral without a sign,
  so its value is a number and not negative.
* `Phrase.tree_lawful`: all nodes are lawful in the tree of an expression
  that a text spans, one case for each construct.
* `EvalError.KnowsOperators`: the errors that can be left.
* `parse_lawful`: the tree of any text is lawful, and no evaluation of it
  fails for the want of an operator.
-/

set_option autoImplicit false

namespace Formula

/-! ### Numerals -/

/-- Digits on at least one side of a point, or without a point. -/
theorem Token.shape_of_mantissa {cs m rest : List Char} (h : mantissa cs = some (m, rest)) :
    ∃ whole fraction point, m = whole ++ point ∧ (∀ d ∈ whole, d.isDigit = true) ∧
      (∀ d ∈ fraction, d.isDigit = true) ∧ (whole ≠ [] ∨ fraction ≠ []) ∧
      (point = [] ∧ fraction = [] ∨ point = '.' :: fraction) := by
  unfold mantissa at h
  -- Without digits first there is a point and digits behind it. With digits the point may be
  -- missing.
  rcases hdigits : digits cs with _ | ⟨whole, rest'⟩ <;> rw [hdigits] at h <;> dsimp only at h
  · split at h
    · obtain ⟨⟨fraction, rest'⟩, hfraction, hpair⟩ := Option.map_eq_some_iff.1 h
      obtain ⟨-, hne, hdigit⟩ := eq_append_of_digits hfraction
      obtain ⟨rfl, -⟩ := Prod.mk.inj hpair
      exact ⟨[], fraction, _, rfl, nofun, hdigit, .inr hne, .inr rfl⟩
    · cases h
  · obtain ⟨-, hne, hwhole⟩ := eq_append_of_digits hdigits
    split at h
    · rename_i heq
      obtain ⟨rfl, rfl⟩ := Prod.mk.inj (Option.some.inj heq)
      obtain ⟨rfl, -⟩ := Prod.mk.inj (Option.some.inj h)
      exact ⟨_, _, _, rfl, hwhole, List.all_eq_true.1 List.all_takeWhile, .inl hne, .inr rfl⟩
    · rename_i heq
      obtain ⟨rfl, rfl⟩ := Prod.mk.inj (Option.some.inj heq)
      obtain ⟨rfl, -⟩ := Prod.mk.inj (Option.some.inj h)
      exact ⟨_, [], [], (List.append_nil _).symm, hwhole, nofun, .inl hne, .inl ⟨rfl, rfl⟩⟩
    · rename_i heq
      cases heq

/-- A power of ten at the end of a numeral. -/
theorem Token.exponentOfChars?_of_exponent {cs e rest : List Char}
    (h : exponent cs = some (e, rest)) : ∃ n, Decimal.exponentOfChars? e = some n := by
  obtain ⟨c, sign, ds, -, rfl, hletter, hsign, hne, hds⟩ := eq_append_of_exponent h
  exact ⟨_, Decimal.exponentOfChars?_of_parts hletter hsign hne hds⟩

/-- A number in a text is a numeral without a sign. -/
theorem Token.decimal_of_number {cs text rest : List Char} (h : number cs = some (text, rest)) :
    ∃ d, Decimal.ofChars? text = some d ∧ d.negative = false := by
  -- A numeral is a mantissa and an exponent, which is empty where none is written.
  have hparts : ∃ m e, text = m ++ e ∧ (∃ rest', mantissa cs = some (m, rest')) ∧
      ∃ n, Decimal.exponentOfChars? e = some n := by
    unfold number at h
    split at h
    · cases h
    · rename_i m rest' hmantissa
      split at h
      · rename_i e rest'' hexponent
        obtain ⟨rfl, -⟩ := Prod.mk.inj (Option.some.inj h)
        exact ⟨m, e, rfl, ⟨_, hmantissa⟩, exponentOfChars?_of_exponent hexponent⟩
      · obtain ⟨rfl, -⟩ := Prod.mk.inj (Option.some.inj h)
        exact ⟨m, [], (List.append_nil m).symm, ⟨_, hmantissa⟩, 0, rfl⟩
  obtain ⟨m, e, rfl, ⟨_, hmantissa⟩, ⟨n, hexponent⟩⟩ := hparts
  obtain ⟨whole, fraction, point, rfl, hwhole, hfraction, hne, hpoint⟩ :=
    shape_of_mantissa hmantissa
  rw [List.append_assoc]
  exact ⟨_, Decimal.ofChars?_of_parts (.inl rfl) hwhole hfraction hne hpoint hexponent, rfl⟩

/-- The value of a number in a text. -/
theorem Number.ofNumeral_of_number {cs text rest : List Char}
    (h : Token.number cs = some (text, rest)) :
    (Number.ofNumeral text).isNaN = false ∧ (Number.ofNumeral text).isNegative = false := by
  obtain ⟨d, hd, hsign⟩ := Token.decimal_of_number h
  rw [Number.ofNumeral_of_decimal hd]
  exact ⟨d.isNaN_toNumber, d.isNegative_toNumber.trans hsign⟩

/-! ### Words -/

/-- A name that is read is a word. -/
theorem Token.isWord_of_propertyName {cs rest : List Char} {name : String}
    (h : propertyName cs = some (name, rest)) : IsWord name := by
  cases cs with
  | nil => cases h
  | cons c cs =>
      rw [propertyName] at h
      split at h
      · rename_i hstart
        obtain ⟨rfl, -⟩ := Prod.mk.inj (Option.some.inj h)
        exact ⟨c, _, String.toList_ofList, hstart, List.all_eq_true.1 List.all_takeWhile⟩
      · cases h

/-- A text at the front of a longer one. -/
theorem Token.dropText?_front : (text rest : List Char) →
    dropText? text (text ++ rest) = some rest
  | [], _ => rfl
  | t :: ts, rest => by
      rw [List.cons_append, dropText?, if_pos rfl]
      exact dropText?_front ts rest

/-- A name is a word without a meaning of its own. -/
theorem Token.isWord_of_identifier {cs rest : List Char} {name : String}
    (h : identifier cs = some (name, rest)) : IsWord name ∧ name ∉ keywords := by
  rw [identifier] at h
  split at h
  · cases h
  · rename_i hkeyword
    refine ⟨isWord_of_propertyName h, fun hname => ?_⟩
    -- A keyword that is followed by no word character would have been found.
    obtain ⟨hcs, -⟩ := eq_append_of_propertyName h
    have hends : wordEnds rest = true := by
      cases cs with
      | nil => cases h
      | cons c cs =>
          rw [propertyName] at h
          split at h
          · obtain ⟨-, rfl⟩ := Prod.mk.inj (Option.some.inj h)
            rcases hrest : cs.dropWhile isWordChar with _ | ⟨d, ds⟩
            · rfl
            · have hd := List.head?_dropWhile_not isWordChar cs
              rw [hrest] at hd
              simpa [wordEnds] using hd
          · cases h
    have hfound : word name cs = some ((), rest) := by
      rw [word, hcs, dropText?_front]
      exact if_pos hends
    rw [keyword, List.findSome?_eq_none_iff] at hkeyword
    exact absurd (hkeyword name hname) (by rw [hfound]; exact Option.some_ne_none _)

/-! ### Lawful trees -/

/-- What evaluation expects of a node: an operator with a meaning in the
constructor that fits it, a property that is computed or a name, names that
are words without a meaning of their own, and numbers that need no sign. -/
def Expr.Lawful : Expr → Prop
  | .literal (.number n) => n.isNaN = false ∧ n.isNegative = false
  | .identifier name => Token.IsWord name ∧ name ∉ Token.keywords
  | .unary operator _ => operator ∈ ["-", "+", "!", "~"]
  | .binary operator _ _ => ∃ o : BinaryOperator, o.isLogical = false ∧ operator = o.symbol
  | .logical operator _ _ => operator = "&&" ∨ operator = "||"
  | .member _ property computed =>
    computed = false → ∃ name, property = .identifier name ∧ Token.IsWord name
  | .unknown => False
  | _ => True

/-- All nodes of a tree are lawful. -/
def Expr.AllLawful (e : Expr) : Prop := ∀ n ∈ e.nodes, n.Lawful

/-- All nodes of trees are lawful. -/
def Expr.EachLawful (es : List Expr) : Prop := ∀ n ∈ Expr.nodesOfEach es, n.Lawful

/-- A node on its own. -/
theorem Expr.allLawful_leaf {e : Expr} (hnodes : e.nodes = [e]) (he : e.Lawful) : e.AllLawful := by
  intro n hn
  rw [hnodes] at hn
  exact List.mem_singleton.1 hn ▸ he

/-- A sign of the language over a lawful tree. -/
theorem Expr.AllLawful.unary {operator : String} {argument : Expr}
    (hoperator : operator ∈ ["-", "+", "!", "~"]) (hargument : argument.AllLawful) :
    (Expr.unary operator argument).AllLawful :=
  List.forall_mem_cons.2 ⟨hoperator, hargument⟩

/-- An operator of the language between lawful trees. -/
theorem Expr.AllLawful.infixed (o : BinaryOperator) {left right : Expr} (hleft : left.AllLawful)
    (hright : right.AllLawful) : (Expr.infixed o.symbol left right).AllLawful := by
  have hboth : ∀ n ∈ left.nodes ++ right.nodes, n.Lawful := fun n hn =>
    (List.mem_append.1 hn).elim (hleft n) (hright n)
  unfold Expr.infixed
  -- The lazy operators make logical nodes, and all others binary ones.
  split
  · rename_i hlogical
    exact List.forall_mem_cons.2 ⟨hlogical, hboth⟩
  · rename_i hstrict
    refine List.forall_mem_cons.2 ⟨⟨o, ?_, rfl⟩, hboth⟩
    cases o with
    | or => exact absurd (.inr rfl) hstrict
    | and => exact absurd (.inl rfl) hstrict
    | _ => rfl

/-- Signs over a lawful tree. -/
theorem signed_lawful (signs : List UnaryOperator) {e : Expr} (he : e.AllLawful) :
    (signed signs e).AllLawful := by
  induction signs with
  | nil => exact he
  | cons o signs ih => exact .unary (by cases o <;> decide) ih

/-- The operands after the first one are lawful. -/
def Tail.AllLawful (rest : Tail) : Prop := ∀ entry ∈ rest, entry.2.AllLawful

/-- Merging one level makes lawful trees of lawful ones. -/
theorem mergeLevel_lawful (level : Nat) {left : Expr} {rest : Tail} (hleft : left.AllLawful)
    (hrest : rest.AllLawful) : (mergeLevel level left rest).1.AllLawful ∧
      Tail.AllLawful (mergeLevel level left rest).2 := by
  induction rest generalizing left with
  | nil => exact ⟨hleft, hrest⟩
  | cons entry rest ih =>
      rcases entry with ⟨o, right⟩
      obtain ⟨hright, hrest⟩ := List.forall_mem_cons.1 hrest
      rw [mergeLevel]
      split
      · exact ih (.infixed o hleft hright) hrest
      · obtain ⟨hnext, hmore⟩ := ih hright hrest
        exact ⟨hleft, List.forall_mem_cons.2 ⟨hnext, hmore⟩⟩

/-- So does assembling a chain. -/
theorem assemble_lawful {first : Expr} {rest : Tail} (hfirst : first.AllLawful)
    (hrest : rest.AllLawful) : (assemble first rest).AllLawful := by
  obtain ⟨_, hassemble, _⟩ := assemble_keeps (S := fun e rest => e.AllLawful ∧ rest.AllLawful)
    (fun level _ _ h => mergeLevel_lawful level h.1 h.2) ⟨hfirst, hrest⟩
  exact hassemble

/-! ### Trees of texts -/

/-- A numeral makes a lawful literal. -/
theorem Expr.allLawful_number {cs text rest : List Char} (h : Token.number cs = some (text, rest)) :
    (Expr.literal (.number (.ofNumeral text))).AllLawful :=
  allLawful_leaf rfl (Number.ofNumeral_of_number h)

/-- An index is computed, so any lawful tree will do for it. -/
theorem Expr.AllLawful.index {object property : Expr} (hobject : object.AllLawful)
    (hproperty : property.AllLawful) : (Expr.index object property).AllLawful := by
  have hname : property.staticName? true = none := by cases property <;> rfl
  refine List.forall_mem_cons.2 ⟨nofun, fun n hn => ?_⟩
  rw [hname] at hn
  exact (List.mem_append.1 hn).elim (hobject n) (hproperty n)

/-- A field is not computed, and its name is a word. -/
theorem Expr.AllLawful.field {object : Expr} (hobject : object.AllLawful) {name : String}
    (hname : Token.IsWord name) : (Expr.field object name).AllLawful := by
  refine List.forall_mem_cons.2 ⟨fun _ => ⟨name, rfl, hname⟩, fun n hn => ?_⟩
  exact (List.mem_append.1 hn).elim (hobject n) nofun

mutual

/-- The tree of an expression that a text spans is lawful. -/
theorem Phrase.tree_lawful : (p : Phrase) → {cs rest : List Char} → p.Spans cs rest →
    p.tree.AllLawful
  | .plain chain, _, _, ⟨_, hchain, _⟩ => chain.tree_lawful hchain
  | .conditional test consequent alternate, _, _,
      ⟨_, _, _, _, _, _, htest, _, _, hconsequent, _, _, halternate⟩ => by
      have htest := test.tree_lawful htest
      have hconsequent := consequent.tree_lawful hconsequent
      have halternate := alternate.tree_lawful halternate
      refine List.forall_mem_cons.2 ⟨trivial, List.forall_mem_append.2
        ⟨List.forall_mem_append.2 ⟨htest, hconsequent⟩, halternate⟩⟩

/-- The trees of expressions with commas before each. -/
theorem Phrase.trees_lawful_more : (ps : List Phrase) → {cs rest : List Char} →
    Phrase.SpanMore ps cs rest → Expr.EachLawful (Phrase.trees ps)
  | [], _, _, _ => nofun
  | p :: ps, _, _, ⟨_, _, _, _, _, hp, hps⟩ =>
      List.forall_mem_append.2 ⟨p.tree_lawful hp, Phrase.trees_lawful_more ps hps⟩

/-- The trees of expressions with commas between them. -/
theorem Phrase.trees_lawful : (ps : List Phrase) → {cs rest : List Char} →
    Phrase.SpanAll ps cs rest → Expr.EachLawful (Phrase.trees ps)
  | [], _, _, _ => nofun
  | p :: ps, _, _, ⟨_, _, hp, _, hps⟩ =>
      List.forall_mem_append.2 ⟨p.tree_lawful hp, Phrase.trees_lawful_more ps hps⟩

/-- The tree of a chain. -/
theorem Chain.tree_lawful : (c : Chain) → {cs rest : List Char} → c.Spans cs rest →
    c.tree.AllLawful
  | .mk first more, _, _, ⟨_, _, hfirst, _, hmore⟩ =>
      assemble_lawful (first.tree_lawful hfirst) (Chain.tail_lawful more hmore)

/-- The trees of the right operands. -/
theorem Chain.tail_lawful : (more : List (BinaryOperator × Operand)) → {cs rest : List Char} →
    Chain.SpanMore more cs rest → (Chain.tail more).AllLawful
  | [], _, _, _ => nofun
  | (_, right) :: more, _, _, ⟨_, _, _, _, _, hright, hmore⟩ =>
      List.forall_mem_cons.2 ⟨right.tree_lawful hright, Chain.tail_lawful more hmore⟩

/-- The tree of an operand. -/
theorem Operand.tree_lawful : (e : Operand) → {cs rest : List Char} → e.Spans cs rest →
    e.tree.AllLawful
  | .mk signs primary suffixes, _, _, ⟨_, _, _, _, _, _, hprimary, _, hsuffixes⟩ =>
      signed_lawful signs
        (Suffix.applyAll_lawful suffixes hsuffixes (primary.tree_lawful hprimary))

/-- The tree of a primary expression. -/
theorem Primary.tree_lawful : (e : Primary) → {cs rest : List Char} → e.Spans cs rest →
    e.tree.AllLawful
  | .number _, _, _, h => Expr.allLawful_number h
  | .string _, _, _, _ => Expr.allLawful_leaf rfl trivial
  | .boolean _, _, _, _ => Expr.allLawful_leaf rfl trivial
  | .null, _, _, _ => Expr.allLawful_leaf rfl trivial
  | .this, _, _, _ => Expr.allLawful_leaf rfl trivial
  | .identifier _, _, _, h => Expr.allLawful_leaf rfl (Token.isWord_of_identifier h)
  | .array elements, _, _, ⟨_, _, _, _, _, helements, _⟩ =>
      List.forall_mem_cons.2 ⟨trivial, Phrase.trees_lawful elements helements⟩
  | .grouped inner, _, _, ⟨_, _, _, _, _, hinner, _⟩ => inner.tree_lawful hinner

/-- The tree of a suffix over a lawful object. -/
theorem Suffix.apply_lawful : (s : Suffix) → {cs rest : List Char} → s.Spans cs rest →
    {object : Expr} → object.AllLawful → (s.apply object).AllLawful
  | .call arguments, _, _, ⟨_, _, _, _, _, harguments, _⟩, _, hobject =>
      List.forall_mem_cons.2 ⟨trivial, List.forall_mem_append.2
        ⟨hobject, Phrase.trees_lawful arguments harguments⟩⟩
  | .index property, _, _, ⟨_, _, _, _, _, hproperty, _⟩, _, hobject =>
      hobject.index (property.tree_lawful hproperty)
  | .field _, _, _, ⟨_, _, _, _, hname⟩, _, hobject =>
      hobject.field (Token.isWord_of_propertyName hname)

/-- The tree of suffixes over a lawful object. -/
theorem Suffix.applyAll_lawful : (ss : List Suffix) → {cs rest : List Char} →
    Suffix.SpanAll ss cs rest → {object : Expr} → object.AllLawful →
    (Suffix.applyAll ss object).AllLawful
  | [], _, _, _, _, hobject => hobject
  | s :: ss, _, _, ⟨_, _, _, hs, hss⟩, _, hobject =>
      Suffix.applyAll_lawful ss hss (s.apply_lawful hs hobject)

end

/-- The tree of a text is lawful, whatever the limit it is read under. -/
theorem allLawful_of_parse {source : String} {limit : Nat} {e : Expr}
    (hparse : parse source limit = .ok e) : e.AllLawful := by
  obtain ⟨-, p, hp, rfl⟩ := parse_eq_ok_iff.1 hparse
  obtain ⟨_, _, -, hspans, -⟩ := spans_of_phraseOf hp
  exact p.tree_lawful hspans

/-! ### Evaluations that know their operators -/

/-- An error other than that an operator is without a meaning. -/
def EvalError.KnowsOperators (e : EvalError) : Prop := ∀ operator, e ≠ .unknownOperator operator

/-- A host whose functions do not fail for the want of an operator. -/
def Host.KnowsOperators {σ : Type} (h : Host σ) : Prop :=
  ∀ f receiver arguments s e, (h.respond f receiver arguments s).1 = .error e → e.KnowsOperators

/-- The operator of a lawful node has a meaning. -/
theorem Expr.Lawful.operatorFails {e : Expr} (he : e.Lawful) :
    e.OperatorFails EvalError.KnowsOperators := by
  have hbinary : ∀ (o : BinaryOperator) error, binaryOperator o.symbol ≠ .error error := by
    intro o error
    cases o <;> exact nofun
  -- Only nodes with an operator can fail by it, and the operators of lawful ones are known.
  cases e with
  | unary operator argument =>
      have hunary : ∀ operator ∈ ["-", "+", "!", "~"], ∃ o, unaryOperator operator = .ok o := by
        simp only [List.forall_mem_cons]
        exact ⟨⟨_, rfl⟩, ⟨_, rfl⟩, ⟨_, rfl⟩, ⟨_, rfl⟩, nofun⟩
      obtain ⟨o, ho⟩ := hunary operator he
      intro error herror
      rw [ho] at herror
      cases herror
  | binary operator left right =>
      obtain ⟨o, -, rfl⟩ := he
      exact fun error herror => absurd herror (hbinary o error)
  | logical operator left right =>
      intro hor hand
      exact absurd he (not_or_intro hand hor)
  | _ => trivial

/-- A host that knows its operators never makes an evaluation fail for the
want of one. -/
theorem Host.KnowsOperators.invariance {σ : Type} {h : Host σ} (hh : h.KnowsOperators) :
    Invariance h EvalError.KnowsOperators (fun _ => True) (fun e _ => e.KnowsOperators) := by
  have hanswer : ∀ f receiver arguments (w : World σ),
      Settled (fun _ => True) (fun e _ => e.KnowsOperators)
        (w.respond h f receiver arguments).1 (w.respond h f receiver arguments).2 := by
    intro f receiver arguments w
    rcases hrun : w.respond h f receiver arguments with ⟨_ | value, w'⟩
    · exact hh f receiver arguments w.toStore _ (congrArg Prod.fst hrun)
    · trivial
  -- Every error but that of an operator is none of an unknown one; calls are left to the host.
  exact {
    fresh := fun _ _ => trivial
    called := fun _ _ _ _ _ _ => trivial
    completed := fun f receiver arguments _ _ _ => hanswer f receiver arguments _
    answered := fun f receiver arguments _ _ _ => hanswer f receiver arguments _
    own := fun _ _ he _ => he
    stackOverflow := fun _ _ => nofun
    nullish := fun _ _ => nofun
    asyncInSync := nofun }

/-- A ready-made function fails with a message of its own, or because it reads
a property of undefined or null. -/
theorem Registry.knowsOperators (r : Registry) : r.host.KnowsOperators := by
  intro f receiver arguments s e he
  obtain ⟨property, base, rfl⟩ | ⟨message, rfl⟩ := Registry.eq_of_respond_error he <;> exact nofun

/-- The tree of a text is lawful; and whatever the context and the limit of
depth, no evaluation of it fails because an operator is without a meaning,
unless a function of the host says so. -/
theorem parse_lawful {source : String} {limit : Nat} {e : Expr}
    (hparse : parse source limit = .ok e) :
    (∀ n ∈ e.nodes, n.Lawful) ∧
      ∀ {σ : Type} (h : Host σ), h.KnowsOperators → ∀ ctx maxDepth w operator,
        (evaluate h ctx maxDepth e w).1 ≠ .error (.unknownOperator operator) ∧
        ((evaluateInRounds h ctx maxDepth e).run w).1 ≠ .error (.unknownOperator operator) ∧
        (evaluateMember h ctx maxDepth e w).1 ≠ .error (.unknownOperator operator) ∧
        ((evaluateMemberInRounds h ctx maxDepth e).run w).1
          ≠ .error (.unknownOperator operator) := by
  have hlawful := allLawful_of_parse hparse
  refine ⟨hlawful, fun {σ} h hh ctx maxDepth w operator => ?_⟩
  have hknown : ∀ {α : Type} {outcome : Except EvalError α} {w : World σ},
      Settled (fun _ => True) (fun e _ => e.KnowsOperators) outcome w →
      outcome ≠ .error (.unknownOperator operator) := by
    rintro α outcome w hsettled rfl
    exact hsettled operator rfl
  have hfails : ∀ n ∈ e.nodes, n.OperatorFails EvalError.KnowsOperators :=
    fun n hn => (hlawful n hn).operatorFails
  obtain ⟨h₁, h₂, h₃, h₄⟩ := hh.invariance.settled ctx maxDepth hfails (w := w) trivial
  exact ⟨hknown h₁, hknown h₂, hknown h₃, hknown h₄⟩

/-- A sign, a word with a meaning of its own as the name of a member, a number
that begins with its point, and both kinds of operators. -/
theorem parse_lawful_mixed :
    let h := Registry.host #[⟨"tick", .counter, 2, false⟩]
    let ctx : Context := ⟨⟨0, [("f", .function ⟨0, true⟩)]⟩, none⟩
    let e : Expr := .logical "||"
      (.binary "+" (.unary "-" (.member (.identifier "a") (.identifier "null") false))
        (.literal (.number (.ofNumeral ".5".toList))))
      (.unary "!" (.call (.identifier "f") [.identifier "b"]))
    parse "-a.null + .5 || !f(b)" 8 = .ok e ∧ h.KnowsOperators ∧ (∀ n ∈ e.nodes, n.Lawful) ∧
      ∀ w, ((evaluateInRounds h ctx 8 e).run w).1 ≠ .error (.unknownOperator "+") := by
  intro h ctx e
  have hparse : parse "-a.null + .5 || !f(b)" 8 = .ok e := by
    -- The text is read by computation, and the laws of its tree come from the theorem.
    have hphrase : phraseOf "-a.null + .5 || !f(b)" = .ok (.plain (.mk
        (.mk [.minus] (.identifier "a") [.field "null"])
        [(.add, .mk [] (.number ".5".toList) []), (.or, .mk [.not] (.identifier "f")
          [.call [.plain (.mk (.mk [] (.identifier "b") []) [])]])])) := by cbv
    exact parse_eq_ok_iff.2 ⟨by cbv, _, hphrase, rfl⟩
  have hknows : h.KnowsOperators := Registry.knowsOperators _
  obtain ⟨hlawful, hruns⟩ := parse_lawful hparse
  exact ⟨hparse, hknows, hlawful, fun w => (hruns h hknows ctx 8 w "+").2.1⟩

end Formula
