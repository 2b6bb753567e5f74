import Formula.Compiled
import Formula.Host.Registry
import Formula.Proofs.Json.Outermost
import Formula.Proofs.Syntax.Levels

/-!
# `Formula.Proofs.Json.Interchange`: trees sent as JSON

A tree that is written as JSON and read again is the same tree, except for the
numbers in it: a number comes back as the double that the reader makes of its
digits, and as null if it is not finite. Nothing else is lost, and the reader
refuses no tree that nests within its limit.

* `Expr.reread`: the tree that comes back.
* `ofJsonText_jsonText`: the text of a tree is read as the tree that comes back.
* `Number.reread_of_isShort`: the numbers that come back as they are, if their
  digits and their power of ten are few.
* `ofJsonText_of_ofSource`: what this means for compiled formulas.
-/

set_option autoImplicit false

namespace Formula

/-! ### What comes back -/

/-- The constant as which a constant is read. -/
def Literal.reread : Literal → Literal
  | .number x => (x.reread.map .number).getD .null
  | value => value

/-- The document of a constant is read as the document of what the constant
comes back as. -/
theorem Literal.toJson_reread (value : Literal) : value.toJson.reread = value.reread.toJson := by
  cases value with
  | number x =>
      show (x.reread.map Json.float).getD .null = ((x.reread.map Literal.number).getD .null).toJson
      cases x.reread <;> rfl
  | null => rfl
  | bool b => rfl
  | string s => rfl

/-- A constant comes back as it is exactly if its number does. -/
theorem Literal.reread_number_eq_iff (x : Number) :
    (Literal.number x).reread = .number x ↔ x.reread = some x := by
  show (x.reread.map Literal.number).getD .null = .number x ↔ _
  cases x.reread with
  | none => simp
  | some y => simp

namespace Expr

mutual

/-- The tree as which the JSON text of a tree is read. -/
def reread : Expr → Expr
  | .literal value => .literal value.reread
  | .identifier name => .identifier name
  | .this => .this
  | .array elements => .array (rereadEach elements)
  | .unary operator argument => .unary operator argument.reread
  | .binary operator left right => .binary operator left.reread right.reread
  | .logical operator left right => .logical operator left.reread right.reread
  | .conditional test consequent alternate =>
    .conditional test.reread consequent.reread alternate.reread
  | .member object property computed => .member object.reread property.reread computed
  | .call callee arguments => .call callee.reread (rereadEach arguments)
  | .unknown => .unknown

/-- The trees as which trees are read. -/
def rereadEach : List Expr → List Expr
  | [] => []
  | e :: es => e.reread :: rereadEach es

end

mutual

/-- The numbers of a tree, from left to right. -/
def numbers : Expr → List Number
  | .literal (.number x) => [x]
  | .literal _ => []
  | .identifier _ => []
  | .this => []
  | .array elements => numbersOfEach elements
  | .unary _ argument => argument.numbers
  | .binary _ left right => left.numbers ++ right.numbers
  | .logical _ left right => left.numbers ++ right.numbers
  | .conditional test consequent alternate =>
    test.numbers ++ (consequent.numbers ++ alternate.numbers)
  | .member object property _ => object.numbers ++ property.numbers
  | .call callee arguments => callee.numbers ++ numbersOfEach arguments
  | .unknown => []

/-- The numbers of trees. -/
def numbersOfEach : List Expr → List Number
  | [] => []
  | e :: es => e.numbers ++ numbersOfEach es

end

/-- All numbers of a list come back as they are. -/
def ComeBack (xs : List Number) : Prop := ∀ x ∈ xs, x.reread = some x

/-- No numbers all come back. -/
theorem comeBack_nil : ComeBack [] := List.forall_mem_nil _

/-- The numbers of two lists come back if those of each do. -/
theorem comeBack_append (xs ys : List Number) :
    ComeBack (xs ++ ys) ↔ ComeBack xs ∧ ComeBack ys := List.forall_mem_append

mutual

/-- A tree comes back as it is exactly if all its numbers do. -/
theorem reread_eq_iff : (e : Expr) → (e.reread = e ↔ ComeBack e.numbers)
  | .literal (.number x) => by
      rw [reread, literal.injEq, Literal.reread_number_eq_iff, numbers, ComeBack,
        List.forall_mem_singleton]
  | .literal .null => ⟨fun _ => comeBack_nil, fun _ => rfl⟩
  | .literal (.bool _) => ⟨fun _ => comeBack_nil, fun _ => rfl⟩
  | .literal (.string _) => ⟨fun _ => comeBack_nil, fun _ => rfl⟩
  | .identifier _ => ⟨fun _ => comeBack_nil, fun _ => rfl⟩
  | .this => ⟨fun _ => comeBack_nil, fun _ => rfl⟩
  | .unknown => ⟨fun _ => comeBack_nil, fun _ => rfl⟩
  -- A node comes back if its parts do, whose numbers stand side by side.
  | .array elements => by rw [reread, array.injEq, rereadEach_eq_iff elements, numbers]
  | .unary _ argument => by
      rw [reread, unary.injEq, reread_eq_iff argument, numbers, and_iff_right rfl]
  | .binary _ left right => by
      rw [reread, binary.injEq, reread_eq_iff left, reread_eq_iff right, numbers, comeBack_append,
        and_iff_right rfl]
  | .logical _ left right => by
      rw [reread, logical.injEq, reread_eq_iff left, reread_eq_iff right, numbers, comeBack_append,
        and_iff_right rfl]
  | .conditional test consequent alternate => by
      rw [reread, conditional.injEq, reread_eq_iff test, reread_eq_iff consequent,
        reread_eq_iff alternate, numbers, comeBack_append, comeBack_append]
  | .member object property _ => by
      rw [reread, member.injEq, reread_eq_iff object, reread_eq_iff property, numbers,
        comeBack_append, and_iff_left rfl]
  | .call callee arguments => by
      rw [reread, call.injEq, reread_eq_iff callee, rereadEach_eq_iff arguments, numbers,
        comeBack_append]

/-- Trees come back as they are exactly if their numbers do. -/
theorem rereadEach_eq_iff : (es : List Expr) → (rereadEach es = es ↔ ComeBack (numbersOfEach es))
  | [] => ⟨fun _ => comeBack_nil, fun _ => rfl⟩
  | e :: es => by
      rw [rereadEach, List.cons.injEq, reread_eq_iff e, rereadEach_eq_iff es, numbersOfEach,
        comeBack_append]

end

/-! ### Documents of trees -/

mutual

/-- The document that comes back is the document of the tree that comes back. -/
theorem toJson_reread : (e : Expr) → e.toJson.reread = e.reread.toJson
  | .literal value => by
      simp [toJson, tagged, reread, Json.reread, Json.rereadMembers, value.toJson_reread]
  | .identifier _ => rfl
  | .this => rfl
  | .unknown => rfl
  -- Tags, operators and flags are texts and words, which come back.
  | .array elements => by
      simp [toJson, tagged, reread, Json.reread, Json.rereadMembers, toJsons_reread elements]
  | .unary _ argument => by
      simp [toJson, tagged, reread, Json.reread, Json.rereadMembers, toJson_reread argument]
  | .binary _ left right => by
      simp [toJson, tagged, reread, Json.reread, Json.rereadMembers, toJson_reread left,
        toJson_reread right]
  | .logical _ left right => by
      simp [toJson, tagged, reread, Json.reread, Json.rereadMembers, toJson_reread left,
        toJson_reread right]
  | .conditional test consequent alternate => by
      simp [toJson, tagged, reread, Json.reread, Json.rereadMembers, toJson_reread test,
        toJson_reread consequent, toJson_reread alternate]
  | .member object property _ => by
      simp [toJson, tagged, reread, Json.reread, Json.rereadMembers, toJson_reread object,
        toJson_reread property]
  | .call callee arguments => by
      simp [toJson, tagged, reread, Json.reread, Json.rereadMembers, toJson_reread callee,
        toJsons_reread arguments]

/-- The documents of trees are read as those of the trees that come back. -/
theorem toJsons_reread : (es : List Expr) → Json.rereads (toJsons es) = toJsons (rereadEach es)
  | [] => rfl
  | e :: es => by
      simp [toJsons, rereadEach, Json.rereads, toJson_reread e, toJsons_reread es]

end

mutual

/-- A tree has no integers, its numbers are written with a point or a power of ten. -/
theorem toJson_inRange : (e : Expr) → e.toJson.InRange
  -- The number of a constant is written with a point, and so is no integer.
  | .literal value => by
      cases value <;> exact ⟨trivial, trivial, trivial⟩
  | .identifier _ => ⟨trivial, trivial, trivial⟩
  | .this => ⟨trivial, trivial⟩
  | .unknown => ⟨trivial, trivial⟩
  | .array elements => ⟨trivial, toJsons_inRange elements, trivial⟩
  | .unary _ argument => ⟨trivial, trivial, toJson_inRange argument, trivial⟩
  | .binary _ left right => ⟨trivial, trivial, toJson_inRange left, toJson_inRange right, trivial⟩
  | .logical _ left right => ⟨trivial, trivial, toJson_inRange left, toJson_inRange right, trivial⟩
  | .conditional test consequent alternate =>
    ⟨trivial, toJson_inRange test, toJson_inRange consequent, toJson_inRange alternate, trivial⟩
  | .member object property _ =>
    ⟨trivial, toJson_inRange object, toJson_inRange property, trivial, trivial⟩
  | .call callee arguments => ⟨trivial, toJson_inRange callee, toJsons_inRange arguments, trivial⟩

/-- The documents of trees hold no integers. -/
theorem toJsons_inRange : (es : List Expr) → Json.InRangeEach (toJsons es)
  | [] => trivial
  | e :: es => ⟨toJson_inRange e, toJsons_inRange es⟩

end

/-! ### The text of a tree -/

/-- The text of a tree that nests within the limit is read as the tree that comes
back. -/
theorem ofJsonText_jsonText {e : Expr} (h : e.toJson.nesting ≤ Json.maxNesting) :
    ofJsonText e.jsonText = .ok e.reread := by
  have htext : Json.ofText e.jsonText = .ok e.reread.toJson := by
    rw [← toJson_reread]
    exact Json.ofText_compact (toJson_inRange e) h
  obtain ⟨ms, hobject, htags⟩ := (depicts_toJson e.reread).textTags
  have hdecode := ofJson_toJson e.reread
  rw [hobject] at htext hdecode
  exact ofJsonText_of_ofText htext htags hdecode

end Expr

/-! ### Numbers that come back -/

/-- A number whose JSON text has few digits and a small power of ten. -/
def Number.IsShort : Number → Prop
  | .nan => False
  | .infinite _ => False
  | .finite _ m => m.quanta = 0 ∨
      (jsonLayout.numeral m.quanta).significand < significandLimit ∧
        (jsonLayout.numeral m.quanta).exponent.natAbs ≤ 22

instance : DecidablePred Number.IsShort
  | .nan => inferInstanceAs (Decidable False)
  | .infinite _ => inferInstanceAs (Decidable False)
  | .finite _ m => inferInstanceAs (Decidable (m.quanta = 0 ∨
      (jsonLayout.numeral m.quanta).significand < significandLimit ∧
        (jsonLayout.numeral m.quanta).exponent.natAbs ≤ 22))

/-- A short number comes back as it is: its digits and its power of ten are doubles,
and one rounding brings them to the number. -/
theorem Number.reread_of_isShort {x : Number} (h : x.IsShort) : x.reread = some x := by
  match x, h with
  | .finite negative m, h =>
      unfold Number.reread
      dsimp only
      by_cases hzero : m.quanta = 0
      · rw [if_pos hzero]
      · obtain ⟨hs, he⟩ := h.resolve_left hzero
        have hpos := Nat.pos_of_ne_zero hzero
        rw [if_neg hzero, Json.scale_exact m.fits hpos hs (Json.significand_numeral_pos m.fits hpos)
          he (Json.roundsTo_numeral m.fits hpos)]
        cases negative <;> rfl

/-! ### Compiled formulas -/

section

variable {mode : Mode} {source : String} {limit : Nat} {c : Compiled}

/-- A formula compiled from a text whose tree nests within the limit of JSON texts: its
tree is read back, with the numbers that come back, and where all numbers come back as
they are it is evaluated alike. -/
theorem ofJsonText_of_ofSource (hc : Compiled.ofSource mode source limit = .ok c)
    (hnesting : c.tree.toJson.nesting ≤ Json.maxNesting) :
    ∃ c', Compiled.ofJsonText mode c.tree.jsonText = .ok c' ∧ c'.tree = c.tree.reread ∧
      (∀ x ∈ c.tree.numbers, x.reread.isSome = x.isFinite ∧ (x.IsShort → x.reread = some x)) ∧
      (c'.tree = c.tree ↔ ∀ x ∈ c.tree.numbers, x.reread = some x) ∧
      (c'.tree = c.tree → ∀ {σ : Type} (h : Host σ) (ctx : Context) (maxDepth : Nat),
        (c'.withMaxDepth maxDepth).evaluate h ctx = (c.withMaxDepth maxDepth).evaluate h ctx) := by
  -- The mode is the caller's on both sides.
  have hmode : c.mode = mode := by
    unfold Compiled.ofSource at hc
    split at hc
    · rw [← Except.ok.inj hc]
    · exact nomatch hc
  refine ⟨.ofTree mode c.tree.reread, ?_, rfl, fun x _ => ⟨x.isSome_reread, x.reread_of_isShort⟩,
    c.tree.reread_eq_iff, fun htree σ h ctx maxDepth => ?_⟩
  · unfold Compiled.ofJsonText
    rw [Expr.ofJsonText_jsonText hnesting]
  · have hsame : c.tree.reread = c.tree := htree
    unfold Compiled.evaluate Compiled.withMaxDepth Compiled.ofTree
    rw [hsame, hmode]

/-- Everyday numbers come back as they are, and so does the formula. -/
theorem ofJsonText_of_ofSource_price :
    ∃ c c', Compiled.ofSource .async "price * 1.19 > 1e-7 ? round(price, 2) : [1000000]" 8 = .ok c ∧
      c.tree.toJson.nesting ≤ Json.maxNesting ∧
      Compiled.ofJsonText .async c.tree.jsonText = .ok c' ∧ c'.tree = c.tree := by
  obtain ⟨p, hread, hcheck, hnesting, hshort⟩ := exists_of_passes
    "price * 1.19 > 1e-7 ? round(price, 2) : [1000000]"
    (fun p => p.measured ≤ 8 ∧ p.tree.toJson.nesting ≤ Json.maxNesting ∧
      ∀ x ∈ p.tree.numbers, x.IsShort) (by decide +kernel)
  have hc : Compiled.ofSource .async "price * 1.19 > 1e-7 ? round(price, 2) : [1000000]" 8
      = .ok ⟨.async, p.tree, some "price * 1.19 > 1e-7 ? round(price, 2) : [1000000]",
        defaultEvalDepth⟩ := by
    unfold Compiled.ofSource
    rw [(parse_eq_ok_iff_measured_le hread).2 hcheck]
  obtain ⟨c', hback, -, hnumbers, hsame, -⟩ := ofJsonText_of_ofSource hc hnesting
  exact ⟨_, c', hc, hnesting, hback, hsame.2 fun x hx => (hnumbers x hx).2 (hshort x hx)⟩

/-- The largest integer below two to the power of 53 comes back as the one before:
its digits with the zero after the point are more than a double holds. -/
theorem evaluate_ne_of_jsonText :
    let h := Registry.host #[]
    let ctx := Context.ofScope ⟨0, []⟩
    let w : World Counters := ⟨⟨1, []⟩, #[]⟩
    ∃ c c', Compiled.ofSource .sync "9007199254740991" 128 = .ok c ∧
      c.tree.toJson.nesting ≤ Json.maxNesting ∧
      Compiled.ofJsonText .sync c.tree.jsonText = .ok c' ∧
      (c.evaluate h ctx w).1 = .ok (.number (.ofNat 9007199254740991)) ∧
      (c'.evaluate h ctx w).1 = .ok (.number (.ofNat 9007199254740990)) := by
  intro h ctx w
  -- With the zero after its point the integer has more than 53 bits, and it is rounded
  -- before it is divided.
  have hread : phraseOf "9007199254740991"
      = .ok (.plain (.mk (.mk [] (.number "9007199254740991".toList) []) [])) := by cbv
  have hvalue : Number.ofNumeral "9007199254740991".toList = .ofNat 9007199254740991 := by
    decide +kernel
  have hback : (Number.ofNat 9007199254740991).reread = some (.ofNat 9007199254740990) := by
    decide +kernel
  have htree : Phrase.tree (.plain (.mk (.mk [] (.number "9007199254740991".toList) []) []))
      = .literal (.number (.ofNat 9007199254740991)) := by
    rw [← hvalue]
    rfl
  have hparse : parse "9007199254740991" 128 = .ok (.literal (.number (.ofNat 9007199254740991))) :=
    parse_eq_ok_iff.2 ⟨rfl, _, hread, htree.symm⟩
  have hnesting : (Expr.literal (.number (.ofNat 9007199254740991))).toJson.nesting
      ≤ Json.maxNesting := Nat.le_of_ble_eq_true rfl
  have hreread : (Expr.literal (.number (.ofNat 9007199254740991))).reread
      = .literal (.number (.ofNat 9007199254740990)) := by
    rw [Expr.reread, Literal.reread, hback]
    rfl
  refine ⟨⟨.sync, .literal (.number (.ofNat 9007199254740991)), some "9007199254740991",
    defaultEvalDepth⟩, .ofTree .sync (.literal (.number (.ofNat 9007199254740990))), ?_, hnesting,
    ?_, ?_, ?_⟩
  · unfold Compiled.ofSource
    rw [hparse]
  · unfold Compiled.ofJsonText
    rw [Expr.ofJsonText_jsonText hnesting, hreread]
  · generalize Number.ofNat 9007199254740991 = x
    rfl
  · generalize Number.ofNat 9007199254740990 = x
    rfl

end

end Formula
