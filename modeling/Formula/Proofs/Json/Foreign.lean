import Formula.Proofs.Json.Whole

/-!
# `Formula.Proofs.Json.Foreign`: trees written by others

A text that someone else has written is read as the tree that its document
stands for, in whatever order the members of its nodes are, whatever other
members they have, and with the nodes that are not known here as unknown
ones. The document may be given as any text that holds it. If it is given as
its own compact text, its numbers have to come back for that, as whole ones
do.

* `Depicts.reread`: what comes back of a document stands for the tree again,
  if the numbers of the tree come back.
* `Compiled.ofJsonText_of_depicts`: the texts of the documents of a tree.
-/

set_option autoImplicit false

namespace Formula

namespace Expr

/-! ### What comes back of a document -/

/-- The numbers of a part. -/
def Part.numbers : Part → List Number
  | .constant (.number x) => [x]
  | .node e => e.numbers
  | .nodes es => numbersOfEach es
  | _ => []

/-- The numbers of a node are those of its parts. -/
theorem numbers_parts (e : Expr) : e.numbers = e.parts.flatMap fun p => p.2.numbers := by
  cases e with
  | literal value => cases value <;> rfl
  | _ => simp [numbers, parts, Part.numbers]

/-- Members are read one by one under their names. -/
theorem rereadMembers_eq_map (ms : List (String × Json)) :
    Json.rereadMembers ms = ms.map fun m => (m.1, m.2.reread) := by
  induction ms with
  | nil => rfl
  | cons m ms ih => rw [Json.rereadMembers, ih, List.map_cons]

/-- Members after others are read as if they stood alone. -/
theorem rereadMembers_append (ms ms' : List (String × Json)) :
    Json.rereadMembers (ms ++ ms') = Json.rereadMembers ms ++ Json.rereadMembers ms' := by
  rw [rereadMembers_eq_map, rereadMembers_eq_map, rereadMembers_eq_map, List.map_append]

/-- Members come back in their order. -/
theorem perm_rereadMembers {ms ms' : List (String × Json)} (h : ms.Perm ms') :
    (Json.rereadMembers ms).Perm (Json.rereadMembers ms') := by
  rw [rereadMembers_eq_map, rereadMembers_eq_map]
  exact h.map _

/-- Members come back under their names. -/
theorem forall_mem_rereadMembers {P : String → Prop} {ms : List (String × Json)}
    (h : ∀ m ∈ ms, P m.1) : ∀ m ∈ Json.rereadMembers ms, P m.1 := by
  rw [rereadMembers_eq_map]
  exact List.forall_mem_map.2 h

/-- A constant stands for itself again, if its number comes back. -/
theorem depictsPart_constant_reread (value : Literal)
    (hnumbers : ComeBack (Part.constant value).numbers) :
    DepictsPart value.toJson.reread (.constant value) := by
  have hsame : value.reread = value := by
    cases value with
    | number x => exact (Literal.reread_number_eq_iff x).2 (hnumbers x (List.mem_singleton_self x))
    | _ => rfl
  rw [value.toJson_reread, hsame]
  exact .constant value

mutual

/-- What comes back of a document stands for the tree again, if its numbers come back. -/
theorem Depicts.reread : {j : Json} → {e : Expr} → Depicts j e → ComeBack e.numbers →
    Depicts j.reread e
  | _, e, @Depicts.node _ ms own others hown hothers horder, hnumbers => by
      have hparts : ComeBack (e.parts.flatMap fun p => p.2.numbers) := e.numbers_parts ▸ hnumbers
      have horder' := perm_rereadMembers horder
      rw [Json.rereadMembers, rereadMembers_append] at horder'
      exact .node (hown.reread hparts)
        (forall_mem_rereadMembers (P := fun name => name ≠ tagName ∧ name ∉ e.parts.map Prod.fst)
          hothers) horder'
  | _, _, .unknown htag hothers horder, _ =>
      .unknown htag (forall_mem_rereadMembers (P := (· ≠ tagName)) hothers)
        (perm_rereadMembers horder)

/-- Documents that stand for trees do so when they are read. -/
theorem DepictsEach.reread : {js : List Json} → {es : List Expr} → DepictsEach js es →
    ComeBack (numbersOfEach es) → DepictsEach (Json.rereads js) es
  | _, _, .nil, _ => .nil
  | _, _, .cons h hmore, hnumbers => by
      rw [numbersOfEach, comeBack_append] at hnumbers
      exact .cons (h.reread hnumbers.1) (hmore.reread hnumbers.2)

/-- A document that stands for a part does so when it is read. -/
theorem DepictsPart.reread : {j : Json} → {p : Part} → DepictsPart j p → ComeBack p.numbers →
    DepictsPart j.reread p
  | _, _, .text s, _ => .text s
  | _, _, .flag b, _ => .flag b
  | _, _, .constant value, hnumbers => depictsPart_constant_reread value hnumbers
  | _, _, .integer n, _ => .integer n
  | _, _, .node h, hnumbers => .node (h.reread hnumbers)
  | _, _, .nodes h, hnumbers => .nodes (h.reread hnumbers)

/-- Members that stand for parts do so when they are read. -/
theorem DepictsParts.reread : {ms : List (String × Json)} → {ps : Parts} → DepictsParts ms ps →
    ComeBack (ps.flatMap fun p => p.2.numbers) → DepictsParts (Json.rereadMembers ms) ps
  | _, _, .nil, _ => .nil
  | _, _, .cons h hmore, hnumbers => by
      rw [List.flatMap_cons, comeBack_append] at hnumbers
      exact .cons (h.reread hnumbers.1) (hmore.reread hnumbers.2)

end

end Expr

/-! ### Texts -/

/-- Below the limit an integer of either sign is a whole number. -/
theorem Number.isWhole_ofInt {n : ℤ} (hn : n.natAbs < wholeLimit) : (Number.ofInt n).IsWhole := by
  rw [Number.ofInt_of_fits (fits_of_lt_wholeLimit hn)]
  exact ⟨n.natAbs, hn, _, _, rfl, rfl⟩

/-- Whatever document stands for a tree, its texts are read as the tree: every text that
holds the document within the limits of the reader, and so the one in which the document is
written, if the numbers of the tree are whole. -/
theorem Compiled.ofJsonText_of_depicts (mode : Mode) {j : Json} {e : Expr}
    (h : Expr.Depicts j e) :
    (∀ text, Json.ofText text = .ok j → Compiled.ofJsonText mode text = .ok (.ofTree mode e)) ∧
    ((∀ x ∈ e.numbers, x.IsWhole) → j.InRange → j.nesting ≤ Json.maxNesting →
      Compiled.ofJsonText mode j.compact = .ok (.ofTree mode e)) := by
  have hread : ∀ {j : Json}, Expr.Depicts j e → ∀ text, Json.ofText text = .ok j →
      Compiled.ofJsonText mode text = .ok (.ofTree mode e) := by
    intro j h text htext
    have hdecode := Expr.ofJson_of_depicts h
    obtain ⟨ms, rfl, htags⟩ := h.textTags
    unfold Compiled.ofJsonText
    rw [Expr.ofJsonText_of_ofText htext htags hdecode]
  refine ⟨hread h, fun hwhole hrange hnesting => ?_⟩
  -- The compact text holds the document that comes back, and only that its numbers are whole
  -- makes it one of the same tree.
  have hnumbers : Expr.ComeBack e.numbers := fun x hx => x.reread_of_isShort (hwhole x hx).isShort
  exact hread (h.reread hnumbers) _ (Json.ofText_compact hrange hnesting)

/-- The members of every node the other way round, with some that it does not have, a number
without a point, and in a list a node that is not known, whose elements are none. -/
theorem Compiled.ofJsonText_of_depicts_reversed :
    let e : Expr := .binary "+" (.literal (.number (.ofInt 1))) (.array [.unknown, .this])
    let left : Json := .object
      [("raw", .string "1"), ("value", .integer 1), ("type", .string "Literal")]
    let unknown : Json := .object [("elements", .integer 7), ("type", .string "TemplateLiteral")]
    let right : Json := .object
      [("elements", .array [unknown, Expr.this.toJson]), ("type", .string "ArrayExpression")]
    let j : Json := .object
      [("start", .integer 0), ("right", right), ("left", left), ("operator", .string "+"),
        ("type", .string "BinaryExpression")]
    Expr.Depicts j e ∧ Compiled.ofJsonText .sync j.compact = .ok (.ofTree .sync e) := by
  intro e left unknown right j
  -- Every object is its members in reverse, each with one foreign name.
  have hleft : Expr.Depicts left (.literal (.number (.ofInt 1))) :=
    .node (.cons (.integer 1) .nil) (by decide) (List.reverse_perm
      [("type", Json.string "Literal"), ("value", .integer 1), ("raw", .string "1")])
  have hunknown : Expr.Depicts unknown .unknown :=
    .unknown (fun e he => by cases e <;> simp [Expr.kind] at he ⊢) (by decide)
      (List.reverse_perm [("type", Json.string "TemplateLiteral"), ("elements", .integer 7)])
  have helements : Expr.DepictsEach [unknown, Expr.this.toJson] [.unknown, .this] :=
    .cons hunknown (.cons (Expr.depicts_toJson .this) .nil)
  have hright : Expr.Depicts right (.array [.unknown, .this]) :=
    .node (.cons (.nodes helements) .nil) (List.forall_mem_nil _) (List.reverse_perm
      [("type", Json.string "ArrayExpression"), ("elements", .array [unknown, Expr.this.toJson])])
  have hj : Expr.Depicts j e :=
    .node (.cons (.text "+") (.cons (.node hleft) (.cons (.node hright) .nil))) (by decide)
      (List.reverse_perm [("type", Json.string "BinaryExpression"), ("operator", .string "+"),
        ("left", left), ("right", right), ("start", .integer 0)])
  have hwhole : ∀ x ∈ e.numbers, x.IsWhole := by
    have hnumbers : ∀ x : Number, (Expr.binary "+" (.literal (.number x))
        (.array [.unknown, .this])).numbers = [x] := fun _ => rfl
    rw [show e.numbers = [Number.ofInt 1] from hnumbers _]
    exact List.forall_mem_singleton.2 (Number.isWhole_ofInt (by decide))
  have hrange : j.InRange := by
    have hsmall : ∀ n ∈ [0, 1, 7], (Json.integer n).InRange := by
      simp only [Json.InRange]
      decide
    simp only [List.forall_mem_cons] at hsmall
    obtain ⟨hzero, hone, hseven, -⟩ := hsmall
    have hunknown : unknown.InRange := ⟨hseven, trivial, trivial⟩
    have helements : Json.InRangeEach [unknown, Expr.this.toJson] :=
      ⟨hunknown, Expr.toJson_inRange .this, trivial⟩
    have hright : right.InRange := ⟨helements, trivial, trivial⟩
    exact ⟨hzero, hright, ⟨trivial, hone, trivial, trivial⟩, trivial, trivial, trivial⟩
  have hnesting : j.nesting ≤ Json.maxNesting := Nat.le_of_ble_eq_true rfl
  exact ⟨hj, (Compiled.ofJsonText_of_depicts .sync hj).2 hwhole hrange hnesting⟩

end Formula
