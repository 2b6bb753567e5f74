import Formula.Proofs.Syntax.Measure

/-!
# `Formula.Proofs.Syntax.Built`: the trees that the grammar builds

Not every tree is the tree of a text. `Expr.Built` has one rule for each
way in which the grammar makes a tree: an operator between operands is in
the constructor that fits it, every operator has a meaning, a property is
computed or a name, and nothing is unknown.

* `assemble_keeps`: what the merging of each level keeps, the assembled tree
  has.
* `assemble_built`: assembling a run of operands builds a tree from theirs.
* `built_of_parse`: the tree of an accepted text is built.
-/

set_option autoImplicit false

namespace Formula

/-- A tree that the grammar can build. -/
inductive Expr.Built : Expr → Prop
  | literal (value : Literal) : Built (.literal value)
  | identifier (name : String) : Built (.identifier name)
  | this : Built .this
  | array {elements : List Expr} (helements : ∀ e ∈ elements, Built e) : Built (.array elements)
  | unary (o : UnaryOperator) {argument : Expr} (hargument : Built argument) :
    Built (.unary o.symbol argument)
  | infixed (o : BinaryOperator) {left right : Expr} (hleft : Built left) (hright : Built right) :
    Built (.infixed o.symbol left right)
  | conditional {test consequent alternate : Expr} (htest : Built test)
    (hconsequent : Built consequent) (halternate : Built alternate) :
    Built (.conditional test consequent alternate)
  | call {callee : Expr} {arguments : List Expr} (hcallee : Built callee)
    (harguments : ∀ e ∈ arguments, Built e) : Built (.call callee arguments)
  | index {object property : Expr} (hobject : Built object) (hproperty : Built property) :
    Built (.index object property)
  | field {object : Expr} (hobject : Built object) (name : String) : Built (.field object name)

/-- The operands after the first one are built. -/
def Tail.Built (rest : Tail) : Prop := ∀ entry ∈ rest, entry.2.Built

/-- Merging one level builds trees from built ones. -/
theorem mergeLevel_built (level : Nat) {left : Expr} {rest : Tail} (hleft : left.Built)
    (hrest : rest.Built) :
    (mergeLevel level left rest).1.Built ∧ Tail.Built (mergeLevel level left rest).2 := by
  induction rest generalizing left with
  | nil => exact ⟨hleft, hrest⟩
  | cons entry rest ih =>
      rcases entry with ⟨o, right⟩
      obtain ⟨hright, hrest⟩ := List.forall_mem_cons.1 hrest
      rw [mergeLevel]
      split
      · exact ih (.infixed o hleft hright) hrest
      · obtain ⟨hnext, hmore⟩ := ih hright hrest
        exact ⟨hleft, List.forall_mem_cons.2 ⟨hnext, hmore⟩⟩

/-- What the merging of each level keeps of a run, the assembled tree still
has. -/
theorem assemble_keeps {S : Expr → Tail → Prop}
    (hmerge : ∀ level first rest, S first rest →
      S (mergeLevel level first rest).1 (mergeLevel level first rest).2)
    {first : Expr} {rest : Tail} (h : S first rest) : ∃ rest', S (assemble first rest) rest' := by
  have hrun : ∀ (levels : List Nat) (run : Expr × Tail), S run.1 run.2 → ∃ rest',
      S (levels.foldl (fun run level => mergeLevel level run.1 run.2) run).1 rest' := by
    intro levels
    induction levels with
    | nil => exact fun run hrun => ⟨run.2, hrun⟩
    | cons level levels ih => exact fun run hrun => ih _ (hmerge level run.1 run.2 hrun)
  exact hrun levels (first, rest) h

/-- So does assembling a chain. -/
theorem assemble_built {first : Expr} {rest : Tail} (hfirst : first.Built) (hrest : rest.Built) :
    (assemble first rest).Built := by
  obtain ⟨_, hassemble, _⟩ := assemble_keeps (S := fun e rest => e.Built ∧ rest.Built)
    (fun level _ _ h => mergeLevel_built level h.1 h.2) ⟨hfirst, hrest⟩
  exact hassemble

/-- Signs are built over a built tree. -/
theorem signed_built (signs : List UnaryOperator) {e : Expr} (he : e.Built) :
    (signed signs e).Built := by
  induction signs with
  | nil => exact he
  | cons o signs ih => exact .unary o ih

mutual

/-- The tree of an expression is built. -/
theorem Phrase.tree_built : (p : Phrase) → p.tree.Built
  | .plain chain => chain.tree_built
  | .conditional test consequent alternate =>
      .conditional test.tree_built consequent.tree_built alternate.tree_built

/-- The trees of some expressions. -/
theorem Phrase.trees_built : (ps : List Phrase) → ∀ e ∈ Phrase.trees ps, e.Built
  | [] => nofun
  | p :: ps => List.forall_mem_cons.2 ⟨p.tree_built, Phrase.trees_built ps⟩

/-- The tree of a chain. -/
theorem Chain.tree_built : (c : Chain) → c.tree.Built
  | .mk first more => assemble_built first.tree_built (Chain.tail_built more)

/-- The trees of the right operands. -/
theorem Chain.tail_built : (more : List (BinaryOperator × Operand)) → (Chain.tail more).Built
  | [] => nofun
  | (_, right) :: more => List.forall_mem_cons.2 ⟨right.tree_built, Chain.tail_built more⟩

/-- The tree of an operand. -/
theorem Operand.tree_built : (e : Operand) → e.tree.Built
  | .mk signs primary suffixes =>
      signed_built signs (Suffix.applyAll_built suffixes primary.tree_built)

/-- The tree of a primary expression. -/
theorem Primary.tree_built : (e : Primary) → e.tree.Built
  | .number _ => .literal _
  | .string _ => .literal _
  | .boolean _ => .literal _
  | .null => .literal _
  | .this => .this
  | .identifier name => .identifier name
  | .array elements => .array (Phrase.trees_built elements)
  | .grouped inner => inner.tree_built

/-- The tree of a suffix over a built object. -/
theorem Suffix.apply_built : (s : Suffix) → {object : Expr} → object.Built →
    (s.apply object).Built
  | .call arguments, _, hobject => .call hobject (Phrase.trees_built arguments)
  | .index property, _, hobject => .index hobject property.tree_built
  | .field name, _, hobject => .field hobject name

/-- The tree of suffixes over a built object. -/
theorem Suffix.applyAll_built : (ss : List Suffix) → {object : Expr} → object.Built →
    (Suffix.applyAll ss object).Built
  | [], _, hobject => hobject
  | s :: ss, _, hobject => Suffix.applyAll_built ss (s.apply_built hobject)

end

/-- The tree of a text is built, whatever the limit it is read under. -/
theorem built_of_parse {source : String} {limit : Nat} {e : Expr}
    (hparse : parse source limit = .ok e) : e.Built := by
  obtain ⟨-, p, -, rfl⟩ := parse_eq_ok_iff.1 hparse
  exact p.tree_built

end Formula
