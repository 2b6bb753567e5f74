import Mathlib.Data.List.Forall2
import Formula.Proofs.Syntax.Grouping
import Formula.Syntax.Assembly

/-!
# `Formula.Proofs.Syntax.Climbing`: a row put together by binding powers

`climb` takes the front of a row of items into a tree, and breaks down
where an operand stands in the place of an operator or the other way round.
In the row of a chain every piece is in its place, and so the tree that
`Climbs` tells of is found.

* `InPlace`: the pieces of a row are in their places.
* `Piece.PlayedBy`: an item does what a piece does.
* `climb_of_climbs`: `climb` follows `Climbs` on a row with every piece in
  its place.
* `climbRow_pieces`: the items of a chain are put together to its tree.
-/

set_option autoImplicit false

namespace Formula

/-! ### Places -/

/-- Whether the pieces of a row are in their places: signs and values where
an operand is wanted, suffixes and operators where one has been found. -/
def InPlace : (found : Bool) → List Piece → Prop
  | false, .sign _ :: row => InPlace false row
  | false, .value _ :: row => InPlace true row
  | true, [] => True
  | true, .suffix _ :: row => InPlace true row
  | true, .operator _ :: row => InPlace false row
  | _, _ => False

/-- Suffixes may follow an operand. -/
theorem inPlace_suffixes {row : List Piece} (h : InPlace true row) (suffixes : List Suffix) :
    InPlace true (suffixes.map .suffix ++ row) := by
  induction suffixes with
  | nil => exact h
  | cons s suffixes ih => exact ih

/-- An operand stands where one is looked for, and leaves its own end
behind. -/
theorem Operand.inPlace_pieces (operand : Operand) {row : List Piece} (h : InPlace true row) :
    InPlace false (operand.pieces ++ row) := by
  obtain ⟨signs, primary, suffixes⟩ := operand
  rw [Operand.pieces, List.append_assoc]
  induction signs with
  | nil => exact inPlace_suffixes h suffixes
  | cons o signs ih => exact ih

/-- Operators stand where an operand has ended. -/
theorem inPlace_operationsRow (more : List (BinaryOperator × Operand)) :
    InPlace true (operationsRow more) := by
  induction more with
  | nil => trivial
  | cons x more ih => exact x.2.inPlace_pieces ih

/-- In the row of a chain every piece is in its place. -/
theorem Chain.inPlace_pieces (chain : Chain) : InPlace false chain.pieces := by
  obtain ⟨first, more⟩ := chain
  exact first.inPlace_pieces (inPlace_operationsRow more)

/-- What is left begins where an operator is wanted. -/
theorem Climbs.inPlace {left? : Option Expr} {power : Nat} {row rest : List Piece} {e : Expr}
    (h : Climbs left? power row e rest) (hrow : InPlace left?.isSome row) : InPlace true rest := by
  induction h with
  | value _ ih => exact ih hrow
  | sign _ _ ihargument ih => exact ih (ihargument hrow)
  | done => exact hrow
  | stop _ => exact hrow
  | suffix _ _ ih => exact ih hrow
  | operator _ _ _ ihright ih => exact ih (ihright hrow)

/-- Nothing is put back. -/
theorem Climbs.length_le {left? : Option Expr} {power : Nat} {row rest : List Piece} {e : Expr}
    (h : Climbs left? power row e rest) : rest.length ≤ row.length := by
  induction h with
  | value _ ih => exact Nat.le_succ_of_le ih
  | sign _ _ ihargument ih => exact Nat.le_succ_of_le (Nat.le_trans ih ihargument)
  | done => exact Nat.le_refl _
  | stop _ => exact Nat.le_refl _
  | suffix _ _ ih => exact Nat.le_succ_of_le ih
  | operator _ _ _ ihright ih => exact Nat.le_succ_of_le (Nat.le_trans ih ihright)

/-! ### Items -/

/-- An item stands in a row for a piece: its rule puts it where the piece
belongs, and it makes the tree that the piece makes. -/
def Piece.PlayedBy : Piece → Item → Prop
  | .sign o, x => x.rule.affix? = some (.before, signPower) ∧ String.ofList x.text = o.symbol
  | .value e, x => x.rule.affix? = none ∧ x.operand = pure e
  | .suffix s, x => x.rule.affix? = some (.after, suffixPower) ∧
      ∀ e, x.suffixed (.ok e) = pure (s.over e)
  | .operator o, x => x.rule.affix? = some (.between, o.power) ∧ String.ofList x.text = o.symbol

/-- A row of pieces and the items that stand for them. -/
abbrev RowPlayedBy (row : List Piece) (items : List Item) : Prop :=
  List.Forall₂ Piece.PlayedBy row items

section Steps

variable {fuel power : Nat} {x : Item} {items mid : List Item}

/-- A value is the operand that was looked for. -/
theorem climb_value {e : Expr} (hx : (Piece.value e).PlayedBy x) :
    climb (fuel + 1) none power (x :: items) = climb fuel (some (.ok e)) power items := by
  simp only [climb, hx.1, hx.2]
  rfl

/-- A sign looks for its operand with a power of its own. -/
theorem climb_sign {o : UnaryOperator} {argument : Expr} (hx : (Piece.sign o).PlayedBy x)
    (hargument : climb fuel none (signPower - 1) items = .ok (.ok argument, mid)) :
    climb (fuel + 1) none power (x :: items)
      = climb fuel (some (.ok (.unary o.symbol argument))) power mid := by
  simp only [climb, hx.1, hargument, ← hx.2]
  rfl

/-- A suffix goes over what is at hand. -/
theorem climb_suffix {s : Suffix} {left : Expr} (hx : (Piece.suffix s).PlayedBy x)
    (hpower : power < suffixPower) :
    climb (fuel + 1) (some (.ok left)) power (x :: items)
      = climb fuel (some (.ok (s.over left))) power items := by
  simp only [climb, hx.1, hx.2, if_pos hpower]
  rfl

/-- An operator that binds more tightly than asked for takes its right
operand. -/
theorem climb_operator {o : BinaryOperator} {left right : Expr} (hx : (Piece.operator o).PlayedBy x)
    (hpower : power < o.power) (hright : climb fuel none o.power items = .ok (.ok right, mid)) :
    climb (fuel + 1) (some (.ok left)) power (x :: items)
      = climb fuel (some (.ok (o.over left right))) power mid := by
  simp only [climb, hx.1, hx.2, if_pos hpower, hright, ← o.infixed_symbol left right]
  rfl

/-- What may follow an operand is an operator or a suffix. -/
theorem climb_stop {p : Piece} {row : List Piece} {left : Except ParseError Expr}
    (hplace : InPlace true (p :: row)) (hx : p.PlayedBy x) (hpower : p.power ≤ power) :
    climb (fuel + 1) (some left) power (x :: items) = .ok (left, x :: items) := by
  cases p with
  | sign o => exact hplace.elim
  | value e => exact hplace.elim
  | suffix s =>
      have hstop : ¬power < suffixPower := Nat.not_lt_of_le hpower
      simp only [climb, hx.1, if_neg hstop]
  | operator o =>
      have hstop : ¬power < o.power := Nat.not_lt_of_le hpower
      simp only [climb, hx.1, if_neg hstop]

end Steps

/-- Where every piece is in its place, and with more steps than pieces, the
items are taken as `Climbs` tells. -/
theorem climb_of_climbs {left? : Option Expr} {power : Nat} {row rest : List Piece} {e : Expr}
    (h : Climbs left? power row e rest) (hplace : InPlace left?.isSome row) {items : List Item}
    (hitems : RowPlayedBy row items) {fuel : Nat} (hfuel : row.length ≤ fuel) :
    ∃ items', RowPlayedBy rest items' ∧
      climb (fuel + 1) (left?.map .ok) power items = .ok (.ok e, items') := by
  induction h generalizing items fuel with
  | done =>
      cases hitems
      exact ⟨[], .nil, rfl⟩
  | stop hpower =>
      cases hitems with
      | cons hx hitems => exact ⟨_, .cons hx hitems, climb_stop hplace hx hpower⟩
  | value _ ih =>
      obtain ⟨fuel, rfl⟩ : ∃ n, fuel = n + 1 := Nat.exists_eq_add_one.2 (Nat.zero_lt_of_lt hfuel)
      cases hitems with
      | cons hx hitems =>
          obtain ⟨items', hrest, hclimb⟩ := ih hplace hitems (Nat.le_of_succ_le_succ hfuel)
          exact ⟨items', hrest, (climb_value hx).trans hclimb⟩
  | suffix hpower _ ih =>
      obtain ⟨fuel, rfl⟩ : ∃ n, fuel = n + 1 := Nat.exists_eq_add_one.2 (Nat.zero_lt_of_lt hfuel)
      cases hitems with
      | cons hx hitems =>
          obtain ⟨items', hrest, hclimb⟩ := ih hplace hitems (Nat.le_of_succ_le_succ hfuel)
          exact ⟨items', hrest, (climb_suffix hx hpower).trans hclimb⟩
  | sign hargument _ ihargument ih =>
      obtain ⟨fuel, rfl⟩ : ∃ n, fuel = n + 1 := Nat.exists_eq_add_one.2 (Nat.zero_lt_of_lt hfuel)
      have hfuel := Nat.le_of_succ_le_succ hfuel
      cases hitems with
      | cons hx hitems =>
          -- The argument leaves no longer a row, so that the steps suffice for the rest too.
          obtain ⟨mid, hmid, hclimb₁⟩ := ihargument hplace hitems hfuel
          obtain ⟨items', hrest, hclimb⟩ :=
            ih (hargument.inPlace hplace) hmid (Nat.le_trans hargument.length_le hfuel)
          exact ⟨items', hrest, (climb_sign hx hclimb₁).trans hclimb⟩
  | operator hpower hright _ ihright ih =>
      obtain ⟨fuel, rfl⟩ : ∃ n, fuel = n + 1 := Nat.exists_eq_add_one.2 (Nat.zero_lt_of_lt hfuel)
      have hfuel := Nat.le_of_succ_le_succ hfuel
      cases hitems with
      | cons hx hitems =>
          obtain ⟨mid, hmid, hclimb₁⟩ := ihright hplace hitems hfuel
          obtain ⟨items', hrest, hclimb⟩ :=
            ih (hright.inPlace hplace) hmid (Nat.le_trans hright.length_le hfuel)
          exact ⟨items', hrest, (climb_operator hx hpower hclimb₁).trans hclimb⟩

/-- Items that stand for the pieces of a chain are put together to its
tree. -/
theorem climbRow_pieces (chain : Chain) {items : List Item}
    (hitems : RowPlayedBy chain.pieces items) : climbRow items = pure chain.tree := by
  obtain ⟨first, more⟩ := chain
  obtain ⟨_, _, hclimb⟩ := climb_of_climbs (climbs_tree first more)
    (Chain.mk first more).inPlace_pieces hitems (Nat.le_refl _)
  rw [climbRow, ← hitems.length_eq]
  exact congrArg (Except.map Prod.fst) hclimb

end Formula
