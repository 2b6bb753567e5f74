import Formula.Operator
import Formula.Proofs.Number.Exact
import Formula.Proofs.Text.Units

/-!
# `Formula.Proofs.Value.Order`: laws of the relational operators

The four relational operators rest on one comparison, with the operands swapped
for two of them and the answer negated for two. It has no answer when a side is
not a number, and that is seen from either side.

* `less_eq_none_iff`: the values that cannot be compared.
* `less_asymm`: of two values not both are less than the other.
* `BinaryOperator.Holds`: an operator answers with truth.
* `relational_lawful`: the laws of the operators on all values, and the strict
  and total order of texts.
-/

set_option autoImplicit false

namespace Formula

/-- Of two numbers not both are less than the other. -/
theorem Number.less_asymm {x y : Number} (h : x.less y = true) : y.less x = false := by
  rw [← Bool.not_eq_true, Number.less_iff]
  obtain ⟨a, b, ha, hb, hlt⟩ := Number.less_iff.1 h
  rintro ⟨b', a', hb', ha', hlt'⟩
  rw [ha] at ha'
  rw [hb] at hb'
  cases ha'
  cases hb'
  exact hlt.asymm hlt'

namespace Value

variable {a b : Value}

/-! ### The comparison -/

/-- Both primitives are texts. -/
def AreTexts (a b : Value) : Prop := ∃ s t, a.toPrimitive = .string s ∧ b.toPrimitive = .string t

/-- Being texts does not depend on the side. -/
theorem AreTexts.symm (h : AreTexts a b) : AreTexts b a := by
  obtain ⟨s, t, hs, ht⟩ := h
  exact ⟨t, s, ht, hs⟩

/-- What is not a comparison of texts is one of numbers. -/
theorem less_of_not_areTexts (h : ¬AreTexts a b) : a.less b =
    if a.toPrimitive.toNumber.isNaN || b.toPrimitive.toNumber.isNaN then none
    else some (a.toPrimitive.toNumber.less b.toPrimitive.toNumber) := by
  unfold less lessPrimitive
  split
  · rename_i s t hs ht
    exact absurd ⟨s, t, hs, ht⟩ h
  · rfl

/-- Two texts are compared by their units. -/
theorem less_of_texts {s t : String} (hs : a.toPrimitive = .string s)
    (ht : b.toPrimitive = .string t) : a.less b = some (textBefore s t) := by
  unfold less
  rw [hs, ht]
  rfl

/-- Values cannot be compared when one of them is not a number, unless both are
compared as texts. -/
theorem less_eq_none_iff : a.less b = none ↔
    ¬AreTexts a b ∧ (a.toPrimitive.toNumber = .nan ∨ b.toPrimitive.toNumber = .nan) := by
  by_cases htexts : AreTexts a b
  · obtain ⟨s, t, hs, ht⟩ := id htexts
    rw [less_of_texts hs ht]
    simp [htexts]
  · rw [less_of_not_areTexts htexts, ← Number.isNaN_iff, ← Number.isNaN_iff, ← Bool.or_eq_true]
    split
    · rename_i hnan
      simp only [true_iff]
      exact ⟨htexts, hnan⟩
    · rename_i hnan
      simp [hnan]

/-- Not being comparable does not depend on the side. -/
theorem less_eq_none_comm (a b : Value) : a.less b = none ↔ b.less a = none := by
  rw [less_eq_none_iff, less_eq_none_iff, or_comm]
  exact and_congr_left fun _ => not_congr ⟨AreTexts.symm, AreTexts.symm⟩

/-- Of two values not both are less than the other. -/
theorem less_asymm (h : a.less b = some true) : b.less a = some false := by
  by_cases htexts : AreTexts a b
  · obtain ⟨s, t, hs, ht⟩ := htexts
    rw [less_of_texts hs ht] at h
    rw [less_of_texts ht hs, textBefore_asymm (Option.some.inj h)]
  · have htexts' : ¬AreTexts b a := fun h => htexts h.symm
    rw [less_of_not_areTexts htexts] at h
    rw [less_of_not_areTexts htexts', Bool.or_comm]
    split at h
    · cases h
    · rename_i hnan
      rw [if_neg hnan, Number.less_asymm (Option.some.inj h)]

end Value

/-! ### The operators -/

/-- An operator answers with truth. -/
def BinaryOperator.Holds (operator : BinaryOperator) (a b : Value) : Prop :=
  operator.apply a b = .bool true

/-- The operators that compare by order. -/
def BinaryOperator.relational : List BinaryOperator := [less, greater, lessEqual, greaterEqual]

/-- One of three holds, and the other two do not. -/
def ExactlyOne (p q r : Prop) : Prop := p ∧ ¬q ∧ ¬r ∨ ¬p ∧ q ∧ ¬r ∨ ¬p ∧ ¬q ∧ r

namespace BinaryOperator

variable {a b : Value} {s t : String}

/-- A comparison holds if it answers true. -/
theorem bool_eq_true_iff {answer : Bool} : Value.bool answer = .bool true ↔ answer = true := by
  simp

/-- When less holds. -/
theorem holds_less_iff : Holds .less a b ↔ a.less b = some true := by
  rw [Holds, apply, bool_eq_true_iff, beq_iff_eq]

/-- When greater holds: less, the other way around. -/
theorem holds_greater_iff : Holds .greater a b ↔ b.less a = some true := by
  rw [Holds, apply, bool_eq_true_iff, beq_iff_eq]

/-- When greater or equal holds: less answers that it does not. -/
theorem holds_greaterEqual_iff : Holds .greaterEqual a b ↔ a.less b = some false := by
  rw [Holds, apply, bool_eq_true_iff, beq_iff_eq]

/-- When less holds of strings. -/
theorem holds_less_string_iff : Holds .less (.string s) (.string t) ↔ textBefore s t = true := by
  rw [holds_less_iff, Value.less_of_texts rfl rfl, Option.some_inj]

/-- When greater holds of strings. -/
theorem holds_greater_string_iff :
    Holds .greater (.string s) (.string t) ↔ textBefore t s = true := by
  rw [holds_greater_iff, Value.less_of_texts rfl rfl, Option.some_inj]

/-- When strings are identical. -/
theorem holds_identical_string_iff : Holds .identical (.string s) (.string t) ↔ s = t := by
  rw [Holds, apply, bool_eq_true_iff]
  exact beq_iff_eq

/-- A relational operator answers with a truth value, false where there is no
comparison. -/
theorem apply_relational_of_none (h : a.less b = none) {operator : BinaryOperator}
    (hoperator : operator ∈ relational) : operator.apply a b = .bool false := by
  have h' := (Value.less_eq_none_comm a b).1 h
  simp only [relational, List.mem_cons, List.not_mem_nil, or_false] at hoperator
  rcases hoperator with rfl | rfl | rfl | rfl <;> simp [apply, h, h']

/-- Where there is a comparison, less and its negation exclude each other. -/
theorem xor_less_greaterEqual (h : a.less b ≠ none) :
    Xor (Holds .less a b) (Holds .greaterEqual a b) := by
  rw [holds_less_iff, holds_greaterEqual_iff]
  obtain ⟨answer, hanswer⟩ := Option.ne_none_iff_exists'.1 h
  rw [hanswer]
  cases answer with
  | false => exact .inr ⟨rfl, by simp⟩
  | true => exact .inl ⟨rfl, by simp⟩

/-- The order of texts is total, and strict against identity. -/
theorem exactlyOne_string (s t : String) : ExactlyOne (Holds .less (.string s) (.string t))
    (Holds .identical (.string s) (.string t)) (Holds .greater (.string s) (.string t)) := by
  rw [holds_less_string_iff, holds_identical_string_iff, holds_greater_string_iff]
  rcases textBefore_trichotomy s t with hbefore | rfl | hafter
  · have hafter := textBefore_asymm hbefore
    exact .inl ⟨hbefore, textBefore_ne hbefore, by simp [hafter]⟩
  · exact .inr (.inl ⟨by simp [textBefore_irrefl], rfl, by simp [textBefore_irrefl]⟩)
  · have hbefore := textBefore_asymm hafter
    exact .inr (.inr ⟨by simp [hbefore], (textBefore_ne hafter).symm, hafter⟩)

end BinaryOperator

open BinaryOperator in
/-- On all values: whether there is a comparison does not depend on the side, not
both are less, swapped operands have the mirrored operator, of less and its
negation exactly one holds where there is a comparison, and none of the four
operators elsewhere. On texts: exactly one of less, identical and greater holds,
and less is transitive. -/
theorem relational_lawful :
    (∀ a b : Value,
      (a.less b = none ↔ b.less a = none) ∧
      ¬(a.less b = some true ∧ b.less a = some true) ∧
      BinaryOperator.less.apply a b = BinaryOperator.greater.apply b a ∧
      lessEqual.apply a b = greaterEqual.apply b a ∧
      (a.less b ≠ none → Xor (Holds .less a b) (Holds .greaterEqual a b)) ∧
      (a.less b = none → ∀ operator ∈ relational, operator.apply a b = .bool false)) ∧
    (∀ s t : String, ExactlyOne (Holds .less (.string s) (.string t))
      (Holds .identical (.string s) (.string t)) (Holds .greater (.string s) (.string t))) ∧
    ∀ s t u : String, Holds .less (.string s) (.string t) → Holds .less (.string t) (.string u) →
      Holds .less (.string s) (.string u) := by
  refine ⟨fun a b => ⟨Value.less_eq_none_comm a b, ?_, rfl, rfl, ?_, ?_⟩, ?_, ?_⟩
  · rintro ⟨hab, hba⟩
    rw [Value.less_asymm hab] at hba
    cases hba
  · exact xor_less_greaterEqual
  · intro hnone operator hoperator
    exact apply_relational_of_none hnone hoperator
  · exact exactlyOne_string
  · intro s t u
    rw [holds_less_string_iff, holds_less_string_iff, holds_less_string_iff]
    exact textBefore_trans

open BinaryOperator in
/-- Truth compares with null, and undefined does not. The text between the others
is the last one by code points, and its first unit is a surrogate. -/
theorem relational_lawful_surrogate :
    (Value.less (.bool true) .null ≠ none ∧
      Xor (Holds .less (.bool true) .null) (Holds .greaterEqual (.bool true) .null)) ∧
    (Value.less .undefined .null = none ∧ greaterEqual ∈ relational ∧
      greaterEqual.apply .undefined .null = .bool false) ∧
    Holds .less (.string "z") (.string "𐀀") ∧ Holds .less (.string "𐀀") (.string "～") ∧
    Holds .less (.string "z") (.string "～") := by
  have hcomparable : Value.less (.bool true) .null ≠ none := by decide +kernel
  have hincomparable : Value.less .undefined .null = none := by decide +kernel
  have hmember : greaterEqual ∈ relational := by decide
  -- The middle string begins with a surrogate, which is below the unit of the last one although
  -- its character is above.
  have hlow : Holds .less (.string "z") (.string "𐀀") :=
    holds_less_string_iff.2 (by decide +kernel)
  have hhigh : Holds .less (.string "𐀀") (.string "～") :=
    holds_less_string_iff.2 (by decide +kernel)
  obtain ⟨hvalues, -, htrans⟩ := relational_lawful
  obtain ⟨-, -, -, -, hone, -⟩ := hvalues (.bool true) .null
  obtain ⟨-, -, -, -, -, hnone⟩ := hvalues .undefined .null
  exact ⟨⟨hcomparable, hone hcomparable⟩,
    ⟨hincomparable, hmember, hnone hincomparable _ hmember⟩,
    hlow, hhigh, htrans _ _ _ hlow hhigh⟩

end Formula
