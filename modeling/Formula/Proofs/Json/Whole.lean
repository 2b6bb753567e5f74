import Formula.Proofs.Json.Interchange
import Formula.Proofs.Number.Whole

/-!
# `Formula.Proofs.Json.Whole`: trees of whole numbers

A whole number below `2 ^ 49` is written with all its digits and a zero after
the point. These are less than `2 ^ 53` together, so that they are read as a
double and one division brings them to the number. A tree without any other
numbers comes back as it is.

* `Number.IsWhole`: the whole numbers below `2 ^ 49`, of either sign.
* `numeral_whole`: how a whole number is written.
* `Compiled.ofJsonText_jsonText_of_whole`: the trees that come back.
-/

set_option autoImplicit false

namespace Formula

/-- A whole number of a magnitude below the bound; the sign of zero counts. -/
def Number.IsWhole (x : Number) : Prop :=
  ∃ n < wholeLimit, ∃ negative m, x = .finite negative m ∧ m.quanta = n * unitQuanta

/-- A whole number is written with a zero after the point, and its digits with that
zero are ten times the number. -/
theorem numeral_whole {n : Nat} (hpos : 0 < n) (hn : n < wholeLimit) :
    (jsonLayout.numeral (n * unitQuanta)).exponent = -1 ∧
      (jsonLayout.numeral (n * unitQuanta)).significand = 10 * n := by
  obtain ⟨hfraction, hpower⟩ :
      (jsonLayout.numeral (n * unitQuanta)).fraction = jsonLayout.ending ∧
      (jsonLayout.numeral (n * unitQuanta)).power = none :=
    numeralOf_of_exponent_nonneg (exponent_shortest_nonneg _ hpos hn) (by decide)
      (leading_shortest_whole_lt _ hpos hn)
  -- The one digit after the point is the zero that marks a double.
  have hminus : (jsonLayout.numeral (n * unitQuanta)).exponent = -1 := by
    have hending : jsonLayout.ending = ['0'] := by decide
    unfold Numeral.exponent
    rw [hfraction, hpower, hending]
    rfl
  obtain ⟨-, -, hvalue⟩ := Layout.numeral_spec Layout.jsonLayout_endsInZeros
    (fits_of_lt_wholeLimit hn) (mul_unitQuanta_pos hpos)
  rw [value_shortest_whole _ hpos hn, Numeral.value, hminus, zpow_neg_one,
    mul_inv_eq_iff_eq_mul₀ (by norm_num)] at hvalue
  refine ⟨hminus, ?_⟩
  have hten : ((jsonLayout.numeral (n * unitQuanta)).significand : ℚ) = (10 * n : Nat) := by
    push_cast
    linarith
  exact_mod_cast hten

/-- Integers below the limit are whole numbers. -/
theorem Number.isWhole_ofNat {n : Nat} (hn : n < wholeLimit) : (Number.ofNat n).IsWhole := by
  rw [ofNat_of_fits (fits_of_lt_wholeLimit hn)]
  exact ⟨n, hn, false, _, rfl, rfl⟩

/-- The sign of a whole number may be either. -/
theorem Number.IsWhole.neg {x : Number} (hx : x.IsWhole) : x.neg.IsWhole := by
  obtain ⟨n, hn, negative, m, rfl, hm⟩ := hx
  exact ⟨n, hn, !negative, m, rfl, hm⟩

/-- A whole number is short. -/
theorem Number.IsWhole.isShort {x : Number} (hx : x.IsWhole) : x.IsShort := by
  obtain ⟨n, hn, negative, m, rfl, hm⟩ := hx
  rcases Nat.eq_zero_or_pos n with rfl | hpos
  · exact .inl (hm.trans (Nat.zero_mul _))
  · obtain ⟨hexponent, hsignificand⟩ := numeral_whole hpos hn
    refine .inr ?_
    rw [hm, hexponent]
    have hten : 10 * wholeLimit < significandLimit := by decide
    exact ⟨by omega, by decide⟩

/-! ### Trees -/

/-- A tree whose numbers are whole and below `2 ^ 49`, and whose JSON text nests
within the limit of the reader: whatever its nodes, operators, names and strings,
the formula that is read from the text has the same tree. -/
theorem Compiled.ofJsonText_jsonText_of_whole (mode : Mode) (e : Expr)
    (hnumbers : ∀ x ∈ e.numbers, x.IsWhole) (hnesting : e.toJson.nesting ≤ Json.maxNesting) :
    Compiled.ofJsonText mode e.jsonText = .ok (.ofTree mode e) := by
  have hsame : e.reread = e :=
    e.reread_eq_iff.2 fun x hx => x.reread_of_isShort (hnumbers x hx).isShort
  unfold Compiled.ofJsonText
  rw [Expr.ofJsonText_jsonText hnesting, hsame]

/-- The largest whole number and a negative zero, next to an unknown construct
that is called, a property that is no name, a string with escapes, an operator
without a meaning and an empty list. -/
theorem Compiled.ofJsonText_jsonText_odd_tree :
    let tree (x y : Number) : Expr := .conditional
      (.member (.call .unknown []) (.literal (.string "\"\\\n")) false)
      (.array []) (.binary "?" (.literal (.number x)) (.literal (.number y)))
    let e := tree (Number.ofNat (wholeLimit - 1)).neg (Number.ofNat 0).neg
    (∀ x ∈ e.numbers, x.IsWhole) ∧ e.toJson.nesting ≤ Json.maxNesting ∧
      Compiled.ofJsonText .async e.jsonText = .ok (.ofTree .async e) := by
  intro tree e
  have hnumbers : ∀ x ∈ e.numbers, x.IsWhole := by
    have hlast := Number.isWhole_ofNat (show wholeLimit - 1 < wholeLimit by decide)
    have hzero := Number.isWhole_ofNat (show 0 < wholeLimit by decide)
    exact List.forall_mem_cons.2 ⟨hlast.neg, List.forall_mem_singleton.2 hzero.neg⟩
  -- The numbers are kept as variables, so that none is computed with.
  have hnesting : e.toJson.nesting ≤ Json.maxNesting := by
    have htree : ∀ x y, (tree x y).toJson.nesting ≤ Json.maxNesting :=
      fun _ _ => Nat.le_of_ble_eq_true rfl
    exact htree (Number.ofNat (wholeLimit - 1)).neg (Number.ofNat 0).neg
  exact ⟨hnumbers, hnesting, Compiled.ofJsonText_jsonText_of_whole .async e hnumbers hnesting⟩

end Formula
