import Formula.Operator
import Formula.Proofs.Number.Roundtrip
import Formula.Proofs.Text.Units
import Formula.Proofs.Value.Member

/-!
# `Formula.Proofs.Value.Indexing`: texts by their units

A text is read by number like an array of its UTF-16 units. Each unit is decoded by
itself, so that the two halves of a pair are lost, but nothing else is.

* `unitLength_eq_sum`: the number of units, from the characters.
* `isUnitChar_charOfUnit`: what a unit is decoded to.
* `Value.getKey?_string_number`: what a number reads from a text.
* `Value.total_singletons`: adding characters up.
-/

set_option autoImplicit false

namespace Formula

/-! ### Units -/

/-- The number of units of a character: a pair for those beyond the basic plane. -/
def unitCount (c : Char) : Nat := if c.toNat < 0x10000 then 1 else 2

/-- A character is one unit or two, as it is counted. -/
theorem length_unitsOfChar (c : Char) : (unitsOfChar c).length = unitCount c := by
  unfold unitsOfChar unitCount
  split <;> rfl

/-- The length of a string is the count of its characters, summed up. -/
theorem unitLength_eq_sum (s : String) : unitLength s = (s.toList.map unitCount).sum := by
  unfold unitLength unitsOf
  rw [List.length_flatMap]
  simp only [length_unitsOfChar]

/-- A unit has 16 bits. -/
theorem lt_of_mem_unitsOf {s : String} {unit : Nat} (h : unit ∈ unitsOf s) : unit < 0x10000 := by
  obtain ⟨c, -, hc⟩ := List.mem_flatMap.1 h
  have hrange := (toNat_char c).2
  unfold unitsOfChar at hc
  split at hc
  · obtain rfl := List.mem_singleton.1 hc
    assumption
  · simp only [List.mem_cons, List.not_mem_nil, or_false] at hc
    omega

/-- The character that a unit is decoded to by itself: its own, or the replacement
character for half of a pair. -/
def IsUnitChar (unit : Nat) (c : Char) : Prop :=
  if 0xD800 ≤ unit ∧ unit < 0xE000 then c = '\uFFFD' else c.toNat = unit

/-- What stands for a unit is its character, or the replacement of a
surrogate. -/
theorem isUnitChar_charOfUnit {unit : Nat} (h : unit < 0x10000) :
    IsUnitChar unit (charOfUnit unit) := by
  unfold IsUnitChar charOfUnit
  split
  · rfl
  · rename_i hwhole
    have hvalid : unit.isValidChar := by
      unfold Nat.isValidChar
      omega
    rw [Char.toNat_ofNat, if_pos hvalid]

/-- A character that is one unit stands for itself. -/
theorem charOfUnit_toNat {c : Char} (h : c.toNat < 0x10000) : charOfUnit c.toNat = c := by
  have hvalid := (toNat_char c).1
  unfold charOfUnit
  rw [if_neg (by omega), Char.ofNat_toNat]

/-- Characters of the basic plane are decoded from their units. -/
theorem map_charOfUnit {cs : List Char} (h : ∀ c ∈ cs, c.toNat < 0x10000) :
    (cs.flatMap unitsOfChar).map charOfUnit = cs := by
  induction cs with
  | nil => rfl
  | cons c cs ih =>
      obtain ⟨hc, hcs⟩ := List.forall_mem_cons.1 h
      have hunits : unitsOfChar c = [c.toNat] := if_pos hc
      rw [List.flatMap_cons, hunits, List.map_append, ih hcs, List.map_singleton,
        charOfUnit_toNat hc, List.singleton_append]

namespace Value

variable {s : String} {x : Number} {i : Nat}

/-! ### Reading by number -/

/-- No number is spelled like the name of the length. -/
theorem text_ne_length (x : Number) : x.text ≠ "length" := by
  intro h
  -- The word is not a number, so what is spelled like it would not be one either.
  have hkey := Number.key_ofText_text x
  have hnone : Number.ofText "length" = .nan := by decide +kernel
  rw [h, hnone] at hkey
  rw [Number.key_eq_none_iff.1 hkey.symm] at h
  exact absurd h (by decide)

/-- A number reads from a text the unit at the index that it stands for. -/
theorem getKey?_string_number (s : String) (x : Number) :
    (string s).getKey? (number x)
      = .ok ((((indexOfNumber? x).bind (unitAt? s)).map string).getD .undefined) := by
  have hname : (string s).getKey? (number x) = (string s).getNamed? x.text := rfl
  rw [hname, getNamed?, if_neg (text_ne_length x), indexOfName?_text]
  cases indexOfNumber? x <;> rfl

/-- A number that is exactly an index gives the unit there. -/
theorem getKey?_of_isExactly {unit : Nat} (hunit : (unitsOf s)[i]? = some unit)
    (hlimit : i < indexLimit) (hx : x.IsExactly i) :
    (string s).getKey? (number x) = .ok (string (.singleton (charOfUnit unit))) := by
  rw [getKey?_string_number, indexOfNumber?_eq_some_iff.2 ⟨hx, hlimit⟩, Option.bind_some,
    unitAt?, hunit]
  rfl

/-- Any other number gives nothing. -/
theorem getKey?_of_not_isExactly (hx : ∀ i < unitLength s, ¬x.IsExactly i) :
    (string s).getKey? (number x) = .ok .undefined := by
  rw [getKey?_string_number]
  cases hindex : indexOfNumber? x with
  | none => rfl
  | some i =>
      have hbeyond : unitLength s ≤ i :=
        Nat.not_lt.1 fun hlt => hx i hlt (indexOfNumber?_eq_some_iff.1 hindex).1
      rw [Option.bind_some, unitAt?, List.getElem?_eq_none hbeyond]
      rfl

/-! ### Adding up -/

/-- The values added up from the left; an empty text when there are none. -/
def total : List Value → Value
  | [] => .string ""
  | v :: vs => vs.foldl BinaryOperator.add.apply v

/-- Strings of one character each add up to the string of them all. -/
theorem foldl_add_singletons (cs : List Char) (t : String) :
    (cs.map fun c => string (.singleton c)).foldl BinaryOperator.add.apply (string t)
      = string (t ++ String.ofList cs) := by
  induction cs generalizing t with
  | nil => simp
  | cons c cs ih =>
      have hstep : BinaryOperator.add.apply (string t) (string (.singleton c))
          = string (t ++ .singleton c) := rfl
      rw [List.map_cons, List.foldl_cons, hstep, ih, String.append_assoc]
      congr 2
      apply String.toList_injective
      simp

/-- Characters are added up to the text of all. -/
theorem total_singletons (cs : List Char) :
    total (cs.map fun c => string (.singleton c)) = string (String.ofList cs) := by
  cases cs with
  | nil => rfl
  | cons c cs =>
      rw [List.map_cons, total, foldl_add_singletons]
      congr 1
      apply String.toList_injective
      simp

/-- The elements of a text, read one after the other. -/
def stringElements (s : String) : Except EvalError (List Value) :=
  (List.range (unitLength s)).mapM fun i => (string s).getKey? (number (.ofNat i))

/-- Steps that all succeed give the list of what they give. -/
theorem mapM_eq_ok {α β ε : Type} {f : α → Except ε β} {g : α → β} {as : List α}
    (h : ∀ a ∈ as, f a = .ok (g a)) : as.mapM f = .ok (as.map g) := by
  induction as with
  | nil => rfl
  | cons a as ih =>
      obtain ⟨hhead, htail⟩ := List.forall_mem_cons.1 h
      rw [List.mapM_cons, hhead, ih htail]
      rfl

/-- The elements are the characters that the units are decoded to. -/
theorem stringElements_eq (hlimit : unitLength s < indexLimit) :
    stringElements s = .ok (((unitsOf s).map charOfUnit).map fun c => string (.singleton c)) := by
  unfold stringElements
  have hread : ∀ i ∈ List.range (unitLength s), (string s).getKey? (number (.ofNat i))
      = .ok (string (.singleton (charOfUnit ((unitsOf s)[i]?.getD 0)))) := by
    intro i hi
    have hlt := List.mem_range.1 hi
    have hunit : (unitsOf s)[i]? = some (unitsOf s)[i] := List.getElem?_eq_getElem hlt
    rw [getKey?_of_isExactly hunit (hlt.trans hlimit) (Number.isExactly_ofNat ?_), hunit]
    · rfl
    · exact (hlt.trans hlimit).trans (by decide)
  -- Every index within the length is read; what remains is that the units are listed by their
  -- indices.
  rw [mapM_eq_ok hread]
  congr 1
  refine List.ext_getElem (by simp [unitLength]) fun i hi _ => ?_
  have hlt : i < (unitsOf s).length := by simpa [unitLength] using hi
  simp [List.getElem?_eq_getElem hlt]

/-- A text is indexed by its units. Its length is their number; a number reads the
character of the unit at its index, and a number that is none of the indices reads
nothing. So the elements of a text add up to as many characters as it has units, and
to the text itself if it is of the basic plane. -/
theorem string_indexing (hlimit : unitLength s < indexLimit) :
    (unitLength s = (s.toList.map unitCount).sum ∧
      ∃ x : Number, x.IsExactly (unitLength s) ∧
        (string s).getKey? (string "length") = .ok (number x)) ∧
    (∀ (x : Number) (i : Nat) (h : i < (unitsOf s).length), x.IsExactly i →
      ∃ c, IsUnitChar (unitsOf s)[i] c ∧
        (string s).getKey? (number x) = .ok (string (.singleton c))) ∧
    (∀ x : Number, (∀ i < unitLength s, ¬x.IsExactly i) →
      (string s).getKey? (number x) = .ok .undefined) ∧
    ∃ vs t, stringElements s = .ok vs ∧ total vs = string t ∧ t.length = unitLength s ∧
      ((∀ c ∈ s.toList, c.toNat < 0x10000) → t = s) := by
  refine ⟨⟨unitLength_eq_sum s, .ofNat (unitLength s), ?_, rfl⟩, ?_,
    fun x hx => getKey?_of_not_isExactly hx, ?_⟩
  · exact Number.isExactly_ofNat (hlimit.trans (by decide))
  · intro x i h hx
    have hunit := isUnitChar_charOfUnit (lt_of_mem_unitsOf (List.getElem_mem h))
    exact ⟨_, hunit, getKey?_of_isExactly (List.getElem?_eq_getElem h) (h.trans hlimit) hx⟩
  · refine ⟨_, String.ofList ((unitsOf s).map charOfUnit), stringElements_eq hlimit,
      total_singletons _, ?_, fun hplane => ?_⟩
    · rw [String.length_ofList, List.length_map]
      rfl
    · rw [unitsOf, map_charOfUnit hplane, String.ofList_toList]

/-- In a string with a pair of surrogates each of them is read as the
replacement, and beyond all indices there is nothing. -/
theorem string_indexing_pair :
    unitLength "a😀" < indexLimit ∧
    (string "a😀").getKey? (number (.ofNat 1)) = .ok (string "\uFFFD") ∧
    (string "a😀").getKey? (number (.infinite false)) = .ok .undefined := by
  have hlimit : unitLength "a😀" < indexLimit := by decide
  have hunit : (unitsOf "a😀")[1] = 0xD83D := by decide
  obtain ⟨-, hread, hnone, -⟩ := string_indexing hlimit
  obtain ⟨c, hc, hvalue⟩ := hread (.ofNat 1) 1 (by decide) (Number.isExactly_ofNat (by decide))
  rw [hunit, IsUnitChar, if_pos (by decide)] at hc
  rw [hc] at hvalue
  exact ⟨hlimit, hvalue, hnone _ fun i _ hexact => Bool.false_ne_true hexact.1⟩

end Value

end Formula
