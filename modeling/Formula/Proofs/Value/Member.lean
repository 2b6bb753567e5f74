import Formula.Proofs.Number.Whole
import Formula.Value.Member

/-!
# `Formula.Proofs.Value.Member`: elements by number and by name

An array is read by a number without a detour through text. That is only
sound when the number and its text stand for the same index: when a number that
is no index, such as a fraction, a negative number or one beyond the limit, is
never written as the numeral of one.

* `indexOfName?_eq_some_iff`: the names of indices are their decimal numerals.
* `indexOfNumber?_eq_some_iff`: the numbers that stand for an index are those
  with its value.
* `indexOfName?_text`: a number and its text stand for the same index.
* `ReadsAs`: what a name reads from every array of some length.
* `getKey?_eq_getNamed?`: a key reads what its name does, and each name of an
  array reads an element, the length or nothing.
-/

set_option autoImplicit false

namespace Formula

/-! ### Indices -/

/-- The names of indices are decimal numerals, without a sign and without leading
zeros. -/
theorem indexOfName?_eq_some_iff {name : String} {i : Nat} :
    indexOfName? name = some i ↔ name = toString i ∧ i < indexLimit := by
  unfold indexOfName?
  dsimp only
  -- One way the digits have to be those of the value. The other way a numeral has only digits
  -- and no leading zero.
  constructor
  · intro h
    split at h
    · rename_i hname
      obtain ⟨hne, hall, hzero⟩ := hname
      have hdigits : ∀ c ∈ name.toList, c.isDigit = true := List.all_eq_true.1 hall
      obtain ⟨hlt, hi⟩ : natOfDigits name.toList < indexLimit ∧ natOfDigits name.toList = i := by
        simpa using h
      have hnumeral : name.toList = Nat.toDigits 10 i := by
        obtain ⟨c, tail, hlist⟩ := List.exists_cons_of_ne_nil hne
        by_cases hc : c = '0'
        · -- A leading zero is the whole numeral.
          have hlength := hzero (by rw [hlist, hc]; rfl)
          rw [hlist, List.length_cons] at hlength
          obtain rfl : tail = [] := List.eq_nil_of_length_eq_zero (Nat.succ.inj hlength)
          rw [hlist, hc] at hi ⊢
          rw [← hi]
          decide
        · -- Without a leading zero the numeral of its value is the text itself.
          have hhead : Leads name.toList := ⟨c, tail, hlist, hc⟩
          rw [← hi, toDigits_natOfDigits hdigits hhead]
      refine ⟨?_, hi ▸ hlt⟩
      apply String.toList_injective
      rw [hnumeral, Nat.toString_eq_ofList_toDigits, String.toList_ofList]
    · cases h
  · rintro ⟨rfl, hlt⟩
    have hlist : (toString i).toList = Nat.toDigits 10 i := by
      rw [Nat.toString_eq_ofList_toDigits, String.toList_ofList]
    have hall : (Nat.toDigits 10 i).all Char.isDigit = true :=
      List.all_eq_true.2 fun c hc => Nat.isDigit_of_mem_toDigits (by decide) (by decide) hc
    have hzero : (Nat.toDigits 10 i).head? = some '0' → (Nat.toDigits 10 i).length = 1 := by
      intro hhead
      rcases Nat.eq_zero_or_pos i with rfl | hpos
      · rfl
      · obtain ⟨c, tail, heq, hc⟩ := leads_toDigits i hpos
        rw [heq, List.head?_cons] at hhead
        exact absurd (Option.some.inj hhead) hc
    simp only [hlist]
    rw [if_pos ⟨Nat.toDigits_ne_nil, hall, hzero⟩, natOfDigits_toDigits, if_pos hlt]

/-- The numbers that stand for an index are those with its value, so that either
zero is the first one. -/
theorem indexOfNumber?_eq_some_iff {x : Number} {i : Nat} :
    indexOfNumber? x = some i ↔ x.IsExactly i ∧ i < indexLimit := by
  unfold indexOfNumber?
  -- The checks before the index say that the number is finite, whole and not negative.
  constructor
  · intro h
    split at h
    · rename_i hx
      simp only [Bool.and_eq_true, decide_eq_true_eq] at hx
      obtain ⟨⟨⟨hfinite, hintegral⟩, hnonneg⟩, hlt⟩ := hx
      obtain rfl := Option.some.inj h
      refine ⟨?_, by omega⟩
      rw [Int.toNat_of_nonneg hnonneg]
      exact Number.isExactly_truncate hfinite hintegral
    · cases h
  · rintro ⟨hexact, hlt⟩
    have htruncate := hexact.truncate_eq
    rw [if_pos, htruncate, Int.toNat_natCast]
    simp only [hexact.1, hexact.isIntegral, htruncate, Bool.and_eq_true, decide_eq_true_eq]
    exact ⟨⟨⟨trivial, trivial⟩, by omega⟩, by omega⟩

/-- A number and its text stand for the same index. -/
theorem indexOfName?_text (x : Number) : indexOfName? x.text = indexOfNumber? x := by
  ext i
  rw [indexOfName?_eq_some_iff, indexOfNumber?_eq_some_iff]
  refine and_congr_left fun hlt => ?_
  exact Number.text_eq_toString_iff (hlt.trans (by decide))

namespace Value

/-- A key that is an index has the name of the index. -/
theorem indexOfName?_propertyKey {key : Value} {i : Nat} (h : key.indexOfKey? = some i) :
    indexOfName? key.propertyKey = some i := by
  cases key with
  | number x => exact (indexOfName?_text x).trans h
  | string s => exact h
  | _ => cases h

/-! ### Reading from an array -/

section

variable {identity : Identity} {elements : List Value} {name : String}

/-- The length is no index. -/
theorem indexOfName?_length : indexOfName? "length" = none := by decide

/-- The length of an array is how many elements it has. -/
theorem getNamed?_length :
    (array identity elements).getNamed? "length" = .ok (.number (.ofNat elements.length)) := rfl

/-- The name of an index is the element there, or nothing beyond the end. -/
theorem getNamed?_index {i : Nat} (h : indexOfName? name = some i) :
    (array identity elements).getNamed? name = .ok (elements.getD i .undefined) := by
  have hne : name ≠ "length" := by
    rintro rfl
    exact absurd (indexOfName?_length.symm.trans h) nofun
  show (if name = "length" then _ else _) = _
  rw [if_neg hne, h]
  rfl

/-- No other name is a member of an array. -/
theorem getNamed?_other (hne : name ≠ "length") (h : indexOfName? name = none) :
    (array identity elements).getNamed? name = .ok .undefined := by
  show (if name = "length" then _ else _) = _
  rw [if_neg hne, h]

end

/-- A name reads this from every array with so many elements, whatever they are. -/
def ReadsAs (n : Nat) (name : String) (read : List Value → Value) : Prop :=
  ∀ identity elements, elements.length = n →
    (array identity elements).getNamed? name = .ok (read elements)

section

variable {n i : Nat} {name : String}

/-- Elements of which one is told from all others, and from a length. -/
def marked (n i : Nat) : List Value := (List.replicate n .undefined).set i (.bool true)

/-- A marked array is as long as asked for. -/
theorem length_marked : (marked n i).length = n := by simp [marked]

/-- Only the marked index has a value in it. -/
theorem getD_marked (hi : i < n) (j : Nat) :
    (marked n i).getD j .undefined = if i = j then .bool true else .undefined := by
  unfold marked
  rw [List.getD_eq_getElem?_getD, List.getElem?_set]
  split
  · simp [hi]
  · rcases Nat.lt_or_ge j n with hj | hj <;> simp [hj]

/-- A name reads the element at an index if it is the numeral of the index,
with nothing before it. -/
theorem readsAs_element_iff (hn : n < indexLimit) (hi : i < n) :
    ReadsAs n name (·.getD i .undefined) ↔ name = toString i := by
  constructor
  · intro hreads
    -- The array that is marked at the index tells a name that reads this element from all
    -- others.
    have hmark := hreads 0 (marked n i) length_marked
    simp only [getD_marked hi, if_true] at hmark
    by_cases hlength : name = "length"
    · rw [hlength, getNamed?_length] at hmark
      cases hmark
    · cases hindex : indexOfName? name with
      | none =>
          rw [getNamed?_other hlength hindex] at hmark
          cases hmark
      | some j =>
          rw [getNamed?_index hindex, getD_marked hi] at hmark
          split at hmark
          · rename_i hij
            exact hij ▸ (indexOfName?_eq_some_iff.1 hindex).1
          · cases hmark
  · intro hname identity elements _
    exact getNamed?_index (indexOfName?_eq_some_iff.2 ⟨hname, hi.trans hn⟩)

/-- A name reads the length if it is the one for it. -/
theorem readsAs_length_iff :
    ReadsAs n name (fun _ => .number (.ofNat n)) ↔ name = "length" := by
  constructor
  · intro hreads
    by_contra hlength
    -- An array of undefined values has a number for a member only under the one name.
    have hnumber := hreads 0 (List.replicate n .undefined) List.length_replicate
    cases hindex : indexOfName? name with
    | none =>
        rw [getNamed?_other hlength hindex] at hnumber
        cases hnumber
    | some j =>
        have hundefined : (List.replicate n undefined).getD j .undefined = .undefined := by
          rw [List.getD_eq_getElem?_getD, List.getElem?_replicate]
          split <;> rfl
        rw [getNamed?_index hindex, hundefined] at hnumber
        cases hnumber
  · rintro rfl identity elements rfl
    rfl

/-- A name reads nothing if it is neither the length nor the numeral of an
index within it. -/
theorem readsAs_undefined_iff (hn : n < indexLimit) :
    ReadsAs n name (fun _ => .undefined) ↔
      name ≠ "length" ∧ ∀ i < n, name ≠ toString i := by
  constructor
  · intro hreads
    constructor
    · rintro rfl
      have hnumber := hreads 0 (List.replicate n .undefined) List.length_replicate
      cases hnumber
    · intro i hi hname
      have hmark := hreads 0 (marked n i) length_marked
      rw [(readsAs_element_iff hn hi).2 hname 0 (marked n i) length_marked] at hmark
      simp only [getD_marked hi, if_true] at hmark
      cases hmark
  -- An index that is not within the length lies beyond the end.
  · rintro ⟨hlength, hnumerals⟩ identity elements rfl
    cases hindex : indexOfName? name with
    | none => exact getNamed?_other hlength hindex
    | some i =>
        have hname := (indexOfName?_eq_some_iff.1 hindex).1
        have hbeyond : elements.length ≤ i := Nat.le_of_not_lt fun hi => hnumerals i hi hname
        rw [getNamed?_index hindex, List.getD_eq_default _ _ hbeyond]

end

/-- A key reads from any value what its name does, with the same error. And from
the arrays of one length, short enough for all elements to have an index, a name
reads the element whose numeral it is, or the exact length, or nothing. -/
theorem getKey?_eq_getNamed? :
    (∀ receiver key : Value, receiver.getKey? key = receiver.getNamed? key.propertyKey) ∧
    ∀ n < indexLimit, (Number.ofNat n).IsExactly n ∧ ∀ name,
      (∀ i < n, ReadsAs n name (·.getD i .undefined) ↔ name = toString i) ∧
      (ReadsAs n name (fun _ => .number (.ofNat n)) ↔ name = "length") ∧
      (ReadsAs n name (fun _ => .undefined) ↔ name ≠ "length" ∧ ∀ i < n, name ≠ toString i) := by
  constructor
  · intro receiver key
    unfold getKey?
    split
    -- The fast path of an index into an array comes to the same element as its text.
    · rename_i identity elements i hindex
      rw [getNamed?_index (indexOfName?_propertyKey hindex)]
      rfl
    · rfl
  · intro n hn
    have hexact : n < significandLimit := hn.trans (by decide)
    exact ⟨Number.isExactly_ofNat hexact, fun name =>
      ⟨fun i hi => readsAs_element_iff hn hi, readsAs_length_iff, readsAs_undefined_iff hn⟩⟩

/-- In three elements the last one has the name `2`. The number after it has the
name of no element, and neither has the same numeral with a sign or with a zero
before it. -/
theorem getKey?_eq_getNamed?_three :
    3 < indexLimit ∧ 2 < 3 ∧ ReadsAs 3 "2" (·.getD 2 .undefined) ∧
      ReadsAs 3 "3" (fun _ => .undefined) ∧ ReadsAs 3 "+2" (fun _ => .undefined) ∧
      ReadsAs 3 "02" (fun _ => .undefined) := by
  have hlimit : 3 < indexLimit := by decide
  have hnames := (getKey?_eq_getNamed?.2 3 hlimit).2
  exact ⟨hlimit, by decide, ((hnames "2").1 2 (by decide)).2 rfl,
    (hnames "3").2.2.2 (by decide), (hnames "+2").2.2.2 (by decide),
    (hnames "02").2.2.2 (by decide)⟩

end Value

end Formula
