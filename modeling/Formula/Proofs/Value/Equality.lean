import Formula.Proofs.Number.Exact
import Formula.Value.Equality

/-!
# `Formula.Proofs.Value.Equality`: laws of the two equalities

Strict equality compares what marks a value: its content, or its identity if it
is a compound. Loose equality converts operands of different kinds, one operand
at a time, until it can answer. `Value.looseEqual` does all of that in one step;
here the conversions are taken one by one, as a run that asks a `Look` again and
again.

* `strictEqual_iff`: strict equality is the equality of marks, and not a number
  is the one value without a mark.
* `Look.within`: looking until there is an answer.
* `Look.Faithful`: a look that is right, or whose conversion keeps the answer and
  leaves fewer conversions; `within_eq_looseEqual`: a run of such looks ends with
  the answer of loose equality.
* `looseLook`: the cases of loose equality, the first that applies.
* `abstractLook`: the abstract equality comparison of JavaScript on the values
  of formulas, by the types of both operands.
* `equalities_lawful`: both runs end with loose equality, and the laws of the
  two equalities.
-/

set_option autoImplicit false

namespace Formula

/-- Being the same, and not the one that has no equal, does not depend on the side. -/
theorem eq_and_ne_comm {α : Type} {x y excluded : α} :
    x = y ∧ x ≠ excluded ↔ y = x ∧ y ≠ excluded := by
  constructor
  · rintro ⟨rfl, hne⟩
    exact ⟨rfl, hne⟩
  · rintro ⟨rfl, hne⟩
    exact ⟨rfl, hne⟩

/-- Numbers are equal on either side. -/
theorem Number.equal_comm (x y : Number) : x.equal y = y.equal x := by
  rw [Bool.eq_iff_iff, Number.equal_iff, Number.equal_iff, eq_and_ne_comm]

namespace Value

variable {a b c : Value}

/-! ### Strict equality -/

/-- What strict equality looks at: the content of a primitive, with the place of
a number on the line, and the identity of a compound. -/
inductive Mark where
  | undefined
  | null
  | bool (b : Bool)
  | number (place : ℤ)
  | string (s : String)
  | array (identity : Identity)
  | object (identity : Identity)
  | function (f : HostFunction)

/-- The mark of a value. Not a number has no place, and so no mark. -/
def mark : Value → Option Mark
  | .undefined => some .undefined
  | .null => some .null
  | .bool b => some (.bool b)
  | .number x => x.key.map .number
  | .string s => some (.string s)
  | .array identity _ => some (.array identity)
  | .object identity _ => some (.object identity)
  | .function f => some (.function f)

/-- Only not a number has no mark. -/
theorem mark_eq_none_iff : a.mark = none ↔ a = .number .nan := by
  cases a <;> simp [mark, Number.key_eq_none_iff]

/-- Two values are strictly equal when they have the same mark. -/
theorem strictEqual_iff : a.strictEqual b = true ↔ a.mark = b.mark ∧ a.mark ≠ none := by
  have hnumber : ∀ x y : Number, x.equal y = true ↔
      x.key.map Mark.number = y.key.map .number ∧ x.key.map Mark.number ≠ none := by
    intro x y
    have hinjective : Function.Injective Mark.number := fun _ _ h => Mark.number.inj h
    rw [Number.equal_iff, (Option.map_injective hinjective).eq_iff, Ne, Ne, Option.map_eq_none_iff]
  cases a <;> cases b <;> simp [strictEqual, mark, hnumber]

/-- Strict equality does not depend on the side. -/
theorem strictEqual_comm (a b : Value) : a.strictEqual b = b.strictEqual a := by
  rw [Bool.eq_iff_iff, strictEqual_iff, strictEqual_iff, eq_and_ne_comm]

/-- It goes on from value to value. -/
theorem strictEqual_trans (hab : a.strictEqual b = true) (hbc : b.strictEqual c = true) :
    a.strictEqual c = true := by
  rw [strictEqual_iff] at hab hbc ⊢
  exact ⟨hab.1.trans hbc.1, hab.2⟩

/-- A value differs from itself only if it is not a number. -/
theorem strictEqual_self_eq_false_iff : a.strictEqual a = false ↔ a = .number .nan := by
  rw [← Bool.not_eq_true, strictEqual_iff, ← mark_eq_none_iff]
  simp

/-! ### Loose equality -/

/-- The kinds of values. -/
def sameKind : Value → Value → Bool
  | .undefined, .undefined | .null, .null | .bool _, .bool _ | .number _, .number _
  | .string _, .string _ | .array _ _, .array _ _ | .object _ _, .object _ _
  | .function _, .function _ => true
  | _, _ => false

/-- Being of one kind does not depend on the side. -/
theorem sameKind_comm (a b : Value) : a.sameKind b = b.sameKind a := by
  cases a <;> cases b <;> rfl

/-- Strictly equal values are of one kind. -/
theorem sameKind_of_strictEqual (h : a.strictEqual b = true) : a.sameKind b = true := by
  cases a <;> cases b <;> first | rfl | cases h

/-- Booleans need no case of their own: as numbers they are equal when they are
the same. -/
theorem looseEqual_eq (a b : Value) : a.looseEqual b =
    if a.isCompound && b.isCompound then a.strictEqual b
    else if a.isNullish || b.isNullish then a.isNullish && b.isNullish
    else looseEqualSimple (boolAsNumber a).toPrimitive (boolAsNumber b).toPrimitive := by
  unfold looseEqual
  split
  · rename_i x y
    cases x <;> cases y <;> decide +kernel
  · rfl

/-- On values of one kind loose equality is strict. -/
theorem looseEqual_of_sameKind (h : a.sameKind b = true) : a.looseEqual b = a.strictEqual b := by
  cases a <;> cases b <;> first | rfl | cases h

/-- So it is on two compound values, which are not converted. -/
theorem looseEqual_of_isCompound (ha : a.isCompound = true) (hb : b.isCompound = true) :
    a.looseEqual b = a.strictEqual b := by
  rw [looseEqual_eq, ha, hb]
  rfl

/-- Null and undefined are equal to each other and to nothing else. -/
theorem looseEqual_of_isNullish (ha : a.isNullish = true) (b : Value) :
    a.looseEqual b = b.isNullish := by
  have hcompound : a.isCompound = false := by
    cases a <;> first | rfl | exact absurd ha Bool.false_ne_true
  rw [looseEqual_eq, hcompound, ha]
  rfl

/-- The same holds of the comparison of primitive values. -/
theorem looseEqualSimple_of_sameKind (h : a.sameKind b = true) :
    looseEqualSimple a b = a.strictEqual b := by
  cases a <;> cases b <;> first | rfl | cases h

/-- Primitive values compare alike on either side. -/
theorem looseEqualSimple_comm (a b : Value) : looseEqualSimple a b = looseEqualSimple b a := by
  by_cases hkind : a.sameKind b = true
  · have hkind' : b.sameKind a = true := sameKind_comm a b ▸ hkind
    rw [looseEqualSimple_of_sameKind hkind, looseEqualSimple_of_sameKind hkind', strictEqual_comm]
  · cases a <;> cases b <;> first | rfl | exact absurd rfl hkind

/-- Loose equality does not depend on the side. -/
theorem looseEqual_comm (a b : Value) : a.looseEqual b = b.looseEqual a := by
  rw [looseEqual_eq, looseEqual_eq, Bool.and_comm a.isCompound, Bool.or_comm a.isNullish,
    Bool.and_comm a.isNullish, strictEqual_comm, looseEqualSimple_comm]

/-- What is strictly equal is loosely equal. -/
theorem looseEqual_of_strictEqual (h : a.strictEqual b = true) : a.looseEqual b = true := by
  rw [looseEqual_of_sameKind (sameKind_of_strictEqual h), h]

/-- A value differs from itself loosely only if it is not a number. -/
theorem looseEqual_self_eq_false_iff : a.looseEqual a = false ↔ a = .number .nan := by
  have hkind : a.sameKind a = true := by cases a <;> rfl
  rw [looseEqual_of_sameKind hkind, strictEqual_self_eq_false_iff]

/-- A boolean is compared as its number. -/
theorem looseEqual_bool (x : Bool) (b : Value) :
    (Value.number (Value.bool x).toNumber).looseEqual b = (Value.bool x).looseEqual b := by
  rw [looseEqual_eq, looseEqual_eq]
  rfl

/-- A compound is compared with a primitive through its string form. -/
theorem looseEqual_toPrimitive (ha : a.isCompound = true) (hb : b.isCompound = false) :
    a.toPrimitive.looseEqual b = a.looseEqual b := by
  have htext : a.toPrimitive = .string a.text := if_pos ha
  have hnullish : a.isNullish = false := by cases a <;> first | rfl | cases ha
  have hsame : boolAsNumber a = a := by cases a <;> first | rfl | cases ha
  rw [looseEqual_eq, looseEqual_eq, hb, Bool.and_false, Bool.and_false, hnullish, hsame, htext]
  rfl

/-! ### Looking again and again -/

/-- What a look at two operands comes to: an answer, or the operands to be looked
at instead. -/
inductive Look where
  | answer (equal : Bool)
  | instead (a b : Value)

namespace Look

/-- Looks until there is an answer, at most so many times. -/
def within (look : Value → Value → Look) : Nat → Value → Value → Option Bool
  | 0, _, _ => none
  | more + 1, a, b =>
    match look a b with
    | .answer equal => some equal
    | .instead a' b' => within look more a' b'

end Look

/-- How many conversions a value has before it. A compound becomes a string, and
a string or a boolean a number. -/
def conversions : Value → Nat
  | .undefined | .null | .number _ => 0
  | .bool _ | .string _ => 1
  | .array _ _ | .object _ _ | .function _ => 2

namespace Look

/-- An answer is the one of loose equality, and a conversion keeps it and comes
closer to the end. -/
def Faithful (a b : Value) : Look → Prop
  | .answer equal => equal = a.looseEqual b
  | .instead a' b' => a'.looseEqual b' = a.looseEqual b ∧
      a'.conversions + b'.conversions < a.conversions + b.conversions

/-- A run of faithful looks ends with the answer of loose equality. -/
theorem within_eq_looseEqual {look : Value → Value → Look}
    (hlook : ∀ a b, (look a b).Faithful a b) (more : Nat) (a b : Value)
    (hmore : a.conversions + b.conversions < more) :
    within look more a b = some (a.looseEqual b) := by
  induction more generalizing a b with
  | zero => omega
  | succ more ih =>
      have hfaithful := hlook a b
      unfold within
      -- An answer is right, and a conversion leaves fewer of them to come.
      cases hcase : look a b with
      | answer equal =>
          rw [hcase] at hfaithful
          exact congrArg some hfaithful
      | instead a' b' =>
          rw [hcase] at hfaithful
          obtain ⟨hkeep, hless⟩ := hfaithful
          show within look more a' b' = some (a.looseEqual b)
          rw [ih a' b' (by omega), hkeep]

end Look

/-! ### The conversions of loose equality -/

/-- A compound has one conversion less to come when it has become a string. -/
theorem conversions_toPrimitive (ha : a.isCompound = true) :
    a.toPrimitive.conversions < a.conversions := by
  have htext : a.toPrimitive = .string a.text := if_pos ha
  rw [htext]
  cases a with
  | array _ _ | object _ _ | function _ => exact Nat.one_lt_two
  | _ => exact absurd ha Bool.false_ne_true

/-- A conversion of the left operand that loose equality makes. -/
theorem Look.faithful_toPrimitive_left (ha : a.isCompound = true) (hb : b.isCompound = false) :
    (Look.instead a.toPrimitive b).Faithful a b := by
  have hless := conversions_toPrimitive ha
  exact ⟨looseEqual_toPrimitive ha hb, by omega⟩

/-- A compound on the right is compared by its string form. -/
theorem Look.faithful_toPrimitive_right (ha : a.isCompound = false) (hb : b.isCompound = true) :
    (Look.instead a b.toPrimitive).Faithful a b := by
  have hless := conversions_toPrimitive hb
  refine ⟨?_, by omega⟩
  rw [looseEqual_comm, looseEqual_toPrimitive hb ha, looseEqual_comm]

/-- A boolean on the left is compared as a number. -/
theorem Look.faithful_bool_left (x : Bool) (b : Value) :
    (Look.instead (.number (Value.bool x).toNumber) b).Faithful (.bool x) b := by
  refine ⟨looseEqual_bool x b, ?_⟩
  show 0 + b.conversions < 1 + b.conversions
  omega

/-- A boolean on the right is compared as a number. -/
theorem Look.faithful_bool_right (a : Value) (y : Bool) :
    (Look.instead a (.number (Value.bool y).toNumber)).Faithful a (.bool y) := by
  refine ⟨?_, ?_⟩
  · rw [looseEqual_comm, looseEqual_bool, looseEqual_comm]
  · show a.conversions + 0 < a.conversions + 1
    omega

/-- What is left when compounds, nullish values and booleans are gone. -/
theorem number_or_string (hcompound : ¬a.isCompound = true) (hnullish : ¬a.isNullish = true)
    (hbool : ∀ x, a = .bool x → False) : (∃ x, a = .number x) ∨ ∃ s, a = .string s := by
  cases a with
  | undefined | null => exact absurd rfl hnullish
  | bool x => exact (hbool x rfl).elim
  | number x => exact .inl ⟨x, rfl⟩
  | string s => exact .inr ⟨s, rfl⟩
  | array _ _ | object _ _ | function _ => exact absurd rfl hcompound

/-- The cases of loose equality, the first that applies: values of one kind, two
compounds, null or undefined, a number and a string, and then one operand is
converted, a boolean before a compound. -/
def looseLook (a b : Value) : Look :=
  if a.sameKind b then .answer (a.strictEqual b)
  else if a.isCompound && b.isCompound then .answer false
  else if a.isNullish || b.isNullish then .answer (a.isNullish && b.isNullish)
  else
    match a, b with
    | .number x, .string s | .string s, .number x => .answer (x.equal (.ofText s))
    | .bool _, _ => .instead (.number a.toNumber) b
    | _, .bool _ => .instead a (.number b.toNumber)
    | _, _ =>
      if a.isCompound then .instead a.toPrimitive b
      else if b.isCompound then .instead a b.toPrimitive
      else .answer false

/-- The comparison of the program looks faithfully. -/
theorem looseLook_faithful (a b : Value) : (looseLook a b).Faithful a b := by
  unfold looseLook
  by_cases hkind : a.sameKind b = true
  · rw [if_pos hkind]
    exact (looseEqual_of_sameKind hkind).symm
  rw [if_neg hkind]
  have hstrict : a.strictEqual b = false :=
    Bool.eq_false_iff.2 fun h => hkind (sameKind_of_strictEqual h)
  by_cases hcompound : (a.isCompound && b.isCompound) = true
  · rw [if_pos hcompound]
    show false = a.looseEqual b
    rw [looseEqual_eq, if_pos hcompound, hstrict]
  rw [if_neg hcompound]
  by_cases hnullish : (a.isNullish || b.isNullish) = true
  · rw [if_pos hnullish]
    show (a.isNullish && b.isNullish) = a.looseEqual b
    rw [looseEqual_eq, if_neg hcompound, if_pos hnullish]
  rw [if_neg hnullish]
  -- Neither nullish nor both compound: first booleans, then a compound against a primitive.
  split
  · rfl
  · rfl
  · exact Look.faithful_bool_left _ b
  · exact Look.faithful_bool_right a _
  · rename_i hbool hbool' hnumber hstring
    by_cases ha : a.isCompound = true
    · have hb : b.isCompound = false := by simpa [ha] using hcompound
      rw [if_pos ha]
      exact Look.faithful_toPrimitive_left ha hb
    rw [if_neg ha]
    by_cases hb : b.isCompound = true
    · rw [if_pos hb]
      exact Look.faithful_toPrimitive_right (Bool.eq_false_iff.2 ha) hb
    · -- Two primitives that are left are both numbers or both strings.
      rw [Bool.or_eq_true, not_or] at hnullish
      rcases number_or_string ha hnullish.1 hbool with ⟨x, rfl⟩ | ⟨s, rfl⟩ <;>
        rcases number_or_string hb hnullish.2 hbool' with ⟨y, rfl⟩ | ⟨t, rfl⟩
      · exact absurd rfl hkind
      · exact (hnumber x t rfl rfl).elim
      · exact (hstring s y rfl rfl).elim
      · exact absurd rfl hkind

/-! ### The abstract comparison by types -/

/-- The types of values, one for all compounds. -/
inductive Kind where
  | undefined | null | boolean | number | string | object
deriving DecidableEq

/-- The type of a value. -/
def kind : Value → Kind
  | .undefined => .undefined
  | .null => .null
  | .bool _ => .boolean
  | .number _ => .number
  | .string _ => .string
  | .array _ _ | .object _ _ | .function _ => .object

/-- One step of the abstract equality comparison of JavaScript: values of one type
are compared strictly, null and undefined are equal, a string becomes a number
before a number, a boolean becomes a number, a compound becomes its string form
before a number or a string, and all else differs. -/
def abstractLook (a b : Value) : Look :=
  if a.kind = b.kind then .answer (a.strictEqual b)
  else
    match a.kind, b.kind with
    | .null, .undefined | .undefined, .null => .answer true
    | .number, .string => .instead a (.number b.toNumber)
    | .string, .number => .instead (.number a.toNumber) b
    | .boolean, _ => .instead (.number a.toNumber) b
    | _, .boolean => .instead a (.number b.toNumber)
    | .number, .object | .string, .object => .instead a b.toPrimitive
    | .object, .number | .object, .string => .instead a.toPrimitive b
    | _, _ => .answer false

/-- Compound values are the ones of the type of objects. -/
theorem isCompound_iff : a.isCompound = true ↔ a.kind = .object := by
  cases a <;> simp [isCompound, kind]

/-- Nullish values are the ones of the two types without content. -/
theorem isNullish_iff : a.isNullish = true ↔ a.kind = .undefined ∨ a.kind = .null := by
  cases a <;> simp [isNullish, kind]

/-- The values of the type of booleans. -/
theorem exists_of_kind_boolean (h : a.kind = .boolean) : ∃ x, a = .bool x := by
  cases a <;> first | exact ⟨_, rfl⟩ | cases h

/-- The values of the type of numbers. -/
theorem exists_of_kind_number (h : a.kind = .number) : ∃ x, a = .number x := by
  cases a <;> first | exact ⟨_, rfl⟩ | cases h

/-- The values of the type of strings. -/
theorem exists_of_kind_string (h : a.kind = .string) : ∃ s, a = .string s := by
  cases a <;> first | exact ⟨_, rfl⟩ | cases h

/-- On values of one type loose equality is strict. -/
theorem looseEqual_of_kind_eq (h : a.kind = b.kind) : a.looseEqual b = a.strictEqual b := by
  by_cases ha : a.isCompound = true
  · have hb : b.isCompound = true := by
      rw [isCompound_iff] at ha ⊢
      exact h ▸ ha
    exact looseEqual_of_isCompound ha hb
  · refine looseEqual_of_sameKind ?_
    cases a <;> cases b <;> first | rfl | exact absurd rfl ha | cases h

/-- An object on the left is compared by its primitive form. -/
theorem Look.faithful_object_left (ha : a.kind = .object) (hb : b.kind ≠ .object) :
    (Look.instead a.toPrimitive b).Faithful a b :=
  Look.faithful_toPrimitive_left (isCompound_iff.2 ha)
    (Bool.eq_false_iff.2 fun h => hb (isCompound_iff.1 h))

/-- So is one on the right. -/
theorem Look.faithful_object_right (ha : a.kind ≠ .object) (hb : b.kind = .object) :
    (Look.instead a b.toPrimitive).Faithful a b :=
  Look.faithful_toPrimitive_right (Bool.eq_false_iff.2 fun h => ha (isCompound_iff.1 h))
    (isCompound_iff.2 hb)

/-- The abstract equality comparison looks faithfully. -/
theorem abstractLook_faithful (a b : Value) : (abstractLook a b).Faithful a b := by
  unfold abstractLook
  by_cases hkind : a.kind = b.kind
  · rw [if_pos hkind]
    exact (looseEqual_of_kind_eq hkind).symm
  rw [if_neg hkind]
  -- One case for each arm of the table: nullish pairs, a number and a string, booleans, objects.
  split
  · rename_i ha hb
    have hnullish : a.isNullish = true := isNullish_iff.2 (.inr ha)
    show true = a.looseEqual b
    rw [looseEqual_of_isNullish hnullish, isNullish_iff.2 (.inl hb)]
  · rename_i ha hb
    have hnullish : a.isNullish = true := isNullish_iff.2 (.inl ha)
    show true = a.looseEqual b
    rw [looseEqual_of_isNullish hnullish, isNullish_iff.2 (.inr hb)]
  · rename_i ha hb
    obtain ⟨x, rfl⟩ := exists_of_kind_number ha
    obtain ⟨s, rfl⟩ := exists_of_kind_string hb
    exact ⟨rfl, Nat.zero_lt_one⟩
  · rename_i ha hb
    obtain ⟨s, rfl⟩ := exists_of_kind_string ha
    obtain ⟨x, rfl⟩ := exists_of_kind_number hb
    exact ⟨Number.equal_comm _ _, Nat.zero_lt_one⟩
  · rename_i ha
    obtain ⟨x, rfl⟩ := exists_of_kind_boolean ha
    exact Look.faithful_bool_left x b
  · rename_i hb _
    obtain ⟨y, rfl⟩ := exists_of_kind_boolean hb
    exact Look.faithful_bool_right a y
  · rename_i ha hb
    exact Look.faithful_object_right (by simp [ha]) hb
  · rename_i ha hb
    exact Look.faithful_object_right (by simp [ha]) hb
  · rename_i ha hb
    exact Look.faithful_object_left ha (by simp [hb])
  · rename_i ha hb
    exact Look.faithful_object_left ha (by simp [hb])
  · -- What is left is null or undefined on one side and something else on the other.
    show false = a.looseEqual b
    -- With neither nullish, two kinds that differ have been in an arm above.
    by_cases ha : a.isNullish = true
    · rw [looseEqual_of_isNullish ha, eq_comm, ← Bool.not_eq_true, isNullish_iff]
      rw [isNullish_iff] at ha
      grind
    · by_cases hb : b.isNullish = true
      · rw [looseEqual_comm, looseEqual_of_isNullish hb, Bool.eq_false_iff.2 ha]
      · rw [isNullish_iff] at ha hb
        exfalso
        cases hka : a.kind <;> cases hkb : b.kind <;> simp_all

/-! ### The laws -/

/-- Looking by cases, and comparing by types, end with the answer of loose
equality, after as many conversions as both operands have before them at most.
Both equalities are symmetric, and reflexive except for not a number. Strict
equality is transitive, and what is strictly equal is loosely equal. -/
theorem equalities_lawful :
    (∀ a b : Value, Look.within looseLook (a.conversions + b.conversions + 1) a b
      = some (a.looseEqual b)) ∧
    (∀ a b : Value, Look.within abstractLook (a.conversions + b.conversions + 1) a b
      = some (a.looseEqual b)) ∧
    (∀ a b : Value, a.looseEqual b = b.looseEqual a) ∧
    (∀ a b : Value, a.strictEqual b = b.strictEqual a) ∧
    (∀ a b c : Value, a.strictEqual b = true → b.strictEqual c = true →
      a.strictEqual c = true) ∧
    (∀ a b : Value, a.strictEqual b = true → a.looseEqual b = true) ∧
    (∀ a : Value, a.strictEqual a = false ↔ a = .number .nan) ∧
    (∀ a : Value, a.looseEqual a = false ↔ a = .number .nan) := by
  refine ⟨fun a b => ?_, fun a b => ?_, looseEqual_comm, strictEqual_comm, ?_, ?_, ?_, ?_⟩
  · exact Look.within_eq_looseEqual looseLook_faithful _ a b (Nat.lt_succ_self _)
  · exact Look.within_eq_looseEqual abstractLook_faithful _ a b (Nat.lt_succ_self _)
  · exact fun _ _ _ => strictEqual_trans
  · exact fun _ _ => looseEqual_of_strictEqual
  · exact fun _ => strictEqual_self_eq_false_iff
  · exact fun _ => looseEqual_self_eq_false_iff

/-- The two zeros are one number, so strict equality goes from one to the other
and back, and a truth meets the text of one in a list by three conversions. -/
theorem equalities_lawful_zeros :
    (number (.zeroOf true)).strictEqual (number .zero) = true ∧
    (number .zero).strictEqual (number (.zeroOf true)) = true ∧
    (number (.zeroOf true)).strictEqual (number (.zeroOf true)) = true ∧
    (number (.zeroOf true)).looseEqual (number .zero) = true ∧
    Look.within abstractLook 4 (bool true) (array 0 [string "1"])
      = some ((bool true).looseEqual (array 0 [string "1"])) := by
  have hthere : (number (.zeroOf true)).strictEqual (number .zero) = true := by decide +kernel
  have hback : (number .zero).strictEqual (number (.zeroOf true)) = true := by decide +kernel
  obtain ⟨-, habstract, -, -, htrans, hloose, -⟩ := equalities_lawful
  exact ⟨hthere, hback, htrans _ _ _ hthere hback, hloose _ _ hthere,
    habstract (bool true) (array 0 [string "1"])⟩

end Value

end Formula
