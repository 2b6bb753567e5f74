import Mathlib.Data.Set.BooleanAlgebra
import Mathlib.Data.Set.Disjoint
import Mathlib.Order.CompletePartialOrder
import Mathlib.Order.ConditionallyCompleteLattice.Basic
import Mathlib.Order.Interval.Set.Defs
import Formula.Operator
import Formula.Value.Member

/-!
# `Formula.Proofs.Value.Alike`: values up to identities

Two runs of one formula may take the identities of their new arrays and
objects in different orders. A `Renaming` says which identity of the one
run stands for which of the other, and a map on host functions says which
function stands for which. `Value.Alike` compares values through both.

Nothing that formulas do with values looks at an identity except to ask
whether it is the same as another, so everything keeps to a renaming that
is one-to-one:

* `Alike.text_eq`, `Alike.toPrimitive_eq`, `Alike.toNumber_eq`: the
  conversions of like values are equal.
* `Alike.strictEqual_eq`, `Alike.looseEqual_eq`, `Alike.less_eq`: like
  values compare alike.
* `Alike.apply_unary`, `Alike.apply_binary`: operators on like values give
  like values.
* `Alike.getNamed?`, `Alike.getKey?`: members of like values are like.

A renaming also says which identities there are: `Value.Below n` is a value
that is like itself when only the identities below `n` stand for
themselves.
-/

set_option autoImplicit false

namespace Formula

/-! ### Renamings -/

/-- Which identity of one run stands for which identity of another. -/
abbrev Renaming : Type := Identity → Identity → Prop

namespace Renaming

/-- No identity stands for two, and none is stood for by two. -/
def OneToOne (ρ : Renaming) : Prop :=
  ∀ ⦃i j i' j' : Identity⦄, ρ i j → ρ i' j' → (i = i' ↔ j = j')

/-- The identities below a bound, each for itself. -/
def below (n : Identity) : Renaming := fun i j => i = j ∧ i < n

/-- The identities of either run all lie in a set. -/
def Within (ρ : Renaming) (s s' : Set Identity) : Prop :=
  ∀ ⦃i j : Identity⦄, ρ i j → i ∈ s ∧ j ∈ s'

/-- The identities below a bound stand for themselves only. -/
theorem oneToOne_below (n : Identity) : (below n).OneToOne := by
  rintro i j i' j' ⟨rfl, -⟩ ⟨rfl, -⟩
  exact Iff.rfl

/-- What stands for what when one identity is looked up through two
renamings to the same run. -/
def through (ρ ρ' : Renaming) : Renaming := fun i j => ∃ k, ρ i k ∧ ρ' j k

/-- Through two one-to-one renamings to the same run, identities are again
renamed one to one. -/
theorem OneToOne.through {ρ ρ' : Renaming} (hρ : ρ.OneToOne) (hρ' : ρ'.OneToOne) :
    (ρ.through ρ').OneToOne := by
  rintro i j i' j' ⟨k, hik, hjk⟩ ⟨k', hik', hjk'⟩
  exact (hρ hik hik').trans (hρ' hjk hjk').symm

/-- An identity that both renamings leave as it is stands for itself through
them. -/
theorem below_le_through {n : Identity} {ρ ρ' : Renaming} (hρ : below n ≤ ρ) (hρ' : below n ≤ ρ') :
    below n ≤ ρ.through ρ' := by
  rintro i j ⟨rfl, hi⟩
  exact ⟨i, hρ i i ⟨rfl, hi⟩, hρ' i i ⟨rfl, hi⟩⟩

/-- A larger renaming: what is new in it comes from a set of identities on
either side. -/
structure Extends (ρ ρ' : Renaming) (s s' : Set Identity) : Prop where
  le : ρ ≤ ρ'
  oneToOne : ρ'.OneToOne
  new : ∀ ⦃i j : Identity⦄, ρ' i j → ρ i j ∨ i ∈ s ∧ j ∈ s'

namespace Extends

variable {ρ ρ₁ ρ₂ : Renaming} {s s' t t' : Set Identity}

/-- A renaming extends itself with nothing new. -/
theorem refl (hρ : ρ.OneToOne) : ρ.Extends ρ ∅ ∅ := ⟨le_rfl, hρ, fun _ _ => .inl⟩

/-- What is new in two extensions, one after the other, is new in either. -/
theorem trans (h₁ : ρ.Extends ρ₁ s s') (h₂ : ρ₁.Extends ρ₂ t t') :
    ρ.Extends ρ₂ (s ∪ t) (s' ∪ t') := by
  refine ⟨h₁.le.trans h₂.le, h₂.oneToOne, fun i j hij => ?_⟩
  rcases h₂.new hij with hij | ⟨hi, hj⟩
  · rcases h₁.new hij with hij | ⟨hi, hj⟩
    · exact .inl hij
    · exact .inr ⟨.inl hi, .inl hj⟩
  · exact .inr ⟨.inr hi, .inr hj⟩

/-- More identities may be new. -/
theorem mono (h : ρ.Extends ρ₁ s s') (hst : s ⊆ t) (hst' : s' ⊆ t') : ρ.Extends ρ₁ t t' :=
  ⟨h.le, h.oneToOne, fun _ _ hij => (h.new hij).imp_right fun hnew =>
    ⟨hst hnew.1, hst' hnew.2⟩⟩

/-- Two extensions fit together when they are new on different
identities. -/
theorem sup (h₁ : ρ.Extends ρ₁ s s') (h₂ : ρ.Extends ρ₂ t t') (hst : Disjoint s t)
    (hst' : Disjoint s' t') : ρ.Extends (ρ₁ ⊔ ρ₂) (s ∪ t) (s' ∪ t') := by
  -- A pair of the one and a pair of the other: if either is old, it is in both extensions.
  have hcross : ∀ ⦃i j i' j' : Identity⦄, ρ₁ i j → ρ₂ i' j' → (i = i' ↔ j = j') := by
    intro i j i' j' hij hij'
    rcases h₁.new hij with hold | ⟨hi, hj⟩
    · exact h₂.oneToOne (h₂.le i j hold) hij'
    · rcases h₂.new hij' with hold | ⟨hi', hj'⟩
      · exact h₁.oneToOne hij (h₁.le i' j' hold)
      · exact iff_of_false (hst.ne_of_mem hi hi') (hst'.ne_of_mem hj hj')
  -- Either both pairs are of one extension, or `hcross` compares them.
  refine ⟨h₁.le.trans le_sup_left, ?_, ?_⟩
  · rintro i j i' j' (hij | hij) (hij' | hij')
    · exact h₁.oneToOne hij hij'
    · exact hcross hij hij'
    · rw [eq_comm, hcross hij' hij, eq_comm]
    · exact h₂.oneToOne hij hij'
  · rintro i j (hij | hij)
    · exact (h₁.new hij).imp_right fun h => ⟨.inl h.1, .inl h.2⟩
    · exact (h₂.new hij).imp_right fun h => ⟨.inr h.1, .inr h.2⟩

/-- An identity that neither run has used may stand for another such. -/
theorem fresh {n n' m m' : Identity} (hρ : ρ.OneToOne) (hn : ρ.Within (Set.Iio n) (Set.Iio n'))
    (hm : n < m) (hm' : n' < m') :
    ρ.Extends (fun i j => ρ i j ∨ i = n ∧ j = n') (Set.Ico n m) (Set.Ico n' m') := by
  refine ⟨fun _ _ => .inl, ?_, ?_⟩
  · rintro i j i' j' (hij | ⟨rfl, rfl⟩) (hij' | ⟨rfl, rfl⟩)
    · exact hρ hij hij'
    · exact iff_of_false (ne_of_lt (hn hij).1) (ne_of_lt (hn hij).2)
    · exact iff_of_false (ne_of_gt (hn hij').1) (ne_of_gt (hn hij').2)
    · exact iff_of_true rfl rfl
  · rintro i j (hij | ⟨rfl, rfl⟩)
    · exact .inl hij
    · exact .inr ⟨⟨le_rfl, hm⟩, le_rfl, hm'⟩

/-- The identities of an extension lie below a bound if the old and the new
ones do. -/
theorem within {n n' m m' : Identity} (h : ρ.Extends ρ₁ s s')
    (hn : ρ.Within (Set.Iio n) (Set.Iio n')) (hm : n ≤ m) (hm' : n' ≤ m')
    (hs : ∀ i ∈ s, i < m) (hs' : ∀ i ∈ s', i < m') :
    ρ₁.Within (Set.Iio m) (Set.Iio m') := by
  intro i j hij
  rcases h.new hij with hold | ⟨hi, hj⟩
  · exact ⟨(hn hold).1.trans_le hm, (hn hold).2.trans_le hm'⟩
  · exact ⟨hs i hi, hs' j hj⟩

end Extends

end Renaming

/-! ### Like values -/

mutual

/-- Two values with the same content, compared through a map on functions
and a renaming of identities. -/
def Value.Alike (φ : HostFunction → HostFunction) (ρ : Renaming) : Value → Value → Prop
  | .undefined, .undefined => True
  | .null, .null => True
  | .bool a, .bool b => a = b
  | .number a, .number b => a = b
  | .string a, .string b => a = b
  | .array i as, .array j bs => ρ i j ∧ Value.AlikeEach φ ρ as bs
  | .object i as, .object j bs => ρ i j ∧ Value.AlikeProperties φ ρ as bs
  | .function f, .function g => g = φ f
  | _, _ => False

/-- Like values, one by one. -/
def Value.AlikeEach (φ : HostFunction → HostFunction) (ρ : Renaming) :
    List Value → List Value → Prop
  | [], [] => True
  | a :: as, b :: bs => Value.Alike φ ρ a b ∧ Value.AlikeEach φ ρ as bs
  | _, _ => False

/-- The same names with like values, one by one. -/
def Value.AlikeProperties (φ : HostFunction → HostFunction) (ρ : Renaming) :
    List (String × Value) → List (String × Value) → Prop
  | [], [] => True
  | (k, a) :: as, (l, b) :: bs => k = l ∧ Value.Alike φ ρ a b ∧ Value.AlikeProperties φ ρ as bs
  | _, _ => False

end

/-- Every identity in the value is below a bound. -/
def Value.Below (n : Identity) (v : Value) : Prop := v.Alike id (Renaming.below n) v

namespace Value

variable {φ : HostFunction → HostFunction} {ρ ρ' : Renaming}

/-! ### What a value is like -/

/-- Only the undefined value is like itself. -/
theorem alike_undefined {b : Value} : Alike φ ρ .undefined b ↔ b = .undefined := by
  cases b with
  | undefined => exact iff_of_true trivial rfl
  | _ => exact iff_of_false id nofun

/-- Only null is like null. -/
theorem alike_null {b : Value} : Alike φ ρ .null b ↔ b = .null := by
  cases b with
  | null => exact iff_of_true trivial rfl
  | _ => exact iff_of_false id nofun

/-- A truth value is like itself alone. -/
theorem alike_bool {x : Bool} {b : Value} : Alike φ ρ (.bool x) b ↔ b = .bool x := by
  cases b with
  | bool y =>
      change x = y ↔ _
      rw [Value.bool.injEq, eq_comm]
  | _ => exact iff_of_false id nofun

/-- A number is like itself alone. -/
theorem alike_number {n : Number} {b : Value} : Alike φ ρ (.number n) b ↔ b = .number n := by
  cases b with
  | number m =>
      change n = m ↔ _
      rw [Value.number.injEq, eq_comm]
  | _ => exact iff_of_false id nofun

/-- A string is like itself alone. -/
theorem alike_string {s : String} {b : Value} : Alike φ ρ (.string s) b ↔ b = .string s := by
  cases b with
  | string t =>
      change s = t ↔ _
      rw [Value.string.injEq, eq_comm]
  | _ => exact iff_of_false id nofun

/-- An array is like one whose identity stands for its own and whose
elements are like its own. -/
theorem alike_array {i : Identity} {as : List Value} {b : Value} :
    Alike φ ρ (.array i as) b ↔ ∃ j bs, b = .array j bs ∧ ρ i j ∧ AlikeEach φ ρ as bs := by
  constructor
  · intro h
    cases b with
    | array j bs => exact ⟨j, bs, rfl, h⟩
    | _ => exact h.elim
  · rintro ⟨j, bs, rfl, h⟩
    exact h

/-- An object is like one with the same keys and like values. -/
theorem alike_object {i : Identity} {as : List (String × Value)} {b : Value} :
    Alike φ ρ (.object i as) b
      ↔ ∃ j bs, b = .object j bs ∧ ρ i j ∧ AlikeProperties φ ρ as bs := by
  constructor
  · intro h
    cases b with
    | object j bs => exact ⟨j, bs, rfl, h⟩
    | _ => exact h.elim
  · rintro ⟨j, bs, rfl, h⟩
    exact h

/-- A host function is like the one that it is mapped to. -/
theorem alike_function {f : HostFunction} {b : Value} :
    Alike φ ρ (.function f) b ↔ b = .function (φ f) := by
  cases b with
  | function g =>
      change g = φ f ↔ _
      rw [Value.function.injEq]
  | _ => exact iff_of_false id nofun

/-- Without values the other side has none. -/
theorem alikeEach_nil {bs : List Value} : AlikeEach φ ρ [] bs ↔ bs = [] := by
  cases bs with
  | nil => exact iff_of_true trivial rfl
  | cons b bs => exact iff_of_false id nofun

/-- Lists of like values are alike one by one. -/
theorem alikeEach_cons {a : Value} {as bs : List Value} :
    AlikeEach φ ρ (a :: as) bs ↔ ∃ b bs', bs = b :: bs' ∧ Alike φ ρ a b ∧ AlikeEach φ ρ as bs' := by
  constructor
  · intro h
    cases bs with
    | nil => exact h.elim
    | cons b bs => exact ⟨b, bs, rfl, h⟩
  · rintro ⟨b, bs, rfl, h⟩
    exact h

/-- Without properties the other side has none. -/
theorem alikeProperties_nil {bs : List (String × Value)} :
    AlikeProperties φ ρ [] bs ↔ bs = [] := by
  cases bs with
  | nil => exact iff_of_true trivial rfl
  | cons b bs => exact iff_of_false id nofun

/-- Properties are alike one by one, under the same keys. -/
theorem alikeProperties_cons {k : String} {a : Value} {as bs : List (String × Value)} :
    AlikeProperties φ ρ ((k, a) :: as) bs
      ↔ ∃ b bs', bs = (k, b) :: bs' ∧ Alike φ ρ a b ∧ AlikeProperties φ ρ as bs' := by
  constructor
  · intro h
    rcases bs with _ | ⟨⟨l, b⟩, bs⟩
    · exact h.elim
    · obtain ⟨rfl, h⟩ := h
      exact ⟨b, bs, rfl, h⟩
  · rintro ⟨b, bs, rfl, h⟩
    exact ⟨rfl, h⟩

/-- How two like values are built: of the same primitive, or of the same
kind of compound with like parts. -/
inductive AlikeShape (φ : HostFunction → HostFunction) (ρ : Renaming) : Value → Value → Prop
  | primitive {a : Value} (ha : a.isCompound = false) : AlikeShape φ ρ a a
  | array {i j : Identity} {as bs : List Value} (hij : ρ i j) (has : AlikeEach φ ρ as bs) :
    AlikeShape φ ρ (.array i as) (.array j bs)
  | object {i j : Identity} {as bs : List (String × Value)} (hij : ρ i j)
    (has : AlikeProperties φ ρ as bs) : AlikeShape φ ρ (.object i as) (.object j bs)
  | function {f g : HostFunction} (hfg : g = φ f) : AlikeShape φ ρ (.function f) (.function g)

/-- Like values are of one form: the same primitive value, or two arrays,
objects or functions. -/
theorem Alike.shape {a b : Value} (hab : a.Alike φ ρ b) : AlikeShape φ ρ a b := by
  -- By the form of the first value; what the second one is then follows.
  cases a with
  | undefined =>
      obtain rfl := alike_undefined.1 hab
      exact .primitive rfl
  | null =>
      obtain rfl := alike_null.1 hab
      exact .primitive rfl
  | bool x =>
      obtain rfl := alike_bool.1 hab
      exact .primitive rfl
  | number n =>
      obtain rfl := alike_number.1 hab
      exact .primitive rfl
  | string s =>
      obtain rfl := alike_string.1 hab
      exact .primitive rfl
  | array i as =>
      obtain ⟨j, bs, rfl, hij, has⟩ := alike_array.1 hab
      exact .array hij has
  | object i as =>
      obtain ⟨j, bs, rfl, hij, has⟩ := alike_object.1 hab
      exact .object hij has
  | function f =>
      obtain rfl := alike_function.1 hab
      exact .function rfl

/-- A value without identities and functions is like itself. -/
theorem Alike.refl_of_not_isCompound {a : Value} (ha : a.isCompound = false) :
    a.Alike φ ρ a := by
  cases a with
  | undefined => exact alike_undefined.2 rfl
  | null => exact alike_null.2 rfl
  | bool x => exact alike_bool.2 rfl
  | number n => exact alike_number.2 rfl
  | string s => exact alike_string.2 rfl
  | array i as => cases ha
  | object i as => cases ha
  | function f => cases ha

mutual

/-- More identities that stand for one another take no likeness away. -/
theorem Alike.mono (hρ : ρ ≤ ρ') : (a b : Value) → a.Alike φ ρ b → a.Alike φ ρ' b
  | .undefined, b, hab => by rwa [alike_undefined] at hab ⊢
  | .null, b, hab => by rwa [alike_null] at hab ⊢
  | .bool x, b, hab => by rwa [alike_bool] at hab ⊢
  | .number n, b, hab => by rwa [alike_number] at hab ⊢
  | .string s, b, hab => by rwa [alike_string] at hab ⊢
  | .function f, b, hab => by rwa [alike_function] at hab ⊢
  -- Only arrays and objects look into the renaming.
  | .array i as, b, hab => by
      rw [alike_array] at hab ⊢
      obtain ⟨j, bs, rfl, hij, has⟩ := hab
      exact ⟨j, bs, rfl, hρ i j hij, AlikeEach.mono hρ as bs has⟩
  | .object i as, b, hab => by
      rw [alike_object] at hab ⊢
      obtain ⟨j, bs, rfl, hij, has⟩ := hab
      exact ⟨j, bs, rfl, hρ i j hij, AlikeProperties.mono hρ as bs has⟩

/-- Lists that are alike stay so under a larger renaming. -/
theorem AlikeEach.mono (hρ : ρ ≤ ρ') :
    (as bs : List Value) → AlikeEach φ ρ as bs → AlikeEach φ ρ' as bs
  | [], bs, hab => by rwa [alikeEach_nil] at hab ⊢
  | a :: as, bs, hab => by
      rw [alikeEach_cons] at hab ⊢
      obtain ⟨b, bs, rfl, ha, has⟩ := hab
      exact ⟨b, bs, rfl, Alike.mono hρ a b ha, AlikeEach.mono hρ as bs has⟩

/-- So do properties. -/
theorem AlikeProperties.mono (hρ : ρ ≤ ρ') : (as bs : List (String × Value)) →
    AlikeProperties φ ρ as bs → AlikeProperties φ ρ' as bs
  | [], bs, hab => by rwa [alikeProperties_nil] at hab ⊢
  | (k, a) :: as, bs, hab => by
      rw [alikeProperties_cons] at hab ⊢
      obtain ⟨b, bs, rfl, ha, has⟩ := hab
      exact ⟨b, bs, rfl, Alike.mono hρ a b ha, AlikeProperties.mono hρ as bs has⟩

end

mutual

/-- Two values that are like a third one are like each other, through the
renamings to it. -/
theorem Alike.through (hφ : Function.Injective φ) : (a b c : Value) → a.Alike φ ρ c →
    b.Alike φ ρ' c → a.Alike id (ρ.through ρ') b
  -- Shape by shape, since a value like another one has its shape.
  | .undefined, b, c, hac, hbc => by
      obtain rfl := alike_undefined.1 hac
      cases hbc.shape
      exact alike_undefined.2 rfl
  | .null, b, c, hac, hbc => by
      obtain rfl := alike_null.1 hac
      cases hbc.shape
      exact alike_null.2 rfl
  | .bool x, b, c, hac, hbc => by
      obtain rfl := alike_bool.1 hac
      cases hbc.shape
      exact alike_bool.2 rfl
  | .number n, b, c, hac, hbc => by
      obtain rfl := alike_number.1 hac
      cases hbc.shape
      exact alike_number.2 rfl
  | .string s, b, c, hac, hbc => by
      obtain rfl := alike_string.1 hac
      cases hbc.shape
      exact alike_string.2 rfl
  | .function f, b, c, hac, hbc => by
      obtain rfl := alike_function.1 hac
      cases hbc.shape with
      | primitive hcompound => cases hcompound
      | function hfg => exact alike_function.2 (congrArg _ (hφ hfg).symm)
  | .array i as, b, c, hac, hbc => by
      obtain ⟨k, cs, rfl, hik, has⟩ := alike_array.1 hac
      cases hbc.shape with
      | primitive hcompound => cases hcompound
      | array hjk hbs =>
          exact alike_array.2 ⟨_, _, rfl, ⟨k, hik, hjk⟩, AlikeEach.through hφ as _ cs has hbs⟩
  | .object i as, b, c, hac, hbc => by
      obtain ⟨k, cs, rfl, hik, has⟩ := alike_object.1 hac
      cases hbc.shape with
      | primitive hcompound => cases hcompound
      | object hjk hbs =>
          exact alike_object.2
            ⟨_, _, rfl, ⟨k, hik, hjk⟩, AlikeProperties.through hφ as _ cs has hbs⟩

/-- Lists that are like the same list are alike through it. -/
theorem AlikeEach.through (hφ : Function.Injective φ) : (as bs cs : List Value) →
    AlikeEach φ ρ as cs → AlikeEach φ ρ' bs cs → AlikeEach id (ρ.through ρ') as bs
  | [], bs, cs, hac, hbc => by
      obtain rfl := alikeEach_nil.1 hac
      cases bs <;> first | exact hbc.elim | exact hbc
  | a :: as, bs, cs, hac, hbc => by
      obtain ⟨c, cs, rfl, ha, has⟩ := alikeEach_cons.1 hac
      cases bs with
      | nil => exact hbc.elim
      | cons b bs =>
          exact ⟨Alike.through hφ a b c ha hbc.1, AlikeEach.through hφ as bs cs has hbc.2⟩

/-- So are properties. -/
theorem AlikeProperties.through (hφ : Function.Injective φ) : (as bs cs : List (String × Value)) →
    AlikeProperties φ ρ as cs → AlikeProperties φ ρ' bs cs →
      AlikeProperties id (ρ.through ρ') as bs
  | [], bs, cs, hac, hbc => by
      obtain rfl := alikeProperties_nil.1 hac
      cases bs <;> first | exact hbc.elim | exact hbc
  | (k, a) :: as, bs, cs, hac, hbc => by
      obtain ⟨c, cs, rfl, ha, has⟩ := alikeProperties_cons.1 hac
      rcases bs with _ | ⟨⟨l, b⟩, bs⟩
      · exact hbc.elim
      · obtain ⟨rfl, hb, hbs⟩ := hbc
        exact ⟨rfl, Alike.through hφ a b c ha hb, AlikeProperties.through hφ as bs cs has hbs⟩

end

/-! ### Conversions -/

/-- Of like values both are nullish or neither. -/
theorem Alike.isNullish_eq {a b : Value} (hab : a.Alike φ ρ b) : a.isNullish = b.isNullish := by
  cases hab.shape <;> rfl

/-- Of like values both are compound or neither. -/
theorem Alike.isCompound_eq {a b : Value} (hab : a.Alike φ ρ b) :
    a.isCompound = b.isCompound := by
  cases hab.shape <;> rfl

/-- Without identities and functions there is nothing to compare
through. -/
theorem Alike.eq_of_not_isCompound {a b : Value} (hab : a.Alike φ ρ b)
    (ha : a.isCompound = false) : b = a := by
  cases hab.shape with
  | primitive _ => rfl
  | array _ _ => cases ha
  | object _ _ => cases ha
  | function _ => cases ha

mutual

/-- Like values have the same string form. -/
theorem Alike.text_eq : (a b : Value) → a.Alike φ ρ b → a.text = b.text
  | .undefined, b, hab => by rw [alike_undefined.1 hab]
  | .null, b, hab => by rw [alike_null.1 hab]
  | .bool x, b, hab => by rw [alike_bool.1 hab]
  | .number n, b, hab => by rw [alike_number.1 hab]
  | .string s, b, hab => by rw [alike_string.1 hab]
  -- The text of a function does not tell which one it is, and no text tells an identity.
  | .function f, b, hab => by
      rw [alike_function.1 hab]
      rfl
  | .array i as, b, hab => by
      obtain ⟨j, bs, rfl, -, has⟩ := alike_array.1 hab
      simp only [text, AlikeEach.elementTexts_eq as bs has]
  | .object i as, b, hab => by
      obtain ⟨j, bs, rfl, -, -⟩ := alike_object.1 hab
      rfl

/-- Like elements have the same texts. -/
theorem AlikeEach.elementTexts_eq :
    (as bs : List Value) → AlikeEach φ ρ as bs → elementTexts as = elementTexts bs
  | [], bs, hab => by rw [alikeEach_nil.1 hab]
  | a :: as, bs, hab => by
      obtain ⟨b, bs, rfl, ha, has⟩ := alikeEach_cons.1 hab
      simp only [elementTexts, ha.isNullish_eq, Alike.text_eq a b ha,
        AlikeEach.elementTexts_eq as bs has]

end

/-- Like values have the same primitive: a compound becomes a text. -/
theorem Alike.toPrimitive_eq {a b : Value} (hab : a.Alike φ ρ b) :
    a.toPrimitive = b.toPrimitive := by
  simp only [toPrimitive, hab.isCompound_eq, Alike.text_eq a b hab]
  split
  · rfl
  · rename_i hcompound
    rw [← hab.isCompound_eq, Bool.not_eq_true] at hcompound
    exact (hab.eq_of_not_isCompound hcompound).symm

/-- Like values are true or false together. -/
theorem Alike.isTruthy_eq {a b : Value} (hab : a.Alike φ ρ b) : a.isTruthy = b.isTruthy := by
  cases hab.shape <;> rfl

/-- Like values are the same number. -/
theorem Alike.toNumber_eq {a b : Value} (hab : a.Alike φ ρ b) : a.toNumber = b.toNumber := by
  have htext := Alike.text_eq a b hab
  cases hab.shape with
  | primitive _ => rfl
  | array _ _ => exact congrArg Number.ofText htext
  | object _ _ => exact congrArg Number.ofText htext
  | function _ => exact congrArg Number.ofText htext

/-- Like values are the same word of bits. -/
theorem Alike.toWord_eq {a b : Value} (hab : a.Alike φ ρ b) : a.toWord = b.toWord := by
  simp only [toWord, hab.toNumber_eq]

/-! ### Comparisons -/

section

variable {a a' b b' : Value}

/-- Like values are the same for `===` where their likes are: renamings
and the map on functions must be one-to-one for that. -/
theorem Alike.strictEqual_eq (hφ : Function.Injective φ) (hρ : ρ.OneToOne)
    (ha : a.Alike φ ρ a') (hb : b.Alike φ ρ b') :
    a.strictEqual b = a'.strictEqual b' := by
  -- Compounds of one kind are compared by identity, and of two kinds never the same.
  cases ha.shape with
  | primitive hcompound =>
      cases hb.shape with
      | primitive _ => rfl
      | _ => cases a <;> first | rfl | cases hcompound
  | array hi _ =>
      cases hb.shape with
      | array hj _ => exact Bool.eq_iff_iff.2 (by simpa [strictEqual] using hρ hi hj)
      | primitive hcompound => cases b <;> first | rfl | cases hcompound
      | _ => rfl
  | object hi _ =>
      cases hb.shape with
      | object hj _ => exact Bool.eq_iff_iff.2 (by simpa [strictEqual] using hρ hi hj)
      | primitive hcompound => cases b <;> first | rfl | cases hcompound
      | _ => rfl
  | function hf =>
      cases hb.shape with
      | function hg =>
          subst hf hg
          exact Bool.eq_iff_iff.2 (by simpa [strictEqual] using hφ.eq_iff.symm)
      | primitive hcompound => cases b <;> first | rfl | cases hcompound
      | _ => rfl

/-- A truth value is made a number on both sides. -/
theorem Alike.boolAsNumber (ha : a.Alike φ ρ a') :
    a.boolAsNumber.Alike φ ρ a'.boolAsNumber := by
  cases ha.shape with
  | primitive hcompound =>
      refine .refl_of_not_isCompound ?_
      cases a <;> first | rfl | exact hcompound
  | _ => exact ha

/-- Like values are the same for `==` where their likes are. Past the
strict comparisons only primitives are compared. -/
theorem Alike.looseEqual_eq (hφ : Function.Injective φ) (hρ : ρ.OneToOne)
    (ha : a.Alike φ ρ a') (hb : b.Alike φ ρ b') :
    a.looseEqual b = a'.looseEqual b' := by
  have hrest : (if a.isCompound && b.isCompound then strictEqual a b
      else if a.isNullish || b.isNullish then a.isNullish && b.isNullish
      else looseEqualSimple a.boolAsNumber.toPrimitive b.boolAsNumber.toPrimitive) =
      (if a'.isCompound && b'.isCompound then strictEqual a' b'
      else if a'.isNullish || b'.isNullish then a'.isNullish && b'.isNullish
      else looseEqualSimple a'.boolAsNumber.toPrimitive b'.boolAsNumber.toPrimitive) := by
    rw [ha.isCompound_eq, hb.isCompound_eq, ha.isNullish_eq, hb.isNullish_eq,
      ha.strictEqual_eq hφ hρ hb, ha.boolAsNumber.toPrimitive_eq, hb.boolAsNumber.toPrimitive_eq]
  -- Two truth values are compared at once; else the cases agree by their tests.
  cases ha.shape with
  | primitive hcompound =>
      cases hb.shape with
      | primitive _ => rfl
      | _ => cases a <;> exact hrest
  | _ => exact hrest

/-- Like values are in the same order. -/
theorem Alike.less_eq (ha : a.Alike φ ρ a') (hb : b.Alike φ ρ b') : a.less b = a'.less b' := by
  simp only [less, ha.toPrimitive_eq, hb.toPrimitive_eq]

end

/-! ### Operators -/

/-- Signs make like values of like values. -/
theorem Alike.apply_unary {a a' : Value} (operator : UnaryOperator) (ha : a.Alike φ ρ a') :
    (operator.apply a).Alike φ ρ (operator.apply a') := by
  have heq : operator.apply a = operator.apply a' := by
    cases operator <;> simp only [UnaryOperator.apply, ha.toNumber_eq, ha.toWord_eq, ha.isTruthy_eq]
  rw [heq]
  exact .refl_of_not_isCompound (by cases operator <;> rfl)

/-- The sum of two values is a text or a number. -/
theorem isCompound_sum (a b : Value) : (BinaryOperator.sum a b).isCompound = false := by
  unfold BinaryOperator.sum
  split <;> rfl

/-- Only the logical operators hand an operand on; every other result is a
primitive, and is the same for like operands. -/
theorem Alike.apply_binary {a a' b b' : Value} (operator : BinaryOperator)
    (hφ : Function.Injective φ) (hρ : ρ.OneToOne) (ha : a.Alike φ ρ a') (hb : b.Alike φ ρ b') :
    (operator.apply a b).Alike φ ρ (operator.apply a' b') := by
  -- The lazy operators give one of their operands back. All others give a primitive value, which
  -- is the same on both sides.
  have heq (hor : operator ≠ .or) (hand : operator ≠ .and) :
      operator.apply a b = operator.apply a' b' := by
    cases operator with
    | or => exact absurd rfl hor
    | and => exact absurd rfl hand
    | _ =>
        simp only [BinaryOperator.apply, BinaryOperator.sum, ha.toWord_eq, hb.toWord_eq,
          ha.toNumber_eq, hb.toNumber_eq, ha.toPrimitive_eq, hb.toPrimitive_eq, ha.less_eq hb,
          hb.less_eq ha, ha.looseEqual_eq hφ hρ hb, ha.strictEqual_eq hφ hρ hb]
  cases operator with
  | or =>
      simp only [BinaryOperator.apply, ha.isTruthy_eq]
      split
      · exact ha
      · exact hb
  | and =>
      simp only [BinaryOperator.apply, ha.isTruthy_eq]
      split
      · exact hb
      · exact ha
  | add =>
      rw [heq nofun nofun]
      exact .refl_of_not_isCompound (isCompound_sum a' b')
  | _ =>
      rw [heq nofun nofun]
      exact .refl_of_not_isCompound rfl

/-! ### Members -/

/-- Lists that are alike are of one length. -/
theorem AlikeEach.length_eq : (as bs : List Value) → AlikeEach φ ρ as bs → as.length = bs.length
  | [], bs, hab => by rw [alikeEach_nil.1 hab]
  | a :: as, bs, hab => by
      obtain ⟨b, bs, rfl, -, has⟩ := alikeEach_cons.1 hab
      rw [List.length_cons, List.length_cons, AlikeEach.length_eq as bs has]

/-- An element at a position, or undefined past the end. -/
theorem AlikeEach.getD : (as bs : List Value) → AlikeEach φ ρ as bs → (i : Nat) →
    (as[i]?.getD .undefined).Alike φ ρ (bs[i]?.getD .undefined)
  | [], bs, hab, i => by
      rw [alikeEach_nil.1 hab]
      exact alike_undefined.2 rfl
  | a :: as, bs, hab, 0 => by
      obtain ⟨b, bs, rfl, ha, -⟩ := alikeEach_cons.1 hab
      exact ha
  | a :: as, bs, hab, i + 1 => by
      obtain ⟨b, bs, rfl, -, has⟩ := alikeEach_cons.1 hab
      exact AlikeEach.getD as bs has i

/-- A property is missing from both objects or has like values. -/
theorem AlikeProperties.get? : (as bs : List (String × Value)) → AlikeProperties φ ρ as bs →
    (name : String) → Option.Rel (Alike φ ρ) (Properties.get? as name) (Properties.get? bs name)
  | [], bs, hab, name => by
      rw [alikeProperties_nil.1 hab]
      exact .none
  | (k, a) :: as, bs, hab, name => by
      obtain ⟨b, bs, rfl, ha, has⟩ := alikeProperties_cons.1 hab
      simp only [Properties.get?]
      split
      · exact .some ha
      · exact AlikeProperties.get? as bs has name

/-- What may be missing is missing on both sides, and then undefined. -/
theorem Alike.option_getD {a b : Option Value} (hab : Option.Rel (Alike φ ρ) a b) :
    (a.getD .undefined).Alike φ ρ (b.getD .undefined) := by
  cases hab with
  | some hab => exact hab
  | none => exact alike_undefined.2 rfl

end Value

/-- Both outcomes are failures, or both are values that are related. -/
def SameOutcome {ε ε' α β : Type} (R : α → β → Prop) : Except ε α → Except ε' β → Prop
  | .ok a, .ok b => R a b
  | .error _, .error _ => True
  | _, _ => False

/-- Two results that are related. -/
theorem SameOutcome.ok {ε ε' α β : Type} {R : α → β → Prop} {a : α} {b : β} (hab : R a b) :
    SameOutcome R (.ok a : Except ε α) (.ok b : Except ε' β) :=
  hab

/-- The relation of the results may be weakened. -/
theorem SameOutcome.imp {ε ε' α β : Type} {R R' : α → β → Prop} {a : Except ε α} {b : Except ε' β}
    (hab : SameOutcome R a b) (hR : ∀ x y, R x y → R' x y) : SameOutcome R' a b := by
  cases a <;> cases b <;> first | exact hR _ _ hab | exact hab

/-- Which error it is does not matter. -/
theorem SameOutcome.mapError {ε ε' ε'' α β : Type} {R : α → β → Prop} {g : ε' → ε''}
    {a : Except ε α} {b : Except ε' β} (hab : SameOutcome R a b) :
    SameOutcome R a (b.mapError g) := by
  cases a <;> cases b <;> exact hab

/-- What is made of two results is related if the makings keep the relation. -/
theorem SameOutcome.map {ε ε' α β α' β' : Type} {R : α' → β' → Prop} {f : α → α'} {g : β → β'}
    {a : Except ε α} {b : Except ε' β} (hab : SameOutcome (fun x y => R (f x) (g y)) a b) :
    SameOutcome R (a.map f) (b.map g) := by
  cases a <;> cases b <;> exact hab

namespace Value

variable {φ : HostFunction → HostFunction} {ρ : Renaming} {a a' k k' : Value}

/-- Like values have like members under a name, or both have none to look
up. -/
theorem Alike.getNamed? (ha : a.Alike φ ρ a') (name : String) :
    SameOutcome (Alike φ ρ) (a.getNamed? name) (a'.getNamed? name) := by
  -- By the form of the value. Strings and arrays count the same units and elements, so a name is
  -- an index in both or in neither.
  cases a with
  | array i as =>
      obtain ⟨j, bs, rfl, -, has⟩ := alike_array.1 ha
      simp only [Value.getNamed?, AlikeEach.length_eq as bs has]
      split
      · exact .ok (alike_number.2 rfl)
      · cases indexOfName? name with
        | none => exact .ok (alike_undefined.2 rfl)
        | some i => exact .ok (AlikeEach.getD as bs has i)
  | object i as =>
      obtain ⟨j, bs, rfl, -, has⟩ := alike_object.1 ha
      exact .ok (Alike.option_getD (AlikeProperties.get? as bs has name))
  | function f =>
      obtain rfl := alike_function.1 ha
      exact .ok (alike_undefined.2 rfl)
  | string s =>
      obtain rfl := alike_string.1 ha
      simp only [Value.getNamed?]
      split
      · exact .ok (alike_number.2 rfl)
      · cases indexOfName? name with
        | none => exact .ok (alike_undefined.2 rfl)
        | some i =>
            dsimp only
            cases unitAt? s i with
            | none => exact .ok (alike_undefined.2 rfl)
            | some t => exact .ok (alike_string.2 rfl)
  | undefined =>
      obtain rfl := alike_undefined.1 ha
      trivial
  | null =>
      obtain rfl := alike_null.1 ha
      trivial
  | bool x =>
      obtain rfl := alike_bool.1 ha
      exact .ok (alike_undefined.2 rfl)
  | number n =>
      obtain rfl := alike_number.1 ha
      exact .ok (alike_undefined.2 rfl)

/-- Like keys are the same index. -/
theorem Alike.indexOfKey?_eq (hk : k.Alike φ ρ k') : k.indexOfKey? = k'.indexOfKey? := by
  cases hk.shape <;> rfl

/-- Like values have like members under like keys. -/
theorem Alike.getKey? (ha : a.Alike φ ρ a') (hk : k.Alike φ ρ k') :
    SameOutcome (Alike φ ρ) (a.getKey? k) (a'.getKey? k') := by
  -- Apart from an index into an array a key is looked up by its text, which is the same.
  have hnamed : SameOutcome (Alike φ ρ) (a.getNamed? k.propertyKey)
      (a'.getNamed? k'.propertyKey) := by
    rw [propertyKey, propertyKey, ← Alike.text_eq k k' hk]
    exact ha.getNamed? k.text
  cases ha.shape with
  | array _ has =>
      simp only [Value.getKey?, hk.indexOfKey?_eq]
      cases hindex : k'.indexOfKey? with
      | none => exact hnamed
      | some i => exact .ok (AlikeEach.getD _ _ has i)
  | primitive hcompound => cases a <;> first | exact hnamed | cases hcompound
  | _ => exact hnamed

end Value

end Formula
