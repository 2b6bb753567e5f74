import Mathlib.Order.Interval.Set.Basic
import Formula.Context
import Formula.Host.Registry
import Formula.Proofs.Value.Alike

/-!
# `Formula.Proofs.Host.Pure`: hosts that answer alike

A host is pure when what a function answers depends on the receiver and
the arguments only: to like values it gives like answers, whatever its
state is, or fails both times. An answer may hold new arrays and objects,
and the identities of those may differ.

* `Host.Mirrors`: one host answers as another, its functions compared with
  theirs through a map; `Host.Pure` is a host that mirrors itself.
* `Host.native`: every function of a host under a number of its own that
  answers at once.
* `Pure.mirrors_native`: the native functions of a pure host answer as
  the functions that they stand for.
* `Registry.host_pure`: a registry without counters is pure.
-/

set_option autoImplicit false

namespace Formula

/-! ### Hosts that answer alike -/

/-- To like values, and from any two states that have used the identities
in them, two hosts give like answers; the identities that are new in the
answers were taken by the hosts. The identities below the floor are known
to both. What a function does when it is called takes no identity back. -/
def Host.Mirrors {σ : Type} (φ : HostFunction → HostFunction) (h h' : Host σ)
    (floor : Identity) : Prop :=
  ∀ ⦃ρ : Renaming⦄ (f : HostFunction) (receiver receiver' : Value)
    (arguments arguments' : List Value) (s s' : Store σ), ρ.OneToOne → Renaming.below floor ≤ ρ →
    ρ.Within (Set.Iio s.nextIdentity) (Set.Iio s'.nextIdentity) →
    receiver.Alike φ ρ receiver' → Value.AlikeEach φ ρ arguments arguments' →
    let r := h.respond f receiver arguments s
    let r' := h'.respond (φ f) receiver' arguments' s'
    s.nextIdentity ≤ (h.start f receiver arguments s).nextIdentity ∧
    s.nextIdentity ≤ r.2.nextIdentity ∧ s'.nextIdentity ≤ r'.2.nextIdentity ∧
    SameOutcome (fun a a' => ∃ ρ', ρ.Extends ρ' (Set.Ico s.nextIdentity r.2.nextIdentity)
      (Set.Ico s'.nextIdentity r'.2.nextIdentity) ∧ a.Alike φ ρ' a') r.1 r'.1

/-- What the functions of a host answer, and whether they fail, depends on
the receiver and the arguments only. -/
def Host.Pure {σ : Type} (h : Host σ) (floor : Identity) : Prop := h.Mirrors id h floor

/-- A host whose asynchronous functions take other times to answer. -/
def Host.withDelay {σ : Type} (h : Host σ) (delay : HostFunction → Nat) : Host σ :=
  { h with delay }

/-! ### Native functions -/

namespace HostFunction

/-- A function under a number of its own that answers at once. -/
def asNative (f : HostFunction) : HostFunction := ⟨2 * f.id + f.isAsync.toNat, false⟩

/-- The function that a native one stands for. -/
def ofNative (f : HostFunction) : HostFunction := ⟨f.id / 2, f.id % 2 == 1⟩

/-- A function that was made native is found again. -/
theorem ofNative_asNative (f : HostFunction) : f.asNative.ofNative = f := by
  rcases f with ⟨id, isAsync⟩
  cases isAsync <;> simp [asNative, ofNative, Nat.mul_add_div]

/-- So native functions stand for one function each. -/
theorem asNative_injective : Function.Injective asNative :=
  Function.LeftInverse.injective ofNative_asNative

end HostFunction

namespace Value

mutual

/-- A value with every function in it replaced. -/
def mapFunctions (ψ : HostFunction → HostFunction) : Value → Value
  | .undefined => .undefined
  | .null => .null
  | .bool b => .bool b
  | .number n => .number n
  | .string s => .string s
  | .array i elements => .array i (mapFunctionsEach ψ elements)
  | .object i properties => .object i (mapFunctionsProperties ψ properties)
  | .function f => .function (ψ f)

/-- Values with every function in them replaced. -/
def mapFunctionsEach (ψ : HostFunction → HostFunction) : List Value → List Value
  | [] => []
  | v :: vs => mapFunctions ψ v :: mapFunctionsEach ψ vs

/-- Properties with every function in them replaced. -/
def mapFunctionsProperties (ψ : HostFunction → HostFunction) :
    List (String × Value) → List (String × Value)
  | [] => []
  | (name, v) :: rest => (name, mapFunctions ψ v) :: mapFunctionsProperties ψ rest

end

variable {φ : HostFunction → HostFunction} {ρ : Renaming}

mutual

/-- A likeness to a value is one to the value with its functions replaced,
through both maps. -/
theorem Alike.mapFunctions (ψ : HostFunction → HostFunction) : (a b : Value) →
    a.Alike φ ρ b → a.Alike (ψ ∘ φ) ρ (b.mapFunctions ψ)
  | .undefined, b, hab => by rw [alike_undefined.1 hab]; exact alike_undefined.2 rfl
  | .null, b, hab => by rw [alike_null.1 hab]; exact alike_null.2 rfl
  | .bool x, b, hab => by rw [alike_bool.1 hab]; exact alike_bool.2 rfl
  | .number n, b, hab => by rw [alike_number.1 hab]; exact alike_number.2 rfl
  | .string s, b, hab => by rw [alike_string.1 hab]; exact alike_string.2 rfl
  | .function f, b, hab => by rw [alike_function.1 hab]; exact alike_function.2 rfl
  -- Within arrays and objects the functions are mapped as well.
  | .array i as, b, hab => by
      obtain ⟨j, bs, rfl, hij, has⟩ := alike_array.1 hab
      exact alike_array.2 ⟨j, _, rfl, hij, AlikeEach.mapFunctions ψ as bs has⟩
  | .object i as, b, hab => by
      obtain ⟨j, bs, rfl, hij, has⟩ := alike_object.1 hab
      exact alike_object.2 ⟨j, _, rfl, hij, AlikeProperties.mapFunctions ψ as bs has⟩

/-- Lists stay alike when the functions in one of them are mapped on. -/
theorem AlikeEach.mapFunctions (ψ : HostFunction → HostFunction) : (as bs : List Value) →
    AlikeEach φ ρ as bs → AlikeEach (ψ ∘ φ) ρ as (mapFunctionsEach ψ bs)
  | [], bs, hab => by rw [alikeEach_nil.1 hab]; exact alikeEach_nil.2 rfl
  | a :: as, bs, hab => by
      obtain ⟨b, bs, rfl, ha, has⟩ := alikeEach_cons.1 hab
      exact alikeEach_cons.2
        ⟨_, _, rfl, Alike.mapFunctions ψ a b ha, AlikeEach.mapFunctions ψ as bs has⟩

/-- So do properties. -/
theorem AlikeProperties.mapFunctions (ψ : HostFunction → HostFunction) :
    (as bs : List (String × Value)) → AlikeProperties φ ρ as bs →
      AlikeProperties (ψ ∘ φ) ρ as (mapFunctionsProperties ψ bs)
  | [], bs, hab => by rw [alikeProperties_nil.1 hab]; exact alikeProperties_nil.2 rfl
  | (k, a) :: as, bs, hab => by
      obtain ⟨b, bs, rfl, ha, has⟩ := alikeProperties_cons.1 hab
      exact alikeProperties_cons.2
        ⟨_, _, rfl, Alike.mapFunctions ψ a b ha, AlikeProperties.mapFunctions ψ as bs has⟩

end

end Value

/-- The host behind native functions: it takes the functions back that the
native ones stand for, and gives its answer with native functions in it. -/
def Host.native {σ : Type} (h : Host σ) : Host σ where
  delay _ := 0
  respond f receiver arguments s :=
    let (answer, s) := h.respond f.ofNative (receiver.mapFunctions .ofNative)
      (Value.mapFunctionsEach .ofNative arguments) s
    (answer.map (Value.mapFunctions .asNative), s)

/-- A context with native functions in the place of all its functions. -/
def Context.native (ctx : Context) : Context where
  scope := ⟨ctx.scope.identity, Value.mapFunctionsProperties .asNative ctx.scope.properties⟩
  resolver := ctx.resolver.map .asNative

/-- The native functions of a pure host answer as the functions that they
stand for. -/
theorem Host.Pure.mirrors_native {σ : Type} {h : Host σ} {floor : Identity} (hh : h.Pure floor) :
    h.Mirrors .asNative h.native floor := by
  intro ρ f receiver receiver' arguments arguments' s s' hρ hfloor hwithin hreceiver harguments
  have hback : HostFunction.ofNative ∘ HostFunction.asNative = id :=
    funext HostFunction.ofNative_asNative
  -- Taken back, the functions of the native host are those of the pure one.
  have hreceiver' := Value.Alike.mapFunctions .ofNative _ _ hreceiver
  have harguments' := Value.AlikeEach.mapFunctions .ofNative _ _ harguments
  rw [hback] at hreceiver' harguments'
  obtain ⟨hstart, hle, hle', hsame⟩ := hh f _ _ _ _ s s' hρ hfloor hwithin hreceiver' harguments'
  have hnative : h.native.respond f.asNative receiver' arguments' s'
      = ((h.respond f (receiver'.mapFunctions .ofNative)
            (Value.mapFunctionsEach .ofNative arguments') s').1.map (Value.mapFunctions .asNative),
          (h.respond f (receiver'.mapFunctions .ofNative)
            (Value.mapFunctionsEach .ofNative arguments') s').2) := by
    simp only [Host.native, HostFunction.ofNative_asNative]
  rw [hnative]
  refine ⟨hstart, hle, hle', ?_⟩
  have hmap : (h.respond f receiver arguments s).1.map id = (h.respond f receiver arguments s).1 :=
    congrFun Except.map_id _
  rw [← hmap]
  refine SameOutcome.map (hsame.imp ?_)
  rintro a a' ⟨ρ', hρ', ha⟩
  exact ⟨ρ', hρ', Value.Alike.mapFunctions .asNative a a' ha⟩

/-! ### Ready-made functions -/

/-- A behavior that no state of the host and no later identity can be seen
in. -/
def Behavior.IsPure (floor : Identity) : Behavior → Prop
  | .constant value => value.Below floor
  | .table entries => ∀ entry ∈ entries, entry.2.Below floor
  | .counter => False
  | _ => True

section

variable {floor : Identity} {ρ : Renaming}

/-- Like arguments are alike at each position, missing ones included. -/
theorem argumentAt_alike {arguments arguments' : List Value}
    (h : Value.AlikeEach id ρ arguments arguments') (position : Nat) :
    (argumentAt arguments position).Alike id ρ (argumentAt arguments' position) :=
  Value.AlikeEach.getD _ _ h position

/-- What was put into a table is found below the floor. -/
theorem below_getD_get? : (entries : List (String × Value)) →
    (∀ entry ∈ entries, entry.2.Below floor) → (name : String) →
    ((Properties.get? entries name).getD .undefined).Below floor
  | [], _, name => Value.alike_undefined.2 rfl
  | (k, v) :: rest, h, name => by
      have hrest : ∀ entry ∈ rest, entry.2.Below floor :=
        fun entry hentry => h entry (List.mem_cons_of_mem _ hentry)
      simp only [Properties.get?]
      split
      · exact h (k, v) List.mem_cons_self
      · exact below_getD_get? rest hrest name

/-- A ready-made function that is pure answers alike from any two
states. -/
theorem Behavior.respond_alike {behavior : Behavior} (hpure : behavior.IsPure floor) (number : Nat)
    {receiver receiver' : Value} {arguments arguments' : List Value} {s s' : Store Counters}
    (hρ : ρ.OneToOne) (hfloor : Renaming.below floor ≤ ρ)
    (hwithin : ρ.Within (Set.Iio s.nextIdentity) (Set.Iio s'.nextIdentity))
    (hreceiver : receiver.Alike id ρ receiver')
    (harguments : Value.AlikeEach id ρ arguments arguments') :
    let r := behavior.respond number receiver arguments s
    let r' := behavior.respond number receiver' arguments' s'
    s.nextIdentity ≤ r.2.nextIdentity ∧ s'.nextIdentity ≤ r'.2.nextIdentity ∧
    SameOutcome (fun a a' => ∃ ρ', ρ.Extends ρ' (Set.Ico s.nextIdentity r.2.nextIdentity)
      (Set.Ico s'.nextIdentity r'.2.nextIdentity) ∧ a.Alike id ρ' a') r.1 r'.1 := by
  have hfirst := argumentAt_alike harguments 0
  -- Most behaviors take no identity, so that nothing is new.
  have hsame : ρ.Extends ρ (Set.Ico s.nextIdentity s.nextIdentity)
      (Set.Ico s'.nextIdentity s'.nextIdentity) := by
    rw [Set.Ico_self, Set.Ico_self]
    exact .refl hρ
  have hkeep {a a' : Value} (ha : a.Alike id ρ a') :
      ∃ ρ', ρ.Extends ρ' (Set.Ico s.nextIdentity s.nextIdentity)
        (Set.Ico s'.nextIdentity s'.nextIdentity) ∧ a.Alike id ρ' a' := ⟨ρ, hsame, ha⟩
  cases behavior with
  | constant value => exact ⟨le_rfl, le_rfl, hkeep (Value.Alike.mono hfloor _ _ hpure)⟩
  | argument position => exact ⟨le_rfl, le_rfl, hkeep (argumentAt_alike harguments position)⟩
  | receiver => exact ⟨le_rfl, le_rfl, hkeep hreceiver⟩
  | arguments =>
      -- Each run gives the new array the identity that is next in it.
      refine ⟨Nat.le_succ _, Nat.le_succ _, _, .fresh hρ hwithin (Nat.lt_succ_self _)
        (Nat.lt_succ_self _), ?_⟩
      exact Value.alike_array.2 ⟨_, _, rfl, .inr ⟨rfl, rfl⟩,
        Value.AlikeEach.mono (fun _ _ => .inl) _ _ harguments⟩
  | add =>
      exact ⟨le_rfl, le_rfl, hkeep (.apply_binary .add Function.injective_id hρ hfirst
        (argumentAt_alike harguments 1))⟩
  | property =>
      exact ⟨le_rfl, le_rfl, (hreceiver.getKey? hfirst).imp fun _ _ => hkeep⟩
  | prefixed name =>
      have hmember := hreceiver.getKey? (Value.alike_string.2 (rfl : Value.string name = _))
      refine ⟨le_rfl, le_rfl, SameOutcome.map (hmember.imp ?_)⟩
      exact fun v v' hv => hkeep (.apply_binary .add Function.injective_id hρ hv hfirst)
  | isArray =>
      simp only [Behavior.respond]
      revert hfirst
      generalize argumentAt arguments 0 = first
      generalize argumentAt arguments' 0 = first'
      intro hfirst
      cases hfirst.shape with
      | primitive _ => cases first <;> exact ⟨le_rfl, le_rfl, hkeep (Value.alike_bool.2 rfl)⟩
      | _ => exact ⟨le_rfl, le_rfl, hkeep (Value.alike_bool.2 rfl)⟩
  | table entries =>
      -- Like keys have one text, and so find one entry.
      refine ⟨le_rfl, le_rfl, hkeep (Value.Alike.mono hfloor _ _ ?_)⟩
      rw [← Value.Alike.text_eq _ _ hfirst]
      exact below_getD_get? entries hpure _
  | counter => exact hpure.elim
  | failure message => exact ⟨le_rfl, le_rfl, trivial⟩

end

/-- A registry without counters is pure, if it knows the values in it. -/
theorem Registry.host_pure {r : Registry} {floor : Identity}
    (hr : ∀ registration ∈ r, registration.behavior.IsPure floor) : r.host.Pure floor := by
  intro ρ f receiver receiver' arguments arguments' s s' hρ hfloor hwithin hreceiver harguments
  have hpure : (r.find f).behavior.IsPure floor := by
    simp only [Registry.find, Array.getD_eq_getD_getElem?]
    cases hfind : r[f.id]? with
    | none =>
        show Value.undefined.Below floor
        exact Value.alike_undefined.2 rfl
    | some registration => exact hr registration (Array.mem_of_getElem? hfind)
  simp only [Registry.host, id]
  refine ⟨le_rfl, ?_⟩
  -- A resolver is given the text of its first argument only, and like values have the same text.
  cases (r.find f).resolvesNames with
  | true =>
      refine Behavior.respond_alike hpure f.id hρ hfloor hwithin (Value.alike_undefined.2 rfl) ?_
      rw [Value.Alike.text_eq _ _ (argumentAt_alike harguments 0)]
      exact Value.alikeEach_cons.2 ⟨_, _, rfl, Value.alike_string.2 rfl, Value.alikeEach_nil.2 rfl⟩
  | false => exact Behavior.respond_alike hpure f.id hρ hfloor hwithin hreceiver harguments

end Formula
