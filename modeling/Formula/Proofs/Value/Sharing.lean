import Mathlib.Data.List.Induction
import Formula.Proofs.Value.Storage
import Formula.Value.Equality

/-!
# `Formula.Proofs.Value.Sharing`: places that share storage

Whatever a host program does with handles, values and contexts, it finds
in each place what it would find if every place had its own whole object,
value or context: that the content is shared cannot be told, but by which
handles are on one object.

* `Root.Reads`: what a handle, a value or a context is read as.
* `Memory.Agrees`: every place is read as its item, and the counts are
  right for the places.
* `Memory.Agrees.step`: each action keeps it so.
* `Memory.run_reads`: so it is after all actions; to set a property
  through a handle changes no other place, and handles on one object have
  the same content.
-/

set_option autoImplicit false

namespace Formula.Storage

variable {cells cells' : Cells} {a : Address}

/-! ### What is read of a place -/

/-- What a handle, a value or a context is read as. -/
inductive Root.Reads (cells : Cells) : Root → Item → Prop
  | handle {a : Address} {o : Object} (h : Held.Reads cells (.shared a) o.toValue) :
    Root.Reads cells (.handle a) (.handle o)
  | value {x : Held} {v : Value} (h : x.Reads cells v) : Root.Reads cells (.value x) (.value v)
  | context {a : Address} {ctx : Context} (h : Held.Reads cells (.shared a) ctx.scope.toValue) :
    Root.Reads cells (.context a ctx.resolver) (.context ctx)

/-- An object is read from its properties in a cell. -/
theorem exists_properties {o : Object} (h : Held.Reads cells (.shared a) o.toValue) :
    o.identity = a ∧ ∃ hs, cells.block? a = some (.object hs) ∧
      Held.ReadsProperties cells hs o.properties := by
  cases h with
  | object ha hps => exact ⟨rfl, _, ha, hps⟩

/-- The properties in a cell of an object. -/
theorem properties?_eq {hs : List (String × Held)} (ha : cells.block? a = some (.object hs)) :
    cells.properties? a = some hs := by
  rw [Cells.properties?, ha]

/-- The elements in a cell of an array. -/
theorem elements?_eq {hs : List Held} (ha : cells.block? a = some (.array hs)) :
    cells.elements? a = some hs := by
  rw [Cells.elements?, ha]

namespace Root.Reads

variable {r : Root} {x y : Item}

/-- A place is read in one way. -/
theorem unique (hx : r.Reads cells x) (hy : r.Reads cells y) : x = y := by
  cases hx with
  | @handle a o h =>
      cases hy with
      | @handle _ o' h' =>
          obtain ⟨identity, properties⟩ := o
          obtain ⟨identity', properties'⟩ := o'
          cases h.unique h'
          rfl
  | value h =>
      cases hy with
      | value h' => rw [h.unique h']
  | @context a ctx h =>
      -- The resolver of a context stands in the place itself, not in a cell.
      obtain ⟨⟨identity, properties⟩, resolver⟩ := ctx
      generalize hr : Root.context a resolver = r at hy
      cases hy with
      | handle => cases hr
      | value => cases hr
      | @context a' ctx' h' =>
          obtain ⟨⟨identity', properties'⟩, resolver'⟩ := ctx'
          cases hr
          cases h.unique h'
          rfl

/-- A place is read as before if what it holds is. -/
theorem transfer (hsame : ∀ (h : Held) (v : Value), (∀ a ∈ h.addresses, a ∈ r.addresses) →
    h.Reads cells v → h.Reads cells' v) (hx : r.Reads cells x) : r.Reads cells' x := by
  cases hx with
  | handle h => exact .handle (hsame _ _ (fun _ => id) h)
  | value h => exact .value (hsame _ _ (fun _ => id) h)
  | context h => exact .context (hsame _ _ (fun _ => id) h)

/-- With more cells a place is read as before. -/
theorem extend (h : cells.Extends cells') (hx : r.Reads cells x) : r.Reads cells' x :=
  hx.transfer fun _ _ _ hv => hv.extend h

/-- What can be stored of a place is read as what can be stored of its item. -/
theorem stored? (hx : r.Reads cells x) :
    Option.Rel (Held.Reads cells) r.stored? x.stored? := by
  cases hx with
  | handle h => exact .some h
  | value h => exact .some h
  | context h => exact .none

end Root.Reads

/-- What can be read is in cells that are there. -/
theorem Held.Reads.isSome {h : Held} {v : Value} (hv : h.Reads cells v) :
    ∀ a ∈ h.addresses, (cells.block? a).isSome := by
  cases hv with
  | plain hv => exact fun _ => nofun
  | array ha _ => exact List.forall_mem_singleton.2 (ha ▸ rfl)
  | object ha _ => exact List.forall_mem_singleton.2 (ha ▸ rfl)

/-- So it is with elements. -/
theorem Held.ReadsEach.isSome {hs : List Held} {vs : List Value}
    (h : Held.ReadsEach cells hs vs) :
    ∀ a ∈ (Block.array hs).addresses, (cells.block? a).isSome := by
  induction hs generalizing vs with
  | nil => exact fun _ => nofun
  | cons x hs ih =>
      cases h with
      | cons hv hvs => exact List.forall_mem_append.2 ⟨hv.isSome, ih hvs⟩

/-- So it is with properties. -/
theorem Held.ReadsProperties.isSome {hs : List (String × Held)} {ps : List (String × Value)}
    (h : Held.ReadsProperties cells hs ps) :
    ∀ a ∈ (Block.object hs).addresses, (cells.block? a).isSome := by
  induction hs generalizing ps with
  | nil => exact fun _ => nofun
  | cons x hs ih =>
      cases h with
      | cons hv hps => exact List.forall_mem_append.2 ⟨hv.isSome, ih hps⟩

/-- So it is with places. -/
theorem Root.Reads.isSome {r : Root} {x : Item} (hx : r.Reads cells x) :
    ∀ a ∈ r.addresses, (cells.block? a).isSome := by
  cases hx with
  | handle h => exact h.isSome
  | value h => exact h.isSome
  | context h => exact h.isSome

/-! ### Views -/

/-- Two optional results, and something made of each. -/
theorem rel_map {α β γ δ : Type} {R : α → β → Prop} {S : γ → δ → Prop} {f : α → γ} {g : β → δ}
    {x : Option α} {y : Option β} (h : Option.Rel R x y) (hfg : ∀ a b, R a b → S (f a) (g b)) :
    Option.Rel S (x.map f) (y.map g) := by
  cases h with
  | none => exact .none
  | some h => exact .some (hfg _ _ h)

/-- Two optional results, and an optional step on each. -/
theorem rel_bind {α β γ δ : Type} {R : α → β → Prop} {S : γ → δ → Prop} {f : α → Option γ}
    {g : β → Option δ} {x : Option α} {y : Option β} (h : Option.Rel R x y)
    (hfg : ∀ a b, R a b → Option.Rel S (f a) (g b)) : Option.Rel S (x.bind f) (y.bind g) := by
  cases h with
  | none => exact .none
  | some h => exact hfg _ _ h

/-- The resolver of a context is the same function, looked up in the cell or
in the object. -/
theorem resolverOf_eq {o : Object} {hs : List (String × Held)}
    (h : Held.ReadsProperties cells hs o.properties) :
    (Context.ofObject o).resolver = resolverOf hs := by
  have hget := h.get? Context.resolverProperty
  unfold Context.ofObject resolverOf Object.get?
  generalize Properties.get? hs Context.resolverProperty = x at hget
  generalize Properties.get? o.properties Context.resolverProperty = y at hget
  -- A function is plain, and everything in cells is no function.
  cases hget with
  | none => rfl
  | some hv =>
      cases hv with
      | plain hv =>
          rename_i v
          cases v <;> rfl
      | array => rfl
      | object => rfl

/-- A property of a handle, as a place of its own. -/
theorem rel_property {o : Object} (h : Held.Reads cells (.shared a) o.toValue) (name : String) :
    Option.Rel (Root.Reads cells)
      ((cells.properties? a).bind fun ps => (Properties.get? ps name).map .value)
      ((o.get? name).map .value) := by
  obtain ⟨-, hs, ha, hps⟩ := exists_properties h
  rw [properties?_eq ha]
  exact rel_map (hps.get? name) fun _ _ => .value

/-- What is seen of a place is read as what is seen of its item. -/
theorem Root.Reads.view {r : Root} {x : Item} (hx : r.Reads cells x) (v : View) :
    Option.Rel (Root.Reads cells) (r.view cells v) (x.view v) := by
  -- A view of another sort of place than its own shows nothing on either side.
  cases hx with
  | @handle a o h =>
      cases v with
      | same => exact .some (.handle h)
      | value => exact .some (.value h)
      | property name => exact rel_property h name
      | context probe =>
          cases probe with
          | false => exact .some (@Root.Reads.context cells a (.ofScope o) h)
          | true =>
              obtain ⟨-, hs, ha, hps⟩ := exists_properties h
              -- With and without a resolver, the object is the scope.
              have hscope : (Context.ofObject o).scope = o := by
                unfold Context.ofObject
                split <;> rfl
              simp only [Root.view, Item.view, properties?_eq ha, Option.map_some,
                ← resolverOf_eq hps]
              exact .some (.context (by rwa [hscope]))
      | _ => exact .none
  | @value h v' hv =>
      cases v with
      | same => exact .some (.value hv)
      | handle =>
          cases hv with
          | @plain v' hv => cases v' <;> first | exact .none | cases hv
          | array ha _ => simp [Root.view, Item.view, Cells.properties?, ha, Value.object?]
          | object ha hps =>
              simp only [Root.view, Item.view, properties?_eq ha]
              exact .some (.handle (.object ha hps))
      | element i =>
          cases hv with
          | @plain v' hv => cases v' <;> first | exact .none | cases hv
          | array ha hvs =>
              simp only [Root.view, Item.view, elements?_eq ha]
              exact rel_map (hvs.getElem? i) fun _ _ => .value
          | object ha hps => simp [Root.view, Item.view, Cells.elements?, ha]
      | property name =>
          cases hv with
          | @plain v' hv => cases v' <;> first | exact .none | cases hv
          | array ha _ => simp [Root.view, Item.view, Cells.properties?, ha, Value.object?]
          | @object a hs ps ha hps => exact rel_property (o := ⟨a, ps⟩) (.object ha hps) name
      | context probe => cases probe <;> exact .none
      | _ => exact .none
  | @context a ctx h =>
      cases v with
      | same => exact .some (.context h)
      | scope => exact .some (.handle h)
      | this => exact .some (.value h)
      | own name => exact rel_property h name
      | context probe => cases probe <;> exact .none
      | _ => exact .none

/-! ### Places -/

/-- The cells that a place holds. -/
def heldBy : Option Root → List Address
  | none => []
  | some r => r.addresses

/-- The cells that places hold. -/
def ownersOf (roots : List (Option Root)) : List Address := roots.flatMap heldBy

section

variable {roots : List (Option Root)} {place i : Nat} {r : Root}

/-- A place that is set anew holds something else. -/
theorem count_ownersOf_set {old : Option Root} (h : roots[place]? = some old) (new : Option Root)
    (a : Address) : (ownersOf (roots.set place new)).count a + (heldBy old).count a
      = (ownersOf roots).count a + (heldBy new).count a := by
  simpa only [ownersOf, List.count_append] using (Cells.flatMap_set_perm heldBy h new).count_eq a

/-- New places hold what they hold besides the others. -/
theorem count_ownersOf_append (roots roots' : List (Option Root)) (a : Address) :
    (ownersOf (roots ++ roots')).count a
      = (ownersOf roots).count a + (ownersOf roots').count a := by
  rw [ownersOf, List.flatMap_append, List.count_append]
  rfl

/-- A single place holds what is in it. -/
theorem ownersOf_single (r : Root) : ownersOf [some r] = r.addresses := List.append_nil _

/-- At most one new place. -/
theorem ownersOf_toList (y : Option Held) :
    ownersOf (y.map fun y => some (.value y)).toList = y.elim [] Held.addresses := by
  cases y with
  | none => rfl
  | some y => exact ownersOf_single _

/-- What a place holds is held. -/
theorem mem_ownersOf (h : roots[i]?.join = some r) (ha : a ∈ r.addresses) : a ∈ ownersOf roots :=
  List.mem_flatMap.2 ⟨some r, List.mem_of_getElem? (Option.join_eq_some_iff.1 h), ha⟩

/-- A cell that is held once is held by one place only. -/
theorem notMem_addresses_of_count {a : Address} (hone : (ownersOf roots).count a = 1) {old : Root}
    (hold : roots[place]?.join = some old) (ha : a ∈ old.addresses) (hne : i ≠ place)
    (h : roots[i]?.join = some r) : a ∉ r.addresses := by
  intro hmem
  have hcount := count_ownersOf_set (Option.join_eq_some_iff.1 hold) none a
  have hother : (roots.set place none)[i]?.join = some r := by
    rwa [List.getElem?_set_ne hne.symm]
  have hpos := List.count_pos_iff.2 (mem_ownersOf hother hmem)
  have hpos' := List.count_pos_iff.2 ha
  simp only [heldBy, List.count_nil] at hcount
  omega

/-- Writing what is there changes nothing. -/
theorem set_eq_self {α : Type} {l : List α} {i : Nat} {x : α} (h : l[i]? = some x) :
    l.set i x = l := by
  obtain ⟨hi, rfl⟩ := List.getElem?_eq_some_iff.1 h
  exact List.set_getElem_self hi

end

/-- Every place is read as its item. -/
structure Matches (cells : Cells) (roots : List (Option Root)) (w : List (Option Item)) :
    Prop where
  length : roots.length = w.length
  reads : ∀ i : Nat, Option.Rel (Root.Reads cells) roots[i]?.join w[i]?.join

namespace Matches

variable {roots roots' : List (Option Root)} {w w' : List (Option Item)} {place : Nat}

/-- Places match as before if they are read as before. -/
theorem imp (h : Matches cells roots w) (hreads : ∀ (i : Nat) (r : Root) (x : Item),
    roots[i]?.join = some r → r.Reads cells x → r.Reads cells' x) : Matches cells' roots w := by
  refine ⟨h.length, fun i => ?_⟩
  have hi := h.reads i
  generalize hr : roots[i]?.join = r at hi
  generalize w[i]?.join = x at hi
  cases hi with
  | none => exact .none
  | some hx => exact .some (hreads i _ _ hr hx)

/-- With more cells all places match as before. -/
theorem extend (h : Matches cells roots w) (hcells : cells.Extends cells') :
    Matches cells' roots w :=
  h.imp fun _ _ _ _ hx => hx.extend hcells

/-- New places match new items. -/
theorem append (h : Matches cells roots w) (h' : Matches cells roots' w') :
    Matches cells (roots ++ roots') (w ++ w') := by
  refine ⟨by simp [h.length, h'.length], fun i => ?_⟩
  rw [List.getElem?_append, List.getElem?_append, h.length]
  split
  · exact h.reads i
  · exact h'.reads _

/-- Without places there are no items. -/
theorem nil : Matches cells [] [] := ⟨rfl, fun _ => .none⟩

/-- A single place matches its item. -/
theorem single {r : Root} {x : Item} (h : r.Reads cells x) : Matches cells [some r] [some x] := by
  refine ⟨rfl, fun i => ?_⟩
  cases i with
  | zero => exact .some h
  | succ i => exact .none

/-- What was there before, if anything was. -/
theorem ofOption {y : Option Held} {v : Option Value} (h : Option.Rel (Held.Reads cells) y v) :
    Matches cells (y.map fun y => some (.value y)).toList
      (v.map fun v => some (.value v)).toList := by
  cases h with
  | none => exact nil
  | some h => exact single (.value h)

/-- Another item in one place. -/
theorem set {r : Option Root} {x : Option Item} (h : Matches cells roots w)
    (hreads : ∀ (i : Nat) (r : Root) (x : Item), i ≠ place → roots[i]?.join = some r →
      r.Reads cells x → r.Reads cells' x)
    (hnew : Option.Rel (Root.Reads cells') r x) :
    Matches cells' (roots.set place r) (w.set place x) := by
  refine ⟨by simp [h.length], fun i => ?_⟩
  rw [List.getElem?_set, List.getElem?_set, h.length]
  -- The place that is set, or another one, which has to be read as before.
  by_cases hi : place = i
  · rw [if_pos hi, if_pos hi]
    split
    · exact hnew
    · exact .none
  · rw [if_neg hi, if_neg hi]
    have hold := h.reads i
    generalize hr : roots[i]?.join = r' at hold
    generalize w[i]?.join = x' at hold
    cases hold with
    | none => exact .none
    | some hx => exact .some (hreads i _ _ (Ne.symm hi) hr hx)

end Matches

/-- Every place is read as its item, and every cell counts how often it is held. -/
structure Memory.Agrees (m : Memory) (w : Workspace) : Prop where
  counted : m.cells.Counted (ownersOf m.roots)
  matching : Matches m.cells m.roots w

namespace Memory.Agrees

variable {m : Memory} {w : Workspace} {place : Nat}

/-- A place is read as the item in it. -/
theorem root? (h : m.Agrees w) (place : Nat) :
    Option.Rel (Root.Reads m.cells) (m.root? place) (w.item? place) :=
  h.matching.reads place

/-- What can be stored of a place agrees. -/
theorem stored? (h : m.Agrees w) (place : Nat) :
    Option.Rel (Held.Reads m.cells) (m.stored? place) (w.stored? place) :=
  rel_bind (h.root? place) fun _ _ => Root.Reads.stored?

/-- To hold one thing more. -/
theorem push (h : m.Agrees w) {r : Root} {x : Item} (hx : r.Reads m.cells x) :
    (m.push r).Agrees (w ++ [some x]) := by
  have hextends : m.cells.Extends (m.cells.retainAll r.addresses) := Cells.extends_retainAll _
  refine ⟨(h.counted.retainAll hx.isSome).congr fun a => ?_,
    (h.matching.extend hextends).append (.single (hx.extend hextends))⟩
  rw [Memory.push, count_ownersOf_append, ownersOf_single, List.count_append, Nat.add_comm]

/-- To hold a new cell. -/
theorem make (h : m.Agrees w) {block : Block} {root : Address → Root} (item : Identity → Item)
    (hlive : ∀ a ∈ block.addresses, (m.cells.block? a).isSome)
    (hordered : ∀ hs, block = .object hs → Properties.Ordered hs)
    (hroot : ∀ a, (root a).addresses = [a])
    (hitem : ∀ cells' a, m.cells.Extends cells' → cells'.block? a = some block →
      (root a).Reads cells' (item a)) (hint : Address) :
    ∃ identity, (m.make hint block root).Agrees (w ++ [some (item identity)]) := by
  have hcounted := (h.counted.retainAll hlive).allocate hordered hint
  have hextends : m.cells.Extends ((m.cells.retainAll block.addresses).allocate hint block).1 :=
    fun a block' ha => Cells.extends_allocate _ _ a block'
      (Cells.extends_retainAll block.addresses a block' ha)
  have hnew := hitem _ _ hextends (Cells.block?_allocate hint block)
  refine ⟨_, hcounted.congr fun a => ?_, (h.matching.extend hextends).append (.single hnew)⟩
  rw [Memory.make, count_ownersOf_append, ownersOf_single, hroot, ← List.singleton_append,
    List.count_append, Nat.add_comm]

/-- To hold less: what the places hold is still read. -/
theorem release {cells : Cells} {roots : List (Option Root)} {as : List Address}
    (hcounted : cells.Counted (as ++ ownersOf roots)) (hmatching : Matches cells roots w) :
    Memory.Agrees ⟨cells.release as, roots⟩ w := by
  obtain ⟨hreleased, hreads⟩ := hcounted.release
  refine ⟨hreleased, hmatching.imp fun i r x hr hx => hx.transfer fun y v hy hv => ?_⟩
  exact hreads y v (fun a ha => mem_ownersOf hr (hy a ha)) hv

/-- Dropping a place keeps the agreement. -/
theorem drop (h : m.Agrees w) (place : Nat) :
    (m.step (.drop place)).Agrees (w.set place none) := by
  rw [Memory.step]
  have hplace := h.root? place
  generalize hr : m.root? place = r at hplace
  generalize hx : w.item? place = x at hplace
  cases hplace with
  | none =>
      -- Nothing is dropped: there is no such place, or it holds nothing.
      have hsame : w.set place none = w := by
        rcases hget : w[place]? with _ | x
        · exact List.set_eq_of_length_le (List.getElem?_eq_none_iff.1 hget)
        · rw [Workspace.item?, hget] at hx
          cases hx
          exact set_eq_self hget
      rw [hsame]
      exact h
  | some hx =>
      rename_i r x
      have hset := count_ownersOf_set (Option.join_eq_some_iff.1 hr) none
      refine release (h.counted.congr fun a => ?_) (h.matching.set (fun _ _ _ _ _ => id) .none)
      have hcount := hset a
      simp only [heldBy, List.count_nil] at hcount
      rw [List.count_append]
      omega

/-- A property is set in place, where the cell of the object is held once. -/
theorem replace (h : m.Agrees w) {o : Object} {x : Held} {v : Value} {hs : List (String × Held)}
    (hplace : m.root? place = some (.handle a)) (ho : Held.Reads m.cells (.shared a) o.toValue)
    (hv : x.Reads m.cells v)
    (hcell : (m.cells.retainAll x.addresses).cell? a = some ⟨1, .object hs⟩) (name : String) :
    Memory.Agrees
      ⟨(m.cells.retainAll x.addresses).set a (some ⟨1, .object (Properties.put hs name x)⟩),
        m.roots ++ ((Properties.get? hs name).map fun y => some (.value y)).toList⟩
      (w.set place (some (.handle (o.insert a name v))) ++
        ((o.get? name).map fun old => some (.value old)).toList) := by
  have hextends : m.cells.Extends (m.cells.retainAll x.addresses) := Cells.extends_retainAll _
  have hblock : (m.cells.retainAll x.addresses).block? a = some (.object hs) := by
    rw [Cells.block?, hcell]
    rfl
  obtain ⟨-, hs', hblock', hps⟩ := exists_properties ho
  cases (hextends a _ hblock').symm.trans hblock
  obtain ⟨hcounted, hone, hnot, hkeeps⟩ := (h.counted.retainAll hv.isSome).replace hcell
    (mem_ownersOf hplace List.mem_cons_self) name
  have hlt := (List.getElem?_eq_some_iff.1 (Option.join_eq_some_iff.1 hcell)).1
  -- What the cell holds and what is put there do not hold the cell.
  have hps' := (hps.transfer hextends.keeps fun _ _ => id).transfer hkeeps
    fun b hb => hkeeps.inner b (Cells.mem_inner_of_block? hblock hb)
  have hv' := (hv.extend hextends).transfer hkeeps fun b hb heq => hnot (heq ▸ hb)
  have hnew : Cells.block? ((m.cells.retainAll x.addresses).set a
      (some ⟨1, .object (Properties.put hs name x)⟩)) a
        = some (.object (Properties.put hs name x)) := by
    rw [Cells.block?, Cells.cell?_set hlt, if_pos rfl]
    rfl
  refine ⟨hcounted.congr fun b => ?_, .append ?_ (.ofOption (hps'.get? name))⟩
  · rw [count_ownersOf_append, ownersOf_toList, List.count_append, Nat.add_comm]
  · rw [← set_eq_self (Option.join_eq_some_iff.1 hplace)]
    refine h.matching.set (fun i r y hi hr hy => ?_)
      (.some (.handle (.object hnew (hps'.put name hv'))))
    have hother := notMem_addresses_of_count hone hplace List.mem_cons_self hi hr
    exact hy.transfer fun z u hz hu => (hu.extend hextends).transfer hkeeps
      fun b hb heq => hother (heq ▸ hz b hb)

/-- A property is set in a copy, where the cell of the object is held more than once. -/
theorem copy (h : m.Agrees w) {o : Object} {x : Held} {v : Value} {hs : List (String × Held)}
    (hplace : m.root? place = some (.handle a)) (hblock : m.cells.block? a = some (.object hs))
    (hps : Held.ReadsProperties m.cells hs o.properties) (hv : x.Reads m.cells v) (name : String)
    (hint : Address) {made : Cells × Address}
    (hmade : ((m.cells.retainAll x.addresses).retainAll (Block.object hs).addresses).allocate hint
      (.object (Properties.put hs name x)) = made) :
    Memory.Agrees
      ⟨made.1.release [a], m.roots.set place (some (.handle made.2)) ++
        ((Properties.get? hs name).map fun y => some (.value y)).toList⟩
      (w.set place (some (.handle (o.insert made.2 name v))) ++
        ((o.get? name).map fun old => some (.value old)).toList) := by
  have hordered := h.counted.ordered a hs hblock
  have hlive : ∀ b ∈ (Block.object hs).addresses,
      ((m.cells.retainAll x.addresses).block? b).isSome := fun b hb => by
    rw [Cells.block?_retainAll]
    exact hps.isSome b hb
  -- What the copy holds, and the old value, is what was held and the new value.
  have hbalance : ∀ b, ((Block.object hs).addresses ++ (x.addresses ++ ownersOf m.roots)).count b
      = ((Block.object (Properties.put hs name x)).addresses ++
        ((Properties.get? hs name).elim [] Held.addresses ++ ownersOf m.roots)).count b := by
    intro b
    have hput := count_addresses_put hs hordered name x b
    simp only [List.count_append]
    omega
  have hcopied := (((h.counted.retainAll hv.isSome).retainAll hlive).congr hbalance).allocate
    (fun hs' heq => by cases heq; exact hordered.put name x) hint
  rw [hmade] at hcopied
  have hextends : m.cells.Extends made.1 := fun b block hb => by
    rw [← hmade]
    exact Cells.extends_allocate _ _ b block
      (Cells.extends_retainAll _ b block (Cells.extends_retainAll _ b block hb))
  have hnew : made.1.block? made.2 = some (.object (Properties.put hs name x)) := by
    rw [← hmade]
    exact Cells.block?_allocate _ _
  have hps' := hps.transfer hextends.keeps fun _ _ => id
  refine release (hcopied.congr fun b => ?_) (.append ?_ (.ofOption (hps'.get? name)))
  · have hset := count_ownersOf_set (Option.join_eq_some_iff.1 hplace) (some (.handle made.2)) b
    simp only [heldBy, Root.addresses, List.count_cons, List.count_nil] at hset
    simp only [count_ownersOf_append, ownersOf_toList, List.count_append, List.count_cons,
      List.count_nil]
    omega
  · exact h.matching.set (fun _ _ _ _ _ hy => hy.extend hextends)
      (.some (.handle (.object hnew (hps'.put name (hv.extend hextends)))))

/-- A property is set. -/
theorem insert (h : m.Agrees w) {o : Object} {x : Held} {v : Value}
    (hplace : m.root? place = some (.handle a)) (ho : Held.Reads m.cells (.shared a) o.toValue)
    (hv : x.Reads m.cells v) (name : String) (hint : Address) :
    ∃ identity, (m.insert place a name x hint).Agrees
      (w.set place (some (.handle (o.insert identity name v))) ++
        ((o.get? name).map fun old => some (.value old)).toList) := by
  obtain ⟨-, hs, hblock, hps⟩ := exists_properties ho
  obtain ⟨⟨count, block⟩, hcell, hheld⟩ := Option.map_eq_some_iff.1
    ((Cells.block?_retainAll x.addresses).trans hblock)
  obtain rfl : block = .object hs := hheld
  rw [Memory.insert, hcell]
  dsimp only
  split
  · rename_i hone
    exact ⟨a, h.replace hplace ho hv (hone ▸ hcell) name⟩
  · exact ⟨_, h.copy hplace hblock hps hv name hint rfl⟩

end Memory.Agrees

/-! ### Actions -/

section

variable {m : Memory} {w : Workspace}

/-- The elements of a new array are read as those of its items. -/
theorem readsEach_filterMap (h : m.Agrees w) (places : List Nat) :
    Held.ReadsEach m.cells (places.filterMap m.stored?) (places.filterMap w.stored?) := by
  induction places with
  | nil => exact .nil
  | cons place places ih =>
      have hplace := h.stored? place
      rw [List.filterMap_cons, List.filterMap_cons]
      generalize m.stored? place = x at hplace
      generalize w.stored? place = v at hplace
      cases hplace with
      | none => exact ih
      | some hv => exact .cons hv ih

/-- Properties from places are read in the order that they are listed in. -/
theorem readsProperties_ofPairs (h : m.Agrees w) (entries : List (String × Nat)) :
    Held.ReadsProperties m.cells
      (Properties.ofPairs (entries.filterMap fun (name, i) => (m.stored? i).map (name, ·)))
      (Properties.ofPairs (entries.filterMap fun (name, i) => (w.stored? i).map (name, ·))) := by
  -- The fold has put some of the properties already.
  suffices hall : ∀ hs ps, Held.ReadsProperties m.cells hs ps → Held.ReadsProperties m.cells
      ((entries.filterMap fun (name, i) => (m.stored? i).map (name, ·)).foldl
        (fun ps p => Properties.put ps p.1 p.2) hs)
      ((entries.filterMap fun (name, i) => (w.stored? i).map (name, ·)).foldl
        (fun ps p => Properties.put ps p.1 p.2) ps) from hall [] [] .nil
  induction entries with
  | nil => exact fun _ _ => id
  | cons entry entries ih =>
      intro hs ps hps
      obtain ⟨name, place⟩ := entry
      have hplace := h.stored? place
      simp only [List.filterMap_cons]
      generalize m.stored? place = x at hplace
      generalize w.stored? place = v at hplace
      cases hplace with
      | none => exact ih hs ps hps
      | some hv => exact ih _ _ (hps.put name hv)

/-- After an action every place is read as its item again. -/
theorem Memory.Agrees.step (h : m.Agrees w) (action : Action) :
    ∃ identity, (m.step action).Agrees (w.step identity action) := by
  -- Only what is made has an identity to choose, the address of its cell.
  cases action with
  | object entries hint =>
      have hps := readsProperties_ofPairs h entries
      exact h.make (fun identity => .handle ⟨identity, _⟩) hps.isSome
        (fun hs heq => by cases heq; exact Properties.ordered_ofPairs _) (fun _ => rfl)
        (fun cells' a hextends ha =>
          .handle (.object ha (hps.transfer hextends.keeps fun _ _ => id))) hint
  | array elements hint =>
      have hvs := readsEach_filterMap h elements
      exact h.make (fun identity => .value (.array identity _)) hvs.isSome
        (fun hs heq => by cases heq) (fun _ => rfl)
        (fun cells' a hextends ha =>
          .value (.array ha (hvs.transfer hextends.keeps fun _ _ => id))) hint
  | plain v hv => exact ⟨0, h.push (.value (.plain hv))⟩
  | view place v =>
      have hview := rel_bind (h.root? place) fun _ _ hx => hx.view v
      refine ⟨0, ?_⟩
      rw [Memory.step, Workspace.step]
      generalize (m.root? place).bind (Root.view m.cells v) = r at hview
      generalize (w.item? place).bind (Item.view v) = x at hview
      cases hview with
      | none => exact h
      | some hx => exact h.push hx
  | drop place => exact ⟨0, h.drop place⟩
  | insert place name source hint =>
      -- Where place or source is not read, neither side does anything.
      have hplace := h.root? place
      have hsource := h.stored? source
      rw [Memory.step]
      simp only [Workspace.step]
      generalize hr : m.root? place = r at hplace
      generalize w.item? place = x at hplace
      generalize m.stored? source = y at hsource
      generalize w.stored? source = v at hsource
      cases hplace with
      | none => exact ⟨0, h⟩
      | some hx =>
          cases hx with
          | handle ho =>
              cases hsource with
              | none => exact ⟨0, h⟩
              | some hv => exact h.insert hr ho hv name hint
          | value => exact ⟨0, h⟩
          | context => exact ⟨0, h⟩

/-- At the start there is nothing to agree about. -/
theorem Memory.agrees_empty : Memory.empty.Agrees [] :=
  ⟨⟨fun _ => rfl, fun _ _ h => nomatch h⟩, .nil⟩

/-- After some actions every place is read as an item that it can have after them. -/
theorem Memory.exists_agrees (actions : List Action) :
    ∃ w, Workspace.Runs actions w ∧ (Memory.run actions).Agrees w := by
  induction actions using List.reverseRecOn with
  | nil => exact ⟨[], .nil, Memory.agrees_empty⟩
  | append_singleton actions action ih =>
      obtain ⟨w, hruns, hagrees⟩ := ih
      obtain ⟨identity, hstep⟩ := hagrees.step action
      refine ⟨_, .step identity action hruns, ?_⟩
      rw [Memory.run, List.foldl_append]
      exact hstep

end

/-! ### Whole runs -/

/-- What a place is read as. -/
def Memory.Reads (m : Memory) (place : Nat) (x : Item) : Prop :=
  ∃ r, m.root? place = some r ∧ r.Reads m.cells x

/-- The places have handles on one cell. -/
def Memory.SameObject (m : Memory) (place place' : Nat) : Prop :=
  ∃ a, m.root? place = some (.handle a) ∧ m.root? place' = some (.handle a)

section

variable {m : Memory} {w : Workspace} {place : Nat}

/-- A place is read as its item and as no other. -/
theorem Memory.Agrees.reads_iff (h : m.Agrees w) (place : Nat) (x : Item) :
    m.Reads place x ↔ w.item? place = some x := by
  have hplace := h.root? place
  unfold Memory.Reads
  generalize m.root? place = r at hplace
  generalize w.item? place = y at hplace
  -- A place that is read in one way is read as its item alone.
  cases hplace with
  | none => simp
  | some hy =>
      constructor
      · rintro ⟨r, hr, hx⟩
        cases hr
        rw [hy.unique hx]
      · intro heq
        cases heq
        exact ⟨_, rfl, hy⟩

/-- An item that is found has a place. -/
theorem Workspace.lt_length_of_item? {i : Nat} {x : Item} (h : w.item? i = some x) :
    i < w.length :=
  (List.getElem?_eq_some_iff.1 (Option.join_eq_some_iff.1 h)).1

/-- To set a property through a handle leaves the items of all other places as they are. -/
theorem Workspace.item?_step_insert {i : Nat} {x : Item} (hne : i ≠ place)
    (hx : w.item? i = some x) (identity : Identity) (name : String) (source : Nat)
    (hint : Address) : (w.step identity (.insert place name source hint)).item? i = some x := by
  have hlt := Workspace.lt_length_of_item? hx
  rw [Workspace.step]
  split
  · rw [Workspace.item?, List.getElem?_append_left (by simpa using hlt),
      List.getElem?_set_ne hne.symm]
    exact hx
  · exact hx

end

/-- Whatever a host program does, it finds in each place what it would find if every place had
its own whole object, value or context, and nothing else. To set a property through a handle
changes the object of this handle only: there the name has the new value, and all other names
have the values that they had. Handles on one cell are strictly equal and have the same
content. -/
theorem Memory.run_reads (actions : List Action) :
    ∃ w, Workspace.Runs actions w ∧
      (∀ place x, (Memory.run actions).Reads place x ↔ w.item? place = some x) ∧
      (∀ place name source hint i x, i ≠ place → (Memory.run actions).Reads i x →
        ((Memory.run actions).step (.insert place name source hint)).Reads i x) ∧
      (∀ place name source hint o v, w.item? place = some (.handle o) →
        w.stored? source = some v → ∃ o' : Object,
          ((Memory.run actions).step (.insert place name source hint)).Reads place (.handle o') ∧
          o'.get? name = some v ∧ ∀ other, other ≠ name → o'.get? other = o.get? other) ∧
      ∀ place place' o o', (Memory.run actions).Reads place (.handle o) →
        (Memory.run actions).Reads place' (.handle o') →
        (Memory.run actions).SameObject place place' →
        o.toValue.strictEqual o'.toValue = true ∧ o.properties = o'.properties := by
  -- The run agrees with one of whole items, and all that is said is read off the items.
  obtain ⟨w, hruns, h⟩ := Memory.exists_agrees actions
  refine ⟨w, hruns, h.reads_iff, fun place name source hint i x hne hx => ?_,
    fun place name source hint o v ho hv => ?_, ?_⟩
  · obtain ⟨identity, hstep⟩ := h.step (.insert place name source hint)
    exact (hstep.reads_iff i x).2
      (Workspace.item?_step_insert hne ((h.reads_iff i x).1 hx) identity name source hint)
  · obtain ⟨identity, hstep⟩ := h.step (.insert place name source hint)
    refine ⟨o.insert identity name v, (hstep.reads_iff _ _).2 ?_,
      Properties.get?_put_self _ _ _, fun other hne => Properties.get?_put_of_ne _ _ hne.symm⟩
    have hlt := Workspace.lt_length_of_item? ho
    simp only [Workspace.step, ho, hv]
    rw [Workspace.item?, List.getElem?_append_left (by simpa using hlt),
      List.getElem?_set_self hlt]
    rfl
  · rintro place place' o o' ⟨r, hr, ho⟩ ⟨r', hr', ho'⟩ ⟨a, ha, ha'⟩
    cases hr.symm.trans ha
    cases hr'.symm.trans ha'
    cases ho.unique ho'
    exact ⟨by simp [Value.strictEqual, Object.toValue], rfl⟩

/-- A property set through one of two handles on an object: the handle has a cell of its own
then, and the other one has the first cell. -/
example : (Memory.run [.object [] 0, .plain (.bool true) rfl, .view 0 .same,
    .insert 0 "x" 1 0]).roots.map heldBy = [[1], [], [0]] := by cbv

/-- With the other handle dropped before, it keeps the cell. -/
example : (Memory.run [.object [] 0, .plain (.bool true) rfl, .view 0 .same, .drop 2,
    .insert 0 "x" 1 0]).roots.map heldBy = [[0], [], []] := by cbv

end Formula.Storage
