import Formula.Context

/-!
# `Formula.Value.Storage`: how arrays and objects share storage

The content of an array or an object stands in a cell, and those who hold
it have the address of the cell. A cell counts how often it is held, by a
place of the host program or within other cells. To copy a handle, a value
or a context is to hold the same cell once more; to drop one is to hold
its cell once less, and a cell that nobody holds is freed, with all that
it holds. An address that was freed can be given to another cell.

A property is set through a handle on an object. If nothing else holds the
cell of the object, it is changed in place. Otherwise the handle gets a
cell of its own with a copy of the content, and leaves the old one.

* `Storage.Memory`: the cells, and the places of the host program.
* `Storage.Action`: what the host program can do.
* `Storage.Memory.run`: the memory after some actions.
* `Storage.Workspace`: the places of a host program that holds whole
  objects, values and contexts instead, with the same actions.
-/

set_option autoImplicit false

namespace Formula

/-- Whether the content of the value stands in a cell. -/
def Value.isShared : Value → Bool
  | .array _ _ | .object _ _ => true
  | _ => false

namespace Storage

/-- Where a cell stands. -/
abbrev Address := Identity

/-- A value as it is held: as it is, or the address of its cell. -/
inductive Held where
  | plain (v : Value) (h : v.isShared = false)
  | shared (address : Address)

/-- The cells that are held. -/
def Held.addresses : Held → List Address
  | plain _ _ => []
  | shared a => [a]

/-- The content of an array or an object. -/
inductive Block where
  | array (elements : List Held)
  | object (properties : List (String × Held))

namespace Block

/-- What stands in the block. -/
def held : Block → List Held
  | array elements => elements
  | object properties => properties.map Prod.snd

/-- The cells that are held within the block. -/
def addresses (b : Block) : List Address := b.held.flatMap Held.addresses

end Block

/-- A cell, and how often it is held. -/
structure Cell where
  count : Nat
  block : Block

/-- The cells by their addresses. At some addresses there is none any more. -/
abbrev Cells := List (Option Cell)

namespace Cells

/-- The cell at an address. -/
def cell? (cells : Cells) (a : Address) : Option Cell := cells[a]?.join

/-- The content at an address. -/
def block? (cells : Cells) (a : Address) : Option Block := (cells.cell? a).map Cell.block

/-- The elements of an array. -/
def elements? (cells : Cells) (a : Address) : Option (List Held) :=
  match cells.block? a with
  | some (.array elements) => some elements
  | _ => none

/-- The properties of an object. -/
def properties? (cells : Cells) (a : Address) : Option (List (String × Held)) :=
  match cells.block? a with
  | some (.object properties) => some properties
  | _ => none

/-- How often the cell at an address is held, as far as is counted there. -/
def count (cells : Cells) (a : Address) : Nat := (cells.cell? a).elim 0 Cell.count

/-- The cells that are held within a cell. -/
def addressesOf : Option Cell → List Address
  | none => []
  | some cell => cell.block.addresses

/-- The cells that are held within cells. -/
def inner (cells : Cells) : List Address := cells.flatMap addressesOf

/-- Holds the cell at an address once more. -/
def retain (cells : Cells) (a : Address) : Cells :=
  match cells[a]? with
  | some (some cell) => cells.set a (some { cell with count := cell.count + 1 })
  | _ => cells

/-- Holds cells once more. -/
def retainAll (cells : Cells) (as : List Address) : Cells := as.foldl retain cells

/-- What is held in all, when one holds something else. -/
theorem flatMap_set_perm {α β : Type} (f : α → List β) {l : List α} {i : Nat} {x : α}
    (h : l[i]? = some x) (y : α) :
    ((l.set i y).flatMap f ++ f x).Perm (l.flatMap f ++ f y) := by
  induction l generalizing i with
  | nil => cases h
  | cons z l ih =>
    cases i with
    -- The old and the new part change places over the rest.
    | zero =>
      obtain rfl : z = x := Option.some.inj h
      simp only [List.set_cons_zero, List.flatMap_cons, List.append_assoc]
      exact (List.perm_append_comm.append_left _).trans
        (List.perm_append_comm.trans (by simp))
    | succ i =>
      simp only [List.set_cons_succ, List.flatMap_cons, List.append_assoc]
      exact (ih h).append_left _

/-- What the cells hold, when a cell is set to another content. -/
theorem inner_set_perm {cells : Cells} {a : Address} {old : Option Cell} (h : cells[a]? = some old)
    (new : Option Cell) :
    (inner (cells.set a new) ++ addressesOf old).Perm (cells.inner ++ addressesOf new) :=
  flatMap_set_perm addressesOf h new

/-- Holds cells once less each. A cell that nobody holds any more is freed, and
what it holds is held once less in turn. -/
def release (cells : Cells) : List Address → Cells
  | [] => cells
  | a :: as =>
    match _hcell : cells[a]? with
    | some (some cell) =>
      if cell.count ≤ 1 then release (cells.set a none) (cell.block.addresses ++ as)
      else release (cells.set a (some { cell with count := cell.count - 1 })) as
    | _ => release cells as
-- To free a cell moves what it holds from within the cells to the list, and takes one off.
termination_by as => cells.inner.length + as.length
decreasing_by
  · have hset := (inner_set_perm _hcell none).length_eq
    simp only [addressesOf, List.length_nil, List.length_append, List.length_cons] at hset ⊢
    omega
  · have hset := (inner_set_perm _hcell (some { cell with count := cell.count - 1 })).length_eq
    simp only [addressesOf, List.length_append, List.length_cons] at hset ⊢
    omega
  · simp only [List.length_cons]
    omega

/-- A new cell with some content, that is held once, and its address: one that was freed, if
there is none at the address that is asked for, and else the next one. -/
def allocate (cells : Cells) (hint : Address) (block : Block) : Cells × Address :=
  match cells[hint]? with
  | some none => (cells.set hint (some ⟨1, block⟩), hint)
  | _ => (cells ++ [some ⟨1, block⟩], cells.length)

end Cells

/-! ### What a host program holds -/

/-- What a place of the host program holds. -/
inductive Root where
  | handle (object : Address)
  | value (held : Held)
  | context (scope : Address) (resolver : Option HostFunction)

namespace Root

/-- The cells that are held. -/
def addresses : Root → List Address
  | handle a => [a]
  | value h => h.addresses
  | context a _ => [a]

/-- A handle or a value, as it is held within a cell. -/
def stored? : Root → Option Held
  | handle a => some (.shared a)
  | value h => some h
  | context _ _ => none

end Root

/-- The cells, and what the places of the host program hold, if anything. -/
structure Memory where
  cells : Cells
  roots : List (Option Root)

/-- A way to have another handle, value or context from one there is. -/
inductive View where
  /-- a copy -/
  | same
  /-- the object of a handle as a value -/
  | value
  /-- a handle on an object value -/
  | handle
  /-- an element of an array value -/
  | element (position : Nat)
  /-- a property of an object, which is given by a handle or as a value -/
  | property (name : String)
  /-- a context with an object for its scope, which may be searched for a resolver -/
  | context (probe : Bool)
  /-- a handle on the scope of a context -/
  | scope
  /-- what `this` stands for in a context -/
  | this
  /-- the value of a name in the scope of a context -/
  | own (name : String)

/-- What a host program can do. Places are numbered, and what comes of an action is put
into the next place. Where a cell is made, an address is asked for. -/
inductive Action where
  /-- a new object with properties from places; a name listed twice keeps its last value -/
  | object (entries : List (String × Nat)) (hint : Address)
  /-- a new array with elements from places -/
  | array (elements : List Nat) (hint : Address)
  /-- a value that needs no cell -/
  | plain (v : Value) (h : v.isShared = false)
  /-- what is seen of a place -/
  | view (place : Nat) (v : View)
  /-- drops what a place holds -/
  | drop (place : Nat)
  /-- sets a property through the handle in a place, to a copy of what another place holds;
  the value that the property had is put into the next place -/
  | insert (place : Nat) (name : String) (source : Nat) (hint : Address)

/-! ### Actions on shared storage -/

/-- The function under the resolver property. -/
def resolverOf (properties : List (String × Held)) : Option HostFunction :=
  match Properties.get? properties Context.resolverProperty with
  | some (.plain (.function f) _) => some f
  | _ => none

/-- What is seen of a handle, a value or a context. -/
def Root.view (cells : Cells) : View → Root → Option Root
  | .same, r => some r
  | .value, .handle a => some (.value (.shared a))
  | .handle, .value (.shared a) => (cells.properties? a).map fun _ => .handle a
  | .element i, .value (.shared a) => (cells.elements? a).bind fun hs => hs[i]?.map .value
  | .property name, .handle a =>
    (cells.properties? a).bind fun ps => (Properties.get? ps name).map .value
  | .property name, .value (.shared a) =>
    (cells.properties? a).bind fun ps => (Properties.get? ps name).map .value
  | .context false, .handle a => some (.context a none)
  | .context true, .handle a => (cells.properties? a).map fun ps => .context a (resolverOf ps)
  | .scope, .context a _ => some (.handle a)
  | .this, .context a _ => some (.value (.shared a))
  | .own name, .context a _ =>
    (cells.properties? a).bind fun ps => (Properties.get? ps name).map .value
  | _, _ => none

namespace Memory

/-- The memory before the first action. -/
def empty : Memory := ⟨[], []⟩

/-- What a place holds. -/
def root? (m : Memory) (place : Nat) : Option Root := m.roots[place]?.join

/-- What can be stored of a place. -/
def stored? (m : Memory) (place : Nat) : Option Held := (m.root? place).bind Root.stored?

/-- Holds something in the next place. -/
def push (m : Memory) (r : Root) : Memory :=
  ⟨m.cells.retainAll r.addresses, m.roots ++ [some r]⟩

/-- Holds a new cell in the next place. -/
def make (m : Memory) (hint : Address) (block : Block) (root : Address → Root) : Memory :=
  let (cells, a) := (m.cells.retainAll block.addresses).allocate hint block
  ⟨cells, m.roots ++ [some (root a)]⟩

/-- Sets a property of the object at an address, which is held by the handle in a place. -/
def insert (m : Memory) (place : Nat) (a : Address) (name : String) (h : Held) (hint : Address) :
    Memory :=
  let cells := m.cells.retainAll h.addresses
  match cells.cell? a with
  | some ⟨count, .object ps⟩ =>
    let block := Block.object (Properties.put ps name h)
    let old := ((Properties.get? ps name).map fun h => some (.value h)).toList
    -- A handle that is the only one to hold the cell changes it in place.
    if count = 1 then
      ⟨cells.set a (some ⟨1, block⟩), m.roots ++ old⟩
    else
      let (cells, b) := (cells.retainAll (Block.object ps).addresses).allocate hint block
      ⟨cells.release [a], m.roots.set place (some (.handle b)) ++ old⟩
  | _ => m

/-- The memory after an action. What cannot be done changes nothing. -/
def step (m : Memory) : Action → Memory
  | .object entries hint =>
    let pairs := entries.filterMap fun (name, i) => (m.stored? i).map (name, ·)
    m.make hint (.object (Properties.ofPairs pairs)) .handle
  | .array elements hint => m.make hint (.array (elements.filterMap m.stored?)) (.value ∘ .shared)
  | .plain v h => m.push (.value (.plain v h))
  | .view place v =>
    match (m.root? place).bind (Root.view m.cells v) with
    | some r => m.push r
    | none => m
  | .drop place =>
    match m.root? place with
    | some r => ⟨m.cells.release r.addresses, m.roots.set place none⟩
    | none => m
  | .insert place name source hint =>
    match m.root? place, m.stored? source with
    | some (.handle a), some h => m.insert place a name h hint
    | _, _ => m

/-- The memory after some actions. -/
def run (actions : List Action) : Memory := actions.foldl step empty

end Memory

/-! ### Actions on whole objects -/

/-- What a place holds, as a whole. -/
inductive Item where
  | handle (object : Object)
  | value (v : Value)
  | context (ctx : Context)

namespace Item

/-- A handle or a value, as a value. -/
def stored? : Item → Option Value
  | handle o => some o.toValue
  | value v => some v
  | context _ => none

/-- What is seen of a handle, a value or a context. -/
def view : View → Item → Option Item
  | .same, x => some x
  | .value, .handle o => some (.value o.toValue)
  | .handle, .value v => v.object?.map .handle
  | .element i, .value (.array _ vs) => vs[i]?.map .value
  | .property name, .handle o => (o.get? name).map .value
  | .property name, .value v => v.object?.bind fun o => (o.get? name).map .value
  | .context false, .handle o => some (.context (.ofScope o))
  | .context true, .handle o => some (.context (.ofObject o))
  | .scope, .context ctx => some (.handle ctx.scope)
  | .this, .context ctx => some (.value ctx.thisValue)
  | .own name, .context ctx => (ctx.getOwn? name).map .value
  | _, _ => none

end Item

/-- What the places hold, each on its own. -/
abbrev Workspace := List (Option Item)

namespace Workspace

/-- What a place holds. -/
def item? (w : Workspace) (place : Nat) : Option Item := w[place]?.join

/-- What can be stored of a place. -/
def stored? (w : Workspace) (place : Nat) : Option Value := (w.item? place).bind Item.stored?

/-- The places after an action, where a new array or object and an object with a property
set get the identity. Only the last place and the one that is dropped or that a property is
set through are touched. -/
def step (identity : Identity) (w : Workspace) : Action → Workspace
  | .object entries _ =>
    let pairs := entries.filterMap fun (name, i) => (w.stored? i).map (name, ·)
    w ++ [some (.handle ⟨identity, Properties.ofPairs pairs⟩)]
  | .array elements _ => w ++ [some (.value (.array identity (elements.filterMap w.stored?)))]
  | .plain v _ => w ++ [some (.value v)]
  | .view place v =>
    match (w.item? place).bind (Item.view v) with
    | some x => w ++ [some x]
    | none => w
  | .drop place => w.set place none
  | .insert place name source _ =>
    match w.item? place, w.stored? source with
    | some (.handle o), some v =>
      w.set place (some (.handle (o.insert identity name v))) ++
        ((o.get? name).map fun old => some (.value old)).toList
    | _, _ => w

/-- The places can be so after the actions. -/
inductive Runs : List Action → Workspace → Prop
  | nil : Runs [] []
  | step (identity : Identity) {actions : List Action} {w : Workspace} (action : Action)
    (h : Runs actions w) : Runs (actions ++ [action]) (w.step identity action)

end Workspace

end Storage

end Formula
