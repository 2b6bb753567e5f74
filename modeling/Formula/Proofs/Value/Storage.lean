import Mathlib.Data.Option.Basic
import Mathlib.Data.String.Basic
import Formula.Value.Storage

/-!
# `Formula.Proofs.Value.Storage`: cells and what they are read as

A held value is read as a whole value by going through the cells that it
holds. As long as the count of every cell is how often the cell is held,
a cell is only freed, and only changed in place, when nothing is read
through it any more but what is meant to be.

* `Held.Reads`: what a held value is read as.
* `Cells.Counted`: the count of every cell is how often it is held, within
  cells and by some owners.
* `Held.Reads.transfer`: what is read without the cells that change is
  read as before.
* `Cells.Counted.retainAll`, `Cells.Counted.allocate`,
  `Cells.Counted.release`, `Cells.Counted.replace`: what each step does to
  the counts and to what is read.
-/

set_option autoImplicit false

namespace Formula

namespace Properties

variable {α : Type} {ps : List (String × α)} {name : String}

/-- The names are in increasing order. -/
def Ordered (ps : List (String × α)) : Prop := (names ps).Pairwise (· < ·)

/-- A name before all others has no property. -/
theorem get?_eq_none (h : ∀ key ∈ names ps, name < key) : get? ps name = none := by
  induction ps with
  | nil => rfl
  | cons p ps ih =>
      obtain ⟨hlt, hmore⟩ := List.forall_mem_cons.1 h
      rw [get?, if_neg hlt.ne', ih hmore]

/-- Setting a property adds its name at most. -/
theorem mem_names_put {key : String} {value : α} (h : key ∈ names (put ps name value)) :
    key = name ∨ key ∈ names ps := by
  induction ps with
  | nil => exact .inl (List.mem_singleton.1 h)
  | cons p ps ih =>
      unfold put at h
      split at h
      · exact (List.mem_cons.1 h).imp_right (List.mem_cons_of_mem _)
      · split at h
        · exact List.mem_cons.1 h
        · rcases List.mem_cons.1 h with rfl | hmore
          · exact .inr List.mem_cons_self
          · exact (ih hmore).imp_right (List.mem_cons_of_mem _)

/-- Setting a property keeps the names in order. -/
theorem Ordered.put (h : Ordered ps) (name : String) (value : α) :
    Ordered (put ps name value) := by
  induction ps with
  | nil => exact List.pairwise_singleton _ _
  | cons p ps ih =>
      obtain ⟨hfirst, hmore⟩ := List.pairwise_cons.1 h
      -- The name is there, or it belongs before the first one, or somewhere behind.
      unfold Properties.put
      split
      · rename_i heq
        exact List.pairwise_cons.2 ⟨heq ▸ hfirst, hmore⟩
      · rename_i hne
        split
        · rename_i hlt
          refine List.pairwise_cons.2 ⟨List.forall_mem_cons.2 ⟨hlt, fun key hkey => ?_⟩, h⟩
          exact hlt.trans (hfirst key hkey)
        · rename_i hnot
          refine List.pairwise_cons.2 ⟨fun key hkey => ?_, ih hmore⟩
          rcases mem_names_put hkey with rfl | hkey
          · exact lt_of_le_of_ne (not_lt.1 hnot) hne
          · exact hfirst key hkey

/-- Properties that are set one after the other are in order. -/
theorem ordered_ofPairs (pairs : List (String × α)) : Ordered (ofPairs pairs) := by
  suffices h : ∀ ps, Ordered ps → Ordered (pairs.foldl (fun ps p => put ps p.1 p.2) ps) from
    h [] .nil
  induction pairs with
  | nil => exact fun _ => id
  | cons p pairs ih => exact fun ps hps => ih _ (hps.put p.1 p.2)

end Properties

namespace Storage

variable {cells cells' : Cells} {a b : Address}

/-! ### Reading -/

mutual

/-- A held value is read as a value. The address of a cell is the identity of the array or
object in it. -/
inductive Held.Reads (cells : Cells) : Held → Value → Prop
  | plain {v : Value} (hv : v.isShared = false) : Held.Reads cells (.plain v hv) v
  | array {a : Address} {hs : List Held} {vs : List Value}
    (ha : cells.block? a = some (.array hs)) (h : Held.ReadsEach cells hs vs) :
    Held.Reads cells (.shared a) (.array a vs)
  | object {a : Address} {hs : List (String × Held)} {ps : List (String × Value)}
    (ha : cells.block? a = some (.object hs)) (h : Held.ReadsProperties cells hs ps) :
    Held.Reads cells (.shared a) (.object a ps)

/-- Held values are read, one by one. -/
inductive Held.ReadsEach (cells : Cells) : List Held → List Value → Prop
  | nil : Held.ReadsEach cells [] []
  | cons {h : Held} {v : Value} {hs : List Held} {vs : List Value} (hv : Held.Reads cells h v)
    (hvs : Held.ReadsEach cells hs vs) : Held.ReadsEach cells (h :: hs) (v :: vs)

/-- Held properties are read, one by one. -/
inductive Held.ReadsProperties (cells : Cells) :
    List (String × Held) → List (String × Value) → Prop
  | nil : Held.ReadsProperties cells [] []
  | cons {name : String} {h : Held} {v : Value} {hs : List (String × Held)}
    {ps : List (String × Value)} (hv : Held.Reads cells h v)
    (hps : Held.ReadsProperties cells hs ps) :
    Held.ReadsProperties cells ((name, h) :: hs) ((name, v) :: ps)

end

/-- What a cell holds is held within the cells. -/
theorem Cells.mem_inner_of_block? {block : Block} (ha : cells.block? a = some block)
    (hb : b ∈ block.addresses) : b ∈ cells.inner := by
  obtain ⟨cell, hcell, rfl⟩ := Option.map_eq_some_iff.1 ha
  have hmem : some cell ∈ cells := List.mem_of_getElem? (Option.join_eq_some_iff.1 hcell)
  exact List.mem_flatMap.2 ⟨some cell, hmem, hb⟩

/-- What a held value of a block holds, the block holds. -/
theorem Block.mem_addresses_of_mem {h : Held} {block : Block} (hh : h ∈ block.held)
    (ha : a ∈ h.addresses) : a ∈ block.addresses :=
  List.mem_flatMap.2 ⟨h, hh, ha⟩

/-- All cells but some that are lost are as before, and those are not held within others. -/
structure Cells.Keeps (lost : Address → Prop) (cells cells' : Cells) : Prop where
  same : ∀ a block, ¬ lost a → cells.block? a = some block → cells'.block? a = some block
  inner : ∀ a ∈ cells.inner, ¬ lost a

section

variable {lost : Address → Prop}

mutual

/-- What does not hold a lost cell is read as before. -/
theorem Held.Reads.transfer (hkeeps : Cells.Keeps lost cells cells') {h : Held} {v : Value}
    (hread : h.Reads cells v) (hh : ∀ a ∈ h.addresses, ¬ lost a) : h.Reads cells' v :=
  match hread with
  | .plain hv => .plain hv
  | .array ha heach => .array (hkeeps.same _ _ (hh _ List.mem_cons_self) ha)
      (heach.transfer hkeeps fun _ hb => hkeeps.inner _ (Cells.mem_inner_of_block? ha hb))
  | .object ha hps => .object (hkeeps.same _ _ (hh _ List.mem_cons_self) ha)
      (hps.transfer hkeeps fun _ hb => hkeeps.inner _ (Cells.mem_inner_of_block? ha hb))

/-- Held values are read as before, one by one. -/
theorem Held.ReadsEach.transfer (hkeeps : Cells.Keeps lost cells cells') {hs : List Held}
    {vs : List Value} (hread : Held.ReadsEach cells hs vs)
    (hh : ∀ a ∈ (Block.array hs).addresses, ¬ lost a) : Held.ReadsEach cells' hs vs :=
  match hread with
  | .nil => .nil
  | .cons hv hvs => .cons
      (hv.transfer hkeeps fun a ha => hh a (Block.mem_addresses_of_mem List.mem_cons_self ha))
      (hvs.transfer hkeeps fun a ha => hh a (List.mem_append_right _ ha))

/-- Held properties are read as before, one by one. -/
theorem Held.ReadsProperties.transfer (hkeeps : Cells.Keeps lost cells cells')
    {hs : List (String × Held)} {ps : List (String × Value)}
    (hread : Held.ReadsProperties cells hs ps)
    (hh : ∀ a ∈ (Block.object hs).addresses, ¬ lost a) : Held.ReadsProperties cells' hs ps :=
  match hread with
  | .nil => .nil
  | .cons hv hps => .cons
      (hv.transfer hkeeps fun a ha => hh a (Block.mem_addresses_of_mem List.mem_cons_self ha))
      (hps.transfer hkeeps fun a ha => hh a (List.mem_append_right _ ha))

end

end

/-- No cell is lost. -/
def Cells.Extends (cells cells' : Cells) : Prop :=
  ∀ a block, cells.block? a = some block → cells'.block? a = some block

/-- Where no cell is lost, all are kept. -/
theorem Cells.Extends.keeps (h : cells.Extends cells') :
    Cells.Keeps (fun _ => False) cells cells' :=
  ⟨fun a block _ => h a block, fun _ _ => id⟩

/-- With more cells everything is read as before. -/
theorem Held.Reads.extend (h : cells.Extends cells') {x : Held} {v : Value}
    (hread : x.Reads cells v) : x.Reads cells' v :=
  hread.transfer h.keeps fun _ _ => id

mutual

/-- A held value is read as one value only. -/
theorem Held.Reads.unique {h : Held} {v w : Value} (hv : h.Reads cells v) (hw : h.Reads cells w) :
    v = w :=
  match hv, hw with
  | .plain _, .plain _ => rfl
  | .array ha hvs, .array ha' hws => by
      cases ha.symm.trans ha'
      rw [hvs.unique hws]
  | .object ha hps, .object ha' hqs => by
      cases ha.symm.trans ha'
      rw [hps.unique hqs]
  | .array ha _, .object ha' _ => nomatch ha.symm.trans ha'
  | .object ha _, .array ha' _ => nomatch ha.symm.trans ha'

/-- Held values are read in one way. -/
theorem Held.ReadsEach.unique {hs : List Held} {vs ws : List Value}
    (hvs : Held.ReadsEach cells hs vs) (hws : Held.ReadsEach cells hs ws) : vs = ws :=
  match hvs, hws with
  | .nil, .nil => rfl
  | .cons hv hvs, .cons hw hws => by rw [hv.unique hw, hvs.unique hws]

/-- Held properties are read in one way. -/
theorem Held.ReadsProperties.unique {hs : List (String × Held)} {ps qs : List (String × Value)}
    (hps : Held.ReadsProperties cells hs ps) (hqs : Held.ReadsProperties cells hs qs) : ps = qs :=
  match hps, hqs with
  | .nil, .nil => rfl
  | .cons hv hps, .cons hw hqs => by rw [hv.unique hw, hps.unique hqs]

end

/-! ### Properties and elements -/

section

variable {hs : List (String × Held)} {ps : List (String × Value)}

/-- A held property is read as the property of that name. -/
theorem Held.ReadsProperties.get? (h : Held.ReadsProperties cells hs ps) (name : String) :
    Option.Rel (Held.Reads cells) (Properties.get? hs name) (Properties.get? ps name) := by
  induction hs generalizing ps with
  | nil =>
      cases h
      exact .none
  | cons entry hs ih =>
      cases h with
      | cons hv hps =>
          simp only [Properties.get?]
          split
          · exact .some hv
          · exact ih hps

/-- A property may be set before reading or after it. -/
theorem Held.ReadsProperties.put (h : Held.ReadsProperties cells hs ps) {x : Held} {v : Value}
    (name : String) (hx : x.Reads cells v) :
    Held.ReadsProperties cells (Properties.put hs name x) (Properties.put ps name v) := by
  induction hs generalizing ps with
  | nil =>
      cases h
      exact .cons hx .nil
  | cons entry hs ih =>
      cases h with
      | cons hv hps =>
          -- The names on both sides are the same, so both put it in the same place.
          simp only [Properties.put]
          split
          · exact .cons hx hps
          · split
            · exact .cons hx (.cons hv hps)
            · exact .cons hv (ih hps)

/-- A held element is read as the element at that index. -/
theorem Held.ReadsEach.getElem? {hs : List Held} {vs : List Value}
    (h : Held.ReadsEach cells hs vs) (i : Nat) :
    Option.Rel (Held.Reads cells) hs[i]? vs[i]? := by
  induction hs generalizing vs i with
  | nil =>
      cases h
      exact .none
  | cons x hs ih =>
      cases h with
      | cons hv hvs =>
          cases i with
          | zero => exact .some hv
          | succ i => exact ih hvs i

/-- With a property set, what was held by the properties and the new value is held by the
properties and the old value. -/
theorem count_addresses_put (hs : List (String × Held)) (hordered : Properties.Ordered hs)
    (name : String) (x : Held) (a : Address) :
    (Block.object (Properties.put hs name x)).addresses.count a
        + ((Properties.get? hs name).elim [] Held.addresses).count a
      = (Block.object hs).addresses.count a + x.addresses.count a := by
  induction hs with
  | nil => simp [Properties.put, Properties.get?, Block.addresses, Block.held]
  | cons entry hs ih =>
      obtain ⟨key, old⟩ := entry
      obtain ⟨hfirst, hmore⟩ := List.pairwise_cons.1 hordered
      have hrest := ih hmore
      simp only [Block.addresses, Block.held] at hrest ⊢
      by_cases hkey : key = name
      · simp only [Properties.put, Properties.get?, hkey, if_true, List.map_cons,
          List.flatMap_cons, List.count_append, Option.elim_some]
        omega
      · by_cases hlt : name < key
        -- The properties behind have greater names, so there is no old value.
        · have hnone : Properties.get? ((key, old) :: hs) name = none :=
            Properties.get?_eq_none
              (List.forall_mem_cons.2 ⟨hlt, fun k hk => hlt.trans (hfirst k hk)⟩)
          simp only [hnone, Properties.put, hkey, hlt, if_false, if_true, List.map_cons,
            List.flatMap_cons, List.count_append, Option.elim_none, List.count_nil]
          omega
        · simp only [Properties.put, Properties.get?, hkey, hlt, if_false, List.map_cons,
            List.flatMap_cons, List.count_append]
          omega

end

/-! ### Counts -/

namespace Cells

/-- A cell that is written is the one that is found there. -/
theorem cell?_set {c : Option Cell} (ha : a < cells.length) :
    Cells.cell? (cells.set a c) b = if b = a then c else cells.cell? b := by
  unfold cell?
  split
  · rename_i heq
    rw [heq, List.getElem?_set_self ha]
    rfl
  · rename_i hne
    rw [List.getElem?_set_ne (Ne.symm hne)]

/-- What is held within cells, when one of them is changed. -/
theorem count_inner_set {old : Option Cell} (h : cells[a]? = some old) (new : Option Cell)
    (b : Address) : (inner (cells.set a new)).count b + (addressesOf old).count b
      = cells.inner.count b + (addressesOf new).count b := by
  simpa only [List.count_append] using (inner_set_perm h new).count_eq b

/-- The count of every cell is how often it is held, within cells and by the owners. The names
of properties are in order, so that none stands twice. -/
structure Counted (cells : Cells) (owners : List Address) : Prop where
  count : ∀ a, cells.count a = cells.inner.count a + owners.count a
  ordered : ∀ a hs, cells.block? a = some (.object hs) → Properties.Ordered hs

/-- Only how often the owners hold each cell matters. -/
theorem Counted.congr {owners owners' : List Address} (h : cells.Counted owners)
    (heq : ∀ a, owners.count a = owners'.count a) : cells.Counted owners' :=
  ⟨fun a => heq a ▸ h.count a, h.ordered⟩

/-- The other cells are as before. -/
theorem block?_set {c : Option Cell} (ha : a < cells.length) (hne : b ≠ a) :
    Cells.block? (cells.set a c) b = cells.block? b := by
  rw [block?, cell?_set ha, if_neg hne]
  rfl

/-- A cell that no other cell holds can be lost. -/
theorem keeps_set {c : Option Cell} (ha : a < cells.length) (hinner : cells.inner.count a = 0) :
    Keeps (· = a) cells (cells.set a c) where
  same _ _ hne hblock := (block?_set ha hne).trans hblock
  inner _ hmem heq := List.count_eq_zero.1 hinner (heq ▸ hmem)

/-- How often a cell is held, as far as is counted. -/
def countOf (c : Option Cell) : Nat := c.elim 0 Cell.count

/-- A cell can be changed if what is held in all stays the same, with the cell itself held as
often as it counts. -/
theorem Counted.set {old new : Option Cell} {owners owners' : List Address}
    (h : cells.Counted owners) (ha : cells[a]? = some old)
    (hbalance : ∀ b, owners'.count b + (addressesOf new).count b
        + (if b = a then countOf old else 0)
      = owners.count b + (addressesOf old).count b + if b = a then countOf new else 0)
    (hordered : ∀ hs, new.map Cell.block = some (.object hs) → Properties.Ordered hs) :
    Counted (cells.set a new) owners' := by
  have hlt := (List.getElem?_eq_some_iff.1 ha).1
  have hold : cells.cell? a = old := by
    rw [cell?, ha]
    rfl
  refine ⟨fun b => ?_, fun b hs hb => ?_⟩
  · have hcount := h.count b
    have hinner := count_inner_set ha new b
    have hbal := hbalance b
    unfold Cells.count at hcount ⊢
    rw [cell?_set hlt]
    -- Only the count of the changed cell changes, and what the others are held by.
    by_cases hba : b = a
    · rw [hba, hold] at hcount
      rw [if_pos hba] at hbal ⊢
      rw [if_pos hba] at hbal
      rw [hba] at hbal hinner ⊢
      simp only [countOf] at hbal
      omega
    · simp only [hba, if_false] at hbal ⊢
      omega
  · by_cases hba : b = a
    · rw [block?, cell?_set hlt, if_pos hba] at hb
      exact hordered hs hb
    · rw [block?_set hlt hba] at hb
      exact h.ordered b hs hb

section

variable {cell : Cell} {count : Nat}

/-- Counting changes no content. -/
theorem block?_recount (hcell : cells[a]? = some (some cell)) :
    Cells.block? (cells.set a (some { cell with count := count })) b = cells.block? b := by
  by_cases hba : b = a
  · rw [hba, block?, cell?_set (List.getElem?_eq_some_iff.1 hcell).1, if_pos rfl, block?, cell?,
      hcell]
    rfl
  · exact block?_set (List.getElem?_eq_some_iff.1 hcell).1 hba

/-- A cell can count more or less, as it is held more or less often. -/
theorem Counted.recount {owners owners' : List Address} (h : cells.Counted owners)
    (hcell : cells[a]? = some (some cell))
    (hbalance : ∀ b, owners'.count b + (if b = a then cell.count else 0)
      = owners.count b + if b = a then count else 0) :
    Counted (cells.set a (some { cell with count := count })) owners' := by
  refine h.set hcell (fun b => ?_) fun hs hb => h.ordered a hs ?_
  · have hbal := hbalance b
    simp only [addressesOf, countOf, Option.elim_some]
    omega
  · rw [block?, cell?, hcell]
    exact hb

end

/-! ### Cells that are held more -/

/-- So does one more owner. -/
theorem block?_retain : (cells.retain a).block? b = cells.block? b := by
  unfold retain
  split
  · exact block?_recount ‹_›
  · rfl

/-- And so do several. -/
theorem block?_retainAll (as : List Address) : (cells.retainAll as).block? b = cells.block? b := by
  induction as generalizing cells with
  | nil => rfl
  | cons a as ih =>
      rw [retainAll, List.foldl_cons]
      exact ih.trans block?_retain

/-- Retaining loses nothing. -/
theorem extends_retainAll (as : List Address) : cells.Extends (cells.retainAll as) :=
  fun _ _ ha => (block?_retainAll as).trans ha

/-- One more owner is counted. -/
theorem Counted.retain {owners : List Address} (h : cells.Counted owners)
    (ha : (cells.block? a).isSome) : (cells.retain a).Counted (a :: owners) := by
  obtain ⟨block, hblock⟩ := Option.isSome_iff_exists.1 ha
  obtain ⟨cell, hcell, -⟩ := Option.map_eq_some_iff.1 hblock
  have hget := Option.join_eq_some_iff.1 hcell
  unfold Cells.retain
  rw [hget]
  refine h.recount hget fun b => ?_
  simp only [List.count_cons, beq_iff_eq, eq_comm (a := a)]
  split <;> omega

/-- Several more owners are counted. -/
theorem Counted.retainAll {owners as : List Address} (h : cells.Counted owners)
    (has : ∀ a ∈ as, (cells.block? a).isSome) : (cells.retainAll as).Counted (as ++ owners) := by
  induction as generalizing cells owners with
  | nil => exact h
  | cons a as ih =>
      obtain ⟨ha, has⟩ := List.forall_mem_cons.1 has
      rw [Cells.retainAll, List.foldl_cons]
      refine (ih (h.retain ha) fun b hb => by rw [block?_retain]; exact has b hb).congr fun b => ?_
      simp only [List.count_append, List.count_cons]
      omega

/-! ### New cells -/

/-- A new cell stands where there was none. -/
theorem cell?_allocate (cells : Cells) (hint : Address) (block : Block) :
    cells.cell? (cells.allocate hint block).2 = none ∧
      ∀ b, (cells.allocate hint block).1.cell? b
        = if b = (cells.allocate hint block).2 then some ⟨1, block⟩ else cells.cell? b := by
  unfold allocate
  -- The hinted place is free, or the new cell goes to the end.
  split
  · rename_i hfree
    refine ⟨by rw [cell?, hfree]; rfl, fun b => ?_⟩
    exact cell?_set (List.getElem?_eq_some_iff.1 hfree).1
  · refine ⟨by simp [cell?], fun b => ?_⟩
    unfold cell?
    split
    · rename_i heq
      simp [heq]
    · rename_i hne
      rw [List.getElem?_append]
      split
      · rfl
      · rename_i hnot
        have hbeyond : cells.length < b := Nat.lt_of_le_of_ne (Nat.le_of_not_lt hnot) (Ne.symm hne)
        have hmore : 1 ≤ b - cells.length := Nat.le_sub_of_add_le' hbeyond
        rw [List.getElem?_eq_none (l := cells) hbeyond.le]
        exact congrArg Option.join (List.getElem?_eq_none hmore)

/-- What the new cell holds is held within the cells now. -/
theorem count_inner_allocate (hint : Address) (block : Block) (b : Address) :
    (cells.allocate hint block).1.inner.count b
      = cells.inner.count b + block.addresses.count b := by
  unfold allocate
  split
  · rename_i hfree
    exact count_inner_set hfree (some ⟨1, block⟩) b
  · simp [inner, addressesOf]

/-- The new cell has the content it was made with. -/
theorem block?_allocate (hint : Address) (block : Block) :
    (cells.allocate hint block).1.block? (cells.allocate hint block).2 = some block := by
  rw [block?, (cells.cell?_allocate hint block).2, if_pos rfl]
  rfl

/-- A new cell loses no other. -/
theorem extends_allocate (hint : Address) (block : Block) :
    cells.Extends (cells.allocate hint block).1 := by
  obtain ⟨hfree, hcell⟩ := cells.cell?_allocate hint block
  intro b block' hb
  rw [block?, hcell, if_neg]
  · exact hb
  · rintro rfl
    rw [block?, hfree] at hb
    cases hb

/-- What was held by an owner is held within the new cell. -/
theorem Counted.allocate {owners : List Address} {block : Block}
    (h : cells.Counted (block.addresses ++ owners))
    (hordered : ∀ hs, block = .object hs → Properties.Ordered hs) (hint : Address) :
    (cells.allocate hint block).1.Counted ((cells.allocate hint block).2 :: owners) := by
  obtain ⟨hfree, hcell⟩ := cells.cell?_allocate hint block
  refine ⟨fun b => ?_, fun b hs hb => ?_⟩
  · have hcount := h.count b
    rw [count_inner_allocate, List.count_cons]
    rw [List.count_append] at hcount
    unfold Cells.count at hcount ⊢
    rw [hcell]
    -- The new cell is held once, by its maker. What it holds was held by owners, and is now held
    -- by it.
    by_cases hb : b = (cells.allocate hint block).2
    · rw [if_pos hb, ← hb]
      rw [hb, hfree, ← hb] at hcount
      simp only [Option.elim_none, Option.elim_some, beq_self_eq_true, if_true] at hcount ⊢
      omega
    · rw [if_neg hb, beq_false_of_ne (Ne.symm hb)]
      simp only [Bool.false_eq_true, if_false]
      omega
  · rw [block?, hcell] at hb
    split at hb
    · exact hordered hs (Option.some.inj hb)
    · exact h.ordered b hs hb

/-! ### Cells that are held less -/

section

variable {cell : Cell} {as owners : List Address}

/-- The last owner lets the cell go, and with it what it holds. -/
theorem release_last (hcell : cells[a]? = some (some cell)) (hlast : cell.count ≤ 1) :
    cells.release (a :: as) = Cells.release (cells.set a none) (cell.block.addresses ++ as) := by
  rw [release]
  split
  · rename_i hcell'
    cases hcell.symm.trans hcell'
    rw [if_pos hlast]
  · rename_i hnone
    exact absurd hcell (hnone cell)

/-- Any other owner is only counted off. -/
theorem release_more (hcell : cells[a]? = some (some cell)) (hmore : ¬ cell.count ≤ 1) :
    cells.release (a :: as)
      = Cells.release (cells.set a (some { cell with count := cell.count - 1 })) as := by
  rw [release]
  split
  · rename_i hcell'
    cases hcell.symm.trans hcell'
    rw [if_neg hmore]
  · rename_i hnone
    exact absurd hcell (hnone cell)

/-- What the owners that are left hold is read as before, and the counts are right for them. -/
theorem Counted.release (h : cells.Counted (as ++ owners)) :
    (cells.release as).Counted owners ∧ ∀ (x : Held) (v : Value),
      (∀ a ∈ x.addresses, a ∈ owners) → x.Reads cells v → x.Reads (cells.release as) v := by
  -- As `release` goes: what it still has to hold less are owners beside those that are left.
  induction cells, as using release.induct with
  | case1 cells =>
      rw [Cells.release]
      exact ⟨h, fun _ _ _ => id⟩
  | case2 cells a as cell hcell hlast ih =>
      have honce := h.count a
      simp only [Cells.count, cell?, hcell, Option.join_some, Option.elim_some, List.cons_append,
        List.count_cons_self, List.count_append] at honce
      have hfreed : Counted (cells.set a none) (cell.block.addresses ++ as ++ owners) := by
        refine h.set hcell (fun b => ?_) nofun
        simp only [addressesOf, countOf, List.cons_append, List.count_append, List.count_cons,
          List.count_nil, Option.elim_some, Option.elim_none, beq_iff_eq, eq_comm (a := a)]
        split <;> omega
      obtain ⟨hcounted, hread⟩ := ih hfreed
      rw [release_last hcell hlast]
      -- Nothing that is left holds the cell.
      have hkeeps := keeps_set (c := none) (List.getElem?_eq_some_iff.1 hcell).1
        (by omega : cells.inner.count a = 0)
      refine ⟨hcounted, fun x v hx hv => hread x v hx (hv.transfer hkeeps ?_)⟩
      rintro _ hmem rfl
      have howner := List.count_pos_iff.2 (hx _ hmem)
      omega
  | case3 cells a as cell hcell hmore ih =>
      have hless : Counted (cells.set a (some { cell with count := cell.count - 1 }))
          (as ++ owners) := by
        refine h.recount hcell fun b => ?_
        simp only [List.cons_append, List.count_cons, beq_iff_eq, eq_comm (a := a)]
        split <;> omega
      obtain ⟨hcounted, hread⟩ := ih hless
      rw [release_more hcell hmore]
      exact ⟨hcounted, fun x v hx hv =>
        hread x v hx (hv.extend fun b block hb => (block?_recount hcell).trans hb)⟩
  | case4 cells a as hnone ih =>
      -- What is held has a cell.
      have hcount := h.count a
      rw [Cells.count, cell?, List.cons_append, List.count_cons_self] at hcount
      rcases hcell : cells[a]? with _ | _ | cell
      · rw [hcell] at hcount
        simp at hcount
      · rw [hcell] at hcount
        simp at hcount
      · exact absurd hcell (hnone cell)

/-- A cell that only one owner holds can be changed in place. What does not hold it is read as
before. -/
theorem Counted.replace {hs : List (String × Held)} {x : Held}
    (h : cells.Counted (x.addresses ++ owners)) (hcell : cells.cell? a = some ⟨1, .object hs⟩)
    (ha : a ∈ owners) (name : String) :
    Counted (cells.set a (some ⟨1, .object (Properties.put hs name x)⟩))
        ((Properties.get? hs name).elim [] Held.addresses ++ owners) ∧
      owners.count a = 1 ∧ a ∉ x.addresses ∧
      Keeps (· = a) cells (cells.set a (some ⟨1, .object (Properties.put hs name x)⟩)) := by
  have hget : cells[a]? = some (some ⟨1, .object hs⟩) := Option.join_eq_some_iff.1 hcell
  have hordered : Properties.Ordered hs := h.ordered a hs (by rw [block?, hcell]; rfl)
  -- The one owner is all that holds the cell.
  have honce : 1 = cells.inner.count a + (x.addresses.count a + owners.count a) := by
    have hcount := h.count a
    rwa [Cells.count, hcell, List.count_append] at hcount
  have howner := List.count_pos_iff.2 ha
  refine ⟨h.set hget (fun b => ?_) fun hs' hhs' => ?_, by omega, ?_, ?_⟩
  · have hput := count_addresses_put hs hordered name x b
    simp only [addressesOf, countOf, List.count_append, Option.elim_some]
    omega
  · cases hhs'
    exact hordered.put name x
  · exact List.count_eq_zero.1 (by omega)
  · exact keeps_set (List.getElem?_eq_some_iff.1 hget).1 (by omega)

end

end Cells

end Storage

end Formula
