import Mathlib.Data.List.Nodup
import Mathlib.Data.List.Perm.Basic
import Formula.Expr.Tagged

/-!
# `Formula.Proofs.Json.Decoding`: documents of trees

Whoever writes a tree may put the members of a node in any order, may give a
node members that it does not have, and may use nodes that are not known
here. None of it has a part in the tree that is decoded: the order and the
other members are not looked at, and a node that is not known is the unknown
node, with whatever is in it and next to whatever nodes.

* `Depicts`: the documents that stand for a tree.
* `depicts_toJson`: among them the one that is written here.
* `ofJson_of_depicts`: they are decoded as the tree.
-/

set_option autoImplicit false

namespace Formula.Expr

/-! ### The parts of a tree -/

/-- What sort of part a part is. -/
def Part.sort : Part → PartSort
  | .text _ => .text
  | .flag _ => .flag
  | .constant _ => .constant
  | .node _ => .node
  | .nodes _ => .nodes

/-- The document of a part. -/
def Part.toJson : Part → Json
  | .text s => .string s
  | .flag b => .bool b
  | .constant value => value.toJson
  | .node e => e.toJson
  | .nodes es => .array (toJsons es)

/-- The parts of a node, in the order in which they are written. -/
def parts : Expr → Parts
  | .literal value => [("value", .constant value)]
  | .identifier name => [("name", .text name)]
  | .this => []
  | .array elements => [("elements", .nodes elements)]
  | .unary operator argument => [("operator", .text operator), ("argument", .node argument)]
  | .binary operator left right =>
    [("operator", .text operator), ("left", .node left), ("right", .node right)]
  | .logical operator left right =>
    [("operator", .text operator), ("left", .node left), ("right", .node right)]
  | .conditional test consequent alternate =>
    [("test", .node test), ("consequent", .node consequent), ("alternate", .node alternate)]
  | .member object property computed =>
    [("object", .node object), ("property", .node property), ("computed", .flag computed)]
  | .call callee arguments => [("callee", .node callee), ("arguments", .nodes arguments)]
  | .unknown => []

/-- The members of a node besides its tag. -/
def members (e : Expr) : List (String × Json) := e.parts.map fun p => (p.1, p.2.toJson)

/-- A tree is written as its tag and its members. -/
theorem toJson_eq_tagged (e : Expr) : e.toJson = tagged e.kind e.members := by
  cases e <;> rfl

/-- The shape under a node's tag has the node's parts. -/
theorem shapeOfTag_kind (e : Expr) : (shapeOfTag e.kind).tag = e.kind ∧
    ∀ p ∈ e.parts, (shapeOfTag e.kind).parts.lookup p.1 = some p.2.sort := by
  cases e <;> refine ⟨rfl, ?_⟩ <;>
    repeat first | exact List.forall_mem_nil _ | refine List.forall_mem_cons.2 ⟨rfl, ?_⟩

/-- No two parts of a node have one name. -/
theorem nodup_parts (e : Expr) : (e.parts.map Prod.fst).Nodup := by
  cases e <;> simp [parts]

/-- The parts of a node make it up again. -/
theorem ofParts_kind (e : Expr) : ofParts e.kind (e.parts.reverse ++ []) = .ok e := by
  cases e <;> rfl

/-- The names that the shape under a node's tag has are those of the node's parts. -/
theorem names_shapeOfTag_kind (e : Expr) :
    (shapeOfTag e.kind).parts.map Prod.fst = e.parts.map Prod.fst := by
  cases e <;> rfl

/-- No part of a node is named as the tag. -/
theorem parts_ne_tagName (e : Expr) : ∀ name ∈ e.parts.map Prod.fst, name ≠ tagName := by
  cases e <;> simp [parts, tagName]

/-! ### The documents of a tree -/

mutual

/-- A document stands for a tree: it is an object with the tag and the parts of the
node, in any order, and next to them any members whose names the node does not have. An
object whose tag names no node stands for the unknown node, whatever else is in it. -/
inductive Depicts : Json → Expr → Prop
  | node {e : Expr} {ms own others : List (String × Json)} (hown : DepictsParts own e.parts)
      (hothers : ∀ m ∈ others, m.1 ≠ tagName ∧ m.1 ∉ e.parts.map Prod.fst)
      (horder : ms.Perm ((tagName, .string e.kind) :: (own ++ others))) : Depicts (.object ms) e
  | unknown {tag : String} {ms others : List (String × Json)}
      (htag : ∀ e : Expr, e.kind = tag → e = .unknown) (hothers : ∀ m ∈ others, m.1 ≠ tagName)
      (horder : ms.Perm ((tagName, .string tag) :: others)) : Depicts (.object ms) .unknown

/-- Documents stand for the trees of a list. -/
inductive DepictsEach : List Json → List Expr → Prop
  | nil : DepictsEach [] []
  | cons {j : Json} {js : List Json} {e : Expr} {es : List Expr} (h : Depicts j e)
      (hmore : DepictsEach js es) : DepictsEach (j :: js) (e :: es)

/-- A document stands for a part. A whole number may be written without a point. -/
inductive DepictsPart : Json → Part → Prop
  | text (s : String) : DepictsPart (.string s) (.text s)
  | flag (b : Bool) : DepictsPart (.bool b) (.flag b)
  | constant (value : Literal) : DepictsPart value.toJson (.constant value)
  | integer (n : Int) : DepictsPart (.integer n) (.constant (.number (.ofInt n)))
  | node {j : Json} {e : Expr} (h : Depicts j e) : DepictsPart j (.node e)
  | nodes {js : List Json} {es : List Expr} (h : DepictsEach js es) :
      DepictsPart (.array js) (.nodes es)

/-- Members stand for the parts under their names. -/
inductive DepictsParts : List (String × Json) → Parts → Prop
  | nil : DepictsParts [] []
  | cons {name : String} {j : Json} {p : Part} {ms : List (String × Json)} {ps : Parts}
      (h : DepictsPart j p) (hmore : DepictsParts ms ps) :
      DepictsParts ((name, j) :: ms) ((name, p) :: ps)

end

mutual

/-- The document that is written stands for its tree. -/
theorem depicts_toJson : (e : Expr) → Depicts e.toJson e
  | e => by
      have horder : ((tagName, Json.string e.kind) :: e.members).Perm
          ((tagName, .string e.kind) :: (e.members ++ [])) := by rw [List.append_nil]
      rw [toJson_eq_tagged]
      exact .node (depictsParts_members e) (List.forall_mem_nil _) horder

/-- The members of a node stand for its parts. -/
theorem depictsParts_members : (e : Expr) → DepictsParts e.members e.parts
  -- The parts in the order of `members`, one for each name.
  | .literal value => .cons (.constant value) .nil
  | .identifier name => .cons (.text name) .nil
  | .this => .nil
  | .unknown => .nil
  | .array elements => .cons (.nodes (depictsEach_toJsons elements)) .nil
  | .unary operator argument =>
    .cons (.text operator) (.cons (.node (depicts_toJson argument)) .nil)
  | .binary operator left right =>
    .cons (.text operator)
      (.cons (.node (depicts_toJson left)) (.cons (.node (depicts_toJson right)) .nil))
  | .logical operator left right =>
    .cons (.text operator)
      (.cons (.node (depicts_toJson left)) (.cons (.node (depicts_toJson right)) .nil))
  | .conditional test consequent alternate =>
    .cons (.node (depicts_toJson test))
      (.cons (.node (depicts_toJson consequent)) (.cons (.node (depicts_toJson alternate)) .nil))
  | .member object property computed =>
    .cons (.node (depicts_toJson object))
      (.cons (.node (depicts_toJson property)) (.cons (.flag computed) .nil))
  | .call callee arguments =>
    .cons (.node (depicts_toJson callee)) (.cons (.nodes (depictsEach_toJsons arguments)) .nil)

/-- The documents of some trees stand for them. -/
theorem depictsEach_toJsons : (es : List Expr) → DepictsEach (toJsons es) es
  | [] => .nil
  | e :: es => .cons (depicts_toJson e) (depictsEach_toJsons es)

end

/-! ### Decoding members -/

section

variable {shape : Shape} {found : Option Shape}

/-- A member that a part under its name is decoded from. -/
def Gives (m : String × Json) (p : String × Part) : Prop :=
  m.1 = p.1 ∧
    partOfJson p.2.sort m.2 (fun _ => ofJson m.2) (fun _ => ofElementsOf m.2) = .ok p.2

/-- Members that belong to a shape are decoded one after the other. -/
theorem ofMembers_of_gives {ms : List (String × Json)} {ps : Parts}
    (hgives : List.Forall₂ Gives ms ps) (found : Parts)
    (hsorts : ∀ p ∈ ps, shape.parts.lookup p.1 = some p.2.sort)
    (hnames : (ps.map Prod.fst).Nodup) (hnew : ∀ p ∈ ps, found.lookup p.1 = none) :
    ofMembers shape found ms = ofParts shape.tag (ps.reverse ++ found) := by
  -- What is found grows by a part with each member. That the next name is not found yet is
  -- what keeps the decoding from ending with a member given twice.
  induction hgives generalizing found with
  | nil => rw [ofMembers, List.reverse_nil, List.nil_append]
  | @cons m p ms ps hm _ ih =>
      obtain ⟨name, part⟩ := p
      obtain ⟨own, j⟩ := m
      obtain ⟨hsame, hdecode⟩ := hm
      obtain rfl : own = name := hsame
      obtain ⟨hsort, hsorts⟩ := List.forall_mem_cons.1 hsorts
      obtain ⟨hfree, hnew⟩ := List.forall_mem_cons.1 hnew
      obtain ⟨hname, hnames⟩ := List.nodup_cons.1 hnames
      have hmore : ∀ p ∈ ps, List.lookup p.1 ((own, part) :: found) = none := by
        intro p hp
        have hne : p.1 ≠ own := fun heq => hname (List.mem_map.2 ⟨p, hp, heq⟩)
        rw [List.lookup_cons, beq_false_of_ne hne]
        exact hnew p hp
      have hnext := ih ((own, part) :: found) hsorts hnames hmore
      dsimp only at hsort hfree hdecode ⊢
      rw [ofMembers, hsort]
      dsimp only
      rw [hfree, Option.isSome_none, if_neg (by decide), hdecode]
      rw [List.reverse_cons, List.append_assoc, List.singleton_append]
      exact hnext

/-- Members have the names of the parts that are decoded from them. -/
theorem map_fst_of_gives {own : List (String × Json)} {ps : Parts}
    (h : List.Forall₂ Gives own ps) :
    own.map Prod.fst = ps.map Prod.fst := by
  induction h with
  | nil => rfl
  | cons hm _ ih => rw [List.map_cons, List.map_cons, hm.1, ih]

/-- Members that a shape does not have can be left out. -/
theorem ofMembers_filter {keep : String × Json → Bool} (ms : List (String × Json)) (parts : Parts)
    (h : ∀ m ∈ ms, keep m = false → shape.parts.lookup m.1 = none) :
    ofMembers shape parts (ms.filter keep) = ofMembers shape parts ms := by
  induction ms generalizing parts with
  | nil => rfl
  | cons m ms ih =>
      obtain ⟨name, j⟩ := m
      obtain ⟨hm, hms⟩ := List.forall_mem_cons.1 h
      -- A member that is left out changes no part, and one that is kept is decoded on both
      -- sides.
      cases hkeep : keep (name, j) with
      | false =>
          rw [List.filter_cons_of_neg (by simp [hkeep]), ih parts hms, ofMembers, hm hkeep]
      | true =>
          rw [List.filter_cons_of_pos hkeep, ofMembers, ofMembers]
          cases shape.parts.lookup name with
          | none => exact ih parts hms
          | some sort =>
              dsimp only
              split
              · rfl
              · cases partOfJson sort j (fun _ => ofJson j) (fun _ => ofElementsOf j) with
                | error _ => rfl
                | ok part => exact ih _ hms

/-- A member that is no tag does not change the shape. -/
theorem shapeOfMembers_skip {name : String} {j : Json} {rest : List (String × Json)}
    (h : name ≠ tagName) :
    shapeOfMembers found ((name, j) :: rest) = shapeOfMembers found rest := by
  cases found <;> rw [shapeOfMembers, if_neg h]

end

/-! ### Members in any order -/

/-- A part is looked up by its name, wherever it stands. -/
theorem lookup_eq_of_perm {ps ps' : Parts} (h : ps.Perm ps') (hnames : (ps.map Prod.fst).Nodup)
    (name : String) : ps.lookup name = ps'.lookup name := by
  induction h with
  | nil => rfl
  | cons p _ ih =>
      rw [List.lookup_cons, List.lookup_cons, ih (List.nodup_cons.1 hnames).2]
  -- Only where both names are equal could the order matter, and they are distinct.
  | swap p q ps =>
      have hne : q.1 ≠ p.1 := fun heq => (List.nodup_cons.1 hnames).1 (by simp [heq])
      rw [List.lookup_cons, List.lookup_cons, List.lookup_cons, List.lookup_cons]
      by_cases hq : name = q.1
      · simp [hq, beq_false_of_ne hne]
      · simp [beq_false_of_ne hq]
  | trans h _ ih ih' =>
      exact (ih hnames).trans (ih' ((h.map Prod.fst).nodup_iff.1 hnames))

/-- A node is made of the parts under its names. -/
theorem ofParts_congr {ps ps' : Parts} (h : ∀ name, ps.lookup name = ps'.lookup name)
    (tag : String) : ofParts tag ps = ofParts tag ps' := by
  simp only [ofParts, Parts.text, Parts.flag, Parts.constant, Parts.node, Parts.nodes, h]

section

variable {e : Expr} {ms own others : List (String × Json)} {tag : String}

/-- The members of a node are decoded as the node in any order. -/
theorem ofMembers_of_perm (hown : List.Forall₂ Gives own e.parts) (horder : ms.Perm own) :
    ofMembers (shapeOfTag e.kind) [] ms = .ok e := by
  -- The parts in the order of the members. They are found the other way round, and only
  -- their names tell which is which.
  obtain ⟨ps, hgives, hparts⟩ := List.perm_comp_forall₂ horder hown
  obtain ⟨htag, hsorts⟩ := shapeOfTag_kind e
  have hnames : (ps.map Prod.fst).Nodup := (hparts.map Prod.fst).nodup_iff.2 (nodup_parts e)
  have hreverse : (ps.reverse ++ []).Perm (e.parts.reverse ++ []) :=
    ((List.reverse_perm ps).trans (hparts.trans (List.reverse_perm e.parts).symm)).append_right []
  have hreversed : ((ps.reverse ++ []).map Prod.fst).Nodup := by
    rw [List.append_nil, List.map_reverse]
    exact List.nodup_reverse.2 hnames
  rw [ofMembers_of_gives hgives [] (fun p hp => hsorts p (hparts.mem_iff.1 hp)) hnames
    fun _ _ => rfl, htag, ofParts_congr (lookup_eq_of_perm hreverse hreversed), ofParts_kind]

/-- One tag among members is found in any order. -/
theorem shapeOfMembers_of_perm (hothers : ∀ m ∈ others, m.1 ≠ tagName)
    (horder : ms.Perm ((tagName, .string tag) :: others)) :
    shapeOfMembers none ms = .ok (shapeOfTag tag) := by
  have hskip : ∀ (found : Option Shape) (before after : List (String × Json)),
      (∀ m ∈ before, m.1 ≠ tagName) →
        shapeOfMembers found (before ++ after) = shapeOfMembers found after := by
    intro found before after hbefore
    induction before with
    | nil => rfl
    | cons m before ih =>
        obtain ⟨hm, hbefore⟩ := List.forall_mem_cons.1 hbefore
        exact (shapeOfMembers_skip hm).trans (ih hbefore)
  -- The tag splits the members, and neither side holds another one.
  obtain ⟨before, after, rfl⟩ :=
    List.append_of_mem (horder.mem_iff.2 (List.mem_cons_self (a := (tagName, Json.string tag))))
  have hrest : (before ++ after).Perm others := (List.perm_middle.symm.trans horder).cons_inv
  have hnone : ∀ m ∈ before ++ after, m.1 ≠ tagName := fun m hm => hothers m (hrest.mem_iff.1 hm)
  obtain ⟨hbefore, hafter⟩ := List.forall_mem_append.1 hnone
  rw [hskip none before _ hbefore, shapeOfMembers, if_pos rfl]
  have hend := hskip (some (shapeOfTag tag)) after [] hafter
  rw [List.append_nil] at hend
  exact hend

/-- The tag and the parts of a node, in any order and next to other members, are decoded as
the node. -/
theorem ofJson_of_gives (hown : List.Forall₂ Gives own e.parts)
    (hothers : ∀ m ∈ others, m.1 ≠ tagName ∧ m.1 ∉ e.parts.map Prod.fst)
    (horder : ms.Perm ((tagName, .string e.kind) :: (own ++ others))) :
    ofJson (.object ms) = .ok e := by
  have hnames := map_fst_of_gives hown
  have hmine : ∀ m ∈ own, m.1 ∈ e.parts.map Prod.fst := fun m hm =>
    hnames ▸ List.mem_map_of_mem hm
  have htags : ∀ m ∈ own ++ others, m.1 ≠ tagName := List.forall_mem_append.2
    ⟨fun m hm => e.parts_ne_tagName _ (hmine m hm), fun m hm => (hothers m hm).1⟩
  -- The others can be left out, as the shape does not have their names, and so can the tag.
  have hkept : (ms.filter fun m => decide (m.1 ∈ e.parts.map Prod.fst)).Perm own := by
    have htag : tagName ∉ e.parts.map Prod.fst := fun h => e.parts_ne_tagName _ h rfl
    have hall : own.filter (fun m => decide (m.1 ∈ e.parts.map Prod.fst)) = own :=
      List.filter_eq_self.2 fun m hm => decide_eq_true (hmine m hm)
    have hnone : others.filter (fun m => decide (m.1 ∈ e.parts.map Prod.fst)) = [] :=
      List.filter_eq_nil_iff.2 fun m hm => by simpa using (hothers m hm).2
    have hperm := horder.filter fun m => decide (m.1 ∈ e.parts.map Prod.fst)
    rwa [List.filter_cons_of_neg (by simpa using htag), List.filter_append, hall, hnone,
      List.append_nil] at hperm
  have hdropped : ∀ m ∈ ms, decide (m.1 ∈ e.parts.map Prod.fst) = false →
      (shapeOfTag e.kind).parts.lookup m.1 = none := by
    intro m _ hm
    rw [← names_shapeOfTag_kind] at hm
    refine List.lookup_eq_none_iff.2 fun p hp => bne_iff_ne.2 fun heq => ?_
    exact of_decide_eq_false hm (heq ▸ List.mem_map_of_mem hp)
  rw [ofJson, shapeOfMembers_of_perm htags horder]
  show ofMembers (shapeOfTag e.kind) [] ms = _
  rw [← ofMembers_filter ms [] hdropped]
  exact ofMembers_of_perm hown hkept

/-- A tag that names no node stands for the shape without parts. -/
theorem shapeOfTag_of_unknown (htag : ∀ e : Expr, e.kind = tag → e = .unknown) :
    shapeOfTag tag = unknownShape := by
  -- Every shape of the table is that of some node, so the table has none under this tag.
  have hnamed : ∀ shape ∈ shapes, ∃ e : Expr, e.kind = shape.tag ∧ e ≠ .unknown := by
    simp only [shapes, List.forall_mem_cons]
    exact ⟨⟨.literal .null, rfl, nofun⟩, ⟨.identifier "", rfl, nofun⟩, ⟨.this, rfl, nofun⟩,
      ⟨.array [], rfl, nofun⟩, ⟨.unary "" .this, rfl, nofun⟩, ⟨.binary "" .this .this, rfl, nofun⟩,
      ⟨.logical "" .this .this, rfl, nofun⟩, ⟨.conditional .this .this .this, rfl, nofun⟩,
      ⟨.member .this .this true, rfl, nofun⟩, ⟨.call .this [], rfl, nofun⟩,
      List.forall_mem_nil _⟩
  have hnone : shapes.find? (·.tag == tag) = none := by
    refine List.find?_eq_none.2 fun shape hshape heq => ?_
    obtain ⟨e, hkind, hknown⟩ := hnamed shape hshape
    exact hknown (htag e (hkind.trans (beq_iff_eq.1 heq)))
  rw [shapeOfTag, hnone]
  rfl

/-- An object under a foreign tag is decoded as the unknown node. -/
theorem ofJson_of_unknown (htag : ∀ e : Expr, e.kind = tag → e = .unknown)
    (hothers : ∀ m ∈ others, m.1 ≠ tagName)
    (horder : ms.Perm ((tagName, .string tag) :: others)) :
    ofJson (.object ms) = .ok .unknown := by
  rw [ofJson, shapeOfMembers_of_perm hothers horder, shapeOfTag_of_unknown htag]
  show ofMembers unknownShape [] ms = _
  rw [← ofMembers_filter ms [] fun _ _ _ => rfl, List.filter_false]
  rfl

end

mutual

/-- The documents that stand for a tree are decoded as the tree. -/
theorem ofJson_of_depicts : {j : Json} → {e : Expr} → Depicts j e → ofJson j = .ok e
  | _, _, .node hown hothers horder => ofJson_of_gives (gives_of_depictsParts hown) hothers horder
  | _, _, .unknown htag hothers horder => ofJson_of_unknown htag hothers horder

/-- The documents that stand for some trees are decoded as these. -/
theorem ofJsons_of_depictsEach : {js : List Json} → {es : List Expr} → DepictsEach js es →
    ofJsons js = .ok es
  | _, _, .nil => rfl
  | _, _, .cons h hmore => by
      rw [ofJsons, ofJson_of_depicts h, ofJsons_of_depictsEach hmore]
      rfl

/-- A document that stands for a part is decoded as the part. -/
theorem decodes_of_depictsPart : {j : Json} → {p : Part} → DepictsPart j p →
    partOfJson p.sort j (fun _ => ofJson j) (fun _ => ofElementsOf j) = .ok p
  | _, _, .text s => rfl
  | _, _, .flag b => rfl
  | _, _, .constant value => by cases value <;> rfl
  | _, _, .integer n => rfl
  -- Only trees take another round of the decoder.
  | _, _, .node h => by
      show Part.node <$> ofJson _ = _
      rw [ofJson_of_depicts h]
      rfl
  | _, _, .nodes h => by
      show Part.nodes <$> ofJsons _ = _
      rw [ofJsons_of_depictsEach h]
      rfl

/-- The parts are decoded from the members that stand for them. -/
theorem gives_of_depictsParts : {ms : List (String × Json)} → {ps : Parts} → DepictsParts ms ps →
    List.Forall₂ Gives ms ps
  | _, _, .nil => .nil
  | _, _, .cons h hmore => .cons ⟨rfl, decodes_of_depictsPart h⟩ (gives_of_depictsParts hmore)

end

/-- The document of a tree is decoded as the tree. -/
theorem ofJson_toJson (e : Expr) : ofJson e.toJson = .ok e := ofJson_of_depicts (depicts_toJson e)

/-- All tags among some members are texts. -/
def TextTags (ms : List (String × Json)) : Prop :=
  ∀ m ∈ ms, m.1 = tagName → ∃ tag, m.2 = .string tag

/-- What stands for a tree is an object, and its tag is a text. -/
theorem Depicts.textTags {j : Json} {e : Expr} (h : Depicts j e) :
    ∃ ms, j = .object ms ∧ TextTags ms := by
  have htags : ∀ {tag : String} {ms others : List (String × Json)},
      (∀ m ∈ others, m.1 ≠ tagName) → ms.Perm ((tagName, .string tag) :: others) → TextTags ms := by
    intro tag ms others hothers horder m hm hname
    rcases List.mem_cons.1 (horder.mem_iff.1 hm) with rfl | hother
    · exact ⟨tag, rfl⟩
    · exact absurd hname (hothers m hother)
  -- In both kinds of objects nothing but the tag has its name.
  cases h with
  | node hown hothers horder =>
      have hnames := map_fst_of_gives (gives_of_depictsParts hown)
      refine ⟨_, rfl, htags (List.forall_mem_append.2 ⟨fun m hm => ?_, fun m hm => ?_⟩) horder⟩
      · exact e.parts_ne_tagName _ (hnames ▸ List.mem_map_of_mem hm)
      · exact (hothers m hm).1
  | unknown _ hothers horder => exact ⟨_, rfl, htags hothers horder⟩

end Formula.Expr
