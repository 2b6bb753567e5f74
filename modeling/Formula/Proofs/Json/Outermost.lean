import Formula.Proofs.Json.Decoding
import Formula.Proofs.Json.Documents

/-!
# `Formula.Proofs.Json.Outermost`: the outermost node and the nodes in it

The outermost node of a text is decoded while the text is scanned, and the
nodes in it are decoded from documents that have been read. Both ways come
to one tree: where a text holds a document that is an object, and its tags
are texts, the text has the tree of the document.

* `Json.ofText`: the document that a text holds.
* `Json.ofText_compact`: the compact text of a document holds the document
  that comes back.
* `readNodeMembers_of_readMembers`: the members of the outermost node, by the
  recursion that reads the members of any object.
* `ofJsonText_of_ofText`: the tree of a text is that of its document.
-/

set_option autoImplicit false

namespace Formula

namespace Json

/-- The document that a text holds, with nothing else next to it. -/
def ofText (text : String) : Except Fault Json := do
  let (j, c) ← read maxNesting (Cursor.start text)
  let _ ← readEnd c
  return j

/-- The compact text of a document that nests within the limit holds the document that
comes back. -/
theorem ofText_compact {j : Json} (hj : j.InRange) (hnesting : j.nesting ≤ maxNesting) :
    ofText j.compact = .ok j.reread := by
  obtain ⟨p, hread⟩ := reads_compact j hj maxNesting hnesting [] nofun ⟨1, 0⟩
  rw [List.append_nil] at hread
  unfold ofText Cursor.start
  rw [hread]
  rfl

example : Json.compact <$> ofText " \x7b \"a\\u0041\" :7, \"type\" : [ ]\x7d "
    = .ok "\x7b\"aA\":7,\"type\":[]\x7d" := by decide +kernel

/-! ### What readers give -/

/-- A result after another one comes from that one. -/
theorem bind_eq_ok {ε α β : Type} {r : Except ε α} {f : α → Except ε β} {b : β}
    (h : (r >>= f) = .ok b) : ∃ a, r = .ok a ∧ f a = .ok b := by
  cases r with
  | error _ => cases h
  | ok a => exact ⟨a, rfl, h⟩

/-- A document is a number. -/
def IsNumber : Json → Prop
  | .integer _ => True
  | .float _ => True
  | _ => False

variable {negative : Bool} {significand : Nat} {before e : Int} {c c' : Cursor} {j : Json}

/-- The end of a number gives a number. -/
theorem isNumber_of_endFloat (h : endFloat negative significand e c = .ok (j, c')) :
    j.IsNumber := by
  unfold endFloat floatOfParts at h
  cases hscale : scale 4 (.ofNat significand) e with
  | none => simp [hscale, faultAt] at h
  | some x =>
      simp only [hscale, Option.map_some] at h
      obtain ⟨rfl, -⟩ := Prod.mk.inj (Except.ok.inj h)
      trivial

/-- Reading the power of ten gives a number. -/
theorem isNumber_of_readExponent (h : readExponent negative significand before c = .ok (j, c')) :
    j.IsNumber := by
  unfold readExponent at h
  -- Neither the sign nor the digits of the power matter for what comes out.
  generalize readSign (c.drop 1) = sign at h
  dsimp only at h
  split at h
  · cases h
  · split at h
    · split at h
      · exact isNumber_of_endFloat h
      · split at h
        · cases h
        · obtain ⟨rfl, -⟩ := Prod.mk.inj (Except.ok.inj h)
          trivial
    · cases h

/-- What follows the digits after the point gives a number. -/
theorem isNumber_of_endDecimal (h : endDecimal negative significand e c = .ok (j, c')) :
    j.IsNumber := by
  unfold endDecimal at h
  split at h
  · exact isNumber_of_readExponent h
  · exact isNumber_of_readExponent h
  · exact isNumber_of_endFloat h

/-- Reading the digits after the point gives a number. -/
theorem isNumber_of_readFraction {before : Nat}
    (h : readFraction negative significand before c = .ok (j, c')) : j.IsNumber := by
  unfold readFraction at h
  dsimp only at h
  split at h
  · split at h <;> cases h
  · exact isNumber_of_endDecimal h

/-- An integer is a number, with either sign. -/
theorem isNumber_of_ofInteger : (ofInteger negative significand).IsNumber := by
  unfold ofInteger
  split_ifs <;> trivial

/-- Reading a number gives a number. -/
theorem isNumber_of_readNumber (h : readNumber negative c = .ok (j, c')) : j.IsNumber := by
  unfold readNumber at h
  split at h
  · split at h <;> cases h
  · cases h
  · dsimp only at h
    split at h
    -- The four ways on from the first digits.
    · exact isNumber_of_readFraction h
    · exact isNumber_of_readExponent h
    · exact isNumber_of_readExponent h
    · split at h
      · obtain ⟨rfl, -⟩ := Prod.mk.inj (Except.ok.inj h)
        exact isNumber_of_ofInteger
      · exact isNumber_of_endFloat h

/-- A scalar is no object, and only a quote begins a string. -/
theorem readScalar_cases (h : readScalar c = .ok (j, c')) :
    j = .null ∨ (∃ b, j = .bool b) ∨ j.IsNumber ∨
      ∃ s, j = .string s ∧ c.peek = some '"' ∧ readString c = .ok (s, c') := by
  -- The word is known from its first character, and so is the document.
  have hword : ∀ {word : List Char} {j₀ : Json},
      (readWord word (c.drop 1) >>= fun r => .ok (j₀, r.2)) = .ok (j, c') → j = j₀ := by
    intro word j₀ hword
    obtain ⟨_, -, hend⟩ := bind_eq_ok hword
    exact (Prod.mk.inj (Except.ok.inj hend)).1.symm
  unfold readScalar at h
  split at h
  · exact .inl (hword h)
  · exact .inr (.inl ⟨_, hword h⟩)
  · exact .inr (.inl ⟨_, hword h⟩)
  · exact .inr (.inr (.inl (isNumber_of_readNumber h)))
  · rename_i hpeek
    obtain ⟨⟨s, c₁⟩, hstring, hend⟩ := bind_eq_ok h
    obtain ⟨rfl, rfl⟩ := Prod.mk.inj (Except.ok.inj hend)
    exact .inr (.inr (.inr ⟨s, rfl, hpeek, hstring⟩))
  · split at h
    · exact .inr (.inr (.inl (isNumber_of_readNumber h)))
    · cases h
  · cases h

/-- What is read as an object begins with its bracket. -/
theorem readMembers_of_read {depth : Nat} {ms : List (String × Json)}
    (h : read (depth + 1) c = .ok (.object ms, c')) :
    c.skipSpace.peek = some '\x7b' ∧ ∃ c₁,
      readMembers (read depth) ((c.skipSpace.drop 1).rest.length + 1) true (c.skipSpace.drop 1)
        = .ok (ms, c₁) ∧ c' = c₁.drop 1 := by
  rw [read, readOver] at h
  dsimp only at h
  split at h
  · obtain ⟨⟨_, c₁⟩, -, h⟩ := bind_eq_ok h
    cases (Prod.mk.inj (Except.ok.inj h)).1
  · rename_i hpeek
    obtain ⟨⟨ms, c₁⟩, hmembers, h⟩ := bind_eq_ok h
    obtain ⟨heq, rfl⟩ := Prod.mk.inj (Except.ok.inj h)
    obtain rfl := Json.object.inj heq
    exact ⟨hpeek, c₁, hmembers, rfl⟩
  -- No scalar is an object.
  · rcases readScalar_cases h with heq | ⟨b, heq⟩ | hnumber | ⟨s, heq, -⟩
    · cases heq
    · cases heq
    · exact hnumber.elim
    · cases heq

/-- What is read as a string begins with a quote. -/
theorem readString_of_read {depth : Nat} {s : String} (h : read depth c = .ok (.string s, c')) :
    c.skipSpace.peek = some '"' ∧ readString c.skipSpace = .ok (s, c') := by
  -- Every depth reads with `readOver`, and `nested` matters behind an opening bracket only.
  obtain ⟨nested, hnested⟩ : ∃ nested, read depth = readOver nested := by
    cases depth with
    | zero => exact ⟨_, rfl⟩
    | succ depth => exact ⟨_, rfl⟩
  rw [hnested] at h
  unfold readOver at h
  dsimp only at h
  split at h
  · split at h
    · cases h
    · obtain ⟨⟨_, c₁⟩, -, h⟩ := bind_eq_ok h
      cases (Prod.mk.inj (Except.ok.inj h)).1
  · split at h
    · cases h
    · obtain ⟨⟨_, c₁⟩, -, h⟩ := bind_eq_ok h
      cases (Prod.mk.inj (Except.ok.inj h)).1
  · rcases readScalar_cases h with heq | ⟨b, heq⟩ | hnumber | ⟨s, heq, hpeek, hstring⟩
    · cases heq
    · cases heq
    · exact hnumber.elim
    · obtain rfl := Json.string.inj heq
      exact ⟨hpeek, hstring⟩

end Json

namespace Expr

open Json

variable {c c' : Json.Cursor} {found : Option Shape} {shape : Shape}

/-- A tag that is a text is the first one. -/
theorem shapeOfMembers_tag {name tag : String} {rest : List (String × Json)}
    (hname : name = tagName)
    (h : shapeOfMembers found ((name, .string tag) :: rest) = .ok shape) :
    found = none ∧ shapeOfMembers (some (shapeOfTag tag)) rest = .ok shape := by
  cases found with
  | none =>
      rw [shapeOfMembers, if_pos hname] at h
      exact ⟨rfl, h⟩
  | some _ =>
      rw [shapeOfMembers, if_pos hname] at h
      cases h

/-- A tag that is read as a document is read as the tag of the outermost node. -/
theorem readTag_of_read {depth : Nat} {tag : String} (h : read depth c = .ok (.string tag, c')) :
    readTag c = .ok (shapeOfTag tag, c') := by
  obtain ⟨hpeek, hstring⟩ := readString_of_read h
  unfold readTag
  simp only [hpeek, hstring]
  rfl

/-- The members of an object, read as those of the outermost node. -/
theorem readNodeMembers_of_readMembers {fuel : Nat} {first : Bool} {ms : List (String × Json)}
    (h : readMembers (read (maxNesting - 1)) fuel first c = .ok (ms, c'))
    (hshape : shapeOfMembers found ms = .ok shape) (htags : TextTags ms) :
    readNodeMembers fuel first found c
      = .ok ((shape, ms.filter fun m => decide (m.1 ≠ tagName)), c') := by
  -- Both recursions take the same members from the same places. The tag is the only member
  -- that the outermost node reads in a way of its own, and does not keep.
  induction fuel generalizing first c ms found with
  | zero => cases h
  | succ fuel ih =>
      unfold readMembers at h
      obtain ⟨⟨more, c₁⟩, hnext, h⟩ := bind_eq_ok h
      unfold readNodeMembers
      rw [hnext]
      dsimp only [bind, Except.bind] at h ⊢
      cases more with
      | false =>
          obtain ⟨rfl, rfl⟩ := Prod.mk.inj (Except.ok.inj h)
          cases found with
          | none => cases hshape
          | some shape' =>
              obtain rfl := Except.ok.inj hshape
              rfl
      | true =>
          obtain ⟨⟨name, c₂⟩, hname, h⟩ := bind_eq_ok h
          obtain ⟨⟨_, c₃⟩, hcolon, h⟩ := bind_eq_ok h
          obtain ⟨⟨j, c₄⟩, hvalue, h⟩ := bind_eq_ok h
          obtain ⟨⟨rest, c₅⟩, hrest, h⟩ := bind_eq_ok h
          obtain ⟨rfl, rfl⟩ := Prod.mk.inj (Except.ok.inj h)
          obtain ⟨htag, htail⟩ := List.forall_mem_cons.1 htags
          rw [if_pos rfl, hname]
          dsimp only
          by_cases heq : name = tagName
          · obtain ⟨tag, rfl⟩ := htag heq
            obtain ⟨hfound, hmore⟩ := shapeOfMembers_tag heq hshape
            subst hfound
            rw [if_pos heq]
            dsimp only
            rw [hcolon]
            dsimp only
            rw [readTag_of_read hvalue]
            dsimp only
            rw [ih hrest hmore htail, List.filter_cons_of_neg (by simp [heq])]
          · rw [shapeOfMembers_skip heq] at hshape
            rw [if_neg heq, hcolon]
            dsimp only
            rw [hvalue]
            dsimp only
            rw [ih hrest hshape htail, List.filter_cons_of_pos (by simp [heq])]
            rfl

/-! ### The two ways of decoding -/

/-- No node has a part under the name of the tag. -/
theorem lookup_tagName_of_mem : ∀ shape ∈ unknownShape :: shapes,
    shape.parts.lookup tagName = none := by
  decide

/-- The shape under a tag is one of the table, or the one without parts. -/
theorem shapeOfTag_mem (tag : String) : shapeOfTag tag ∈ unknownShape :: shapes := by
  unfold shapeOfTag
  cases hfind : shapes.find? (·.tag == tag) with
  | none => exact List.mem_cons_self
  | some shape => exact List.mem_cons_of_mem _ (List.mem_of_find?_eq_some hfind)

/-- The shape that text tags stand for. -/
theorem shapeOfMembers_mem {ms : List (String × Json)} (htags : TextTags ms)
    (hfound : ∀ shape ∈ found, shape ∈ unknownShape :: shapes)
    (h : shapeOfMembers found ms = .ok shape) : shape ∈ unknownShape :: shapes := by
  induction ms generalizing found with
  | nil =>
      cases found with
      | none => cases h
      | some _ =>
          obtain rfl := Except.ok.inj h
          exact hfound _ rfl
  | cons m ms ih =>
      obtain ⟨name, j⟩ := m
      obtain ⟨htag, htail⟩ := List.forall_mem_cons.1 htags
      -- The tag is the first one found; a second would be a fault.
      by_cases hname : name = tagName
      · obtain ⟨tag, rfl⟩ := htag hname
        refine ih htail (fun shape hshape => ?_) (shapeOfMembers_tag hname h).2
        obtain rfl := Option.some.inj hshape
        exact shapeOfTag_mem tag
      · rw [shapeOfMembers_skip hname] at h
        exact ih htail hfound h

/-- A text that holds an object with text tags has the tree of that object. -/
theorem ofJsonText_of_ofText {text : String} {ms : List (String × Json)} {e : Expr}
    (htext : Json.ofText text = .ok (.object ms)) (htags : TextTags ms)
    (he : ofJson (.object ms) = .ok e) : ofJsonText text = .ok e := by
  obtain ⟨⟨j, c⟩, hread, h⟩ := bind_eq_ok htext
  obtain ⟨⟨_, c'⟩, hend, h⟩ := bind_eq_ok h
  obtain rfl := Except.ok.inj h
  have hread : read (maxNesting - 1 + 1) (Cursor.start text) = .ok (.object ms, c) := hread
  obtain ⟨hpeek, c₁, hmembers, rfl⟩ := readMembers_of_read hread
  rw [ofJson] at he
  obtain ⟨shape, hshape, he⟩ := bind_eq_ok he
  have hnone : ∀ shape ∈ (none : Option Shape), shape ∈ unknownShape :: shapes :=
    fun shape hshape => absurd hshape (Option.not_mem_none shape)
  -- The members of the document still have the tag, and those that were read do not. It
  -- makes no difference, as no shape has a part under its name.
  have htagless := lookup_tagName_of_mem shape (shapeOfMembers_mem htags hnone hshape)
  have hfilter : ofMembers shape [] (ms.filter fun m => decide (m.1 ≠ tagName)) = .ok e := by
    rw [ofMembers_filter ms [] fun m _ hm => ?_, he]
    rw [show m.1 = tagName by simpa using hm, htagless]
  have hnode : readNode (Cursor.start text) = .ok (e, c₁.drop 1) := by
    unfold readNode
    simp only [hpeek]
    rw [readNodeMembers_of_readMembers hmembers hshape htags]
    show (unplaced (ofMembers shape [] _) >>= _) = _
    rw [hfilter]
    rfl
  unfold ofJsonText
  rw [hnode]
  show (readEnd _ >>= _) = _
  rw [hend]
  rfl

end Expr

end Formula
