import Mathlib
import Formula.Text.Units

/-!
# `Formula.Proofs.Text.Units`: the order of texts by their units

The units of a text tell the text: a unit of the basic plane is never one of
the surrogates that begin a pair, so the characters can be read off one after
the other. The order of units is the lexicographic one, and the order of texts
is total because of both. It is not the order of characters: a character beyond
the basic plane comes before those at the end of the plane.

* `unitsOf_injective`: texts with the same units are the same.
* `unitsBefore_iff_lt`: units are compared lexicographically.
* `textBefore_trichotomy`, `textBefore_trans`: texts are strictly and totally
  ordered.
-/

set_option autoImplicit false

namespace Formula

/-! ### Units tell the text -/

/-- A character is none of the surrogates, and in the range of code points. -/
theorem toNat_char (c : Char) : (c.toNat < 0xD800 ∨ 0xDFFF < c.toNat) ∧ c.toNat < 0x110000 := by
  have hvalid : c.toNat < 0xD800 ∨ 0xDFFF < c.toNat ∧ c.toNat < 0x110000 := c.valid
  omega

/-- The units of a character end where the next one begins. -/
theorem unitsOfChar_append_inj {c d : Char} {us vs : List Nat}
    (h : unitsOfChar c ++ us = unitsOfChar d ++ vs) : c = d ∧ us = vs := by
  have hc := toNat_char c
  have hd := toNat_char d
  unfold unitsOfChar at h
  split at h <;> split at h <;>
    simp only [List.cons_append, List.nil_append, List.cons.injEq] at h
  · exact ⟨Char.toNat_inj.1 h.1, h.2⟩
  · -- A unit of the basic plane is not the first one of a pair.
    omega
  · omega
  · obtain ⟨hhigh, hlow, hrest⟩ := h
    exact ⟨Char.toNat_inj.1 (by omega), hrest⟩

/-- A character has a unit at least. -/
theorem unitsOfChar_ne_nil (c : Char) : unitsOfChar c ≠ [] := by
  unfold unitsOfChar
  split <;> exact List.cons_ne_nil _ _

/-- A text is known by its units: they part into characters in one way. -/
theorem flatMap_unitsOfChar_injective : Function.Injective (List.flatMap unitsOfChar) := by
  intro cs ds h
  -- Character by character, since the units of the first one can be told from the rest.
  induction cs generalizing ds with
  | nil =>
      cases ds with
      | nil => rfl
      | cons d ds =>
          have hnil := (List.append_eq_nil_iff.1 h.symm).1
          exact absurd hnil (unitsOfChar_ne_nil d)
  | cons c cs ih =>
      cases ds with
      | nil =>
          have hnil := (List.append_eq_nil_iff.1 h).1
          exact absurd hnil (unitsOfChar_ne_nil c)
      | cons d ds =>
          obtain ⟨hchar, hrest⟩ := unitsOfChar_append_inj h
          rw [hchar, ih hrest]

/-- Texts with the same units are the same. -/
theorem unitsOf_injective : Function.Injective unitsOf := by
  intro s t h
  exact String.toList_injective (flatMap_unitsOfChar_injective h)

/-! ### The order -/

/-- Units are compared lexicographically. -/
theorem unitsBefore_iff_lt (us vs : List Nat) : unitsBefore us vs = true ↔ us < vs := by
  induction us generalizing vs with
  | nil => cases vs <;> simp [unitsBefore]
  | cons u us ih =>
      cases vs with
      | nil => simp [unitsBefore]
      | cons v vs =>
          rw [List.cons_lt_cons_iff, ← ih vs, unitsBefore]
          by_cases heq : u = v
          · simp [heq]
          · simp [heq]

/-- Texts are ordered as the lists of their units. -/
theorem textBefore_iff {s t : String} : textBefore s t = true ↔ unitsOf s < unitsOf t :=
  unitsBefore_iff_lt _ _

/-- So the order goes on from text to text. -/
theorem textBefore_trans {s t u : String} (hst : textBefore s t = true)
    (htu : textBefore t u = true) : textBefore s u = true := by
  rw [textBefore_iff] at hst htu ⊢
  exact hst.trans htu

/-- No text is before itself. -/
theorem textBefore_irrefl (s : String) : textBefore s s = false := by
  rw [← Bool.not_eq_true, textBefore_iff]
  exact lt_irrefl _

/-- Of two texts not both are before the other. -/
theorem textBefore_asymm {s t : String} (h : textBefore s t = true) : textBefore t s = false := by
  rw [← Bool.not_eq_true, textBefore_iff]
  exact (textBefore_iff.1 h).asymm

/-- A text before another is another one. -/
theorem textBefore_ne {s t : String} (h : textBefore s t = true) : s ≠ t := by
  rintro rfl
  rw [textBefore_irrefl] at h
  cases h

/-- Of two different texts one comes before the other. -/
theorem textBefore_trichotomy (s t : String) :
    textBefore s t = true ∨ s = t ∨ textBefore t s = true := by
  rw [textBefore_iff, textBefore_iff, ← unitsOf_injective.eq_iff]
  exact lt_trichotomy _ _

/-- The order is not the one of characters: U+10000 has the units of a pair, which
come before U+FFFF. -/
example : textBefore (.singleton (Char.ofNat 0x10000)) (.singleton (Char.ofNat 0xFFFF)) = true := by
  decide

end Formula
