import Mathlib
import Formula.Text.Blank

/-!
# `Formula.Proofs.Text.Trimmed`: what trimming leaves

A text consists of characters of the class, a core that neither begins nor ends
with one, and characters of the class. There is only one such core, and trimming
finds it.

* `IsCore`: the core of a text, said without the way of trimming.
* `isCore_trimWhile`: trimming leaves the core.
* `IsCore.trimWhile_eq`: there is no other.
-/

set_option autoImplicit false

namespace Formula

variable {p : Char → Bool} {text core : List Char}

/-- What is left of a text without the characters of a class at its ends. -/
structure IsCore (p : Char → Bool) (text core : List Char) : Prop where
  parts : ∃ before after, text = before ++ (core ++ after) ∧
    (∀ c ∈ before, p c = true) ∧ ∀ c ∈ after, p c = true
  head : ∀ c ∈ core.head?, p c = false
  last : ∀ c ∈ core.getLast?, p c = false

/-- What is left after dropping does not begin with what is dropped. -/
theorem head?_dropWhile (cs : List Char) : ∀ c ∈ (cs.dropWhile p).head?, p c = false := by
  intro c hc
  have hnot := List.head?_dropWhile_not p cs
  rw [Option.mem_def.1 hc] at hnot
  exact Bool.not_eq_true _ ▸ Bool.eq_false_iff.1 hnot

/-- Characters of the class are dropped up to one that is not. -/
theorem dropWhile_append_of_head {before rest : List Char} (hbefore : ∀ c ∈ before, p c = true)
    (hrest : ∀ c ∈ rest.head?, p c = false) : (before ++ rest).dropWhile p = rest := by
  rw [List.dropWhile_append_of_pos hbefore]
  cases rest with
  | nil => rfl
  | cons c rest => exact List.dropWhile_cons_of_neg (by simp [hrest c rfl])

/-- At the end just what is to be dropped is dropped. -/
theorem dropEndWhile_append_of_last {rest after : List Char} (hafter : ∀ c ∈ after, p c = true)
    (hrest : ∀ c ∈ rest.getLast?, p c = false) : dropEndWhile p (rest ++ after) = rest := by
  unfold dropEndWhile
  rw [List.reverse_append, dropWhile_append_of_head, List.reverse_reverse]
  · exact fun c hc => hafter c (List.mem_reverse.1 hc)
  · rwa [List.head?_reverse]

/-- Dropping from the end splits a text. -/
theorem exists_dropEndWhile (p : Char → Bool) (cs : List Char) :
    ∃ after, cs = dropEndWhile p cs ++ after ∧ (∀ c ∈ after, p c = true) ∧
      ∀ c ∈ (dropEndWhile p cs).getLast?, p c = false := by
  have hsplit := congrArg List.reverse (List.takeWhile_append_dropWhile (p := p) (l := cs.reverse))
  rw [List.reverse_append, List.reverse_reverse] at hsplit
  refine ⟨(cs.reverse.takeWhile p).reverse, hsplit.symm, fun c hc => ?_, ?_⟩
  · exact List.mem_takeWhile_imp (List.mem_reverse.1 hc)
  · unfold dropEndWhile
    rw [List.getLast?_reverse]
    exact head?_dropWhile _

/-- Trimming leaves the core. -/
theorem isCore_trimWhile (p : Char → Bool) (text : List Char) :
    IsCore p text (trimWhile p text) := by
  obtain ⟨after, hsplit, hafter, hlast⟩ := exists_dropEndWhile p (text.dropWhile p)
  refine ⟨⟨text.takeWhile p, after, ?_, fun c hc => List.mem_takeWhile_imp hc, hafter⟩, ?_, hlast⟩
  · unfold trimWhile
    rw [← hsplit, List.takeWhile_append_dropWhile]
  · -- The core begins where the text without its first characters does.
    intro c hc
    have hfirst : (dropEndWhile p (text.dropWhile p)).head? = some c := hc
    refine head?_dropWhile text c ?_
    rw [hsplit, List.head?_append, hfirst]
    rfl

/-- A text has only one core. -/
theorem IsCore.trimWhile_eq (h : IsCore p text core) : trimWhile p text = core := by
  obtain ⟨⟨before, after, rfl, hbefore, hafter⟩, hhead, hlast⟩ := h
  unfold trimWhile
  -- Without a core all of the text is dropped at the front. With one, each end stops at it.
  cases core with
  | nil =>
      have hall : ∀ c ∈ before ++ ([] ++ after), p c = true := by
        rw [List.nil_append]
        exact fun c hc => (List.mem_append.1 hc).elim (hbefore c) (hafter c)
      rw [List.dropWhile_eq_nil_iff.2 hall]
      rfl
  | cons c core =>
      have hrest : ∀ d ∈ (c :: core ++ after).head?, p d = false := hhead
      rw [dropWhile_append_of_head hbefore hrest]
      exact dropEndWhile_append_of_last hafter hlast

end Formula
