import Formula.Proofs.Syntax.Spelling

/-!
# `Formula.Proofs.Syntax.Finding`: what a matcher finds on a text

`Matcher.Yields` tells what is known of a text when something was found on
it. Here the text is given, and the question is what is found.

* `Matcher.Finds`, `Matcher.Misses`: on a text the matcher finds a value
  and leaves a text, or fails, unless it gives up. Each way of putting
  matchers together has its rules. What is left is told up to the spaces
  at its front, which the grammar skips in some places before a part ends
  and in others behind it.
* `Matcher.Repeats`: what a repetition finds, with the failure that ends
  it.
-/

set_option autoImplicit false

namespace Formula

/-! ### Spaces at the front -/

/-- A text without the spaces at its front. -/
def tight (cs : List Char) : List Char := cs.dropWhile Matcher.isSpace

/-- The spaces at the front are a gap. -/
theorem gap_tight (cs : List Char) : Gap cs (tight cs) :=
  ⟨cs.takeWhile Matcher.isSpace, List.takeWhile_append_dropWhile.symm,
    List.all_eq_true.1 List.all_takeWhile⟩

/-- Where no space stands at the front, nothing is taken off. -/
theorem tight_cons {c : Char} (hc : Matcher.isSpace c = false) (cs : List Char) :
    tight (c :: cs) = c :: cs :=
  List.dropWhile_cons_of_neg (by simp [hc])

/-- A gap does not matter behind it. -/
theorem Gap.tight_eq {cs rest : List Char} (h : Gap cs rest) : tight cs = tight rest := by
  obtain ⟨spaces, rfl, hspaces⟩ := h
  rw [tight, List.dropWhile_append_of_pos hspaces]
  rfl

/-- Taking off the spaces once takes off all. -/
theorem tight_tight (cs : List Char) : tight (tight cs) = tight cs := (gap_tight cs).tight_eq.symm

/-- A text gets no longer by it. -/
theorem length_tight_le (cs : List Char) : (tight cs).length ≤ cs.length :=
  (List.dropWhile_suffix _).length_le

/-! ### What matchers find -/

namespace Matcher

variable {α β : Type}

/-- On a text the matcher finds a value and leaves a text, up to spaces,
unless it gives up. -/
def Finds (p : Matcher α) (cs : List Char) (value : α) (rest : List Char) : Prop :=
  ∀ c a, c.rest = cs → (∃ a', p c a = (.tooDeep, a')) ∨
    ∃ c' a', p c a = (.matched value c', a') ∧ tight c'.rest = tight rest

/-- On a text the matcher fails, unless it gives up. -/
def Misses (p : Matcher α) (cs : List Char) : Prop :=
  ∀ c a, c.rest = cs → (∃ a', p c a = (.tooDeep, a')) ∨ ∃ a', p c a = (.failed, a')

variable {p : Matcher α} {cs mid rest : List Char} {value : α} {value' : β}

namespace Misses

/-- If the first matcher fails, the row does. -/
theorem bind {q : α → Matcher β} (hp : p.Misses cs) : (p >>= q).Misses cs := by
  intro c a hc
  change (∃ a', andThen p q c a = _) ∨ ∃ a', andThen p q c a = _
  rw [andThen]
  rcases hp c a hc with ⟨a', h⟩ | ⟨a', h⟩
  · exact .inl ⟨a', by rw [h]⟩
  · exact .inr ⟨a', by rw [h]⟩

/-- What is made of a match changes no failure. -/
theorem map (f : α → β) (hp : p.Misses cs) : (f <$> p).Misses cs := hp.bind

/-- Both alternatives fail. -/
theorem orElse {q : Matcher α} (hp : p.Misses cs) (hq : q.Misses cs) :
    (p.orElse q).Misses cs := by
  intro c a hc
  rw [Matcher.orElse]
  rcases hp c a hc with ⟨a', h⟩ | ⟨a', h⟩
  · exact .inl ⟨a', by rw [h]⟩
  · rw [h]
    exact hq c a' hc

/-- All alternatives fail. -/
theorem firstOf : {ps : List (Matcher α)} → (∀ p ∈ ps, p.Misses cs) → (firstOf ps).Misses cs
  | [], _ => fun _ a _ => .inr ⟨a, rfl⟩
  | p :: _, hps =>
      orElse (hps p List.mem_cons_self) (firstOf fun q hq => hps q (List.mem_cons_of_mem p hq))

/-- A failure is noted, and stays one. -/
theorem tracked (rule : Rule) (hp : p.Misses cs) : (tracked rule p).Misses cs := by
  intro c a hc
  rw [Matcher.tracked]
  rcases hp c a hc with ⟨a', h⟩ | ⟨a', h⟩
  · exact .inl ⟨a', by rw [h]⟩
  · exact .inr ⟨_, by rw [h]⟩

/-- The scanner finds nothing. -/
theorem token (rule : Rule) {scan : List Char → Option (α × List Char)} (h : scan cs = none) :
    (token rule scan).Misses cs := by
  refine tracked rule fun c a hc => .inr ⟨a, ?_⟩
  simp only [hc, h]

/-- Another character stands there. -/
theorem char {expected : Char} (h : cs.head? ≠ some expected) : (char expected).Misses cs := by
  intro c a hc
  refine .inr ⟨a, ?_⟩
  rw [Matcher.char, hc]
  cases cs with
  | nil => rfl
  | cons d cs =>
      have hd : d ≠ expected := fun heq => h (congrArg some heq)
      simp [hd]

end Misses

namespace Finds

/-- A value is found before the text. -/
theorem pure (value : α) (cs : List Char) : (Pure.pure value : Matcher α).Finds cs value cs := by
  intro c a hc
  exact .inr ⟨c, a, rfl, by rw [hc]⟩

/-- What is left may differ in the spaces at its front. -/
theorem of_tight_eq {rest' : List Char} (hp : p.Finds cs value rest)
    (heq : tight rest = tight rest') : p.Finds cs value rest' :=
  fun c a hc => (hp c a hc).imp_right fun ⟨c', a', h, htight⟩ => ⟨c', a', h, htight.trans heq⟩

/-- One matcher after the other. -/
theorem bind {q : α → Matcher β} {rest : List Char} (hp : p.Finds cs value mid)
    (hq : ∀ mid', tight mid' = tight mid → (q value).Finds mid' value' rest) :
    (p >>= q).Finds cs value' rest := by
  intro c a hc
  change (∃ a', andThen p q c a = _) ∨ ∃ c' a', andThen p q c a = _ ∧ _
  rw [andThen]
  rcases hp c a hc with ⟨a', h⟩ | ⟨c', a', h, htight⟩
  · exact .inl ⟨a', by rw [h]⟩
  · rw [h]
    exact hq c'.rest htight c' a' rfl

/-- A match, and then a failure. -/
theorem bind_misses {q : α → Matcher β} (hp : p.Finds cs value mid)
    (hq : ∀ mid', tight mid' = tight mid → (q value).Misses mid') : (p >>= q).Misses cs := by
  intro c a hc
  change (∃ a', andThen p q c a = _) ∨ ∃ a', andThen p q c a = _
  rw [andThen]
  rcases hp c a hc with ⟨a', h⟩ | ⟨c', a', h, htight⟩
  · exact .inl ⟨a', by rw [h]⟩
  · rw [h]
    exact hq c'.rest htight c' a' rfl

/-- What is made of the value is found. -/
theorem map (f : α → β) (hp : p.Finds cs value rest) : (f <$> p).Finds cs (f value) rest := by
  refine hp.bind fun mid' hmid' c a hc => ?_
  exact .inr ⟨c, a, rfl, by rw [hc, hmid']⟩

/-- The spaces before a match are skipped. -/
theorem skip_bind {q : Unit → Matcher β} (hq : (q ()).Finds (tight cs) value' rest) :
    (Matcher.skip >>= q).Finds cs value' rest := by
  intro c a hc
  exact hq (Cursor.skipSpace c) a (by rw [← hc]; rfl)

/-- Spaces, and then a failure. -/
theorem skip_bind_misses {q : Unit → Matcher β} (hq : (q ()).Misses (tight cs)) :
    (Matcher.skip >>= q).Misses cs := by
  intro c a hc
  exact hq (Cursor.skipSpace c) a (by rw [← hc]; rfl)

/-- One match, the spaces behind it, and another match. -/
theorem then_skip {q : α → Unit → Matcher β} (hp : p.Finds cs value mid)
    (hq : (q value ()).Finds (tight mid) value' rest) :
    (p >>= fun v => Matcher.skip >>= q v).Finds cs value' rest :=
  hp.bind fun _ hmid => skip_bind (hmid ▸ hq)

/-- The character stands there, and the rest of the row finds its value. -/
theorem char_bind {q : Unit → Matcher β} {expected : Char} (hq : (q ()).Finds cs value' rest) :
    (Matcher.char expected >>= q).Finds (expected :: cs) value' rest := by
  intro c a hc
  have hchar : Matcher.char expected c a
      = (.matched () ⟨c.offset + expected.utf8Size, cs⟩, a) := by
    rw [Matcher.char, hc]
    simp
  change (∃ a', andThen _ q c a = _) ∨ ∃ c' a', andThen _ q c a = _ ∧ _
  rw [andThen, hchar]
  exact hq _ a rfl

/-- The first alternative finds the value, and the second is not tried. -/
theorem orElse_left (q : Matcher α) (hp : p.Finds cs value rest) :
    (p.orElse q).Finds cs value rest := by
  intro c a hc
  rw [Matcher.orElse]
  rcases hp c a hc with ⟨a', h⟩ | ⟨c', a', h, htight⟩
  · exact .inl ⟨a', by rw [h]⟩
  · exact .inr ⟨c', a', by rw [h], htight⟩

/-- The first alternative fails, and the second finds the value. -/
theorem orElse_right {q : Matcher α} (hp : p.Misses cs) (hq : q.Finds cs value rest) :
    (p.orElse q).Finds cs value rest := by
  intro c a hc
  rw [Matcher.orElse]
  rcases hp c a hc with ⟨a', h⟩ | ⟨a', h⟩
  · exact .inl ⟨a', by rw [h]⟩
  · rw [h]
    exact hq c a' hc

/-- An alternative, where those before it fail. -/
theorem behind (qs : List (Matcher α)) (hp : p.Finds cs value rest) :
    (ps : List (Matcher α)) → (∀ q ∈ ps, q.Misses cs) →
    (firstOf (ps ++ p :: qs)).Finds cs value rest
  | [], _ => hp.orElse_left _
  | q :: ps, hps => orElse_right (hps q List.mem_cons_self)
      (behind qs hp ps fun r hr => hps r (List.mem_cons_of_mem q hr))

/-- What may be left out is there. -/
theorem optional (hp : p.Finds cs value rest) : (optional p).Finds cs (some value) rest :=
  (hp.map some).orElse_left _

/-- What may be left out is not there. -/
theorem optional_none (hp : p.Misses cs) : (Matcher.optional p).Finds cs none cs :=
  orElse_right (hp.map some) (pure none cs)

/-- Noting attempts changes no match. -/
theorem tracked (rule : Rule) (hp : p.Finds cs value rest) :
    (tracked rule p).Finds cs value rest := by
  intro c a hc
  rw [Matcher.tracked]
  rcases hp c a hc with ⟨a', h⟩ | ⟨c', a', h, htight⟩
  · exact .inl ⟨a', by rw [h]⟩
  · exact .inr ⟨c', a', by rw [h], htight⟩

/-- The scanner finds the value. -/
theorem token (rule : Rule) {scan : List Char → Option (α × List Char)}
    (h : scan cs = some (value, rest)) : (token rule scan).Finds cs value rest := by
  refine tracked rule fun c a hc => ?_
  simp only [hc, h]
  exact .inr ⟨_, a, rfl, rfl⟩

end Finds

/-! ### Repetition -/

/-- Matches one after the other, with spaces between them and no further
one behind. -/
def Repeats (p : Matcher α) : List α → List Char → List Char → Prop
  | [], cs, rest => tight cs = tight rest ∧ p.Misses (tight rest)
  | value :: values, cs, rest => ∃ mid, p.Finds (tight cs) value mid ∧
      mid.length < (tight cs).length ∧ Repeats p values mid rest

/-- Spaces at the front do not matter to a repetition. -/
theorem Repeats.of_tight_eq {values : List α} {cs' : List Char} (h : p.Repeats values cs rest)
    (heq : tight cs' = tight cs) : p.Repeats values cs' rest := by
  cases values with
  | nil => exact ⟨heq.trans h.1, h.2⟩
  | cons value values =>
      obtain ⟨mid, hvalue, hlength, hvalues⟩ := h
      exact ⟨mid, heq ▸ hvalue, heq ▸ hlength, hvalues⟩

/-- A repetition finds its values. The fuel suffices because each round
takes a character at least. -/
theorem Repeats.manyAfterSpace {values : List α} {fuel : Nat} (h : p.Repeats values cs rest)
    (hfuel : (tight cs).length ≤ fuel) : (manyAfterSpace p fuel).Finds cs values rest := by
  induction values generalizing cs fuel with
  | nil =>
      intro c a hc
      have hmiss := h.2 (Cursor.skipSpace c) a (by rw [← h.1, ← hc]; rfl)
      cases fuel with
      | zero => exact .inr ⟨c, a, rfl, hc ▸ h.1⟩
      | succ fuel =>
          rcases hmiss with ⟨a', hp⟩ | ⟨a', hp⟩ <;> simp only [Matcher.manyAfterSpace, hp]
          · exact .inl ⟨a', rfl⟩
          · exact .inr ⟨c, a', rfl, hc ▸ h.1⟩
  | cons value values ih =>
      obtain ⟨mid, hvalue, hlength, hvalues⟩ := h
      -- A match takes a character, so there is fuel for it and for those behind it.
      obtain ⟨fuel, rfl⟩ : ∃ n, fuel = n + 1 := ⟨fuel - 1, by omega⟩
      intro c a hc
      have hvalue' := hvalue (Cursor.skipSpace c) a (by rw [← hc]; rfl)
      rcases hvalue' with ⟨a', hp⟩ | ⟨c', a', hp, htight⟩ <;>
        simp only [Matcher.manyAfterSpace, hp]
      · exact .inl ⟨a', rfl⟩
      · have hle := length_tight_le mid
        exact ((ih (hvalues.of_tight_eq htight) (by rw [htight]; omega)).map (value :: ·)) c' a' rfl

/-- A repetition begins without spaces. -/
theorem Repeats.many {values : List α} (h : p.Repeats values cs rest) :
    (many p).Finds (tight cs) values rest := by
  intro c a hc
  rw [Matcher.many]
  cases values with
  | nil =>
      have hrest : tight c.rest = tight rest := by rw [hc, tight_tight, h.1]
      rcases h.2 c a (hc.trans h.1) with ⟨a', hp⟩ | ⟨a', hp⟩
      · exact .inl ⟨a', by rw [hp]⟩
      · exact .inr ⟨c, a', by rw [hp], hrest⟩
  | cons value values =>
      obtain ⟨mid, hvalue, -, hvalues⟩ := h
      rcases hvalue c a hc with ⟨a', hp⟩ | ⟨c', a', hp, htight⟩
      · exact .inl ⟨a', by rw [hp]⟩
      · rw [hp]
        -- The first round is over, and the fuel for the others is counted from where it ended.
        have hle := length_tight_le c'.rest
        have hmore : (Matcher.manyAfterSpace p (c'.rest.length + 1)).Finds c'.rest values rest :=
          (hvalues.of_tight_eq htight).manyAfterSpace (by omega)
        exact (hmore.map (value :: ·)) c' a' rfl

/-- No first match, so none at all. -/
theorem Finds.separated_nil (hp : p.Misses cs) : (separated p).Finds cs [] cs := by
  intro c a hc
  rw [Matcher.separated]
  rcases hp c a hc with ⟨a', h⟩ | ⟨a', h⟩
  · exact .inl ⟨a', by rw [h]⟩
  · exact .inr ⟨c, a', by rw [h], by rw [hc]⟩

/-- A first match, and then a repetition of commas and matches. -/
theorem Finds.separated_cons {values : List α} (hp : p.Finds cs value mid)
    (h : ((Matcher.char ',').andThen fun _ => Matcher.skip.andThen fun _ => p).Repeats values
      mid rest) : (separated p).Finds cs (value :: values) rest := by
  intro c a hc
  rw [Matcher.separated]
  rcases hp c a hc with ⟨a', hfound⟩ | ⟨c', a', hfound, htight⟩
  · exact .inl ⟨a', by rw [hfound]⟩
  · rw [hfound]
    have hmore := (h.of_tight_eq htight).many.map (value :: ·)
    exact (Finds.skip_bind (q := fun _ => _) hmore) c' a' rfl

end Matcher

end Formula
