import Formula.Proofs.Syntax.Places
import Formula.Proofs.Syntax.Quotation

/-!
# `Formula.Proofs.Syntax.Threshold`: the limits that refuse a text

Of the limits for nesting, the scan only looks at whether a level that is
opened is beyond the one it has. So a text is refused under the limits
below a number, and a limit that lets it through has no part in what comes
of it. A character opens one level at the most, so the level that is
beyond a limit is the first one beyond it, and a greater limit is reached
later in the text.

* `Nesting.opener_of_scan`: the level that the scan tells is the first one beyond
  the limit, and it is opened outside of strings.
* `Nesting.scan_start_le`: a greater limit is not reached before a smaller one.
* `parse_threshold`: one number tells for every limit whether a text is
  refused.
-/

set_option autoImplicit false

namespace Formula

namespace Nesting

/-- The characters that can open a level. -/
def openers : List Char := ['(', '[', '?', '-', '+', '!', '~']

/-! ### One character -/

variable {s s' : State} {c : Char} {opened : Bool}

/-- What a character outside of strings can do, and whether it opens a level. -/
inductive StepsTo (s : State) (c : Char) : State → Bool → Prop
  | pass : StepsTo s c s false
  | quote (hc : c = '"' ∨ c = '\'') : StepsTo s c { s with quote := some c } false
  | openBracket (hc : c = '(' ∨ c = '[') : StepsTo s c s.openBracket true
  | closeBracket : StepsTo s c s.closeBracket false
  | openConditional (hc : c = '?') : StepsTo s c s.openConditional true
  | comma : StepsTo s c s.comma false
  | openPrefix (hc : isPrefixSign c = true) : StepsTo s c s.openPrefix true
  | operator : StepsTo s c s.operator false
  | operand : StepsTo s c s.endOperand false

/-- Every character does one of these things. -/
theorem stepsTo_stepCode (s : State) (c : Char) (next : Option Char) :
    StepsTo s c (stepCode s c next).1 (stepCode s c next).2 := by
  -- The questions of the scan in its order, and behind each what it does.
  unfold stepCode
  split
  · exact .pass
  · split
    · exact .quote ‹_›
    · split
      · exact .openBracket ‹_›
      · split
        · exact .closeBracket
        · split
          · exact .openConditional ‹_›
          · split
            · exact .comma
            · split
              · rename_i hsign
                exact .openPrefix hsign.1
              · split
                · exact .operator
                · split
                  · exact .pass
                  · exact .operand

/-- A level is opened by a bracket, a question mark or a sign. -/
theorem StepsTo.mem_openers (h : StepsTo s c s' true) : c ∈ openers := by
  cases h with
  | openBracket hc => rcases hc with rfl | rfl <;> decide
  | openConditional hc => rw [hc]; decide
  | openPrefix hc =>
      simp only [isPrefixSign, Bool.or_eq_true, beq_iff_eq] at hc
      rcases hc with ((rfl | rfl) | rfl) | rfl <;> decide

/-- Each of these is one byte long. -/
theorem utf8Size_of_mem_openers (h : c ∈ openers) : c.utf8Size = 1 := by
  have hall : ∀ c ∈ openers, c.utf8Size = 1 := forall_mem_of_all rfl
  exact hall c h

/-- A character opens one level at the most. -/
theorem StepsTo.depth_le (h : StepsTo s c s' opened) :
    s'.depth ≤ s.depth + if opened then 1 else 0 := by
  cases h with
  | pass => exact le_rfl
  | quote _ => exact le_rfl
  | openBracket _ => exact le_rfl
  | closeBracket => exact s.depth_closeBracket_le
  | openConditional _ => exact Nat.succ_le_succ (Nat.sub_le _ _)
  | comma => exact Nat.sub_le _ _
  | openPrefix _ => exact le_rfl
  | operator => exact Nat.sub_le _ _
  | operand => exact le_rfl

/-- Only a quote leads into a string. -/
theorem StepsTo.quote_eq (h : StepsTo s c s' opened) (hc : ¬(c = '"' ∨ c = '\'')) :
    s'.quote = s.quote ∧ s'.escaped = s.escaped := by
  cases h with
  | quote hquote => exact absurd hquote hc
  | closeBracket =>
      unfold State.closeBracket
      split <;> exact ⟨rfl, rfl⟩
  | _ => exact ⟨rfl, rfl⟩

/-! ### The scan -/

variable {limit limit' offset : Nat} {cs : List Char} {e e' : Excess}

/-- Inside a string a character is passed over. -/
theorem scan_cons_quoted {quote : Char} (hquote : s.quote = some quote) :
    scan limit s offset (c :: cs) = scan limit (s.inString quote c) (offset + c.utf8Size) cs := by
  simp [scan, step, hquote]

/-- A level that is opened behind a quote is opened behind the string. -/
theorem exists_stringBody_of_scan {quote : Char} (h : scan limit s offset cs = some e)
    (hquote : s.quote = some quote) (hescaped : s.escaped = false) (hbackslash : quote ≠ '\\') :
    ∃ body rest, Token.stringBody quote cs = some (body, rest) ∧
      scan limit { s.endOperand with quote := none } (offset + byteLength (body ++ [quote])) rest
        = some e := by
  have hclosing : s.inString quote quote = { s.endOperand with quote := none } := by
    simp [State.inString, State.endOperand, hescaped, hbackslash]
  induction cs using Token.stringBody.induct quote generalizing s offset with
  | case1 => cases h
  | case2 =>
      rw [scan_cons_quoted hquote] at h
      cases h
  | case3 c hc =>
      rw [scan_cons_quoted hquote] at h
      cases h
  | case4 d cs =>
      rw [scan_cons_quoted hquote, hclosing] at h
      exact ⟨[], d :: cs, by simp [Token.stringBody], h⟩
  | case5 d cs hne ih =>
      -- The backslash takes the character after it along.
      have hopen : s.inString quote '\\' = { s with escaped := true } := by
        simp [State.inString, hescaped]
      have hpair : ({ s with escaped := true } : State).inString quote d = s := by
        rcases s with ⟨inner, outer, depth, open?, escaped, afterOperand⟩
        cases hescaped
        rfl
      rw [scan_cons_quoted hquote, hopen, scan_cons_quoted (by exact hquote), hpair] at h
      obtain ⟨body, rest, hbody, hrest⟩ := ih h hquote hescaped hclosing
      refine ⟨'\\' :: d :: body, rest, by simp [Token.stringBody, hne, hbody], ?_⟩
      rw [← hrest]
      simp [byteLength, Nat.add_assoc]
  | case6 c d cs hne hplain ih =>
      have hstay : s.inString quote c = s := by
        simp [State.inString, hescaped, hne, hplain]
      rw [scan_cons_quoted hquote, hstay] at h
      obtain ⟨body, rest, hbody, hrest⟩ := ih h hquote hescaped hclosing
      refine ⟨c :: body, rest, by simp [Token.stringBody, hne, hplain, hbody], ?_⟩
      rw [← hrest]
      simp [byteLength, Nat.add_assoc]

/-- Where the scan stands outside of strings and within its limit. -/
structure State.Outside (limit : Nat) (s : State) : Prop where
  quote : s.quote = none
  escaped : s.escaped = false
  depth : s.depth ≤ limit

/-- At a character that is no quote, the scan either stops or goes on. -/
theorem scan_code (h : scan limit s offset (c :: cs) = some e) (hs : s.Outside limit)
    (hc : ¬(c = '"' ∨ c = '\'')) :
    (c ∈ openers ∧ e = ⟨limit + 1, ⟨offset, offset + 1⟩⟩) ∨
      ∃ s', State.Outside limit s' ∧ scan limit s' (offset + c.utf8Size) cs = some e := by
  have hstep : step s c cs.head? = stepCode s c cs.head? := by rw [step, hs.quote]
  have hsteps := stepsTo_stepCode s c cs.head?
  rw [scan, hstep] at h
  generalize stepCode s c cs.head? = r at h hsteps
  obtain ⟨s', opened⟩ := r
  dsimp only at h hsteps
  have hdepth := hs.depth
  have hgrows := hsteps.depth_le
  split at h
  · rename_i hbeyond
    obtain ⟨rfl, hbeyond⟩ := hbeyond
    cases h
    -- It was within the limit before, and has grown by one level.
    have hreached : s'.depth = limit + 1 := by
      rw [if_pos rfl] at hgrows
      omega
    rw [hreached, utf8Size_of_mem_openers hsteps.mem_openers]
    exact .inl ⟨hsteps.mem_openers, rfl⟩
  · rename_i hwithin
    obtain ⟨hquote, hescaped⟩ := hsteps.quote_eq hc
    refine .inr ⟨s', ⟨hquote.trans hs.quote, hescaped.trans hs.escaped, ?_⟩, h⟩
    cases opened with
    | false => exact hgrows.trans hdepth
    | true => exact Nat.le_of_not_lt fun hlt => hwithin ⟨rfl, hlt⟩

/-- At a quote, the scan goes on behind the string. -/
theorem scan_quote (h : scan limit s offset (c :: cs) = some e) (hs : s.Outside limit)
    (hc : c = '"' ∨ c = '\'') :
    ∃ t text rest s', c :: cs = t ++ rest ∧ Token.string t = some (text, []) ∧
      State.Outside limit s' ∧ scan limit s' (offset + byteLength t) rest = some e := by
  have hbackslash : c ≠ '\\' := by rcases hc with rfl | rfl <;> decide
  have hopen : step s c cs.head? = ({ s with quote := some c }, false) := by
    rcases hc with rfl | rfl <;> simp [step, hs.quote, stepCode, isBlank]
  rw [scan, hopen] at h
  -- The scan finds its excess later, so it must come out of the string again.
  have hinside : scan limit { s with quote := some c } (offset + c.utf8Size) cs = some e := by
    simpa using h
  obtain ⟨body, rest, hbody, hrest⟩ :=
    exists_stringBody_of_scan hinside rfl hs.escaped hbackslash
  refine ⟨c :: (body ++ [c]), String.ofList (Token.unescape body), rest,
    { s.endOperand with quote := none }, ?_, ?_, ⟨rfl, hs.escaped, hs.depth⟩, ?_⟩
  · simp [Token.eq_append_of_stringBody hbody]
  · rw [Token.string, if_pos hc, Token.stringBody_replace hbody]
    rfl
  · rw [← hrest, byteLength, Nat.add_assoc]
    rfl

/-- Every level that the scan tells is the first one beyond the limit, and is opened outside
of strings. -/
theorem opener_of_scan (h : scan limit s offset cs = some e) (hs : s.Outside limit) :
    ∃ before c after, cs = before ++ c :: after ∧ ClosesStrings before ∧ c ∈ openers ∧
      e = ⟨limit + 1, ⟨offset + byteLength before, offset + byteLength before + 1⟩⟩ := by
  -- On the length, since a string is passed over at once.
  induction hlength : cs.length using Nat.strong_induction_on generalizing cs s offset with
  | _ n ih =>
      cases cs with
      | nil => cases h
      | cons c cs =>
          by_cases hc : c = '"' ∨ c = '\''
          · obtain ⟨t, text, rest, s', hcs, ht, hs', hrest⟩ := scan_quote h hs hc
            obtain ⟨d, t', rfl, -⟩ := Token.begins_of_string ht
            have hshorter : rest.length < n := by
              rw [← hlength, hcs, List.length_append, List.length_cons]
              omega
            obtain ⟨before, d, after, rfl, hcloses, hd, he⟩ := ih _ hshorter hrest hs' rfl
            refine ⟨_ ++ before, d, after, ?_,
              .string (Token.string_append ht before) hcloses, hd, ?_⟩
            · rw [hcs, List.append_assoc]
            · rw [he, byteLength_append, Nat.add_assoc]
          · rcases scan_code h hs hc with ⟨hopener, rfl⟩ | ⟨s', hs', hrest⟩
            · exact ⟨[], c, cs, rfl, .nil, hopener, rfl⟩
            · obtain ⟨before, d, after, rfl, hcloses, hd, he⟩ :=
                ih cs.length (by simp [← hlength]) hrest hs' rfl
              refine ⟨c :: before, d, after, rfl, .code hc hcloses, hd, ?_⟩
              rw [he, byteLength, Nat.add_assoc]

/-- The level too many is not found before the place where the scan began. -/
theorem le_start_of_scan (h : scan limit s offset cs = some e) : offset ≤ e.span.start := by
  obtain ⟨before, _, _, -, -, hspan⟩ := span_of_scan h
  rw [hspan]
  exact Nat.le_add_right _ _

/-- A greater limit is not reached before a smaller one. -/
theorem scan_start_le (h : scan limit s offset cs = some e) (h' : scan limit' s offset cs = some e')
    (hle : limit ≤ limit') : e.span.start ≤ e'.span.start := by
  induction cs generalizing s offset with
  | nil => cases h
  | cons c cs ih =>
      rw [scan] at h h'
      dsimp only at h h'
      split at h
      · cases h
        split at h'
        · cases h'
          exact le_rfl
        · exact (Nat.le_add_right _ _).trans (le_start_of_scan h')
      -- Both scans are in one state, as the limit has no part in it.
      · rename_i hwithin
        rw [if_neg fun hopened => hwithin ⟨hopened.1, hle.trans_lt hopened.2⟩] at h'
        exact ih h h'

/-- A limit that the text does not stay within is exceeded somewhere. -/
theorem exists_firstExcess {source : String} (h : limit < (Gauge.initial.scan source.toList).peak) :
    ∃ e, firstExcess source limit = some e := by
  rw [← Option.ne_none_iff_exists']
  intro hnone
  have hle := (Gauge.scan_eq_none_iff (g := .initial) (Nat.zero_le limit)).1 hnone
  omega

/-- Where the text exceeds the limit; without a meaning if it does not. -/
def excessOffset (source : String) (limit : Nat) : Nat :=
  (firstExcess source limit).elim 0 (·.span.start)

/-- Before any text the scan is outside of strings. -/
theorem outside_initial : State.Outside limit .initial := ⟨rfl, rfl, Nat.zero_le limit⟩

end Nesting

/-! ### Whole texts -/

open Nesting

/-- The error says that a text nests too deeply. -/
def ParseError.IsTooDeep (e : ParseError) : Prop := ∃ depth limit, e.cause = .tooDeep depth limit

/-- The grammar has no part in how deeply a text may nest. -/
theorem not_isTooDeep_of_phraseOf {source : String} {e : ParseError}
    (h : phraseOf source = .error e) : ¬ e.IsTooDeep := by
  have hsafe := Grammar.main_enoughNesting source
  rw [phraseOf, Grammar.run] at h
  rintro ⟨depth, limit, hcause⟩
  split at h
  · cases h
  · cases h
    cases hcause
  · rename_i hdeep
    exact absurd (congrArg Prod.fst hdeep) hsafe

/-- Under a limit that a text stays within, what comes of the text is what comes of it
without one. -/
theorem parse_eq_of_peak_le {source : String} {limit : Nat}
    (h : (Gauge.initial.scan source.toList).peak ≤ limit) :
    parse source limit = Phrase.tree <$> phraseOf source := by
  rw [parse, check_eq_ok_iff.2 h]
  cases phraseOf source <;> rfl

/-- What comes of a text under a limit that it exceeds. -/
theorem parse_eq_of_lt_peak {source : String} {limit : Nat}
    (h : limit < (Gauge.initial.scan source.toList).peak) :
    parse source limit = .error ⟨.tooDeep (limit + 1) limit, source,
      ⟨excessOffset source limit, excessOffset source limit + 1⟩⟩ ∧
    ∃ before c after, source.toList = before ++ c :: after ∧ ClosesStrings before ∧ c ∈ openers ∧
      excessOffset source limit = byteLength before := by
  obtain ⟨e, he⟩ := exists_firstExcess h
  obtain ⟨before, c, after, hsource, hcloses, hc, rfl⟩ := opener_of_scan he outside_initial
  have hoffset : excessOffset source limit = byteLength before := by
    rw [excessOffset, he]
    exact Nat.zero_add _
  refine ⟨?_, before, c, after, hsource, hcloses, hc, hoffset⟩
  rw [parse, Nesting.check, he, hoffset, Nat.zero_add]
  rfl

/-- A text is refused for its nesting under the limits below a number, and from this number
on the limit has no part in what comes of it. Where it is refused, the level beyond the
limit is the first one, and the error points at the byte that opens it, outside of strings.
Under a greater limit it does not point further to the front. -/
theorem parse_threshold (source : String) : ∃ (threshold : Nat) (offset : Nat → Nat),
    (∀ limit, (∃ e, parse source limit = .error e ∧ e.IsTooDeep) ↔ limit < threshold) ∧
    (∀ limit, threshold ≤ limit → parse source limit = parse source threshold) ∧
    (∀ limit, limit < threshold →
      parse source limit = .error
        ⟨.tooDeep (limit + 1) limit, source, ⟨offset limit, offset limit + 1⟩⟩ ∧
      ∃ before c after, source.toList = before ++ c :: after ∧ ClosesStrings before ∧
        c ∈ openers ∧ offset limit = byteLength before) ∧
    ∀ limit limit', limit ≤ limit' → limit' < threshold → offset limit ≤ offset limit' := by
  -- The threshold is the peak of the text, which does not depend on a limit.
  refine ⟨(Gauge.initial.scan source.toList).peak, excessOffset source, fun limit => ⟨?_, ?_⟩,
    fun limit hle => ?_, fun limit => parse_eq_of_lt_peak, fun limit limit' hle hlt => ?_⟩
  · rintro ⟨e, herror, hdeep⟩
    by_contra hnot
    rw [parse_eq_of_peak_le (Nat.le_of_not_lt hnot)] at herror
    cases hphrase : phraseOf source with
    | ok p =>
        rw [hphrase] at herror
        cases herror
    | error e' =>
        rw [hphrase] at herror
        cases herror
        exact not_isTooDeep_of_phraseOf hphrase hdeep
  · exact fun hlt => ⟨_, (parse_eq_of_lt_peak hlt).1, _, _, rfl⟩
  · rw [parse_eq_of_peak_le hle, parse_eq_of_peak_le le_rfl]
  · obtain ⟨e, he⟩ := exists_firstExcess (hle.trans_lt hlt)
    obtain ⟨e', he'⟩ := exists_firstExcess hlt
    rw [excessOffset, he, excessOffset, he']
    exact scan_start_le he he' hle

end Formula
