import Mathlib.Order.Lattice
import Formula.Proofs.Syntax.Spelling
import Formula.Syntax.Nesting

/-!
# `Formula.Proofs.Syntax.Gauge`: how the nesting of a text is measured

The scan stops at the first level beyond its limit. A `Gauge` goes on to
the end instead and keeps the greatest depth at which a level was opened,
so that one number tells for every limit whether the text is refused.

* `check_eq_ok_iff`: a text is let through just when its peak is within the
  limit.
* `scan_gap`, `scan_read`, `scan_numeral`, `scan_string`, `scan_operate`,
  `scan_sign`, `scan_open` and their like: what each token does to a
  gauge. Every one of them says that scanning a text that begins with the
  token is scanning the rest with another gauge.
-/

set_option autoImplicit false

namespace Formula

open Nesting

/-- The state of a scan and the greatest depth at which it has seen a
level opened. -/
structure Gauge where
  state : State
  peak : Nat

namespace Gauge

/-- The gauge before the first character. -/
def initial : Gauge := ⟨.initial, 0⟩

/-- The gauge after a change of the state that opens no level. -/
def move (g : Gauge) (f : State → State) : Gauge := ⟨f g.state, g.peak⟩

/-- The gauge after a change of the state that opens a level. -/
def raise (g : Gauge) (f : State → State) : Gauge :=
  ⟨f g.state, max g.peak (f g.state).depth⟩

/-- The gauge after a character. -/
def step (g : Gauge) (c : Char) (next : Option Char) : Gauge :=
  let (s, opened) := Nesting.step g.state c next
  if opened then ⟨s, max g.peak s.depth⟩ else ⟨s, g.peak⟩

/-- The gauge after a text. -/
def scan (g : Gauge) : List Char → Gauge
  | [] => g
  | c :: cs => (g.step c cs.head?).scan cs

variable {g : Gauge} {cs rest : List Char}

/-- The peak does not fall at a character. -/
theorem peak_le_step (c : Char) (next : Option Char) : g.peak ≤ (g.step c next).peak := by
  unfold step
  dsimp only
  split
  · exact le_max_left _ _
  · exact le_rfl

/-- Nor does it along a text. -/
theorem peak_le_scan : g.peak ≤ (g.scan cs).peak := by
  induction cs generalizing g with
  | nil => exact le_rfl
  | cons c cs ih => exact (peak_le_step c cs.head?).trans ih

/-- A scan with a limit finds nothing just when the gauge stays within
it. -/
theorem scan_eq_none_iff {limit offset : Nat} (hpeak : g.peak ≤ limit) :
    Nesting.scan limit g.state offset cs = none ↔ (g.scan cs).peak ≤ limit := by
  induction cs generalizing g offset with
  | nil => exact iff_of_true rfl hpeak
  | cons c cs ih =>
      rw [Nesting.scan, scan]
      rcases hstep : Nesting.step g.state c cs.head? with ⟨s, opened⟩
      have hg : g.step c cs.head? = if opened then ⟨s, max g.peak s.depth⟩ else ⟨s, g.peak⟩ := by
        simp only [step, hstep]
      dsimp only
      rw [hg]
      cases opened with
      | false =>
          simp only [Bool.false_eq_true, false_and, if_false]
          exact ih (g := ⟨s, g.peak⟩) hpeak
      | true =>
          simp only [true_and, if_true]
          split
          · rename_i hlimit
            -- The scan stops here, and the peak never falls below this depth again.
            refine iff_of_false nofun fun hle => ?_
            have hdepth : s.depth ≤ limit :=
              (le_max_right g.peak s.depth).trans ((peak_le_scan (g := ⟨s, _⟩)).trans hle)
            omega
          · rename_i hlimit
            exact ih (g := ⟨s, max g.peak s.depth⟩) (max_le hpeak (by omega))

end Gauge

/-- A text is let through just when its peak is within the limit. -/
theorem check_eq_ok_iff {source : String} {limit : Nat} :
    Nesting.check source limit = .ok () ↔ (Gauge.initial.scan source.toList).peak ≤ limit := by
  have hscan : Nesting.firstExcess source limit = none
      ↔ (Gauge.initial.scan source.toList).peak ≤ limit :=
    Gauge.scan_eq_none_iff (g := .initial) (Nat.zero_le _)
  rw [← hscan, Nesting.check]
  cases Nesting.firstExcess source limit <;> simp

namespace Nesting

/-- The characters with a meaning for the scan, outside of strings. -/
def special : List Char :=
  ['"', '\'', '(', '[', ')', ']', '?', ',', '-', '+', '!', '~', '*', '/', '%', '<', '>', '=', '&',
    '|', '^', ':']

/-- Whether an operand has ended at a character that is not special. -/
def marks (c : Char) : Bool := !isBlank c && c != '.'

/-- The state after a text without special characters. -/
def State.read (s : State) (text : List Char) : State :=
  { s with afterOperand := s.afterOperand || text.any marks }

/-- The state after an operand has ended. -/
def State.endOperand (s : State) : State := { s with afterOperand := true }

/-- A character that means nothing to the scan at most ends an operand. -/
theorem stepCode_of_notMem_special {s : State} {c : Char} (hc : c ∉ special)
    (next : Option Char) : stepCode s c next = (s.read [c], false) := by
  simp only [special, List.mem_cons, List.not_mem_nil, or_false, not_or] at hc
  have hprefix : isPrefixSign c = false := by simp [isPrefixSign, hc]
  have hoperator : isOperatorChar c = false := by simp [isOperatorChar, hprefix, hc]
  cases hblank : isBlank c with
  | true => simp [stepCode, State.read, marks, hblank]
  | false =>
      by_cases hdot : c = '.'
      · subst hdot
        simp [stepCode, State.read, marks, hblank, hprefix, hoperator]
      · simp [stepCode, State.read, marks, hblank, hprefix, hoperator, hc, hdot]

end Nesting

/-! ### Tokens -/

namespace Gauge

open Nesting

variable {g : Gauge} {cs rest : List Char}

/-- A character of code that opens no level. -/
theorem scan_cons_code {c : Char} (hquote : g.state.quote = none) {s : State}
    (hstep : stepCode g.state c cs.head? = (s, false)) :
    g.scan (c :: cs) = (g.move fun _ => s).scan cs := by
  rw [scan, step, Nesting.step, hquote]
  simp only [hstep]
  rfl

/-- A character of code that opens a level. -/
theorem scan_cons_opened {c : Char} (hquote : g.state.quote = none) {f : State → State}
    (hstep : stepCode g.state c cs.head? = (f g.state, true)) :
    g.scan (c :: cs) = (g.raise f).scan cs := by
  rw [scan, step, Nesting.step, hquote]
  simp only [hstep]
  rfl

/-- Text without special characters. -/
theorem scan_read {text : List Char} (htext : ∀ c ∈ text, c ∉ special)
    (hquote : g.state.quote = none) :
    g.scan (text ++ rest) = (g.move (·.read text)).scan rest := by
  induction text generalizing g with
  | nil => simp [move, State.read]
  | cons c text ih =>
      have hc := stepCode_of_notMem_special (s := g.state) (htext c List.mem_cons_self)
        (text ++ rest).head?
      have hmore := ih (g := g.move fun _ => g.state.read [c])
        (fun d hd => htext d (List.mem_cons_of_mem c hd)) hquote
      rw [List.cons_append, scan_cons_code hquote hc, hmore]
      simp [move, State.read, Bool.or_assoc]

/-- Spaces are passed over. -/
theorem scan_gap (hgap : Gap cs rest) (hquote : g.state.quote = none) :
    g.scan cs = g.scan rest := by
  obtain ⟨spaces, rfl, hspaces⟩ := hgap
  -- A space is no special character, and it ends no operand.
  have hquiet : ∀ c ∈ spaces, c ∉ special ∧ marks c = false := by
    intro c hc
    have hspace := hspaces c hc
    simp only [Matcher.isSpace, Bool.or_eq_true, beq_iff_eq] at hspace
    rcases hspace with ((rfl | rfl) | rfl) | rfl <;> decide
  have hread (s : State) : s.read spaces = s := by
    have hany : spaces.any marks = false := List.any_eq_false.2 fun c hc => by simp [hquiet c hc]
    simp [State.read, hany]
  rw [scan_read (fun c hc => (hquiet c hc).1) hquote]
  simp [move, hread]

/-- A word with a character that is no blank ends an operand. -/
theorem scan_word {text : List Char} (htext : ∀ c ∈ text, c ∉ special)
    (hmarks : text.any marks = true) (hquote : g.state.quote = none) :
    g.scan (text ++ rest) = (g.move .endOperand).scan rest := by
  rw [scan_read htext hquote]
  simp [move, State.read, State.endOperand, hmarks]

/-- A point is passed over. -/
theorem scan_point (hquote : g.state.quote = none) : g.scan ('.' :: cs) = g.scan cs := by
  have hread : g.state.read ['.'] = g.state := by simp [State.read, marks]
  have hstep := stepCode_of_notMem_special (s := g.state) (c := '.') (by decide) cs.head?
  rw [hread] at hstep
  exact scan_cons_code hquote hstep

/-! Brackets and punctuation. -/

/-- An opening bracket. -/
theorem scan_open {c : Char} (hc : c = '(' ∨ c = '[') (hquote : g.state.quote = none) :
    g.scan (c :: cs) = (g.raise .openBracket).scan cs := by
  rcases hc with rfl | rfl <;> exact scan_cons_opened hquote rfl

/-- A closing bracket. -/
theorem scan_close {c : Char} (hc : c = ')' ∨ c = ']') (hquote : g.state.quote = none) :
    g.scan (c :: cs) = (g.move .closeBracket).scan cs := by
  rcases hc with rfl | rfl <;> exact scan_cons_code hquote rfl

/-- A question mark. -/
theorem scan_question (hquote : g.state.quote = none) :
    g.scan ('?' :: cs) = (g.raise .openConditional).scan cs :=
  scan_cons_opened hquote rfl

/-- A colon, which the scan takes for an operator. -/
theorem scan_colon (hquote : g.state.quote = none) :
    g.scan (':' :: cs) = (g.move .operator).scan cs :=
  scan_cons_code hquote rfl

/-- A comma. -/
theorem scan_comma (hquote : g.state.quote = none) :
    g.scan (',' :: cs) = (g.move .comma).scan cs :=
  scan_cons_code hquote rfl

/-- A sign where an operand is due. An exclamation mark is one unless an
equals sign follows it. -/
theorem scan_sign (o : UnaryOperator) (hquote : g.state.quote = none)
    (hafter : g.state.afterOperand = false) (hnext : cs.head? ≠ some '=') :
    g.scan (o.symbol.toList ++ cs) = (g.raise .openPrefix).scan cs := by
  have hstep (c : Char) (hc : stepCode g.state c cs.head? = (g.state.openPrefix, true)) :
      g.scan (c :: cs) = (g.raise .openPrefix).scan cs := scan_cons_opened hquote hc
  cases o with
  | minus => exact hstep '-' (by simp [stepCode, isBlank, isPrefixSign, hafter])
  | plus => exact hstep '+' (by simp [stepCode, isBlank, isPrefixSign, hafter])
  | complement => exact hstep '~' (by simp [stepCode, isBlank, isPrefixSign, hafter])
  | not => exact hstep '!' (by simp [stepCode, isBlank, isPrefixSign, hafter, hnext])

/-- The gauge after a binary operator. It ends the operand before it, but
after an operand that the scan has not noticed a plus or a minus is taken
for a sign. -/
def operate (g : Gauge) (o : BinaryOperator) : Gauge :=
  if g.state.afterOperand = false ∧ (o = .add ∨ o = .subtract) then g.raise .openPrefix
  else g.move .operator

/-- The characters that are never taken for signs, of the operators. -/
def infixChars : List Char := ['*', '/', '%', '<', '>', '=', '&', '|', '^', ':']

/-- A character that only operators between operands have. -/
theorem stepCode_infixChar {s : State} {c : Char} (hc : c ∈ infixChars) (next : Option Char) :
    stepCode s c next = (s.operator, false) := by
  simp only [infixChars, List.mem_cons, List.not_mem_nil, or_false] at hc
  rcases hc with rfl | rfl | rfl | rfl | rfl | rfl | rfl | rfl | rfl | rfl <;> rfl

/-- Several of them are as one, for closing signs twice is closing them
once. -/
theorem scan_infixChars {text : List Char} (htext : ∀ c ∈ text, c ∈ infixChars) (hne : text ≠ [])
    (hquote : g.state.quote = none) : g.scan (text ++ cs) = (g.move .operator).scan cs := by
  induction text generalizing g with
  | nil => exact absurd rfl hne
  | cons c text ih =>
      have hc := stepCode_infixChar (s := g.state) (htext c List.mem_cons_self) (text ++ cs).head?
      rw [List.cons_append, scan_cons_code hquote hc]
      cases text with
      | nil => rfl
      -- No sign is open after the first character, so the others change nothing.
      | cons d text =>
          have hmore := ih (g := g.move fun _ => g.state.operator)
            (fun e he => htext e (List.mem_cons_of_mem c he)) nofun hquote
          rw [hmore]
          simp [move, State.operator, State.closeUnary]

/-- The symbol of an operator. Plus and minus may be taken for signs. -/
theorem scan_operate (o : BinaryOperator) (hquote : g.state.quote = none) :
    g.scan (o.symbol.toList ++ cs) = (g.operate o).scan cs := by
  have hsign (c : Char) (hc : c = '+' ∨ c = '-') :
      g.scan (c :: cs) = (if g.state.afterOperand = false then g.raise .openPrefix
        else g.move .operator).scan cs := by
    split
    · rename_i hafter
      refine scan_cons_opened hquote ?_
      rcases hc with rfl | rfl <;> simp [stepCode, isBlank, isPrefixSign, hafter]
    · rename_i hafter
      refine scan_cons_code hquote ?_
      rcases hc with rfl | rfl <;>
        simp [stepCode, isBlank, isPrefixSign, isOperatorChar, hafter]
  -- An exclamation mark before an equals sign is no sign, so the rest are operator characters.
  have hnot (text : List Char) (htext : ∀ c ∈ text, c ∈ infixChars) :
      g.scan ('!' :: '=' :: text ++ cs) = (g.move .operator).scan cs := by
    have hstep : stepCode g.state '!' (('=' :: text) ++ cs).head? = (g.state.operator, false) := by
      simp [stepCode, isBlank, isPrefixSign, isOperatorChar]
    have hchars : ∀ c ∈ '=' :: text, c ∈ infixChars := List.forall_mem_cons.2 ⟨by decide, htext⟩
    have hmore : (g.move fun _ => g.state.operator).scan ('=' :: text ++ cs)
        = ((g.move fun _ => g.state.operator).move .operator).scan cs :=
      scan_infixChars hchars nofun hquote
    rw [List.cons_append, scan_cons_code hquote hstep, hmore]
    simp [move, State.operator, State.closeUnary]
  cases o with
  | add => exact (hsign '+' (.inl rfl)).trans (by simp [operate])
  | subtract => exact (hsign '-' (.inr rfl)).trans (by simp [operate])
  | notEqual => exact (hnot [] nofun).trans (by simp [operate])
  | notIdentical => exact (hnot ['='] (forall_mem_of_all rfl)).trans (by simp [operate])
  | _ =>
      rw [scan_infixChars (forall_mem_of_all rfl) (by decide) hquote]
      simp [operate]

end Gauge

/-! ### Words -/

/-- The characters of words mean nothing to the scan. -/
theorem notMem_special_of_isWordChar {c : Char} (hc : Token.isWordChar c = true) : c ∉ special := by
  have hspecial : ∀ d ∈ special, Token.isWordChar d = false := forall_mem_of_all rfl
  intro hmem
  rw [hspecial c hmem] at hc
  cases hc

/-- A digit ends an operand. -/
theorem marks_of_isDigit {c : Char} (hc : c.isDigit = true) : marks c = true := by
  have hrange : 48 ≤ c.toNat ∧ c.toNat ≤ 57 := by
    simp only [Char.isDigit, Bool.and_eq_true, decide_eq_true_eq] at hc
    exact ⟨hc.1, hc.2⟩
  have hdot : c ≠ '.' := by
    rintro rfl
    cases hc
  have hblank : isBlank c = false := by
    simp only [isBlank, Bool.or_eq_false_iff, Bool.and_eq_false_iff, decide_eq_false_iff_not,
      beq_eq_false_iff_ne]
    omega
  simp [marks, hdot, hblank]

/-- Digits mean nothing else to the scan. -/
theorem notMem_special_of_isDigit {c : Char} (hc : c.isDigit = true) : c ∉ special :=
  notMem_special_of_isWordChar (by simp [Token.isWordChar, hc])

/-! ### Numbers -/

namespace Nesting

/-- Whether there is a sign in a number: it can only be the sign of its
power of ten. -/
def isSigned (text : List Char) : Bool := text.any fun c => c == '+' || c == '-'

/-- A sign in a numeral stands in one of its parts. -/
theorem isSigned_append (text more : List Char) :
    isSigned (text ++ more) = (isSigned text || isSigned more) := List.any_append

/-- Digits and points are no signs. -/
theorem isSigned_of_digits {text : List Char} (h : ∀ c ∈ text, c.isDigit = true ∨ c = '.') :
    isSigned text = false := by
  refine List.any_eq_false.2 fun c hc => ?_
  rcases h c hc with hd | rfl
  · have hplus : c ≠ '+' := by
      rintro rfl
      cases hd
    have hminus : c ≠ '-' := by
      rintro rfl
      cases hd
    simp [hplus, hminus]
  · decide

/-- The state after a number. The sign of a power of ten is taken for an
operator, which ends the signs before the number. -/
def State.numeral (s : State) (text : List Char) : State :=
  if isSigned text then s.operator.endOperand else s.endOperand

/-- Of a number only its sign matters. -/
theorem State.numeral_congr {text text' : List Char} (h : isSigned text = isSigned text') :
    (fun s : State => s.numeral text) = fun s => s.numeral text' := by
  unfold State.numeral
  rw [h]

end Nesting

namespace Gauge

variable {g : Gauge} {cs rest : List Char}

/-- Digits and points, with at least one digit among them. -/
theorem scan_digits {m : List Char} (hm : ∀ c ∈ m, c.isDigit = true ∨ c = '.')
    (hdigit : ∃ c ∈ m, c.isDigit = true) (hquote : g.state.quote = none) :
    g.scan (m ++ rest) = (g.move .endOperand).scan rest := by
  have hspecial : ∀ c ∈ m, c ∉ special := by
    intro c hc
    rcases hm c hc with hd | rfl
    · exact notMem_special_of_isDigit hd
    · decide
  have hmarks : m.any marks = true := by
    obtain ⟨c, hc, hd⟩ := hdigit
    exact List.any_eq_true.2 ⟨c, hc, marks_of_isDigit hd⟩
  exact scan_word hspecial hmarks hquote

/-- After the digits of a number: a letter, perhaps a sign, and digits. -/
theorem scan_exponent {e : List Char} (h : Token.exponent cs = some (e, rest))
    (hquote : g.state.quote = none) :
    (g.move .endOperand).scan cs = (g.move (·.numeral e)).scan rest := by
  obtain ⟨c, sign, ds, rfl, rfl, hletter, hsign, hne, hds⟩ := Token.eq_append_of_exponent h
  have hdigits (g' : Gauge) (hquote' : g'.state.quote = none) :
      g'.scan (ds ++ rest) = (g'.move .endOperand).scan rest := by
    obtain ⟨d, hd⟩ := List.exists_mem_of_ne_nil ds hne
    exact scan_digits (fun d hd => .inl (hds d hd)) ⟨d, hd, hds d hd⟩ hquote'
  have hread : (g.move .endOperand).scan ([c] ++ (sign ++ (ds ++ rest)))
      = (g.move .endOperand).scan (sign ++ (ds ++ rest)) := by
    rw [scan_read ?_ (by exact hquote)]
    · simp [move, State.read, State.endOperand]
    · rcases hletter with rfl | rfl <;> exact forall_mem_of_all rfl
  -- Digits are behind the sign of the power, so the scan takes it for an operator.
  have hsigned (d : Char) (hd : d = '+' ∨ d = '-') :
      (g.move .endOperand).scan (d :: (ds ++ rest))
        = (g.move fun s => s.operator.endOperand).scan rest := by
    rw [scan_cons_code (s := g.state.endOperand.operator) (by exact hquote)]
    · exact hdigits ((g.move .endOperand).move fun _ => g.state.endOperand.operator) hquote
    · rcases hd with rfl | rfl <;>
        simp [stepCode, isBlank, isPrefixSign, isOperatorChar, move, State.endOperand]
  have hnumeral : isSigned (c :: (sign ++ ds)) = isSigned sign := by
    have hletters : isSigned [c] = false := by rcases hletter with rfl | rfl <;> rfl
    have hds' : isSigned ds = false := isSigned_of_digits fun d hd => .inl (hds d hd)
    rw [← List.singleton_append, isSigned_append, isSigned_append, hletters, hds',
      Bool.or_false, Bool.false_or]
  rw [← List.singleton_append, hread, State.numeral_congr hnumeral]
  rcases hsign with rfl | rfl | rfl
  · exact hdigits (g.move .endOperand) hquote
  · exact hsigned '+' (.inl rfl)
  · exact hsigned '-' (.inr rfl)

/-- A numeral: a mantissa, which only ends an operand, and maybe an exponent
with a sign. -/
theorem scan_numeral {text : List Char} (h : Token.number cs = some (text, rest))
    (hquote : g.state.quote = none) : g.scan cs = (g.move (·.numeral text)).scan rest := by
  unfold Token.number at h
  split at h
  · cases h
  · rename_i m rest₁ hmantissa
    obtain ⟨rfl, hm, hdigit⟩ := Token.eq_append_of_mantissa hmantissa
    have hplain : isSigned m = false := isSigned_of_digits hm
    rw [scan_digits hm hdigit hquote]
    split at h
    · rename_i e rest₂ hexponent
      obtain ⟨rfl, rfl⟩ := Prod.mk.inj (Option.some.inj h)
      -- Only the exponent can have a sign, so the two agree on what the scan makes of it.
      have hsign : isSigned (m ++ e) = isSigned e := by
        rw [isSigned_append, hplain, Bool.false_or]
      rw [State.numeral_congr hsign]
      exact scan_exponent hexponent hquote
    · obtain ⟨rfl, rfl⟩ := Prod.mk.inj (Option.some.inj h)
      have hend : (g.move (·.numeral m)) = g.move .endOperand := by
        simp [move, State.numeral, hplain]
      rw [hend]

/-- A character of a string. -/
theorem scan_cons_quoted {c quote : Char} (hquote : g.state.quote = some quote) :
    g.scan (c :: cs) = (g.move fun s => s.inString quote c).scan cs := by
  rw [scan, step, Nesting.step, hquote]
  rfl

/-- The quote that ends a string. -/
theorem scan_cons_closing {quote : Char} (hquote : g.state.quote = some quote)
    (hescaped : g.state.escaped = false) (hbackslash : quote ≠ '\\') :
    g.scan (quote :: cs) = (g.move fun s => { s.endOperand with quote := none }).scan cs := by
  rw [scan_cons_quoted hquote]
  simp [move, State.inString, hescaped, State.endOperand, hbackslash]

/-- The body of a string and the quote that ends it. -/
theorem scan_stringBody {quote : Char} {body : List Char}
    (h : Token.stringBody quote cs = some (body, rest)) (hbackslash : quote ≠ '\\')
    (hquote : g.state.quote = some quote) (hescaped : g.state.escaped = false) :
    g.scan cs = (g.move fun s => { s.endOperand with quote := none }).scan rest := by
  induction cs using Token.stringBody.induct quote generalizing g body with
  | case1 => cases h
  | case2 =>
      have hbody : body = [] ∧ rest = [] := by simpa [Token.stringBody, eq_comm] using h
      obtain ⟨rfl, rfl⟩ := hbody
      exact scan_cons_closing hquote hescaped hbackslash
  | case3 c hc => simp [Token.stringBody, hc] at h
  | case4 d cs =>
      have hbody : body = [] ∧ rest = d :: cs := by simpa [Token.stringBody, eq_comm] using h
      obtain ⟨rfl, rfl⟩ := hbody
      exact scan_cons_closing hquote hescaped hbackslash
  | case5 d cs hquoted ih =>
      -- The backslash and the character after it leave the gauge as it was.
      have hpair : g.scan ('\\' :: d :: cs) = g.scan cs := by
        rcases g with ⟨⟨inner, outer, depth, _, _, afterOperand⟩, peak⟩
        cases hquote
        cases hescaped
        simp [scan, step, Nesting.step, State.inString]
      simp only [Token.stringBody, hquoted, if_false, if_true] at h
      obtain ⟨⟨body', rest'⟩, hbody, hsome⟩ := Option.map_eq_some_iff.1 h
      obtain ⟨rfl, rfl⟩ := Prod.mk.inj hsome
      rw [hpair]
      exact ih hbody hquote hescaped
  | case6 c d cs hc hescape ih =>
      have hstep : g.scan (c :: d :: cs) = g.scan (d :: cs) := by
        rw [scan_cons_quoted hquote]
        simp [move, State.inString, hescaped, hc, hescape]
      simp only [Token.stringBody, hc, hescape, if_false] at h
      obtain ⟨⟨body', rest'⟩, hbody, hsome⟩ := Option.map_eq_some_iff.1 h
      obtain ⟨rfl, rfl⟩ := Prod.mk.inj hsome
      rw [hstep]
      exact ih hbody hquote hescaped

/-- A string, both quotes and what is between them. -/
theorem scan_string {text : String} (h : Token.string cs = some (text, rest))
    (hquote : g.state.quote = none) (hescaped : g.state.escaped = false) :
    g.scan cs = (g.move .endOperand).scan rest := by
  cases cs with
  | nil => cases h
  | cons c cs =>
      rw [Token.string] at h
      split at h
      · rename_i hc
        obtain ⟨⟨body, rest'⟩, hbody, hsome⟩ := Option.map_eq_some_iff.1 h
        obtain ⟨rfl, rfl⟩ := Prod.mk.inj hsome
        -- The quote that opened the string is the one that its body ends with.
        have hopen : stepCode g.state c cs.head? = ({ g.state with quote := some c }, false) := by
          rcases hc with rfl | rfl <;> rfl
        have hbackslash : c ≠ '\\' := by rcases hc with rfl | rfl <;> decide
        have hinside := scan_stringBody (g := g.move fun _ => { g.state with quote := some c })
          hbody hbackslash rfl hescaped
        rw [scan_cons_code hquote hopen, hinside]
        simp [move, State.endOperand, hquote]
      · cases h

end Gauge

end Formula
