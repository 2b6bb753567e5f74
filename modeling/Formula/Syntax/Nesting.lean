import Formula.Syntax.Error
import Formula.Text.Blank

/-!
# `Formula.Syntax.Nesting`: how deeply a text nests

Before a text is read its nesting is measured, so that reading never
recurses deeper than allowed. Each bracket, each prefix operator over the
operand it applies to, and each conditional whose branches are still open
counts as one level. A run of prefix operators ends with its operand, so
`-a + -b` nests one level while `- - a` nests two.

The scan walks over the characters once. It keeps a frame for every open
bracket, and the depth, which is the number of enclosing brackets
together with all that is open in the frames.
-/

set_option autoImplicit false

namespace Formula.Nesting

/-- What is open inside one bracket level. -/
structure Frame where
  /-- prefix operators over the operand being scanned -/
  unary : Nat
  /-- conditionals whose alternate is still open -/
  conditional : Nat
deriving DecidableEq, Inhabited

/-- The frame of a level just opened. -/
def Frame.empty : Frame := ⟨0, 0⟩

/-- The levels open in a frame. -/
def Frame.levels (f : Frame) : Nat := f.unary + f.conditional

/-- The state of the scan. The innermost frame is kept apart from the
outer ones, so there is always one. -/
structure State where
  inner : Frame
  outer : List Frame
  depth : Nat
  /-- the quote that ends the string being scanned, if one is -/
  quote : Option Char
  /-- whether the character before was an escaping backslash -/
  escaped : Bool
  /-- whether an operand has just ended, so that a sign is no prefix -/
  afterOperand : Bool
deriving DecidableEq, Inhabited

/-- The state before the first character. -/
def State.initial : State := ⟨.empty, [], 0, none, false, false⟩

namespace State

/-- Closes the prefix operators of the innermost frame. -/
def closeUnary (s : State) : State :=
  { s with depth := s.depth - s.inner.unary, inner := { s.inner with unary := 0 } }

/-- Opens a bracket. -/
def openBracket (s : State) : State :=
  { s with inner := .empty, outer := s.inner :: s.outer, depth := s.depth + 1,
           afterOperand := false }

/-- Closes a bracket; a bracket that closes nothing changes no level. -/
def closeBracket (s : State) : State :=
  match s.outer with
  | [] => { s with afterOperand := true }
  | frame :: rest =>
    { s with inner := frame, outer := rest, depth := s.depth - (s.inner.levels + 1),
             afterOperand := true }

/-- Opens a conditional. -/
def openConditional (s : State) : State :=
  let s := s.closeUnary
  { s with inner := { s.inner with conditional := s.inner.conditional + 1 },
           depth := s.depth + 1, afterOperand := false }

/-- A comma closes all that is open in its frame. -/
def comma (s : State) : State :=
  { s with depth := s.depth - s.inner.levels, inner := .empty, afterOperand := false }

/-- Opens a prefix operator. -/
def openPrefix (s : State) : State :=
  { s with inner := { s.inner with unary := s.inner.unary + 1 }, depth := s.depth + 1 }

/-- An operator between operands, or a colon, closes the prefix
operators of the operand before it. -/
def operator (s : State) : State := { s.closeUnary with afterOperand := false }

/-- A character inside a string. -/
def inString (s : State) (quote c : Char) : State :=
  if s.escaped then { s with escaped := false }
  else if c = '\\' then { s with escaped := true }
  else if c = quote then { s with quote := none, afterOperand := true }
  else s

end State

/-- Whether the character can be a prefix operator. -/
def isPrefixSign (c : Char) : Bool := c == '-' || c == '+' || c == '!' || c == '~'

/-- Whether the character belongs to an operator between operands. -/
def isOperatorChar (c : Char) : Bool :=
  isPrefixSign c || c == '*' || c == '/' || c == '%' || c == '<' || c == '>' || c == '='
    || c == '&' || c == '|' || c == '^' || c == ':'

/-- The state after a character outside strings, and whether the
character opened a level. `next` is the character that follows. -/
def stepCode (s : State) (c : Char) (next : Option Char) : State × Bool :=
  if isBlank c then (s, false)
  else if c = '"' ∨ c = '\'' then ({ s with quote := some c }, false)
  else if c = '(' ∨ c = '[' then (s.openBracket, true)
  else if c = ')' ∨ c = ']' then (s.closeBracket, false)
  else if c = '?' then (s.openConditional, true)
  else if c = ',' then (s.comma, false)
  else if isPrefixSign c ∧ s.afterOperand = false ∧ ¬(c = '!' ∧ next = some '=') then
    (s.openPrefix, true)
  else if isOperatorChar c then (s.operator, false)
  else if c = '.' then (s, false)
  else ({ s with afterOperand := true }, false)

/-- The state after a character, and whether the character opened a
level. -/
def step (s : State) (c : Char) (next : Option Char) : State × Bool :=
  match s.quote with
  | some quote => (s.inString quote c, false)
  | none => stepCode s c next

/-- A level opened beyond the limit: the depth it reaches and the bytes
of the character that opens it. -/
structure Excess where
  depth : Nat
  span : Span
deriving DecidableEq, Inhabited

/-- Scans from a state and a byte offset on. -/
def scan (limit : Nat) (s : State) (offset : Nat) : List Char → Option Excess
  | [] => none
  | c :: cs =>
    let (s', opened) := step s c cs.head?
    if opened ∧ limit < s'.depth then some ⟨s'.depth, ⟨offset, offset + c.utf8Size⟩⟩
    else scan limit s' (offset + c.utf8Size) cs

/-- The first level that a text opens beyond the limit. -/
def firstExcess (source : String) (limit : Nat) : Option Excess :=
  scan limit .initial 0 source.toList

/-- The error of a text that nests too deeply, if it does. -/
def check (source : String) (limit : Nat) : Except ParseError Unit :=
  match firstExcess source limit with
  | some e => .error ⟨.tooDeep e.depth limit, source, e.span⟩
  | none => .ok ()

end Formula.Nesting
