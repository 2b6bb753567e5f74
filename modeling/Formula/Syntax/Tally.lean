import Formula.Syntax.Nesting

/-!
# `Formula.Syntax.Tally`: the books of the scan for nesting

The scan for nesting keeps its frames on one stack, and a count of the
levels next to it. The levels that a character closes are taken from the
count, and the frame that it changes is looked up under its index. Neither
is told by a type to be there: where there is less in the count, or no
frame under the index, the scan ends with a `Lapse`, which is no answer.
-/

set_option autoImplicit false

namespace Formula.Nesting

/-- The levels open in some frames. -/
def levelsOf : List Frame → Nat
  | [] => 0
  | f :: fs => f.levels + levelsOf fs

/-- What ends the scan without an answer. -/
inductive Lapse where
  /-- more is taken from a count than is in it -/
  | underflow
  /-- no frame is under an index -/
  | noFrame
deriving DecidableEq

/-- The state of the scan with its frames on one stack, the innermost one
last. -/
structure Tally where
  frames : Array Frame
  depth : Nat
  quote : Option Char
  escaped : Bool
  afterOperand : Bool
deriving DecidableEq

namespace Tally

/-- The state before the first character. -/
def initial : Tally := ⟨#[.empty], 0, none, false, false⟩

/-- Takes a number from a count. -/
def take (count n : Nat) : Except Lapse Nat :=
  if n ≤ count then .ok (count - n) else .error .underflow

/-- Takes levels from the depth. -/
def lower (t : Tally) (n : Nat) : Except Lapse Tally := do
  let depth ← take t.depth n
  return { t with depth }

/-- The frame under an index. -/
def frameAt (t : Tally) (i : Nat) : Except Lapse Frame :=
  match t.frames[i]? with
  | some f => .ok f
  | none => .error .noFrame

/-- Puts a frame in the place of the one under an index. -/
def setFrame (t : Tally) (i : Nat) (f : Frame) : Except Lapse Tally :=
  if i < t.frames.size then .ok { t with frames := t.frames.setIfInBounds i f }
  else .error .noFrame

/-- Closes the prefix operators of a frame. -/
def closeUnary (t : Tally) (i : Nat) : Except Lapse Tally := do
  let f ← t.frameAt i
  let t ← t.lower f.unary
  t.setFrame i { f with unary := 0 }

/-- Opens a bracket. -/
def openBracket (t : Tally) : Tally :=
  { t with frames := t.frames.push .empty, afterOperand := false }

/-- Closes a bracket. The outermost frame belongs to none, and stays. -/
def closeBracket (t : Tally) : Except Lapse Tally := do
  if 1 < t.frames.size then
    match t.frames.back? with
    | some closed =>
      let t ← { t with frames := t.frames.pop }.lower (closed.levels + 1)
      return { t with afterOperand := true }
    | none => return { t with afterOperand := true }
  else
    return { t with afterOperand := true }

/-- Opens a conditional. -/
def openConditional (t : Tally) (i : Nat) : Except Lapse Tally := do
  let t ← t.closeUnary i
  let f ← t.frameAt i
  let t ← t.setFrame i { f with conditional := f.conditional + 1 }
  return { t with afterOperand := false }

/-- A comma closes all that is open in a frame. -/
def comma (t : Tally) (i : Nat) : Except Lapse Tally := do
  let f ← t.frameAt i
  let t ← t.lower f.levels
  let t ← t.setFrame i .empty
  return { t with afterOperand := false }

/-- Opens a prefix operator. -/
def openPrefix (t : Tally) (i : Nat) : Except Lapse Tally := do
  let f ← t.frameAt i
  t.setFrame i { f with unary := f.unary + 1 }

/-- An operator between operands, or a colon. -/
def operator (t : Tally) (i : Nat) : Except Lapse Tally := do
  let t ← t.closeUnary i
  return { t with afterOperand := false }

/-- A character inside a string. -/
def inString (t : Tally) (quote c : Char) : Tally :=
  if t.escaped then { t with escaped := false }
  else if c = '\\' then { t with escaped := true }
  else if c = quote then { t with quote := none, afterOperand := true }
  else t

/-- What a character outside strings does to the frames, of which the
innermost one is under the index, and whether it opens a level. That level
is not counted yet. -/
def arm (t : Tally) (i : Nat) (c : Char) (next : Option Char) : Except Lapse (Tally × Bool) := do
  if isBlank c then return (t, false)
  else if c = '"' ∨ c = '\'' then return ({ t with quote := some c }, false)
  else if c = '(' ∨ c = '[' then return (t.openBracket, true)
  else if c = ')' ∨ c = ']' then return (← t.closeBracket, false)
  else if c = '?' then return (← t.openConditional i, true)
  else if c = ',' then return (← t.comma i, false)
  else if isPrefixSign c ∧ t.afterOperand = false ∧ ¬(c = '!' ∧ next = some '=') then
    return (← t.openPrefix i, true)
  else if isOperatorChar c then return (← t.operator i, false)
  else if c = '.' then return (t, false)
  else return ({ t with afterOperand := true }, false)

/-- The state with the level counted that a character opened, if it opened
one. -/
def count (t : Tally) (opened : Bool) : Tally :=
  { t with depth := if opened then t.depth + 1 else t.depth }

/-- The state after a character, and whether the character opened a
level. -/
def step (t : Tally) (c : Char) (next : Option Char) : Except Lapse (Tally × Bool) :=
  match t.quote with
  | some quote => .ok (t.inString quote c, false)
  | none => do
    let i ← take t.frames.size 1
    let (t, opened) ← t.arm i c next
    return (t.count opened, opened)

/-- Scans from a state and a byte offset on. -/
def scan (limit : Nat) (t : Tally) (offset : Nat) : List Char → Except Lapse (Option Excess)
  | [] => .ok none
  | c :: cs => do
    let (t, opened) ← t.step c cs.head?
    if opened ∧ limit < t.depth then
      return some ⟨t.depth, ⟨offset, offset + c.utf8Size⟩⟩
    else scan limit t (offset + c.utf8Size) cs

/-- The error of a text that nests too deeply, if it does. -/
def check (source : String) (limit : Nat) : Except Lapse (Except ParseError Unit) := do
  match ← scan limit .initial 0 source.toList with
  | some e => return .error ⟨.tooDeep e.depth limit, source, e.span⟩
  | none => return .ok ()

end Tally

end Formula.Nesting
