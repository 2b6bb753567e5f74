/-!
# `Formula.Json.Fault`: why a JSON text is refused

The causes for which a JSON text is refused, and the place where that was
noticed. A cause found after the text has been scanned has no place.
-/

set_option autoImplicit false

namespace Formula.Json

/-- The cause for which a JSON text is refused. -/
inductive Cause where
  | endInList | endInObject | endInString | endInValue
  | expectedColon | expectedListEnd | expectedObjectEnd
  | expectedWord | expectedValue
  | invalidEscape | invalidNumber | numberOutOfRange
  | controlCharacter | keyNotString
  | loneSurrogate | unfinishedSurrogate
  | trailingComma | trailingCharacters
  | nestingLimit
  /-- a value of one kind where another kind is needed -/
  | invalidType (found expected : String)
  | invalidLength (length : Nat) (expected : String)
  | missingField (name : String)
  | duplicateField (name : String)
  | noVariant (type : String)
deriving DecidableEq, Inhabited

/-- The text of a cause. -/
def Cause.message : Cause → String
  | endInList => "EOF while parsing a list"
  | endInObject => "EOF while parsing an object"
  | endInString => "EOF while parsing a string"
  | endInValue => "EOF while parsing a value"
  | expectedColon => "expected `:`"
  | expectedListEnd => "expected `,` or `]`"
  | expectedObjectEnd => "expected `,` or `\x7d`"
  | expectedWord => "expected ident"
  | expectedValue => "expected value"
  | invalidEscape => "invalid escape"
  | invalidNumber => "invalid number"
  | numberOutOfRange => "number out of range"
  | controlCharacter =>
    "control character (\\u0000-\\u001F) found while parsing a string"
  | keyNotString => "key must be a string"
  | loneSurrogate => "lone leading surrogate in hex escape"
  | unfinishedSurrogate => "unexpected end of hex escape"
  | trailingComma => "trailing comma"
  | trailingCharacters => "trailing characters"
  | nestingLimit => "recursion limit exceeded"
  | invalidType found expected => s!"invalid type: {found}, expected {expected}"
  | invalidLength length expected => s!"invalid length {length}, expected {expected}"
  | missingField name => s!"missing field `{name}`"
  | duplicateField name => s!"duplicate field `{name}`"
  | noVariant type => s!"data did not match any variant of untagged enum {type}"

/-- A line, from one on, and a number of bytes in it. -/
structure Position where
  line : Nat
  column : Nat
deriving DecidableEq, Inhabited

/-- A cause, and the place where it was noticed, if it has one. -/
structure Fault where
  cause : Cause
  position : Option Position
deriving DecidableEq, Inhabited

/-- The text of a fault. -/
def Fault.message (f : Fault) : String :=
  match f.position with
  | some p => s!"{f.cause.message} at line {p.line} column {p.column}"
  | none => f.cause.message

end Formula.Json
