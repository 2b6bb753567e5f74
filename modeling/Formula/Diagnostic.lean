/-!
# `Formula.Diagnostic`: messages about a place in a text

A diagnostic says what is wrong, how severe it is and where, in bytes of
the text. It may point at related places and carry a help and a code.
-/

set_option autoImplicit false

namespace Formula

/-- A range of bytes in a text. -/
structure Span where
  start : Nat
  stop : Nat
deriving DecidableEq, Inhabited

/-- How bad a diagnostic is. -/
inductive Severity where
  | error
  | warning
  | info
deriving DecidableEq, Inhabited

/-- The word for a severity. -/
def Severity.text : Severity → String
  | .error => "error"
  | .warning => "warning"
  | .info => "info"

/-- A place that explains a diagnostic. -/
structure RelatedInfo where
  span : Span
  message : String
deriving DecidableEq, Inhabited

/-- A message about a place in a text. -/
structure Diagnostic where
  severity : Severity
  message : String
  span : Span
  related : List RelatedInfo
  help : Option String
  code : Option String
deriving DecidableEq, Inhabited

/-- A diagnostic on one line, with its help on a second. -/
def Diagnostic.text (d : Diagnostic) : String :=
  let code :=
    match d.code with
    | some code => s!" [{code}]"
    | none => ""
  let help :=
    match d.help with
    | some help => s!"\nhelp: {help}"
    | none => ""
  s!"{d.severity.text}: {d.message}" ++ code ++ help

/-- The number of bytes of a list of characters. -/
def byteLength : List Char → Nat
  | [] => 0
  | c :: cs => c.utf8Size + byteLength cs

/-- The character that begins at a byte offset, if one does. -/
def charAtByte? : List Char → Nat → Option Char
  | [], _ => none
  | c :: cs, offset =>
    if offset = 0 then some c
    else if offset < c.utf8Size then none
    else charAtByte? cs (offset - c.utf8Size)

end Formula
