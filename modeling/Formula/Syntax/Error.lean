import Formula.Diagnostic
import Formula.Syntax.Rule

/-!
# `Formula.Syntax.Error`: why a text is not a formula

The causes for which a text cannot be read, the place of each, and the
diagnostic made from it.
-/

set_option autoImplicit false

namespace Formula

/-- The cause for which a text is not a formula. -/
inductive ParseCause where
  | unexpected (expected found : String)
  | invalidNumber (text : String)
  /-- nesting reaches `depth` where `limit` is allowed -/
  | tooDeep (depth limit : Nat)
  | other (message : String)
deriving DecidableEq, Inhabited

/-- A cause, with the text and the place in it. -/
structure ParseError where
  cause : ParseCause
  source : String
  span : Span
deriving DecidableEq, Inhabited

namespace ParseCause

/-- The message of a cause. -/
def message : ParseCause → String
  | unexpected expected found => s!"Expected {expected}, found {found}"
  | invalidNumber text => s!"Invalid number literal '{text}'"
  | tooDeep _ limit => s!"Expression nesting depth exceeds maximum of {limit} levels"
  | other message => message

/-- The code of a cause. -/
def code : ParseCause → String
  | unexpected _ _ => "P001"
  | invalidNumber _ => "P003"
  | tooDeep _ _ => "P004"
  | other _ => "P999"

/-- The help that is offered for a cause. -/
def help : ParseCause → Option String
  | invalidNumber _ => some "Check the number format"
  | tooDeep _ _ => some "Reduce nesting or simplify the expression"
  | _ => none

/-- What an invalid number is reported with. -/
def invalidNumberMark : String := "invalid number literal: "

/-- The cause behind a message. -/
def ofMessage (message : String) : ParseCause :=
  let mark := invalidNumberMark.toList
  if mark.isPrefixOf message.toList then
    .invalidNumber (String.ofList (message.toList.drop mark.length))
  else
    .other message

end ParseCause

namespace ParseError

/-- The diagnostic of an error. -/
def diagnostic (e : ParseError) : Diagnostic where
  severity := .error
  message := e.cause.message
  span := e.span
  related := []
  help := e.cause.help
  code := some e.cause.code

/-- The text of an error. -/
def text (e : ParseError) : String := e.diagnostic.text

/-- What stands at the start of a span, in words. A rule that must not
stand there takes precedence over the character. -/
def foundText (unwanted : List Rule) (source : String) (span : Span) : String :=
  match unwanted with
  | r :: _ => r.foundText
  | [] =>
    match charAtByte? source.toList span.start with
    | some c => s!"'{c}'"
    | none => "end of input"

/-- The error that some rules were expected and others were not. -/
def ofExpectation (expected unwanted : List Rule) (source : String) (span : Span) : ParseError :=
  ⟨.unexpected (expectedText expected) (foundText unwanted source span), source, span⟩

/-- The error with a message of its own. -/
def ofMessage (message source : String) (span : Span) : ParseError :=
  ⟨.ofMessage message, source, span⟩

end ParseError

end Formula
