import Formula.Syntax.Error

/-!
# `Formula.Syntax.Matcher`: matching with a record of attempts

A matcher reads from the front of a text. It succeeds with a value and
moves on, or fails, or gives up because the nesting it may use is
exhausted; only failure lets an alternative be tried.

Beside the answer every matcher keeps a record of `Attempts`: the
furthest place where a rule was tried in vain, and the rules tried there.
A report of a text that does not match is made from this record, so it is
kept through alternatives that are given up and through success.
-/

set_option autoImplicit false

namespace Formula

/-- A place in a text: the number of bytes before it and the characters
after it. -/
structure Cursor where
  offset : Nat
  rest : List Char
deriving DecidableEq, Inhabited

/-- The rules tried in vain at the furthest place so far. -/
structure Attempts where
  offset : Nat
  rules : List Rule
deriving DecidableEq, Inhabited

namespace Attempts

/-- No rule tried yet. -/
def none : Attempts := ⟨0, []⟩

/-- How many rules were tried at a place. -/
def countAt (a : Attempts) (offset : Nat) : Nat :=
  if a.offset = offset then a.rules.length else 0

/-- The record after a rule has failed at a place. `before` is the record
when the rule was begun. What the rule itself tried at its start is
replaced by the rule, unless it tried a single rule there, which tells
more than the rule would. -/
def failed (before after : Attempts) (rule : Rule) (offset : Nat) : Attempts :=
  if after.countAt offset = before.countAt offset + 1 then after
  else if offset = after.offset then
    ⟨offset, after.rules.take (before.countAt offset) ++ [rule]⟩
  else if after.offset < offset then ⟨offset, [rule]⟩
  else after

end Attempts

/-- The answer of a matcher. -/
inductive Reply (α : Type) where
  | matched (value : α) (cursor : Cursor)
  | failed
  /-- the nesting that may be used is exhausted -/
  | tooDeep
deriving Inhabited

/-- A matcher for values of a type. -/
def Matcher (α : Type) := Cursor → Attempts → Reply α × Attempts

namespace Matcher

variable {α β : Type}

/-- Matches nothing and succeeds. -/
def done (value : α) : Matcher α := fun c a => (.matched value c, a)

/-- Gives up for want of nesting. -/
def tooDeep : Matcher α := fun _ a => (.tooDeep, a)

/-- One matcher, then another that may use the value of the first. -/
def andThen (p : Matcher α) (q : α → Matcher β) : Matcher β := fun c a =>
  match p c a with
  | (.matched value c', a') => q value c' a'
  | (.failed, a') => (.failed, a')
  | (.tooDeep, a') => (.tooDeep, a')

instance : Monad Matcher where
  pure := done
  bind := andThen

/-- The second matcher at the same place if the first one fails. -/
def orElse (p q : Matcher α) : Matcher α := fun c a =>
  match p c a with
  | (.failed, a') => q c a'
  | reply => reply

/-- The first of some matchers that does not fail. -/
def firstOf : List (Matcher α) → Matcher α
  | [] => fun _ a => (.failed, a)
  | p :: ps => p.orElse (firstOf ps)

/-- The matcher if it succeeds, and otherwise nothing. -/
def optional (p : Matcher α) : Matcher (Option α) :=
  orElse (some <$> p) (done .none)

/-- Whether a character is skipped between tokens. -/
def isSpace (c : Char) : Bool := c == ' ' || c == '\t' || c == '\r' || c == '\n'

/-- Moves over the spaces at a place. -/
def Cursor.skipSpace (c : Cursor) : Cursor :=
  ⟨c.offset + (c.rest.takeWhile isSpace).length, c.rest.dropWhile isSpace⟩

/-- Skips spaces. -/
def skip : Matcher Unit := fun c a => (.matched () (Cursor.skipSpace c), a)

/-- One character, not recorded as an attempt. -/
def char (expected : Char) : Matcher Unit := fun c a =>
  match c.rest with
  | d :: rest =>
    if d = expected then (.matched () ⟨c.offset + d.utf8Size, rest⟩, a) else (.failed, a)
  | [] => (.failed, a)

/-- Records the rule as tried in vain when the matcher fails. -/
def tracked (rule : Rule) (p : Matcher α) : Matcher α := fun c a =>
  match p c a with
  | (.failed, a') => (.failed, a.failed a' rule c.offset)
  | reply => reply

/-- A token under the name of a rule. -/
def token (rule : Rule) (scan : List Char → Option (α × List Char)) : Matcher α :=
  tracked rule fun c a =>
    match scan c.rest with
    | some (value, rest) =>
      (.matched value ⟨c.offset + (byteLength c.rest - byteLength rest), rest⟩, a)
    | none => (.failed, a)

/-- As many matches as there are, each after spaces. `fuel` bounds their
number. -/
def manyAfterSpace (p : Matcher α) : Nat → Matcher (List α)
  | 0 => done []
  | fuel + 1 => fun c a =>
    match p (Cursor.skipSpace c) a with
    | (.matched value c', a') => ((value :: ·) <$> manyAfterSpace p fuel) c' a'
    | (.failed, a') => (.matched [] c, a')
    | (.tooDeep, a') => (.tooDeep, a')

/-- As many matches as there are, with spaces between them. A match takes
at least one character, so there are no more than characters. -/
def many (p : Matcher α) : Matcher (List α) := fun c a =>
  match p c a with
  | (.matched value c', a') => ((value :: ·) <$> manyAfterSpace p (c'.rest.length + 1)) c' a'
  | (.failed, a') => (.matched [] c, a')
  | (.tooDeep, a') => (.tooDeep, a')

/-- Matches with a comma between them, perhaps none. -/
def separated (p : Matcher α) : Matcher (List α) := fun c a =>
  match p c a with
  | (.matched first c', a') =>
    (skip.andThen fun _ =>
      (first :: ·) <$> many ((char ',').andThen fun _ => skip.andThen fun _ => p)) c' a'
  | (.failed, a') => (.matched [] c, a')
  | (.tooDeep, a') => (.tooDeep, a')

end Matcher

end Formula
