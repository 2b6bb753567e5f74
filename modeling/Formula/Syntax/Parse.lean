import Formula.Syntax.Grammar
import Formula.Syntax.Nesting

/-!
# `Formula.Syntax.Parse`: formulas from text

`parse` reads a formula: it refuses a text that nests too deeply, then
matches the grammar. When the text does not match, the error tells which
rules were tried at the furthest place. `matchRule` matches the front of
a text with any single rule.
-/

set_option autoImplicit false

namespace Formula

/-- How deeply a formula may nest unless another limit is given. -/
def defaultParseDepth : Nat := 128

namespace Grammar

/-- More nested expressions than a text has room for: a nested expression
begins after the one around it. -/
def enoughNesting (source : String) : Nat := source.toList.length + 1

/-- The place before the first character. -/
def startOf (source : String) : Cursor := ⟨0, source.toList⟩

/-- The error of a text that does not match. -/
def mismatch (source : String) (a : Attempts) : ParseError :=
  .ofExpectation (orderRules a.rules) [] source ⟨a.offset, a.offset⟩

/-- The error of a text whose nesting could not be followed. -/
def unfollowed (source : String) : ParseError :=
  .ofMessage "nesting could not be followed" source ⟨0, 0⟩

/-- Matches the front of a text, and tells what is left. -/
def run {α : Type} (p : Matcher α) (source : String) : Except ParseError (α × Cursor) :=
  match p (startOf source) .none with
  | (.matched value c, _) => .ok (value, c)
  | (.failed, a) => .error (mismatch source a)
  | (.tooDeep, _) => .error (unfollowed source)

end Grammar

/-- A text as the grammar reads it, whatever its nesting. -/
def phraseOf (source : String) : Except ParseError Phrase :=
  Prod.fst <$> Grammar.run (Grammar.main (Grammar.enoughNesting source)) source

/-- The tree of a formula that nests at most `maxDepth` levels. -/
def parse (source : String) (maxDepth : Nat) : Except ParseError Expr := do
  Nesting.check source maxDepth
  let p ← phraseOf source
  return p.tree

/-- What a rule matches at the front of a text. -/
structure RuleMatch where
  /-- the text matched -/
  text : String
  /-- the tree, or the error of a rule that makes none -/
  tree : Except ParseError Expr

/-- Matches the front of a text with a single rule. -/
def matchRule (rule : Rule) (source : String) : Except ParseError RuleMatch := do
  let (tree?, c) ← Grammar.run (Grammar.ofRule (Grammar.enoughNesting source) rule) source
  let text := String.ofList (source.toList.take (source.toList.length - c.rest.length))
  let tree :=
    match tree? with
    | some e => .ok e
    | none => .error (.ofMessage s!"Unhandled rule: {rule.name}" source ⟨0, c.offset⟩)
  return ⟨text, tree⟩

end Formula
