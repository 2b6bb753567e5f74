import Formula.Diagnostic

/-!
# `Formula.Report.Lines`: the lines of a text

A text is divided into lines after every line terminator; a carriage
return with a line feed counts as one. A line knows where it begins, in
characters and in bytes. An empty text has one empty line.
-/

set_option autoImplicit false

namespace Formula.Report

/-- A line of a text, with the terminator that ends it. -/
structure Line where
  /-- the number of characters before the line -/
  offset : Nat
  /-- the number of bytes before the line -/
  byteOffset : Nat
  text : List Char
deriving Inhabited

namespace Line

/-- The number of characters. -/
def length (l : Line) : Nat := l.text.length

/-- The offset after the last character. -/
def stop (l : Line) : Nat := l.offset + l.length

/-- Whether a character of the line has the offset. -/
def contains (l : Line) (offset : Nat) : Bool := l.offset ≤ offset && offset < l.stop

end Line

/-- Whether a character ends a line. -/
def isTerminator (c : Char) : Bool :=
  c == '\r' || c == '\n' || c == '\x0b' || c == '\x0c' || c == '\u0085' || c == '\u2028'
    || c == '\u2029'

/-- Divides a text into the characters of its lines. -/
def splitLines : List Char → List (List Char)
  | [] => []
  | ['\r'] => [['\r']]
  | '\r' :: '\n' :: cs => ['\r', '\n'] :: splitLines cs
  | c :: cs =>
    if isTerminator c then [c] :: splitLines cs
    else
      match splitLines cs with
      | [] => [[c]]
      | l :: ls => (c :: l) :: ls

/-- The lines of a text that only line feeds divide, without the line
feeds and the carriage returns before them. A last empty line does not
count. -/
def feedLines : List Char → List (List Char)
  | [] => []
  | '\n' :: cs => [] :: feedLines cs
  | '\r' :: '\n' :: cs => [] :: feedLines cs
  | c :: cs =>
    match feedLines cs with
    | [] => [[c]]
    | l :: ls => (c :: l) :: ls

/-- Gives lines their offsets. -/
def placeLines (offset byteOffset : Nat) : List (List Char) → List Line
  | [] => []
  | cs :: rest =>
    ⟨offset, byteOffset, cs⟩ :: placeLines (offset + cs.length) (byteOffset + byteLength cs) rest

/-- The lines of a text. -/
def linesOf (text : String) : List Line :=
  match splitLines text.toList with
  | [] => [⟨0, 0, []⟩]
  | ls => placeLines 0 0 ls

/-- The number of the line at an offset, given where lines begin: the
last one that begins there or before. -/
def lineIndex (start : Line → Nat) (lines : List Line) (offset : Nat) : Nat :=
  (lines.takeWhile fun l => start l ≤ offset).length - 1

/-- The number of characters in a text. -/
def charCount (lines : List Line) : Nat := (lines.flatMap Line.text).length

/-- The number of bytes in a text. -/
def byteCount (lines : List Line) : Nat := byteLength (lines.flatMap Line.text)

/-- A place in a text: a line by number, and the number of characters
before the place in it. -/
structure Place where
  index : Nat
  line : Line
  column : Nat
deriving Inhabited

/-- The number of characters that begin before a number of bytes. -/
def charsBefore : List Char → Nat → Nat
  | [], _ => 0
  | c :: cs, bytes => if bytes = 0 then 0 else charsBefore cs (bytes - c.utf8Size) + 1

/-- The place at a byte offset, if the text has one. -/
def placeOfByte? (lines : List Line) (offset : Nat) : Option Place :=
  if offset ≤ byteCount lines then
    let index := lineIndex Line.byteOffset lines offset
    (lines[index]?).map fun l => ⟨index, l, charsBefore l.text (offset - l.byteOffset)⟩
  else
    none

/-- The numbers of the first line of a range of characters and of the
line after its last one. -/
def lineRange (lines : List Line) (start stop : Nat) : Nat × Nat :=
  let total := charCount lines
  let last := max (stop - 1) start
  (if start ≤ total then lineIndex Line.offset lines start else 0,
    if last ≤ total then lineIndex Line.offset lines last + 1 else lines.length)

end Formula.Report
