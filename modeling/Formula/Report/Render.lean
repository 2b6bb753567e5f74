import Formula.Error
import Formula.Report.Snippet

/-!
# `Formula.Report.Render`: errors for the eye

Diagnostics are drawn beside the text they refer to, one report each.
Other errors have no place and are a single line.
-/

set_option autoImplicit false

namespace Formula.Report

/-- The name of the text in reports. -/
def sourceName : String := "<expression>"

/-- The word for a severity at the head of a report, and its color. -/
def headOf : Severity → String × Color
  | .error => ("Error", .red)
  | .warning => ("Warning", .yellow)
  | .info => ("Advice", .palette 147)

/-- The label of a range of bytes, unless it lies outside the text. -/
def labelOf? (lines : List Line) (id : Nat) (span : Span) (message : String) (color : Color) :
    Option Label := do
  let first ← placeOfByte? lines span.start
  let start := first.line.offset + first.column
  if span.stop ≤ span.start then
    return ⟨id, start, start, first.index, first.index, message, color⟩
  else
    let last ← placeOfByte? lines (span.stop - 1)
    let stop := last.line.offset
      + charsBefore last.line.text (span.stop - last.line.byteOffset)
    return ⟨id, start, stop, first.index, last.index, message, color⟩

/-- The labels of a diagnostic: its own, and those of related places. -/
def labelsOf (lines : List Line) (diagnostic : Diagnostic) : List Label :=
  let places := (diagnostic.span, diagnostic.message)
    :: diagnostic.related.map fun r => (r.span, r.message)
  ((places.zip (labelColors places.length)).zipIdx).filterMap fun ((place, color), id) =>
    labelOf? lines id place.1 place.2 color

/-- The number of digits of a line number. -/
def digitCount (n : Nat) : Nat := if n = 0 then 0 else (Nat.toDigits 10 n).length

/-- Where a report points, as line and column. -/
def reference (lines : List Line) (offset : Nat) : String :=
  match placeOfByte? lines offset with
  | some p => s!"{sourceName}:{p.index + 1}:{p.column + 1}"
  | none => s!"{sourceName}:?:?"

/-- The numbers of the first line of a group of labels and of the line
after its last one. -/
def groupRange (lines : List Line) (labels : List Label) : Nat × Nat :=
  lineRange lines (labels.foldl (fun n l => min n l.start) (charCount lines))
    (labels.foldl (fun n l => max n l.stop) 0)

/-- The drawing of a group of labels. -/
def drawingOf (colored : Bool) (lines : List Line) (numberWidth : Nat) (labels : List Label) :
    Drawing :=
  ⟨colored, lines, labels, sortBy (fun a b => b.length ≤ a.length) (labels.filter Label.multiline),
    numberWidth⟩

namespace Drawing

variable (d : Drawing)

/-- A text in the color of the margin. -/
def mark (text : String) : String := paint d.colored (some marginColor) text

/-- The width of the margin as far as the bar. -/
def frameWidth : Nat := d.numberWidth + 2

/-- The bar at the left of a report, alone in its row. -/
def bar : String := spaces d.frameWidth ++ d.mark "│" ++ "\n"

/-- A group: the place of the report behind a corner of the frame, and
the lines with their labels. -/
def group (corner place : String) : String :=
  let (first, last) := groupRange d.lines d.labels
  spaces d.frameWidth ++ d.mark corner ++ d.mark "─" ++ d.mark "[" ++ " " ++ place ++ " "
    ++ d.mark "]" ++ "\n"
    ++ d.bar
    ++ d.linesFrom false ((d.lines.zipIdx.take last).drop first)

/-- The end of a report: a help, and the frame below. -/
def foot (help : Option String) : String :=
  (match help with
    | some help => d.helpText help
    | none => "")
    ++ d.mark (String.ofList (List.replicate d.frameWidth '─') ++ "╯") ++ "\n"

end Drawing

/-- The groups of a report one below the other, joined by the bar. The
help stands below the last one. -/
def groupsText (place : String) (help : Option String) (corner : String) :
    List Drawing → String
  | [] => ""
  | [d] => d.group corner place ++ d.foot help
  | d :: ds => d.group corner place ++ d.bar ++ groupsText place help "├" ds

/-- The part of a report below its message. Line numbers are as wide in
all groups as in the one that needs most. -/
def body (colored : Bool) (lines : List Line) (labels : List Label) (diagnostic : Diagnostic) :
    String :=
  let groups := Label.groups labels
  let numberWidth := groups.foldl (fun n g => max n (digitCount (groupRange lines g).2)) 0
  groupsText (reference lines diagnostic.span.start) diagnostic.help "╭"
    (groups.map (drawingOf colored lines numberWidth))

/-- A code as the head of a report shows it: in at least two characters. -/
def codeText (code : String) : String := code ++ spaces (2 - code.length)

/-- The report of a diagnostic. -/
def diagnosticText (colored : Bool) (source : String) (diagnostic : Diagnostic) : String :=
  let (word, color) := headOf diagnostic.severity
  let code :=
    match diagnostic.code with
    | some code => s!"[{codeText code}] "
    | none => ""
  let lines := linesOf source
  let labels := labelsOf lines diagnostic
  paint colored (some color) (code ++ word ++ ":") ++ " " ++ diagnostic.message ++ "\n"
    ++ body colored lines labels diagnostic

end Formula.Report

namespace Formula

/-- An error for the eye, in colors if wanted. -/
def Error.render (colored : Bool) : Error → String
  | .compilation diagnostics source =>
    String.join (diagnostics.map (Report.diagnosticText colored source))
  | .evaluation e => s!"Evaluation error: {e.message}\n"
  | .usage message => s!"API error: {message}\n"

end Formula
