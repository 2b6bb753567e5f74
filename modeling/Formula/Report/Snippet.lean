import Formula.Report.Ink
import Formula.Report.Lines
import Formula.Text.Blank
import Formula.Text.Width

/-!
# `Formula.Report.Snippet`: a diagnostic beside its text

A report begins with the message. The lines that have labels follow, each
behind a margin with its number; labels that do not come in the order of
their lines are drawn in several groups. A label within a line is drawn below it:
the text is underlined, and an arrow leads from the middle of the label
to its message. A label over several lines is drawn in columns of its own
between the margin and the text, from its first line to its last, below
which its message stands. Lines in between without labels are left out.

The drawing is made cell by cell; a cell is a character and its color.
-/

set_option autoImplicit false

namespace Formula.Report

/-- A labelled range of characters. -/
structure Label where
  /-- what tells labels apart -/
  id : Nat
  start : Nat
  stop : Nat
  /-- the number of the line where it begins -/
  firstLine : Nat
  /-- the number of the line where it ends -/
  lastLine : Nat
  message : String
  color : Color
deriving Inhabited

namespace Label

/-- Whether the label extends over several lines. -/
def multiline (l : Label) : Bool := l.firstLine != l.lastLine

/-- The last character of a label, or where an empty one stands. -/
def last (l : Label) : Nat := max (l.stop - 1) l.start

/-- The number of characters. -/
def length (l : Label) : Nat := l.stop - l.start

/-- Whether the label covers the character at an offset. -/
def contains (l : Label) (offset : Nat) : Bool := l.start ≤ offset && offset < l.stop

/-- Divides labels into groups that are drawn one below the other. A label
that ends on an earlier line than the label before it begins a group, so
within a group the last lines never decrease. -/
def groups (labels : List Label) : List (List Label) :=
  labels.splitBy fun a b => a.lastLine ≤ b.lastLine

end Label

/-- A label as it shows on one line. -/
structure Mark where
  /-- the column where its arrow begins -/
  column : Nat
  label : Label
  multi : Bool
  /-- whether the message stands on this line -/
  drawMessage : Bool
deriving Inhabited

/-- A report to be drawn. -/
structure Drawing where
  colored : Bool
  lines : List Line
  labels : List Label
  /-- the labels over several lines, longest first -/
  multi : List Label
  /-- the width of line numbers -/
  numberWidth : Nat

/-- A cell of the drawing. -/
abbrev Cell := Option Color × Char

/-- An empty cell. -/
def emptyCell : Cell := (none, ' ')

/-- A number of spaces. -/
def spaces (n : Nat) : String := String.ofList (List.replicate n ' ')

/-- Puts an element before the first one that must not precede it. -/
def insertBy {α : Type} (before : α → α → Bool) (a : α) : List α → List α
  | [] => [a]
  | b :: bs => if before b a then b :: insertBy before a bs else a :: b :: bs

/-- Sorts, keeping the order of elements of which neither must precede
the other. `before b a` tells that `b` may stay before `a`. -/
def sortBy {α : Type} (before : α → α → Bool) (as : List α) : List α :=
  as.foldl (fun sorted a => insertBy before a sorted) []

/-- The first of the elements with the least key. -/
def leastBy {α : Type} (less : α → α → Bool) : List α → Option α
  | [] => none
  | a :: as => some (as.foldl (fun best b => if less b best then b else best) a)

/-- Marks further left come first, and at one column the label that
begins last. -/
def markBefore (a b : Mark) : Bool :=
  a.column < b.column || (a.column == b.column && b.label.start ≤ a.label.start)

/-- Whether a mark comes strictly first. -/
def markStrictlyBefore (a b : Mark) : Bool :=
  a.column < b.column || (a.column == b.column && b.label.start < a.label.start)

namespace Drawing

variable (d : Drawing)

/-- A cell as text. -/
def cell (c : Cell) : String := paint d.colored c.1 (String.singleton c.2)

/-- Cells as text. -/
def cells (cs : List Cell) : String := String.join (cs.map d.cell)

/-! ### The margin -/

/-- Which row below a line is drawn: the mark it belongs to, and whether
it holds the arrow itself or only what leads to it. -/
structure Row where
  index : Nat
  isArrow : Bool

/-- What the margin is drawn for. -/
structure MarginSpec where
  /-- the number of the line -/
  index : Nat
  /-- whether the line's text follows -/
  isLine : Bool
  /-- whether lines are left out here -/
  isEllipsis : Bool
  row : Option Row
  marks : List Mark
  /-- the label over several lines whose arrow is on the line itself -/
  marginMark : Option Mark

/-- What meets in a column of the margin. -/
structure Joint where
  corner : Option (Label × Bool) := none
  horizontal : Option Label := none
  vertical : Option Label := none
  pointer : Option (Mark × Bool) := none

/-- Whether an optional mark is one of a label. -/
def isMarkOf (m : Option Mark) (l : Label) : Bool :=
  match m with
  | some m => m.label.id == l.id
  | none => false

/-- The first label of two, if there is one. -/
def firstLabel (a b : Option Label) : Option Label :=
  match a with
  | some l => some l
  | none => b

/-- What a label over several lines adds to a column of the margin. `own`
tells that the column is the label's own. -/
def Joint.add (spec : MarginSpec) (line : Line) (own : Bool) (j : Joint) (l : Label) : Joint :=
  if l.start ≤ line.stop ∧ line.offset < l.stop then
    let isStart := line.contains l.start
    let isEnd := line.contains l.last
    let margin := spec.marginMark.filter (·.label.id == l.id)
    let ownLabel := if own then some l else none
    match margin, spec.isLine with
    | some m, true => { j with pointer := some (m, isStart) }
    | _, _ =>
      if !isStart && (!isEnd || spec.isLine) then
        { j with vertical := firstLabel j.vertical ownLabel }
      else
        match spec.row with
        | none => j
        | some row =>
          let labelRow := (spec.marks.findIdx? (·.label.id == l.id)).getD 0
          if row.index = labelRow then
            let j := if margin.isSome then { j with vertical := ownLabel } else j
            if margin.isSome && isStart then j
            else if row.isArrow then
              { j with horizontal := some l,
                       corner := if own then some (l, isStart) else j.corner }
            else if !isStart then { j with vertical := firstLabel j.vertical ownLabel }
            else j
          else
            let passing := isStart ^^ decide (row.index < labelRow)
            { j with vertical := firstLabel j.vertical (if passing then ownLabel else none) }
  else
    j

/-- The two cells of a column of the margin. -/
def columnCells (spec : MarginSpec) (line : Line) (column : Nat) : List Cell :=
  let count := d.multi.length
  let j := ((d.multi.take (column + 1)).zipIdx).foldl
    (fun j (l, i) => Joint.add spec line (i == column) j l) {}
  let isColumnOf (m : Mark) : Bool :=
    match d.multi[column]? with
    | some l => l.id == m.label.id
    | none => false
  let horizontal :=
    match j.pointer, spec.isLine with
    | some (m, _), true =>
      if !isColumnOf m && column + 1 != count then firstLabel j.horizontal (some m.label)
      else j.horizontal
    | _, _ => j.horizontal
  let horizontal := horizontal.filter fun l => !isMarkOf spec.marginMark l || !spec.isLine
  match j.corner with
  | some (l, isStart) =>
    [(some l.color, if isStart then '╭' else '╰'), (some l.color, '─')]
  | none =>
    match horizontal with
    | some l => [(some l.color, '─'), (some l.color, '─')]
    | none =>
      match j.vertical with
      | some l => [(some l.color, if spec.isEllipsis then '┆' else '│'), emptyCell]
      | none =>
        match j.pointer, spec.isLine with
        | some (m, isStart), true =>
          let isLimit := column == count
          let color := some m.label.color
          [(color,
              if isLimit then '▶'
              else if isColumnOf m then (if isStart then '╭' else '├')
              else '─'),
            (color, if isLimit then ' ' else '─')]
        | _, _ => [emptyCell, emptyCell]

/-- The columns of the margin. -/
def marginColumns : Nat := if d.multi.isEmpty then 0 else d.multi.length + 1

/-- The margin before a row: the number of the line or space, a bar, and
the columns of labels over several lines. -/
def margin (spec : MarginSpec) (drawLabels : Bool) : String :=
  let number :=
    if spec.isLine && !spec.isEllipsis then
      let text := toString (spec.index + 1)
      paint d.colored (some marginColor) (spaces (d.numberWidth - text.length) ++ text ++ " │")
    else
      paint d.colored (some skippedMarginColor)
        (spaces (d.numberWidth + 1) ++ if spec.isEllipsis then "┆" else "│")
  let line := d.lines.getD spec.index default
  let columns :=
    if drawLabels then
      d.cells ((List.range d.marginColumns).flatMap (d.columnCells spec line))
    else ""
  " " ++ number ++ " " ++ columns

/-! ### Marks on a line -/

/-- The mark of a label over several lines on its first or last line. -/
def multiMark? (line : Line) (l : Label) (atStart : Bool) : Option Mark :=
  if line.contains l.start && atStart then
    some ⟨l.start - line.offset, l, true, false⟩
  else if line.contains l.last then
    some ⟨l.last - line.offset, l, true, true⟩
  else
    none

/-- The label over several lines whose arrow is drawn on the line itself:
the one that begins or ends furthest left. -/
def marginMark (line : Line) : Option Mark :=
  leastBy markStrictlyBefore (d.multi.filterMap fun l => multiMark? line l true)

/-- The marks to be drawn below a line, from left to right. -/
def marksOf (line : Line) : List Mark :=
  let marginMark := d.marginMark line
  let multi := d.multi.filterMap fun l => multiMark? line l (!isMarkOf marginMark l)
  let inside := d.labels.filter fun l =>
    line.offset ≤ l.start && l.stop ≤ line.stop && !l.multiline
  let single := inside.map fun l =>
    (⟨max ((l.start + l.stop) / 2) l.start - line.offset, l, false, true⟩ : Mark)
  sortBy markBefore (multi ++ single)

/-! ### Lines and arrows -/

/-- The characters of a line that are shown. -/
def shownText (line : Line) : List Char := dropEndWhile isBlank line.text

/-- The width of tab stops. -/
def tabWidth : Nat := 4

/-- What is shown for a character at a column, and in how many cells. -/
def shownChar (c : Char) (column : Nat) : Char × Nat :=
  if c = '\t' then (' ', (column / tabWidth + 1) * tabWidth - column)
  else if isBlank c then (' ', 1)
  else (c, if c.toNat < 0x20 || (0x7F ≤ c.toNat && c.toNat < 0xA0) then 1 else charWidth c)

/-- Whether one label is shorter than another. -/
def shorter (a b : Label) : Bool := a.length < b.length

/-- The label whose color a character of a line takes: the shortest one
that covers it. -/
def highlight (line : Line) (marks : List Mark) (column : Nat) : Option Label :=
  let marginLabels := ((d.marginMark line).map Mark.label).toList
  leastBy shorter
    ((marginLabels ++ d.multi ++ marks.map Mark.label).filter (·.contains (line.offset + column)))

/-- The text of a line in the colors of its labels. -/
def lineText (line : Line) (marks : List Mark) : String :=
  String.join ((shownText line).zipIdx.map fun (c, column) =>
    let color :=
      match d.highlight line marks column with
      | some l => l.color
      | none => plainColor
    let (shown, width) := shownChar c column
    if isBlank shown then String.join (List.replicate width (d.cell (some color, shown)))
    else d.cell (some color, shown))

/-- The mark whose arrow passes a column at a row. -/
def arrowAt (line : Line) (marks : List Mark) (column row : Nat) : Option Mark :=
  let marginMark := d.marginMark line
  (marks.zipIdx.find? fun (m, j) =>
    !isMarkOf marginMark m.label && m.column == column && row ≤ j).map Prod.fst

/-- The label that underlines a column: the shortest one. -/
def underlineAt (line : Line) (marks : List Mark) (column : Nat) : Option Label :=
  leastBy shorter ((marks.filter fun m =>
    !m.multi && m.label.contains (line.offset + column)).map Mark.label)

/-- The number of cells in which arrows are drawn below a line. -/
def arrowLength (line : Line) (marks : List Mark) : Nat :=
  marks.foldl (fun n m => if m.multi then line.length else max n (m.label.stop - line.offset)) 0
    + 2

/-- Cells below a line, one or more for each column, as wide as the
character above. -/
def below (line : Line) (length : Nat) (draw : Nat → Cell × Cell) : List Cell :=
  let text := (shownText line).toArray
  (List.range length).flatMap fun column =>
    let width :=
      match text[column]? with
      | some c => (shownChar c column).2
      | none => 1
    let (first, rest) := draw column
    match width with
    | 0 => []
    | n + 1 => first :: List.replicate n rest

/-- The row above an arrow: the underlines, below the first of which
there are only arrows on their way. -/
def leadCells (line : Line) (marks : List Mark) (row column : Nat) : Cell × Cell :=
  let underline := if row = 0 then underlineAt line marks column else none
  match d.arrowAt line marks column row with
  | some m =>
    let color := some m.label.color
    if underline.isSome then ((color, '┬'), (color, '─'))
    else if m.multi && row == 0 then ((color, '▲'), (color, ' '))
    else ((color, '│'), (color, ' '))
  | none =>
    match underline with
    | some l => ((some l.color, '─'), (some l.color, '─'))
    | none => (emptyCell, emptyCell)

/-- The row of an arrow, which ends before the message. -/
def arrowCells (line : Line) (marks : List Mark) (mark : Mark) (row column : Nat) :
    Cell × Cell :=
  let color := some mark.label.color
  let isHorizontal :=
    (decide (mark.column < column) ^^ mark.multi)
      || (mark.drawMessage && decide (mark.column < column))
  if column = mark.column && !isMarkOf (d.marginMark line) mark.label then
    ((color, if mark.multi then (if mark.drawMessage then '┴' else '╯') else '╰'), (color, '─'))
  else
    match d.arrowAt line marks column row with
    | some m =>
      if isHorizontal then ((color, '─'), (color, '─'))
      else ((some m.label.color, '│'), (color, ' '))
    | none =>
      if isHorizontal then ((color, '─'), (color, '─')) else (emptyCell, emptyCell)

/-- The rows below a line for one of its marks. -/
def markRows (index : Nat) (line : Line) (marks : List Mark) (mark : Mark) (row : Nat) :
    String :=
  let length := arrowLength line marks
  let spec (isArrow : Bool) : MarginSpec :=
    ⟨index, false, false, some ⟨row, isArrow⟩, marks, d.marginMark line⟩
  d.margin (spec false) true
    ++ d.cells (below line length (d.leadCells line marks row)) ++ "\n"
    ++ d.margin (spec true) true
    ++ d.cells (below line length (d.arrowCells line marks mark row))
    ++ (if mark.drawMessage then " " ++ mark.label.message else "") ++ "\n"

/-- A line with its text and its marks. -/
def labelledLine (index : Nat) (line : Line) (marks : List Mark) : String :=
  d.margin ⟨index, true, false, none, marks, d.marginMark line⟩ true
    ++ d.lineText line marks ++ "\n"
    ++ String.join (marks.zipIdx.map fun (m, row) => d.markRows index line marks m row)

/-- The row for lines that are left out inside a label. -/
def gapInside (index : Nat) : String :=
  d.margin ⟨index, true, true, none, [], none⟩ true ++ "\n"

/-- The row for lines that are left out between labels. -/
def gapBetween (index : Nat) : String :=
  d.margin ⟨index, false, false, none, [], none⟩ false ++ "\n"

/-- The lines from a number on. A run of lines without labels is drawn as
one row; `skipped` tells that the row has been drawn. -/
def linesFrom (skipped : Bool) : List (Line × Nat) → String
  | [] => ""
  | (line, index) :: rest =>
    let marks := d.marksOf line
    if marks.isEmpty && (d.marginMark line).isNone then
      let inside := d.multi.any (·.contains line.offset)
      if skipped then linesFrom true rest
      else (if inside then d.gapInside index else d.gapBetween index) ++ linesFrom true rest
    else
      d.labelledLine index line marks ++ linesFrom false rest

/-- The margin before a help. -/
def helpMargin : String := d.margin ⟨0, false, false, some ⟨0, false⟩, [], none⟩ true

/-- A help below the lines, its further lines indented. -/
def helpText (help : String) : String :=
  d.helpMargin ++ "\n"
    ++ String.join ((feedLines help.toList).zipIdx.map fun (l, i) =>
      d.helpMargin
        ++ (if i = 0 then paint d.colored (some noteColor) "Help" ++ ": " else spaces 6)
        ++ String.ofList l ++ "\n")

end Drawing

end Formula.Report
