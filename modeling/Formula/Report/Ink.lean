/-!
# `Formula.Report.Ink`: colors

Colors of a terminal, text painted in them, and the sequence of colors
that tells labels apart.
-/

set_option autoImplicit false

namespace Formula.Report

/-- A color. -/
inductive Color where
  | red
  | yellow
  /-- a color of the palette of 256 -/
  | palette (n : Nat)
deriving DecidableEq, Inhabited

/-- The code that switches a color on. -/
def Color.code : Color → String
  | .red => "31"
  | .yellow => "33"
  | .palette n => s!"38;5;{n}"

/-- A text in a color, if there is one and colors are used. -/
def paint (colored : Bool) (color : Option Color) (text : String) : String :=
  match color with
  | some c => if colored then s!"\x1b[{c.code}m{text}\x1b[0m" else text
  | none => text

/-- The color of margins. -/
def marginColor : Color := .palette 246

/-- The color of margins beside lines that show no text. -/
def skippedMarginColor : Color := .palette 240

/-- The color of text without a label. -/
def plainColor : Color := .palette 249

/-- The color of the word before a help. -/
def noteColor : Color := .palette 115

/-- The state of the sequence of label colors. -/
structure ColorState where
  red : Nat
  green : Nat
  blue : Nat

namespace ColorState

/-- The state before the first color. -/
def initial : ColorState := ⟨30000, 15000, 35000⟩

/-- The next state: each part moves by a step of its own modulo
`2 ^ 16`. -/
def next (s : ColorState) : ColorState :=
  ⟨(s.red + 40503 * 1130) % 65536, (s.green + 40503 * 1134) % 65536,
    (s.blue + 40503 * 1138) % 65536⟩

/-- The color of a state, from the brighter half of the palette. -/
def color (s : ColorState) : Color :=
  .palette (16 + (5 * s.blue + 30 * s.green + 180 * s.red + 215 * 65535) / (2 * 65535))

end ColorState

/-- The colors of the labels of a report; the first color of the sequence
is left out. -/
def labelColors (count : Nat) : List Color :=
  go count ColorState.initial.next.next
where
  /-- A number of colors from a state on. -/
  go : Nat → ColorState → List Color
    | 0, _ => []
    | n + 1, s => s.color :: go n s.next

end Formula.Report
