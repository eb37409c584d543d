/-
  TsProject.Diagnostic.Frame — the lines of source shown under a diagnostic.

  A frame shows the lines a span touches, each with its number and a row of marks
  below it. Of five or more lines only the first two and the last two are shown. A
  line is shown without the blanks at its end and with blanks for tabs. On the first
  line the marks start at the span, on the last one they end with it.
-/

import TsProject.Source
import TsProject.Text.Blank

namespace TsProject

inductive FrameLine where
  /-- A line by its number from 0, its text as shown and the marks below it. -/
  | code (number : Nat) (shown marks : Text)
  | ellipsis
  deriving DecidableEq

structure Frame where
  /-- The width of the column of line numbers. -/
  gutter : Nat
  lines : List FrameLine

namespace Frame

open CodePoint

def ellipsisText : Text := Text.of "..."

/-- The nearest position of a text of the given length. -/
def clamp (length : Nat) (position : Int) : Nat := min position.toNat length

/-- The text of a line as shown. It ends where the next line starts; the last line ends with the text. -/
def shownLine (file : SourceFile) (line : Nat) : Except SpanError Text := do
  let lastLine := (Lines.locate file.lineStarts file.text.length).1
  let start ← file.position line 0
  let stop ← if line < lastLine then file.position (line + 1 : Nat) 0 else .ok file.text.length
  return (Text.trimEnd Text.isBlank ((file.text.take stop.toNat).drop start.toNat)).map fun c => if c = tab then space else c

def mark (n : Nat) : Text := List.replicate n '~'.toNat

/-- The part of a line before the span, with blanks for all that is none. -/
def lead (shown : Text) (column : Nat) : Text :=
  (shown.take column).map fun c => if Text.isBlank c then c else space

/-- The marks below a line of a span from `first` to `last`, both a line and a column. -/
def marksOf (first last : Nat × Nat) (line : Nat) (shown : Text) : Text :=
  if line = first.1 then
    let covered := if line = last.1 then shown.take last.2 else shown
    lead shown first.2 ++ mark (covered.drop first.2).length
  else if line = last.1 then mark (shown.take last.2).length
  else mark shown.length

def codeLine (file : SourceFile) (first last : Nat × Nat) (line : Nat) : Except SpanError FrameLine := do
  let shown ← shownLine file line
  return .code line shown (marksOf first last line shown)

/-- Of five or more lines those between the first two and the last two are not shown. -/
def isSkipped (first last line : Nat) : Bool := decide (first + 4 ≤ last ∧ first + 1 < line ∧ line < last - 1)

/-- The lines of a frame from this one on. Where one is skipped, all are up to the last but one. -/
def linesFrom (file : SourceFile) (first last : Nat × Nat) (line : Nat) : Except SpanError (List FrameLine) :=
  if line ≤ last.1 then do
    if isSkipped first.1 last.1 line then
      let shown ← codeLine file first last (last.1 - 1)
      let rest ← linesFrom file first last (last.1 - 1 + 1)
      return .ellipsis :: shown :: rest
    else
      let shown ← codeLine file first last line
      let rest ← linesFrom file first last (line + 1)
      return shown :: rest
  else return []
termination_by last.1 + 1 - line
decreasing_by
  · rename_i hskipped
    have := (of_decide_eq_true hskipped).2.2
    omega
  · omega

def ofSpan (file : SourceFile) (start length : Int) : Except SpanError Frame := do
  let startAt := clamp file.text.length start
  let stopAt := clamp file.text.length (startAt + length)
  let first := Lines.locate file.lineStarts startAt
  let last := Lines.locate file.lineStarts stopAt
  let numberWidth := (Text.ofNat (last.1 + 1)).length
  let gutter := if first.1 + 4 ≤ last.1 then max ellipsisText.length numberWidth else numberWidth
  let lines ← linesFrom file first last first.1
  return { gutter, lines }

end Frame

end TsProject
