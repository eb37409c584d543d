/-
  TsProject.Diagnostic.Render — diagnostics as text for a terminal.

  A diagnostic is laid out as segments, pieces of text with an optional style:
  where it is, its category and code, its message, the frame of its span, and its
  related locations, indented. With colour a styled segment is enclosed in control
  sequences; without, styles have no effect. An empty segment is always empty.
-/

import TsProject.Diagnostic
import TsProject.Diagnostic.Frame
import TsProject.Path

namespace TsProject

/-! ## Segments -/

inductive Style where
  | cyan
  | yellow
  | grey
  | red
  | blue
  | reverse
  deriving DecidableEq

/-- The number that selects a style: a bright colour of the 16, or reverse video. -/
def Style.code : Style → Nat
  | .cyan => 96
  | .yellow => 93
  | .grey => 90
  | .red => 91
  | .blue => 94
  | .reverse => 7

structure Segment where
  text : Text
  style : Option Style := none

def Segment.coloured (s : Segment) : Text :=
  match s.style with
  | some style =>
    if s.text.isEmpty then []
    else Text.of "\x1b[" ++ Text.ofNat style.code ++ Text.of "m" ++ s.text ++ Text.of "\x1b[0m"
  | none => s.text

def Category.style : Category → Style
  | .warning => .yellow
  | .error => .red
  | .suggestion => .grey
  | .message => .blue

/-! ## Layout -/

/-- How file names and lines are shown. -/
structure Display where
  /-- File names are shown relative to this directory. -/
  currentDirectory : Text
  newLine : Text := [CodePoint.lineFeed]
  /-- The form in which segments of paths are compared. -/
  canonical : Text → Text := id

namespace Display

def plain (t : Text) : Segment := ⟨t, none⟩

def styled (s : Style) (t : Text) : Segment := ⟨t, some s⟩

def location (d : Display) (file : SourceFile) (start : Int) : List Segment :=
  let (line, column) := Lines.locate file.lineStarts (Frame.clamp file.text.length start)
  [styled .cyan (Path.relativeTo file.name d.currentDirectory d.canonical), plain (Text.of ":"),
   styled .yellow (Text.ofNat (line + 1)), plain (Text.of ":"), styled .yellow (Text.ofNat (column + 1))]

def gutter (width : Nat) (t : Text) : Segment := styled .reverse (Text.alignRight width t)

def frameLine (d : Display) (indent : Text) (marks : Style) (width : Nat) : FrameLine → List Segment
  | .ellipsis => [plain d.newLine, plain indent, gutter width Frame.ellipsisText, plain (Text.of " ")]
  | .code number shown row =>
    [plain d.newLine, plain indent, gutter width (Text.ofNat (number + 1)), plain (Text.of " " ++ shown ++ d.newLine),
     plain indent, gutter width [], plain (Text.of " "), styled marks row]

/-- The frame of a span. There always is one, since every line it asks for is a line of the file. -/
def frame (d : Display) (indent : Text) (marks : Style) (file : SourceFile) (start length : Int) : List Segment :=
  match Frame.ofSpan file start length with
  | .ok f => f.lines.flatMap (d.frameLine indent marks f.gutter)
  | .error _ => []

def indent : Text := Text.of "    "

def related (d : Display) (l : Location) : List Segment :=
  let place := match l.file, l.start with
    | some file, some start =>
      plain (d.newLine ++ Text.of "  ") :: d.location file start ++ d.frame indent .cyan file start (l.length.getD 0)
    | _, _ => []
  place ++ [plain (d.newLine ++ indent ++ l.message.flatten d.newLine 0)]

def diagnostic (d : Display) (x : Diagnostic) : List Segment :=
  let (place, frame) := match x.file, x.start with
    | some file, some start =>
      (d.location file start ++ [plain (Text.of " - ")],
       plain d.newLine :: d.frame [] x.category.style file start (x.length.getD 0))
    | _, _ => ([], [])
  let heading :=
    [styled x.category.style x.category.name, styled .grey (Text.of " TS" ++ Text.ofInt x.code ++ Text.of ": "),
     plain (x.message.flatten d.newLine 0)]
  let below := match x.related with
    | some ls => plain d.newLine :: ls.flatMap d.related
    | none => []
  place ++ heading ++ frame ++ below ++ [plain d.newLine]

def render (d : Display) (colour : Bool) (xs : List Diagnostic) : Text :=
  (xs.flatMap d.diagnostic).flatMap fun s => if colour then s.coloured else s.text

end Display

end TsProject
