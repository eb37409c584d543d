/-
  TsProject.Source — source files: text, lines and spans.

  A file owns its text and its syntax tree. The tree counts bytes of the encoded
  text; every offset handed out here counts code points.

  (1) The kind of a file. (2) Lines: a line ends behind LF, CR, CR LF, U+2028 or
  U+2029, and positions and pairs of line and column are converted both ways.
  (3) Spans of nodes. (4) What the parser is given.
-/

import TsProject.Source.Tree
import TsProject.Text.Case
import TsProject.Text.Quoted
import TsProject.Text.Utf8

namespace TsProject

open CodePoint Text

/-! ## (1) The kind of a file -/

inductive ScriptKind where
  | js
  | jsx
  | ts
  | tsx
  deriving DecidableEq

namespace ScriptKind

def name : ScriptKind → Text
  | .js => Text.of "js"
  | .jsx => Text.of "jsx"
  | .ts => Text.of "ts"
  | .tsx => Text.of "tsx"

def byExtension : List (Text × ScriptKind) :=
  [(Text.of ".mts", .ts), (Text.of ".cts", .ts), (Text.of ".tsx", .tsx), (Text.of ".ts", .ts), (Text.of ".jsx", .jsx),
   (Text.of ".mjs", .js), (Text.of ".cjs", .js), (Text.of ".js", .js)]

/-- The kind of a file by its extension in any case; TypeScript if the extension is unknown. -/
def ofFileName (fileName : Text) : ScriptKind :=
  ((byExtension.find? fun e => Text.endsWith (Text.lower fileName) e.1).map (·.2)).getD .ts

end ScriptKind

/-! ## (2) Lines -/

namespace Lines

/-- The positions behind the line ends of a text that starts at the given position. -/
def startsAfter (position : Nat) : Text → List Nat
  | [] => []
  | carriageReturn :: lineFeed :: s => (position + 2) :: startsAfter (position + 2) s
  | c :: s => if isLineBreak c then (position + 1) :: startsAfter (position + 1) s else startsAfter (position + 1) s

/-- Where the lines of a text start. -/
def starts (s : Text) : List Nat := 0 :: startsAfter 0 s

/-- The line a position lies on and its column there. -/
def locate (starts : List Nat) (position : Nat) : Nat × Nat :=
  let line := (starts.filter fun start => decide (start ≤ position)).length - 1
  (line, position - (starts[line]?).getD 0)

/-- `locate` for any integer: a position before the text lies on line -1, and its column is counted from
the start of the last line. -/
def lineAndColumn (starts : List Nat) : Int → Int × Int
  | .ofNat position => let (line, column) := locate starts position; (line, column)
  | .negSucc n => (-1, .negSucc n - (starts.getLast?.getD 0 : Nat))

/-- The position of a column on a line, if there is such a line. -/
def position? (starts : List Nat) (line column : Int) : Option Int :=
  if line < 0 then none else (starts[line.toNat]?).map fun start => start + column

end Lines

/-! ## (3) Spans of nodes -/

structure SourceFile where
  name : Text
  text : Text
  kind : ScriptKind
  root : Node

inductive SpanError where
  /-- A byte offset lies inside the encoding of a code point. -/
  | insideCodePoint
  /-- The span of a node, in code points, does not lie in the file of this name and length. -/
  | outside (start stop : Int) (file : Text) (length : Nat)
  | noSuchLine (line : Int) (file : Text)
  deriving DecidableEq

def SpanError.message : SpanError → Text
  | .insideCodePoint => Text.of "a byte offset lies inside a code point"
  | .noSuchLine line file => Text.of "Line " ++ Text.ofInt line ++ Text.of " out of range for " ++ file
  | .outside start stop file length =>
    Text.of "Node span " ++ Text.ofInt start ++ Text.of ".." ++ Text.ofInt stop ++ Text.of " is outside " ++ file
      ++ Text.of " (" ++ Text.ofNat length ++ Text.of " chars)"

namespace SourceFile

def lineStarts (f : SourceFile) : List Nat := Lines.starts f.text

/-- The position of a column on a line of the file. -/
def position (f : SourceFile) (line column : Int) : Except SpanError Int :=
  match Lines.position? f.lineStarts line column with
  | some p => .ok p
  | none => .error (.noSuchLine line f.name)

/-- A one-line description. -/
def display (f : SourceFile) : Text :=
  Text.of "SourceFile(" ++ Text.quoted f.name ++ Text.of ", kind=" ++ f.kind.name ++ Text.of ")"

def bytes (f : SourceFile) : List Utf8.Byte := Utf8.encode f.text

/-- How many bytes stand before an offset: past the end all of them, and a
negative offset counts from the end. -/
def keptBytes (size : Nat) (offset : Int) : Nat := (if offset < 0 then size + offset else offset).toNat

/-- The code point a byte offset stands before. In an ASCII text the two counts are one. -/
def charOffset (f : SourceFile) (byte : Int) : Except SpanError Int :=
  if Text.isAsciiOnly f.text then .ok byte
  else match Utf8.decode? true (f.bytes.take (keptBytes f.bytes.length byte)) with
    | none => .error .insideCodePoint
    | some s => .ok s.length

def startOf (f : SourceFile) (n : Node) : Except SpanError Int := f.charOffset n.startByte

def endOf (f : SourceFile) (n : Node) : Except SpanError Int := f.charOffset n.endByte

def widthOf (f : SourceFile) (n : Node) : Except SpanError Int := do
  let stop ← f.endOf n
  let start ← f.startOf n
  return stop - start

/-- The text of the bytes a node spans. -/
def textOf (f : SourceFile) (n : Node) : Except SpanError Text :=
  match Utf8.decode? true ((f.bytes.take n.endByte).drop n.startByte) with
  | none => .error .insideCodePoint
  | some s => .ok s

end SourceFile

/-! ## (4) What the parser is given -/

/-- A parser of one kind of file, from bytes to a tree. -/
abbrev Grammar := ScriptKind → List Utf8.Byte → Node

/-- A parser takes NUL for the end of its input and knows no surrogates: NUL is replaced by U+0001 and
a surrogate by U+FFFD, which take as many bytes. -/
def forParser (s : Text) : Text := s.map fun c => if c = 0 then 1 else if isSurrogate c then 0xFFFD else c

def SourceFile.parse (grammar : Grammar) (name text : Text) (kind : ScriptKind) : SourceFile :=
  { name, text, kind, root := grammar kind (Utf8.encode (forParser text)) }

end TsProject
