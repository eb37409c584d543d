/-
  TsProject.Json5.Grammar — the syntax of JSON5.

  JSON with comments, single quotes, trailing commas, unquoted keys and more ways to
  write a number. `document` reads a whole text into a `Term`, in which numbers are
  still as written.

  (1) Blanks and comments. (2) Strings. (3) Identifiers. (4) Numbers. (5) Values.
-/

import TsProject.Json5.Reader
import TsProject.Text.Blank
import TsProject.Text.Letter

namespace TsProject.Json5

open CodePoint Reader

inductive Numeral where
  | hexadecimal (negative : Bool) (digits : Text)
  /-- A decimal as written, less a leading plus, the mark of the exponent in lower case. -/
  | decimal (written : Text)
  | infinity (negative : Bool)
  | nan

inductive Term where
  | null
  | bool (b : Bool)
  | text (t : Text)
  | number (n : Numeral)
  | array (items : List Term)
  | object (members : List (Text × Term))

/-! ## (1) Blanks and comments -/

def lineEnd : Reader Unit :=
  firstOf [literal [carriageReturn, lineFeed], literal [carriageReturn], literal [lineFeed],
    literal [lineSeparator], literal [paragraphSeparator]]

/-- Any code point that does not start the given one. -/
def anyBut (stop : Reader Unit) : Reader CodePoint := do
  notAhead stop
  any

def comment : Reader Unit :=
  firstOf [
    do
      literal [slash, slash]
      let _ ← many (anyBut lineEnd),
    do
      literal [slash, asterisk]
      let _ ← many (anyBut (literal [asterisk, slash]))
      literal [asterisk, slash]]

def blank : Reader Unit :=
  firstOf [literal [space], lineEnd, comment, literal [tab], literal [verticalTab], literal [formFeed],
    literal [0xA0], literal [byteOrderMark], do let _ ← satisfy Text.isSpaceSeparator]

def blanks : Reader Unit := do let _ ← many blank

/-! ## (2) Strings -/

def digit : Reader CodePoint := satisfy isDigit

def hexDigits (n : Nat) : Reader Text :=
  match n with
  | 0 => succeed []
  | n + 1 => do
    let c ← satisfy isHexDigit
    let cs ← hexDigits n
    return c :: cs

/-- The code point that four hexadecimal digits after a `u` name. -/
def unicodeEscape : Reader CodePoint := do
  let _ ← char 'u'.toNat
  Text.hexNumber <$> hexDigits 4

def singleEscapes : List (Char × CodePoint) :=
  [('b', backspace), ('f', formFeed), ('n', lineFeed), ('r', carriageReturn), ('t', tab), ('v', verticalTab),
   ('\'', apostrophe), ('"', quote), ('\\', backslash)]

/-- What may follow a backslash in a string. -/
def escape : Reader CodePoint :=
  firstOf <| (singleEscapes.map fun e => do
      let _ ← char e.1.toNat
      return e.2) ++ [
    do
      notAhead (firstOf [literal (Text.of "x"), literal (Text.of "u"), (do let _ ← digit), lineEnd])
      any,
    do
      let _ ← char zero
      notAhead digit
      return 0,
    do
      let _ ← char 'x'.toNat
      Text.hexNumber <$> hexDigits 2,
    unicodeEscape]

/-- One element of a string in the given quotes; a line continuation stands for nothing. -/
def stringElement (mark : CodePoint) : Reader Text :=
  firstOf [
    do
      notAhead (firstOf [char backslash, char mark, char carriageReturn, char lineFeed])
      return [← any],
    do
      let _ ← char backslash
      return [← escape],
    do
      let _ ← char backslash
      lineEnd
      return []]

def quoted (mark : CodePoint) : Reader Text := do
  let _ ← char mark
  let parts ← many (stringElement mark)
  let _ ← char mark
  return parts.flatten

def string : Reader Text := firstOf [quoted apostrophe, quoted quote]

/-! ## (3) Identifiers -/

def asciiStart : Reader CodePoint :=
  firstOf [satisfy isAsciiLower, satisfy isAsciiUpper, char dollar, char underscore]

def letter : Reader CodePoint := satisfyTaken Text.isLetter

def escapedPoint : Reader CodePoint := do
  let _ ← char backslash
  unicodeEscape

def identifierStart : Reader CodePoint := firstOf [asciiStart, letter, escapedPoint]

def identifierPart : Reader CodePoint :=
  firstOf [asciiStart, digit, letter, satisfyTaken Text.isMark, escapedPoint, char 0x200C, char 0x200D]

def identifier : Reader Text := do
  let c ← identifierStart
  let cs ← many identifierPart
  return c :: cs

/-! ## (4) Numbers -/

def integerPart : Reader Text :=
  firstOf [
    do
      let _ ← char zero
      notAhead digit
      return [zero],
    do
      let c ← satisfy (isBetween 0x31 0x39)
      let cs ← many digit
      return c :: cs]

def fraction : Reader Text := do
  let _ ← char dot
  let ds ← many digit
  return dot :: ds

def exponent : Reader Text :=
  firstOf [
    do
      let _ ← satisfy (Text.of "eE").contains
      let sign ← satisfy (Text.of "+-").contains
      let ds ← many digit
      return 'e'.toNat :: sign :: ds,
    do
      let _ ← satisfy (Text.of "eE").contains
      let ds ← many digit
      return 'e'.toNat :: ds]

/-- Parts one after the other. -/
def inSequence : List (Reader Text) → Reader Text
  | [] => succeed []
  | p :: ps => do
    let a ← p
    let rest ← inSequence ps
    return a ++ rest

def decimal : Reader Text :=
  firstOf [inSequence [integerPart, fraction, exponent], inSequence [integerPart, fraction],
    inSequence [integerPart, exponent], integerPart, inSequence [fraction, exponent], fraction]

def unsigned (negative : Bool) : Reader Numeral :=
  firstOf [
    do
      let ds ← decimal
      notAhead identifierStart
      return .decimal (if negative then minus :: ds else ds),
    do
      firstOf [literal (Text.of "0x"), literal (Text.of "0X")]
      return .hexadecimal negative (← atLeastOne (satisfy isHexDigit)),
    do
      literal (Text.of "Infinity")
      return .infinity negative,
    do
      literal (Text.of "NaN")
      return .nan]

def number : Reader Numeral :=
  firstOf [
    do
      let _ ← char minus
      unsigned true,
    do
      let _ ← char plus
      unsigned false,
    unsigned false]

/-! ## (5) Values -/

def comma : Reader Unit := do
  blanks
  let _ ← char CodePoint.comma

/-- One or more items between brackets, a last comma allowed, or nothing between them. -/
def bracketed {α : Type} (opening closing : CodePoint) (item : Reader α) : Reader (List α) :=
  firstOf [
    do
      let _ ← char opening
      blanks
      let items ← separated item (do comma; blanks)
      blanks
      let _ ← optional (char CodePoint.comma)
      blanks
      let _ ← char closing
      return items,
    do
      let _ ← char opening
      blanks
      let _ ← char closing
      return []]

def memberWith (key : Reader Text) (value : Reader Term) : Reader (Text × Term) := do
  let k ← key
  blanks
  let _ ← char colon
  blanks
  return (k, ← value)

def member (value : Reader Term) : Reader (Text × Term) :=
  firstOf [memberWith string value, memberWith identifier value]

/-- A value whose parts are read by the given reader. -/
def valueOver (value : Reader Term) : Reader Term :=
  firstOf [
    do
      literal (Text.of "null")
      return .null,
    do
      literal (Text.of "true")
      return .bool true,
    do
      literal (Text.of "false")
      return .bool false,
    .object <$> bracketed braceOpen braceClose (member value),
    .array <$> bracketed bracketOpen bracketClose value,
    .text <$> string,
    .number <$> number]

/-- A value. Its parts start behind a bracket, where less is left than at its own start. -/
def value (s : Text) : Outcome Term :=
  valueOver (fun t => if t.length < s.length then value t else ⟨none, none⟩) s
termination_by s.length

/-- A whole text that holds one value. -/
def document : Reader Term := do
  blanks
  let v ← value
  blanks
  atEnd
  return v

end TsProject.Json5
