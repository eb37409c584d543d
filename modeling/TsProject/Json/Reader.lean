/-
  TsProject.Json.Reader — strict JSON.

  One value with blanks around it. `NaN`, `Infinity` and `-Infinity` count as numbers;
  two surrogate escapes in a row are one code point; control characters must be
  escaped. A text that starts with a byte order mark is not JSON.
-/

import TsProject.Json5

namespace TsProject.Json

open CodePoint Json5.Reader

abbrev Reader := Json5.Reader

def isBlank (c : CodePoint) : Bool := c == space || c == tab || c == lineFeed || c == carriageReturn

def blanks : Reader Unit := do let _ ← many (satisfy isBlank)

/-! ## Strings -/

def escapes : List (Char × CodePoint) :=
  [('"', quote), ('\\', backslash), ('/', slash), ('b', backspace), ('f', formFeed), ('n', lineFeed),
   ('r', carriageReturn), ('t', tab)]

/-- An escaped code point below U+10000. -/
def unit : Reader CodePoint := do
  let _ ← char backslash
  Json5.unicodeEscape

def lowUnit : Reader CodePoint := do
  let c ← unit
  if isLowSurrogate c then return c else fail

/-- An escaped code point; a high surrogate takes an escaped low one with it. -/
def escapedPoint : Reader CodePoint := do
  let c ← unit
  if isHighSurrogate c then
    match ← optional lowUnit with
    | some low => return ofSurrogates c low
    | none => return c
  else return c

def element : Reader CodePoint :=
  firstOf <|
    (satisfy fun c => c != quote && c != backslash && decide (0x20 ≤ c))
    :: (escapes.map fun e => do
      let _ ← char backslash
      let _ ← char e.1.toNat
      return e.2)
    ++ [escapedPoint]

def string : Reader Text := do
  let _ ← char quote
  let t ← many element
  let _ ← char quote
  return t

/-! ## Numbers -/

def digits : Reader Text := atLeastOne (satisfy isDigit)

def whole : Reader Text :=
  firstOf [
    do
      let _ ← char zero
      return [zero],
    do
      let c ← satisfy (isBetween 0x31 0x39)
      let cs ← many (satisfy isDigit)
      return c :: cs]

def fraction : Reader Text := do
  let _ ← char dot
  digits

def exponent : Reader Text := do
  let _ ← satisfy (Text.of "eE").contains
  let sign ← optional (satisfy (Text.of "+-").contains)
  let ds ← digits
  return sign.toList ++ ds

def number : Reader Value := do
  let negative := (← optional (char minus)).isSome
  let ds ← whole
  let frac ← optional fraction
  let exp ← optional exponent
  if frac.isNone && exp.isNone then return .int (Json5.signed negative (Text.decimalNumber ds))
  else
    match (Json5.Decimal.mk ds (frac.getD []) exp).double? with
    | none => fail
    | some x => return .double (if negative then x.neg else x)

/-! ## Values -/

def word {α : Type} (w : String) (a : α) : Reader α := do
  literal (Text.of w)
  return a

def comma : Reader Unit := do
  blanks
  let _ ← char CodePoint.comma
  blanks

/-- Items between brackets, with a comma between two of them. -/
def bracketed {α : Type} (opening closing : CodePoint) (item : Reader α) : Reader (List α) := do
  let _ ← char opening
  blanks
  let items ← optional (separated item comma)
  blanks
  let _ ← char closing
  return items.getD []

def member (value : Reader Value) : Reader (Text × Value) := do
  let k ← string
  blanks
  let _ ← char colon
  blanks
  return (k, ← value)

/-- A value whose parts are read by the given reader. -/
def valueOver (value : Reader Value) : Reader Value :=
  firstOf [
    .text <$> string,
    (fun fs => .object (Fields.ofList fs)) <$> bracketed braceOpen braceClose (member value),
    .array <$> bracketed bracketOpen bracketClose value,
    word "null" .null, word "true" (.bool true), word "false" (.bool false),
    word "NaN" (.double Double.nan), word "Infinity" (.double Double.infinity),
    word "-Infinity" (.double Double.infinity.neg),
    number]

/-- A value. Its parts start behind a bracket, where less is left than at its own start. -/
def value (s : Text) : Json5.Outcome Value :=
  valueOver (fun t => if t.length < s.length then value t else ⟨none, none⟩) s
termination_by s.length

def document : Reader Value := do
  blanks
  let v ← value
  blanks
  atEnd
  return v

/-- The value of a JSON text, if it is one. -/
def parse? (s : Text) : Option Value := (document s).result.map (·.1)

end TsProject.Json
