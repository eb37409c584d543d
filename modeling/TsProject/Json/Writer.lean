/-
  TsProject.Json.Writer — JSON text in ASCII.

  A `Document` is what diagnostics and lists of specs are written from: texts,
  integers, lists and objects in their order. Texts are quoted in printable ASCII,
  a code point above U+FFFF as its two surrogates.
-/

import TsProject.Text.Basic

namespace TsProject.Json

open CodePoint

inductive Document where
  | text (t : Text)
  | int (n : Int)
  | list (items : List Document)
  | object (fields : List (Text × Document))

/-! ## Quoting -/

def hex4 (n : Nat) : Text :=
  [hexDigit (n / 0x1000 % 16), hexDigit (n / 0x100 % 16), hexDigit (n / 0x10 % 16), hexDigit (n % 16)]

def unicodeEscape (n : Nat) : Text := Text.of "\\u" ++ hex4 n

def escapePoint (c : CodePoint) : Text :=
  match c with
  | quote => Text.of "\\\""
  | backslash => Text.of "\\\\"
  | lineFeed => Text.of "\\n"
  | carriageReturn => Text.of "\\r"
  | tab => Text.of "\\t"
  | formFeed => Text.of "\\f"
  | backspace => Text.of "\\b"
  | c =>
    if isBetween 0x20 0x7E c then [c]
    else if c < 0x10000 then unicodeEscape c
    else unicodeEscape (0xD800 + (c - 0x10000) / 0x400) ++ unicodeEscape (0xDC00 + (c - 0x10000) % 0x400)

def quoted (t : Text) : Text := quote :: (t.flatMap escapePoint ++ [quote])

/-! ## Documents -/

/-- What stands between two items, and between a key and its value. -/
structure Style where
  itemSeparator : Text
  keySeparator : Text

def Style.compact : Style := ⟨Text.of ",", Text.of ":"⟩

def Style.spaced : Style := ⟨Text.of ", ", Text.of ": "⟩

mutual

def Document.write (style : Style) : Document → Text
  | .text t => quoted t
  | .int n => Text.ofInt n
  | .list items => Text.of "[" ++ Text.join style.itemSeparator (writeItems style items) ++ Text.of "]"
  | .object fields => Text.of "\x7b" ++ Text.join style.itemSeparator (writeFields style fields) ++ Text.of "\x7d"

def writeItems (style : Style) : List Document → List Text
  | [] => []
  | d :: ds => d.write style :: writeItems style ds

def writeFields (style : Style) : List (Text × Document) → List Text
  | [] => []
  | (k, d) :: fs => (quoted k ++ style.keySeparator ++ d.write style) :: writeFields style fs

end

end TsProject.Json
