/-
  TsProject.Text.Basic — text as a list of code points.

  Source text, paths and messages may hold any code point, a lone surrogate
  included, so a `Text` is a list of numbers and not a `String`. Every length,
  offset and column of this library counts code points.

  (1) Code points: names for those the rules mention, ASCII classes, hexadecimal
  digits, surrogates. (2) Text: the order of code points, splitting and joining,
  trimming, replacing, decimal numerals.
-/

namespace TsProject

/-- A number of the Unicode code space, surrogates included. -/
abbrev CodePoint := Nat

abbrev Text := List CodePoint

/-! ## (1) Code points -/

namespace CodePoint

@[match_pattern] abbrev backspace : CodePoint := 0x08
@[match_pattern] abbrev tab : CodePoint := 0x09
@[match_pattern] abbrev lineFeed : CodePoint := 0x0A
@[match_pattern] abbrev verticalTab : CodePoint := 0x0B
@[match_pattern] abbrev formFeed : CodePoint := 0x0C
@[match_pattern] abbrev carriageReturn : CodePoint := 0x0D
@[match_pattern] abbrev space : CodePoint := 0x20
@[match_pattern] abbrev quote : CodePoint := 0x22
@[match_pattern] abbrev dollar : CodePoint := 0x24
@[match_pattern] abbrev apostrophe : CodePoint := 0x27
@[match_pattern] abbrev asterisk : CodePoint := 0x2A
@[match_pattern] abbrev plus : CodePoint := 0x2B
@[match_pattern] abbrev comma : CodePoint := 0x2C
@[match_pattern] abbrev minus : CodePoint := 0x2D
@[match_pattern] abbrev dot : CodePoint := 0x2E
@[match_pattern] abbrev slash : CodePoint := 0x2F
@[match_pattern] abbrev zero : CodePoint := 0x30
@[match_pattern] abbrev colon : CodePoint := 0x3A
@[match_pattern] abbrev question : CodePoint := 0x3F
@[match_pattern] abbrev bracketOpen : CodePoint := 0x5B
@[match_pattern] abbrev backslash : CodePoint := 0x5C
@[match_pattern] abbrev bracketClose : CodePoint := 0x5D
@[match_pattern] abbrev underscore : CodePoint := 0x5F
@[match_pattern] abbrev backtick : CodePoint := 0x60
@[match_pattern] abbrev braceOpen : CodePoint := 0x7B
@[match_pattern] abbrev braceClose : CodePoint := 0x7D
@[match_pattern] abbrev lineSeparator : CodePoint := 0x2028
@[match_pattern] abbrev paragraphSeparator : CodePoint := 0x2029
@[match_pattern] abbrev byteOrderMark : CodePoint := 0xFEFF

/-- One past the last code point. -/
def limit : Nat := 0x110000

def isBetween (lo hi c : CodePoint) : Bool := decide (lo ≤ c) && decide (c ≤ hi)

def isDigit (c : CodePoint) : Bool := isBetween 0x30 0x39 c

def isAsciiUpper (c : CodePoint) : Bool := isBetween 0x41 0x5A c

def isAsciiLower (c : CodePoint) : Bool := isBetween 0x61 0x7A c

def isAsciiLetter (c : CodePoint) : Bool := isAsciiUpper c || isAsciiLower c

def isAscii (c : CodePoint) : Bool := decide (c < 0x80)

def isHighSurrogate (c : CodePoint) : Bool := isBetween 0xD800 0xDBFF c

def isLowSurrogate (c : CodePoint) : Bool := isBetween 0xDC00 0xDFFF c

def isSurrogate (c : CodePoint) : Bool := isBetween 0xD800 0xDFFF c

/-- The code point above U+FFFF that a high and a low surrogate stand for. -/
def ofSurrogates (high low : CodePoint) : CodePoint := 0x10000 + (high - 0xD800) * 0x400 + (low - 0xDC00)

/-- The value of a hexadecimal digit of either case. -/
def hexValue? (c : CodePoint) : Option Nat :=
  if isDigit c then some (c - 0x30)
  else if isBetween 0x61 0x66 c then some (c - 0x61 + 10)
  else if isBetween 0x41 0x46 c then some (c - 0x41 + 10)
  else none

def isHexDigit (c : CodePoint) : Bool := (hexValue? c).isSome

/-- The lower-case hexadecimal digit of a value below 16. -/
def hexDigit (n : Nat) : CodePoint := if n < 10 then 0x30 + n else 0x61 + (n - 10)

/-- LF, CR and the two Unicode separators end a line of source text. -/
def isLineBreak (c : CodePoint) : Bool :=
  c == lineFeed || c == carriageReturn || c == lineSeparator || c == paragraphSeparator

end CodePoint

/-! ## (2) Text -/

namespace Text

open CodePoint

/-- The code points of a literal. -/
def of (s : String) : Text := s.toList.map Char.toNat

/-- Order by code point. -/
def le : Text → Text → Bool
  | [], _ => true
  | _ :: _, [] => false
  | a :: s, b :: t => if a = b then le s t else decide (a < b)

def startsWith (s start : Text) : Bool := start.isPrefixOf s

def endsWith (s ending : Text) : Bool := ending.isSuffixOf s

/-- The pieces between the occurrences of a separator: one more piece than there are separators. -/
def splitOn (sep : CodePoint) : Text → List Text
  | [] => [[]]
  | c :: s =>
    if c = sep then [] :: splitOn sep s
    else match splitOn sep s with
      | [] => [[c]]
      | piece :: pieces => (c :: piece) :: pieces

def join (sep : Text) : List Text → Text
  | [] => []
  | [piece] => piece
  | piece :: pieces => piece ++ sep ++ join sep pieces

def trimStart (p : CodePoint → Bool) (s : Text) : Text := s.dropWhile p

def trimEnd (p : CodePoint → Bool) (s : Text) : Text := (s.reverse.dropWhile p).reverse

/-- What follows the last occurrence of a separator; the whole text where there is none. -/
def afterLast (sep : CodePoint) (s : Text) : Text := (s.reverse.takeWhile (· != sep)).reverse

/-- The text up to and with the last occurrence of a separator; empty where there is none. -/
def throughLast (sep : CodePoint) (s : Text) : Text := (s.reverse.dropWhile (· != sep)).reverse

def replaceEach (c : CodePoint) (replacement : Text) (s : Text) : Text :=
  s.flatMap fun x => if x = c then replacement else [x]

/-- The value of a numeral in base 16 whose digits are all hexadecimal. -/
def hexNumber (s : Text) : Nat := s.foldl (fun n c => n * 16 + (hexValue? c).getD 0) 0

/-- The value of a numeral in base 10 whose digits are all decimal. -/
def decimalNumber (s : Text) : Nat := s.foldl (fun n c => n * 10 + (c - 0x30)) 0

def ofNat (n : Nat) : Text := (Nat.toDigits 10 n).map Char.toNat

def ofInt : Int → Text
  | .ofNat n => ofNat n
  | .negSucc n => minus :: ofNat (n + 1)

/-- A text right-aligned in a field of spaces. -/
def alignRight (width : Nat) (s : Text) : Text := List.replicate (width - s.length) space ++ s

def hasSurrogate (s : Text) : Bool := s.any isSurrogate

def isAsciiOnly (s : Text) : Bool := s.all isAscii

end Text

end TsProject
