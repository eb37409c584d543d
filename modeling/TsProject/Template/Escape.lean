/-
  TsProject.Template.Escape — text inside template literals.

  `escape` writes a text so that it stands for itself between backticks: backslash,
  backtick and dollar get a backslash. `cook` reads the escape sequences of a literal:
  two surrogate escapes as one code point, `\u` with braces, with four digits, `\x`, line
  continuations, the single-character escapes; any other escaped character stands for
  itself, and so does a backslash at the very end.
-/

import TsProject.Text.Basic

namespace TsProject.Template

open CodePoint

/-- Backslashes are doubled first: those put in front of the other two characters stay single. -/
def escape (s : Text) : Text :=
  let doubled := Text.replaceEach backslash [backslash, backslash] s
  let ticked := Text.replaceEach backtick [backslash, backtick] doubled
  Text.replaceEach dollar [backslash, dollar] ticked

/-! ## Escape sequences -/

inductive CookError where
  /-- An escape names a number beyond the last code point. -/
  | notACodePoint (value : Nat)
  deriving DecidableEq

def CookError.message : CookError → Text
  | .notACodePoint _ => Text.of "chr() arg not in range(0x110000)"

/-- The first `n` characters as a hexadecimal number, and what follows them. -/
def hexNumber? (n : Nat) (s : Text) : Option (Nat × Text) :=
  let digits := s.take n
  if digits.length = n ∧ digits.all isHexDigit then some (Text.hexNumber digits, s.drop n) else none

/-- The number in braces at the start of a text. -/
def braced? : Text → Option (Nat × Text)
  | braceOpen :: s =>
    match s.takeWhile isHexDigit, s.dropWhile isHexDigit with
    | d :: ds, braceClose :: rest => some (Text.hexNumber (d :: ds), rest)
    | _, _ => none
  | _ => none

/-- Two escaped surrogates, behind the backslash of the first one. -/
def pair? : Text → Option (CodePoint × Text)
  | 0x75 :: s => do
    let (high, s) ← hexNumber? 4 s
    match s with
    | backslash :: 0x75 :: s =>
      let (low, s) ← hexNumber? 4 s
      if isHighSurrogate high && isLowSurrogate low then some (ofSurrogates high low, s) else none
    | _ => none
  | _ => none

/-- A number after `u` or `x`, behind the backslash. -/
def numeric? : Text → Option (Nat × Text)
  | 0x75 :: s => braced? s <|> hexNumber? 4 s
  | 0x78 :: s => hexNumber? 2 s
  | _ => none

/-- What a single character behind a backslash stands for. -/
def single (c : CodePoint) : Text :=
  match c with
  | 0x6E => [lineFeed]
  | 0x74 => [tab]
  | 0x72 => [carriageReturn]
  | 0x62 => [backspace]
  | 0x66 => [formFeed]
  | 0x76 => [verticalTab]
  | 0x30 => [0]
  | c => if isLineBreak c then [] else [c]

/-- What the text behind a backslash stands for, and what is left of it. -/
def sequence (s : Text) : Except CookError (Text × Text) :=
  match pair? s with
  | some (c, rest) => .ok ([c], rest)
  | none =>
    match numeric? s with
    | some (n, rest) => if n < limit then .ok ([n], rest) else .error (.notACodePoint n)
    | none =>
      match s with
      | carriageReturn :: lineFeed :: rest => .ok ([], rest)
      | c :: rest => .ok (single c, rest)
      | [] => .ok ([backslash], [])

/-- The value of a literal's text; `n` bounds its length. -/
def cookWithin : Nat → Text → Except CookError Text
  | 0, s => .ok s
  | _, [] => .ok []
  | n + 1, backslash :: s => do
    let (value, rest) ← sequence s
    let cooked ← cookWithin n rest
    return value ++ cooked
  | n + 1, c :: s => do
    let cooked ← cookWithin n s
    return c :: cooked

def cook (s : Text) : Except CookError Text := cookWithin s.length s

end TsProject.Template
