/-
  TsProject.Text.Quoted — a text in quotes, for display.

  Apostrophes enclose it, or quotation marks if it holds an apostrophe and no
  quotation mark. Inside, the backslash and the enclosing mark are escaped, line
  feed, carriage return and tab have short escapes, and whatever cannot be printed is
  shown by its number in two, four or eight hexadecimal digits.
-/

import TsProject.Text.Printable

namespace TsProject.Text

open CodePoint

def hexDigits : Nat → Nat → Text
  | 0, _ => []
  | n + 1, c => hexDigits n (c / 16) ++ [hexDigit (c % 16)]

def displayPoint (mark c : CodePoint) : Text :=
  if c = mark || c = backslash then [backslash, c]
  else match c with
    | lineFeed => Text.of "\\n"
    | carriageReturn => Text.of "\\r"
    | tab => Text.of "\\t"
    | c =>
      if isPrintable c then [c]
      else if c < 0x100 then Text.of "\\x" ++ hexDigits 2 c
      else if c < 0x10000 then Text.of "\\u" ++ hexDigits 4 c
      else Text.of "\\U" ++ hexDigits 8 c

def quotationMark (s : Text) : CodePoint := if s.contains apostrophe && !s.contains quote then quote else apostrophe

def quoted (s : Text) : Text := quotationMark s :: (s.flatMap (displayPoint (quotationMark s)) ++ [quotationMark s])

end TsProject.Text
