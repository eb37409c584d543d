/-
  TsProject.Text.Case — lower case, and equality that ignores case.

  `lower` is the full lower-case mapping of a text: every code point by the simple
  mapping, except that U+0130 becomes two code points and that a capital sigma at
  the end of a word becomes the final form. `sameLetter` compares two code points
  as patterns do when the file system ignores case: by simple lower case and the
  few lower-case letters that are variants of one another.
-/

import TsProject.Text.CaseMapping

namespace TsProject.Text

open CodePoint

def lookupLower (c : CodePoint) : List (CodePoint × CodePoint × Nat × CodePoint) → CodePoint
  | [] => c
  | (first, last, step, image) :: runs =>
    if isBetween first last c && (c - first) % step == 0 then image + (c - first) else lookupLower c runs

/-- The simple lower-case mapping. -/
def lowerPoint (c : CodePoint) : CodePoint :=
  if isAscii c then (if isAsciiUpper c then c + 0x20 else c)
  else if c = 0x130 then 0x69
  else lookupLower c lowerRuns

def isCased (c : CodePoint) : Bool := casedRanges.has c

def isCaseIgnorable (c : CodePoint) : Bool := caseIgnorableRanges.has c

/-- The first code point that is not case-ignorable is cased. -/
def startsCased (s : Text) : Bool :=
  match s.dropWhile isCaseIgnorable with
  | [] => false
  | c :: _ => isCased c

/-- Lower case of a text, given the text before it in reverse. -/
def lowerAfter (before : Text) : Text → Text
  | [] => []
  | c :: s =>
    let image : Text :=
      if c = 0x130 then [0x69, 0x307]
      else if c = 0x3A3 then (if startsCased before && !startsCased s then [0x3C2] else [0x3C3])
      else [lowerPoint c]
    image ++ lowerAfter (c :: before) s

def lower (s : Text) : Text := lowerAfter [] s

/-- One letter in two forms: equal simple lower case, or variants of one lower-case letter. -/
def sameLetter (a b : CodePoint) : Bool :=
  let a := lowerPoint a
  let b := lowerPoint b
  a == b || caseVariants.any fun group => group.contains a && group.contains b

end TsProject.Text
