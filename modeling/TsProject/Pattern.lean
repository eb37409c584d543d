/-
  TsProject.Pattern — regular expressions over paths, as data.

  A `Pattern` is what a glob compiles to: a syntax tree with a written form
  (`toText`) and a meaning (`rests`). A pattern takes a piece off the front of a
  text and leaves the rest; `rests` lists every rest it can leave of several texts
  that are rests themselves, so that no rest is worked on twice. Groups and
  laziness change the written form only. A pattern is always tried at the first
  character, so `isMatch` asks whether it can leave any rest at all.

  The end of the text is also found before one line feed that ends it, and the
  any-character pattern takes everything but a line feed.
-/

import TsProject.Text.Case

namespace TsProject

/-- How often a pattern is taken: `?`, `*`, `*?` and `+?`. -/
inductive Repeat where
  | optional
  | many
  | manyLazy
  | someLazy
  deriving DecidableEq

inductive Pattern where
  | empty
  | char (c : CodePoint)
  | noneOf (cs : List CodePoint)
  | anyInLine
  | atEnd
  | seq (first second : Pattern)
  | either (first second : Pattern)
  | group (p : Pattern)
  | repeated (r : Repeat) (p : Pattern)
  | notAhead (p : Pattern)
  deriving DecidableEq

namespace Pattern

open CodePoint

/-! ## Construction -/

def literal (s : Text) : Pattern := s.foldr (fun c p => .seq (.char c) p) .empty

/-- One of several patterns, the first one preferred. -/
def oneOf : List Pattern → Pattern
  | [] => .empty
  | [p] => p
  | p :: ps => .either p (oneOf ps)

/-! ## Written form -/

/-- The characters that mean something in a written pattern. -/
def metaCharacters : Text := Text.of "#$&()*+-.?[\\]^\x7b|\x7d~"

def isMeta (c : CodePoint) : Bool := metaCharacters.contains c

def Repeat.toText : Repeat → Text
  | .optional => Text.of "?"
  | .many => Text.of "*"
  | .manyLazy => Text.of "*?"
  | .someLazy => Text.of "+?"

def toText : Pattern → Text
  | .empty => []
  | .char c => if isMeta c then [backslash, c] else [c]
  | .noneOf cs => Text.of "[^" ++ cs ++ Text.of "]"
  | .anyInLine => [dot]
  | .atEnd => [dollar]
  | .seq p q => toText p ++ toText q
  | .either p q => toText p ++ Text.of "|" ++ toText q
  | .group p => Text.of "(" ++ toText p ++ Text.of ")"
  | .repeated r p => toText p ++ Repeat.toText r
  | .notAhead p => Text.of "(?!" ++ toText p ++ Text.of ")"

/-- The written form of a pattern that is tried at the start of the text only. -/
def anchoredText (p : Pattern) : Text := Text.of "^" ++ toText p

/-! ## Meaning -/

/-- What one character leaves of each start. -/
def takeOne (p : CodePoint → Bool) (starts : List Text) : List Text :=
  starts.filterMap fun
    | [] => none
    | c :: s => if p c then some s else none

/-- All rests reached from the new ones among those found; each round takes one more step, at most `n` of them. -/
def closure (step : List Text → List Text) : Nat → List Text → List Text → List Text
  | 0, _, found => found
  | n + 1, new, found =>
    match (step new).filter (!found.contains ·) with
    | [] => found
    | reached => closure step n reached (found ++ reached)

/-- Any number of steps. What a step newly finds is shorter than what it came from, so lengths bound the rounds. -/
def steps (step : List Text → List Text) (starts : List Text) : List Text :=
  closure step starts.flatten.length starts starts

/-- The rests a pattern can leave of some start, each once; `same` tells which characters count as equal. -/
def rests (same : CodePoint → CodePoint → Bool) : Pattern → List Text → List Text
  | .empty, starts => starts
  | .char c, starts => takeOne (same c) starts
  | .noneOf cs, starts => takeOne (fun x => !cs.any (same · x)) starts
  | .anyInLine, starts => takeOne (· != lineFeed) starts
  | .atEnd, starts => starts.filter fun s => s.isEmpty || s == [lineFeed]
  | .seq p q, starts => rests same q (rests same p starts)
  | .either p q, starts => (rests same p starts ++ rests same q starts).eraseDups
  | .group p, starts => rests same p starts
  | .repeated .optional p, starts => (rests same p starts ++ starts).eraseDups
  | .repeated .many p, starts => steps (rests same p) starts
  | .repeated .manyLazy p, starts => steps (rests same p) starts
  | .repeated .someLazy p, starts => steps (rests same p) (rests same p starts)
  | .notAhead p, starts => starts.filter fun s => (rests same p [s]).isEmpty

/-- Equality of characters on a file system that does or does not tell case apart. -/
def sameOn (caseSensitive : Bool) (a b : CodePoint) : Bool := if caseSensitive then a == b else Text.sameLetter a b

def isMatch (caseSensitive : Bool) (p : Pattern) (s : Text) : Bool := !(rests (sameOn caseSensitive) p [s]).isEmpty

end Pattern

end TsProject
