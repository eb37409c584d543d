/-
  TsProject.Path — path names with forward slashes.

  A path is a text. It is rooted when it starts with a slash or with a drive (one
  character, a colon, a slash). `normalize` folds the segments of a path over a
  stack: empty segments and `.` are dropped, `..` pops a name, and a `..` that has
  nothing to pop is kept in a relative path and dropped below the root. `resolve`
  reads a path against a directory and normalizes it; `relativeTo` goes the other way.

  (1) Rooted paths. (2) Normalization. (3) Joining and splitting. (4) Relative paths.
-/

import TsProject.Text.Basic

namespace TsProject.Path

open CodePoint

/-! ## (1) Rooted paths -/

def forwardSlashes (p : Text) : Text := p.map fun c => if c = backslash then slash else c

/-- With forward slashes, the path starts with a slash or with a drive and a slash. -/
def isRooted (p : Text) : Bool :=
  match forwardSlashes p with
  | slash :: _ => true
  | _ :: colon :: slash :: _ => true
  | _ => false

/-! ## (2) Normalization -/

def dotSegment : Text := [dot]

def dotDotSegment : Text := [dot, dot]

/-- The segments of a path that say something: neither empty nor `.`. -/
def segments (p : Text) : List Text :=
  (Text.splitOn slash p).filter fun s => !s.isEmpty && s != dotSegment

/-- One more segment on the stack of those kept so far, innermost first. -/
def push (absolute : Bool) (stack : List Text) (segment : Text) : List Text :=
  if segment = dotDotSegment then
    match stack with
    | [] => if absolute then [] else [dotDotSegment]
    | top :: below => if top = dotDotSegment then segment :: stack else below
  else segment :: stack

/-- The segments left once every `..` has taken a name away. -/
def fold (absolute : Bool) (names : List Text) : List Text := (names.foldl (push absolute) []).reverse

def startsAtRoot (p : Text) : Bool :=
  match p with
  | slash :: _ => true
  | _ => false

/-- Shortest spelling of a non-empty path whose slashes are forward. -/
def simplify (p : Text) : Text :=
  let body := Text.join [slash] (fold (startsAtRoot p) (segments p))
  if startsAtRoot p then slash :: body else if body.isEmpty then dotSegment else body

/-- The path without `.`, `..` and repeated slashes. The empty path stays empty. -/
def normalize (p : Text) : Text := if p.isEmpty then [] else simplify (forwardSlashes p)

/-! ## (3) Joining and splitting -/

/-- A path read below a directory: a path that starts at the root stands for itself. -/
def join (directory p : Text) : Text :=
  if startsAtRoot p then p
  else if directory.isEmpty || Text.endsWith directory [slash] then directory ++ p
  else directory ++ slash :: p

/-- The normalized path that a path names when read in a directory. -/
def resolve (p directory : Text) : Text :=
  let p := forwardSlashes p
  normalize (if isRooted p then p else join (forwardSlashes directory) p)

/-- All up to the last slash, without the slashes at its end unless there is nothing else. -/
def parent (p : Text) : Text :=
  let head := Text.throughLast slash p
  if head.all (· == slash) then head else Text.trimEnd (· == slash) head

/-- The directory of a path in normalized form. -/
def directory (p : Text) : Text := parent (normalize p)

/-- What follows the last slash. -/
def baseName (p : Text) : Text := Text.afterLast slash p

/-- The path of an entry of a directory. -/
def entry (directory name : Text) : Text :=
  if directory.isEmpty then name
  else if Text.endsWith directory [slash] then directory ++ name
  else directory ++ slash :: name

/-! ## (4) Relative paths -/

/-- How many leading segments agree in canonical form. -/
def commonSegments (canonical : Text → Text) : List Text → List Text → Nat
  | a :: as, b :: bs => if canonical a = canonical b then commonSegments canonical as bs + 1 else 0
  | _, _ => 0

def names (p : Text) : List Text := (Text.splitOn slash p).filter fun s => !s.isEmpty

/-- A rooted path as seen from a base directory: a `..` for each segment of the base that is not
shared, then the rest of the path as spelled. An unrooted path is left alone, and so is one on
another drive. -/
def relativeTo (p base : Text) (canonical : Text → Text) : Text :=
  let p := forwardSlashes p
  if !isRooted p then p
  else
    let target := normalize p
    let baseNames := names (normalize base)
    let targetNames := names target
    let common := commonSegments canonical baseNames targetNames
    let onAnotherDrive := common == 0 && !baseNames.isEmpty && (targetNames.head?.any (·.contains colon))
    if onAnotherDrive then target
    else Text.join [slash] (List.replicate (baseNames.length - common) dotDotSegment ++ targetNames.drop common)

end TsProject.Path
