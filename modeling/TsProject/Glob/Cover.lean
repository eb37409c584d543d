/-
  TsProject.Glob.Cover — the directories a search has to start from.

  Every include has a base: the longest start of its path that holds no wildcard.
  The cover of a list of includes is the project directory and those bases that lie
  outside it and outside one another, in the order of their names.
-/

import TsProject.Path
import TsProject.Text.Case

namespace TsProject.Glob

open CodePoint

def isWildcard (c : CodePoint) : Bool := c == asterisk || c == question

/-- The directory an include spec in absolute form starts from. A spec without wildcards stands for
itself, or for its directory if its last segment has a dot. -/
def baseOf (absolute : Text) : Text :=
  if absolute.any isWildcard then
    let fixed := absolute.takeWhile (!isWildcard ·)
    let base := if fixed.contains slash then (Text.throughLast slash fixed).dropLast else absolute.dropLast
    if base.isEmpty then [slash] else base
  else if (Path.baseName absolute).contains dot then Path.directory absolute
  else absolute

/-- The spelling under which a file system that ignores case compares names. -/
def canonical (caseSensitive : Bool) (p : Text) : Text := if caseSensitive then p else Text.lower p

/-- One path is the other or lies above it. -/
def isWithin (caseSensitive : Bool) (above p : Text) : Bool :=
  let above := canonical caseSensitive above
  let p := canonical caseSensitive p
  above == p || Text.startsWith p (Text.trimEnd (· == slash) above ++ [slash])

def absoluteInclude (path spec : Text) : Text :=
  if Path.isRooted spec then spec else Path.normalize (path ++ slash :: spec)

def cover (caseSensitive : Bool) (path : Text) (includes : List Text) : List Text :=
  let bases := includes.map fun spec => baseOf (absoluteInclude path spec)
  let ordered := bases.mergeSort fun a b => Text.le (canonical caseSensitive a) (canonical caseSensitive b)
  ordered.foldl (fun kept base => if kept.any (isWithin caseSensitive · base) then kept else kept ++ [base]) [path]

end TsProject.Glob
