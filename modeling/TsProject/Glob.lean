/-
  TsProject.Glob — what an include or exclude spec means.

  A spec is read against a base directory and cut into components. `?` stands for
  one character of a segment, `*` for a run of them, a component `**` for any number
  of segments. A spec whose last component has no dot and no wildcard names a
  directory and everything below it. Three patterns come out of one spec:

  - `files`: the files it selects. No wildcard selects a hidden entry or enters a
    package folder, and `*` does not swallow the ending `.min.js`;
  - `directories`: the directories on the way to such files, as nested options;
  - `exclude`: what it excludes, plain wildcards without those two exceptions.

  A component of word characters and blanks alone names its segment even if that is
  a package folder; any other component refuses the package folders.
-/

import TsProject.Path
import TsProject.Pattern

namespace TsProject.Glob

open CodePoint Pattern

inductive Usage where
  | files
  | directories
  | exclude
  deriving DecidableEq

/-! ## Components -/

def recursive : Text := [asterisk, asterisk]

/-- A name without dot or wildcard is taken for a directory. -/
def isImplicit (component : Text) : Bool := component.all fun c => c != dot && c != asterisk && c != question

/-- The root of the spec in absolute form, with a slash at its end, and the components below it. -/
def rootAndComponents (spec base : Text) : Text × List Text :=
  match Path.resolve spec base with
  | slash :: below => ([slash], Path.names below)
  | absolute => (absolute.takeWhile (· != slash) ++ [slash], Path.names (absolute.dropWhile (· != slash)))

/-- The components a pattern is built from: the root without its slash comes first, and a directory
is followed by everything below it. -/
def components (root : Text) (below : List Text) : List Text :=
  let last := below.getLast?.getD root
  Text.trimEnd (· == slash) root :: (below ++ if isImplicit last then [recursive, [asterisk]] else [])

/-! ## Pieces of patterns -/

def packageFolders : List Text := [Text.of "node_modules", Text.of "bower_components", Text.of "jspm_packages"]

/-- The segment that starts here is not a package folder. -/
def notPackageFolder : Pattern :=
  .notAhead (.seq (.group (oneOf (packageFolders.map literal))) (.group (.either (.char slash) .atEnd)))

/-- The meaning of `*` within a component. -/
def run : Usage → Pattern
  | .files =>
    let dotNotMin := Pattern.seq (.char dot) (.notAhead (.seq (literal (Text.of "min.js")) .atEnd))
    .repeated .many (.group (.either (.noneOf [dot, slash]) (.repeated .optional (.group dotNotMin))))
  | _ => .repeated .many (.noneOf [slash])

/-- The meaning of a component `**`. -/
def anyDepth : Usage → Pattern
  | .exclude => .repeated .optional (.group (.seq (.char slash) (.repeated .someLazy .anyInLine)))
  | _ =>
    .repeated .manyLazy (.group (.seq (.char slash)
      (.seq notPackageFolder (.seq (.noneOf [slash, dot]) (.repeated .many (.noneOf [slash]))))))

def piece (u : Usage) (c : CodePoint) : Pattern :=
  if c = asterisk then run u else if c = question then .noneOf [slash] else .char c

def spelled (u : Usage) (component : Text) : Pattern := component.foldr (fun c p => .seq (piece u c) p) .empty

/-- A leading wildcard of an include takes no dot as its first character. -/
def visible (u : Usage) : Text → Pattern
  | asterisk :: rest => .seq (.repeated .optional (.group (.seq (.noneOf [dot, slash]) (run u)))) (spelled u rest)
  | question :: rest => .seq (.noneOf [dot, slash]) (spelled u rest)
  | component => spelled u component

/-- A component without any character that has a meaning in patterns. -/
def isPlain (component : Text) : Bool := component.all fun c => !isMeta c

def componentPattern (u : Usage) (component : Text) : Pattern :=
  match u with
  | .exclude => spelled u component
  | _ => if isPlain component then visible u component else .seq notPackageFolder (visible u component)

/-! ## Specs -/

/-- The pattern of a list of components; `inner` when another component stands before them. -/
def ofComponents (u : Usage) : Bool → List Text → Pattern
  | _, [] => .empty
  | inner, component :: rest =>
    if component = recursive then .seq (anyDepth u) (ofComponents u true rest)
    else
      let separator := if inner then Pattern.char slash else .empty
      let p := Pattern.seq separator (.seq (componentPattern u component) (ofComponents u true rest))
      if u = .directories then .repeated .optional (.group p) else p

/-- The pattern of one spec. An include that ends in `**` selects nothing. -/
def ofSpec? (u : Usage) (base spec : Text) : Option Pattern :=
  let (root, below) := rootAndComponents spec base
  if u ≠ .exclude ∧ below.getLast?.getD root = recursive then none
  else some (ofComponents u false (components root below))

/-- What must follow a match: the end, or for an exclude also a slash. -/
def terminator : Usage → Pattern
  | .exclude => .group (.either .atEnd (.char slash))
  | _ => .atEnd

/-- The pattern of all non-empty specs together; none if no spec gives one. -/
def ofSpecs? (u : Usage) (base : Text) (specs : List Text) : Option Pattern :=
  match (specs.filter (!·.isEmpty)).filterMap (ofSpec? u base) with
  | [] => none
  | ps => some (.seq (.group (oneOf (ps.map .group))) (terminator u))

/-- The pattern of one include on whole file names. -/
def ofInclude? (base spec : Text) : Option Pattern := (ofSpec? .files base spec).map fun p => .seq (.group p) .atEnd

end TsProject.Glob
