/-
  TsProject.Glob.Walk — the files below a directory that the specs select.

  The walk visits the directories of the cover and, below each, every directory that
  the include specs may lead through and no exclude takes away. A directory is
  visited under the first name that reaches it: its real path is remembered, so links
  that form a cycle end the walk instead of prolonging it. Files are grouped by the
  first include that selects them; without includes all are one group.

  Each visited directory adds a real path to those remembered, so the nesting of
  visits never exceeds the number of real directories; `Tree.levels` is a bound on it.
-/

import TsProject.Glob
import TsProject.Glob.Cover

namespace TsProject.Glob

open CodePoint

/-- The directory structure a search runs on. -/
structure Tree where
  /-- The names of the files and of the directories directly under a path, each in order. -/
  entries : Text → List Text × List Text
  realpath : Text → Text
  /-- No walk nests deeper than this. -/
  levels : Nat

/-- A search: an empty list of extensions, includes or excludes poses no condition. -/
structure Search where
  path : Text
  extensions : List Text := []
  excludes : List Text := []
  includes : List Text := []
  caseSensitive : Bool := true
  currentDirectory : Text := [slash]
  /-- How many levels of directories to list; any number below one sets no bound. -/
  depth : Option Int := none

/-- The conditions of a search on absolute names. -/
structure Filter where
  caseSensitive : Bool
  extensions : List Text
  /-- One pattern for each include that has one; absent when there are no includes. -/
  files : Option (List Pattern)
  directories : Option Pattern
  exclude : Option Pattern

structure Walk where
  visited : List Text := []
  /-- The directories listed so far, in order. -/
  listed : List Text := []
  /-- The files found so far, each with the group it belongs to. -/
  found : List (Nat × Text) := []

/-! ## Conditions -/

def Search.absolutePath (s : Search) : Text :=
  Path.resolve (Path.normalize s.path) (Path.normalize s.currentDirectory)

def Search.filter (s : Search) : Filter where
  caseSensitive := s.caseSensitive
  extensions := s.extensions
  files := if s.includes.isEmpty then none else some (s.includes.filterMap (ofInclude? s.absolutePath))
  directories := ofSpecs? .directories s.absolutePath s.includes
  exclude := ofSpecs? .exclude s.absolutePath s.excludes

namespace Filter

def hasExtension (f : Filter) (name : Text) : Bool :=
  f.extensions.isEmpty ||
    f.extensions.any fun e => Text.endsWith (canonical f.caseSensitive name) (canonical f.caseSensitive e)

def isExcluded (f : Filter) (absolute : Text) : Bool := f.exclude.any (·.isMatch f.caseSensitive absolute)

/-- The group of a file, if it is selected. -/
def groupOf (f : Filter) (name absolute : Text) : Option Nat :=
  if !f.hasExtension name || f.isExcluded absolute then none
  else match f.files with
    | none => some 0
    | some patterns => patterns.findIdx? (·.isMatch f.caseSensitive absolute)

/-- The walk goes into a directory. -/
def enters (f : Filter) (absolute : Text) : Bool :=
  f.directories.all (·.isMatch f.caseSensitive absolute) && !f.isExcluded absolute

def groups (f : Filter) : Nat := max 1 ((f.files.map List.length).getD 1)

end Filter

/-! ## The walk -/

def selectFiles (f : Filter) (directory absolute : Text) (names : List Text) : List (Nat × Text) :=
  names.filterMap fun name =>
    let path := Path.entry directory name
    (f.groupOf path (Path.entry absolute name)).map fun g => (g, path)

/-- Visits a directory under the given name and absolute name, then those below it. -/
def visit (t : Tree) (f : Filter) : Nat → Text → Text → Option Int → Walk → Walk
  | 0, _, _, _, w => w
  | level + 1, directory, absolute, depth, w =>
    let real := canonical f.caseSensitive (t.realpath absolute)
    if w.visited.contains real then w
    else
      let (files, directories) := t.entries directory
      let w : Walk :=
        { visited := real :: w.visited
          listed := w.listed ++ [directory]
          found := w.found ++ selectFiles f directory absolute files }
      if depth = some 1 then w
      else directories.foldl (fun w name =>
        let inner := Path.entry absolute name
        if f.enters inner then visit t f level (Path.entry directory name) inner (depth.map (· - 1)) w else w) w

/-- The walk from every directory of the cover. -/
def walk (t : Tree) (s : Search) : Walk :=
  let path := Path.normalize s.path
  (cover s.caseSensitive path s.includes).foldl
    (fun w base =>
      visit t s.filter t.levels base (Path.resolve base (Path.normalize s.currentDirectory)) s.depth w) {}

/-- The selected files, grouped by the first include that selects them. -/
def Walk.files (groups : Nat) (w : Walk) : List Text :=
  (List.range groups).flatMap fun g => (w.found.filter (·.1 = g)).map (·.2)

def matchFiles (t : Tree) (s : Search) : List Text := (walk t s).files s.filter.groups

end TsProject.Glob
