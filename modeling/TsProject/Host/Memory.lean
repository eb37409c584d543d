/-
  TsProject.Host.Memory — a file system held in memory.

  Files, directories and links are listed by path; the ancestors of a listed path are
  directories. Reading and probing take the path as it stands; links are followed only
  where a real path is asked for, which is also how a directory is listed. On a file
  system that ignores case, paths are compared in lower case and names keep their spelling.
-/

import TsProject.Host

namespace TsProject.Host

open CodePoint

structure Memory where
  /-- A file without text exists but cannot be read. -/
  files : List (Text × Option Text) := []
  directories : List Text := []
  links : List (Text × Text) := []
  currentDirectory : Text := [slash]
  caseSensitive : Bool := true

namespace Memory

def key (m : Memory) (p : Text) : Text := Glob.canonical m.caseSensitive p

/-- The directory part of a listed path; a path without one lies directly under the root. -/
def parentOf (p : Text) : Text :=
  let head := (Text.throughLast slash p).dropLast
  if head.isEmpty then [slash] else head

/-- The proper ancestors of a path, nearest first, the root left out. -/
def ancestors : Nat → Text → List Text
  | 0, _ => []
  | n + 1, p =>
    let head := (Text.throughLast slash p).dropLast
    if head.isEmpty then [] else head :: ancestors n head

def ancestorsOrSelf (p : Text) : List Text := p :: ancestors p.length p

def lookup (m : Memory) (p : Text) : Option (Option Text) :=
  (m.files.reverse.find? fun f => m.key f.1 == m.key p).map (·.2)

/-- One link on the way is replaced by its target, the one nearest to the path itself. -/
def followOnce (m : Memory) (p : Text) : Option Text :=
  (ancestorsOrSelf p).findSome? fun a =>
    (m.links.find? fun l => m.key l.1 == m.key a).map fun l => l.2 ++ p.drop a.length

/-- Follows links until none is left, but no more than the given number. -/
def follow (m : Memory) : Nat → Text → Text
  | 0, p => p
  | n + 1, p => match m.followOnce p with
    | none => p
    | some q => follow m n q

/-- How many links a real path may lead through. -/
def linkLimit : Nat := 20

def realpath (m : Memory) (p : Text) : Text := m.follow linkLimit p

def allDirectories (m : Memory) : List Text :=
  (m.files.flatMap fun f => ancestors f.1.length f.1) ++ m.directories.flatMap ancestorsOrSelf
    ++ m.links.flatMap fun l => ancestorsOrSelf l.1

/-- The names of the paths directly under a directory, in order, each once. -/
def namesUnder (m : Memory) (directory : Text) (paths : List Text) : List Text :=
  let inside := paths.filter fun p => p != [slash] && m.key (parentOf p) == m.key directory
  (inside.map (Text.afterLast slash)).eraseDups.mergeSort Text.le

def entries (m : Memory) (p : Text) : List Text × List Text :=
  let directory := m.realpath p
  (m.namesUnder directory (m.files.map (·.1)), m.namesUnder directory m.allDirectories)

/-- A directory is known under its own path and, where links are not followed to the end, under the
paths on the way to it. -/
def levels (m : Memory) : Nat := (m.allDirectories.length + 2) * (linkLimit + 2)

def tree (m : Memory) : Glob.Tree := ⟨m.entries, m.realpath, m.levels⟩

def host (m : Memory) : Host where
  caseSensitive := m.caseSensitive
  text? p := (m.lookup p).join
  fileExists p := (m.lookup p).isSome
  currentDirectory := m.currentDirectory
  tree := m.tree
  readableFiles := m.files.length

end Memory

end TsProject.Host
