/-
  TsProject.Host — the file system as the rest of the library sees it.
-/

import TsProject.Glob.Walk

namespace TsProject

structure Host where
  caseSensitive : Bool
  /-- The text of a file; absent if it cannot be read. -/
  text? : Text → Option Text
  fileExists : Text → Bool
  currentDirectory : Text
  tree : Glob.Tree
  /-- No more than this many files can be read, as the file system tells them apart. -/
  readableFiles : Nat

namespace Host

/-- The files under a directory that the specs select. -/
def readDirectory (h : Host) (path : Text) (extensions excludes includes : List Text) (depth : Option Int) :
    List Text :=
  Glob.matchFiles h.tree
    { path, extensions, excludes, includes, depth
      caseSensitive := h.caseSensitive
      currentDirectory := h.currentDirectory }

end Host

end TsProject
