/-
  TsProject.Config.Extends — the file an `extends` entry refers to.

  A rooted entry, or one that starts with `./` or `../`, names a file, with or without
  `.json`. Any other entry names a package: it is looked up in the `node_modules` of
  the directory and of each directory above it, the nearest first.
-/

import TsProject.Config.Problem
import TsProject.Host
import TsProject.Json.Reader

namespace TsProject.Config

open CodePoint

/-! ## Packages -/

/-- A directory and those above it, nearest first. -/
def enclosing (directory : Text) : List Text :=
  let above := Path.directory directory
  directory :: if above.length < directory.length then enclosing above else []
termination_by directory.length

def packageRoot (directory spec : Text) : Text :=
  Text.trimEnd (· == slash) directory ++ Text.of "/node_modules/" ++ spec

/-- The config a package declares: a text under `tsconfig` in its manifest. A manifest that is no JSON
object declares none. -/
def declaredConfig? (manifest : Text) : Option Text :=
  match Json.parse? manifest with
  | some (.object fields) => (Fields.get? fields (Text.of "tsconfig")).bind Value.text?
  | _ => none

/-- Where the config of a package may be in one directory, in order of preference. -/
def packageCandidates (h : Host) (spec directory : Text) : List Text :=
  let root := packageRoot directory spec
  let declared := (h.text? (root ++ Text.of "/package.json")).bind declaredConfig?
  [root, root ++ Text.of ".json"] ++ (declared.map fun d => Path.normalize (root ++ slash :: d)).toList
    ++ [root ++ Text.of "/tsconfig.json"]

def packageConfig? (h : Host) (spec base : Text) : Option Text :=
  ((enclosing (Path.normalize base)).flatMap (packageCandidates h spec)).find? h.fileExists

/-! ## Entries -/

def isFileEntry (entry : Text) : Bool :=
  Path.isRooted entry || Text.startsWith entry (Text.of "./") || Text.startsWith entry (Text.of "../")

/-- The path of the config an entry refers to, or the problem with the entry. A file that is named with
`.json` is not looked for here. -/
def extendsPath (h : Host) (entry base : Text) : Except Problem Text :=
  let entry := Path.forwardSlashes entry
  if isFileEntry entry then
    let path := Path.resolve entry base
    let withExtension := path ++ Text.of ".json"
    if h.fileExists path || Text.endsWith path (Text.of ".json") then .ok path
    else if h.fileExists withExtension then .ok withExtension
    else .error (.fileNotFound entry)
  else if entry.isEmpty then .error (.emptyOption (Text.of "extends"))
  else match packageConfig? h entry base with
    | some path => .ok path
    | none => .error (.fileNotFound entry)

end TsProject.Config
