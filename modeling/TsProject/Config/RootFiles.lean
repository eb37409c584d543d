/-
  TsProject.Config.RootFiles — the root files a config names.

  The files listed one by one come first, whether they exist or not. Files found by
  specs follow, in the order found; of files that differ in their extension only, the
  one with the best extension of its group is taken.
-/

import TsProject.Config.Validation
import TsProject.Host

namespace TsProject.Config

/-! ## Extensions -/

/-- A group lists extensions that stand for the same module, the best one first. -/
abbrev ExtensionGroup := List Text

def typeScriptGroups : List ExtensionGroup :=
  [[".ts", ".tsx", ".d.ts"].map Text.of, [".cts", ".d.cts"].map Text.of, [".mts", ".d.mts"].map Text.of]

def allGroups : List ExtensionGroup :=
  [[".ts", ".tsx", ".d.ts", ".js", ".jsx"].map Text.of, [".cts", ".d.cts", ".cjs"].map Text.of,
   [".mts", ".d.mts", ".mjs"].map Text.of]

def Options.extensionGroups (o : Options) : List ExtensionGroup :=
  if o.isSet "allowJs" then allGroups else typeScriptGroups

/-- The longest extension of a group that a name in lower case ends in. -/
def longestExtension? (lowered : Text) (group : ExtensionGroup) : Option Text :=
  (group.filter (Text.endsWith lowered)).foldl
    (fun best e => match best with
      | some b => if b.length < e.length then some e else some b
      | none => some e) none

/-- The group a file name belongs to, and its extension there. -/
def extensionOf? (groups : List ExtensionGroup) (fileName : Text) : Option (ExtensionGroup × Text) :=
  groups.findSome? fun group => (longestExtension? (Text.lower fileName) group).map fun e => (group, e)

/-! ## Taking files -/

/-- Paths under the keys by which the file system tells files apart, in the order they were taken. -/
abbrev Taken := List (Text × Text)

namespace Taken

def has (t : Taken) (key : Text) : Bool := t.any (·.1 == key)

/-- The path under a key, which keeps its place if it is there. -/
def put (t : Taken) (key path : Text) : Taken :=
  if t.has key then t.map fun e => if e.1 = key then (key, path) else e else t ++ [(key, path)]

def without (t : Taken) (keys : List Text) : Taken := t.filter fun e => !keys.contains e.1

end Taken

/-- One more file found by specs, unless a better one or the file itself is taken. Worse ones make way. -/
def takeFound (key : Text → Text) (groups : List ExtensionGroup) (listed found : Taken) (path : Text) : Taken :=
  match extensionOf? groups path with
  | none => found
  | some (group, extension) =>
    let stem := path.take (path.length - extension.length)
    let keyWith (e : Text) : Text := key (stem ++ e)
    let better := group.takeWhile (· != extension)
    let worse := (group.dropWhile (· != extension)).drop 1
    if better.any fun e => listed.has (keyWith e) || found.has (keyWith e) then found
    else
      let found := found.without (worse.map keyWith)
      if listed.has (key path) || found.has (key path) then found else found ++ [(key path, path)]

/-- The files listed one by one, as absolute paths. -/
def listedFiles (key : Text → Text) (base : Text) (files : List Text) : Taken :=
  files.foldl (fun t f => let path := Path.resolve f base; t.put (key path) path) []

/-- The root files: those listed, then those of the search results that are taken. -/
def chooseFiles (key : Text → Text) (groups : List ExtensionGroup) (listed : Taken) (results : List Text) :
    List Text :=
  (listed ++ results.foldl (takeFound key groups listed) []).map (·.2)

def rootFiles (h : Host) (options : Options) (base : Text) (files includes excludes : List Text) : List Text :=
  let groups := options.extensionGroups
  let key := Glob.canonical h.caseSensitive
  let results := if includes.isEmpty then [] else h.readDirectory base groups.flatten excludes includes none
  chooseFiles key groups (listedFiles key base files) results

end TsProject.Config
