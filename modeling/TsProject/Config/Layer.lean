/-
  TsProject.Config.Layer — what a config contributes, and how contributions combine.

  A layer holds the specs and the options of one config, or of a config and all it
  extends. `overlay` lets a second layer win wherever it sets something; `rebase`
  anchors relative specs at a directory, so that they mean the same when inherited.

  Resolving a config follows its `extends` entries, depth first and in order. The
  paths on the way are remembered: a config that is on the way already closes a
  circle, is reported and contributes nothing.
-/

import TsProject.Config.Extends
import TsProject.Config.File
import TsProject.Config.Validation

namespace TsProject.Config

structure Layer where
  files : Option (List Text) := none
  includes : Option (List Text) := none
  excludes : Option (List Text) := none
  options : Fields := []

namespace Layer

def overlay (a b : Layer) : Layer where
  files := b.files <|> a.files
  includes := b.includes <|> a.includes
  excludes := b.excludes <|> a.excludes
  options := a.options.merge b.options

/-- The layer with every spec changed. -/
def mapSpecs (f : Text → Text) (l : Layer) : Layer where
  files := l.files.map (List.map f)
  includes := l.includes.map (List.map f)
  excludes := l.excludes.map (List.map f)
  options := l.options

/-- A relative spec as an absolute path. -/
def anchor (directory spec : Text) : Text :=
  if Text.startsWith spec configDirTemplate || Path.isRooted spec then spec else Path.resolve spec directory

def rebase (directory : Text) (l : Layer) : Layer := l.mapSpecs (anchor directory)

end Layer

/-! ## The top level of a config -/

/-- The settings of one config that are interpreted. -/
structure TopLevel where
  /-- The configs it extends, as written. -/
  entries : List Text := []
  files : Option (List Text) := none
  includes : Option (List Text) := none
  excludes : Option (List Text) := none
  options : Fields := []

/-- A setting with its problem, if its value is not of its type. Null counts as not set. -/
def setting {α : Type} (config : Fields) (key : String) (check : Value → Except Fault α) : Option α × List Problem :=
  match config.get? (Text.of key) with
  | none => (none, [])
  | some .null => (none, [])
  | some v =>
    match check v with
    | .ok a => (some a, [])
    | .error fault => (none, [fault.problem (Text.of key)])

def checkExtends (v : Value) : Except Fault (List Text) :=
  match v, checkTextList v with
  | .text t, _ => .ok [t]
  | _, .ok ts => .ok ts
  | _, .error _ => .error (.type "string or Array")

def checkObject : Value → Except Fault Fields
  | .object fields => .ok fields
  | _ => .error (.type "object")

/-- The settings of a config and the problems with them. -/
def topLevel (config : Fields) : Except Failure (TopLevel × List Problem) :=
  if config.any (Text.hasSurrogate ·.1) then .error .invalidKey
  else
    let (entries, p₁) := setting config "extends" checkExtends
    let (files, p₂) := setting config "files" checkTextList
    let (includes, p₃) := setting config "include" checkTextList
    let (excludes, p₄) := setting config "exclude" checkTextList
    let (options, p₅) := setting config "compilerOptions" checkObject
    .ok ({ entries := entries.getD [], files, includes, excludes, options := options.getD [] },
      p₁ ++ p₂ ++ p₃ ++ p₄ ++ p₅)

/-! ## Inheritance -/

/-- A computation that collects problems and may fail. -/
abbrev Resolve := StateT (List Problem) (Except Failure)

def report (ps : List Problem) : Resolve Unit := modify (· ++ ps)

/-- The names of a file compare in lower case where the file system ignores case. -/
def sameFile (h : Host) (a b : Text) : Bool := Glob.canonical h.caseSensitive a == Glob.canonical h.caseSensitive b

/-- The layer of one config without what it extends, and its `extends` entries. -/
def ownLayer (config : Fields) (base : Text) : Resolve (Layer × List Text) := do
  let (top, problems) ← topLevel config
  report problems
  let options ← convertOptions top.options base
  report options.problems
  return ({ files := top.files, includes := top.includes, excludes := top.excludes, options := options.values },
    top.entries)

/-- The layer of the config an `extends` entry refers to, resolved by `next` and anchored at its
directory. An entry that leads nowhere, or to a config on the way, gives none. -/
def extendedLayer (h : Host) (next : Fields → Text → List Text → Resolve Layer) (base : Text) (path : List Text)
    (entry : Text) : Resolve (Option Layer) := do
  match extendsPath h entry base with
  | .error problem =>
    report [problem]
    return none
  | .ok file =>
    if path.any (sameFile h file) then
      report [.circular (path ++ [file])]
      return none
    else
      match load h.text? file with
      | .error problem =>
        report [problem]
        return none
      | .ok config =>
        let directory := Path.directory file
        let layer ← next config directory (path ++ [file])
        return some (layer.rebase directory)

/-- A config's own layer over those it extends, a later one over an earlier one. -/
def layerOver (h : Host) (next : Fields → Text → List Text → Resolve Layer) (config : Fields) (base : Text)
    (path : List Text) : Resolve Layer := do
  let (own, entries) ← ownLayer config base
  let inherited ← entries.mapM (extendedLayer h next base path)
  return (inherited.filterMap id).foldl Layer.overlay {} |>.overlay own

/-- The layer of a config and all it extends. `path` lists the configs on the way to it, the outermost
first; no more than `depth` further ones are followed in a row. -/
def resolveLayer (h : Host) : Nat → Fields → Text → List Text → Resolve Layer
  | 0 => layerOver h fun _ _ _ => pure {}
  | depth + 1 => layerOver h (resolveLayer h depth)

end TsProject.Config
