/-
  TsProject.Config.Resolution — from a config object to root files and options.

  The config and all it extends are one layer; its options are set over those that
  exist already, with the config directory put in for its template. Without files and
  includes everything below the directory is included; without excludes the output
  directories are excluded. Refused specs are reported and left out. Whatever is
  wrong with the config is listed in the order it was found.
-/

import TsProject.Config.Layer
import TsProject.Config.RootFiles
import TsProject.Config.Specs

namespace TsProject.Config

open CodePoint

structure Resolution where
  fileNames : List Text
  options : Options
  problems : List Problem
  /-- The config as given. -/
  raw : Fields

structure Request where
  config : Fields
  base : Text
  existing : Option Options := none
  /-- Where the config comes from, for messages and to notice circles. -/
  fileName : Option Text := none

def everything : Text := Text.of "**/*"

/-- The options of a layer set over those that exist already. -/
def effectiveOptions (base : Text) (existing : Option Options) (layer : Layer) : Except Failure Options :=
  let inherited := (existing.map Options.values).getD []
  Options.ofFields (inherited.merge (layer.options.map fun f => (f.1, substitute base f.2)))

/-- The directories a build writes to, which are excluded unless the config says otherwise. -/
def outputDirectories (o : Options) : List Text := (o.text? "outDir").toList ++ (o.text? "declarationDir").toList

/-- The file name of a request; an empty one counts as none. -/
def Request.name? (r : Request) : Option Text := r.fileName.filter (!·.isEmpty)

/-- The outcome for a layer whose effective options are known, after the problems found on the way. -/
def conclude (h : Host) (r : Request) (layer : Layer) (options : Options) (problems : List Problem) : Resolution :=
  let base := Path.normalize r.base
  let displayName := r.name?.getD (Text.of "tsconfig.json")
  let specs := layer.mapSpecs (substituteText base)
  let emptyProblem :=
    if specs.files = some [] ∧ specs.includes = none then [Problem.emptyFiles displayName] else []
  let includes :=
    if specs.files = none ∧ specs.includes = none then [everything] else specs.includes.getD []
  let excludes := specs.excludes.getD (outputDirectories options)
  let validIncludes := validSpecs true includes
  let validExcludes := validSpecs false excludes
  let fileNames := rootFiles h options base (specs.files.getD []) validIncludes validExcludes
  let inputProblem :=
    if fileNames.isEmpty ∧ specs.files = none then [Problem.noInputs displayName validIncludes validExcludes] else []
  { fileNames
    options := { options with configPath := r.name?.map Path.normalize }
    problems := problems ++ emptyProblem ++ specProblems true includes ++ specProblems false excludes ++ inputProblem
    raw := r.config }

def resolve (h : Host) (r : Request) : Except Failure Resolution := do
  let base := Path.normalize r.base
  let way := (r.name?.map Path.normalize).toList
  let (layer, problems) ← (resolveLayer h h.readableFiles r.config base way).run []
  let options ← effectiveOptions base r.existing layer
  return conclude h r layer options problems

end TsProject.Config
