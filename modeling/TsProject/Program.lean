/-
  TsProject.Program — a project with its root files read and parsed.

  `Program.create` reads the root files; one that cannot be read is reported and has
  no source file, and a path is read once however often it is named.
  `Program.ofConfigFile` loads a config first. Anything wrong with the config ends the
  attempt: the failure lists every problem, each serialized on a line of its own.
-/

import TsProject.Config.Resolution

namespace TsProject

open Config

structure Program where
  rootNames : List Text
  options : Options
  currentDirectory : Text
  /-- The root files that could be read, in order; their names are their paths. -/
  sourceFiles : List SourceFile := []
  missing : List Problem := []

namespace Program

inductive LoadError where
  /-- The config could not be read or has problems. -/
  | problems (ps : List Problem)
  | config (f : Config.Failure)

/-- What a user is told about problems with a config: a line of JSON for each. -/
def problemReport (ps : List Problem) : Text :=
  Text.join [CodePoint.lineFeed] (ps.map fun p => p.diagnostic.line)

def file? (p : Program) (path : Text) : Option SourceFile := p.sourceFiles.find? (·.name == path)

/-- Reads one more root file, unless it is there already. -/
def addRoot (h : Host) (grammar : Grammar) (p : Program) (name : Text) : Program :=
  let path := Path.resolve name p.currentDirectory
  if (p.file? path).isSome then p
  else match h.text? path with
    | none => { p with missing := p.missing ++ [.fileNotFound path] }
    | some text =>
      { p with sourceFiles := p.sourceFiles ++ [SourceFile.parse grammar path text (ScriptKind.ofFileName path)] }

def create (h : Host) (grammar : Grammar) (rootNames : List Text) (options : Options) : Program :=
  rootNames.foldl (addRoot h grammar) { rootNames, options, currentDirectory := h.currentDirectory }

def ofConfigFile (h : Host) (grammar : Grammar) (configPath : Text) : Except LoadError Program :=
  let path := Path.resolve configPath h.currentDirectory
  match load h.text? path with
  | .error problem => .error (.problems [problem])
  | .ok config =>
    match Config.resolve h { config, base := Path.directory path, fileName := some path } with
    | .error failure => .error (.config failure)
    | .ok resolved =>
      if resolved.problems.isEmpty then .ok (create h grammar resolved.fileNames resolved.options)
      else .error (.problems resolved.problems)

/-- A source file by its name, read like the name of a root file. -/
def sourceFile? (p : Program) (name : Text) : Option SourceFile := p.file? (Path.resolve name p.currentDirectory)

def globalDiagnostics (p : Program) : List Diagnostic := p.missing.map Problem.diagnostic

/-- A one-line description. -/
def summary (p : Program) : Text :=
  Text.of "Program(" ++ Text.ofNat p.sourceFiles.length ++ Text.of " file(s))"

end Program

end TsProject
