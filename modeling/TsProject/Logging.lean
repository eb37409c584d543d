/-
  TsProject.Logging — how log records are filtered and shown.

  Setting up logging leaves a logger with one handler, however often it is done, and
  keeps its records from loggers above it. Only the level depends on verbosity.
-/

import TsProject.Text.Basic

namespace TsProject

inductive LogLevel where
  | debug
  | warning
  deriving DecidableEq

def LogLevel.name : LogLevel → Text
  | .debug => Text.of "DEBUG"
  | .warning => Text.of "WARNING"

structure Logger where
  level : LogLevel := .warning
  handlers : Nat := 0
  propagates : Bool := true

/-- The logger after setting it up, whatever it was before. -/
def Logger.setUp (verbose : Bool) (_ : Logger) : Logger where
  level := if verbose then .debug else .warning
  handlers := 1
  propagates := false

/-- A record as the handler shows it. -/
def Logger.format (name message : Text) : Text := Text.of "[" ++ name ++ Text.of "] " ++ message

end TsProject
