/-
  TsProject.Config.Specs — which include and exclude specs are refused, and the template
  that stands for the directory of the loaded config.

  A spec must not climb to a parent directory behind a `**` component, and an include
  must not end in one.
-/

import TsProject.Config.Problem
import TsProject.Config.Validation
import TsProject.Pattern

namespace TsProject.Config

open CodePoint Pattern

/-! ## Refused specs -/

/-- The rests of a spec that start a component: the spec itself and what follows each slash. -/
def componentStarts (spec : Text) : List Text := spec :: behindSlashes spec
where
  behindSlashes : Text → List Text
    | [] => []
    | c :: s => if c = slash then s :: behindSlashes s else behindSlashes s

/-- `**` or `**/` at the end of a spec. -/
def trailingRecursion : Pattern := .seq (literal (Text.of "**")) (.seq (.repeated .optional (.char slash)) .atEnd)

/-- `**/`, then perhaps other components on the same line, then `..`. -/
def recursionThenParent : Pattern :=
  .seq (literal (Text.of "**/"))
    (.seq (.repeated .optional (.group (.seq (.repeated .many .anyInLine) (.char slash))))
      (.seq (literal (Text.of "..")) (.either .atEnd (.char slash))))

def hasAtComponent (p : Pattern) (spec : Text) : Bool := (componentStarts spec).any (isMatch true p)

/-- The problem with a spec, if it has one. -/
def specProblem? (isInclude : Bool) (spec : Text) : Option Problem :=
  if isInclude && hasAtComponent trailingRecursion spec then some (.endsInRecursion spec)
  else if hasAtComponent recursionThenParent spec then some (.parentAfterRecursion spec)
  else none

def validSpecs (isInclude : Bool) (specs : List Text) : List Text :=
  specs.filter fun s => (specProblem? isInclude s).isNone

def specProblems (isInclude : Bool) (specs : List Text) : List Problem := specs.filterMap (specProblem? isInclude)

/-! ## The config directory -/

/-- A text that starts with the template is a path in the directory of the loaded config. -/
def substituteText (configDir t : Text) : Text :=
  if Text.startsWith t configDirTemplate then
    Path.normalize (configDir ++ slash :: Text.trimStart (· == slash) (t.drop configDirTemplate.length))
  else t

mutual

/-- Substitutes in a text and in the texts of a list, at any depth of lists. -/
def substitute (configDir : Text) : Value → Value
  | .text t => .text (substituteText configDir t)
  | .array items => .array (substituteAll configDir items)
  | v => v

def substituteAll (configDir : Text) : List Value → List Value
  | [] => []
  | v :: vs => substitute configDir v :: substituteAll configDir vs

end

end TsProject.Config
