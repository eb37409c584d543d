/-
  TsProject.Config.Problem — what can be wrong with a config.

  One constructor for each cause, with the data its message names. `entry` and
  `arguments` say how it is reported; every entry gets as many arguments as it has slots.
-/

import TsProject.Diagnostic.Catalog

namespace TsProject.Config

inductive Problem where
  | unreadableFile (path : Text)
  | malformedFile (path reason : Text)
  | rootNotObject (baseName : Text)
  | unknownOption (name : Text) (suggestion : Option Text)
  /-- The value of an option is not of its type. -/
  | wrongType (option type : Text)
  /-- The value of an option is none of its choices. -/
  | notAChoice (option : Text) (choices : List Text)
  | emptyOption (option : Text)
  | fileNotFound (path : Text)
  /-- The paths of the configs on the way, the repeated one last. -/
  | circular (chain : List Text)
  | emptyFiles (config : Text)
  | noInputs (config : Text) (includes excludes : List Text)
  | endsInRecursion (spec : Text)
  | parentAfterRecursion (spec : Text)
  deriving DecidableEq

namespace Problem

def entry : Problem → Catalog.Entry
  | .unreadableFile .. => Catalog.unreadableFile
  | .malformedFile .. => Catalog.parseFailure
  | .rootNotObject .. => Catalog.rootNotObject
  | .unknownOption _ none => Catalog.unknownOption
  | .unknownOption _ (some _) => Catalog.unknownOptionSuggestion
  | .wrongType .. => Catalog.optionType
  | .notAChoice .. => Catalog.optionChoices
  | .emptyOption .. => Catalog.emptyOption
  | .fileNotFound .. => Catalog.fileNotFound
  | .circular .. => Catalog.circularity
  | .emptyFiles .. => Catalog.emptyFiles
  | .noInputs .. => Catalog.noInputs
  | .endsInRecursion .. => Catalog.endsInRecursion
  | .parentAfterRecursion .. => Catalog.parentAfterRecursion

def code (p : Problem) : Nat := p.entry.code

def quotedChoice (choice : Text) : Text := Text.of "'" ++ choice ++ Text.of "'"

/-- Specs as they are shown in messages: a JSON list without blanks. -/
def specList (specs : List Text) : Text := (Json.Document.list (specs.map .text)).write .compact

def arguments : Problem → List Text
  | .unreadableFile path => [path]
  | .malformedFile path reason => [path, reason]
  | .rootNotObject baseName => [baseName]
  | .unknownOption name suggestion => name :: suggestion.toList
  | .wrongType option type => [option, type]
  | .notAChoice option choices => [Text.of "--" ++ option, Text.join (Text.of ", ") (choices.map quotedChoice)]
  | .emptyOption option => [option]
  | .fileNotFound path => [path]
  | .circular chain => [Text.join (Text.of " -> ") chain]
  | .emptyFiles config => [config]
  | .noInputs config includes excludes => [config, specList includes, specList excludes]
  | .endsInRecursion spec => [spec]
  | .parentAfterRecursion spec => [spec]

def text (p : Problem) : Text := (p.entry.fill p.arguments).getD []

def diagnostic (p : Problem) : Diagnostic := .ofText p.entry p.text

end Problem

end TsProject.Config
