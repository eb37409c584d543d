/-
  TsProject.Config.Validation — checking values against their types.

  Types are strict: nothing is converted, and null is a value of every type. A choice
  is compared, and kept, in lower case, and so are library names. Checking the options
  of a config gives the values that pass, in the order of the table, and one problem
  for each key that does not: first the known options in the order of the table, then
  the unknown ones in the order of the config.

  A key that is no valid Unicode text makes the whole check fail.
-/

import TsProject.Config.Options
import TsProject.Config.Problem
import TsProject.Config.Suggestion
import TsProject.Path

namespace TsProject.Config

/-- Why a config cannot be checked at all. -/
inductive Failure where
  /-- A key holds a lone surrogate. -/
  | invalidKey
  /-- A value that should be valid by now is not. -/
  | invalidValue
  /-- A list of paths is set to null. -/
  | nullPathList
  deriving DecidableEq

/-- What is wrong with one value. -/
inductive Fault where
  | type (label : String)
  | choice (words : List String)
  deriving DecidableEq

def Fault.problem (key : Text) : Fault → Problem
  | .type label => .wrongType key (Text.of label)
  | .choice words => .notAChoice key (words.map Text.of)

/-! ## Values -/

def checkTexts (items : List Value) : Except Fault (List Text) :=
  items.mapM fun v => match v with
    | .text t => .ok t
    | _ => .error (.type "string")

def checkTextList : Value → Except Fault (List Text)
  | .array items => checkTexts items
  | _ => .error (.type "Array")

def checkObjects (items : List Value) : Except Fault Unit :=
  items.forM fun v => match v with
    | .object _ => .ok ()
    | _ => .error (.type "object")

def checkMapping (fields : List (Text × Value)) : Except Fault Unit :=
  fields.forM fun f => discard (checkTextList f.2)

/-- The value an option keeps, or what is wrong with the one it is given. -/
def OptionType.check (type : OptionType) (v : Value) : Except Fault Value :=
  match type, v with
  | _, .null => .ok .null
  | .flag, .bool b => .ok (.bool b)
  | .flag, _ => .error (.type "boolean")
  | .number, .int n => .ok (.int n)
  | .number, _ => .error (.type "number")
  | .string, .text t => .ok (.text t)
  | .string, _ => .error (.type "string")
  | .path, .text t => .ok (.text t)
  | .path, _ => .error (.type "string")
  | .choice words, .text t =>
    let word := Text.lower t
    if Text.hasSurrogate word then .error (.type "string unicode")
    else if (words.map Text.of).contains word then .ok (.text word)
    else .error (.choice words)
  | .choice words, _ => .error (.choice words)
  | .strings, v => (checkTextList v).map Value.texts
  | .paths, v => (checkTextList v).map Value.texts
  | .libraries, v => (checkTextList v).map fun ts => Value.texts (ts.map Text.lower)
  | .mapping, .object fields => (checkMapping fields).map fun _ => .object fields
  | .mapping, _ => .error (.type "object")
  | .objects, .array items => (checkObjects items).map fun _ => .array items
  | .objects, _ => .error (.type "Array")

/-! ## Options -/

/-- The result of checking the options of one config. -/
structure Checked where
  values : Fields := []
  problems : List Problem := []

/-- The value of one option, if the config sets it, checked. -/
def checkOption (raw : Fields) (o : OptionSpec) : Checked :=
  match raw.get? o.key with
  | none => {}
  | some v =>
    match o.type.check v with
    | .ok v => { values := [(o.key, v)] }
    | .error fault => { problems := [fault.problem o.key] }

def Checked.append (a b : Checked) : Checked := ⟨a.values ++ b.values, a.problems ++ b.problems⟩

def unknownProblem (key : Text) : Problem := .unknownOption key (closest? optionNames key)

/-- The known options that pass, and a problem for every other key. The config path is checked and left
out. -/
def checkOptions (raw : Fields) : Except Failure Checked :=
  if raw.any (Text.hasSurrogate ·.1) then .error .invalidKey
  else
    let known := (optionSpecs.map (checkOption raw)).foldl Checked.append {}
    let unknown := (raw.map (·.1)).filter fun key => (optionSpec? key).isNone
    .ok ⟨known.values, known.problems ++ (checkOption raw configPathOption).problems ++ unknown.map unknownProblem⟩

/-- Effective options: the values that are set, in the order of the table, and the config they come from. -/
structure Options where
  values : Fields := []
  configPath : Option Text := none

namespace Options

/-- Options all of whose values are valid. -/
def ofFields (raw : Fields) : Except Failure Options := do
  let checked ← checkOptions raw
  if checked.problems.isEmpty then
    return { values := checked.values, configPath := (raw.get? configPathOption.key).bind Value.text? }
  else throw .invalidValue

/-- The options that are set to something. -/
def nonNull (o : Options) : Fields := o.values.filter fun f => !f.2.isNull

def isSet (o : Options) (name : String) : Bool :=
  match o.values.get? (Text.of name) with
  | some (.bool b) => b
  | _ => false

/-- The text of an option, unless it is empty. -/
def text? (o : Options) (name : String) : Option Text :=
  match o.values.get? (Text.of name) with
  | some (.text (c :: t)) => some (c :: t)
  | _ => none

end Options

/-! ## Paths -/

/-- Stands for the directory of the config that is loaded, at the start of a value. -/
def configDirTemplate : Text := Text.of "$\x7bconfigDir\x7d"

def resolvePath (base t : Text) : Text := if Text.startsWith t configDirTemplate then t else Path.resolve t base

def resolvePathValue (base : Text) : Value → Value
  | .text t => .text (resolvePath base t)
  | v => v

/-- A checked value with its paths read against the directory of its config. -/
def OptionType.resolve (type : OptionType) (base : Text) (v : Value) : Except Failure Value :=
  match type, v with
  | .path, v => .ok (resolvePathValue base v)
  | .paths, .array items => .ok (.array (items.map (resolvePathValue base)))
  | .paths, _ => .error .nullPathList
  | _, v => .ok v

def resolveField (base : Text) (f : Text × Value) : Except Failure (Text × Value) :=
  match optionSpec? f.1 with
  | none => .ok f
  | some o => (o.type.resolve base f.2).map fun v => (f.1, v)

/-- The options of one config: valid values with their paths resolved, and a problem for every key that
has none. -/
def convertOptions (raw : Fields) (base : Text) : Except Failure Checked := do
  let checked ← checkOptions raw
  let values ← checked.values.mapM (resolveField base)
  return { checked with values }

end TsProject.Config
