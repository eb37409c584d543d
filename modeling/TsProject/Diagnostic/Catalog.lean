/-
  TsProject.Diagnostic.Catalog — the messages the compiler has numbers for.

  An entry is a code, a category and a template whose slots are filled with
  arguments by position. More arguments than slots do no harm; a slot without an
  argument leaves no message.
-/

import TsProject.Diagnostic

namespace TsProject.Catalog

inductive Piece where
  | words (t : String)
  | slot (i : Nat)
  deriving DecidableEq

structure Entry where
  code : Nat
  category : Category := .error
  template : List Piece

def fillPiece (args : List Text) : Piece → Option Text
  | .words t => some (Text.of t)
  | .slot i => args[i]?

def Entry.fill (e : Entry) (args : List Text) : Option Text := (e.template.mapM (fillPiece args)).map List.flatten

/-! ## Syntax -/

def expected : Entry := { code := 1005, template := [.words "'", .slot 0, .words "' expected."] }

def unexpectedToken : Entry := { code := 1012, template := [.words "Unexpected token."] }

/-! ## Config files -/

def endsInRecursion : Entry :=
  { code := 5010
    template := [.words "File specification cannot end in a recursive directory wildcard ('**'): '", .slot 0,
      .words "'."] }

def parseFailure : Entry :=
  { code := 5014, template := [.words "Failed to parse file '", .slot 0, .words "': ", .slot 1, .words "."] }

def unknownOption : Entry := { code := 5023, template := [.words "Unknown compiler option '", .slot 0, .words "'."] }

def optionType : Entry :=
  { code := 5024
    template := [.words "Compiler option '", .slot 0, .words "' requires a value of type ", .slot 1, .words "."] }

def unknownOptionSuggestion : Entry :=
  { code := 5025
    template := [.words "Unknown compiler option '", .slot 0, .words "'. Did you mean '", .slot 1, .words "'?"] }

def parentAfterRecursion : Entry :=
  { code := 5065
    template := [.words "File specification cannot contain a parent directory ('..') that appears after a ",
      .words "recursive directory wildcard ('**'): '", .slot 0, .words "'."] }

def unreadableFile : Entry := { code := 5083, template := [.words "Cannot read file '", .slot 0, .words "'."] }

def rootNotObject : Entry :=
  { code := 5092, template := [.words "The root value of a '", .slot 0, .words "' file must be an object."] }

def optionChoices : Entry :=
  { code := 6046, template := [.words "Argument for '", .slot 0, .words "' option must be: ", .slot 1, .words "."] }

def fileNotFound : Entry := { code := 6053, template := [.words "File '", .slot 0, .words "' not found."] }

def circularity : Entry :=
  { code := 18000, template := [.words "Circularity detected while resolving configuration: ", .slot 0] }

def emptyFiles : Entry :=
  { code := 18002, template := [.words "The 'files' list in config file '", .slot 0, .words "' is empty."] }

def noInputs : Entry :=
  { code := 18003
    template := [.words "No inputs were found in config file '", .slot 0, .words "'. Specified 'include' paths were '",
      .slot 1, .words "' and 'exclude' paths were '", .slot 2, .words "'."] }

def emptyOption : Entry :=
  { code := 18051, template := [.words "Compiler option '", .slot 0, .words "' cannot be given an empty string."] }

end TsProject.Catalog

namespace TsProject

/-! ## Diagnostics from the catalog -/

namespace Diagnostic

/-- A diagnostic about the project as a whole. -/
def ofText (e : Catalog.Entry) (text : Text) : Diagnostic :=
  { message := .plain text, category := e.category, code := e.code }

/-- A diagnostic about a span of a file. -/
def inFile (e : Catalog.Entry) (file : SourceFile) (start length : Int) (text : Text) : Diagnostic :=
  { file := some file, start := some start, length := some length, message := .plain text, category := e.category
    code := e.code }

end Diagnostic

end TsProject
