/-
  TsProject.Diagnostic — what is reported, and its serialized form.

  A diagnostic ties a message to a span of a source file; one about the project as a
  whole has no file. A message is a text or a chain: a text with elaborations below
  it, each of which may have its own. Serialized, absent parts are left out, and a
  chain without elaborations has no `next`.
-/

import TsProject.Json.Writer
import TsProject.Source

namespace TsProject

/-! ## Messages -/

inductive Category where
  | warning
  | error
  | suggestion
  | message
  deriving DecidableEq

namespace Category

def number : Category → Nat
  | .warning => 0
  | .error => 1
  | .suggestion => 2
  | .message => 3

def name : Category → Text
  | .warning => Text.of "warning"
  | .error => Text.of "error"
  | .suggestion => Text.of "suggestion"
  | .message => Text.of "message"

end Category

inductive MessageChain where
  | mk (text : Text) (category : Category) (code : Int) (next : List MessageChain)

inductive Message where
  | absent
  | plain (t : Text)
  | chain (c : MessageChain)

namespace MessageChain

mutual

/-- The chain as text: below the top level every message starts a new line, indented by two spaces
for each level. -/
def flatten (newLine : Text) (indent : Int) : MessageChain → Text
  | mk text _ _ next =>
    (if indent = 0 then [] else newLine ++ List.replicate (2 * indent.toNat) CodePoint.space)
      ++ text ++ flattenAll newLine (indent + 1) next

def flattenAll (newLine : Text) (indent : Int) : List MessageChain → Text
  | [] => []
  | c :: cs => flatten newLine indent c ++ flattenAll newLine indent cs

end

mutual

def document : MessageChain → Json.Document
  | mk text category code next =>
    .object <|
      [(Text.of "messageText", .text text), (Text.of "category", .int category.number), (Text.of "code", .int code)]
        ++ (if next.isEmpty then [] else [(Text.of "next", .list (documents next))])

def documents : List MessageChain → List Json.Document
  | [] => []
  | c :: cs => document c :: documents cs

end

end MessageChain

namespace Message

def flatten (newLine : Text) (indent : Int) : Message → Text
  | .absent => []
  | .plain t => t
  | .chain c => c.flatten newLine indent

def document : Message → Option Json.Document
  | .absent => none
  | .plain t => some (.text t)
  | .chain c => some c.document

end Message

/-! ## Diagnostics -/

/-- A place with a message. -/
structure Location where
  file : Option SourceFile := none
  start : Option Int := none
  length : Option Int := none
  message : Message
  category : Category := .message
  code : Int := 0

structure Diagnostic extends Location where
  /-- The tool that reports it, if it is not the compiler. -/
  source : Option Text := none
  related : Option (List Location) := none

/-- A field that is written only if it is there. -/
def optionalField (key : String) (d : Option Json.Document) : List (Text × Json.Document) :=
  (d.map fun d => (Text.of key, d)).toList

def Location.fields (l : Location) : List (Text × Json.Document) :=
  optionalField "file" (l.file.map fun f => .text f.name)
    ++ optionalField "start" (l.start.map .int)
    ++ optionalField "length" (l.length.map .int)
    ++ optionalField "messageText" l.message.document
    ++ [(Text.of "category", .int l.category.number), (Text.of "code", .int l.code)]

def Location.document (l : Location) : Json.Document := .object l.fields

namespace Diagnostic

def document (d : Diagnostic) : Json.Document :=
  .object <| d.toLocation.fields
    ++ optionalField "source" (d.source.map .text)
    ++ optionalField "relatedInformation" (d.related.map fun ls => .list (ls.map Location.document))

/-- The diagnostic as one line of JSON. -/
def line (d : Diagnostic) : Text := d.document.write .spaced

end Diagnostic

end TsProject
