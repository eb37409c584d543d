/-
  TsProject.Config.File — from the text of a config file to its object.

  Byte order marks at the start are dropped, and a text of blanks alone is the empty
  object. Any other text must be a JSON5 object.
-/

import TsProject.Config.Problem
import TsProject.Json5
import TsProject.Path

namespace TsProject.Config

open CodePoint

/-- The object in the text of the named config file. -/
def parseText (fileName text : Text) : Except Problem Fields :=
  let text := Text.trimStart (· == byteOrderMark) text
  if text.all Text.isBlank then .ok []
  else match Json5.parse text with
    | .error e => .error (.malformedFile fileName (Text.trimEnd (· == dot) e.message))
    | .ok (.object fields) => .ok fields
    | .ok _ => .error (.rootNotObject (Path.baseName (Path.forwardSlashes fileName)))

/-- The object in a config file, read by the given function. -/
def load (read : Text → Option Text) (fileName : Text) : Except Problem Fields :=
  match read fileName with
  | none => .error (.unreadableFile fileName)
  | some text => parseText fileName text

end TsProject.Config
