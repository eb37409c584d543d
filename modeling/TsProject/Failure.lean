/-
  TsProject.Failure — known and unexpected failures.

  A known failure carries a message that is written for the user: it is displayed and
  that is all. Any other failure is unexpected; it is described by its type and message
  but never displayed, only passed on.
-/

import TsProject.Console

namespace TsProject

inductive Failure where
  | known (message : Text)
  | unexpected (type message : Text)
  deriving DecidableEq

namespace Failure

def isKnown : Failure → Bool
  | .known _ => true
  | .unexpected .. => false

/-- A one-line description. -/
def describe : Failure → Text
  | .known message => message
  | .unexpected type message => type ++ Text.of ": " ++ message

/-- What is written for a failure and the message that was shown; an unexpected failure is passed on. -/
def display : Failure → Except Failure (Text × Text)
  | .known message => .ok (Console.plainMessage message, message)
  | f => .error f

end Failure

end TsProject
