/-
  TsProject.Value — the data a config file holds.

  Objects keep their keys in the order of first appearance; setting a key again
  keeps its place. Integers are unbounded and apart from doubles.
-/

import TsProject.Double
import TsProject.Text.Basic

namespace TsProject

inductive Value where
  | null
  | bool (b : Bool)
  | int (n : Int)
  | double (x : Double)
  | text (t : Text)
  | array (items : List Value)
  | object (fields : List (Text × Value))

/-- Keys in order, each once. -/
abbrev Fields := List (Text × Value)

namespace Fields

def get? (fs : Fields) (key : Text) : Option Value := (fs.find? (·.1 == key)).map (·.2)

def has (fs : Fields) (key : Text) : Bool := fs.any (·.1 == key)

/-- A key that is there keeps its place and takes the new value; a new key goes last. -/
def set (fs : Fields) (key : Text) (v : Value) : Fields :=
  if has fs key then fs.map fun f => if f.1 = key then (f.1, v) else f else fs ++ [(key, v)]

def ofList (fs : List (Text × Value)) : Fields := fs.foldl (fun acc f => set acc f.1 f.2) []

/-- The fields of both, the second one deciding where both have a key. -/
def merge (fs gs : Fields) : Fields := gs.foldl (fun acc g => set acc g.1 g.2) fs

end Fields

namespace Value

def text? : Value → Option Text
  | .text t => some t
  | _ => none

def isNull : Value → Bool
  | .null => true
  | _ => false

def texts (ts : List Text) : Value := .array (ts.map .text)

end Value

end TsProject
