/-
  TsProject.Json5 — the value a JSON5 text stands for.

  Hexadecimal numbers and plain digits are integers; a point, an exponent, `Infinity`
  or `NaN` make a double. The syntax lets through decimals without any digit and
  exponents without digits; these are refused here, in the order of the text. A
  syntax error is reported at the furthest place where reading failed.
-/

import TsProject.Json5.Grammar
import TsProject.Value

namespace TsProject.Json5

open CodePoint

inductive Error where
  /-- Line and column, both from 1, and what stands there. -/
  | unexpected (line column : Nat) (found : Option CodePoint)
  | notANumber (written : Text)
  deriving DecidableEq

def Error.message : Error → Text
  | .unexpected line column found =>
    let what := match found with
      | some c => [quote, c, quote]
      | none => Text.of "end of input"
    Text.of "<string>:" ++ Text.ofNat line ++ Text.of " Unexpected " ++ what
      ++ Text.of " at column " ++ Text.ofNat column
  | .notANumber written => Text.of "could not convert string to float: '" ++ written ++ Text.of "'"

/-! ## Numbers -/

/-- Digits of a decimal before and behind the point, and its exponent if one is written. -/
structure Decimal where
  whole : Text
  fraction : Text
  exponent : Option Text

def Decimal.split (written : Text) : Decimal :=
  let mantissa := written.takeWhile (· != 'e'.toNat)
  { whole := mantissa.takeWhile (· != dot)
    fraction := (mantissa.dropWhile (· != dot)).drop 1
    exponent := if written.contains 'e'.toNat then some ((written.dropWhile (· != 'e'.toNat)).drop 1) else none }

def exponentValue (e : Text) : Option Int :=
  match e with
  | [] => some 0
  | plus :: ds => if ds.isEmpty then none else some (Text.decimalNumber ds)
  | minus :: ds => if ds.isEmpty then none else some (-(Text.decimalNumber ds : Int))
  | ds => some (Text.decimalNumber ds)

/-- The double an unsigned decimal stands for; it has a digit before the exponent, and one in it. -/
def Decimal.double? (d : Decimal) : Option Double :=
  if d.whole.isEmpty && d.fraction.isEmpty then none
  else if d.exponent = some [] then none
  else (exponentValue (d.exponent.getD [])).map fun e =>
    Double.ofDecimal (Text.decimalNumber (d.whole ++ d.fraction)) (e - d.fraction.length)

def signed (negative : Bool) (n : Nat) : Int := if negative then -(n : Int) else n

def Numeral.value : Numeral → Except Error Value
  | .hexadecimal negative digits => .ok (.int (signed negative (Text.hexNumber digits)))
  | .infinity negative => .ok (.double (if negative then Double.infinity.neg else Double.infinity))
  | .nan => .ok (.double Double.nan)
  | .decimal written =>
    let negative := Text.startsWith written [minus]
    let unsigned := if negative then written.drop 1 else written
    if unsigned.all isDigit then .ok (.int (signed negative (Text.decimalNumber unsigned)))
    else match (Decimal.split unsigned).double? with
      | none => .error (.notANumber written)
      | some x => .ok (.double (if negative then x.neg else x))

/-! ## Terms -/

mutual

def Term.value : Term → Except Error Value
  | .null => .ok .null
  | .bool b => .ok (.bool b)
  | .text t => .ok (.text t)
  | .number n => n.value
  | .array items => do
    let vs ← Term.values items
    return .array vs
  | .object members => do
    let fs ← Term.fields members
    return .object (Fields.ofList fs)

def Term.values : List Term → Except Error (List Value)
  | [] => .ok []
  | t :: ts => do
    let v ← t.value
    let vs ← Term.values ts
    return v :: vs

def Term.fields : List (Text × Term) → Except Error (List (Text × Value))
  | [] => .ok []
  | (k, t) :: ms => do
    let v ← t.value
    let fs ← Term.fields ms
    return (k, v) :: fs

end

/-! ## Texts -/

/-- The error for a failure with the given number of code points left. -/
def Error.atLeft (s : Text) (left : Nat) : Error :=
  let before := s.take (s.length - left)
  .unexpected (before.count lineFeed + 1) ((Text.afterLast lineFeed before).length + 1) s[s.length - left]?

def parse (s : Text) : Except Error Value :=
  match document s with
  | ⟨some (t, _), _⟩ => t.value
  | ⟨none, far⟩ => .error (.atLeft s (far.getD s.length))

end TsProject.Json5
