/-
  TsProject.Json5.Reader — backtracking readers that remember how far they came.

  A reader takes a start of the text and says what it read and what is left.
  Alternatives are tried in order and the first success counts; repetition is greedy
  and is not undone. Besides its result a reader reports the failure nearest to the
  end of the text, measured by what was left there: this is where an error message
  will point. A failure inside a look-ahead counts only if the look-ahead succeeds,
  that is, if what it forbids was not found.
-/

import TsProject.Text.Basic

namespace TsProject.Json5

structure Outcome (α : Type) where
  /-- What was read and what is left, unless the reader failed. -/
  result : Option (α × Text)
  /-- The least number of code points left at a failure. -/
  furthest : Option Nat

def Reader (α : Type) : Type := Text → Outcome α

def nearerEnd : Option Nat → Option Nat → Option Nat
  | none, b => b
  | a, none => a
  | some a, some b => some (min a b)

/-- An outcome that also counts a failure met before. -/
def Outcome.after {α : Type} (furthest : Option Nat) (o : Outcome α) : Outcome α :=
  ⟨o.result, nearerEnd furthest o.furthest⟩

namespace Reader

variable {α β : Type}

def succeed (a : α) : Reader α := fun s => ⟨some (a, s), none⟩

def fail : Reader α := fun s => ⟨none, some s.length⟩

def andThen (p : Reader α) (f : α → Reader β) : Reader β := fun s =>
  match p s with
  | ⟨none, far⟩ => ⟨none, far⟩
  | ⟨some (a, t), far⟩ => (f a t).after far

instance : Monad Reader where
  pure := succeed
  bind := andThen

/-- The first reader that succeeds. -/
def firstOf : List (Reader α) → Reader α
  | [] => fun _ => ⟨none, none⟩
  | p :: ps => fun s =>
    match p s with
    | ⟨none, far⟩ => (firstOf ps s).after far
    | o => o

/-- One code point of a class. -/
def satisfy (p : CodePoint → Bool) : Reader CodePoint
  | [] => ⟨none, some 0⟩
  | c :: t => if p c then ⟨some (c, t), none⟩ else ⟨none, some (t.length + 1)⟩

/-- One code point of a class that is looked at only once it has been taken, so that a failure is
noted behind it. -/
def satisfyTaken (p : CodePoint → Bool) : Reader CodePoint
  | [] => ⟨none, some 0⟩
  | c :: t => if p c then ⟨some (c, t), none⟩ else ⟨none, some t.length⟩

def any : Reader CodePoint := satisfy fun _ => true

def char (c : CodePoint) : Reader CodePoint := satisfy (· == c)

/-- The code points of a text one after the other. -/
def literal : Text → Reader Unit
  | [] => succeed ()
  | c :: cs => do
    let _ ← char c
    literal cs

/-- Succeeds without taking anything where the given reader fails. -/
def notAhead (p : Reader α) : Reader Unit := fun s =>
  match p s with
  | ⟨some _, _⟩ => ⟨none, some s.length⟩
  | ⟨none, far⟩ => ⟨some ((), s), far⟩

/-- As many as there are; a step that takes nothing is the last one. -/
def many (p : Reader α) (s : Text) : Outcome (List α) :=
  match p s with
  | ⟨none, far⟩ => ⟨some ([], s), far⟩
  | ⟨some (a, t), far⟩ =>
    if t.length < s.length then
      let rest := many p t
      ⟨rest.result.map fun r => (a :: r.1, r.2), nearerEnd far rest.furthest⟩
    else ⟨some ([a], t), far⟩
termination_by s.length

def atLeastOne (p : Reader α) : Reader (List α) := do
  let a ← p
  let as ← many p
  return a :: as

def optional (p : Reader α) : Reader (Option α) := firstOf [some <$> p, succeed none]

def atEnd : Reader Unit
  | [] => ⟨some ((), []), none⟩
  | s => ⟨none, some s.length⟩

/-- Items with a separator between them; the last separator must be followed by an item. -/
def separated (item : Reader α) (separator : Reader β) : Reader (List α) := do
  let a ← item
  let as ← many do
    let _ ← separator
    item
  return a :: as

end Reader

end TsProject.Json5
