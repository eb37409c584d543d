/-
  TsProject.Config.Suggestion — the known name closest to an unknown one.

  Two texts are compared by what they have in common: their longest common block,
  and then the same to the left and to the right of it. The similarity is twice the
  number of characters in those blocks over the number of all characters. A name is
  suggested from a similarity of three fifths; of equally similar ones the greater.
-/

import TsProject.Text.Basic

namespace TsProject.Config

/-- A block of equal characters: where it starts in either text, and its length. -/
structure Block where
  left : Nat
  right : Nat
  length : Nat

def commonStart : Text → Text → Nat
  | a :: s, b :: t => if a = b then commonStart s t + 1 else 0
  | _, _ => 0

/-- The longest block that starts the left text; the first of them in the right one. -/
def blockAtStart (s : Text) : Nat → Text → Block
  | i, [] => ⟨0, i, 0⟩
  | i, b :: t =>
    let here := commonStart s (b :: t)
    let later := blockAtStart s (i + 1) t
    if later.length ≤ here then ⟨0, i, here⟩ else later

/-- The longest common block; of several the first in the left text, then the first in the right one. -/
def longestBlock : Text → Text → Block
  | [], _ => ⟨0, 0, 0⟩
  | a :: s, t =>
    let here := blockAtStart (a :: s) 0 t
    let later := longestBlock s t
    if later.length ≤ here.length then here else { later with left := later.left + 1 }

/-- The number of characters in common blocks; the first argument bounds the length of the left text. -/
def matched : Nat → Text → Text → Nat
  | 0, _, _ => 0
  | n + 1, s, t =>
    let b := longestBlock s t
    if b.length = 0 then 0
    else matched n (s.take b.left) (t.take b.right) + b.length
      + matched n (s.drop (b.left + b.length)) (t.drop (b.right + b.length))

def similar (known name : Text) : Nat := matched known.length known name

/-- A known name with its similarity as a fraction. -/
structure Candidate where
  name : Text
  common : Nat
  total : Nat

def Candidate.isClose (c : Candidate) : Bool := decide (3 * c.total ≤ 10 * c.common)

/-- At least as close, and not the smaller name of two that are equally close. -/
def Candidate.beats (a b : Candidate) : Bool :=
  decide (b.common * a.total < a.common * b.total)
    || (a.common * b.total == b.common * a.total && Text.le b.name a.name)

def better (best : Option Candidate) (c : Candidate) : Option Candidate :=
  match best with
  | none => some c
  | some b => if c.beats b then some c else some b

def closest? (known : List Text) (name : Text) : Option Text :=
  let candidates := known.map fun k => (⟨k, similar k name, k.length + name.length⟩ : Candidate)
  ((candidates.filter Candidate.isClose).foldl better none).map Candidate.name

end TsProject.Config
