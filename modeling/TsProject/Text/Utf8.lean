/-
  TsProject.Text.Utf8 — the bytes of a text.

  UTF-8, with a lone surrogate encoded in three bytes like its neighbours.
  `decode?` is the inverse: it refuses sequences that are cut off, overlong or
  out of range. `width` and `size` say how many bytes there are.
-/

import TsProject.Text.Basic

namespace TsProject.Text.Utf8

open CodePoint

abbrev Byte := Nat

def encodePoint (c : CodePoint) : List Byte :=
  if c < 0x80 then [c]
  else if c < 0x800 then [0xC0 + c / 0x40, 0x80 + c % 0x40]
  else if c < 0x10000 then [0xE0 + c / 0x1000, 0x80 + c / 0x40 % 0x40, 0x80 + c % 0x40]
  else [0xF0 + c / 0x40000, 0x80 + c / 0x1000 % 0x40, 0x80 + c / 0x40 % 0x40, 0x80 + c % 0x40]

def encode (s : Text) : List Byte := s.flatMap encodePoint

/-- How many bytes a code point takes. -/
def width (c : CodePoint) : Nat := if c < 0x80 then 1 else if c < 0x800 then 2 else if c < 0x10000 then 3 else 4

/-- How many bytes a text takes. -/
def size (s : Text) : Nat := s.foldl (fun n c => n + width c) 0

def isTail (b : Byte) : Bool := isBetween 0x80 0xBF b

/-- The first code point of a byte sequence and the bytes behind it. Surrogates count as code points
when `surrogates` is set. -/
def decodePoint? (surrogates : Bool) : List Byte → Option (CodePoint × List Byte)
  | [] => none
  | a :: rest =>
    if a < 0x80 then some (a, rest)
    else if isBetween 0xC2 0xDF a then
      match rest with
      | b :: rest => if isTail b then some ((a - 0xC0) * 0x40 + (b - 0x80), rest) else none
      | _ => none
    else if isBetween 0xE0 0xEF a then
      match rest with
      | b :: c :: rest =>
        let point := (a - 0xE0) * 0x1000 + (b - 0x80) * 0x40 + (c - 0x80)
        if isTail b && isTail c && decide (0x800 ≤ point) && (surrogates || !isSurrogate point) then some (point, rest)
        else none
      | _ => none
    else if isBetween 0xF0 0xF4 a then
      match rest with
      | b :: c :: d :: rest =>
        let point := (a - 0xF0) * 0x40000 + (b - 0x80) * 0x1000 + (c - 0x80) * 0x40 + (d - 0x80)
        if isTail b && isTail c && isTail d && isBetween 0x10000 0x10FFFF point then some (point, rest) else none
      | _ => none
    else none

def decodeWithin (surrogates : Bool) : Nat → List Byte → Option Text
  | _, [] => some []
  | 0, _ :: _ => none
  | n + 1, bs =>
    match decodePoint? surrogates bs with
    | none => none
    | some (c, rest) => (decodeWithin surrogates n rest).map (c :: ·)

/-- The text of a byte sequence; every code point takes at least one byte. -/
def decode? (surrogates : Bool) (bs : List Byte) : Option Text := decodeWithin surrogates bs.length bs

end TsProject.Text.Utf8
