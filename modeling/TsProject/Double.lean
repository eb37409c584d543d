/-
  TsProject.Double — 64-bit floating-point numbers, and the one nearest to a decimal.

  A double is kept as its 64 bits: sign, 11 bits of biased exponent, 52 bits of
  fraction. `ofRatio` rounds a positive ratio of naturals to the nearest double, a
  tie to the even one; `ofDecimal` is that for `m * 10 ^ e`. All arithmetic is exact.
-/

namespace TsProject

structure Double where
  bits : Nat
  deriving DecidableEq

namespace Double

def signBit : Nat := 0x8000000000000000

def infinityBits : Nat := 0x7FF0000000000000

def infinity : Double := ⟨infinityBits⟩

def nan : Double := ⟨0x7FF8000000000000⟩

def neg (x : Double) : Double := ⟨(x.bits + signBit) % (2 * signBit)⟩

def isNaN (x : Double) : Bool := decide (infinityBits < x.bits % signBit)

/-- The quotient to the nearest integer, a tie to the even one. -/
def divRound (num den : Nat) : Nat :=
  let q := num / den
  let r := num % den
  if den < 2 * r ∨ (2 * r = den ∧ q % 2 = 1) then q + 1 else q

/-- `num / den` divided by `2 ^ e`, as a fraction. -/
def scaled (num den : Nat) (e : Int) : Nat × Nat :=
  if 0 ≤ e then (num, den * Nat.pow 2 e.toNat) else (num * Nat.pow 2 (-e).toNat, den)

/-- The exponent of the last place of a ratio that keeps 53 bits, never below that of the least
double. -/
def lastPlace (num den : Nat) : Int :=
  let e : Int := (num.log2 : Int) - den.log2 - 53
  let (n, d) := scaled num den e
  max (-1074) (if Nat.pow 2 53 * d ≤ n then e + 1 else e)

/-- The double nearest to a positive ratio. A fraction rounded up to `2 ^ 53` carries into the
exponent by itself. -/
def ofRatio (num den : Nat) : Double :=
  let e := lastPlace num den
  let (n, d) := scaled num den e
  let bits := (e + 1074).toNat * Nat.pow 2 52 + divRound n d
  if infinityBits ≤ bits then infinity else ⟨bits⟩

/-- The double nearest to `m * 10 ^ e`. Exponents beyond all doubles are settled by the number of
digits alone. -/
def ofDecimal (m : Nat) (e : Int) : Double :=
  let size : Int := (Nat.toDigits 10 m).length + e
  if m = 0 then ⟨0⟩
  else if 310 < size then infinity
  else if size < -330 then ⟨0⟩
  else if 0 ≤ e then ofRatio (m * Nat.pow 10 e.toNat) 1
  else ofRatio m (Nat.pow 10 (-e).toNat)

end Double

end TsProject
