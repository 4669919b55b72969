import ExactPresolve.Number.Basic

/-!
# Binary floating point words

The interchange formats of floating point arithmetic, as words: a sign bit, a biased exponent and
a fraction. A finite word denotes an exact rational number, and a rational number has a nearest
word.

* `Format`, `binary64`, `binary32`: how many bits the fraction and the exponent have;
* `twoPow`: the powers of two;
* `roundHalfEven`: the integer nearest to a quotient, ties going to the even one;
* **`Format.decode?`**: the number that a finite word denotes;
* **`Format.encode`**: the word nearest to a number.
-/

namespace ExactPresolve.Number

abbrev twoPow (k : Nat) : Nat := Nat.pow 2 k

/-- The widths of the fields of a floating point word. -/
structure Format where
  fractionBits : Nat
  exponentBits : Nat
  deriving DecidableEq, Repr

def binary64 : Format := ⟨52, 11⟩

def binary32 : Format := ⟨23, 8⟩

namespace Format

variable (f : Format)

def topExponent : Nat := twoPow f.exponentBits - 1

def infinity : Nat := f.topExponent * twoPow f.fractionBits

def signBit : Nat := twoPow (f.exponentBits + f.fractionBits)

def leastUnit : Int := 2 - (twoPow (f.exponentBits - 1) : Nat) - f.fractionBits

/-- The number that a word denotes, if the word is finite. -/
def decode? (word : Nat) : Option Rat :=
  let fraction := word % twoPow f.fractionBits
  let exponent := word / twoPow f.fractionBits % twoPow f.exponentBits
  let negative := word / f.signBit % 2 == 1
  if exponent = f.topExponent then none
  else if exponent = 0 then some (scale 2 (withSign negative fraction) f.leastUnit)
  else
    let significand := twoPow f.fractionBits + fraction
    some (scale 2 (withSign negative significand) (f.leastUnit + (exponent - 1 : Nat)))

end Format

/-- The integer nearest to `a / b`, and the even one of two that are equally near. -/
def roundHalfEven (a b : Nat) : Nat :=
  let q := a / b
  let r := a % b
  if b < 2 * r ∨ (b = 2 * r ∧ q % 2 = 1) then q + 1 else q

/-- The largest `e` with `2 ^ e ≤ a / b`, for positive `a` and `b`. -/
def floorLog2 (a b : Nat) : Int :=
  let e : Int := a.log2 - b.log2
  if a * twoPow (-e).toNat < b * twoPow e.toNat then e - 1 else e

/-- The integer nearest to `a / b` in units of `2 ^ e`, ties going to the even one. -/
def inUnits (a b : Nat) (e : Int) : Nat :=
  roundHalfEven (a * twoPow (-e).toNat) (b * twoPow e.toNat)

namespace Format

variable (f : Format)

/-- The word nearest to a positive `a / b`, ties going to the even word. -/
def encodeMagnitude (a b : Nat) : Nat :=
  -- all bits of the significand, unless that would need a unit below the least one; one that is
  -- rounded up to a power of two carries into the exponent field
  let unit := max f.leastUnit (floorLog2 a b - f.fractionBits)
  min f.infinity ((unit - f.leastUnit).toNat * twoPow f.fractionBits + inUnits a b unit)

/-- The word nearest to a number. A negative number that rounds to zero keeps its sign. -/
def encode (q : Rat) : Nat :=
  if q = 0 then 0
  else (if q < 0 then f.signBit else 0) + f.encodeMagnitude q.num.natAbs q.den

end Format

end ExactPresolve.Number
