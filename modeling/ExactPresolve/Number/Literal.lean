import ExactPresolve.Number.Basic
import ExactPresolve.Text

/-!
# Number literals

Numbers are written as fractions or as decimals, with white space around either.

* A **fraction** has a slash: before and after the first one stands an `integer?`, at most one
  sign, a digit, then digits and underscores. The denominator is not zero.
* A **decimal** has at most one sign, digits, perhaps a point and more digits, at least one digit
  in all, and perhaps `e` or `E` and an exponent. It may scale its digits by at most
  `10 ^ maxShift` in either direction. The exponent, the number of decimals and their difference
  have to fit into a signed word of 32 bits.

Main definitions:

* `Decimal`, `Decimal.value?`: the parts of a decimal literal and the number that they denote;
* **`ofText?`**: the number that a literal denotes, exactly;
* `LiteralError`, `read`: the same, where the failure tells which literal was refused.
-/

namespace ExactPresolve.Number

open Text

/-- The text before and after the first character of a class, or all text if there is none. -/
def splitFirst (p : Char → Bool) (s : List Char) : List Char × Option (List Char) :=
  (s.takeWhile (!p ·), (s.dropWhile (!p ·)).tail?)

/-- Whether text starts with a minus sign, and the text after one optional sign. -/
def splitSign : List Char → Bool × List Char
  | '-' :: s => (true, s)
  | '+' :: s => (false, s)
  | s => (false, s)

def ofDigits (s : List Char) : Nat := Nat.ofDigitChars 10 s 0

/-! ## Fractions -/

/-- Whether text is a digit followed by digits and underscores. -/
def isGroupedDigits : List Char → Bool
  | [] => false
  | c :: s => c.isDigit && s.all fun d => d.isDigit || d == '_'

/-- Reads an integer literal: one optional sign, a digit, then digits and underscores. -/
def integer? (s : List Char) : Option Int :=
  let (negative, digits) := splitSign s
  if isGroupedDigits digits then some (withSign negative (ofDigits (digits.filter Char.isDigit)))
  else none

/-- Reads a quotient of two integer literals, given on either side of a slash. -/
def fraction? (numerator denominator : List Char) : Option Rat :=
  match integer? numerator, integer? denominator with
  | some n, some d => if d = 0 then none else some (Rat.divInt n d)
  | _, _ => none

/-! ## Decimals -/

/-- The largest power of ten by which a decimal literal may scale its digits. -/
def maxShift : Nat := 10000

/-- The parts of a decimal literal. -/
structure Decimal where
  negative : Bool
  whole : List Char
  places : List Char
  exponent : Int
  deriving DecidableEq, Repr

/-- The power of ten by which the digits of a literal, read as one integer, are scaled. -/
def Decimal.shift? (d : Decimal) : Option Int := do
  let places ← signed32? d.places.length
  signed32? (d.exponent - places)

/-- The number that the parts of a decimal literal denote, unless its point is moved too far. -/
def Decimal.value? (d : Decimal) : Option Rat :=
  (d.shift?.filter (·.natAbs ≤ maxShift)).map
    (scale 10 (withSign d.negative (ofDigits (d.whole ++ d.places))))

/-- Reads an exponent: one optional sign and digits, in the range of a signed word of 32 bits. -/
def exponent? (s : List Char) : Option Int :=
  let (negative, digits) := splitSign s
  if digits ≠ [] ∧ digits.all Char.isDigit then signed32? (withSign negative (ofDigits digits))
  else none

/-- Reads the digits of a decimal and joins them with an exponent that is already known. -/
def mantissa? (s : List Char) (exponent : Int) : Option Decimal :=
  let (before, after) := splitFirst (· == '.') s
  let (negative, whole) := splitSign before
  let places := after.getD []
  if whole.all Char.isDigit ∧ places.all Char.isDigit ∧ ¬(whole = [] ∧ places = []) then
    some ⟨negative, whole, places, exponent⟩
  else none

def decimal? (s : List Char) : Option Decimal :=
  match splitFirst (fun c => c == 'e' || c == 'E') s with
  | (mantissa, none) => mantissa? mantissa 0
  | (mantissa, some exponent) => (exponent? exponent).bind (mantissa? mantissa)

/-! ## Literals -/

/-- The number that a literal without white space around it denotes. -/
def ofChars? (s : List Char) : Option Rat :=
  match splitFirst (· == '/') s with
  | (numerator, some denominator) => fraction? numerator denominator
  | (_, none) => (decimal? s).bind Decimal.value?

/-- The number that a literal denotes, with white space allowed around it. -/
def ofText? (s : String) : Option Rat := ofChars? (trim s.toList)

structure LiteralError where
  literal : String
  deriving DecidableEq, Repr

def LiteralError.message (e : LiteralError) : String :=
  "can't parse \"" ++ e.literal ++ "\" as a rational number"

def read (s : String) : Except LiteralError Rat :=
  match ofText? s with
  | some q => .ok q
  | none => .error ⟨s⟩

end ExactPresolve.Number
