import ExactPresolve.Number.Printer

/-!
# Exact numbers

All arithmetic of presolve is done in the rational numbers `Rat`, where nothing is rounded by
accident. This module adds what presolve asks of them beyond the field operations, and the faults of
computations on data that a model builder would have refused.

* `Fault`, `Fault.message?`: a division by zero, an index without a variable, and a variable that is
  said to be fixed although nothing determines its value;
* `Sign`, `Sign.of`: the sign of a number, where zero has a sign of its own;
* `Rounding`, `Rounding.round`: the two ways to make a number integral on purpose;
* `withSign`, `scale`: an integer from a sign and a magnitude, and a number from an integer and a
  power of a base;
* `quotient`: division that refuses a zero denominator;
* `div_le_iff`, `le_div_iff`: a divisor taken to the other side of an inequality, by its sign;
* `signed32?`: integers as far as 32 bits hold them;
* `ofSigned64?`, `ofUnsigned64?`: numbers from wide integers, as far as 64 bits hold them.
-/

namespace ExactPresolve

/-! ## Faults -/

/-- The ways in which a computation on unchecked data has no result. -/
inductive Fault where
  /-- A quotient by zero was asked for. -/
  | divisionByZero
  /-- A term refers to a variable, or a point to a coordinate, that does not exist. -/
  | indexOutOfBounds
  /-- The variable of this index is in a fixed set, but has neither equal bounds nor a value. -/
  | fixedWithoutValue (index : Nat)
  deriving DecidableEq, Repr

/-- The sentence that describes a fault; the first two speak for themselves. -/
def Fault.message? : Fault → Option String
  | divisionByZero => none
  | indexOutOfBounds => none
  | fixedWithoutValue j =>
    some ("variable " ++ Number.naturalText j ++ " is in the fixed set without a value")

/-! ## Signs and rounding -/

inductive Sign where
  | positive
  | zero
  | negative
  deriving DecidableEq, Repr

def Sign.of (q : Rat) : Sign :=
  if 0 < q then .positive else if q < 0 then .negative else .zero

/-- The direction in which a number is rounded to an integer. -/
inductive Rounding where
  | ceiling
  | floor
  deriving DecidableEq, Repr

/-- The integer next to `q` in the given direction, which is `q` itself if `q` is integral. -/
def Rounding.round : Rounding → Rat → Rat
  | ceiling, q => q.ceil
  | floor, q => q.floor

/-! ## Numbers -/

namespace Number

/-- Whether `q` has no fractional part. -/
def IsIntegral (q : Rat) : Prop := q.den = 1

instance (q : Rat) : Decidable (IsIntegral q) := inferInstanceAs (Decidable (q.den = 1))

def withSign (negative : Bool) (n : Nat) : Int := if negative then -n else n

/-- The number `n * b ^ e`, for an exponent of either sign. -/
def scale (b : Nat) (n : Int) : Int → Rat
  | .ofNat k => ((n * (Nat.pow b k : Nat) : Int) : Rat)
  | .negSucc k => mkRat n (Nat.pow b (k + 1))

def quotient (a b : Rat) : Except Fault Rat :=
  if b = 0 then .error .divisionByZero else .ok (a / b)

theorem IsIntegral.eq_num {q : Rat} (h : IsIntegral q) : q = (q.num : Rat) := Rat.ext rfl h

theorem div_le_iff {a x y : Rat} (ha : 0 < a) : y / a ≤ x ↔ y ≤ a * x := by
  rw [← Rat.not_lt, Rat.lt_div_iff' ha, Rat.not_lt]

theorem le_div_iff {a x y : Rat} (ha : 0 < a) : x ≤ y / a ↔ a * x ≤ y := by
  rw [← Rat.not_lt, Rat.div_lt_iff' ha, Rat.not_lt]

theorem div_le_iff_of_neg {a x y : Rat} (ha : a < 0) : y / a ≤ x ↔ a * x ≤ y := by
  have h : y / a = -y / -a := by grind
  rw [h, div_le_iff (by grind), Rat.neg_mul, Rat.neg_le_neg_iff]

theorem le_div_iff_of_neg {a x y : Rat} (ha : a < 0) : x ≤ y / a ↔ y ≤ a * x := by
  have h : y / a = -y / -a := by grind
  rw [h, le_div_iff (by grind), Rat.neg_mul, Rat.neg_le_neg_iff]

/-! ## Words -/

def IsSigned32 (n : Int) : Prop := -0x80000000 ≤ n ∧ n ≤ 0x7FFFFFFF

def IsSigned64 (n : Int) : Prop := -0x8000000000000000 ≤ n ∧ n ≤ 0x7FFFFFFFFFFFFFFF

def IsUnsigned64 (n : Int) : Prop := 0 ≤ n ∧ n ≤ 0xFFFFFFFFFFFFFFFF

instance (n : Int) : Decidable (IsSigned32 n) :=
  inferInstanceAs (Decidable (_ ≤ n ∧ n ≤ _))

instance (n : Int) : Decidable (IsSigned64 n) :=
  inferInstanceAs (Decidable (_ ≤ n ∧ n ≤ _))

instance (n : Int) : Decidable (IsUnsigned64 n) :=
  inferInstanceAs (Decidable (_ ≤ n ∧ n ≤ _))

/-- An integer, if a signed word of 32 bits can hold it. -/
def signed32? (n : Int) : Option Int := if IsSigned32 n then some n else none

/-- The number of an integer that a signed word of 64 bits can hold. -/
def ofSigned64? (n : Int) : Option Rat := if IsSigned64 n then some n else none

/-- The number of an integer that an unsigned word of 64 bits can hold. -/
def ofUnsigned64? (n : Int) : Option Rat := if IsUnsigned64 n then some n else none

end Number

end ExactPresolve
