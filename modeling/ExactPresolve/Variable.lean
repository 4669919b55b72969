import ExactPresolve.Bounds

/-!
# Variables

A decision variable has bounds, may be restricted to integers, and carries a value once one has
been determined. A value that lies beyond a limit, even after the limit has been moved out by the
slack, is reported.

* `Violation`, `Violation.text`: a report and its sentence;
* `Violation.find?`: the report on a value that is checked against bounds;
* `Kind`: whether a variable takes all numbers or only integers;
* `Variable`, `Variable.Admits`: a variable and the values that it can take;
* `Variable.IsFixed`, `Variable.fixedValue?`: equal bounds, and the value that they determine;
* `Variable.level`, `Variable.settle`: fixing a variable, and recording the value of a fixed one;
* `Variable.violation?`: the check of a value against the bounds, with slack;
* `variableAt`: the variable of an index, out of a list of variables.
-/

namespace ExactPresolve

/-! ## Violations -/

inductive Subject where
  | variable
  | expression
  deriving DecidableEq, Repr

/-- A value that lies beyond a limit by more than the slack. -/
structure Violation where
  subject : Subject
  name : String
  value : Rat
  direction : Direction
  limit : Rat
  deriving DecidableEq, Repr

namespace Violation

/-- The report on a value checked against bounds, if it lies outside by more than the slack. A
value beyond the lower limit is reported as such, whatever the upper limit is. -/
def find? (subject : Subject) (name : String) (b : Bounds) (slack value : Rat) :
    Option Violation :=
  (b.exceeded? slack value).map fun (direction, limit) => ⟨subject, name, value, direction, limit⟩

def subjectWord : Subject → String
  | .variable => "variable"
  | .expression => "expression"

/-- The words for the side on which the value lies outside. -/
def relation : Direction → String
  | .lower => "below lower"
  | .upper => "above upper"

def text (v : Violation) : String :=
  subjectWord v.subject ++ " " ++ v.name ++ ": " ++ Number.text v.value ++ " is " ++
    relation v.direction ++ " limit " ++ Number.text v.limit

end Violation

/-! ## Variables -/

inductive Kind where
  | continuous
  | integer
  deriving DecidableEq, Repr

namespace Kind

def other : Kind → Kind
  | continuous => integer
  | integer => continuous

def Admits : Kind → Rat → Prop
  | continuous, _ => True
  | integer, x => Number.IsIntegral x

instance (k : Kind) (x : Rat) : Decidable (k.Admits x) :=
  match k with
  | continuous => isTrue trivial
  | integer => inferInstanceAs (Decidable (Number.IsIntegral x))

/-- The bounds that hold the same values of this kind, with ends of this kind. -/
def roundInward : Kind → Bounds → Bounds
  | continuous, b => b
  | integer, b => b.roundInward

end Kind

/-- A decision variable. -/
structure Variable where
  name : String
  kind : Kind
  bounds : Bounds
  /-- The value of the variable, if one was determined. -/
  value : Option Rat
  deriving DecidableEq, Repr

namespace Variable

/-- The variable of a name, continuous and without bounds. -/
def named (name : String) : Variable := ⟨name, .continuous, .unlimited, none⟩

/-- The values that the variable can take: those of its kind that lie within its bounds. -/
def Admits (v : Variable) (x : Rat) : Prop := x ∈ v.bounds ∧ v.kind.Admits x

instance (v : Variable) (x : Rat) : Decidable (v.Admits x) :=
  inferInstanceAs (Decidable (x ∈ v.bounds ∧ v.kind.Admits x))

/-- Both bounds exist and are equal. -/
def IsFixed (v : Variable) : Prop := v.bounds.point?.isSome = true

instance (v : Variable) : Decidable v.IsFixed :=
  inferInstanceAs (Decidable (v.bounds.point?.isSome = true))

/-- The common bound of a fixed variable, otherwise the value that was determined. -/
def fixedValue? (v : Variable) : Option Rat := v.bounds.point?.or v.value

def withBounds (v : Variable) (b : Bounds) : Variable := { v with bounds := b }

def withValue (v : Variable) (x : Rat) : Variable := { v with value := some x }

def toInteger (v : Variable) : Variable := { v with kind := .integer }

/-- The variable fixed at `x`, which also becomes its value. -/
def level (v : Variable) (x : Rat) : Variable := { v with bounds := .point x, value := some x }

/-- The variable, with the common bound as its value if it is fixed. -/
def settle (v : Variable) : Variable :=
  match v.bounds.point? with
  | some x => v.withValue x
  | none => v

/-- The report on a value that lies outside of the bounds by more than the slack. -/
def violation? (v : Variable) (slack x : Rat) : Option Violation :=
  Violation.find? .variable v.name v.bounds slack x

end Variable

/-- The variable of an index. -/
def variableAt (vs : List Variable) (j : Nat) : Except Fault Variable :=
  match vs[j]? with
  | some v => .ok v
  | none => .error .indexOutOfBounds

end ExactPresolve
