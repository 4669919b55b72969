import ExactPresolve.Terms
import ExactPresolve.Variable

/-!
# Expressions

A linear constraint: a linear combination of variables that has to lie within limits. Presolve
marks it as infeasible once it cannot be satisfied, and as redundant once the bounds of the
variables imply it.

* `Expression`, `Expression.evaluate`, `Expression.IsSatisfiedBy`: a constraint, its value at a
  point, and the points that satisfy it;
* `Expression.heldValue`: the part of the value that the fixed variables contribute;
* `Expression.freeLimits`: the limits that remain for the other variables;
* `Expression.violation?`: the check of a value against the limits, with slack.
-/

namespace ExactPresolve

/-- A linear constraint. -/
structure Expression where
  name : String
  terms : Terms
  limits : Bounds
  /-- The constraint is known to have no solution. -/
  infeasible : Bool
  /-- The constraint is known to follow from the bounds of the variables. -/
  redundant : Bool
  deriving DecidableEq, Repr

namespace Expression

def named (name : String) : Expression := ⟨name, .empty, .unlimited, false, false⟩

def withTerm (e : Expression) (j : Nat) (a : Rat) : Expression :=
  { e with terms := e.terms.set j a }

def withLimits (e : Expression) (b : Bounds) : Expression := { e with limits := b }

def level (e : Expression) (x : Rat) : Expression := e.withLimits (.point x)

/-- The expression with both marks replaced. -/
def marked (e : Expression) (infeasible redundant : Bool) : Expression :=
  { e with infeasible, redundant }

/-! ## Values -/

/-- The coordinate of a point that belongs to the variable `j`. -/
def coordinate (point : List Rat) (j : Nat) : Except Fault Rat :=
  match point[j]? with
  | some x => .ok x
  | none => .error .indexOutOfBounds

/-- The value of the linear combination at a point, which gives each variable its coordinate. -/
def evaluate (e : Expression) (point : List Rat) : Except Fault Rat :=
  weightedSum (coordinate point) e.terms.toList

/-- The value at the point exists and lies within the limits, without slack. -/
def IsSatisfiedBy (e : Expression) (point : List Rat) : Prop :=
  ∃ x ∈ (e.evaluate point).toOption, x ∈ e.limits

instance (e : Expression) (point : List Rat) : Decidable (e.IsSatisfiedBy point) :=
  inferInstanceAs (Decidable (∃ x ∈ (e.evaluate point).toOption, x ∈ e.limits))

/-- The value that the variable `j` contributes as a fixed one. -/
def fixedValue (vs : List Variable) (j : Nat) : Except Fault Rat := do
  let v ← variableAt vs j
  match v.fixedValue? with
  | some x => return x
  | none => .error (.fixedWithoutValue j)

/-- The value of the terms whose variables are in the fixed set. -/
def heldValue (e : Expression) (fixed : IndexSet) (vs : List Variable) : Except Fault Rat :=
  weightedSum (fixedValue vs) (e.terms.held fixed)

/-- The limits that remain for the terms of the free variables. The values of the fixed variables
are looked up only if there is a limit to subtract them from. -/
def freeLimits (e : Expression) (fixed : IndexSet) (vs : List Variable) : Except Fault Bounds :=
  if e.limits = .unlimited then .ok .unlimited
  else do
    let held ← e.heldValue fixed vs
    return e.limits.subtract held

/-- The report on a value that lies outside of the limits by more than the slack. -/
def violation? (e : Expression) (slack x : Rat) : Option Violation :=
  Violation.find? .expression e.name e.limits slack x

end Expression

end ExactPresolve
