import ExactPresolve.Expression

/-!
# Models

A model holds the variables and the expressions of a linear or mixed integer problem, together
with the options that presolve reads. Variables and expressions are referred to by the index that
they received when they were added.

* `Options`, `Options.standard`: the slack and the largest number of passes, and their values if
  nothing is said;
* `Model`, `Model.empty`, `Model.addVariable`, `Model.addExpression`: building a model;
* `ModelError`, `ModelError.message`: why a variable or an expression was not added;
* `fixedIndices`: the variables with equal bounds;
* **`Model.Feasible`**: the points that satisfy all bounds, integrality and expressions exactly.
-/

namespace ExactPresolve

/-! ## Options -/

structure Options where
  /-- The margin by which a value may lie beyond a limit. With a zero slack all checks are exact. -/
  slack : Rat
  iterationLimit : Option Nat
  deriving DecidableEq, Repr

/-- No slack, and at most a thousand passes. -/
def Options.standard : Options := ⟨0, some 1000⟩

/-! ## Models -/

structure Model where
  vars : List Variable
  expressions : List Expression
  options : Options
  deriving DecidableEq, Repr

/-- Why a variable or an expression was not added to a model. -/
inductive ModelError where
  /-- The expression refers to a variable that the model does not have. -/
  | unknownVariable (expression : String) (index : Nat)
  /-- The lower bound of the variable is above its upper bound. -/
  | inconsistentBounds (target : String)
  /-- The lower limit of the expression is above its upper limit. -/
  | inconsistentLimits (expression : String)
  deriving DecidableEq, Repr

def ModelError.message : ModelError → String
  | unknownVariable e j =>
    "expression \"" ++ e ++ "\" refers to unknown variable " ++ Number.naturalText j
  | inconsistentBounds v =>
    "variable \"" ++ v ++ "\" has a lower bound above its upper bound"
  | inconsistentLimits e =>
    "expression \"" ++ e ++ "\" has a lower limit above its upper limit"

/-- The indices of the variables that are fixed, the first variable having index `j`. -/
def fixedFrom (j : Nat) : List Variable → List Nat
  | [] => []
  | v :: vs => if v.IsFixed then j :: fixedFrom (j + 1) vs else fixedFrom (j + 1) vs

/-- The indices of the variables that have equal bounds. -/
def fixedIndices (vs : List Variable) : IndexSet := .ofList (fixedFrom 0 vs)

namespace Model

def empty (options : Options) : Model := ⟨[], [], options⟩

/-- The model with one more variable. Its index is the number of variables before. -/
def addVariable (m : Model) (v : Variable) : Except ModelError Model :=
  if v.bounds.Consistent then .ok { m with vars := m.vars ++ [v] }
  else .error (.inconsistentBounds v.name)

/-- The model with one more expression. Its index is the number of expressions before. An unknown
variable is found before limits that cross. -/
def addExpression (m : Model) (e : Expression) : Except ModelError Model :=
  match e.terms.indices.find? (m.vars.length ≤ ·) with
  | some j => .error (.unknownVariable e.name j)
  | none =>
    if e.limits.Consistent then .ok { m with expressions := m.expressions ++ [e] }
    else .error (.inconsistentLimits e.name)

/-- The point has a coordinate for each variable, which the variable admits, and satisfies all
expressions. -/
def Feasible (m : Model) (point : List Rat) : Prop :=
  point.length = m.vars.length ∧
    (∀ c ∈ m.vars.zip point, c.1.Admits c.2) ∧
      ∀ e ∈ m.expressions, e.IsSatisfiedBy point

instance (m : Model) (point : List Rat) : Decidable (m.Feasible point) :=
  inferInstanceAs (Decidable (_ ∧ _ ∧ _))

end Model

end ExactPresolve
