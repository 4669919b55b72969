import ExactPresolve.Event

/-!
# Expressions with few free variables

When at most two variables of an expression are free, the constraint moves, entirely or in part,
onto the bounds of these variables.

* `noneFree`: without free variables the value is known and only has to be checked;
* `oneFree`: a single free variable takes over the limits, either as a fixed value, `solve`, or as
  bounds, `confine`;
* `twoFree`: each of two free variables gets the bounds that the limits imply for it, given the
  bounds of the other one, `impliedBounds`;
* **`fewFree`**: the rule.
-/

namespace ExactPresolve.FewFree

/-! ## No free variable -/

/-- Checks the value of an expression whose variables are all fixed. A value within the limits
becomes both limits, and the expression is redundant. -/
def noneFree (slack : Rat) (e : Expression) (held : Rat) (vs : List Variable) : Step :=
  match e.violation? slack held with
  | none => ⟨vs, (e.marked false true).level held, false, []⟩
  | some report =>
    ⟨vs, e.marked true false, false, [.refused report, .outsideLimits e.name held]⟩

/-! ## One free variable -/

/-- Fixes the variable `v`, whose coefficient is `a`, such that the expression has the value
`level`. The solution has to be one that the variable can take, apart from the slack. -/
def solve (slack : Rat) (e : Expression) (held a level : Rat) (v : Variable) :
    Expression × Variable × List Event :=
  let x := (level - held) / a
  if v.kind.Admits x then
    match v.violation? slack x with
    | none => (e.marked false true, v.level x, [])
    | some report => (e.marked true false, v, [.refused report])
  else (e.marked true false, v, [])

/-- Moves the limits of an expression onto the variable `v`, whose coefficient is `a`. -/
def confine (e : Expression) (held a : Rat) (v : Variable) : Expression × Variable × List Event :=
  let b := v.kind.roundInward (v.bounds.inter ((e.limits.subtract held).divide a))
  if b.Consistent then (e.marked false true, v.withBounds b, [])
  else (e.marked true false, v, [.boundsCross e.name v.name])

/-- Moves an expression onto its only free variable, which has index `j` and coefficient `a`. -/
def oneFree (slack : Rat) (e : Expression) (held : Rat) (j : Nat) (a : Rat)
    (vs : List Variable) : Except Fault Step := do
  let v ← variableAt vs j
  let (e, v, events) := match e.limits.point? with
    | some level => solve slack e held a level v
    | none => confine e held a v
  return ⟨vs.set j v.settle, e, decide v.IsFixed, events⟩

/-! ## Two free variables -/

/-- The bound on `x` that a limit of `a * x + b * y` implies, given the bounds of `y`. -/
def impliedBound (d : Direction) (limit a b : Rat) (other : Bounds) : Option (Direction × Rat) :=
  -- `a * x ≥ limit - b * y` is weakest where `b * y` is largest, which the sign of `b` decides, and
  -- division by a negative `a` flips it; for an upper limit all directions are swapped
  (other.get (d.times (.ofCoefficient b)).opposite).map fun y =>
    (d.times (.ofCoefficient a), (limit - b * y) / a)

/-- Bounds tightened by what one limit of `a * x + b * y` implies, if that limit exists. -/
def propagate (limits : Bounds) (a b : Rat) (other : Bounds) (own : Bounds) (d : Direction) :
    Bounds :=
  match (limits.get d).bind (impliedBound d · a b other) with
  | some (direction, x) => own.tighten direction (some x)
  | none => own

/-- The bounds of the variable `v` that both limits of `a * x + b * y` imply, given the bounds of
the other variable. -/
def impliedBounds (limits : Bounds) (v : Variable) (a b : Rat) (other : Bounds) : Bounds :=
  v.kind.roundInward ([Direction.lower, .upper].foldl (propagate limits a b other) v.bounds)

/-- Tightens the bounds of the two free variables of an expression, each with the bounds that the
other one had before. -/
def twoFree (e : Expression) (held : Rat) (j : Nat) (a : Rat) (k : Nat) (b : Rat)
    (vs : List Variable) : Except Fault Step := do
  let v ← variableAt vs j
  let w ← variableAt vs k
  let limits := e.limits.subtract held
  let v' := v.withBounds (impliedBounds limits v a b w.bounds)
  let w' := w.withBounds (impliedBounds limits w b a v.bounds)
  -- the expression stays in force: bounds on two variables do not imply one on their sum
  if v'.bounds.Consistent ∧ w'.bounds.Consistent then
    return ⟨(vs.set j v'.settle).set k w'.settle, e, decide (v'.IsFixed ∨ w'.IsFixed), []⟩
  else return ⟨vs, e.marked true e.redundant, false, [.derivedBoundsCross e.name]⟩

end FewFree

open FewFree in
/-- Simplifies an expression that has at most two variables outside the fixed set. An expression
that has more terms than the fixed set has members by more than two is left alone at once. -/
def fewFree (slack : Rat) (fixed : IndexSet) (e : Expression) (vs : List Variable) :
    Except Fault Step :=
  if fixed.size + 2 < e.terms.size then .ok (.unchanged e vs)
  else do
    let held ← e.heldValue fixed vs
    match e.terms.free fixed with
    | [] => return noneFree slack e held vs
    | [(j, a)] => oneFree slack e held j a vs
    | [(j, a), (k, b)] => twoFree e held j a k b vs
    | _ => return .unchanged e vs

end ExactPresolve
