import ExactPresolve.Event

/-!
# Expressions whose free terms have one sign

When all free coefficients of an expression have the same sign, and what remains of a limit asks
for a sum on the other side of zero, the free variables can only be zero. If the limit is strictly
on the other side, the expression cannot be satisfied at all.

* `levelAtZero`: fixes free variables at zero, as far as their bounds allow;
* `againstSign`: the conclusion from one limit;
* **`signs`**: the rule, which looks at both limits.
-/

namespace ExactPresolve.Signs

/-- Fixes the variables of the given indices at zero. A variable whose bounds exclude zero stays
as it is, and the expression cannot be satisfied. -/
def levelAtZero (slack : Rat) : List Nat → Step → Except Fault Step
  | [], s => .ok s
  | j :: js, s => do
    let v ← variableAt s.vars j
    match v.violation? slack 0 with
    | none =>
      levelAtZero slack js
        ⟨s.vars.set j (v.level 0), s.expression, true,
          s.events ++ [.onlyZero s.expression.name v.name]⟩
    | some report =>
      levelAtZero slack js
        { s with
          expression := s.expression.marked true s.expression.redundant
          events := s.events ++ [.refused report] }

/-- Draws the conclusion from a limit that is zero or lies on the side of zero that the free terms
cannot reach. -/
def againstSign (slack : Rat) (fixed : IndexSet) (d : Direction) (limit : Rat) (s : Step) :
    Except Fault Step :=
  if limit = 0 then do
    let s ← levelAtZero slack ((s.expression.terms.free fixed).map (·.1)) s
    return { s with expression := s.expression.marked s.expression.infeasible true }
  else
    .ok { s with
      expression := s.expression.marked true s.expression.redundant
      events := s.events ++ [.unreachableLimit s.expression.name d] }

/-- The free terms cannot get beyond zero in the direction in which the limit lies: the limit is at
least zero from below with negative coefficients, or at most zero from above with positive ones. -/
def Opposes (ts : Terms) (fixed : IndexSet) : Direction → Rat → Prop
  | .lower, limit => 0 ≤ limit ∧ ts.FreeNegative fixed
  | .upper, limit => limit ≤ 0 ∧ ts.FreePositive fixed

instance (ts : Terms) (fixed : IndexSet) (d : Direction) (limit : Rat) :
    Decidable (Opposes ts fixed d limit) :=
  match d with
  | .lower => inferInstanceAs (Decidable (0 ≤ limit ∧ ts.FreeNegative fixed))
  | .upper => inferInstanceAs (Decidable (limit ≤ 0 ∧ ts.FreePositive fixed))

/-- Looks at one of the limits that remain for the free terms. -/
def side (slack : Rat) (fixed : IndexSet) (limits : Bounds) (d : Direction) (s : Step) :
    Except Fault Step :=
  match (limits.get d).filter fun limit => Opposes s.expression.terms fixed d limit with
  | some limit => againstSign slack fixed d limit s
  | none => .ok s

end Signs

open Signs in
/-- Simplifies an expression whose free coefficients all have the sign opposite to that of a
limit. Both limits are looked at, the lower one first. -/
def signs (slack : Rat) (fixed : IndexSet) (e : Expression) (vs : List Variable) :
    Except Fault Step := do
  let limits ← e.freeLimits fixed vs
  let s ← side slack fixed limits .lower (.unchanged e vs)
  side slack fixed limits .upper s

end ExactPresolve
