import ExactPresolve.Rule.FewFree
import ExactPresolve.Rule.Signs

/-!
# Rules

The rules that presolve applies to an expression, and the order in which it does so.

* `Rule`, `Rule.priority`: the rules, of which one with a smaller number goes first;
* `Rule.byPriority`: the rules of a list, each once, in the order in which they are applied;
* **`Rule.apply`**: one application of a rule to an expression.
-/

namespace ExactPresolve

/-- A way to simplify an expression. -/
inductive Rule where
  /-- Moves an expression with at most two free variables onto their bounds. -/
  | fewFree
  /-- Fixes free variables at zero if the signs of their terms leave no other value. -/
  | signs
  deriving DecidableEq, Repr

namespace Rule

def all : List Rule := [fewFree, signs]

def priority : Rule → Nat
  | fewFree => 10
  | signs => 20

/-- The rules of a list, each once, in the order of their priorities. -/
def byPriority (rules : List Rule) : List Rule := all.filter (· ∈ rules)

theorem mem_byPriority {rules : List Rule} {r : Rule} : r ∈ byPriority rules ↔ r ∈ rules := by
  have h : r ∈ all := by cases r <;> decide
  simp [byPriority, h]

theorem byPriority_increasing (rules : List Rule) :
    (byPriority rules).Pairwise (·.priority < ·.priority) :=
  List.Pairwise.filter _ (show all.Pairwise (·.priority < ·.priority) by decide)

/-- One application of a rule to an expression. An expression that is already redundant or
infeasible is left alone. -/
def apply (r : Rule) (slack : Rat) (fixed : IndexSet) (e : Expression) (vs : List Variable) :
    Except Fault Step :=
  if e.redundant ∨ e.infeasible then .ok (.unchanged e vs)
  else match r with
    | fewFree => ExactPresolve.fewFree slack fixed e vs
    | signs => ExactPresolve.signs slack fixed e vs

end Rule

end ExactPresolve
