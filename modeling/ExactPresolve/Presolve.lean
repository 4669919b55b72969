import ExactPresolve.Model
import ExactPresolve.Rule

/-!
# Presolve

A model is presolved in passes. A pass applies the rules to each expression in turn, every rule
seeing what the earlier ones have done. Passes go on until one of them fixes no further variable,
an expression turns out to be infeasible, or no further pass is allowed.

* `Progress`: the state that goes from rule to rule, besides the expressions;
* `visit`, `sweep`, `run`: the rules applied to one expression, to all of them once, and again and
  again;
* `Summary`: what a run tells about itself;
* **`Model.presolve`**: a whole run.
-/

namespace ExactPresolve

structure RuleCounts where
  fewFree : Nat
  signs : Nat
  deriving DecidableEq, Repr

namespace RuleCounts

def zero : RuleCounts := ⟨0, 0⟩

def get (c : RuleCounts) : Rule → Nat
  | .fewFree => c.fewFree
  | .signs => c.signs

def increment (c : RuleCounts) : Rule → RuleCounts
  | .fewFree => { c with fewFree := c.fewFree + 1 }
  | .signs => { c with signs := c.signs + 1 }

end RuleCounts

/-- The state of a run, besides the expressions. -/
structure Progress where
  vars : List Variable
  /-- The variables that are known to be fixed. -/
  fixed : IndexSet
  /-- For each rule, how many of its applications fixed a variable. -/
  fixes : RuleCounts
  events : List Event
  deriving DecidableEq, Repr

namespace Progress

/-- The state at the start of a run: the variables with equal bounds are fixed. -/
def start (vs : List Variable) : Progress := ⟨vs, fixedIndices vs, .zero, []⟩

def note (p : Progress) (event : Event) : Progress := { p with events := p.events ++ [event] }

/-- The indices, of those given, whose variables have equal bounds. -/
def fixedAmong (vs : List Variable) (js : List Nat) : List Nat :=
  js.filter fun j => vs[j]?.any fun v => decide v.IsFixed

/-- The state after an application of a rule. The variables that it fixed join the fixed ones, and
the application is counted, unless it showed that the model has no solution. -/
def absorb (p : Progress) (r : Rule) (s : Step) : Progress :=
  let p := { p with vars := s.vars, events := p.events ++ s.events }
  if s.fixedAny ∧ ¬s.expression.infeasible then
    { p with
      fixed := p.fixed.insertAll (fixedAmong s.vars s.expression.terms.indices)
      fixes := p.fixes.increment r }
  else p

end Progress

/-! ## Passes -/

/-- Applies rules to an expression, one after the other, until it is redundant or infeasible. -/
def visit (slack : Rat) : List Rule → Expression → Progress → Except Fault (Expression × Progress)
  | [], e, p => .ok (e, p)
  | r :: rules, e, p =>
    if e.redundant ∨ e.infeasible then .ok (e, p)
    else do
      let s ← r.apply slack p.fixed e p.vars
      visit slack rules s.expression (p.absorb r s)

structure Sweep where
  expressions : List Expression
  progress : Progress
  /-- The expression that ended the pass, with its index, if one did. -/
  infeasible : Option (Nat × Expression)
  deriving DecidableEq, Repr

/-- Applies rules to expressions, the first of which has index `i`, up to the first one that is
infeasible. -/
def sweep (slack : Rat) (rules : List Rule) : Nat → List Expression → Progress → Except Fault Sweep
  | _, [], p => .ok ⟨[], p, none⟩
  | i, e :: es, p => do
    let (e, p) ← visit slack rules e p
    if e.infeasible then return ⟨e :: es, p, some (i, e)⟩
    else
      let rest ← sweep slack rules (i + 1) es p
      return { rest with expressions := e :: rest.expressions }

/-! ## Runs -/

structure Ending where
  status : Status
  /-- The number of passes that were started. -/
  passes : Nat
  expressions : List Expression
  progress : Progress
  deriving DecidableEq, Repr

/-- Makes passes over the expressions, at most `budget` of them, after `passes` earlier ones. -/
def run (slack : Rat) (rules : List Rule) :
    (budget passes : Nat) → List Expression → Progress → Except Fault Ending
  | 0, passes, es, p => .ok ⟨.iterationLimit, passes, es, p.note (.limitReached passes)⟩
  | budget + 1, passes, es, p => do
    let s ← sweep slack rules 0 es p
    let pass := passes + 1
    match s.infeasible with
    | some (i, e) =>
      return ⟨.infeasible i, pass, s.expressions, s.progress.note (.provedInfeasible pass e.name)⟩
    | none =>
      if p.fixed.size < s.progress.fixed.size then
        run slack rules budget pass s.expressions
          (s.progress.note (.passFixed pass s.progress.fixed.size))
      else return ⟨.reduced, pass, s.expressions, s.progress⟩

/-- What a run tells about itself. -/
structure Summary where
  status : Status
  /-- The number of passes that were started. -/
  passes : Nat
  /-- The variables with a single value at the end. -/
  fixed : IndexSet
  /-- For each rule, how many of its applications fixed a variable. -/
  fixes : RuleCounts
  /-- The number of expressions that are redundant at the end. -/
  redundant : Nat
  deriving DecidableEq, Repr

/-- A presolved model, with the summary of the run and what happened in it. -/
structure Presolved where
  model : Model
  summary : Summary
  events : List Event
  deriving DecidableEq, Repr

namespace Model

/-- The number of passes that a run may make. Each pass that does not end the run fixes a variable,
so without a limit one more than there are variables is enough. -/
def passBudget (m : Model) : Nat := m.options.iterationLimit.getD (m.vars.length + 1)

/-- Presolves a model with the given rules, in the order of their priorities. -/
def presolve (rules : List Rule) (m : Model) : Except Fault Presolved := do
  let ending ← run m.options.slack (Rule.byPriority rules) m.passBudget 0 m.expressions
    (.start m.vars)
  let p := ending.progress
  let redundant := ending.expressions.countP (·.redundant)
  return {
    model := { m with vars := p.vars, expressions := ending.expressions }
    summary := ⟨ending.status, ending.passes, p.fixed, p.fixes, redundant⟩
    events :=
      p.events ++ [.finished ending.status ending.passes p.fixed.size redundant] }

end Model

end ExactPresolve
