import ExactPresolve.Expression

/-!
# Events and steps

What happens during presolve is told as a list of events in the order in which they happened.
Reports of refused values are events among the others; where they go is the choice of whoever
started presolve. A rule looks at one expression, with the variables of the model and the set of
those that are fixed, and what it leaves behind is a step.

* `Status`: the three ways in which presolve ends;
* `Event`: the things that can happen;
* `Record`, `Event.record`: an event as an entry of a log, with a level, a message and fields;
* `Reporting`: whether reports are collected, dropped or logged;
* `Reporting.reports`, `Reporting.records`: the collected reports and the log of a list of events;
* `Step`, `Step.unchanged`: the state after one application of a rule, and the step that does nothing;
* `Step.ProvesInfeasible`: the application found that its expression cannot be satisfied.
-/

namespace ExactPresolve

/-! ## Status of a run -/

/-- How presolve ended. -/
inductive Status where
  /-- A pass over all expressions fixed no further variable. -/
  | reduced
  /-- The expression of this index cannot be satisfied. -/
  | infeasible (index : Nat)
  /-- The largest number of passes was reached. -/
  | iterationLimit
  deriving DecidableEq, Repr

/-- The model was shown to have no solution. -/
def Status.IsInfeasible : Status → Prop
  | infeasible _ => True
  | _ => False

instance (s : Status) : Decidable s.IsInfeasible :=
  match s with
  | .infeasible _ => isTrue trivial
  | .reduced => isFalse id
  | .iterationLimit => isFalse id

/-! ## Events -/

/-- Something that happened during presolve, or before it. -/
inductive Event where
  | optionsRead (slack : Rat) (iterationLimit : Option Nat)
  | refused (report : Violation)
  /-- All variables of an expression are fixed, and their sum lies outside of its limits. -/
  | outsideLimits (expression : String) (value : Rat)
  /-- The bounds that an expression implies for its last free variable cross. -/
  | boundsCross (expression target : String)
  /-- The bounds that an expression implies for one of its last two free variables cross. -/
  | derivedBoundsCross (expression : String)
  /-- The signs of the free terms keep an expression away from a limit. -/
  | unreachableLimit (expression : String) (direction : Direction)
  /-- The signs of the free terms of an expression force a variable to zero. -/
  | onlyZero (expression target : String)
  /-- A pass ended that fixed variables; this many are fixed now. -/
  | passFixed (pass fixed : Nat)
  /-- A pass ended at an expression that cannot be satisfied. -/
  | provedInfeasible (pass : Nat) (expression : String)
  | limitReached (passes : Nat)
  | finished (status : Status) (passes fixed redundant : Nat)
  deriving DecidableEq, Repr

/-! ## Records -/

inductive Level where
  | trace
  | debug
  | warn
  deriving DecidableEq, Repr

structure Record where
  level : Level
  message : String
  /-- The names and texts of the data that belong to the message. -/
  fields : List (String × String)
  deriving DecidableEq, Repr

namespace Record

open Number

def subjectText : Subject → String
  | .variable => "Variable"
  | .expression => "Expression"

def directionText : Direction → String
  | .lower => "Lower"
  | .upper => "Upper"

/-- A limit on the number of passes as the text of a field. -/
def limitText : Option Nat → String
  | none => "None"
  | some n => "Some(" ++ naturalText n ++ ")"

def statusText : Status → String
  | .reduced => "Reduced"
  | .infeasible i => "Infeasible \x7b expression: " ++ naturalText i ++ " \x7d"
  | .iterationLimit => "IterationLimit"

end Record

open Number Record in
/-- The log entry of an event. -/
def Event.record : Event → Record
  | optionsRead slack limit =>
    ⟨.debug, "read presolve options",
      [("slack", text slack), ("iteration_limit", limitText limit)]⟩
  | refused v =>
    ⟨.debug, v.text,
      [("subject", subjectText v.subject), ("name", v.name), ("value", text v.value),
        ("limit", text v.limit)]⟩
  | outsideLimits e x =>
    ⟨.trace, "fixed value outside of limits", [("expression", e), ("value", text x)]⟩
  | boundsCross e v => ⟨.trace, "bounds cross", [("expression", e), ("variable", v)]⟩
  | derivedBoundsCross e => ⟨.trace, "derived bounds cross", [("expression", e)]⟩
  | unreachableLimit e d =>
    ⟨.trace, "limit can't be reached", [("expression", e), ("direction", directionText d)]⟩
  | onlyZero e v => ⟨.trace, "variable can only be zero", [("expression", e), ("variable", v)]⟩
  | passFixed pass fixed =>
    ⟨.debug, "presolve pass fixed variables",
      [("pass", naturalText pass), ("fixed", naturalText fixed)]⟩
  | provedInfeasible pass e =>
    ⟨.debug, "presolve proved the model infeasible",
      [("pass", naturalText pass), ("expression", e)]⟩
  | limitReached passes =>
    ⟨.warn, "presolve stopped at the iteration limit", [("passes", naturalText passes)]⟩
  | finished status passes fixed redundant =>
    ⟨.debug, "presolve finished",
      [("status", statusText status), ("passes", naturalText passes),
        ("fixed", naturalText fixed), ("redundant", naturalText redundant)]⟩

/-! ## Reports -/

/-- The report that an event carries, if it is one. -/
def Event.report? : Event → Option Violation
  | refused v => some v
  | _ => none

/-- Where reports of refused values go. Nothing else depends on it. -/
inductive Reporting where
  | collect
  | discard
  | log
  deriving DecidableEq, Repr

namespace Reporting

/-- The collected reports of a list of events. -/
def reports : Reporting → List Event → List Violation
  | collect, events => events.filterMap Event.report?
  | _, _ => []

/-- The log of a list of events. -/
def records : Reporting → List Event → List Record
  | log, events => events.map Event.record
  | _, events => (events.filter (·.report?.isNone)).map Event.record

end Reporting

/-! ## Steps -/

/-- The state after one application of a rule. -/
structure Step where
  vars : List Variable
  expression : Expression
  /-- Whether at least one variable was fixed. -/
  fixedAny : Bool
  events : List Event
  deriving DecidableEq, Repr

namespace Step

def unchanged (e : Expression) (vs : List Variable) : Step := ⟨vs, e, false, []⟩

/-- The expression, which was `e` before the step, cannot be satisfied, and the step showed it. -/
def ProvesInfeasible (e : Expression) (s : Step) : Prop :=
  e.infeasible = false ∧ s.expression.infeasible = true

instance (e : Expression) (s : Step) : Decidable (s.ProvesInfeasible e) :=
  inferInstanceAs (Decidable (_ ∧ _))

end Step

end ExactPresolve
