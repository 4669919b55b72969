import ExactPresolve.Proofs.Rule.Reports
import ExactPresolve.Proofs.Run.Passes
import Mathlib.Data.List.Induction

/-!
# Whole runs

A model that was built by adding variables and expressions is well formed, so presolve meets no
fault on it, and its result is the last state of a run that starts with the variables of the model.

* `Model.Built`: the models that can be built;
* `State.start`: the state at the start of a run;
* `Model.Runs`: a run of presolve, with its applications and its result;
* **`Model.built_iff`**: a model can be built if and only if it is well formed;
* **`Model.exists_runs`**: the loop of passes ends, and presolve returns the result of it;
* **`Model.Runs.unique`**: a model has no other run;
* **`Model.Runs.ended`**: the applications of a run lead to its last state;
* **`Model.exists_presolve`**: presolve as a run, without the applications.
-/

namespace ExactPresolve

namespace Model

/-- The model was built from an empty one, by additions that were not refused. -/
inductive Built : Model → Prop
  | empty (options : Options) : Built (empty options)
  | addVariable {m m' v} (h : Built m) (ha : m.addVariable v = .ok m') : Built m'
  | addExpression {m m' e} (h : Built m) (ha : m.addExpression e = .ok m') : Built m'

theorem addVariable_eq_ok {m m' : Model} {v : Variable} (h : m.addVariable v = .ok m') :
    v.bounds.Consistent ∧ m' = { m with vars := m.vars ++ [v] } := by
  unfold addVariable at h
  split_ifs at h with hv
  exact ⟨hv, (Except.ok.inj h).symm⟩

theorem addExpression_eq_ok {m m' : Model} {e : Expression} (h : m.addExpression e = .ok m') :
    (∀ j ∈ e.terms.indices, j < m.vars.length) ∧ e.limits.Consistent ∧
      m' = { m with expressions := m.expressions ++ [e] } := by
  unfold addExpression at h
  split at h
  · cases h
  · rename_i hj
    split_ifs at h with hl
    refine ⟨fun j hje => ?_, hl, (Except.ok.inj h).symm⟩
    simpa using List.find?_eq_none.mp hj j hje

theorem Built.wellFormed {m : Model} (h : m.Built) : WellFormed m.expressions m.vars := by
  induction h with
  | empty => exact ⟨nofun, nofun, nofun⟩
  | addVariable _ ha ih =>
    obtain ⟨hv, rfl⟩ := addVariable_eq_ok ha
    exact ih.append_variable_iff.mpr hv
  | addExpression _ ha ih =>
    obtain ⟨hr, hl, rfl⟩ := addExpression_eq_ok ha
    exact ih.append_expression_iff.mpr ⟨hr, hl⟩

theorem built_of_vars (options : Options) {vs : List Variable}
    (h : ∀ v ∈ vs, v.bounds.Consistent) : Built ⟨vs, [], options⟩ := by
  induction vs using List.reverseRecOn with
  | nil => exact .empty options
  | append_singleton vs v ih =>
    have hvs := ih fun w hw => h w (List.mem_append_left _ hw)
    exact hvs.addVariable (if_pos (h v (List.mem_append_right _ List.mem_cons_self)))

theorem addExpression_of_wellFormed {m : Model} {e : Expression} (hl : e.limits.Consistent)
    (hr : ∀ j ∈ e.terms.indices, j < m.vars.length) :
    m.addExpression e = .ok { m with expressions := m.expressions ++ [e] } := by
  have hn : e.terms.indices.find? (m.vars.length ≤ ·) = none :=
    List.find?_eq_none.mpr fun j hj => by simpa using hr j hj
  simp [addExpression, hn, hl]

/-- **A model can be built if and only if it is well formed.** -/
theorem built_iff {m : Model} : m.Built ↔ WellFormed m.expressions m.vars := by
  refine ⟨Built.wellFormed, fun h => ?_⟩
  obtain ⟨vs, es, options⟩ := m
  induction es using List.reverseRecOn with
  | nil => exact built_of_vars options h.bounds
  | append_singleton es e ih =>
    have hm := ih ⟨fun f hf => h.range f (List.mem_append_left _ hf),
      fun f hf => h.limits f (List.mem_append_left _ hf), h.bounds⟩
    have he : e ∈ es ++ [e] := List.mem_append_right _ List.mem_cons_self
    exact hm.addExpression (addExpression_of_wellFormed (h.limits e he) (h.range e he))

instance (m : Model) : Decidable m.Built := decidable_of_iff _ built_iff.symm

end Model

namespace State

def start (m : Model) : State := ⟨m.expressions, .start m.vars⟩

@[simp] theorem vars_start (m : Model) : (start m).vars = m.vars := rfl

theorem coherent_start {m : Model} (h : WellFormed m.expressions m.vars) : (start m).Coherent :=
  ⟨h, fun _ => mem_fixedIndices⟩

/-- A run that does not end with an infeasible expression ends in a state that it reaches. -/
theorem Outcome.reaches {slack : ℚ} {rules : List Rule} {a b : State} {status : Status}
    (h : Outcome slack rules a status b) (hs : ¬status.IsInfeasible) : Reaches slack rules a b := by
  cases h with
  | reduced h hp => exact h.trans hp.reaches
  | limit h => exact h
  | infeasible => exact absurd trivial hs

end State

/-! ## Runs of presolve -/

open State

namespace Model

/-- The model and the summary at the end of a run. -/
def presolved (m : Model) (w : Ending) : Presolved where
  model := { m with vars := w.progress.vars, expressions := w.expressions }
  summary := ⟨w.status, w.passes, w.progress.fixed, w.progress.fixes,
    w.expressions.countP (·.redundant)⟩
  events := w.progress.events ++
    [.finished w.status w.passes w.progress.fixed.size (w.expressions.countP (·.redundant))]

/-- The last event of a run is not a report. -/
theorem collect_presolved (m : Model) (w : Ending) :
    Reporting.collect.reports (m.presolved w).events =
      Reporting.collect.reports w.progress.events :=
  Reporting.collect_append_of_none _ rfl

/-- The run of presolve on the model makes the applications `as`, in this order, and then has the
result `r`. -/
def Runs (rules : List Rule) (m : Model) (as : List Application) (r : Presolved) : Prop :=
  ∃ w, LoopTrace m.options.slack (Rule.byPriority rules) m.options.iterationLimit 0 (start m) as w ∧
    m.presolved w = r

variable {m : Model} {rules : List Rule} {as as' : List Application} {r r' : Presolved}

theorem affords_passBudget (h : WellFormed m.expressions m.vars) :
    (start m).Affords m.options.iterationLimit m.passBudget 0 := by
  unfold passBudget
  cases hl : m.options.iterationLimit with
  | none =>
    have hsize := (coherent_start h).size_fixed_le
    refine .inr ⟨rfl, ?_⟩
    rw [vars_start, Option.getD_none]
    omega
  | some k => exact .inl (by simp)

/-- **The loop ends, and presolve returns the result of it.** -/
theorem exists_runs (h : WellFormed m.expressions m.vars) (rules : List Rule) :
    ∃ r as, m.presolve rules = .ok r ∧ m.Runs rules as r := by
  obtain ⟨w, as, hw, hL⟩ := exists_loopTrace m.options.slack (Rule.byPriority rules)
    (coherent_start h) (affords_passBudget h)
  have hw' : run m.options.slack (Rule.byPriority rules) m.passBudget 0 m.expressions
      (.start m.vars) = .ok w := hw
  refine ⟨m.presolved w, as, ?_, w, hL, rfl⟩
  simp only [presolve, hw', bind, Except.bind]
  rfl

/-- **A model has no other run.** -/
theorem Runs.unique (h : m.Runs rules as r) (h' : m.Runs rules as' r') : as = as' ∧ r = r' := by
  obtain ⟨w, hL, rfl⟩ := h
  obtain ⟨w', hL', rfl⟩ := h'
  obtain ⟨rfl, rfl⟩ := hL.unique hL'
  exact ⟨rfl, rfl⟩

theorem presolve_eq_ok_iff (h : WellFormed m.expressions m.vars) :
    m.presolve rules = .ok r ↔ ∃ as, m.Runs rules as r := by
  obtain ⟨r', as, hr, hR⟩ := exists_runs h rules
  constructor
  · intro hr'
    cases hr.symm.trans hr'
    exact ⟨as, hR⟩
  · rintro ⟨as', hR'⟩
    rw [hr, (hR.unique hR').2]

theorem presolve_eq_of_loopTrace (h : WellFormed m.expressions m.vars) {w : Ending}
    (hL : LoopTrace m.options.slack (Rule.byPriority rules) m.options.iterationLimit 0 (start m) as w) :
    m.presolve rules = .ok (m.presolved w) :=
  (presolve_eq_ok_iff h).mpr ⟨as, w, hL, rfl⟩

/-- **The applications of a run lead to its last state.** -/
theorem Runs.ended (h : m.Runs rules as r) :
    ∃ b, Ended m.options.slack (Rule.byPriority rules) (start m) as r.summary.status.index? b ∧
      r.model = { m with vars := b.vars, expressions := b.expressions } ∧
        r.summary.fixed = b.fixed ∧ r.summary.fixes = b.progress.fixes := by
  obtain ⟨w, hL, rfl⟩ := h
  obtain ⟨b, hb, rfl | ⟨event, hw⟩⟩ := hL.ended
  · exact ⟨_, hb, rfl, rfl, rfl⟩
  · refine ⟨b, hb, ?_⟩
    have hexp : w.expressions = b.expressions := congrArg State.expressions hw
    have hprog : w.progress = b.progress.note event := congrArg State.progress hw
    simp only [presolved, hexp, hprog]
    exact ⟨rfl, rfl, rfl⟩

theorem Runs.options_eq (h : m.Runs rules as r) : r.model.options = m.options := by
  obtain ⟨w, -, rfl⟩ := h
  rfl

theorem Runs.madeFrom (h : m.Runs rules as r) {x : Application} (hx : x ∈ as) :
    MadeFrom m.options.slack (Rule.byPriority rules) (start m) x := by
  obtain ⟨b, hb, -⟩ := h.ended
  exact hb.madeFrom hx

/-- **Presolve succeeds on a well formed model**, and its result is the last state of a run. -/
theorem exists_presolve (h : WellFormed m.expressions m.vars) (rules : List Rule) :
    ∃ r b, m.presolve rules = .ok r ∧
      Outcome m.options.slack (Rule.byPriority rules) (start m) r.summary.status b ∧
        r.model = { m with vars := b.vars, expressions := b.expressions } ∧
          r.summary.fixed = b.fixed := by
  obtain ⟨r, as, hr, w, hL, rfl⟩ := exists_runs h rules
  exact ⟨_, w.state, hr, hL.outcome, rfl, rfl⟩

end Model

end ExactPresolve
