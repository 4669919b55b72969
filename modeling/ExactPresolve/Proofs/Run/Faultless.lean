import ExactPresolve.Proofs.Rule.Checked
import ExactPresolve.Proofs.Run.Counts

/-!
# Runs without faults

A model may have been presolved before, as often as one likes, with additions in between, and a run
may have stopped halfway because an expression turned out to be infeasible. Whatever was done to it,
a model is well formed, and so a further run meets no fault.

* `Model.Reachable`: the models that additions and runs lead to;
* `State.Ended.wellFormed`: a run leaves a well formed model, also if it stops halfway;
* **`Model.Reachable.built`**: each of these models can be built without any run;
* `Application.Faultless`: an application without faults;
* **`Model.presolve_faultless`**: a run without faults, whose counters do not overflow.
-/

namespace ExactPresolve

namespace RuleCounts

theorem get_le_total (c : RuleCounts) (r : Rule) : c.get r ≤ c.total := by
  cases r <;> simp [total, Rule.all, get]

end RuleCounts

namespace State

variable {slack : ℚ} {rules : List Rule} {a b : State} {as : List Application} {o : Option ℕ}

/-- **A run leaves a well formed model**, also if it stops halfway. -/
theorem Ended.wellFormed (h : Ended slack rules a as o b) (ha : a.Coherent) :
    WellFormed b.expressions b.vars := by
  cases h with
  | kept h => exact (ha.reaches h.reaches).toWellFormed
  | marked h => exact (ha.reaches h.reaches).toWellFormed
  | refuted h _ happ => exact happ.wellFormed (ha.reaches h.reaches)

theorem Path.length_expressions (h : Path slack rules a as b) :
    b.expressions.length = a.expressions.length := by
  induction h with
  | refl => rfl
  | apply _ _ _ _ ih => simpa using ih
  | note _ _ ih => exact ih

theorem Ended.length_expressions (h : Ended slack rules a as o b) :
    b.expressions.length = a.expressions.length := by
  cases h with
  | kept h => exact h.length_expressions
  | marked h => exact h.length_expressions
  | refuted h => simpa using h.length_expressions

theorem Ended.lt_length {i : ℕ} (h : Ended slack rules a as (some i) b) :
    i < b.expressions.length := by
  cases h with
  | marked _ he => exact (List.getElem?_eq_some_iff.mp he).1
  | refuted _ _ happ => simpa using (List.getElem?_eq_some_iff.mp happ.getElem?_eq).1

end State

/-- The application `x`, to the expression `e`, meets no fault. -/
structure Application.Faultless (slack : ℚ) (x : Application) (e : Expression) : Prop where
  /-- The application is to an expression of the model. -/
  getElem?_eq : x.before.expressions[x.index]? = some e
  /-- The variables of the expression are there, both before and after the application. -/
  range : ∀ j ∈ e.terms.indices, j < x.before.vars.length ∧ j < x.step.vars.length
  /-- The variables in the fixed set have a value. -/
  held : ∀ j ∈ x.before.fixed, ∃ v, x.before.vars[j]? = some v ∧ v.fixedValue?.isSome = true
  /-- The rule gives a result, also with divisions that fail for a zero divisor. -/
  apply_eq : x.rule.applyChecked slack x.before.fixed e x.before.vars = .ok x.step

namespace State

variable {slack : ℚ} {rules : List Rule} {a b : State} {x : Application}

theorem MadeFrom.exists_faultless (h : MadeFrom slack rules a x) (ha : a.Coherent) :
    ∃ e, x.Faultless slack e := by
  obtain ⟨hreach, -, e, happ⟩ := h
  have hb := ha.reaches hreach
  refine ⟨e, happ.getElem?_eq, fun j hj => ?_, fun j hj => ?_, ?_⟩
  · have hlt := (hb.ready happ.getElem?_eq).range j hj
    exact ⟨hlt, happ.length_vars hb ▸ hlt⟩
  · obtain ⟨v, hv, hf⟩ := (hb.mem_fixed j).mp hj
    obtain ⟨y, hy⟩ := Option.isSome_iff_exists.mp hf
    exact ⟨v, hv, by simp [Variable.fixedValue?, hy]⟩
  · rw [Rule.applyChecked_eq]
    exact happ.apply_eq

theorem MadeFrom.size_fixed_le (h : MadeFrom slack rules a x) (ha : a.Coherent) :
    x.before.fixed.size ≤ a.vars.length := by
  rw [← h.reaches.length_vars ha]
  exact (ha.reaches h.reaches).size_fixed_le

end State

open State

namespace Model

/-- The model comes from an empty one by additions, which may be refused, and runs of presolve, which
may end in any way. The options may be others each time. -/
inductive Reachable : Model → Prop
  | empty (options : Options) : Reachable (empty options)
  | addVariable {m} (h : Reachable m) (v : Variable) :
    Reachable ((m.addVariable v).toOption.getD m)
  | addExpression {m} (h : Reachable m) (e : Expression) :
    Reachable ((m.addExpression e).toOption.getD m)
  | configure {m} (h : Reachable m) (options : Options) : Reachable { m with options }
  | presolve {m rules r} (h : Reachable m) (hr : m.presolve rules = .ok r) : Reachable r.model

variable {m : Model} {rules : List Rule} {as : List Application} {r : Presolved}

theorem wellFormed_presolve (hm : WellFormed m.expressions m.vars)
    (hr : m.presolve rules = .ok r) : WellFormed r.model.expressions r.model.vars := by
  obtain ⟨as, hruns⟩ := (presolve_eq_ok_iff hm).mp hr
  obtain ⟨b, hended, hmodel, -⟩ := hruns.ended
  rw [hmodel]
  exact hended.wellFormed (coherent_start hm)

/-- **Runs of presolve lead to no model that could not be built without them.** -/
theorem Reachable.built (h : m.Reachable) : m.Built := by
  induction h with
  | empty options => exact .empty options
  | @addVariable m _ v ih =>
    cases hv : m.addVariable v with
    | error refusal => exact ih
    | ok m' => exact ih.addVariable hv
  | @addExpression m _ e ih =>
    cases he : m.addExpression e with
    | error refusal => exact ih
    | ok m' => exact ih.addExpression he
  | configure _ _ ih => exact built_iff.mpr ih.wellFormed
  | presolve _ hr ih => exact built_iff.mpr (wellFormed_presolve ih.wellFormed hr)

theorem Built.reachable (h : m.Built) : m.Reachable := by
  induction h with
  | empty options => exact .empty options
  | @addVariable m m' v _ hv ih =>
    have h' := ih.addVariable v
    rwa [hv] at h'
  | @addExpression m m' e _ he ih =>
    have h' := ih.addExpression e
    rwa [he] at h'

theorem Runs.length_expressions (h : m.Runs rules as r) :
    r.model.expressions.length = m.expressions.length := by
  obtain ⟨b, hended, hmodel, -⟩ := h.ended
  rw [hmodel]
  exact hended.length_expressions

theorem Runs.lt_length (h : m.Runs rules as r) {i : ℕ} (hi : r.summary.status = .infeasible i) :
    i < r.model.expressions.length := by
  obtain ⟨b, hended, hmodel, -⟩ := h.ended
  rw [hi] at hended
  rw [hmodel]
  exact hended.lt_length

theorem Runs.redundant_le (h : m.Runs rules as r) :
    r.summary.redundant ≤ r.model.expressions.length := by
  obtain ⟨w, -, rfl⟩ := h
  exact List.countP_le_length

/-- **A run without faults**, whatever additions and runs led to the model. With fewer than `2 ^ 63`
variables and expressions, no counter exceeds a word of 64 bits. -/
theorem presolve_faultless (h : m.Reachable) (rules : List Rule) :
    ∃ r as, m.presolve rules = .ok r ∧ m.Runs rules as r ∧
      (∀ x ∈ as, ∃ e, x.Faultless m.options.slack e) ∧
        (∀ i, r.summary.status = .infeasible i → i < r.model.expressions.length) ∧
        (m.vars.length < 2 ^ 63 → m.expressions.length < 2 ^ 63 →
          (∀ x ∈ as, x.before.fixed.size + 2 < 2 ^ 64) ∧ r.summary.passes < 2 ^ 64 ∧
            (∀ q, r.summary.fixes.get q < 2 ^ 64) ∧ r.summary.fixed.size + 2 < 2 ^ 64 ∧
            r.summary.redundant < 2 ^ 64) := by
  have hm := h.built.wellFormed
  have hstart := coherent_start hm
  obtain ⟨r, as, hr, hruns⟩ := exists_runs hm rules
  refine ⟨r, as, hr, hruns, fun x hx => (hruns.madeFrom hx).exists_faultless hstart,
    fun i => hruns.lt_length, fun hvars hexpressions => ?_⟩
  obtain ⟨-, hpasses, -⟩ := hruns.passes_le hm
  obtain ⟨-, hsize, hfixed⟩ := hruns.fixed_grows hm
  have hred := hruns.redundant_le
  rw [hruns.length_expressions] at hred
  refine ⟨fun x hx => ?_, by omega, fun q => ?_, by omega, by omega⟩
  · have hx' : x.before.fixed.size ≤ m.vars.length := (hruns.madeFrom hx).size_fixed_le hstart
    omega
  · have hq := r.summary.fixes.get_le_total q
    omega

/-- A model on which the rule for signs stops halfway, after it has fixed a variable. -/
def interrupted : Model where
  vars := [⟨"x", .continuous, ⟨some 0, none⟩, none⟩, ⟨"y", .continuous, ⟨some 1, none⟩, none⟩,
    ⟨"z", .integer, ⟨some 0, some 9⟩, none⟩]
  expressions := [⟨"c", .ofList [(0, 1), (1, 1), (2, 2)], ⟨none, some 20⟩, false, false⟩,
    ⟨"d", .ofList [(0, -1), (1, -1)], ⟨some 0, none⟩, false, false⟩]
  options := .standard

theorem presolve_faultless_interrupted : ∃ r₁ r₂ as, interrupted.presolve [.signs] = .ok r₁ ∧
    r₁.summary.status = .infeasible 1 ∧ r₁.model.presolve [.fewFree, .signs] = .ok r₂ ∧
      r₁.model.Runs [.fewFree, .signs] as r₂ ∧
        (∀ x ∈ as, ∃ e, x.Faultless r₁.model.options.slack e) ∧ r₂.summary.passes < 2 ^ 64 := by
  have hm : interrupted.Built := by decide +kernel
  have hrun : ∀ r ∈ (interrupted.presolve [.signs]).toOption, r.summary.status = .infeasible 1 ∧
      r.model.vars.length < 2 ^ 63 ∧ r.model.expressions.length < 2 ^ 63 := by
    decide +kernel
  obtain ⟨r₁, -, hr₁, -⟩ := exists_runs hm.wellFormed [.signs]
  obtain ⟨hst, hvars, hexpressions⟩ := hrun r₁ (by rw [hr₁]; rfl)
  obtain ⟨r₂, as, hr₂, hruns, hfree, -, hcounters⟩ :=
    presolve_faultless (hm.reachable.presolve hr₁) [.fewFree, .signs]
  obtain ⟨-, hpasses, -⟩ := hcounters hvars hexpressions
  exact ⟨r₁, r₂, as, hr₁, hst, hr₂, hruns, hfree, hpasses⟩

end Model

end ExactPresolve
