import ExactPresolve.Proofs.Run.Faultless

/-!
# Histories of a model

Between two runs anything may be added to a model, and the options may change. An addition is refused
if it would break the model, and then nothing happens. So every model of a history is well formed, and
the next run finds one that it can work on. Nothing in a history touches an expression that is out of
force: expressions are added behind those that are there, and rules do not look at it.

* `Model.addVariable_getD`, `Model.addExpression_getD`: what is refused;
* **`Model.reachable_wellFormed`**: the models of all histories are well formed;
* `Model.Leads`: additions and runs lead from a model to another one;
* **`Model.Leads.getElem?_of_not_inForce`**: expressions that are out of force stay as they are.
-/

namespace ExactPresolve

namespace Model

variable {m m' : Model}

/-- A variable is added if and only if the model stays well formed. -/
theorem addVariable_getD (hm : WellFormed m.expressions m.vars) (v : Variable) :
    (m.addVariable v).toOption.getD m =
      if WellFormed m.expressions (m.vars ++ [v]) then { m with vars := m.vars ++ [v] } else m := by
  by_cases hv : v.bounds.Consistent
  · rw [if_pos (hm.append_variable_iff.mpr hv), addVariable, if_pos hv]
    rfl
  · rw [if_neg (hm.append_variable_iff.not.mpr hv), addVariable, if_neg hv]
    rfl

/-- An expression is added if and only if the model stays well formed. -/
theorem addExpression_getD (hm : WellFormed m.expressions m.vars) (e : Expression) :
    (m.addExpression e).toOption.getD m =
      if WellFormed (m.expressions ++ [e]) m.vars then { m with expressions := m.expressions ++ [e] }
      else m := by
  by_cases h : WellFormed (m.expressions ++ [e]) m.vars
  · obtain ⟨hr, hl⟩ := hm.append_expression_iff.mp h
    rw [if_pos h, addExpression_of_wellFormed hl hr]
    rfl
  · rw [if_neg h]
    cases he : m.addExpression e with
    | error refusal => rfl
    | ok m' =>
      obtain ⟨hr, hl, -⟩ := addExpression_eq_ok he
      exact absurd (hm.append_expression_iff.mpr ⟨hr, hl⟩) h

/-- **The models of all histories are well formed**, and an addition takes place if and only if the
model stays so. -/
theorem reachable_wellFormed (h : m.Reachable) :
    (∀ v ∈ m.vars, v.bounds.Consistent) ∧
      (∀ e ∈ m.expressions, e.limits.Consistent ∧
        ∀ t ∈ e.terms.toList, t.2 ≠ 0 ∧ t.1 < m.vars.length) ∧
      (∀ v, (m.addVariable v).toOption.getD m =
        if WellFormed m.expressions (m.vars ++ [v]) then { m with vars := m.vars ++ [v] } else m) ∧
      (∀ e, (m.addExpression e).toOption.getD m =
        if WellFormed (m.expressions ++ [e]) m.vars then
          { m with expressions := m.expressions ++ [e] }
        else m) ∧
      ∀ rules, ∃ r, m.presolve rules = .ok r := by
  have hm := h.built.wellFormed
  refine ⟨hm.bounds, fun e he => ⟨hm.limits e he, fun t ht => ⟨e.terms.nonzero t ht, ?_⟩⟩,
    addVariable_getD hm, addExpression_getD hm, fun rules => ?_⟩
  · exact hm.range e he t.1 (Terms.fst_mem_indices ht)
  · obtain ⟨r, -, hr, -⟩ := exists_runs hm rules
    exact ⟨r, hr⟩

theorem reachable_wellFormed_interrupted : ∃ r, interrupted.presolve [.signs] = .ok r ∧
    r.summary.status = .infeasible 1 ∧ (∀ v ∈ r.model.vars, v.bounds.Consistent) ∧
      (r.model.addVariable ⟨"u", .integer, ⟨some 1, some 0⟩, none⟩).toOption.getD r.model =
        r.model ∧
      ∃ r', r.model.presolve [.fewFree] = .ok r' := by
  have hm : interrupted.Built := by decide +kernel
  obtain ⟨r, -, hr, -⟩ := exists_runs hm.wellFormed [.signs]
  have hrun : ∀ r ∈ (interrupted.presolve [.signs]).toOption,
      r.summary.status = .infeasible 1 := by
    decide +kernel
  have hreach := hm.reachable.presolve hr
  obtain ⟨hbounds, -, hadd, -, hnext⟩ := reachable_wellFormed hreach
  refine ⟨r, hr, hrun r (by rw [hr]; rfl), hbounds, ?_, hnext [.fewFree]⟩
  exact (hadd _).trans
    (if_neg (hreach.built.wellFormed.append_variable_iff.not.mpr (by decide +kernel)))

end Model

/-! ## Expressions that are out of force -/

namespace State

variable {slack : ℚ} {rules : List Rule} {a b : State} {as : List Application} {o : Option ℕ} {i : ℕ}
  {e : Expression}

/-- A run to its end leaves alone an expression that is out of force. -/
theorem Ended.getElem?_of_not_inForce (h : Ended slack rules a as o b) (ha : a.Coherent)
    (he : a.expressions[i]? = some e) (hf : ¬e.InForce) : b.expressions[i]? = some e :=
  h.invariant (P := fun c => c.expressions[i]? = some e) ha he (fun _ _ ih => ih)
    fun _ happ ih => happ.getElem?_of_not_inForce ih hf

end State

open State

namespace Model

/-- Additions, which may be refused, and runs of presolve, which may end in any way, lead from the
model `m` to another one. The options may be others each time. -/
inductive Leads (m : Model) : Model → Prop
  | refl : Leads m m
  | addVariable {m'} (h : Leads m m') (v : Variable) : Leads m ((m'.addVariable v).toOption.getD m')
  | addExpression {m'} (h : Leads m m') (e : Expression) :
    Leads m ((m'.addExpression e).toOption.getD m')
  | configure {m'} (h : Leads m m') (options : Options) : Leads m { m' with options }
  | presolve {m' rules r} (h : Leads m m') (hr : m'.presolve rules = .ok r) : Leads m r.model

variable {m m' : Model} {rules : List Rule} {as : List Application} {r : Presolved} {i : ℕ}
  {e : Expression}

theorem Runs.getElem?_of_not_inForce (h : m.Runs rules as r) (hm : WellFormed m.expressions m.vars)
    (he : m.expressions[i]? = some e) (hf : ¬e.InForce) : r.model.expressions[i]? = some e := by
  obtain ⟨b, hended, hmodel, -⟩ := h.ended
  rw [hmodel]
  exact hended.getElem?_of_not_inForce (coherent_start hm) he hf

theorem Reachable.of_leads (h : m.Reachable) (h' : m.Leads m') : m'.Reachable := by
  induction h' with
  | refl => exact h
  | addVariable _ v ih => exact ih.addVariable v
  | addExpression _ e ih => exact ih.addExpression e
  | configure _ options ih => exact ih.configure options
  | presolve _ hr ih => exact ih.presolve hr

theorem reachable_iff_leads : m.Reachable ↔ ∃ options, (empty options).Leads m := by
  constructor
  · intro h
    induction h with
    | empty options => exact ⟨options, .refl⟩
    | addVariable _ v ih => exact ih.imp fun _ h => h.addVariable v
    | addExpression _ e ih => exact ih.imp fun _ h => h.addExpression e
    | configure _ options ih => exact ih.imp fun _ h => h.configure options
    | presolve _ hr ih => exact ih.imp fun _ h => h.presolve hr
  · rintro ⟨options, h⟩
    exact (Reachable.empty options).of_leads h

/-- **Expressions that are out of force stay as they are**, whatever comes later. -/
theorem Leads.getElem?_of_not_inForce (h : m.Leads m') (hm : m.Reachable)
    (he : m.expressions[i]? = some e) (hf : ¬e.InForce) : m'.expressions[i]? = some e := by
  induction h with
  | refl => exact he
  | addVariable h v ih =>
    rw [addVariable_getD (hm.of_leads h).built.wellFormed]
    split_ifs <;> exact ih
  | addExpression h f ih =>
    rw [addExpression_getD (hm.of_leads h).built.wellFormed]
    split_ifs
    · exact (List.getElem?_append_left (List.getElem?_eq_some_iff.mp ih).1).trans ih
    · exact ih
  | configure _ _ ih => exact ih
  | presolve h hr ih =>
    have hw := (hm.of_leads h).built.wellFormed
    obtain ⟨as, hruns⟩ := (presolve_eq_ok_iff hw).mp hr
    exact hruns.getElem?_of_not_inForce hw ih hf

end Model

end ExactPresolve
