import ExactPresolve.Proofs.Rule.Apply

/-!
# What an application of a rule reports

A rule checks a value against limits in three places: the value of an expression without free
variables, the solution of an equation for its last free variable, and zero for variables that the
signs leave no other value. A value that lies outside by more than the slack is refused. Refused values
are reported, nothing else is, and the expression cannot be satisfied then.

* `Violation.HoldsFor`: a report that is true of bounds;
* `Violation.Concerns`: a true report about an expression or one of its variables;
* `Rule.Rejects`: a rule refuses a value;
* **`Rule.mem_reports_iff`**: an application reports the values that the rule refuses, and no others;
* **`Effect.concerns_of_mem`**: the reports are true of what the application leaves behind.
-/

namespace ExactPresolve

open FewFree Signs

/-! ## Collected reports -/

namespace Reporting

theorem collect_append (xs ys : List Event) :
    collect.reports (xs ++ ys) = collect.reports xs ++ collect.reports ys :=
  List.filterMap_append

/-- Only refused values are reported. -/
theorem collect_append_of_none {x : Event} (xs : List Event) (h : x.report? = none) :
    collect.reports (xs ++ [x]) = collect.reports xs := by
  have hx : collect.reports [x] = [] := List.filterMap_cons_none h
  rw [collect_append, hx, List.append_nil]

theorem mem_collect {report : Violation} {events : List Event} :
    report ∈ collect.reports events ↔ Event.refused report ∈ events := by
  have hx (x : Event) : x.report? = some report ↔ x = .refused report := by
    cases x <;> simp [Event.report?]
  simp [Reporting.reports, List.mem_filterMap, hx]

end Reporting

/-! ## True reports -/

/-- The value lies beyond a limit of this direction by more than the slack. -/
def Direction.Exceeds : Direction → ℚ → ℚ → ℚ → Prop
  | lower, slack, limit, x => x < limit - slack
  | upper, slack, limit, x => limit + slack < x

instance (d : Direction) (slack limit x : ℚ) : Decidable (d.Exceeds slack limit x) :=
  match d with
  | .lower => inferInstanceAs (Decidable (x < limit - slack))
  | .upper => inferInstanceAs (Decidable (limit + slack < x))

theorem Bounds.exceeded?_eq_some {b : Bounds} {slack x limit : ℚ} {d : Direction}
    (h : b.exceeded? slack x = some (d, limit)) :
    b.get d = some limit ∧ d.Exceeds slack limit x := by
  rcases Option.or_eq_some_iff.mp h with h | ⟨-, h⟩
  · obtain ⟨l, hl, he⟩ := Option.map_eq_some_iff.mp h
    cases he
    obtain ⟨hb, hx⟩ := Option.filter_eq_some_iff.mp hl
    exact ⟨hb, of_decide_eq_true hx⟩
  · obtain ⟨u, hu, he⟩ := Option.map_eq_some_iff.mp h
    cases he
    obtain ⟨hb, hx⟩ := Option.filter_eq_some_iff.mp hu
    exact ⟨hb, of_decide_eq_true hx⟩

namespace Violation

/-- The report names a limit of the bounds, and its value lies beyond this limit by more than the
slack. -/
def HoldsFor (report : Violation) (slack : ℚ) (b : Bounds) : Prop :=
  b.get report.direction = some report.limit ∧
    report.direction.Exceeds slack report.limit report.value

theorem find?_eq_some {subject : Subject} {name : String} {b : Bounds} {slack x : ℚ}
    {report : Violation} (h : find? subject name b slack x = some report) :
    report.subject = subject ∧ report.name = name ∧ report.HoldsFor slack b := by
  obtain ⟨⟨d, limit⟩, he, rfl⟩ := Option.map_eq_some_iff.mp h
  exact ⟨rfl, rfl, Bounds.exceeded?_eq_some he⟩

/-- The report is about the expression or about one of its variables, which is not fixed, and it is
true. -/
inductive Concerns (report : Violation) (slack : ℚ) (e : Expression) (vs : List Variable) : Prop
  | onExpression (hs : report.subject = .expression) (hn : report.name = e.name)
      (hh : report.HoldsFor slack e.limits)
  | onVariable {j v} (hj : j ∈ e.terms.indices) (hv : vs[j]? = some v) (hf : ¬v.IsFixed)
      (hs : report.subject = .variable) (hn : report.name = v.name)
      (hh : report.HoldsFor slack v.bounds)

end Violation

/-! ## Refused values -/

/-- The rule, applied to the expression, checks a value and refuses it with the report. -/
inductive Rule.Rejects (slack : ℚ) (fixed : IndexSet) (e : Expression) (vs : List Variable) :
    Rule → Violation → Prop
  -- the value of the expression, all variables of which are fixed
  | held {held report} (hf : e.terms.free fixed = []) (hh : e.heldValue fixed vs = .ok held)
      (hr : e.violation? slack held = some report) : Rejects slack fixed e vs .fewFree report
  -- the value that an equation leaves for its last free variable, if it is one of its kind
  | solution {held j a v level report} (hf : e.terms.free fixed = [(j, a)])
      (hh : e.heldValue fixed vs = .ok held) (hv : vs[j]? = some v)
      (hl : e.limits.point? = some level) (hk : v.kind.Admits (FewFree.solution held a level))
      (hr : v.violation? slack (FewFree.solution held a level) = some report) :
    Rejects slack fixed e vs .fewFree report
  -- zero for a free variable, where the signs oppose a limit that is zero
  | zero {held d j v report} (hh : e.heldValue fixed vs = .ok held)
      (hd : (e.limits.subtract held).get d = some 0) (ho : Opposes e.terms fixed d 0)
      (hj : j ∈ e.terms.freeIndices fixed) (hv : vs[j]? = some v)
      (hr : v.violation? slack 0 = some report) : Rejects slack fixed e vs .signs report

variable {slack held : ℚ} {fixed : IndexSet} {e : Expression} {vs : List Variable} {r : Rule}
  {s : Step} {report : Violation} {js : List ℕ}

theorem Signs.refused_mem_zeroEvents {name : String} :
    Event.refused report ∈ (targets js vs).map (zeroEvent slack name) ↔
      ∃ j ∈ js, ∃ v, vs[j]? = some v ∧ v.violation? slack 0 = some report := by
  have hz (v : Variable) : zeroEvent slack name v = .refused report ↔
      v.violation? slack 0 = some report := by
    unfold zeroEvent
    cases v.violation? slack 0 <;> simp
  simp only [List.mem_map, mem_targets, hz]
  constructor
  · rintro ⟨v, ⟨j, hj, hv⟩, hr⟩
    exact ⟨j, hj, v, hv, hr⟩
  · rintro ⟨j, hj, v, hv, hr⟩
    exact ⟨v, ⟨j, hj, hv⟩, hr⟩

namespace Effect

theorem rejects_of_mem (h : Effect slack fixed e vs held r s) (hh : e.heldValue fixed vs = .ok held)
    (hm : Event.refused report ∈ s.events) : r.Rejects slack fixed e vs report := by
  cases h with
  | outside hf hv =>
    obtain rfl : report = _ := by simpa using hm
    exact .held hf hh hv
  | beyond hf hj hl hk hv =>
    obtain rfl : report = _ := by simpa using hm
    exact .solution hf hh hj hl hk hv
  | zeroed hd ho =>
    obtain ⟨j, hj, v, hv, hr⟩ := refused_mem_zeroEvents.mp hm
    exact .zero hh hd ho hj hv hr
  | refusedZero hd ho =>
    obtain ⟨j, hj, v, hv, hr⟩ := refused_mem_zeroEvents.mp hm
    exact .zero hh hd ho hj hv hr
  | _ => simp [Step.unchanged] at hm

/-- **The reports of an application are true of what it leaves behind**, and the expression cannot be
satisfied then. No variable that is free before the application is fixed. -/
theorem concerns_of_mem (h : Effect slack fixed e vs held r s)
    (hfree : ∀ j ∈ e.terms.freeIndices fixed, ∀ v : Variable, vs[j]? = some v → ¬v.IsFixed)
    (hm : Event.refused report ∈ s.events) :
    s.expression.infeasible = true ∧ report.Concerns slack s.expression s.vars := by
  have hzero (hz : Event.refused report ∈
      (targets (e.terms.freeIndices fixed) vs).map (zeroEvent slack e.name)) :
      (¬∀ v ∈ targets (e.terms.freeIndices fixed) vs, v.TakesZero slack) ∧
        report.Concerns slack (e.marked true true)
          (Signs.zeroed slack (e.terms.freeIndices fixed) vs) := by
    obtain ⟨j, hj, v, hv, hr⟩ := refused_mem_zeroEvents.mp hz
    have hn : ¬v.TakesZero slack := fun ht => by cases hr.symm.trans ht
    obtain ⟨hsub, hname, hholds⟩ := Violation.find?_eq_some hr
    -- the variable is not among those that become fixed
    have hkeep : (Signs.zeroed slack (e.terms.freeIndices fixed) vs)[j]? = some v := by
      simp [getElem?_zeroed, hv, hn]
    exact ⟨fun hall => hn (hall v (mem_targets.mpr ⟨j, hj, hv⟩)),
      .onVariable (Terms.mem_freeIndices.mp hj).1 hkeep (hfree j hj v hv) hsub hname hholds⟩
  cases h with
  | outside hf hv =>
    obtain rfl : report = _ := by simpa using hm
    obtain ⟨hsub, hname, hholds⟩ := Violation.find?_eq_some hv
    exact ⟨rfl, .onExpression hsub hname hholds⟩
  | @beyond j a v _ _ hf hj hl hk hv =>
    obtain rfl : report = _ := by simpa using hm
    obtain ⟨hsub, hname, hholds⟩ := Violation.find?_eq_some hv
    have hjf : j ∈ e.terms.freeIndices fixed := List.mem_map.mpr ⟨(j, a), by simp [hf], rfl⟩
    have hset : (vs.set j v.settle)[j]? = some v.settle :=
      List.getElem?_set_self (List.getElem?_eq_some_iff.mp hj).1
    refine ⟨rfl, .onVariable (Terms.mem_freeIndices.mp hjf).1 hset ?_ hsub ?_ ?_⟩
    · rw [Variable.isFixed_settle]
      exact hfree j hjf v hj
    · rw [Variable.settle_name, hname]
    · rwa [Variable.settle_bounds]
  | zeroed hd ho hz => exact absurd hz (hzero hm).1
  | refusedZero hd ho hz => exact ⟨rfl, (hzero hm).2⟩
  | _ => simp [Step.unchanged] at hm

end Effect

theorem Rule.Rejects.exists_effect (h : r.Rejects slack fixed e vs report)
    (hh : e.heldValue fixed vs = .ok held) :
    ∃ s, Effect slack fixed e vs held r s ∧ Event.refused report ∈ s.events := by
  cases h with
  | held hf hh' hr =>
    cases hh.symm.trans hh'
    exact ⟨_, .outside hf hr, List.mem_cons_self⟩
  | solution hf hh' hv hl hk hr =>
    cases hh.symm.trans hh'
    exact ⟨_, .beyond hf hv hl hk hr, List.mem_cons_self⟩
  | @zero _ _ j v _ hh' hd ho hj hv hr =>
    cases hh.symm.trans hh'
    have hz : ¬∀ v ∈ targets (e.terms.freeIndices fixed) vs, v.TakesZero slack := fun hall => by
      cases hr.symm.trans (hall v (mem_targets.mpr ⟨j, hj, hv⟩))
    exact ⟨_, .refusedZero hd ho hz, refused_mem_zeroEvents.mpr ⟨j, hj, v, hv, hr⟩⟩

/-- **An application reports the values that the rule refuses, and no others.** -/
theorem Rule.mem_reports_iff (he : e.InForce) (hr : e.Ready fixed vs)
    (h : r.apply slack fixed e vs = .ok s) :
    report ∈ Reporting.collect.reports s.events ↔ r.Rejects slack fixed e vs report := by
  obtain ⟨held, hh, hE⟩ := Rule.effect_of_apply he hr h
  rw [Reporting.mem_collect]
  refine ⟨hE.rejects_of_mem hh, fun hrej => ?_⟩
  obtain ⟨t, hE', hm⟩ := hrej.exists_effect hh
  cases h.symm.trans (hE'.apply_eq he hr hh)
  exact hm

end ExactPresolve
