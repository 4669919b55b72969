import ExactPresolve.Proofs.Run.Refutation

/-!
# The reports of a run

A value that a rule refuses makes its expression infeasible, and with this the run ends. So all reports
of a run come from its last application, and nothing happens after them that could make them untrue.

* `Application.Rejects`: an application refuses a value;
* `State.VisitTrace.reports_eq`, `State.PassTrace.reports_eq`, **`State.LoopTrace.reports_eq`**: the
  reports of a run are those of its applications, in their order;
* `State.Ended.eq_getLast?`, **`State.Ended.concerns`**: the application that refuses, and what is true
  after it;
* **`Model.presolve_reports`**: the reports of presolve.
-/

namespace ExactPresolve

namespace Application

/-- The application checks a value and refuses it with the report. -/
def Rejects (slack : ℚ) (x : Application) (report : Violation) : Prop :=
  ∃ e, x.before.expressions[x.index]? = some e ∧
    x.rule.Rejects slack x.before.fixed e x.before.vars report

def reports (x : Application) : List Violation := Reporting.collect.reports x.step.events

end Application

namespace State

variable {slack : ℚ} {rules rs : List Rule} {limit : Option ℕ} {a b : State} {i k n : ℕ}
  {as : List Application} {o : Option ℕ} {w : Ending} {x : Application} {report : Violation}

def reports (a : State) : List Violation := Reporting.collect.reports a.progress.events

theorem reports_note (a : State) {event : Event} (h : event.report? = none) :
    (a.note event).reports = a.reports :=
  Reporting.collect_append_of_none _ h

theorem reports_after (a : State) (r : Rule) (i : ℕ) (s : Step) :
    (a.after r i s).reports = a.reports ++ (Application.mk a r i s).reports := by
  rw [reports, events_after, Reporting.collect_append]
  rfl

/-! ## The reports of the loop -/

theorem VisitTrace.reports_eq (h : VisitTrace slack i rs a as b) :
    b.reports = a.reports ++ as.flatMap Application.reports := by
  induction h with
  | nil => simp
  | skip => simp
  | apply _ _ ih => rw [ih, reports_after, List.flatMap_cons, List.append_assoc]

theorem PassTrace.reports_eq (h : PassTrace slack rules k a as o b) :
    b.reports = a.reports ++ as.flatMap Application.reports := by
  induction h with
  | done => simp
  | stop hv => exact hv.reports_eq
  | next hv _ _ _ ih => rw [ih, hv.reports_eq, List.flatMap_append, List.append_assoc]

/-- **The reports of a run are those of its applications.** What is told about the passes is no
report. -/
theorem LoopTrace.reports_eq (h : LoopTrace slack rules limit n a as w) :
    w.state.reports = a.reports ++ as.flatMap Application.reports := by
  induction h with
  | limit =>
    rw [List.flatMap_nil, List.append_nil]
    exact reports_note _ rfl
  | infeasible _ hp => exact (reports_note _ rfl).trans hp.reports_eq
  | reduced _ hp => exact hp.reports_eq
  | again _ hp _ _ ih =>
    rw [ih, reports_note _ rfl, hp.reports_eq, List.flatMap_append, List.append_assoc]

/-! ## The application that refuses -/

theorem MadeFrom.mem_reports_iff (h : MadeFrom slack rules a x) (ha : a.Coherent) :
    report ∈ x.reports ↔ x.Rejects slack report := by
  obtain ⟨hreach, -, e, happ⟩ := h
  have hready := (ha.reaches hreach).ready happ.getElem?_eq
  refine (Rule.mem_reports_iff happ.inForce hready happ.apply_eq).trans
    ⟨fun hr => ⟨e, happ.getElem?_eq, hr⟩, ?_⟩
  rintro ⟨f, hf, hr⟩
  rwa [Option.some.inj (happ.getElem?_eq.symm.trans hf)]

/-- After an application that refuses, its report is true, and its expression infeasible. -/
theorem Applies.concerns_of_mem {r : Rule} {e : Expression} {s : Step} (h : a.Applies slack r i e s)
    (ha : a.Coherent) (hm : report ∈ (Application.mk a r i s).reports) :
    s.expression.infeasible = true ∧ report.Concerns slack s.expression s.vars := by
  obtain ⟨held, -, hE⟩ := h.effect ha
  refine hE.concerns_of_mem (fun j hj v hv hf => ?_) (Reporting.mem_collect.mp hm)
  exact (Terms.mem_freeIndices.mp hj).2 ((ha.mem_fixed j).mpr ⟨v, hv, hf⟩)

theorem MadeFrom.refutes (h : MadeFrom slack rules a x) (ha : a.Coherent) (hm : report ∈ x.reports) :
    x.Refutes := by
  obtain ⟨hreach, -, e, happ⟩ := h
  exact (happ.concerns_of_mem (ha.reaches hreach) hm).1

theorem Ended.eq_getLast? (h : Ended slack rules a as o b) (hx : x ∈ as) (hr : x.Refutes) :
    as.getLast? = some x := by
  cases h with
  | kept h => exact absurd hr (h.not_refutes x hx)
  | marked h => exact absurd hr (h.not_refutes x hx)
  | refuted h =>
    rcases List.mem_append.mp hx with hx | hx
    · exact absurd hr (h.not_refutes x hx)
    · rw [List.mem_singleton.mp hx, List.getLast?_concat]

/-- **What is reported is true at the end of the run**, since no application comes after the one that
refuses. -/
theorem Ended.concerns (h : Ended slack rules a as (some i) b) (ha : a.Coherent) :
    ∃ f, b.expressions[i]? = some f ∧
      ∀ report ∈ as.flatMap Application.reports, report.Concerns slack f b.vars := by
  have hnone {bs : List Application} {c : State} (hp : Path slack rules a bs c) :
      bs.flatMap Application.reports = [] := by
    refine List.flatMap_eq_nil_iff.mpr fun x hx => List.eq_nil_iff_forall_not_mem.mpr fun report hm => ?_
    exact hp.not_refutes x hx ((hp.madeFrom hx).refutes ha hm)
  cases h with
  | marked h he => exact ⟨_, he, by simp [hnone h]⟩
  | refuted h _ happ =>
    refine ⟨_, happ.getElem?_after, fun report hm => ?_⟩
    rw [List.flatMap_append, hnone h, List.nil_append, List.flatMap_singleton] at hm
    rw [vars_after]
    exact (happ.concerns_of_mem (ha.reaches h.reaches) hm).2

end State

open State

namespace Model

variable {m : Model} {rules : List Rule} {as : List Application} {r : Presolved}

theorem Runs.reports_eq (h : m.Runs rules as r) :
    Reporting.collect.reports r.events = as.flatMap Application.reports := by
  obtain ⟨w, hL, rfl⟩ := h
  rw [collect_presolved]
  exact hL.reports_eq

/-- **Reports are given exactly for the refusals that end a run, and are true in the end.** -/
theorem presolve_reports (hm : m.Built) (rules : List Rule) :
    ∃ r as, m.presolve rules = .ok r ∧ m.Runs rules as r ∧
      (∀ report, report ∈ Reporting.collect.reports r.events ↔
        ∃ x ∈ as, x.Rejects m.options.slack report) ∧
      (∀ x ∈ as, ∀ report, x.Rejects m.options.slack report →
        as.getLast? = some x ∧ r.summary.status = .infeasible x.index) ∧
      (r.summary.status = .reduced ∨ r.summary.status = .iterationLimit →
        Reporting.collect.reports r.events = []) ∧
      ∀ i, r.summary.status = .infeasible i → ∃ e, r.model.expressions[i]? = some e ∧
        ∀ report ∈ Reporting.collect.reports r.events,
          report.Concerns m.options.slack e r.model.vars := by
  obtain ⟨r, as, hr, hruns⟩ := exists_runs hm.wellFormed rules
  have hstart := coherent_start hm.wellFormed
  obtain ⟨b, hended, hmodel, -⟩ := hruns.ended
  have hlast : ∀ x ∈ as, ∀ report ∈ x.reports,
      as.getLast? = some x ∧ r.summary.status = .infeasible x.index := fun x hx report hm => by
    have hrefutes := (hended.madeFrom hx).refutes hstart hm
    exact ⟨hended.eq_getLast? hx hrefutes,
      Status.eq_infeasible_of_index? (hended.eq_some_of_refutes hx hrefutes)⟩
  refine ⟨r, as, hr, hruns, fun report => ?_, fun x hx report hrej => ?_, fun hst => ?_,
    fun i hi => ?_⟩
  · rw [hruns.reports_eq, List.mem_flatMap]
    exact exists_congr fun x => and_congr_right fun hx =>
      (hended.madeFrom hx).mem_reports_iff hstart
  · exact hlast x hx report (((hended.madeFrom hx).mem_reports_iff hstart).mpr hrej)
  · refine List.eq_nil_iff_forall_not_mem.mpr fun report hreport => ?_
    rw [hruns.reports_eq, List.mem_flatMap] at hreport
    obtain ⟨x, hx, hmem⟩ := hreport
    have hinf := (hlast x hx report hmem).2
    rcases hst with hst | hst <;> cases hst.symm.trans hinf
  · have hi' : r.summary.status.index? = some i := congrArg Status.index? hi
    rw [hi'] at hended
    rw [hruns.reports_eq, hmodel]
    exact hended.concerns hstart

/-- A model whose second expression leaves its variables no value but zero, which two of them refuse
and the slack allows a third one to take. -/
def unwilling : Model where
  vars := [⟨"x", .continuous, ⟨some 1, none⟩, none⟩, ⟨"y", .continuous, ⟨some (1 / 3), none⟩, none⟩,
    ⟨"z", .integer, ⟨none, some 9⟩, none⟩, ⟨"w", .integer, ⟨some (-5), some (-2)⟩, none⟩]
  expressions := [⟨"c", .ofList [(2, 2)], .point 6, false, false⟩,
    ⟨"d", .ofList [(0, -1), (1, -3), (2, 2), (3, -1 / 2)], ⟨some 6, none⟩, false, false⟩]
  options := ⟨1 / 2, none⟩

theorem presolve_reports_unwilling : ∃ r e, unwilling.presolve [.signs, .fewFree] = .ok r ∧
    r.summary.status = .infeasible 1 ∧ r.model.expressions[1]? = some e ∧
      Reporting.collect.reports r.events = [⟨.variable, "x", 0, .lower, 1⟩,
        ⟨.variable, "w", 0, .upper, -2⟩] ∧
      ∀ report ∈ Reporting.collect.reports r.events, report.Concerns (1 / 2) e r.model.vars := by
  have hm : unwilling.Built := by decide +kernel
  obtain ⟨r, as, hr, -, -, -, -, hconcerns⟩ := presolve_reports hm [.signs, .fewFree]
  have hrun : ∀ r ∈ (unwilling.presolve [.signs, .fewFree]).toOption,
      r.summary.status = .infeasible 1 ∧
        Reporting.collect.reports r.events = [⟨.variable, "x", 0, .lower, 1⟩,
          ⟨.variable, "w", 0, .upper, -2⟩] := by
    decide +kernel
  obtain ⟨hst, hreports⟩ := hrun r (by rw [hr]; rfl)
  obtain ⟨e, he, htrue⟩ := hconcerns 1 hst
  exact ⟨r, e, hr, hst, he, hreports, htrue⟩

end Model

end ExactPresolve
