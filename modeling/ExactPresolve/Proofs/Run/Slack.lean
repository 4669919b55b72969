import ExactPresolve.Proofs.Run.Simulation

/-!
# Runs with different slacks

The slack is read only where a value is checked against bounds or limits. A larger slack lets pass
whatever a smaller one does, and what is written after a check does not depend on it. So two runs with
different slacks go the same way until the smaller slack refuses a value, which ends its run.

* `Bounds.exceeded?_mono`: a larger slack lets pass what a smaller one does;
* `Signs.zeroed_congr`: fixing variables at zero reads the slack only in the check;
* **`Effect.mono`**: an application that refutes nothing does the same with a larger slack;
* **`Model.presolve_slack_mono`**: the same for presolve.
-/

namespace ExactPresolve

variable {slack slack' held x : ℚ} {fixed : IndexSet} {e : Expression} {vs : List Variable}

/-! ## Checks -/

theorem Bounds.exceeded?_mono {b : Bounds} (hs : slack ≤ slack')
    (h : b.exceeded? slack x = none) : b.exceeded? slack' x = none := by
  obtain ⟨hl, hu⟩ := exceeded?_eq_none_iff.mp h
  exact exceeded?_eq_none_iff.mpr ⟨fun l hl' => by linarith [hl l hl'],
    fun u hu' => by linarith [hu u hu']⟩

theorem Variable.violation?_mono {v : Variable} (hs : slack ≤ slack')
    (h : v.violation? slack x = none) : v.violation? slack' x = none :=
  violation?_eq_none_iff.mpr (Bounds.exceeded?_mono hs (violation?_eq_none_iff.mp h))

theorem Expression.violation?_mono (hs : slack ≤ slack') (h : e.violation? slack x = none) :
    e.violation? slack' x = none :=
  violation?_eq_none_iff.mpr (Bounds.exceeded?_mono hs (violation?_eq_none_iff.mp h))

/-! ## Fixing variables at zero -/

namespace Signs

variable {js : List ℕ}

theorem zeroEvent_of_takes {v : Variable} (name : String) (h : v.TakesZero slack) :
    zeroEvent slack name v = .onlyZero name v.name := by
  unfold Variable.TakesZero at h
  rw [zeroEvent, h]

/-- Variables that take zero with both slacks are fixed at zero with both. -/
theorem zeroed_congr (h : ∀ v ∈ targets js vs, v.TakesZero slack)
    (h' : ∀ v ∈ targets js vs, v.TakesZero slack') : zeroed slack js vs = zeroed slack' js vs := by
  refine List.ext_getElem? fun k => ?_
  rw [getElem?_zeroed, getElem?_zeroed]
  refine Option.map_congr fun v hv => if_congr ?_ rfl rfl
  refine and_congr_right fun hk => ?_
  have ht : v ∈ targets js vs := mem_targets.mpr ⟨k, hk, hv⟩
  exact iff_of_true (h v ht) (h' v ht)

theorem any_takes_congr (h : ∀ v ∈ targets js vs, v.TakesZero slack)
    (h' : ∀ v ∈ targets js vs, v.TakesZero slack') :
    ((targets js vs).any fun v => decide (v.TakesZero slack)) =
      (targets js vs).any fun v => decide (v.TakesZero slack') := by
  rw [Bool.eq_iff_iff, List.any_eq_true, List.any_eq_true]
  exact exists_congr fun v => and_congr_right fun hv => by simp [h v hv, h' v hv]

theorem zeroEvents_congr (name : String) (h : ∀ v ∈ targets js vs, v.TakesZero slack)
    (h' : ∀ v ∈ targets js vs, v.TakesZero slack') :
    (targets js vs).map (zeroEvent slack name) = (targets js vs).map (zeroEvent slack' name) :=
  List.map_congr_left fun v hv => by
    rw [zeroEvent_of_takes name (h v hv), zeroEvent_of_takes name (h' v hv)]

end Signs

/-! ## Applications -/

/-- **An application that refutes nothing does the same with a larger slack.** -/
theorem Effect.mono {r : Rule} {s : Step} (hs : slack ≤ slack')
    (h : Effect slack fixed e vs held r s) (hi : s.expression.infeasible = false) :
    Effect slack' fixed e vs held r s := by
  cases h with
  | tooMany hf => exact .tooMany hf
  | checked hf hv => exact .checked hf (Expression.violation?_mono hs hv)
  | solved hf hj hl hk hv => exact .solved hf hj hl hk (Variable.violation?_mono hs hv)
  | confined hf hj hl hb => exact .confined hf hj hl hb
  | narrowed hf hj hk hv hw => exact .narrowed hf hj hk hv hw
  | unopposed h => exact .unopposed h
  | zeroed hd ho hz =>
    have hz' : ∀ v ∈ Signs.targets (e.terms.freeIndices fixed) vs, v.TakesZero slack' :=
      fun v hv => Variable.violation?_mono hs (hz v hv)
    rw [Signs.zeroed_congr hz hz', Signs.any_takes_congr hz hz', Signs.zeroEvents_congr _ hz hz']
    exact .zeroed hd ho hz'
  -- all other effects refute the expression
  | _ => cases hi

/-! ## Runs of presolve -/

open State

namespace Model

def withSlack (m : Model) (slack : ℚ) : Model :=
  { m with options := { m.options with slack := slack } }

/-- **Slack matters only at a rejection.** A run that does not find the model infeasible is the same
with any larger slack. -/
theorem presolve_slack_mono {m : Model} (hm : m.Built) (rules : List Rule) {slack slack' : ℚ}
    (hs : slack ≤ slack') :
    ∃ r r', (m.withSlack slack).presolve rules = .ok r ∧
      (m.withSlack slack').presolve rules = .ok r' ∧
      (¬r.summary.status.IsInfeasible →
        r'.model = r.model.withSlack slack' ∧ r'.summary = r.summary) := by
  have hsim : Simulation (m.withSlack slack).options.slack (m.withSlack slack').options.slack False
      (AheadBy .zero) := by
    refine AheadBy.simulation _ fun he hr hi h => ?_
    obtain ⟨held, hh, hE⟩ := Rule.effect_of_apply he hr h
    exact (hE.mono hs (Bool.eq_false_iff.mpr hi)).apply_eq he hr hh
  have hstart : AheadBy .zero (start (m.withSlack slack)) (start (m.withSlack slack')) :=
    ⟨rfl, rfl, rfl, fun q => by cases q <;> rfl⟩
  obtain ⟨w, w', hw, hw', hsame⟩ :=
    hsim.presolve rfl hm.wellFormed hm.wellFormed hstart rules
  refine ⟨_, _, hw, hw', fun hst => ?_⟩
  obtain ⟨hstatus, hpasses, hR⟩ := hsame hst
  have hexp : w'.expressions = w.expressions := hR.expressions
  have hvars : w'.progress.vars = w.progress.vars := hR.vars
  have hfixed : w'.progress.fixed = w.progress.fixed := hR.fixed
  have hfixes : w.progress.fixes = w'.progress.fixes :=
    RuleCounts.ext fun q => by cases q <;> exact hR.fixes _
  simp only [presolved, hstatus, hpasses, hexp, hvars, hfixed, hfixes]
  exact ⟨rfl, trivial⟩

/-- The second expression fixes `y` at zero, outside of its bounds, and then the first one asks for a
value of `x` beyond its bounds. -/
def lenient : Model where
  vars := [⟨"x", .continuous, ⟨some 0, some 5⟩, none⟩, ⟨"y", .integer, ⟨some 1, none⟩, none⟩,
    ⟨"z", .continuous, ⟨some (-1), none⟩, none⟩, ⟨"w", .continuous, ⟨none, some 3⟩, none⟩]
  expressions := [⟨"c", .ofList [(0, 2), (1, 3)], .point 11, false, false⟩,
    ⟨"d", .ofList [(1, -1), (2, -2), (3, -1)], ⟨some 0, none⟩, false, false⟩]
  options := ⟨1, none⟩

theorem presolve_slack_mono_lenient :
    ∃ r r', (lenient.withSlack (3 / 2)).presolve [.signs, .fewFree] = .ok r ∧
      (lenient.withSlack 7).presolve [.signs, .fewFree] = .ok r' ∧
        r'.model = r.model.withSlack 7 ∧ r'.summary = r.summary ∧ r.summary.fixed.size = 4 ∧
          ∀ r ∈ (lenient.presolve [.signs, .fewFree]).toOption,
            r.summary.status.IsInfeasible := by
  have hm : lenient.Built := by decide +kernel
  obtain ⟨r, r', hr, hr', hsame⟩ :=
    presolve_slack_mono hm [.signs, .fewFree] (show (3 / 2 : ℚ) ≤ 7 by decide +kernel)
  have hrun : ∀ r ∈ ((lenient.withSlack (3 / 2)).presolve [.signs, .fewFree]).toOption,
      ¬r.summary.status.IsInfeasible ∧ r.summary.fixed.size = 4 := by
    decide +kernel
  obtain ⟨hst, hsize⟩ := hrun r (by rw [hr]; rfl)
  obtain ⟨hmodel, hsummary⟩ := hsame hst
  exact ⟨r, r', hr, hr', hmodel, hsummary, hsize, by decide +kernel⟩

end Model

end ExactPresolve
