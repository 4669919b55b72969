import ExactPresolve.Proofs.Run.Presolve

/-!
# What a run does to the solutions

Along a run every solution of the model stays one, as long as the rules that look at signs meet no
negative variable. Without slack, what satisfies the expressions in force at the end satisfies all
expressions of the model at the start. So the presolved model is an exact replacement, in which the
redundant expressions may be skipped.

* `State.Solution`, `State.OpenSolution`: the valuations that satisfy all expressions, or those that
  are not redundant;
* `State.Applies.solution`, `State.Applies.open_solution`: one application, forwards and backwards;
* **`Model.presolve_keeps_feasible`**: no feasible point is lost;
* **`Model.presolve_gains_none`**: without slack no point is gained.
-/

namespace ExactPresolve

namespace State

/-- The valuation fits the variables and satisfies all expressions. -/
def Solution (a : State) (x : ℕ → ℚ) : Prop := Fits a.vars x ∧ ∀ e ∈ a.expressions, e.Holds x

/-- The valuation fits the variables and satisfies the expressions that are not redundant. -/
def OpenSolution (a : State) (x : ℕ → ℚ) : Prop :=
  Fits a.vars x ∧ ∀ e ∈ a.expressions, e.redundant = false → e.Holds x

variable {slack : ℚ} {rules : List Rule} {a b : State} {r : Rule} {i : ℕ} {e : Expression}
  {s : Step} {x : ℕ → ℚ}

/-! ## Forwards -/

theorem Applies.solution (h : a.Applies slack r i e s) (ha : a.Coherent) (hs : 0 ≤ slack)
    (hx : a.Solution x) (hn : r = .signs → ∀ j, 0 ≤ x j) :
    s.expression.infeasible = false ∧ (a.after r i s).Solution x := by
  obtain ⟨held, hh, hE⟩ := h.effect ha
  have he := List.mem_of_getElem? h.getElem?_eq
  obtain ⟨hi, hfit, hex⟩ := hE.keeps_solution hs h.inForce (ha.ready h.getElem?_eq).held hh
    hx.1 (hx.2 e he) fun hr j _ => hn hr j
  refine ⟨hi, ?_, fun f hf => ?_⟩
  · rwa [vars_after]
  · rcases List.mem_or_eq_of_mem_set hf with hf | rfl
    · exact hx.2 f hf
    · exact hex

theorem Reaches.solution (h : Reaches slack rules a b) (ha : a.Coherent) (hs : 0 ≤ slack)
    (hx : a.Solution x) (hn : .signs ∈ rules → ∀ j, 0 ≤ x j) : b.Solution x := by
  refine h.invariant (P := (Solution · x)) ha hx (fun _ _ ih => ih) fun hc hr happ _ ih => ?_
  exact (happ.solution hc hs ih fun hsig => hn (hsig ▸ hr)).2

/-- Where there is a solution, no expression turns out to be infeasible. -/
theorem Stops.not_solution (h : Stops slack rules a i b) (ha : a.Coherent) (hs : 0 ≤ slack)
    (hi : ∀ e ∈ a.expressions, e.infeasible = false) (hn : .signs ∈ rules → ∀ j, 0 ≤ x j) :
    ¬a.Solution x := by
  intro hx
  cases h with
  | marked he hi' => cases (hi _ (List.mem_of_getElem? he)).symm.trans hi'
  | refuted hr happ hi' =>
    obtain ⟨hi'', -⟩ := happ.solution ha hs hx fun hsig => hn (hsig ▸ hr)
    cases hi''.symm.trans hi'

/-! ## Backwards -/

theorem Applies.open_solution (h : a.Applies slack r i e s) (ha : a.Coherent) (hs : slack ≤ 0)
    (hi : s.expression.infeasible = false) (hx : (a.after r i s).OpenSolution x) :
    a.OpenSolution x := by
  obtain ⟨held, hh, hE⟩ := h.effect ha
  have hlt := (List.getElem?_eq_some_iff.mp h.getElem?_eq).1
  obtain ⟨hfit, hopen⟩ := hx
  rw [vars_after] at hfit
  rw [expressions_after] at hopen
  obtain ⟨hfit', hex⟩ := hE.solution_before hs h.inForce (ha.ready h.getElem?_eq) hh hi hfit
    (hopen _ (List.mem_of_getElem? (List.getElem?_set_self hlt)))
  refine ⟨hfit', fun f hf hd => ?_⟩
  obtain ⟨k, hk⟩ := List.mem_iff_getElem?.mp hf
  by_cases hki : i = k
  · subst hki
    rwa [← Option.some.inj (h.getElem?_eq.symm.trans hk)]
  · exact hopen f (List.mem_of_getElem? ((List.getElem?_set_ne hki).trans hk)) hd

theorem Reaches.open_solution (h : Reaches slack rules a b) (ha : a.Coherent) (hs : slack ≤ 0)
    (hx : b.OpenSolution x) : a.OpenSolution x := by
  -- read backwards, the invariant is that what holds of a later state held at the start
  refine h.invariant (P := fun c => c.OpenSolution x → a.OpenSolution x) ha id (fun _ _ ih => ih)
    (fun hc _ happ hi ih hx => ?_) hx
  exact ih (happ.open_solution hc hs hi hx)

end State

open State

namespace Model

variable {m : Model}

theorem feasible_iff_solution {a : State} (h : WellFormed a.expressions a.vars) (options : Options)
    {point : List ℚ} : Feasible ⟨a.vars, a.expressions, options⟩ point ↔
      point.length = a.vars.length ∧ a.Solution (valuation point) :=
  feasible_iff (m := ⟨a.vars, a.expressions, options⟩) h.range

/-- **No feasible point is lost**, if presolve does not look at signs or no variable can be negative. -/
theorem presolve_keeps_feasible (hm : m.Built) (hi : ∀ e ∈ m.expressions, e.infeasible = false)
    (hs : 0 ≤ m.options.slack) (rules : List Rule)
    (hn : .signs ∉ rules ∨ ∀ v ∈ m.vars, ∃ l ∈ v.bounds.lower, 0 ≤ l) :
    ∃ r, m.presolve rules = .ok r ∧
      (∀ point, m.Feasible point → ¬r.summary.status.IsInfeasible ∧ r.model.Feasible point) ∧
        (r.summary.status.IsInfeasible → ∀ point, ¬m.Feasible point) := by
  obtain ⟨r, b, hr, hO, hmodel, -⟩ := exists_presolve hm.wellFormed rules
  have hstart := coherent_start hm.wellFormed
  have hkeep : ∀ point, m.Feasible point →
      ¬r.summary.status.IsInfeasible ∧ r.model.Feasible point := by
    intro point hp
    obtain ⟨hlen, hx⟩ := (feasible_iff_solution hstart.toWellFormed m.options).mp hp
    have hsign : .signs ∈ Rule.byPriority rules → ∀ j, 0 ≤ valuation point j := by
      intro hsig j
      have hlow := hn.resolve_left fun h => h (Rule.mem_byPriority.mp hsig)
      cases hv : m.vars[j]? with
      | none =>
        have hnone : point[j]? = none := by
          rw [List.getElem?_eq_none_iff] at hv ⊢
          exact hlen.trans_le hv
        simp [valuation, hnone]
      | some v =>
        obtain ⟨l, hl, hl0⟩ := hlow v (List.mem_of_getElem? hv)
        exact hl0.trans ((hx.1 j v hv).1.1 l hl)
    have hfin : ¬r.summary.status.IsInfeasible := by
      intro hinf
      generalize r.summary.status = status at hO hinf
      cases hO with
      | infeasible _ h hS =>
        exact hS.not_solution (hstart.reaches h) hs (h.not_infeasible hstart hi) hsign
          (h.solution hstart hs hx hsign)
      | reduced => exact hinf
      | limit => exact hinf
    refine ⟨hfin, ?_⟩
    have hreach := hO.reaches hfin
    have hb := hreach.solution hstart hs hx hsign
    rw [hmodel, feasible_iff_solution (hstart.reaches hreach).toWellFormed]
    exact ⟨hlen.trans (hreach.length_vars hstart).symm, hb⟩
  exact ⟨r, hr, hkeep, fun hinf point hp => (hkeep point hp).1 hinf⟩

/-- A mixed integer model with slack, whose variables cannot be negative. -/
def mixture : Model where
  vars := [⟨"x", .integer, ⟨some 0, some 6⟩, none⟩, ⟨"y", .continuous, ⟨some 0, some 10⟩, none⟩,
    ⟨"z", .continuous, ⟨some 0, none⟩, none⟩, ⟨"w", .continuous, ⟨some 0, some 3⟩, none⟩]
  expressions := [⟨"c", .ofList [(0, 2), (1, 4)], ⟨none, some 13⟩, false, false⟩,
    ⟨"d", .ofList [(1, 1), (2, 1), (3, 1)], ⟨none, some 0⟩, false, false⟩,
    ⟨"e", .ofList [(0, -2), (1, 1)], .point (-8), false, false⟩]
  options := ⟨1 / 2, none⟩

theorem presolve_keeps_feasible_mixture : ∃ r, mixture.presolve [.signs, .fewFree] = .ok r ∧
    ¬r.summary.status.IsInfeasible ∧ r.model.Feasible [4, 0, 0, 0] := by
  have hm : mixture.Built := by decide +kernel
  obtain ⟨r, hr, hkeep, -⟩ := presolve_keeps_feasible hm (by decide +kernel) (by decide +kernel)
    [.signs, .fewFree] (.inr (by decide +kernel))
  exact ⟨r, hr, hkeep [4, 0, 0, 0] (by decide +kernel)⟩

/-- **Without slack no point is gained**, if no expression turns out to be infeasible. -/
theorem presolve_gains_none (hm : m.Built) (hf : ∀ e ∈ m.expressions, e.InForce)
    (hs : m.options.slack = 0) (rules : List Rule) :
    ∃ r, m.presolve rules = .ok r ∧ (¬r.summary.status.IsInfeasible →
      ∀ point, r.model.Admits point →
        (∀ e ∈ r.model.expressions, e.redundant = false → e.IsSatisfiedBy point) →
          m.Feasible point) := by
  obtain ⟨r, b, hr, hO, hmodel, -⟩ := exists_presolve hm.wellFormed rules
  refine ⟨r, hr, fun hfin point hadm hsat => ?_⟩
  have hstart := coherent_start hm.wellFormed
  have hreach := hO.reaches hfin
  have hb := hstart.reaches hreach
  rw [hmodel] at hadm hsat
  obtain ⟨hlen, hfit⟩ := admits_iff.mp hadm
  have hopen : b.OpenSolution (valuation point) := by
    refine ⟨hfit, fun e he hd => ?_⟩
    exact (Expression.isSatisfiedBy_iff fun j hj => hlen ▸ hb.range e he j hj).mp (hsat e he hd)
  obtain ⟨hfit', hex⟩ := hreach.open_solution hstart hs.le hopen
  refine (feasible_iff_solution hstart.toWellFormed m.options).mpr
    ⟨hlen.trans (hreach.length_vars hstart), hfit', fun e he => ?_⟩
  exact hex e he (hf e he).1

/-- A mixed integer model without slack, whose variables may be negative and unbounded. -/
def spread : Model where
  vars := [⟨"x", .integer, ⟨some (-3), some 5⟩, none⟩, ⟨"y", .continuous, ⟨some (-2), none⟩, none⟩,
    ⟨"z", .continuous, .unlimited, none⟩, ⟨"u", .continuous, .unlimited, none⟩]
  expressions := [⟨"c", .ofList [(0, 2)], ⟨none, some 7⟩, false, false⟩,
    ⟨"d", .ofList [(0, 1), (1, -1), (2, 1)], ⟨some 1, some 8⟩, false, false⟩,
    ⟨"e", .ofList [(0, 2), (1, -3)], ⟨some (-1), some 6⟩, false, false⟩,
    ⟨"f", .ofList [(1, 4)], .point (-6), false, false⟩,
    ⟨"g", .ofList [(0, 1), (1, 2), (3, 1)], ⟨some (-3), none⟩, false, false⟩]
  options := ⟨0, some 2⟩

theorem presolve_gains_none_spread : ∃ r, spread.presolve [.signs, .fewFree] = .ok r ∧
    r.model.Admits [0, -3 / 2, 0, 0] ∧ spread.Feasible [0, -3 / 2, 0, 0] := by
  have hm : spread.Built := by decide +kernel
  obtain ⟨r, hr, hgain⟩ :=
    presolve_gains_none hm (by decide +kernel) (by decide +kernel) [.signs, .fewFree]
  have hrun : ∀ r ∈ (spread.presolve [.signs, .fewFree]).toOption,
      ¬r.summary.status.IsInfeasible ∧ r.model.Admits [0, -3 / 2, 0, 0] ∧
        ∀ e ∈ r.model.expressions, e.redundant = false → e.IsSatisfiedBy [0, -3 / 2, 0, 0] := by
    decide +kernel
  obtain ⟨hfin, hadm, hsat⟩ := hrun r (by rw [hr]; rfl)
  exact ⟨r, hr, hadm, hgain hfin _ hadm hsat⟩

end Model

end ExactPresolve
