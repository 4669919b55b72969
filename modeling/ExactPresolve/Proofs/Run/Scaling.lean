import ExactPresolve.Proofs.Rule.Scaling
import ExactPresolve.Proofs.Run.Simulation

/-!
# Runs on scaled models

Each expression of a model can be multiplied by a number of its own that is not zero. Without slack a
run on the scaled model makes the same applications: it finds the same bounds and values of the
variables, and its expressions are those of the other run, scaled in the same way.

* `Model.scale`: the expressions multiplied by a factor for each index;
* `State.ScaledBy`, `State.ScaledBy.after`: states of the two runs, before and after an application;
* **`Model.presolve_scale`**: presolve commutes with scaling.
-/

namespace ExactPresolve

/-- Each expression is multiplied by the factor of its index. -/
def scaleEach (factors : ℕ → ℚˣ) (es : List Expression) : List Expression :=
  es.mapIdx fun i e => e.scale (factors i)

theorem getElem?_scaleEach (factors : ℕ → ℚˣ) (es : List Expression) (i : ℕ) :
    (scaleEach factors es)[i]? = es[i]?.map (·.scale (factors i)) :=
  List.getElem?_mapIdx

theorem countP_scaleEach (factors : ℕ → ℚˣ) (es : List Expression) :
    (scaleEach factors es).countP (·.redundant) = es.countP (·.redundant) := by
  induction es generalizing factors with
  | nil => rfl
  | cons e es ih =>
    have hcons : scaleEach factors (e :: es) =
        e.scale (factors 0) :: scaleEach (fun i => factors (i + 1)) es := List.mapIdx_cons
    rw [hcons, List.countP_cons, List.countP_cons, ih]
    rfl

theorem WellFormed.scale {es : List Expression} {vs : List Variable} (h : WellFormed es vs)
    (factors : ℕ → ℚˣ) : WellFormed (scaleEach factors es) vs := by
  have hmem {f : Expression} (hf : f ∈ scaleEach factors es) :
      ∃ i, ∃ e ∈ es, e.scale (factors i) = f := by
    obtain ⟨i, hi⟩ := List.mem_iff_getElem?.mp hf
    rw [getElem?_scaleEach] at hi
    obtain ⟨e, he, rfl⟩ := Option.map_eq_some_iff.mp hi
    exact ⟨i, e, List.mem_of_getElem? he, rfl⟩
  refine ⟨fun f hf j hj => ?_, fun f hf => ?_, h.bounds⟩
  · obtain ⟨i, e, he, rfl⟩ := hmem hf
    rw [Expression.scale, Terms.indices_scale] at hj
    exact h.range e he j hj
  · obtain ⟨i, e, he, rfl⟩ := hmem hf
    exact (Bounds.consistent_scale (factors i).ne_zero).mpr (h.limits e he)

namespace State

variable {factors : ℕ → ℚˣ} {a b : State} {r : Rule} {i : ℕ} {e : Expression} {s : Step}

/-- The second state is the first one with scaled expressions, apart from the events. -/
structure ScaledBy (factors : ℕ → ℚˣ) (a b : State) : Prop where
  expressions : b.expressions = scaleEach factors a.expressions
  vars : b.vars = a.vars
  fixed : b.fixed = a.fixed
  fixes : b.progress.fixes = a.progress.fixes

theorem ScaledBy.getElem?_eq (h : ScaledBy factors a b) (he : a.expressions[i]? = some e) :
    b.expressions[i]? = some (e.scale (factors i)) := by
  rw [h.expressions, getElem?_scaleEach, he, Option.map_some]

theorem ScaledBy.after (h : ScaledBy factors a b) (r : Rule) (i : ℕ) (s : Step)
    (events : List Event) : ScaledBy factors (a.after r i s)
      (b.after r i ⟨s.vars, s.expression.scale (factors i), s.fixedAny, events⟩) where
  expressions := by
    rw [expressions_after, expressions_after, h.expressions, scaleEach, scaleEach, List.mapIdx_set]
  vars := by rw [vars_after, vars_after]
  fixed := by
    rw [fixed_after, fixed_after, h.fixed, Expression.scale, Terms.indices_scale]
  fixes := by
    rw [fixes_after, fixes_after, h.fixes]
    rfl

/-- **Scaled states stay so** while rules are applied without slack. -/
theorem ScaledBy.simulation (factors : ℕ → ℚˣ) : Simulation 0 0 True (ScaledBy factors) where
  expression h he := ⟨_, h.getElem?_eq he, rfl, rfl⟩
  length h := by rw [h.expressions, scaleEach, List.length_mapIdx]
  grows h h' := by rw [h.fixed, h'.fixed]
  note h _ _ := ⟨h.expressions, h.vars, h.fixed, h.fixes⟩
  apply {a b r i e s} h ha hb happ _ := by
    obtain ⟨held, hh, hE⟩ := happ.effect ha
    have hf := h.getElem?_eq happ.getElem?_eq
    have hready := hb.ready hf
    rw [h.fixed, h.vars] at hready
    obtain ⟨events, hE'⟩ := hE.scale (factors i)
    have happly := hE'.apply_eq happ.inForce hready (Expression.heldValue_scale _ hh)
    refine ⟨_, _, ⟨hf, happ.inForce, ?_⟩, h.after r i s events⟩
    rw [h.fixed, h.vars, happly]

end State

open State

namespace Model

/-- The model with each expression multiplied by the factor of its index: its coefficients and its
limits, which a negative factor swaps. -/
def scale (factors : ℕ → ℚˣ) (m : Model) : Model :=
  { m with expressions := scaleEach factors m.expressions }

/-- **Presolve commutes with scaling** by a nonzero factor for each expression, without slack. -/
theorem presolve_scale {m : Model} (hm : m.Built) (hs : m.options.slack = 0) (rules : List Rule)
    (factors : ℕ → ℚˣ) :
    ∃ r r', m.presolve rules = .ok r ∧ (m.scale factors).presolve rules = .ok r' ∧
      r'.model = r.model.scale factors ∧ r'.summary = r.summary := by
  have hsim : Simulation m.options.slack (m.scale factors).options.slack True (ScaledBy factors) := by
    rw [scale, hs]
    exact ScaledBy.simulation factors
  have hstart : ScaledBy factors (start m) (start (m.scale factors)) := ⟨rfl, rfl, rfl, rfl⟩
  obtain ⟨w, w', hw, hw', hsame⟩ := hsim.presolve rfl hm.wellFormed
    (hm.wellFormed.scale factors) hstart rules
  obtain ⟨hstatus, hpasses, hR⟩ := hsame fun _ => trivial
  have hexp : w'.expressions = scaleEach factors w.expressions := hR.expressions
  have hvars : w'.progress.vars = w.progress.vars := hR.vars
  have hfixed : w'.progress.fixed = w.progress.fixed := hR.fixed
  have hfixes : w'.progress.fixes = w.progress.fixes := hR.fixes
  refine ⟨_, _, hw, hw', ?_, ?_⟩
  · simp only [presolved, hexp, hvars, scale]
  · simp only [presolved, hstatus, hpasses, hexp, hfixed, hfixes, countP_scaleEach]

/-- A model in which both rules fix variables and two expressions receive new limits. -/
def balanced : Model where
  vars := [⟨"x", .integer, ⟨some (-3), some 9⟩, none⟩, ⟨"y", .continuous, ⟨some 0, some 4⟩, none⟩,
    ⟨"z", .continuous, ⟨some 0, none⟩, none⟩, ⟨"w", .integer, ⟨none, some 7⟩, none⟩]
  expressions := [⟨"c", .ofList [(0, 2), (3, -3)], ⟨some (-1), some 8⟩, false, false⟩,
    ⟨"d", .ofList [(1, -1), (2, -2), (3, -1)], ⟨some 0, some 5⟩, false, false⟩,
    ⟨"e", .ofList [(0, 3), (1, 1)], .point 6, false, false⟩,
    ⟨"f", .ofList [(0, -1), (2, 4)], ⟨none, some 2⟩, false, false⟩]
  options := ⟨0, some 5⟩

/-- Factors of both signs. -/
def alternating (i : ℕ) : ℚˣ :=
  if i % 2 = 0 then Units.mk0 (-2) (by decide) else Units.mk0 (1 / 3) (by decide +kernel)

theorem presolve_scale_balanced : ∃ r r', balanced.presolve [.signs, .fewFree] = .ok r ∧
    (balanced.scale alternating).presolve [.signs, .fewFree] = .ok r' ∧
      r'.summary = r.summary ∧ r.summary.fixed.size = 4 ∧
        r'.model.expressions.map (·.limits) =
          [.point (-8), ⟨some 0, some (5 / 3)⟩, .point (-12), .point (-2 / 3)] := by
  have hm : balanced.Built := by decide +kernel
  have hs : balanced.options.slack = 0 := rfl
  obtain ⟨r, r', hr, hr', hmodel, hsummary⟩ := presolve_scale hm hs [.signs, .fewFree] alternating
  have hrun : ∀ r ∈ (balanced.presolve [.signs, .fewFree]).toOption, r.summary.fixed.size = 4 ∧
      (r.model.scale alternating).expressions.map (·.limits) =
        [.point (-8), ⟨some 0, some (5 / 3)⟩, .point (-12), .point (-2 / 3)] := by
    decide +kernel
  obtain ⟨hsize, hlimits⟩ := hrun r (by rw [hr]; rfl)
  exact ⟨r, r', hr, hr', hsummary, hsize, by rw [hmodel, hlimits]⟩

end Model

end ExactPresolve
