import ExactPresolve.Proofs.Run.Solutions
import ExactPresolve.Proofs.Run.Variables

/-!
# Models that presolve solves

If the last pass finds all variables fixed, then it leaves no expression in force, and the values of
the variables are the only candidate for a solution. They satisfy every bound and every expression.
Each value that a rule determined is of the kind of its variable. A value that was given with the
model is never checked, so an integer variable that comes with equal fractional bounds keeps them.

* `State.Pass.redundant`: with all variables fixed, a pass leaves no expression in force;
* `State.Reaches.kind_eq_and_admits`: the kinds of the fixed values;
* `Model.GivenAdmitted`: the values that were given with the model are of their kinds;
* **`Model.solved_feasible_iff`**: when the fixed values are a feasible point.
-/

namespace ExactPresolve

namespace State

variable {slack : ℚ} {rules : List Rule} {a b c : State} {r : Rule} {i : ℕ} {e : Expression}
  {s : Step}

/-! ## The last pass -/

/-- An expression whose variables are all fixed is redundant after the rule for few free variables,
unless it is infeasible. -/
theorem Applies.redundant_of_fixed (h : a.Applies slack .fewFree i e s) (ha : a.Coherent)
    (hi : s.expression.infeasible = false) (hall : ∀ j ∈ e.terms.indices, j ∈ a.fixed) :
    s.expression.redundant = true := by
  obtain ⟨held, -, hE⟩ := h.effect ha
  have hfree := Terms.free_eq_nil hall
  cases hE with
  | checked => rfl
  | tooMany hf => simp [hfree] at hf
  | narrowed hf => simp [hfree] at hf
  | solved hf => rfl
  | confined hf => rfl
  | _ => exact absurd hi (by simp [Expression.marked])

/-- **With all variables fixed, a pass leaves no expression in force.** -/
theorem Pass.redundant (h : Pass slack rules 0 a b) (ha : a.Coherent) (hr : .fewFree ∈ rules)
    (hall : ∀ j < a.vars.length, j ∈ a.fixed) : ∀ e ∈ b.expressions, e.redundant = true := by
  intro e he
  obtain ⟨i, hi⟩ := List.mem_iff_getElem?.mp he
  by_contra hd
  obtain ⟨d, f, s, hreach, happ, hfin, hrest⟩ :=
    h.tried i e (Nat.zero_le i) hi (by simpa using hd) .fewFree hr
  have hdc := ha.reaches hreach
  have hred : s.expression.redundant = true := by
    refine happ.redundant_of_fixed hdc hfin fun j hj => hreach.fixed_subset ha (hall j ?_)
    rw [← hreach.length_vars ha]
    exact (hdc.ready happ.getElem?_eq).range j hj
  have hkeep := hrest.getElem?_of_not_inForce (happ.coherent hdc hfin) happ.getElem?_after
    (Expression.not_inForce_of_redundant hred)
  exact hd (Option.some.inj (hi.symm.trans hkeep) ▸ hred)

/-! ## Fixed values -/

/-- A variable keeps its kind, and a value that it receives in a run is of this kind. -/
theorem Reaches.kind_eq_and_admits (h : Reaches slack rules a b) (ha : a.Coherent) {k : ℕ}
    {v w : Variable} (hv : a.vars[k]? = some v) (hw : b.vars[k]? = some w) :
    w.kind = v.kind ∧
      ∀ x, w.bounds = .point x → v.bounds = .point x ∨ v.kind.Admits x := by
  have hb := (h.becomeEach ha).2 k v w hv hw
  refine ⟨hb.kind_eq, fun x hx => ?_⟩
  by_cases hf : v.IsFixed
  · exact .inl (hb.eq_of_isFixed hf ▸ hx)
  · obtain ⟨y, hy, -, hadm⟩ := hb.settled hf (Variable.isFixed_iff.mpr ⟨x, hx⟩)
    obtain rfl := Bounds.point_injective (hx.symm.trans hy)
    exact .inr hadm

end State

open State

/-- The values of the variables, zero where there is none. -/
def fixedPoint (vs : List Variable) : List ℚ := vs.map fun v => v.fixedValue?.getD 0

theorem map_fixedValue? {vs : List Variable} (h : ∀ v ∈ vs, v.IsFixed) :
    vs.map Variable.fixedValue? = (fixedPoint vs).map some := by
  rw [fixedPoint, List.map_map]
  refine List.map_congr_left fun v hv => ?_
  obtain ⟨c, hc⟩ := Variable.isFixed_iff.mp (h v hv)
  simp [Variable.fixedValue?_of_bounds hc]

theorem valuation_fixedPoint {vs : List Variable} {k : ℕ} {v : Variable} {c : ℚ}
    (hv : vs[k]? = some v) (hc : v.bounds = .point c) : valuation (fixedPoint vs) k = c := by
  simp [valuation, fixedPoint, hv, Variable.fixedValue?_of_bounds hc]

namespace Model

/-- Every value that is given by equal bounds is of the kind of its variable. -/
def GivenAdmitted (m : Model) : Prop := ∀ v ∈ m.vars, ∀ x ∈ v.bounds.point?, v.kind.Admits x

instance (m : Model) : Decidable m.GivenAdmitted :=
  inferInstanceAs (Decidable (∀ v ∈ m.vars, ∀ x ∈ v.bounds.point?, v.kind.Admits x))

/-- The fixed values of a state fit its variables if those given at the start are of their kinds. -/
theorem fits_fixedPoint {m : Model} {slack : ℚ} {rules : List Rule} {b : State}
    (hm : WellFormed m.expressions m.vars) (h : Reaches slack rules (start m) b)
    (hall : ∀ v ∈ b.vars, v.IsFixed) (hg : m.GivenAdmitted) :
    Fits b.vars (valuation (fixedPoint b.vars)) := by
  intro k w hw
  have hstart := coherent_start hm
  obtain ⟨x, hx⟩ := Variable.isFixed_iff.mp (hall w (List.mem_of_getElem? hw))
  have hlt : k < m.vars.length := by
    rw [← vars_start m, ← h.length_vars hstart]
    exact (List.getElem?_eq_some_iff.mp hw).1
  have hv : m.vars[k]? = some m.vars[k] := List.getElem?_eq_getElem hlt
  obtain ⟨hk, hadm⟩ := h.kind_eq_and_admits hstart hv hw
  rw [valuation_fixedPoint hw hx]
  refine ⟨hx ▸ Bounds.mem_point.mpr rfl, hk ▸ ?_⟩
  rcases hadm x hx with hvx | hvx
  · exact hg _ (List.mem_of_getElem? hv) x (Bounds.point?_eq_some_iff.mpr hvx)
  · exact hvx

theorem givenAdmitted_of_fits {m : Model} {slack : ℚ} {rules : List Rule} {b : State}
    (hm : WellFormed m.expressions m.vars) (h : Reaches slack rules (start m) b)
    (hfit : Fits m.vars (valuation (fixedPoint b.vars))) : m.GivenAdmitted := by
  intro v hv x hx
  obtain ⟨k, hk⟩ := List.mem_iff_getElem?.mp hv
  have hvx := Bounds.point?_eq_some_iff.mp hx
  have hb := h.getElem?_of_isFixed (coherent_start hm) hk (Variable.isFixed_iff.mpr ⟨x, hvx⟩)
  have hadm := (hfit k v hk).2
  rwa [valuation_fixedPoint hb hvx] at hadm

/-- **When the fixed values are a feasible point:** if all variables are fixed in the end and the values
that were given with the model are of their kinds. -/
theorem solved_feasible_iff {m : Model} (hm : m.Built) (hf : ∀ e ∈ m.expressions, e.InForce)
    (hs : m.options.slack = 0) {rules : List Rule} (hr : .fewFree ∈ rules) :
    ∃ r, m.presolve rules = .ok r ∧ (r.summary.status = .reduced →
      (∀ j < m.vars.length, j ∈ r.summary.fixed) →
        ∃ point : List ℚ, r.model.vars.map Variable.fixedValue? = point.map some ∧
          (m.Feasible point ↔ m.GivenAdmitted)) := by
  obtain ⟨r, c, hpre, hO, hmodel, hfixed⟩ := exists_presolve hm.wellFormed rules
  refine ⟨r, hpre, fun hst hall => ?_⟩
  rw [hst] at hO
  rw [hfixed] at hall
  rw [hmodel]
  have hstart := coherent_start hm.wellFormed
  cases hO with
  | @reduced b _ hreach hpass hsize =>
    have hend : Reaches _ _ (start m) c := hreach.trans hpass.reaches
    have hlen : c.vars.length = m.vars.length := hend.length_vars hstart
    -- the last pass began with all variables fixed, since it fixed none
    have heq : b.fixed = c.fixed :=
      IndexSet.eq_of_subset_of_size_le
        (fun j => hpass.reaches.fixed_subset (hstart.reaches hreach)) hsize
    have hred := hpass.redundant (hstart.reaches hreach) (Rule.mem_byPriority.mpr hr) fun j hj =>
      heq ▸ hall j (hreach.length_vars hstart ▸ hj)
    have hfix : ∀ v ∈ c.vars, v.IsFixed := by
      intro v hv
      obtain ⟨k, hk⟩ := List.mem_iff_getElem?.mp hv
      have hlt : k < m.vars.length := hlen ▸ (List.getElem?_eq_some_iff.mp hk).1
      obtain ⟨w, hw, hfw⟩ := ((hstart.reaches hend).mem_fixed k).mp (hall k hlt)
      exact Option.some.inj (hw.symm.trans hk) ▸ hfw
    refine ⟨fixedPoint c.vars, map_fixedValue? hfix, ?_⟩
    have hiff := @feasible_iff_solution _ hstart.toWellFormed m.options (fixedPoint c.vars)
    constructor
    · intro hp
      exact givenAdmitted_of_fits hm.wellFormed hend (hiff.mp hp).2.1
    · intro hg
      have hopen : c.OpenSolution (valuation (fixedPoint c.vars)) :=
        ⟨fits_fixedPoint hm.wellFormed hend hfix hg,
          fun e he hd => by cases (hred e he).symm.trans hd⟩
      obtain ⟨hfit, hex⟩ := hend.open_solution hstart hs.le hopen
      exact hiff.mpr ⟨by simpa [fixedPoint] using hlen, hfit, fun e he => hex e he (hf e he).1⟩

/-- A mixed integer model that is solved in two passes, with a variable that is given. -/
def chain : Model where
  vars := [⟨"x", .integer, ⟨some 0, some 10⟩, none⟩, ⟨"y", .continuous, ⟨some (-5), some 5⟩, none⟩,
    ⟨"z", .continuous, .unlimited, none⟩, ⟨"w", .integer, .point 2, none⟩]
  expressions := [⟨"c", .ofList [(0, 1), (1, 1), (2, 1)], .point 7, false, false⟩,
    ⟨"d", .ofList [(0, 2), (3, -1)], .point 4, false, false⟩,
    ⟨"e", .ofList [(0, 1), (1, 3)], .point (3 / 2), false, false⟩]
  options := ⟨0, none⟩

theorem solved_feasible_iff_chain : ∃ r point, chain.presolve [.signs, .fewFree] = .ok r ∧
    r.model.vars.map Variable.fixedValue? = point.map some ∧ chain.Feasible point := by
  have hm : chain.Built := by decide +kernel
  have hr : Rule.fewFree ∈ [Rule.signs, .fewFree] := by decide
  obtain ⟨r, hpre, hsolved⟩ := solved_feasible_iff hm (by decide +kernel) (by decide +kernel) hr
  have hrun : ∀ r ∈ (chain.presolve [.signs, .fewFree]).toOption,
      r.summary.status = .reduced ∧ ∀ j < chain.vars.length, j ∈ r.summary.fixed := by
    decide +kernel
  obtain ⟨hst, hall⟩ := hrun r (by rw [hpre]; rfl)
  obtain ⟨point, hpoint, hiff⟩ := hsolved hst hall
  exact ⟨r, point, hpre, hpoint, hiff.mpr (by decide +kernel)⟩

/-- The smallest model in which an integer variable is given a fractional value. -/
def halved : Model where
  vars := [⟨"n", .integer, .point (1 / 2), none⟩]
  expressions := [⟨"c", .ofList [(0, 2)], .point 1, false, false⟩]
  options := .standard

theorem not_solved_feasible : ¬∀ m : Model, m.Built → (∀ e ∈ m.expressions, e.InForce) →
    m.options.slack = 0 → ∀ rules, .fewFree ∈ rules → ∀ r, m.presolve rules = .ok r →
      r.summary.status = .reduced → (∀ j < m.vars.length, j ∈ r.summary.fixed) →
        ∀ point : List ℚ, r.model.vars.map Variable.fixedValue? = point.map some →
          m.Feasible point := by
  intro h
  have hm : halved.Built := by decide +kernel
  have hrun : ∀ r ∈ (halved.presolve [.fewFree]).toOption, r.summary.status = .reduced ∧
      (∀ j < halved.vars.length, j ∈ r.summary.fixed) ∧
        r.model.vars.map Variable.fixedValue? = [1 / 2].map some := by
    decide +kernel
  obtain ⟨r, -, hr, -⟩ := exists_presolve hm.wellFormed [.fewFree]
  obtain ⟨hst, hall, hpoint⟩ := hrun r (by rw [hr]; rfl)
  have hnot : ¬halved.Feasible [1 / 2] := by decide +kernel
  exact hnot (h halved hm (by decide +kernel) (by decide +kernel) _ (by decide) r hr hst hall _
    hpoint)

end Model

end ExactPresolve
