import ExactPresolve.Proofs.Projection
import ExactPresolve.Proofs.Rule.Apply

/-!
# Two free variables

The points within the bounds of two continuous variables that satisfy an expression form a polygon.
If there is none, the bounds that the rule derives cross, and the expression is found to be
infeasible. Otherwise each variable receives the projection of the polygon. The polygon within the
new bounds is the same as before, so that narrowing the variables again does not change them.

* `FewFree.mem_narrowed_iff`: the new bounds of a variable hold the projection;
* `FewFree.consistent_narrowed_iff`: they cross if and only if there is no point;
* **`FewFree.narrowed_narrowed`**: narrowing both variables again changes nothing;
* **`Rule.fewFree_projects`**: what the rule does to two free variables.
-/

namespace ExactPresolve

namespace Bounds

variable {b c : Bounds}

theorem consistent_of_subset (h : b ⊆ c) (hb : b.Consistent) : c.Consistent := by
  obtain ⟨x, hx⟩ := exists_mem_iff.mpr hb
  exact consistent_of_mem (mem_of_subset h hx)

end Bounds

namespace Variable

theorem settle_settle (v : Variable) : v.settle.settle = v.settle := by
  cases h : v.bounds.point? <;> simp [settle, h, withValue]

end Variable

namespace FewFree

variable {e : Expression} {held a b x : ℚ} {v w : Variable}

theorem narrowed_subset (e : Expression) (held : ℚ) (v : Variable) (a b : ℚ) (w : Variable) :
    (narrowed e held v a b w).bounds ⊆ v.bounds := by
  obtain ⟨c, hc, heq⟩ := impliedBounds_eq (e.limits.subtract held) v a b w.bounds
  show impliedBounds _ v a b w.bounds ⊆ v.bounds
  rw [heq]
  exact Bounds.subset_trans (v.kind.roundInward_subset c) hc

section Continuous

variable (ha : a ≠ 0) (hb : b ≠ 0) (hl : (e.limits.subtract held).Consistent)

include ha hb hl

theorem mem_narrowed_iff (hv : v.kind = .continuous) (hw : w.bounds.Consistent) :
    x ∈ (narrowed e held v a b w).bounds ↔
      x ∈ v.bounds ∧ ∃ y ∈ w.bounds, a * x + b * y ∈ e.limits.subtract held :=
  mem_impliedBounds_iff ha hb hv hw hl

theorem consistent_narrowed_iff (hv : v.kind = .continuous) (hw : w.bounds.Consistent) :
    (narrowed e held v a b w).bounds.Consistent ↔
      ∃ x ∈ v.bounds, ∃ y ∈ w.bounds, a * x + b * y ∈ e.limits.subtract held := by
  rw [← Bounds.exists_mem_iff]
  exact exists_congr fun x => mem_narrowed_iff ha hb hl hv hw

/-- A variable keeps its bounds if each value within them is part of a point of the polygon. -/
theorem narrowed_eq_self (hv : v.kind = .continuous) (hbv : v.bounds.Consistent)
    (hbw : w.bounds.Consistent)
    (hall : ∀ x ∈ v.bounds, ∃ y ∈ w.bounds, a * x + b * y ∈ e.limits.subtract held) :
    narrowed e held v a b w = v := by
  have hbounds : v.bounds = (narrowed e held v a b w).bounds := by
    refine Bounds.eq_of_mem_iff hbv fun x => ?_
    rw [mem_narrowed_iff ha hb hl hv hbw]
    exact ⟨fun hx => ⟨hx, hall x hx⟩, And.left⟩
  calc narrowed e held v a b w = v.withBounds (narrowed e held v a b w).bounds := rfl
    _ = v := by rw [← hbounds]; rfl

/-- **Narrowing both variables again changes nothing.** -/
theorem narrowed_narrowed (hv : v.kind = .continuous) (hw : w.kind = .continuous)
    (hcv : (narrowed e held v a b w).bounds.Consistent)
    (hcw : (narrowed e held w b a v).bounds.Consistent) :
    narrowed e held (narrowed e held v a b w).settle a b (narrowed e held w b a v).settle =
      (narrowed e held v a b w).settle := by
  have hbv : v.bounds.Consistent := Bounds.consistent_of_subset (narrowed_subset e held v a b w) hcv
  have hbw : w.bounds.Consistent := Bounds.consistent_of_subset (narrowed_subset e held w b a v) hcw
  refine narrowed_eq_self ha hb hl ?_ ?_ ?_ fun x hx => ?_
  · rw [Variable.settle_kind]
    exact hv
  · rwa [Variable.settle_bounds]
  · rwa [Variable.settle_bounds]
  · -- the point of the polygon that puts `x` into the projection is within the new bounds as well
    rw [Variable.settle_bounds] at hx ⊢
    obtain ⟨hxv, y, hy, hxy⟩ := (mem_narrowed_iff ha hb hl hv hbw).mp hx
    exact ⟨y, (mem_narrowed_iff hb ha hl hw hbv).mpr ⟨hy, x, hxv, by rwa [add_comm]⟩, hxy⟩

end Continuous

end FewFree

open FewFree

theorem getElem?_set_set {vs : List Variable} {j k : ℕ} {v v' w w' : Variable} (hjk : j ≠ k)
    (hj : vs[j]? = some v) (hk : vs[k]? = some w) :
    ((vs.set j v').set k w')[j]? = some v' ∧ ((vs.set j v').set k w')[k]? = some w' := by
  have hjlt := (List.getElem?_eq_some_iff.mp hj).1
  have hklt := (List.getElem?_eq_some_iff.mp hk).1
  constructor
  · rw [List.getElem?_set_ne hjk.symm, List.getElem?_set_self hjlt]
  · exact List.getElem?_set_self (by simpa using hklt)

/-- **What the rule does to two free variables.** Their new bounds hold the values that are part of a
pair that satisfies the expression, which is infeasible if there is no such pair. -/
theorem Rule.fewFree_projects (slack : ℚ) {fixed : IndexSet} {e : Expression} {vs : List Variable}
    {limits : Bounds} {j k : ℕ} {a b : ℚ} {v w : Variable} (he : e.InForce)
    (hf : e.HeldIn fixed vs) (hlim : e.freeLimits fixed vs = .ok limits) (hl : limits.Consistent)
    (hfree : e.terms.free fixed = [(j, a), (k, b)]) (hj : vs[j]? = some v) (hk : vs[k]? = some w)
    (hv : v.kind = .continuous) (hw : w.kind = .continuous) (hbv : v.bounds.Consistent)
    (hbw : w.bounds.Consistent) :
    ∃ s, Rule.fewFree.apply slack fixed e vs = .ok s ∧
      (s.expression.infeasible = true ↔ ¬∃ x ∈ v.bounds, ∃ y ∈ w.bounds, a * x + b * y ∈ limits) ∧
      (s.expression.infeasible = false → ∃ v' w', s.vars[j]? = some v' ∧ s.vars[k]? = some w' ∧
        (∀ t, t ∈ v'.bounds ↔ t ∈ v.bounds ∧ ∃ y ∈ w.bounds, a * t + b * y ∈ limits) ∧
        ∀ t, t ∈ w'.bounds ↔ t ∈ w.bounds ∧ ∃ x ∈ v.bounds, a * x + b * t ∈ limits) := by
  obtain ⟨held, hh⟩ := hf.exists_heldValue
  obtain rfl : e.limits.subtract held = limits :=
    Except.ok.inj ((Effect.freeLimits_eq hh).symm.trans hlim)
  obtain ⟨ha, hb⟩ := Terms.ne_zero_of_free_pair hfree
  have hcv := consistent_narrowed_iff ha hb hl hv hbw
  have hcw := consistent_narrowed_iff hb ha hl hw hbv
  by_cases hP : ∃ x ∈ v.bounds, ∃ y ∈ w.bounds, a * x + b * y ∈ e.limits.subtract held
  · have hP' : ∃ y ∈ w.bounds, ∃ x ∈ v.bounds, b * y + a * x ∈ e.limits.subtract held := by
      obtain ⟨x, hx, y, hy, hxy⟩ := hP
      exact ⟨y, hy, x, hx, by rwa [add_comm]⟩
    have hE : Effect slack fixed e vs held .fewFree _ :=
      .narrowed hfree hj hk (hcv.mpr hP) (hcw.mpr hP')
    obtain ⟨hj', hk'⟩ := getElem?_set_set (Terms.ne_of_free_pair hfree) hj hk
    refine ⟨_, hE.apply_fewFree_eq he hh, by simp [he.2, hP], fun _ => ⟨_, _, hj', hk', ?_, ?_⟩⟩
    · intro t
      rw [Variable.settle_bounds]
      exact mem_narrowed_iff ha hb hl hv hbw
    · intro t
      rw [Variable.settle_bounds, mem_narrowed_iff hb ha hl hw hbv]
      simp only [add_comm (b * t)]
  · have hE : Effect slack fixed e vs held .fewFree _ :=
      .derivedCrossed hfree hj hk fun hc => hP (hcv.mp hc.1)
    refine ⟨_, hE.apply_fewFree_eq he hh, by simp [Expression.marked, hP], fun hi => ?_⟩
    cases hi

/-- With `z` fixed at 2, `3 * y - 2 * x` must lie between 3 and 9. -/
def band : Expression :=
  ⟨"c", .ofList [(0, -2), (1, 3), (2, 1)], ⟨some 5, some 11⟩, false, false⟩

def bandVars : List Variable :=
  [⟨"x", .continuous, ⟨some 0, none⟩, none⟩, ⟨"y", .continuous, ⟨some 0, some 4⟩, none⟩,
    ⟨"z", .continuous, .point 2, none⟩]

theorem Rule.fewFree_projects_band :
    ∃ s, Rule.fewFree.apply 0 (.ofList [2]) band bandVars = .ok s ∧
      s.vars.map (·.bounds) = [⟨some 0, some (9 / 2)⟩, ⟨some 1, some 4⟩, .point 2] ∧
      ∀ t, t ∈ Bounds.mk (some 0) (some (9 / 2)) ↔
        t ∈ Bounds.mk (some 0) none ∧
          ∃ y ∈ Bounds.mk (some 0) (some 4), -2 * t + 3 * y ∈ Bounds.mk (some 3) (some 9) := by
  have hheld : band.HeldIn (.ofList [2]) bandVars := by decide +kernel
  have hlim : band.freeLimits (.ofList [2]) bandVars = .ok ⟨some 3, some 9⟩ := by decide +kernel
  have hfree : band.terms.free (.ofList [2]) = [(0, -2), (1, 3)] := by decide +kernel
  obtain ⟨s, hs, -, hproj⟩ := Rule.fewFree_projects 0 (by decide +kernel) hheld hlim
    (by decide +kernel) hfree rfl rfl rfl rfl (by decide +kernel) (by decide +kernel)
  have hrun : ∀ s ∈ (Rule.fewFree.apply 0 (.ofList [2]) band bandVars).toOption,
      s.vars.map (·.bounds) = [⟨some 0, some (9 / 2)⟩, ⟨some 1, some 4⟩, .point 2] ∧
        s.expression.infeasible = false ∧
          s.vars[0]?.map (·.bounds) = some ⟨some 0, some (9 / 2)⟩ := by
    decide +kernel
  obtain ⟨hvars, hi, hx⟩ := hrun s (by rw [hs]; rfl)
  obtain ⟨v', w', hv', -, hmem, -⟩ := hproj hi
  rw [hv'] at hx
  refine ⟨s, hs, hvars, fun t => ?_⟩
  rw [← Option.some.inj hx]
  exact hmem t

end ExactPresolve
