import ExactPresolve.Proofs.Projection
import ExactPresolve.Proofs.Rule.Apply

/-!
# One free variable

An equation with a single free variable has one solution. The rule computes it and asks whether the
variable can take it. The equation could as well be treated like any other pair of limits, which
become bounds of the variable: these are intersected with the bounds that it has, rounded for its
kind, and given up if they cross. Without slack the two ways come to the same decision, whatever
state the variable is in.

* `Kind.roundInward_inter_point`, `Kind.consistent_roundInward_inter_point_iff`: bounds intersected
  with a single number and rounded hold this number or cross;
* `FewFree.solve_of_admits`, `FewFree.confine_of_admits` and their counterparts: the two ways, by
  whether the variable admits the solution;
* `FewFree.oneFreeByBounds`: the rule for one free variable, if it treated equations like other
  limits;
* **`FewFree.oneFree_agrees`**: it would do the same.
-/

namespace ExactPresolve

/-! ## Bounds intersected with a single number -/

namespace Kind

variable {k : Kind} {b : Bounds} {x y : ℚ}

theorem mem_of_mem_roundInward_inter_point (hy : y ∈ k.roundInward (b.inter (.point x))) :
    y = x ∧ x ∈ b := by
  obtain ⟨hb, hp⟩ := Bounds.mem_inter.mp (Bounds.mem_of_subset (k.roundInward_subset _) hy)
  obtain rfl := Bounds.mem_point.mp hp
  exact ⟨rfl, hb⟩

theorem roundInward_inter_point (hx : x ∈ b) (hk : k.Admits x) :
    k.roundInward (b.inter (.point x)) = .point x := by
  refine (Bounds.eq_of_mem_iff (Bounds.consistent_point x) fun y => ⟨fun hy => ?_, fun hy => ?_⟩).symm
  · rw [Bounds.mem_point.mp hy, mem_roundInward hk, Bounds.mem_inter]
    exact ⟨hx, Bounds.mem_point.mpr rfl⟩
  · exact Bounds.mem_point.mpr (mem_of_mem_roundInward_inter_point hy).1

/-- Bounds intersected with a number and rounded cross, unless they hold it and it is of the kind. -/
theorem consistent_roundInward_inter_point_iff :
    (k.roundInward (b.inter (.point x))).Consistent ↔ x ∈ b ∧ k.Admits x := by
  constructor
  · intro hc
    obtain ⟨y, hy⟩ := Bounds.exists_mem_iff.mpr hc
    obtain ⟨rfl, hb⟩ := mem_of_mem_roundInward_inter_point hy
    -- nothing else is left, so both ends are this number, and rounded ends are of the kind
    have hpoint : k.roundInward (b.inter (.point y)) = .point y := by
      refine Bounds.eq_of_mem_iff hc fun z => ⟨fun hz => ?_, fun hz => ?_⟩
      · exact Bounds.mem_point.mpr (mem_of_mem_roundInward_inter_point hz).1
      · rwa [Bounds.mem_point.mp hz]
    exact ⟨hb, admits_of_roundInward_eq hpoint⟩
  · rintro ⟨hb, hk⟩
    rw [roundInward_inter_point hb hk]
    exact Bounds.consistent_point x

end Kind

/-! ## The two ways -/

namespace FewFree

variable {e : Expression} {held a level : ℚ} {v : Variable}

theorem divide_subtract_point (held a level : ℚ) :
    ((Bounds.point level).subtract held).divide a = .point (solution held a level) := by
  unfold Bounds.divide
  split_ifs <;> rfl

theorem confinedBounds_of_point (held a : ℚ) (v : Variable) (hl : e.limits = .point level) :
    confinedBounds e held a v =
      v.kind.roundInward (v.bounds.inter (.point (solution held a level))) := by
  rw [confinedBounds, hl, divide_subtract_point]

theorem solve_of_admits (e : Expression) (hx : v.Admits (solution held a level)) :
    solve 0 e held a level v = (e.marked false true, v.level (solution held a level), []) := by
  have hv : v.violation? 0 (solution held a level) = none :=
    Variable.violation?_eq_none_iff.mpr (Bounds.exceeded?_zero_eq_none_iff.mpr hx.1)
  have hk := hx.2
  unfold solution at hv hk
  simp [solve, hk, hv, solution]

theorem solve_of_not_admits (e : Expression) (hx : ¬v.Admits (solution held a level)) :
    ∃ events, solve 0 e held a level v = (e.marked true false, v, events) := by
  by_cases hk : v.kind.Admits (solution held a level)
  · cases hv : v.violation? 0 (solution held a level) with
    | none =>
      have hb := Bounds.exceeded?_zero_eq_none_iff.mp (Variable.violation?_eq_none_iff.mp hv)
      exact absurd ⟨hb, hk⟩ hx
    | some report =>
      unfold solution at hv hk
      exact ⟨[.refused report], by simp [solve, hk, hv]⟩
  · unfold solution at hk
    exact ⟨[], by simp [solve, hk]⟩

theorem confine_of_admits (hl : e.limits = .point level)
    (hx : v.Admits (solution held a level)) :
    confine e held a v =
      (e.marked false true, v.withBounds (.point (solution held a level)), []) := by
  have hb : confinedBounds e held a v = .point (solution held a level) := by
    rw [confinedBounds_of_point held a v hl, Kind.roundInward_inter_point hx.1 hx.2]
  have hc : (confinedBounds e held a v).Consistent := hb ▸ Bounds.consistent_point _
  rw [← hb]
  exact if_pos hc

theorem confine_of_not_admits (hl : e.limits = .point level)
    (hx : ¬v.Admits (solution held a level)) :
    confine e held a v = (e.marked true false, v, [.boundsCross e.name v.name]) := by
  have hc : ¬(confinedBounds e held a v).Consistent := by
    rwa [confinedBounds_of_point held a v hl, Kind.consistent_roundInward_inter_point_iff]
  exact if_neg hc

/-! ## The rule -/

/-- What the rule does to an expression with one free variable, if the limits always become bounds
of the variable, also those of an equation. -/
def oneFreeByBounds (e : Expression) (held : ℚ) (j : ℕ) (a : ℚ) (vs : List Variable) :
    Except Fault Step := do
  let v ← variableAt vs j
  let (e, v, events) := confine e held a v
  return ⟨vs.set j v.settle, e, decide v.IsFixed, events⟩

variable {j : ℕ} {vs : List Variable}

/-- Limits that are not those of an equation are treated this way by the rule. -/
theorem oneFree_eq_oneFreeByBounds (slack held : ℚ) (j : ℕ) (a : ℚ) (vs : List Variable)
    (hl : e.limits.point? = none) :
    oneFree slack e held j a vs = oneFreeByBounds e held j a vs := by
  simp only [oneFree, oneFreeByBounds, hl]

theorem oneFreeByBounds_eq (hj : vs[j]? = some v) {e' : Expression} {v' : Variable}
    {events : List Event} (hs : confine e held a v = (e', v', events)) :
    oneFreeByBounds e held j a vs = .ok ⟨vs.set j v'.settle, e', decide v'.IsFixed, events⟩ := by
  simp only [oneFreeByBounds, Effect.variableAt_eq hj, hs, bind, Except.bind, pure, Except.pure]

theorem settle_withBounds_point (v : Variable) (x : ℚ) :
    (v.withBounds (.point x)).settle = v.level x := by
  simp [Variable.settle, Variable.withBounds, Variable.withValue, Variable.level]

/-- **Without slack, an equation might as well be treated like other limits.** The same marks, the same
variables and the same answer come out. -/
theorem oneFree_agrees (held a : ℚ) (hl : e.limits = .point level) (hj : vs[j]? = some v) :
    ∃ s s', oneFree 0 e held j a vs = .ok s ∧ oneFreeByBounds e held j a vs = .ok s' ∧
      s.expression = s'.expression ∧ s.vars = s'.vars ∧ s.fixedAny = s'.fixedAny ∧
      (v.Admits (solution held a level) → s.expression = e.marked false true ∧
        s.vars = vs.set j (v.level (solution held a level)) ∧ s.fixedAny = true) ∧
      (¬v.Admits (solution held a level) → s.expression = e.marked true false ∧
        s.vars = vs.set j v.settle ∧ s.fixedAny = decide v.IsFixed) := by
  have hl' : e.limits.point? = some level := Bounds.point?_eq_some_iff.mpr hl
  by_cases hx : v.Admits (solution held a level)
  · have hs := Effect.oneFree_of_level hj hl' (solve_of_admits e hx)
    have hs' := oneFreeByBounds_eq hj (confine_of_admits hl hx)
    rw [Variable.settle_level] at hs
    rw [settle_withBounds_point] at hs'
    have hf : decide (v.level (solution held a level)).IsFixed = true :=
      decide_eq_true (v.isFixed_level _)
    exact ⟨_, _, hs, hs', rfl, rfl, rfl, fun _ => ⟨rfl, rfl, hf⟩, fun h => absurd hx h⟩
  · obtain ⟨events, hsolve⟩ := solve_of_not_admits e hx
    have hs := Effect.oneFree_of_level hj hl' hsolve
    have hs' := oneFreeByBounds_eq hj (confine_of_not_admits hl hx)
    exact ⟨_, _, hs, hs', rfl, rfl, rfl, fun h => absurd h hx, fun _ => ⟨rfl, rfl, rfl⟩⟩

/-- With `z` fixed at 2, the equation leaves the value 3 for `n`. -/
def ramp : Expression := ⟨"c", .ofList [(0, -3), (1, 5)], .point 1, false, false⟩

def rampVars : List Variable :=
  [⟨"n", .integer, ⟨some (5 / 2), some (7 / 2)⟩, none⟩, ⟨"z", .continuous, .point 2, none⟩]

theorem oneFree_agrees_ramp :
    ramp.terms.free (.ofList [1]) = [(0, -3)] ∧ ramp.heldValue (.ofList [1]) rampVars = .ok 10 ∧
      ∃ s s', oneFree 0 ramp 10 0 (-3) rampVars = .ok s ∧
        oneFreeByBounds ramp 10 0 (-3) rampVars = .ok s' ∧
        s.expression = s'.expression ∧ s.vars = s'.vars ∧ s.fixedAny = s'.fixedAny ∧
        s.expression.redundant = true ∧ s.vars.map (·.bounds) = [.point 3, .point 2] := by
  have hl : ramp.limits = .point 1 := rfl
  have hj : rampVars[0]? = some ⟨"n", .integer, ⟨some (5 / 2), some (7 / 2)⟩, none⟩ := rfl
  obtain ⟨s, s', hs, hs', he, hv, hf, hsolved, -⟩ := oneFree_agrees 10 (-3) hl hj
  obtain ⟨hmark, hlevel, -⟩ := hsolved (by decide +kernel)
  refine ⟨by decide +kernel, by decide +kernel, s, s', hs, hs', he, hv, hf, ?_, ?_⟩
  · rw [hmark]
    rfl
  · rw [hlevel]
    decide +kernel

-- With slack the two ways differ: a solution just beyond a bound is taken, but the bounds cross.
example :
    let e : Expression := ⟨"c", .ofList [(0, 1)], .point 3, false, false⟩
    let vs : List Variable := [⟨"x", .continuous, ⟨none, some (5 / 2)⟩, none⟩]
    (oneFree 1 e 0 0 1 vs).map (·.expression.infeasible) = .ok false ∧
      (oneFreeByBounds e 0 0 1 vs).map (·.expression.infeasible) = .ok true := by
  decide +kernel

end FewFree

end ExactPresolve
