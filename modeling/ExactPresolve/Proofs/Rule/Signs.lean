import ExactPresolve.Rule.Signs
import Mathlib.Algebra.Order.Ring.Rat
import Mathlib.Data.List.Nodup
import Mathlib.Tactic.SplitIfs

/-!
# Fixing variables at zero, all at once

The rule fixes the free variables at zero one after the other, each in the list that the earlier
ones left behind. No variable occurs twice, so the result is that of deciding about all of them in
the list at the start.

* `Variable.TakesZero`: zero passes the check against the bounds;
* `Signs.zeroed`: the variables of given indices fixed at zero, as far as their bounds allow;
* `Signs.zeroing`: what all of them together do to a step;
* **`Signs.levelAtZero_eq`**: one after the other is all at once;
* `Signs.free_eq_nil_of_opposes`: only an expression without free terms opposes both limits.
-/

namespace ExactPresolve

/-- Zero passes the check against the bounds of the variable. -/
def Variable.TakesZero (slack : ℚ) (v : Variable) : Prop := v.violation? slack 0 = none

instance (slack : ℚ) (v : Variable) : Decidable (v.TakesZero slack) :=
  inferInstanceAs (Decidable (_ = none))

namespace Signs

/-- The variables, those of the given indices fixed at zero as far as their bounds allow. -/
def zeroed (slack : ℚ) (js : List ℕ) (vs : List Variable) : List Variable :=
  vs.mapIdx fun j v => if j ∈ js ∧ v.TakesZero slack then v.level 0 else v

/-- What is told about a variable that is to be fixed at zero. -/
def zeroEvent (slack : ℚ) (expression : String) (v : Variable) : Event :=
  match v.violation? slack 0 with
  | none => .onlyZero expression v.name
  | some report => .refused report

def targets (js : List ℕ) (vs : List Variable) : List Variable := js.filterMap (vs[·]?)

/-- The step after the variables of the given indices were fixed at zero, as far as possible. -/
def zeroing (slack : ℚ) (js : List ℕ) (s : Step) : Step where
  vars := zeroed slack js s.vars
  expression :=
    if ∀ v ∈ targets js s.vars, v.TakesZero slack then s.expression
    else s.expression.marked true s.expression.redundant
  fixedAny := s.fixedAny || (targets js s.vars).any fun v => decide (v.TakesZero slack)
  events := s.events ++ (targets js s.vars).map (zeroEvent slack s.expression.name)

variable {slack : ℚ} {js : List ℕ} {vs : List Variable}

theorem getElem?_zeroed (slack : ℚ) (js : List ℕ) (vs : List Variable) (k : ℕ) :
    (zeroed slack js vs)[k]? =
      vs[k]?.map fun v => if k ∈ js ∧ v.TakesZero slack then v.level 0 else v := by
  simp [zeroed]

theorem length_zeroed (slack : ℚ) (js : List ℕ) (vs : List Variable) :
    (zeroed slack js vs).length = vs.length := by
  simp [zeroed]

theorem mem_targets {v : Variable} : v ∈ targets js vs ↔ ∃ j ∈ js, vs[j]? = some v := by
  simp [targets, List.mem_filterMap]

theorem targets_cons {j : ℕ} {v : Variable} (h : vs[j]? = some v) :
    targets (j :: js) vs = v :: targets js vs := by
  simp [targets, h]

theorem targets_set {j : ℕ} (h : j ∉ js) (w : Variable) :
    targets js (vs.set j w) = targets js vs := by
  refine List.filterMap_congr fun k hk => ?_
  have hne : j ≠ k := fun e => h (e ▸ hk)
  exact List.getElem?_set_ne hne

theorem zeroed_nil (slack : ℚ) (vs : List Variable) : zeroed slack [] vs = vs := by
  refine List.ext_getElem? fun k => ?_
  simp [getElem?_zeroed]

theorem zeroed_cons_takes {j : ℕ} {v : Variable} (hj : j ∉ js) (h : vs[j]? = some v)
    (hv : v.TakesZero slack) :
    zeroed slack (j :: js) vs = zeroed slack js (vs.set j (v.level 0)) := by
  refine List.ext_getElem? fun k => ?_
  rw [getElem?_zeroed, getElem?_zeroed]
  by_cases hk : k = j
  · subst hk
    obtain ⟨hlt, rfl⟩ := List.getElem?_eq_some_iff.mp h
    simp [hv, hj, hlt]
  · simp [hk, List.getElem?_set_ne (Ne.symm hk)]

theorem zeroed_cons_refuses {j : ℕ} {v : Variable} (h : vs[j]? = some v)
    (hv : ¬ v.TakesZero slack) : zeroed slack (j :: js) vs = zeroed slack js vs := by
  refine List.ext_getElem? fun k => ?_
  rw [getElem?_zeroed, getElem?_zeroed]
  by_cases hk : k = j
  · subst hk
    simp [h, hv]
  · simp [hk]

theorem zeroing_nil (slack : ℚ) (s : Step) : zeroing slack [] s = s := by
  simp [zeroing, targets, zeroed_nil]

theorem zeroing_expression_of_takes {s : Step} (h : ∀ v ∈ targets js s.vars, v.TakesZero slack) :
    (zeroing slack js s).expression = s.expression := if_pos h

theorem zeroing_expression_of_refuses {s : Step}
    (h : ¬∀ v ∈ targets js s.vars, v.TakesZero slack) :
    (zeroing slack js s).expression = s.expression.marked true s.expression.redundant := if_neg h

/-- **Fixing variables at zero one after the other is fixing them all at once.** -/
theorem levelAtZero_eq (hn : js.Nodup) (s : Step) (hr : ∀ j ∈ js, j < s.vars.length) :
    levelAtZero slack js s = .ok (zeroing slack js s) := by
  induction js generalizing s with
  | nil => rw [levelAtZero, zeroing_nil]
  | cons j js ih =>
    obtain ⟨hj, hn⟩ := List.nodup_cons.mp hn
    have hlt := hr j List.mem_cons_self
    have hv : s.vars[j]? = some s.vars[j] := List.getElem?_eq_getElem hlt
    have hr' : ∀ k ∈ js, k < s.vars.length := fun k hk => hr k (List.mem_cons_of_mem _ hk)
    rw [levelAtZero, variableAt, hv]
    simp only [bind, Except.bind]
    cases h0 : s.vars[j].violation? slack 0 with
    | none =>
      have ht : s.vars[j].TakesZero slack := h0
      dsimp only
      rw [ih hn _ (by simpa using hr'), zeroing, zeroing, targets_cons hv, targets_set hj,
        zeroed_cons_takes hj hv ht]
      simp [ht, zeroEvent, h0]
    | some report =>
      have ht : ¬ s.vars[j].TakesZero slack := fun e => by cases h0.symm.trans e
      dsimp only
      rw [ih hn]
      · rw [zeroing, zeroing, targets_cons hv, zeroed_cons_refuses hv ht]
        simp [ht, zeroEvent, h0, Expression.marked]
      · exact hr'

theorem free_eq_nil_of_opposes {ts : Terms} {fixed : IndexSet} {l u : ℚ}
    (hl : Opposes ts fixed .lower l) (hu : Opposes ts fixed .upper u) : ts.free fixed = [] := by
  refine List.eq_nil_iff_forall_not_mem.mpr fun t ht => ?_
  have hneg := hl.2 t ht
  have hpos := hu.2 t ht
  exact absurd hneg (by grind)

end Signs

end ExactPresolve
