import ExactPresolve.Proofs.Rule.Frame

/-!
# What applying a rule returns

The functions of the rules are opened here, once. For each effect that an application can have it is
shown that the functions return just this effect, so that a statement about effects is one about the
rules.

* `Effect.fewFree_of_singleton` and the like: the rule for few free variables, by their number;
* `Effect.signs_of_opposed`: the rule for signs, in which the order of the two limits is of no
  account;
* **`Effect.apply_eq`**: an effect is what the application returns;
* **`Rule.exists_effect`**: an application succeeds and has one of the effects.
-/

namespace ExactPresolve

open FewFree Signs

namespace Effect

variable {slack held : ℚ} {fixed : IndexSet} {e : Expression} {vs : List Variable}

theorem variableAt_eq {j : ℕ} {v : Variable} (h : vs[j]? = some v) : variableAt vs j = .ok v := by
  simp [variableAt, h]

/-! ## What the rule for few free variables returns -/

/-- The shortcut of the rule skips only expressions with more than two free variables. -/
theorem not_shortcut (h : (e.terms.free fixed).length ≤ 2) : ¬fixed.size + 2 < e.terms.size := by
  have hlt := e.terms.length_held_le fixed
  have hs := e.terms.size_eq fixed
  omega

theorem fewFree_of_nil (hh : e.heldValue fixed vs = .ok held) (hf : e.terms.free fixed = []) :
    fewFree slack fixed e vs = .ok (noneFree slack e held vs) := by
  have hs : ¬fixed.size + 2 < e.terms.size := not_shortcut (by simp [hf])
  simp only [fewFree, if_neg hs, hh, hf, bind, Except.bind, pure, Except.pure]

theorem fewFree_of_singleton {j : ℕ} {a : ℚ} (hh : e.heldValue fixed vs = .ok held)
    (hf : e.terms.free fixed = [(j, a)]) :
    fewFree slack fixed e vs = oneFree slack e held j a vs := by
  have hs : ¬fixed.size + 2 < e.terms.size := not_shortcut (by simp [hf])
  simp only [fewFree, if_neg hs, hh, hf, bind, Except.bind]

theorem fewFree_of_pair {j k : ℕ} {a b : ℚ} (hh : e.heldValue fixed vs = .ok held)
    (hf : e.terms.free fixed = [(j, a), (k, b)]) :
    fewFree slack fixed e vs = twoFree e held j a k b vs := by
  have hs : ¬fixed.size + 2 < e.terms.size := not_shortcut (by simp [hf])
  simp only [fewFree, if_neg hs, hh, hf, bind, Except.bind]

theorem fewFree_of_two_lt (hh : e.heldValue fixed vs = .ok held)
    (hf : 2 < (e.terms.free fixed).length) :
    fewFree slack fixed e vs = .ok (.unchanged e vs) := by
  unfold fewFree
  split_ifs with hs
  · rfl
  · rcases hl : e.terms.free fixed with _ | ⟨t, _ | ⟨u, _ | ⟨w, ts⟩⟩⟩
    · simp [hl] at hf
    · simp [hl] at hf
    · simp [hl] at hf
    · simp only [hh, bind, Except.bind, pure, Except.pure]

theorem oneFree_of_level {j : ℕ} {a level : ℚ} {v : Variable} (hj : vs[j]? = some v)
    (hl : e.limits.point? = some level) {e' : Expression} {v' : Variable} {events : List Event}
    (hs : solve slack e held a level v = (e', v', events)) :
    oneFree slack e held j a vs = .ok ⟨vs.set j v'.settle, e', decide v'.IsFixed, events⟩ := by
  simp only [oneFree, variableAt_eq hj, hl, hs, bind, Except.bind, pure, Except.pure]

theorem oneFree_of_limits {j : ℕ} {a : ℚ} {v : Variable} (hj : vs[j]? = some v)
    (hl : e.limits.point? = none) {e' : Expression} {v' : Variable} {events : List Event}
    (hs : confine e held a v = (e', v', events)) :
    oneFree slack e held j a vs = .ok ⟨vs.set j v'.settle, e', decide v'.IsFixed, events⟩ := by
  simp only [oneFree, variableAt_eq hj, hl, hs, bind, Except.bind, pure, Except.pure]

theorem twoFree_eq {j k : ℕ} {a b : ℚ} {v w : Variable} (hj : vs[j]? = some v)
    (hk : vs[k]? = some w) :
    twoFree e held j a k b vs =
      if (FewFree.narrowed e held v a b w).bounds.Consistent ∧
          (FewFree.narrowed e held w b a v).bounds.Consistent then
        .ok ⟨(vs.set j (FewFree.narrowed e held v a b w).settle).set k
            (FewFree.narrowed e held w b a v).settle,
          e,
          decide ((FewFree.narrowed e held v a b w).IsFixed ∨
            (FewFree.narrowed e held w b a v).IsFixed),
          []⟩
      else .ok ⟨vs, e.marked true e.redundant, false, [.derivedBoundsCross e.name]⟩ := by
  simp only [twoFree, variableAt_eq hj, variableAt_eq hk, bind, Except.bind, pure, Except.pure]
  rfl

/-! ## What the rule for signs returns -/

variable {limits : Bounds} {d : Direction} {s : Step}

theorem side_of_unopposed (h : ∀ l, limits.get d = some l → ¬Opposes s.expression.terms fixed d l) :
    side slack fixed limits d s = .ok s := by
  unfold side
  split
  · rename_i l hl
    obtain ⟨hd, ho⟩ := Option.filter_eq_some_iff.mp hl
    exact absurd (by simpa using ho) (h l hd)
  · rfl

theorem side_of_opposed {l : ℚ} (hd : limits.get d = some l)
    (ho : Opposes s.expression.terms fixed d l) :
    side slack fixed limits d s = againstSign slack fixed d l s := by
  simp [side, hd, Option.filter, ho]

theorem againstSign_zero (hr : ∀ j ∈ s.expression.terms.indices, j < s.vars.length) :
    againstSign slack fixed d 0 s =
      .ok ⟨Signs.zeroed slack (s.expression.terms.freeIndices fixed) s.vars,
        s.expression.marked
          (zeroing slack (s.expression.terms.freeIndices fixed) s).expression.infeasible true,
        s.fixedAny || (targets (s.expression.terms.freeIndices fixed) s.vars).any fun v =>
          decide (v.TakesZero slack),
        s.events ++ (targets (s.expression.terms.freeIndices fixed) s.vars).map
          (zeroEvent slack s.expression.name)⟩ := by
  have hj : ∀ j ∈ s.expression.terms.freeIndices fixed, j < s.vars.length :=
    fun j hj => hr j (Terms.mem_freeIndices.mp hj).1
  have hz : levelAtZero slack ((s.expression.terms.free fixed).map (·.1)) s =
      .ok (zeroing slack (s.expression.terms.freeIndices fixed) s) :=
    levelAtZero_eq (s.expression.terms.nodup_map_free fixed) s hj
  simp only [againstSign, if_true, hz, bind, Except.bind, pure, Except.pure, zeroing]
  split_ifs <;> rfl

theorem againstSign_zero_of_free_nil (hf : s.expression.terms.free fixed = [])
    (hd : s.expression.redundant = true) : againstSign slack fixed d 0 s = .ok s := by
  have hm : s.expression.marked s.expression.infeasible true = s.expression := by
    rw [← hd]
    rfl
  simp [againstSign, hf, levelAtZero, bind, Except.bind, pure, Except.pure, hm]

theorem exists_againstSign (slack : ℚ) (fixed : IndexSet)
    (hr : ∀ j ∈ e.terms.indices, j < vs.length) (d : Direction) (l : ℚ) :
    ∃ s, againstSign slack fixed d l (.unchanged e vs) = .ok s ∧ s.expression.terms = e.terms ∧
      (l = 0 → s.expression.redundant = true) := by
  by_cases hl : l = 0
  · subst hl
    refine ⟨_, againstSign_zero (s := .unchanged e vs) hr, ?_, fun _ => rfl⟩
    rfl
  · exact ⟨_, if_neg hl, rfl, fun h => absurd h hl⟩

theorem freeLimits_eq (hh : e.heldValue fixed vs = .ok held) :
    e.freeLimits fixed vs = .ok (e.limits.subtract held) := by
  unfold Expression.freeLimits
  split_ifs with h
  · rw [h]
    rfl
  · rw [hh]
    rfl

/-- Limits that do not cross are both opposed only if both are zero and no variable is free. -/
theorem eq_zero_of_opposed (hc : e.limits.Consistent) {l u : ℚ}
    (hl : (e.limits.subtract held).lower = some l) (hol : Opposes e.terms fixed .lower l)
    (hu : (e.limits.subtract held).upper = some u) (hou : Opposes e.terms fixed .upper u) :
    l = 0 ∧ u = 0 := by
  obtain ⟨l', hl', rfl⟩ := Option.map_eq_some_iff.mp hl
  obtain ⟨u', hu', rfl⟩ := Option.map_eq_some_iff.mp hu
  have hle : l' ≤ u' := hc l' hl' u' hu'
  have h0 : 0 ≤ l' - held := hol.1
  have h1 : u' - held ≤ 0 := hou.1
  constructor <;> linarith

theorem signs_of_unopposed (hh : e.heldValue fixed vs = .ok held)
    (h : ∀ d l, (e.limits.subtract held).get d = some l → ¬Opposes e.terms fixed d l) :
    signs slack fixed e vs = .ok (.unchanged e vs) := by
  simp only [signs, freeLimits_eq hh, bind, Except.bind]
  rw [side_of_unopposed (s := .unchanged e vs) (h .lower)]
  exact side_of_unopposed (s := .unchanged e vs) (h .upper)

/-- A limit that the signs oppose decides, whether it is looked at first or last. -/
theorem signs_of_opposed (hc : e.limits.Consistent) (hr : ∀ j ∈ e.terms.indices, j < vs.length)
    (hh : e.heldValue fixed vs = .ok held) {l : ℚ} (hd : (e.limits.subtract held).get d = some l)
    (ho : Opposes e.terms fixed d l) :
    signs slack fixed e vs = againstSign slack fixed d l (.unchanged e vs) := by
  simp only [signs, freeLimits_eq hh, bind, Except.bind]
  cases d with
  | lower =>
    obtain ⟨s, hs, ht, hz⟩ := exists_againstSign slack fixed hr .lower l
    rw [side_of_opposed (s := .unchanged e vs) hd ho, hs]
    dsimp only
    by_cases hu : ∃ u, (e.limits.subtract held).get .upper = some u ∧
        Opposes s.expression.terms fixed .upper u
    · -- both limits are opposed, so the second conclusion repeats the first one
      obtain ⟨u, hu, hou⟩ := hu
      rw [ht] at hou
      obtain ⟨hl0, rfl⟩ := eq_zero_of_opposed hc hd ho hu hou
      have hf := free_eq_nil_of_opposes ho hou
      rw [← ht] at hf hou
      rw [side_of_opposed hu hou, againstSign_zero_of_free_nil hf (hz hl0)]
    · exact side_of_unopposed fun u hu' hou => hu ⟨u, hu', hou⟩
  | upper =>
    by_cases hl : ∃ l', (e.limits.subtract held).get .lower = some l' ∧
        Opposes e.terms fixed .lower l'
    · obtain ⟨l', hl', hol⟩ := hl
      obtain ⟨rfl, rfl⟩ := eq_zero_of_opposed hc hl' hol hd ho
      obtain ⟨s, hs, ht, hz⟩ := exists_againstSign slack fixed hr .lower 0
      have hf := free_eq_nil_of_opposes hol ho
      rw [side_of_opposed (s := .unchanged e vs) hl' hol, hs]
      dsimp only
      rw [← ht] at hf ho
      rw [side_of_opposed hd ho, againstSign_zero_of_free_nil hf (hz rfl), ← hs]
      simp only [againstSign, if_true]
    · rw [side_of_unopposed (s := .unchanged e vs) fun l' hl' hol => hl ⟨l', hl', hol⟩]
      exact side_of_opposed (s := .unchanged e vs) hd ho

/-! ## The list and the rules -/

/-- What the rule for few free variables returns does not depend on the limits being in order. -/
theorem apply_fewFree_eq {s : Step} (h : Effect slack fixed e vs held .fewFree s) (he : e.InForce)
    (hh : e.heldValue fixed vs = .ok held) : Rule.fewFree.apply slack fixed e vs = .ok s := by
  unfold Rule.apply
  rw [if_neg (Expression.inForce_iff.mp he)]
  cases h with
  | tooMany hf => exact fewFree_of_two_lt hh hf
  | checked hf hv => simp only [fewFree_of_nil hh hf, noneFree, hv]
  | outside hf hv => simp only [fewFree_of_nil hh hf, noneFree, hv]
  | @solved j a v level hf hj hl hk hv =>
    have hs : solve slack e held a level v =
        (e.marked false true, v.level (solution held a level), []) := by
      unfold solution at hk hv
      simp [solve, hk, hv, solution]
    simp only [fewFree_of_singleton hh hf, oneFree_of_level hj hl hs, Variable.settle_level,
      Variable.isFixed_level, decide_true]
  | @beyond j a v level report hf hj hl hk hv =>
    have hs : solve slack e held a level v = (e.marked true false, v, [.refused report]) := by
      unfold solution at hk hv
      simp [solve, hk, hv]
    exact (fewFree_of_singleton hh hf).trans (oneFree_of_level hj hl hs)
  | @fractional j a v level hf hj hl hk =>
    have hs : solve slack e held a level v = (e.marked true false, v, []) := by
      unfold solution at hk
      simp [solve, hk]
    exact (fewFree_of_singleton hh hf).trans (oneFree_of_level hj hl hs)
  | confined hf hj hl hb =>
    exact (fewFree_of_singleton hh hf).trans (oneFree_of_limits hj hl (if_pos hb))
  | crossed hf hj hl hb =>
    exact (fewFree_of_singleton hh hf).trans (oneFree_of_limits hj hl (if_neg hb))
  | narrowed hf hj hk hv hw =>
    exact ((fewFree_of_pair hh hf).trans (twoFree_eq hj hk)).trans (if_pos ⟨hv, hw⟩)
  | derivedCrossed hf hj hk hb =>
    exact ((fewFree_of_pair hh hf).trans (twoFree_eq hj hk)).trans (if_neg hb)

/-- **An effect is what the application returns.** -/
theorem apply_eq {r : Rule} {s : Step} (h : Effect slack fixed e vs held r s) (he : e.InForce)
    (hr : e.Ready fixed vs) (hh : e.heldValue fixed vs = .ok held) :
    r.apply slack fixed e vs = .ok s := by
  cases r with
  | fewFree => exact h.apply_fewFree_eq he hh
  | signs =>
    unfold Rule.apply
    rw [if_neg (Expression.inForce_iff.mp he)]
    cases h with
    | unopposed h => exact signs_of_unopposed hh h
    | zeroed hd ho hz =>
      dsimp only
      rw [signs_of_opposed hr.limits hr.range hh hd ho,
        againstSign_zero (s := .unchanged e vs) hr.range]
      have hx := zeroing_expression_of_takes (s := .unchanged e vs) hz
      simp only [Step.unchanged] at hx ⊢
      rw [hx, he.2]
      rfl
    | refusedZero hd ho hz =>
      dsimp only
      rw [signs_of_opposed hr.limits hr.range hh hd ho,
        againstSign_zero (s := .unchanged e vs) hr.range]
      have hx := zeroing_expression_of_refuses (s := .unchanged e vs) hz
      simp only [Step.unchanged] at hx ⊢
      rw [hx]
      rfl
    | unreachable hd ho hl =>
      dsimp only
      rw [signs_of_opposed hr.limits hr.range hh hd ho, againstSign, if_neg hl]
      simp [Step.unchanged, Expression.marked, he.1]

end Effect

/-- **An application of a rule to an expression in force succeeds and has one of the effects.** -/
theorem Rule.exists_effect (r : Rule) (slack : ℚ) {fixed : IndexSet} {e : Expression}
    {vs : List Variable} (he : e.InForce) (hr : e.Ready fixed vs) :
    ∃ held s, e.heldValue fixed vs = .ok held ∧ r.apply slack fixed e vs = .ok s ∧
      Effect slack fixed e vs held r s := by
  obtain ⟨held, hh⟩ := hr.held.exists_heldValue
  have hE : ∃ s, Effect slack fixed e vs held r s := by
    cases r with
    | fewFree => exact Effect.exists_fewFree slack held fixed hr.range
    | signs => exact Effect.exists_signs slack held fixed e vs
  obtain ⟨s, hE⟩ := hE
  exact ⟨held, s, hh, hE.apply_eq he hr hh, hE⟩

theorem Rule.effect_of_apply {r : Rule} {slack : ℚ} {fixed : IndexSet} {e : Expression}
    {vs : List Variable} {s : Step} (he : e.InForce) (hr : e.Ready fixed vs)
    (h : r.apply slack fixed e vs = .ok s) :
    ∃ held, e.heldValue fixed vs = .ok held ∧ Effect slack fixed e vs held r s := by
  obtain ⟨held, s', hh, hs, hE⟩ := r.exists_effect slack he hr
  cases h.symm.trans hs
  exact ⟨held, hh, hE⟩

end ExactPresolve
