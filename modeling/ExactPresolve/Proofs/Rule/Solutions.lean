import ExactPresolve.Proofs.Rule.Frame

/-!
# What an application of a rule does to the solutions

A valuation that satisfies an expression and the variables still does so after a rule was applied,
and without slack a valuation that does so afterwards did so before. An expression that a rule marks
as redundant follows from the bounds that the rule leaves.

* `Expression.Implied`: the bounds of the variables imply the expression;
* **`Effect.keeps_solution`**: no solution is lost;
* **`Effect.implied`**: a new mark as redundant is justified;
* `Effect.implied_of_fewFree`: for few free variables it is so even if the limits cross;
* **`Effect.solution_before`**: without slack no solution is gained;
* `Effect.unfixed_unique`: an expression that becomes redundant has one variable left at most.
-/

namespace ExactPresolve

theorem Variable.admits_settle {v : Variable} {y : ℚ} : v.settle.Admits y ↔ v.Admits y := by
  simp [Admits]

namespace Fits

variable {vs : List Variable} {x : ℕ → ℚ}

theorem set (h : Fits vs x) {j : ℕ} {w : Variable} (hw : w.Admits (x j)) :
    Fits (vs.set j w) x := by
  intro k u hu
  by_cases hj : j = k
  · subst hj
    rcases eq_or_of_set hu with rfl | hu
    · exact hw
    · exact h j u hu
  · rw [List.getElem?_set_ne hj] at hu
    exact h k u hu

theorem zeroed (h : Fits vs x) {slack : ℚ} {js : List ℕ} (hj : ∀ j ∈ js, x j = 0) :
    Fits (Signs.zeroed slack js vs) x := by
  intro k u hu
  rw [Signs.getElem?_zeroed] at hu
  obtain ⟨v, hv, rfl⟩ := Option.map_eq_some_iff.mp hu
  have ha := h k v hv
  split_ifs with hc
  · rw [hj k hc.1] at ha ⊢
    exact ⟨Bounds.mem_point.mpr rfl, ha.2⟩
  · exact ha

end Fits

theorem Changes.fits_before {slack : ℚ} {js : List ℕ} {vs ws : List Variable} {x : ℕ → ℚ}
    (h : Changes slack js vs ws) (hs : slack ≤ 0) (hx : Fits ws x) : Fits vs x := by
  intro k v hv
  obtain ⟨w, hw, -⟩ := h.exists_after hv
  obtain ⟨hb, hk⟩ := hx k w hw
  exact ⟨Bounds.mem_of_subset (h.subset hv hw (.inl hs)) hb, h.kind_eq hv hw ▸ hk⟩

namespace Signs

/-- Nonnegative values whose sum satisfies an opposed limit are all zero, and so is the limit. -/
theorem eq_zero_of_allows {ts : Terms} {fixed : IndexSet} {d : Direction} {l : ℚ} {x : ℕ → ℚ}
    (ho : Opposes ts fixed d l) (hx : ∀ j ∈ ts.freeIndices fixed, 0 ≤ x j)
    (hl : d.Allows l (linear (ts.free fixed) x)) :
    l = 0 ∧ ∀ j ∈ ts.freeIndices fixed, x j = 0 := by
  have hx' : ∀ t ∈ ts.free fixed, 0 ≤ x t.1 := fun t ht => hx _ (List.mem_map_of_mem ht)
  have hz : (∀ t ∈ ts.free fixed, t.2 * x t.1 = 0) → ∀ j ∈ ts.freeIndices fixed, x j = 0 := by
    intro h j hj
    obtain ⟨t, ht, rfl⟩ := List.mem_map.mp hj
    exact (mul_eq_zero.mp (h t ht)).resolve_left (Terms.free_ne_zero ht)
  cases d with
  | lower =>
    have hle : 0 ≤ l := ho.1
    have hl' : l ≤ linear (ts.free fixed) x := hl
    obtain ⟨hF, hF0⟩ := linear_nonpos (x := x) fun t ht =>
      mul_nonpos_of_nonpos_of_nonneg (ho.2 t ht).le (hx' t ht)
    exact ⟨by linarith, hz (hF0 (by linarith))⟩
  | upper =>
    have hle : l ≤ 0 := ho.1
    have hl' : linear (ts.free fixed) x ≤ l := hl
    obtain ⟨hF, hF0⟩ := @linear_nonpos (ts.free fixed) (-x ·) fun t ht =>
      mul_nonpos_of_nonneg_of_nonpos (ho.2 t ht).le (neg_nonpos.mpr (hx' t ht))
    rw [linear_neg] at hF hF0
    refine ⟨by linarith, hz fun t ht => ?_⟩
    have ht0 := hF0 (by linarith) t ht
    linarith

end Signs

/-- Within the bounds of its variables, the expression holds. -/
def Expression.Implied (e : Expression) (vs : List Variable) : Prop :=
  ∀ x : ℕ → ℚ, e.InBounds vs x → e.Holds x

namespace Effect

open FewFree

variable {slack held : ℚ} {fixed : IndexSet} {e : Expression} {vs : List Variable} {r : Rule}
  {s : Step} {x : ℕ → ℚ}

/-- Within the bounds, what remains of the limits is what the free terms have to satisfy. -/
theorem free_mem_iff (hf : e.HeldIn fixed vs) (hh : e.heldValue fixed vs = .ok held)
    (hx : e.InBounds vs x) :
    linear (e.terms.free fixed) x ∈ e.limits.subtract held ↔ e.Holds x := by
  rw [Bounds.mem_subtract, Expression.Holds, Expression.eval_of_heldValue hf hx hh, add_comm]

theorem solution_eq {a level y : ℚ} (ha : a ≠ 0) :
    y = solution held a level ↔ held + a * y = level := by
  unfold solution
  rw [eq_div_iff ha]
  constructor <;> intro h <;> linarith

theorem eq_solution_iff {j : ℕ} {a level : ℚ} (hf : e.terms.free fixed = [(j, a)])
    (hl : e.limits.point? = some level) :
    x j = solution held a level ↔ linear (e.terms.free fixed) x ∈ e.limits.subtract held := by
  have ha := Terms.ne_zero_of_free_singleton hf
  rw [Bounds.point?_eq_some_iff.mp hl, Bounds.mem_subtract, Bounds.mem_point, hf, solution_eq ha,
    linear_cons, linear_nil, add_zero, add_comm]

theorem mem_confinedBounds {j : ℕ} {a : ℚ} {v : Variable} (hf : e.terms.free fixed = [(j, a)])
    (hv : v.Admits (x j)) (hx : linear (e.terms.free fixed) x ∈ e.limits.subtract held) :
    x j ∈ confinedBounds e held a v := by
  have ha := Terms.ne_zero_of_free_singleton hf
  rw [confinedBounds, Kind.mem_roundInward hv.2, Bounds.mem_inter, Bounds.mem_divide ha]
  refine ⟨hv.1, ?_⟩
  rw [hf] at hx
  simpa using hx

theorem mem_of_mem_confinedBounds {j : ℕ} {a : ℚ} {v : Variable}
    (hf : e.terms.free fixed = [(j, a)]) (hx : x j ∈ confinedBounds e held a v) :
    linear (e.terms.free fixed) x ∈ e.limits.subtract held := by
  have ha := Terms.ne_zero_of_free_singleton hf
  have hxi := Bounds.mem_of_subset (v.kind.roundInward_subset _) hx
  rw [Bounds.mem_inter, Bounds.mem_divide ha] at hxi
  rw [hf]
  simpa using hxi.2

theorem mem_narrowed {j k : ℕ} {a b : ℚ} {v w : Variable}
    (hf : e.terms.free fixed = [(j, a), (k, b)]) (hv : v.Admits (x j)) (hw : w.Admits (x k))
    (hx : linear (e.terms.free fixed) x ∈ e.limits.subtract held) :
    x j ∈ (FewFree.narrowed e held v a b w).bounds ∧
      x k ∈ (FewFree.narrowed e held w b a v).bounds := by
  obtain ⟨ha, hb⟩ := Terms.ne_zero_of_free_pair hf
  have hxy : a * x j + b * x k ∈ e.limits.subtract held := by
    rw [hf] at hx
    simpa using hx
  have hyx : b * x k + a * x j ∈ e.limits.subtract held := by rwa [add_comm]
  exact ⟨mem_impliedBounds ha hb hv hw.1 hxy, mem_impliedBounds hb ha hw hv.1 hyx⟩

/-- **No solution is lost:** a valuation that fits the variables and satisfies the expression does so
after the application as well, unless the rule relies on variables not being negative. -/
theorem keeps_solution (h : Effect slack fixed e vs held r s) (hs : 0 ≤ slack) (he : e.InForce)
    (hf : e.HeldIn fixed vs) (hh : e.heldValue fixed vs = .ok held) (hx : Fits vs x)
    (hex : e.Holds x) (hsign : r = .signs → ∀ j ∈ e.terms.freeIndices fixed, 0 ≤ x j) :
    s.expression.infeasible = false ∧ Fits s.vars x ∧ s.expression.Holds x := by
  have hb := Expression.inBounds_of_fits (e := e) hx
  have hF := (free_mem_iff hf hh hb).mpr hex
  have hzero {d : Direction} {l : ℚ} (hsig : r = .signs)
      (hd : (e.limits.subtract held).get d = some l) (ho : Signs.Opposes e.terms fixed d l) :
      l = 0 ∧ ∀ j ∈ e.terms.freeIndices fixed, x j = 0 :=
    Signs.eq_zero_of_allows ho (hsign hsig) (Bounds.mem_iff_allows.mp hF d l hd)
  cases h with
  | tooMany => exact ⟨he.2, hx, hex⟩
  | checked hfr =>
    refine ⟨rfl, hx, ?_⟩
    have hl := Expression.eval_of_heldValue hf hb hh
    rw [hfr, linear_nil, add_zero] at hl
    exact Bounds.mem_point.mpr hl
  | outside hfr hv =>
    have hl := Expression.eval_of_heldValue hf hb hh
    rw [hfr, linear_nil, add_zero] at hl
    have hn := Expression.violation?_eq_none_iff.mpr
      (Bounds.exceeded?_eq_none_of_mem hs (hl ▸ hex : held ∈ e.limits))
    cases hv.symm.trans hn
  | @solved j a v level hfr hj hl hk =>
    have hxj := (eq_solution_iff hfr hl).mpr hF
    refine ⟨rfl, hx.set ?_, hex⟩
    rw [hxj]
    exact ⟨Bounds.mem_point.mpr rfl, hk⟩
  | @beyond j a v level _ hfr hj hl hk hv =>
    have hxj := (eq_solution_iff hfr hl).mpr hF
    have hn := Variable.violation?_eq_none_iff.mpr
      (Bounds.exceeded?_eq_none_of_mem hs (hx j v hj).1)
    rw [hxj] at hn
    cases hv.symm.trans hn
  | @fractional j a v level hfr hj hl hk =>
    have hxj := (eq_solution_iff hfr hl).mpr hF
    exact absurd (hxj ▸ (hx j v hj).2) hk
  | @confined j a v hfr hj hl hb' =>
    have hxj := mem_confinedBounds hfr (hx j v hj) hF
    exact ⟨rfl, hx.set (Variable.admits_settle.mpr ⟨hxj, (hx j v hj).2⟩), hex⟩
  | @crossed j a v hfr hj hl hb' =>
    have hxj := mem_confinedBounds hfr (hx j v hj) hF
    exact absurd (Bounds.consistent_of_mem hxj) hb'
  | @narrowed j a k b v w hfr hj hk hv hw =>
    obtain ⟨hxj, hxk⟩ := mem_narrowed hfr (hx j v hj) (hx k w hk) hF
    refine ⟨he.2, ?_, hex⟩
    exact (hx.set (Variable.admits_settle.mpr ⟨hxj, (hx j v hj).2⟩)).set
      (Variable.admits_settle.mpr ⟨hxk, (hx k w hk).2⟩)
  | @derivedCrossed j a k b v w hfr hj hk hc =>
    obtain ⟨hxj, hxk⟩ := mem_narrowed hfr (hx j v hj) (hx k w hk) hF
    exact absurd ⟨Bounds.consistent_of_mem hxj, Bounds.consistent_of_mem hxk⟩ hc
  | unopposed => exact ⟨he.2, hx, hex⟩
  | zeroed hd ho => exact ⟨rfl, hx.zeroed (hzero rfl hd ho).2, hex⟩
  | refusedZero hd ho hz =>
    refine absurd (fun v hv => ?_) hz
    obtain ⟨j, hj, hvj⟩ := Signs.mem_targets.mp hv
    have hx0 := (hx j v hvj).1
    rw [(hzero rfl hd ho).2 j hj] at hx0
    exact Variable.violation?_eq_none_iff.mpr (Bounds.exceeded?_eq_none_of_mem hs hx0)
  | unreachable hd ho hl => exact absurd (hzero rfl hd ho).1 hl

/-! ### Justified marks -/

theorem eq_level_of_zeroed {js : List ℕ} {j : ℕ} {w : Variable} (hj : j ∈ js)
    (hz : ∀ v ∈ Signs.targets js vs, v.TakesZero slack)
    (hw : (Signs.zeroed slack js vs)[j]? = some w) : w.bounds = .point 0 := by
  rw [Signs.getElem?_zeroed] at hw
  obtain ⟨v, hv, rfl⟩ := Option.map_eq_some_iff.mp hw
  rw [if_pos ⟨hj, hz v (Signs.mem_targets.mpr ⟨j, hj, hv⟩)⟩]
  rfl

theorem eq_zero_of_zeroed {js : List ℕ} {j : ℕ} (hj : j ∈ js) (hlt : j < vs.length)
    (hz : ∀ v ∈ Signs.targets js vs, v.TakesZero slack)
    (hx : ∀ w : Variable, (Signs.zeroed slack js vs)[j]? = some w → x j ∈ w.bounds) : x j = 0 := by
  obtain ⟨w, hw, -⟩ := (Signs.changes_zeroed slack js vs).exists_after
    (List.getElem?_eq_getElem hlt)
  have hxw := hx w hw
  rw [eq_level_of_zeroed hj hz hw] at hxw
  exact Bounds.mem_point.mp hxw

theorem inBounds_iff (h : Effect slack fixed e vs held r s) :
    s.expression.InBounds s.vars x ↔ e.InBounds s.vars x := by
  unfold Expression.InBounds
  rw [h.terms_eq]

/-- Within the bounds that the rule leaves, what remains of the limits is what the free terms have to
satisfy. -/
theorem free_mem_iff_after (h : Effect slack fixed e vs held r s) (hf : e.HeldIn fixed vs)
    (hh : e.heldValue fixed vs = .ok held) (hx : e.InBounds s.vars x) :
    linear (e.terms.free fixed) x ∈ e.limits.subtract held ↔ e.Holds x :=
  free_mem_iff (h.heldIn hf) (h.heldValue_eq.trans hh) hx

theorem implied_of_fewFree (h : Effect slack fixed e vs held .fewFree s) (he : e.InForce)
    (hf : e.HeldIn fixed vs) (hh : e.heldValue fixed vs = .ok held)
    (hd : s.expression.redundant = true) (hi : s.expression.infeasible = false) :
    s.expression.Implied s.vars := by
  intro x hx
  have hx' := h.inBounds_iff.mp hx
  have hval := Expression.eval_of_heldValue (h.heldIn hf) hx' (h.heldValue_eq.trans hh)
  have hiff := h.free_mem_iff_after hf hh hx'
  have hset {j : ℕ} {a : ℚ} {v w : Variable} (hfr : e.terms.free fixed = [(j, a)])
      (hj : vs[j]? = some v) (hs : s.vars = vs.set j w) : x j ∈ w.bounds := by
    refine hx' j (Terms.mem_freeIndices.mp (Terms.mem_freeIndices_singleton hfr)).1 w ?_
    rw [hs, List.getElem?_set_self (List.getElem?_eq_some_iff.mp hj).1]
  cases h with
  | checked hfr =>
    rw [hfr, linear_nil, add_zero] at hval
    exact Bounds.mem_point.mpr hval
  | @solved j a v level hfr hj hl =>
    have hxj := Bounds.mem_point.mp (hset hfr hj rfl)
    exact hiff.mp ((eq_solution_iff hfr hl).mp hxj)
  | @confined j a v hfr hj hl =>
    have hxj := hset hfr hj rfl
    rw [Variable.settle_bounds] at hxj
    exact hiff.mp (mem_of_mem_confinedBounds hfr hxj)
  | tooMany => exact absurd (he.1.symm.trans hd) (by decide)
  | narrowed => exact absurd (he.1.symm.trans hd) (by decide)
  | _ => exact absurd hi (by simp [Expression.marked])

theorem implied_of_signs (h : Effect slack fixed e vs held .signs s) (he : e.InForce)
    (hr : e.Ready fixed vs) (hh : e.heldValue fixed vs = .ok held)
    (hd : s.expression.redundant = true) (hi : s.expression.infeasible = false) :
    s.expression.Implied s.vars := by
  intro x hx
  have hx' := h.inBounds_iff.mp hx
  have hiff := h.free_mem_iff_after hr.held hh hx'
  cases h with
  | zeroed hdir ho hz =>
    have hlin : linear (e.terms.free fixed) x = 0 := by
      refine linear_eq_zero fun t ht => ?_
      have hm : t.1 ∈ e.terms.freeIndices fixed := List.mem_map_of_mem ht
      have hj := (Terms.mem_freeIndices.mp hm).1
      exact eq_zero_of_zeroed hm (hr.range _ hj) hz (hx' t.1 hj)
    rw [hlin] at hiff
    exact hiff.mp (Bounds.mem_of_get (Bounds.consistent_subtract hr.limits held) hdir)
  | unopposed => exact absurd (he.1.symm.trans hd) (by decide)
  | _ => exact absurd hi (by simp [Expression.marked])

/-- **A new mark as redundant is justified:** the bounds that the rule leaves imply the expression. -/
theorem implied (h : Effect slack fixed e vs held r s) (he : e.InForce) (hr : e.Ready fixed vs)
    (hh : e.heldValue fixed vs = .ok held) (hd : s.expression.redundant = true)
    (hi : s.expression.infeasible = false) :
    s.expression.Implied s.vars := by
  cases r with
  | fewFree => exact h.implied_of_fewFree he hr.held hh hd hi
  | signs => exact h.implied_of_signs he hr hh hd hi

/-- **An expression that becomes redundant has at most one variable left that is not fixed.** -/
theorem unfixed_unique (h : Effect slack fixed e vs held r s) (he : e.InForce)
    (hr : e.Ready fixed vs) (hd : s.expression.redundant = true)
    (hi : s.expression.infeasible = false) {j k : ℕ} {v w : Variable} (hj : j ∈ e.terms.indices)
    (hk : k ∈ e.terms.indices) (hv : s.vars[j]? = some v) (hw : s.vars[k]? = some w)
    (hnv : ¬v.IsFixed) (hnw : ¬w.IsFixed) : j = k := by
  have hfree {i : ℕ} {u : Variable} (hi : i ∈ e.terms.indices) (hu : s.vars[i]? = some u)
      (hnu : ¬u.IsFixed) : i ∈ e.terms.freeIndices fixed := by
    refine Terms.mem_freeIndices.mpr ⟨hi, fun hif => ?_⟩
    obtain ⟨u', hu', hfix⟩ := h.heldIn hr.held i hi hif
    exact hnu (Option.some.inj (hu'.symm.trans hu) ▸ hfix)
  have hjf := hfree hj hv hnv
  have hkf := hfree hk hw hnw
  have hone {i : ℕ} {a : ℚ} (hfr : e.terms.free fixed = [(i, a)]) : j = k := by
    rw [Terms.freeIndices_singleton hfr, List.mem_singleton] at hjf hkf
    rw [hjf, hkf]
  cases h with
  | checked hfr => simp [Terms.freeIndices, hfr] at hjf
  | solved hfr => exact hone hfr
  | confined hfr => exact hone hfr
  | zeroed _ _ hz => exact absurd (Variable.isFixed_iff.mpr ⟨0, eq_level_of_zeroed hjf hz hv⟩) hnv
  | tooMany => exact absurd (he.1.symm.trans hd) (by decide)
  | narrowed => exact absurd (he.1.symm.trans hd) (by decide)
  | unopposed => exact absurd (he.1.symm.trans hd) (by decide)
  | _ => exact absurd hi (by simp [Expression.marked])

/-! ### Without slack -/

theorem mem_limits_before (h : Effect slack fixed e vs held r s) (hs : slack ≤ 0) {y : ℚ}
    (hy : y ∈ s.expression.limits) : y ∈ e.limits := by
  rcases h.limits_eq with hl | ⟨hl, -, hv⟩
  · rwa [hl] at hy
  · rw [hl] at hy
    rw [Bounds.mem_point.mp hy]
    exact Bounds.mem_of_exceeded?_eq_none hs (Expression.violation?_eq_none_iff.mp hv)

theorem solution_before_of_implied (h : Effect slack fixed e vs held r s) (hs : slack ≤ 0)
    (himp : s.expression.redundant = true → s.expression.Implied s.vars) (hx : Fits s.vars x)
    (hex : s.expression.redundant = false → s.expression.Holds x) : Fits vs x ∧ e.Holds x := by
  have hexp : s.expression.Holds x := by
    cases hd : s.expression.redundant with
    | false => exact hex hd
    | true => exact himp hd x (Expression.inBounds_of_fits hx)
  refine ⟨h.changes.fits_before hs hx, ?_⟩
  unfold Expression.Holds at hexp ⊢
  rw [h.terms_eq] at hexp
  exact h.mem_limits_before hs hexp

/-- **Without slack no solution is gained**, even if the expression is skipped once it is marked as
redundant. -/
theorem solution_before (h : Effect slack fixed e vs held r s) (hs : slack ≤ 0) (he : e.InForce)
    (hr : e.Ready fixed vs) (hh : e.heldValue fixed vs = .ok held)
    (hi : s.expression.infeasible = false) (hx : Fits s.vars x)
    (hex : s.expression.redundant = false → s.expression.Holds x) :
    Fits vs x ∧ e.Holds x :=
  h.solution_before_of_implied hs (fun hd => h.implied he hr hh hd hi) hx hex

end Effect

end ExactPresolve
