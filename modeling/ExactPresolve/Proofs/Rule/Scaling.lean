import ExactPresolve.Proofs.Rule.Apply
import Mathlib.Algebra.Group.Units.Basic

/-!
# Rules and scaled expressions

An expression can be multiplied by a number that is not zero: its coefficients, its held value and its
limits are multiplied, and a negative factor swaps the limits. What the rules compute for the
variables does not change. All directions are taken times the sign of the factor, and since directions
multiply like signs, the signs of the limits, of the coefficients and of the factor cancel.

* `Direction.ofCoefficient_mul`: the sign of a product;
* `Bounds.scale`, `Bounds.get_scale`: scaled bounds, one end at a time;
* `Terms.scale`, `Expression.scale`: scaled terms and expressions;
* `FewFree.solution_scale`, `FewFree.confinedBounds_scale`, `FewFree.impliedBounds_scale`,
  `Signs.opposes_scale`: what the rules compute does not change;
* **`Effect.scale`**: without slack, an application to the scaled expression does the same, apart from
  the events.
-/

namespace ExactPresolve

open FewFree Signs

/-! ## Signs -/

namespace Direction

theorem times_right_comm (d s t : Direction) : (d.times s).times t = (d.times t).times s := by
  cases d <;> cases s <;> cases t <;> rfl

theorem ofCoefficient_mul {a b : ℚ} (ha : a ≠ 0) (hb : b ≠ 0) :
    ofCoefficient (a * b) = (ofCoefficient a).times (ofCoefficient b) := by
  rcases lt_or_gt_of_ne ha with ha | ha <;> rcases lt_or_gt_of_ne hb with hb | hb
  · simp [ofCoefficient, not_lt.mpr ha.le, not_lt.mpr hb.le, mul_pos_of_neg_of_neg ha hb, times,
      opposite]
  · simp [ofCoefficient, not_lt.mpr ha.le, hb, not_lt.mpr (mul_neg_of_neg_of_pos ha hb).le, times,
      opposite]
  · simp [ofCoefficient, not_lt.mpr hb.le, ha, not_lt.mpr (mul_neg_of_pos_of_neg ha hb).le, times]
  · simp [ofCoefficient, ha, hb, mul_pos ha hb, times]

theorem times_ofCoefficient_mul (d : Direction) {c a : ℚ} (hc : c ≠ 0) (ha : a ≠ 0) :
    d.times (ofCoefficient (c * a)) = (d.times (ofCoefficient c)).times (ofCoefficient a) := by
  rw [ofCoefficient_mul hc ha]
  cases d <;> cases ofCoefficient c <;> cases ofCoefficient a <;> rfl

end Direction

/-! ## Bounds -/

namespace Bounds

variable {b : Bounds} {a c x : ℚ}

/-- The bounds on `c * x` that hold if `x` lies within `b`. A negative factor swaps the ends. -/
def scale (c : ℚ) (b : Bounds) : Bounds :=
  if c < 0 then ⟨b.upper.map (c * ·), b.lower.map (c * ·)⟩
  else ⟨b.lower.map (c * ·), b.upper.map (c * ·)⟩

theorem get_scale (hc : c ≠ 0) (b : Bounds) (d : Direction) :
    (b.scale c).get d = (b.get (d.times (.ofCoefficient c))).map (c * ·) := by
  rcases lt_or_gt_of_ne hc with h | h
  · rw [scale, if_pos h, Direction.ofCoefficient, if_neg h.not_gt]
    cases d <;> rfl
  · rw [scale, if_neg h.not_gt, Direction.ofCoefficient, if_pos h]
    cases d <;> rfl

theorem subtract_scale (hc : c ≠ 0) (b : Bounds) (x : ℚ) :
    (b.scale c).subtract (c * x) = (b.subtract x).scale c := by
  refine ext_get fun d => ?_
  simp only [get_subtract, get_scale hc, Option.map_map, Function.comp_def, mul_sub]

/-- Dividing by a scaled coefficient undoes the scaling of the limits. -/
theorem divide_scale (hc : c ≠ 0) (ha : a ≠ 0) (b : Bounds) :
    (b.scale c).divide (c * a) = b.divide a := by
  refine ext_get fun d => ?_
  rw [get_divide (mul_ne_zero hc ha), get_divide ha, get_scale hc, d.times_ofCoefficient_mul hc ha,
    Direction.times_right_comm _ (.ofCoefficient a), Direction.times_times_self, Option.map_map]
  simp only [Function.comp_def, mul_div_mul_left _ a hc]

theorem scale_point (c x : ℚ) : (point x).scale c = point (c * x) := by
  unfold scale point
  split_ifs <;> rfl

theorem mem_scale (hc : c ≠ 0) : c * x ∈ b.scale c ↔ x ∈ b := by
  rw [mem_iff_allows, mem_iff_allows]
  constructor
  · intro h d l hl
    have hend : (b.scale c).get (d.times (.ofCoefficient c)) = some (c * l) := by
      rw [get_scale hc, Direction.times_times_self, hl, Option.map_some]
    have hallows := (Direction.allows_mul hc).mpr (h _ _ hend)
    rwa [Direction.times_times_self] at hallows
  · intro h d l hl
    rw [get_scale hc] at hl
    obtain ⟨y, hy, rfl⟩ := Option.map_eq_some_iff.mp hl
    exact (Direction.allows_mul hc).mp (h _ _ hy)

theorem point?_scale (hc : c ≠ 0) (b : Bounds) : (b.scale c).point? = b.point?.map (c * ·) := by
  obtain ⟨l, u⟩ := b
  unfold scale
  split_ifs
  · cases l <;> cases u <;> simp [point?, hc, apply_ite (Option.map (c * ·)), eq_comm]
    split_ifs with h
    · rw [h]
    · rfl
  · cases l <;> cases u <;> simp [point?, hc, apply_ite (Option.map (c * ·))]

theorem consistent_scale (hc : c ≠ 0) : (b.scale c).Consistent ↔ b.Consistent := by
  obtain ⟨l, u⟩ := b
  unfold scale
  split_ifs with h
  · cases l <;> cases u <;> simp [Consistent, mul_le_mul_left_of_neg h]
  · have hpos : 0 < c := lt_of_le_of_ne (not_lt.mp h) hc.symm
    cases l <;> cases u <;> simp [Consistent, mul_le_mul_iff_right₀ hpos]

theorem tighten_none (b : Bounds) (d : Direction) : b.tighten d none = b := by
  obtain ⟨l, u⟩ := b
  cases d
  · cases l <;> rfl
  · cases u <;> rfl

/-- Tightening one end does not read the other one. -/
theorem tighten_comm (b : Bounds) (d : Direction) (x y : Option ℚ) :
    (b.tighten d.opposite y).tighten d x = (b.tighten d x).tighten d.opposite y := by
  cases d <;> rfl

end Bounds

/-! ## Expressions -/

/-- The terms multiplied by `c`. -/
def Terms.scale (c : ℚˣ) (ts : Terms) : Terms where
  toList := ts.toList.map fun t => (t.1, (c : ℚ) * t.2)
  increasing := List.pairwise_map.mpr ts.increasing
  nonzero t ht := by
    obtain ⟨u, hu, rfl⟩ := List.mem_map.mp ht
    exact mul_ne_zero c.ne_zero (ts.nonzero u hu)

/-- The expression multiplied by `c`. -/
def Expression.scale (c : ℚˣ) (e : Expression) : Expression :=
  { e with terms := e.terms.scale c, limits := e.limits.scale c }

namespace Terms

variable {c : ℚˣ} {ts : Terms} {fixed : IndexSet}

theorem indices_scale (c : ℚˣ) (ts : Terms) : (ts.scale c).indices = ts.indices := by
  simp [indices, scale]

theorem free_scale (c : ℚˣ) (ts : Terms) (fixed : IndexSet) :
    (ts.scale c).free fixed = (ts.free fixed).map fun t => (t.1, (c : ℚ) * t.2) := by
  simp [free, scale, List.filter_map, Function.comp_def]

theorem held_scale (c : ℚˣ) (ts : Terms) (fixed : IndexSet) :
    (ts.scale c).held fixed = (ts.held fixed).map fun t => (t.1, (c : ℚ) * t.2) := by
  simp [held, scale, List.filter_map, Function.comp_def]

theorem freeIndices_scale (c : ℚˣ) (ts : Terms) (fixed : IndexSet) :
    (ts.scale c).freeIndices fixed = ts.freeIndices fixed := by
  simp [freeIndices, free_scale]

end Terms

theorem weightedSum_scale {c x : ℚ} {value : ℕ → Except Fault ℚ} {ts : List (ℕ × ℚ)}
    (h : weightedSum value ts = .ok x) :
    weightedSum value (ts.map fun t => (t.1, c * t.2)) = .ok (c * x) := by
  induction ts generalizing x with
  | nil =>
    cases h
    simp [weightedSum]
  | cons t ts ih =>
    obtain ⟨y, z, hy, hz, rfl⟩ := weightedSum_cons_eq_ok.mp h
    exact weightedSum_cons_eq_ok.mpr ⟨y, _, hy, ih hz, by ring⟩

namespace Expression

variable {c : ℚˣ} {e : Expression} {fixed : IndexSet} {vs : List Variable} {held : ℚ}

theorem heldValue_scale (c : ℚˣ) (h : e.heldValue fixed vs = .ok held) :
    (e.scale c).heldValue fixed vs = .ok (c * held) := by
  unfold heldValue at h ⊢
  rw [scale, Terms.held_scale]
  exact weightedSum_scale h

theorem violation?_scale (c : ℚˣ) :
    (e.scale c).violation? 0 (c * held) = none ↔ e.violation? 0 held = none := by
  rw [violation?_eq_none_iff, violation?_eq_none_iff, Bounds.exceeded?_zero_eq_none_iff,
    Bounds.exceeded?_zero_eq_none_iff]
  exact Bounds.mem_scale c.ne_zero

theorem subtract_limits_scale (c : ℚˣ) (e : Expression) (held : ℚ) :
    (e.scale c).limits.subtract (c * held) = (e.limits.subtract held).scale c :=
  Bounds.subtract_scale c.ne_zero _ _

theorem level_scale (c : ℚˣ) (e : Expression) (x : ℚ) :
    (e.level x).scale c = (e.scale c).level (c * x) := by
  simp only [level, withLimits, scale, Bounds.scale_point]

end Expression

/-! ## What the rules compute -/

namespace FewFree

variable {c : ℚˣ} {a b : ℚ}

theorem solution_scale (c : ℚˣ) (held a level : ℚ) :
    solution (c * held) (c * a) (c * level) = solution held a level := by
  rw [solution, ← mul_sub, mul_div_mul_left _ _ c.ne_zero, solution]

theorem confinedBounds_scale (c : ℚˣ) (e : Expression) (held : ℚ) (ha : a ≠ 0) (v : Variable) :
    confinedBounds (e.scale c) (c * held) (c * a) v = confinedBounds e held a v := by
  rw [confinedBounds, e.subtract_limits_scale, Bounds.divide_scale c.ne_zero ha, confinedBounds]

/-- The bound that one limit implies, if it exists. -/
def implied? (limits : Bounds) (a b : ℚ) (other : Bounds) (d : Direction) : Option ℚ :=
  (limits.get d).bind fun l =>
    (other.get (d.times (.ofCoefficient b)).opposite).map fun y => (l - b * y) / a

/-- A limit tightens the bounds in its own direction times the sign of the coefficient. -/
theorem propagate_eq (limits : Bounds) (a b : ℚ) (other own : Bounds) (d : Direction) :
    propagate limits a b other own d =
      own.tighten (d.times (.ofCoefficient a)) (implied? limits a b other d) := by
  unfold propagate implied? impliedBound
  cases limits.get d with
  | none => exact (own.tighten_none _).symm
  | some l =>
    cases other.get (d.times (.ofCoefficient b)).opposite with
    | none => exact (own.tighten_none _).symm
    | some y => rfl

theorem propagate_comm (limits : Bounds) (a b : ℚ) (other own : Bounds) :
    propagate limits a b other (propagate limits a b other own .upper) .lower =
      propagate limits a b other (propagate limits a b other own .lower) .upper := by
  simp only [propagate_eq]
  exact own.tighten_comm _ _ _

theorem implied?_scale (c : ℚˣ) (limits : Bounds) (a : ℚ) (hb : b ≠ 0) (other : Bounds)
    (d : Direction) :
    implied? (limits.scale c) (c * a) (c * b) other d =
      implied? limits a b other (d.times (.ofCoefficient c)) := by
  have hx (l y : ℚ) : (c * l - c * b * y) / (c * a) = (l - b * y) / a := by
    rw [mul_assoc, ← mul_sub, mul_div_mul_left _ _ c.ne_zero]
  simp only [implied?, Bounds.get_scale c.ne_zero, Option.bind_map, Function.comp_def,
    d.times_ofCoefficient_mul c.ne_zero hb, hx]

theorem propagate_scale (c : ℚˣ) (limits : Bounds) (ha : a ≠ 0) (hb : b ≠ 0) (other own : Bounds)
    (d : Direction) :
    propagate (limits.scale c) (c * a) (c * b) other own d =
      propagate limits a b other own (d.times (.ofCoefficient c)) := by
  rw [propagate_eq, propagate_eq, implied?_scale c limits a hb,
    d.times_ofCoefficient_mul c.ne_zero ha]

/-- **Scaling does not change what two free variables imply for each other.** A negative factor only
exchanges the order in which the limits are looked at. -/
theorem impliedBounds_scale (c : ℚˣ) (limits : Bounds) (v : Variable) (ha : a ≠ 0) (hb : b ≠ 0)
    (other : Bounds) :
    impliedBounds (limits.scale c) v (c * a) (c * b) other = impliedBounds limits v a b other := by
  simp only [impliedBounds, List.foldl_cons, List.foldl_nil, propagate_scale c limits ha hb]
  cases Direction.ofCoefficient (c : ℚ) with
  | lower => rfl
  | upper => exact congrArg _ (propagate_comm limits a b other v.bounds)

theorem narrowed_scale (c : ℚˣ) (e : Expression) (held : ℚ) (v : Variable) (ha : a ≠ 0) (hb : b ≠ 0)
    (w : Variable) :
    narrowed (e.scale c) (c * held) v (c * a) (c * b) w = narrowed e held v a b w := by
  rw [narrowed, e.subtract_limits_scale, impliedBounds_scale c _ v ha hb, narrowed]

end FewFree

namespace Signs

/-- A negative factor exchanges the two limits, and with them the signs that they are opposed by. -/
theorem opposes_scale (c : ℚˣ) (ts : Terms) (fixed : IndexSet) (d : Direction) (l : ℚ) :
    Opposes (ts.scale c) fixed d (c * l) ↔ Opposes ts fixed (d.times (.ofCoefficient c)) l := by
  have hfree (p : ℚ → Prop) :
      (∀ t ∈ (ts.scale c).free fixed, p t.2) ↔ ∀ t ∈ ts.free fixed, p (c * t.2) := by
    rw [Terms.free_scale, List.forall_mem_map]
  rcases lt_or_gt_of_ne c.ne_zero with hc | hc
  · rw [Direction.ofCoefficient, if_neg hc.not_gt]
    cases d with
    | lower =>
      refine and_congr ?_ ((hfree (· < 0)).trans ?_)
      · simp [mul_nonneg_iff, hc.not_ge, hc.le]
      · simp [Terms.FreePositive, mul_neg_iff, hc, hc.not_gt]
    | upper =>
      refine and_congr ?_ ((hfree (0 < ·)).trans ?_)
      · simp [mul_nonpos_iff, hc.not_ge, hc.le]
      · simp [Terms.FreeNegative, mul_pos_iff, hc, hc.not_gt]
  · rw [Direction.ofCoefficient, if_pos hc]
    cases d with
    | lower =>
      refine and_congr ?_ ((hfree (· < 0)).trans ?_)
      · simp [mul_nonneg_iff, hc.not_ge, hc.le]
      · simp [Terms.FreeNegative, mul_neg_iff, hc, hc.not_gt]
    | upper =>
      refine and_congr ?_ ((hfree (0 < ·)).trans ?_)
      · simp [mul_nonpos_iff, hc.not_ge, hc.le]
      · simp [Terms.FreePositive, hc]

end Signs

/-! ## Applications -/

namespace Effect

variable {fixed : IndexSet} {e : Expression} {vs : List Variable} {held : ℚ} {r : Rule} {s : Step}

theorem get_limits_scale (c : ℚˣ) {d : Direction} {l : ℚ}
    (hd : (e.limits.subtract held).get d = some l) :
    ((e.scale c).limits.subtract (c * held)).get (d.times (.ofCoefficient c)) = some (c * l) := by
  rw [e.subtract_limits_scale, Bounds.get_scale c.ne_zero, Direction.times_times_self, hd,
    Option.map_some]

theorem opposes_of_scale (c : ℚˣ) {d : Direction} {l : ℚ} (ho : Opposes e.terms fixed d l) :
    Opposes (e.scale c).terms fixed (d.times (.ofCoefficient c)) (c * l) := by
  refine (opposes_scale c _ _ _ _).mpr ?_
  rwa [Direction.times_times_self]

/-- **An application to the scaled expression does the same**, apart from the events. -/
theorem scale (c : ℚˣ) (h : Effect 0 fixed e vs held r s) :
    ∃ events, Effect 0 fixed (e.scale c) vs (c * held) r
      ⟨s.vars, s.expression.scale c, s.fixedAny, events⟩ := by
  have hfree := Terms.free_scale c e.terms fixed
  have hpoint {level : ℚ} (hl : e.limits.point? = some level) :
      (e.scale c).limits.point? = some (c * level) :=
    (Bounds.point?_scale c.ne_zero _).trans (congrArg _ hl)
  have hnone (hl : e.limits.point? = none) : (e.scale c).limits.point? = none :=
    (Bounds.point?_scale c.ne_zero _).trans (congrArg _ hl)
  have hone {j : ℕ} {a : ℚ} (hf : e.terms.free fixed = [(j, a)]) :
      a ≠ 0 ∧ (e.scale c).terms.free fixed = [(j, c * a)] :=
    ⟨Terms.ne_zero_of_free_singleton hf, hfree.trans (congrArg _ hf)⟩
  have htwo {j k : ℕ} {a b : ℚ} (hf : e.terms.free fixed = [(j, a), (k, b)]) :
      a ≠ 0 ∧ b ≠ 0 ∧ (e.scale c).terms.free fixed = [(j, c * a), (k, c * b)] :=
    ⟨(Terms.ne_zero_of_free_pair hf).1, (Terms.ne_zero_of_free_pair hf).2,
      hfree.trans (congrArg _ hf)⟩
  cases h with
  | tooMany hf =>
    have hf' : 2 < ((e.scale c).terms.free fixed).length := by
      rw [Expression.scale, hfree, List.length_map]
      exact hf
    exact ⟨_, .tooMany hf'⟩
  | checked hf hv =>
    rw [Expression.level_scale]
    exact ⟨_, .checked (hfree.trans (congrArg _ hf)) ((Expression.violation?_scale c).mpr hv)⟩
  | @outside report hf hv =>
    -- the report tells other numbers, but there is one as well
    have hv' : (e.scale c).violation? 0 (c * held) ≠ none := by
      rw [Ne, Expression.violation?_scale c, hv]
      exact nofun
    obtain ⟨report', hreport⟩ := Option.ne_none_iff_exists'.mp hv'
    exact ⟨_, .outside (hfree.trans (congrArg _ hf)) hreport⟩
  | @solved j a v level hf hj hl hk hv =>
    rw [← solution_scale c] at hk hv ⊢
    exact ⟨_, .solved (hone hf).2 hj (hpoint hl) hk hv⟩
  | @beyond j a v level report hf hj hl hk hv =>
    rw [← solution_scale c] at hk hv
    exact ⟨_, .beyond (hone hf).2 hj (hpoint hl) hk hv⟩
  | @fractional j a v level hf hj hl hk =>
    rw [← solution_scale c] at hk
    exact ⟨_, .fractional (hone hf).2 hj (hpoint hl) hk⟩
  | @confined j a v hf hj hl hb =>
    obtain ⟨ha, hf'⟩ := hone hf
    rw [← confinedBounds_scale c e held ha v] at hb ⊢
    exact ⟨_, .confined hf' hj (hnone hl) hb⟩
  | @crossed j a v hf hj hl hb =>
    obtain ⟨ha, hf'⟩ := hone hf
    rw [← confinedBounds_scale c e held ha v] at hb
    exact ⟨_, .crossed hf' hj (hnone hl) hb⟩
  | @narrowed j a k b v w hf hj hk hv hw =>
    obtain ⟨ha, hb, hf'⟩ := htwo hf
    rw [← narrowed_scale c e held v ha hb w] at hv ⊢
    rw [← narrowed_scale c e held w hb ha v] at hw ⊢
    exact ⟨_, .narrowed hf' hj hk hv hw⟩
  | @derivedCrossed j a k b v w hf hj hk hb' =>
    obtain ⟨ha, hb, hf'⟩ := htwo hf
    rw [← narrowed_scale c e held v ha hb w, ← narrowed_scale c e held w hb ha v] at hb'
    exact ⟨_, .derivedCrossed hf' hj hk hb'⟩
  | unopposed h =>
    refine ⟨_, .unopposed fun d l hd ho => ?_⟩
    rw [e.subtract_limits_scale, Bounds.get_scale c.ne_zero] at hd
    obtain ⟨l', hl', rfl⟩ := Option.map_eq_some_iff.mp hd
    exact h _ l' hl' ((opposes_scale c _ _ _ _).mp ho)
  | zeroed hd ho hz =>
    have hd' := get_limits_scale c hd
    have ho' := opposes_of_scale c ho
    rw [mul_zero] at hd' ho'
    rw [← Terms.freeIndices_scale c] at hz ⊢
    exact ⟨_, .zeroed hd' ho' hz⟩
  | refusedZero hd ho hz =>
    have hd' := get_limits_scale c hd
    have ho' := opposes_of_scale c ho
    rw [mul_zero] at hd' ho'
    rw [← Terms.freeIndices_scale c] at hz ⊢
    exact ⟨_, .refusedZero hd' ho' hz⟩
  | unreachable hd ho hl =>
    exact ⟨_, .unreachable (get_limits_scale c hd) (opposes_of_scale c ho)
      (mul_ne_zero c.ne_zero hl)⟩

end Effect

end ExactPresolve
