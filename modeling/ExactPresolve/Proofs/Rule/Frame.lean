import ExactPresolve.Proofs.Bounds
import ExactPresolve.Proofs.Rule.Effect

/-!
# What an application of a rule changes

Whatever the effect of a rule is, it changes only free variables of the expression, and these only
in three ways: a value is recorded, the variable is fixed at a value that passes the check, or its
bounds become tighter. The held variables keep their bounds, and with them the held value.

* `Variable.Change`: the three ways;
* `Changes`: two lists of variables that differ only at given indices, by such a change;
* **`Effect.changes`**: an effect changes free variables only;
* `Effect.heldValue_eq`: the held value stays;
* `Effect.limits_eq`: limits are left alone, unless the held value becomes both of them;
* `Effect.fixedAny_of_isFixed`: no variable is fixed without notice.
-/

namespace ExactPresolve

namespace Variable

@[simp] theorem settle_bounds (v : Variable) : v.settle.bounds = v.bounds := by
  unfold settle
  split <;> rfl

@[simp] theorem settle_kind (v : Variable) : v.settle.kind = v.kind := by
  unfold settle
  split <;> rfl

@[simp] theorem settle_name (v : Variable) : v.settle.name = v.name := by
  unfold settle
  split <;> rfl

@[simp] theorem isFixed_settle {v : Variable} : v.settle.IsFixed ↔ v.IsFixed := by
  simp [IsFixed]

theorem isFixed_level (v : Variable) (x : ℚ) : (v.level x).IsFixed :=
  isFixed_iff.mpr ⟨x, rfl⟩

theorem settle_level (v : Variable) (x : ℚ) : (v.level x).settle = v.level x := by
  simp [settle, level, withValue]

/-- How presolve changes a variable. -/
inductive Change (slack : ℚ) (v : Variable) : Variable → Prop
  | settle : Change slack v v.settle
  /-- The variable is fixed at a value of its kind, which is within the bounds up to the slack. -/
  | level {x : ℚ} (hk : v.kind.Admits x) (hv : v.violation? slack x = none) :
    Change slack v (v.level x)
  /-- The bounds become tighter and are then rounded for the kind. -/
  | narrow {b : Bounds} (hb : b ⊆ v.bounds) (hc : (v.kind.roundInward b).Consistent) :
    Change slack v (v.withBounds (v.kind.roundInward b)).settle

namespace Change

variable {slack : ℚ} {v w : Variable}

theorem kind_eq (h : v.Change slack w) : w.kind = v.kind := by
  cases h with
  | settle => exact v.settle_kind
  | level => rfl
  | narrow => rw [settle_kind]; rfl

theorem consistent (h : v.Change slack w) (hv : v.bounds.Consistent) : w.bounds.Consistent := by
  cases h with
  | settle => rwa [settle_bounds]
  | level => exact Bounds.consistent_point _
  | narrow _ hc => rwa [settle_bounds]

/-- Only fixing a variable can move its bounds outwards, and without slack not even that. -/
theorem subset (h : v.Change slack w) (hs : slack ≤ 0 ∨ ¬w.IsFixed) : w.bounds ⊆ v.bounds := by
  cases h with
  | settle =>
    rw [settle_bounds]
    exact v.bounds.subset_refl
  | @level x _ hv =>
    rcases hs with hs | hs
    · exact Bounds.point_subset
        (Bounds.mem_of_exceeded?_eq_none hs (violation?_eq_none_iff.mp hv))
    · exact absurd (v.isFixed_level x) hs
  | narrow hb =>
    rw [settle_bounds]
    exact Bounds.subset_trans (v.kind.roundInward_subset _) hb

end Change

end Variable

/-! ## Lists of variables -/

theorem eq_or_of_set {j k : ℕ} {ws : List Variable} {u w : Variable}
    (h : (ws.set j u)[k]? = some w) : w = u ∨ ws[k]? = some w := by
  by_cases hj : j = k
  · subst hj
    have hlt : j < ws.length := by simpa using (List.getElem?_eq_some_iff.mp h).1
    rw [List.getElem?_set_self hlt] at h
    exact .inl (Option.some.inj h).symm
  · rw [List.getElem?_set_ne hj] at h
    exact .inr h

theorem set_eq_self {α : Type} {l : List α} {i : ℕ} {a : α} (h : l[i]? = some a) :
    l.set i a = l := by
  obtain ⟨hlt, rfl⟩ := List.getElem?_eq_some_iff.mp h
  exact List.set_getElem_self hlt

/-- The lists differ only at the given indices, and there by a change of the variable. -/
def Changes (slack : ℚ) (js : List ℕ) (vs ws : List Variable) : Prop :=
  ws.length = vs.length ∧ ∀ (k : ℕ) (v w : Variable), vs[k]? = some v → ws[k]? = some w →
    w = v ∨ k ∈ js ∧ v.Change slack w

namespace Changes

variable {slack : ℚ} {js : List ℕ} {vs ws : List Variable} {k : ℕ} {v w : Variable}

theorem refl (slack : ℚ) (js : List ℕ) (vs : List Variable) : Changes slack js vs vs :=
  ⟨rfl, fun _ _ _ hv hw => .inl (Option.some.inj (hw.symm.trans hv))⟩

theorem set (h : Changes slack js vs ws) (hk : k ∈ js) (hv : vs[k]? = some v)
    (hc : v.Change slack w) : Changes slack js vs (ws.set k w) := by
  refine ⟨by simpa using h.1, fun i u u' hu hu' => ?_⟩
  by_cases hi : k = i
  · subst hi
    obtain rfl : v = u := Option.some.inj (hv.symm.trans hu)
    have hlt : k < ws.length := h.1 ▸ (List.getElem?_eq_some_iff.mp hv).1
    rw [List.getElem?_set_self hlt] at hu'
    obtain rfl := Option.some.inj hu'
    exact .inr ⟨hk, hc⟩
  · rw [List.getElem?_set_ne hi] at hu'
    exact h.2 i u u' hu hu'

theorem exists_after (h : Changes slack js vs ws) (hv : vs[k]? = some v) :
    ∃ w, ws[k]? = some w ∧ (w = v ∨ k ∈ js ∧ v.Change slack w) := by
  have hlt : k < ws.length := h.1 ▸ (List.getElem?_eq_some_iff.mp hv).1
  have hw : ws[k]? = some ws[k] := List.getElem?_eq_getElem hlt
  exact ⟨_, hw, h.2 k v _ hv hw⟩

theorem exists_before (h : Changes slack js vs ws) (hw : ws[k]? = some w) :
    ∃ v, vs[k]? = some v ∧ (w = v ∨ k ∈ js ∧ v.Change slack w) := by
  have hlt : k < vs.length := h.1 ▸ (List.getElem?_eq_some_iff.mp hw).1
  have hv : vs[k]? = some vs[k] := List.getElem?_eq_getElem hlt
  exact ⟨_, hv, h.2 k _ w hv hw⟩

theorem getElem?_eq (h : Changes slack js vs ws) (hk : k ∉ js) : ws[k]? = vs[k]? := by
  cases hv : vs[k]? with
  | none =>
    rw [List.getElem?_eq_none_iff] at hv ⊢
    rwa [h.1]
  | some v =>
    obtain ⟨w, hw, rfl | ⟨hk', -⟩⟩ := h.exists_after hv
    · exact hw
    · exact absurd hk' hk

theorem subset (h : Changes slack js vs ws) (hv : vs[k]? = some v) (hw : ws[k]? = some w)
    (hs : slack ≤ 0 ∨ ¬w.IsFixed) : w.bounds ⊆ v.bounds := by
  rcases h.2 k v w hv hw with rfl | ⟨-, hc⟩
  · exact w.bounds.subset_refl
  · exact hc.subset hs

theorem kind_eq (h : Changes slack js vs ws) (hv : vs[k]? = some v) (hw : ws[k]? = some w) :
    w.kind = v.kind := by
  rcases h.2 k v w hv hw with rfl | ⟨-, hc⟩
  · rfl
  · exact hc.kind_eq

end Changes

/-! ## Effects -/

namespace Signs

theorem changes_zeroed (slack : ℚ) (js : List ℕ) (vs : List Variable) :
    Changes slack js vs (zeroed slack js vs) := by
  refine ⟨length_zeroed slack js vs, fun k v w hv hw => ?_⟩
  rw [getElem?_zeroed, hv, Option.map_some] at hw
  split_ifs at hw with hc
  · obtain rfl := Option.some.inj hw
    refine .inr ⟨hc.1, .level ?_ hc.2⟩
    cases v.kind with
    | continuous => trivial
    | integer => exact Rat.den_intCast 0
  · exact .inl (Option.some.inj hw).symm

end Signs

namespace Effect

variable {slack held : ℚ} {fixed : IndexSet} {e : Expression} {vs : List Variable} {r : Rule}
  {s : Step}

/-- **An application of a rule changes only free variables of the expression.** -/
theorem changes (h : Effect slack fixed e vs held r s) :
    Changes slack (e.terms.freeIndices fixed) vs s.vars := by
  have hrefl := Changes.refl slack (e.terms.freeIndices fixed) vs
  cases h with
  | tooMany => exact hrefl
  | checked => exact hrefl
  | outside => exact hrefl
  | @solved j a v _ hf hj _ hk hv =>
    exact hrefl.set (Terms.mem_freeIndices_singleton hf) hj (.level hk hv)
  | @beyond j a v _ _ hf hj => exact hrefl.set (Terms.mem_freeIndices_singleton hf) hj .settle
  | @fractional j a v _ hf hj => exact hrefl.set (Terms.mem_freeIndices_singleton hf) hj .settle
  | @confined j a v hf hj _ hb =>
    exact hrefl.set (Terms.mem_freeIndices_singleton hf) hj
      (.narrow (v.bounds.inter_subset_left _) hb)
  | @crossed j a v hf hj => exact hrefl.set (Terms.mem_freeIndices_singleton hf) hj .settle
  | @narrowed j a k b v w hf hj hk hv hw =>
    obtain ⟨c, hcs, hc⟩ := FewFree.impliedBounds_eq (e.limits.subtract held) v a b w.bounds
    obtain ⟨d, hds, hd⟩ := FewFree.impliedBounds_eq (e.limits.subtract held) w b a v.bounds
    have hcv : v.Change slack (FewFree.narrowed e held v a b w).settle := by
      unfold FewFree.narrowed at hv ⊢
      rw [hc] at hv ⊢
      exact .narrow hcs hv
    have hcw : w.Change slack (FewFree.narrowed e held w b a v).settle := by
      unfold FewFree.narrowed at hw ⊢
      rw [hd] at hw ⊢
      exact .narrow hds hw
    obtain ⟨hjf, hkf⟩ := Terms.mem_freeIndices_pair hf
    exact (hrefl.set hjf hj hcv).set hkf hk hcw
  | derivedCrossed => exact hrefl
  | unopposed => exact hrefl
  | zeroed => exact Signs.changes_zeroed slack _ vs
  | refusedZero => exact Signs.changes_zeroed slack _ vs
  | unreachable => exact hrefl

theorem terms_eq (h : Effect slack fixed e vs held r s) : s.expression.terms = e.terms := by
  cases h <;> rfl

theorem name_eq (h : Effect slack fixed e vs held r s) : s.expression.name = e.name := by
  cases h <;> rfl

theorem limits_eq (h : Effect slack fixed e vs held r s) : s.expression.limits = e.limits ∨
    s.expression.limits = .point held ∧ e.terms.free fixed = [] ∧ e.violation? slack held = none := by
  cases h with
  | checked hf hv => exact .inr ⟨rfl, hf, hv⟩
  | _ => exact .inl rfl

theorem consistent_limits (h : Effect slack fixed e vs held r s) (hc : e.limits.Consistent) :
    s.expression.limits.Consistent := by
  rcases h.limits_eq with hl | ⟨hl, -⟩
  · rwa [hl]
  · rw [hl]
    exact Bounds.consistent_point held

/-! ### Held variables -/

theorem getElem?_held (h : Effect slack fixed e vs held r s) {k : ℕ} (hk : k ∈ fixed) :
    s.vars[k]? = vs[k]? :=
  h.changes.getElem?_eq fun hj => (Terms.mem_freeIndices.mp hj).2 hk

theorem heldIn (h : Effect slack fixed e vs held r s) (hf : e.HeldIn fixed vs) :
    e.HeldIn fixed s.vars := by
  intro j hj hjf
  obtain ⟨v, hv, hfix⟩ := hf j hj hjf
  exact ⟨v, (h.getElem?_held hjf).trans hv, hfix⟩

theorem heldValue_eq (h : Effect slack fixed e vs held r s) :
    e.heldValue fixed s.vars = e.heldValue fixed vs := by
  refine weightedSum_congr fun t ht => ?_
  simp only [Expression.fixedValue, variableAt, h.getElem?_held (Terms.mem_held.mp ht).2]

/-! ### Fixed variables -/

/-- **No variable is fixed without notice.** -/
theorem fixedAny_of_isFixed (h : Effect slack fixed e vs held r s) {k : ℕ} {v w : Variable}
    (hv : vs[k]? = some v) (hnv : ¬v.IsFixed) (hw : s.vars[k]? = some w) (hfw : w.IsFixed) :
    s.fixedAny = true := by
  have hne : ¬vs[k]? = some w := by
    intro hvw
    rw [hv] at hvw
    exact hnv (Option.some.inj hvw ▸ hfw)
  have hset {j : ℕ} {u : Variable} (hs : (vs.set j u)[k]? = some w) : u.IsFixed := by
    rcases eq_or_of_set hs with rfl | hs
    · exact hfw
    · exact absurd hs hne
  have hzero (hs : (Signs.zeroed slack (e.terms.freeIndices fixed) vs)[k]? = some w) :
      (Signs.targets (e.terms.freeIndices fixed) vs).any
        (fun v => decide (v.TakesZero slack)) = true := by
    rw [Signs.getElem?_zeroed, hv, Option.map_some] at hs
    split_ifs at hs with hc
    · exact List.any_eq_true.mpr ⟨v, Signs.mem_targets.mpr ⟨k, hc.1, hv⟩, decide_eq_true hc.2⟩
    · exact absurd (hv.trans hs) hne
  cases h with
  | tooMany => exact absurd hw hne
  | checked => exact absurd hw hne
  | outside => exact absurd hw hne
  | solved => rfl
  | beyond => exact decide_eq_true (Variable.isFixed_settle.mp (hset hw))
  | fractional => exact decide_eq_true (Variable.isFixed_settle.mp (hset hw))
  | confined => exact decide_eq_true (Variable.isFixed_settle.mp (hset hw))
  | crossed => exact decide_eq_true (Variable.isFixed_settle.mp (hset hw))
  | narrowed =>
    refine decide_eq_true ?_
    rcases eq_or_of_set hw with rfl | hw
    · exact .inr (Variable.isFixed_settle.mp hfw)
    · exact .inl (Variable.isFixed_settle.mp (hset hw))
  | derivedCrossed => exact absurd hw hne
  | unopposed => exact absurd hw hne
  | zeroed => exact hzero hw
  | refusedZero => exact hzero hw
  | unreachable => exact absurd hw hne

end Effect

end ExactPresolve
