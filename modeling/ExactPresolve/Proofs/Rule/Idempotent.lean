import ExactPresolve.Proofs.Rule.TwoFree

/-!
# Applying a rule twice

Most applications either leave everything as it is or mark the expression, which the next one then
skips. Only the bounds of two free variables are tightened while the expression stays in force. If
these variables are continuous, the new bounds are projections and stay as they are.

* `Rule.apply_of_not_inForce`: an expression out of force is left alone;
* `Effect.ready`: an application leaves what the next one relies on;
* **`Rule.apply_idempotent`**: a second application of a rule changes nothing.
-/

namespace ExactPresolve

open FewFree

variable {slack held : ℚ} {fixed : IndexSet} {e : Expression} {vs : List Variable} {r : Rule}
  {s : Step}

theorem Rule.apply_of_not_inForce (he : ¬e.InForce) (r : Rule) (slack : ℚ) (fixed : IndexSet)
    (vs : List Variable) : r.apply slack fixed e vs = .ok (.unchanged e vs) := by
  unfold apply
  rw [if_pos (not_not.mp (mt Expression.inForce_iff.mpr he))]

namespace Effect

theorem ready (h : Effect slack fixed e vs held r s) (hr : e.Ready fixed vs) :
    s.expression.Ready fixed s.vars where
  range := by
    rw [h.terms_eq, h.changes.1]
    exact hr.range
  held := by
    unfold Expression.HeldIn
    rw [h.terms_eq]
    exact h.heldIn hr.held
  limits := h.consistent_limits hr.limits

/-- After an application, another one of the same rule changes neither the expression nor the
variables. -/
theorem exists_again (h : Effect slack fixed e vs held r s) (he : e.InForce) (hr : e.Ready fixed vs)
    (hh : e.heldValue fixed vs = .ok held)
    (hc : (e.terms.free fixed).length = 2 →
      ∀ j ∈ e.terms.freeIndices fixed, ∀ v ∈ vs[j]?, v.kind = .continuous) :
    ∃ s', r.apply slack fixed s.expression s.vars = .ok s' ∧ s'.expression = s.expression ∧
      s'.vars = s.vars := by
  by_cases hs : s.expression.InForce
  swap
  · exact ⟨_, Rule.apply_of_not_inForce hs r slack fixed s.vars, rfl, rfl⟩
  have hr' := h.ready hr
  have hh' := h.heldValue_eq.trans hh
  cases h with
  | tooMany hf => exact ⟨_, (tooMany hf).apply_eq he hr hh, rfl, rfl⟩
  | unopposed hno => exact ⟨_, (unopposed hno).apply_eq he hr hh, rfl, rfl⟩
  | @narrowed j a k b v w hfree hj hk hv hw =>
    have hcont := hc (by rw [hfree]; rfl)
    obtain ⟨hjf, hkf⟩ := Terms.mem_freeIndices_pair hfree
    have hvc : v.kind = .continuous := hcont j hjf v hj
    have hwc : w.kind = .continuous := hcont k hkf w hk
    obtain ⟨ha, hb⟩ := Terms.ne_zero_of_free_pair hfree
    have hl := Bounds.consistent_subtract hr.limits held
    have hvv := narrowed_narrowed ha hb hl hvc hwc hv hw
    have hww := narrowed_narrowed hb ha hl hwc hvc hw hv
    obtain ⟨hj', hk'⟩ := getElem?_set_set (Terms.ne_of_free_pair hfree) hj hk
    have hE : Effect slack fixed e _ held .fewFree _ :=
      .narrowed hfree hj' hk' (by rwa [hvv, Variable.settle_bounds])
        (by rwa [hww, Variable.settle_bounds])
    refine ⟨_, hE.apply_eq he hr' hh', rfl, ?_⟩
    simp only [hvv, hww, Variable.settle_settle, set_eq_self hj', set_eq_self hk']
  | checked => exact absurd hs (Expression.not_inForce_of_redundant rfl)
  | _ => exact absurd hs (by simp [Expression.InForce, Expression.marked])

end Effect

/-- **A second application of a rule changes nothing.** If just two variables of the expression are
free, they have to be continuous. -/
theorem Rule.apply_idempotent (r : Rule) (slack : ℚ) {fixed : IndexSet} {e : Expression}
    {vs : List Variable} (hr : e.Ready fixed vs)
    (hc : (e.terms.free fixed).length = 2 →
      ∀ j ∈ e.terms.freeIndices fixed, ∀ v ∈ vs[j]?, v.kind = .continuous) :
    ∃ s s', r.apply slack fixed e vs = .ok s ∧
      r.apply slack fixed s.expression s.vars = .ok s' ∧ s'.expression = s.expression ∧
        s'.vars = s.vars := by
  by_cases he : e.InForce
  · obtain ⟨held, s, hh, hs, hE⟩ := r.exists_effect slack he hr
    obtain ⟨s', hs', hexp, hvars⟩ := hE.exists_again he hr hh hc
    exact ⟨s, s', hs, hs', hexp, hvars⟩
  · have h := Rule.apply_of_not_inForce he r slack fixed vs
    exact ⟨_, _, h, h, rfl, rfl⟩

theorem Rule.apply_idempotent_band :
    ∃ s s', Rule.fewFree.apply 0 (.ofList [2]) band bandVars = .ok s ∧
      (s.expression.InForce ∧ s.vars ≠ bandVars) ∧
      Rule.fewFree.apply 0 (.ofList [2]) s.expression s.vars = .ok s' ∧
        s'.expression = s.expression ∧ s'.vars = s.vars := by
  have hready : band.Ready (.ofList [2]) bandVars := by decide +kernel
  obtain ⟨s, s', hs, hs', hexp, hvars⟩ :=
    Rule.apply_idempotent .fewFree 0 hready (by decide +kernel)
  have hrun : ∀ s ∈ (Rule.fewFree.apply 0 (.ofList [2]) band bandVars).toOption,
      s.expression.InForce ∧ s.vars ≠ bandVars := by
    decide +kernel
  exact ⟨s, s', hs, hrun s (by rw [hs]; rfl), hs', hexp, hvars⟩

-- Rounding the bounds of two integers can leave work for another application: `2 * m + 3 * n = 7`
-- bounds `m` by 3 and `n` by 2 at first, and only then both from below by 1.
example :
    (do
      let e : Expression := ⟨"c", .ofList [(0, 2), (1, 3)], .point 7, false, false⟩
      let s ← Rule.fewFree.apply 0 .empty e
        [⟨"m", .integer, ⟨some 0, none⟩, none⟩, ⟨"n", .integer, ⟨some 0, none⟩, none⟩]
      let s' ← Rule.fewFree.apply 0 .empty s.expression s.vars
      return s'.vars.map (·.bounds)) = Except.ok [⟨some 1, some 3⟩, ⟨some 1, some 2⟩] := by
  decide +kernel

end ExactPresolve
