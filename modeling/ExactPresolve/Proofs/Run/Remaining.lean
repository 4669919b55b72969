import ExactPresolve.Proofs.Run.Presolve

/-!
# What a run leaves in force

A run that ends as reduced ends with a pass that fixes no variable. All applications of rules in this
pass see the same fixed set and the same fixed values, and an expression that is still in force
afterwards came out of each of them as it went in. So no rule has any use for it in the end.

* `Effect.expression_eq`: a rule leaves an expression in force only by leaving it alone;
* `Effect.two_le_free`, `Effect.not_opposes`: the expressions that the rules leave alone;
* `State.Reaches.getElem?_of_not_redundant`: what is in force at the end was there before;
* `State.Pass.exists_effect`: the last pass, seen from its end;
* **`Model.reduced_exhausts_rules`**: what is left over cannot be used by the rules.
-/

namespace ExactPresolve

/-! ## Expressions that a rule leaves alone -/

namespace Effect

variable {slack held : ℚ} {fixed : IndexSet} {e : Expression} {vs : List Variable} {r : Rule}
  {s : Step}

/-- A rule leaves an expression in force only by leaving it alone. -/
theorem expression_eq (h : Effect slack fixed e vs held r s) (hs : s.expression.InForce) :
    s.expression = e := by
  obtain ⟨hd, hi⟩ := hs
  cases h with
  | tooMany => rfl
  | narrowed => rfl
  | unopposed => rfl
  | checked => cases hd
  | solved => cases hd
  | confined => cases hd
  | zeroed => cases hd
  | _ => cases hi

/-- An expression that the rule for few free variables leaves in force has two of them or more. -/
theorem two_le_free (h : Effect slack fixed e vs held .fewFree s) (hs : s.expression.InForce) :
    2 ≤ (e.terms.freeIndices fixed).length := by
  obtain ⟨hd, hi⟩ := hs
  rw [Terms.freeIndices, List.length_map]
  cases h with
  | tooMany hf => exact hf.le
  | narrowed hf => simp [hf]
  | checked => cases hd
  | solved => cases hd
  | confined => cases hd
  | _ => cases hi

/-- The signs of an expression that the rule for signs leaves in force oppose neither limit. -/
theorem not_opposes (h : Effect slack fixed e vs held .signs s) (hs : s.expression.InForce)
    (d : Direction) (l : ℚ) (hl : (e.limits.subtract held).get d = some l) :
    ¬Signs.Opposes e.terms fixed d l := by
  obtain ⟨hd, hi⟩ := hs
  cases h with
  | unopposed h => exact h d l hl
  | zeroed => cases hd
  | _ => cases hi

end Effect

/-! ## The last pass -/

namespace State

variable {slack : ℚ} {rules : List Rule} {a b c : State} {r : Rule} {i : ℕ} {f : Expression}

/-- An expression that is not redundant at the end of a run has been the same all along. -/
theorem Reaches.getElem?_of_not_redundant (h : Reaches slack rules a b) (ha : a.Coherent)
    (hf : b.expressions[i]? = some f) (hd : f.redundant = false) : a.expressions[i]? = some f := by
  induction h with
  | refl => exact hf
  | tail h h' ih =>
    refine ih ?_
    cases h' with
    | note => exact hf
    | @apply _ k _ _ _ happ hi =>
      by_cases hk : k = i
      · subst hk
        obtain rfl := Option.some.inj (happ.getElem?_after.symm.trans hf)
        obtain ⟨held, -, hE⟩ := happ.effect (ha.reaches h)
        rw [hE.expression_eq ⟨hd, hi⟩]
        exact happ.getElem?_eq
      · rwa [expressions_after, List.getElem?_set_ne hk] at hf

/-- While nothing is fixed, the fixed set is the same everywhere on the way. -/
theorem Reaches.fixed_eq (h : Reaches slack rules a b) (h' : Reaches slack rules b c)
    (ha : a.Coherent) (hs : c.fixed.size ≤ a.fixed.size) : b.fixed = c.fixed := by
  have hall : Reaches slack rules a c := h.trans h'
  have hac : a.fixed = c.fixed :=
    IndexSet.eq_of_subset_of_size_le (fun _ => hall.fixed_subset ha) hs
  refine IndexSet.ext fun j => ⟨h'.fixed_subset (ha.reaches h), fun hj => ?_⟩
  rw [← hac] at hj
  exact h.fixed_subset ha hj

theorem Reaches.heldValue_eq (h : Reaches slack rules a b) (ha : a.Coherent)
    (hs : a.fixed = b.fixed) (e : Expression) :
    e.heldValue b.fixed b.vars = e.heldValue a.fixed a.vars := by
  unfold Expression.heldValue
  rw [← hs]
  refine weightedSum_congr fun t ht => ?_
  obtain ⟨v, hv, hfix⟩ := (ha.mem_fixed t.1).mp (Terms.mem_held.mp ht).2
  simp only [Expression.fixedValue, variableAt, hv, h.getElem?_of_isFixed ha hv hfix]

/-- **The last pass, seen from its end:** if a pass fixes nothing, then each rule had an effect on
each expression left over, for the final fixed set and held value, and left it in force. -/
theorem Pass.exists_effect (h : Pass slack rules 0 a b) (ha : a.Coherent)
    (hs : b.fixed.size ≤ a.fixed.size) (hf : b.expressions[i]? = some f) (hd : f.redundant = false)
    (hr : r ∈ rules) :
    ∃ held vs s, f.heldValue b.fixed b.vars = .ok held ∧ Effect slack b.fixed f vs held r s ∧
      s.expression.InForce := by
  obtain ⟨d, e, s, had, happ, hi, hdb⟩ := h.tried i f (Nat.zero_le i) hf hd r hr
  have hcd := ha.reaches had
  have hca := happ.coherent hcd hi
  -- the expression has been what it is in the end, right after the application and before
  have hafter := hdb.getElem?_of_not_redundant hca hf hd
  have hse : s.expression = f := Option.some.inj (happ.getElem?_after.symm.trans hafter)
  have hforce : s.expression.InForce := ⟨hse ▸ hd, hi⟩
  obtain ⟨held, hh, hE⟩ := happ.effect hcd
  have hef : e = f := (hE.expression_eq hforce).symm.trans hse
  subst hef
  have hstep : Reaches slack rules d b := .head (.apply hr happ hi) hdb
  have hfixed := had.fixed_eq hstep ha hs
  refine ⟨held, d.vars, s, ?_, hfixed ▸ hE, hforce⟩
  rw [hstep.heldValue_eq hcd hfixed, hh]

end State

open State

namespace Model

/-- **What is left over cannot be used by the rules**, if a run ends with a pass that fixes nothing. -/
theorem reduced_exhausts_rules {m : Model} (hm : m.Built) (rules : List Rule) :
    ∃ r, m.presolve rules = .ok r ∧ (r.summary.status = .reduced →
      ∀ e ∈ r.model.expressions, e.redundant = false →
        (.fewFree ∈ rules → 2 ≤ (e.terms.freeIndices r.summary.fixed).length) ∧
        (.signs ∈ rules → ∃ limits, e.freeLimits r.summary.fixed r.model.vars = .ok limits ∧
          (∀ l ∈ limits.lower, 0 ≤ l → ¬e.terms.FreeNegative r.summary.fixed) ∧
            ∀ u ∈ limits.upper, u ≤ 0 → ¬e.terms.FreePositive r.summary.fixed)) := by
  obtain ⟨r, c, hr, hO, hmodel, hfixed⟩ := exists_presolve hm.wellFormed rules
  refine ⟨r, hr, fun hst e he hd => ?_⟩
  rw [hst] at hO
  rw [hmodel] at he ⊢
  rw [hfixed]
  cases hO with
  | reduced hreach hpass hsize =>
    have hb := (coherent_start hm.wellFormed).reaches hreach
    obtain ⟨i, hi⟩ := List.mem_iff_getElem?.mp he
    refine ⟨fun hfew => ?_, fun hsig => ?_⟩
    · obtain ⟨held, vs, s, -, hE, hforce⟩ :=
        hpass.exists_effect hb hsize hi hd (Rule.mem_byPriority.mpr hfew)
      exact hE.two_le_free hforce
    · obtain ⟨held, vs, s, hh, hE, hforce⟩ :=
        hpass.exists_effect hb hsize hi hd (Rule.mem_byPriority.mpr hsig)
      refine ⟨_, Effect.freeLimits_eq hh, fun l hl h0 hneg => ?_, fun u hu h0 hpos => ?_⟩
      · exact hE.not_opposes hforce .lower l hl ⟨h0, hneg⟩
      · exact hE.not_opposes hforce .upper u hu ⟨h0, hpos⟩

/-- A model that is reduced in two passes and keeps two expressions, one with two free variables and
one with three. -/
def unfinished : Model where
  vars := [⟨"x", .integer, ⟨some 0, some 9⟩, none⟩, ⟨"y", .continuous, ⟨some (-2), some 4⟩, none⟩,
    ⟨"z", .continuous, ⟨some 1, none⟩, none⟩, ⟨"w", .continuous, .unlimited, none⟩]
  expressions := [⟨"c", .ofList [(0, 1), (1, -2), (2, -1)], ⟨some (-3), some 8⟩, false, false⟩,
    ⟨"d", .ofList [(0, 1), (1, 1), (2, 3), (3, 1)], ⟨none, some 20⟩, false, false⟩,
    ⟨"e", .ofList [(0, -4)], .point (-12), false, false⟩,
    ⟨"f", .ofList [(0, 1), (3, 2)], ⟨some 1, some 7⟩, false, false⟩]
  options := ⟨1 / 4, none⟩

theorem reduced_exhausts_rules_unfinished :
    ∃ r, unfinished.presolve [.signs, .fewFree] = .ok r ∧ r.summary.fixed = .ofList [0] ∧
      (r.model.expressions.filter (!·.redundant)).map (·.name) = ["c", "d"] ∧
        ∀ e ∈ r.model.expressions, e.redundant = false →
          2 ≤ (e.terms.freeIndices r.summary.fixed).length ∧
            ∃ limits, e.freeLimits r.summary.fixed r.model.vars = .ok limits ∧
              ∀ u ∈ limits.upper, u ≤ 0 → ¬e.terms.FreePositive r.summary.fixed := by
  have hm : unfinished.Built := by decide +kernel
  obtain ⟨r, hr, hleft⟩ := reduced_exhausts_rules hm [.signs, .fewFree]
  have hrun : ∀ r ∈ (unfinished.presolve [.signs, .fewFree]).toOption,
      r.summary.status = .reduced ∧ r.summary.fixed = .ofList [0] ∧
        (r.model.expressions.filter (!·.redundant)).map (·.name) = ["c", "d"] := by
    decide +kernel
  obtain ⟨hst, hfixed, hnames⟩ := hrun r (by rw [hr]; rfl)
  refine ⟨r, hr, hfixed, hnames, fun e he hd => ?_⟩
  obtain ⟨hfew, hsigns⟩ := hleft hst e he hd
  obtain ⟨limits, hlimits, -, hupper⟩ := hsigns (by decide)
  exact ⟨hfew (by decide), limits, hlimits, hupper⟩

end Model

end ExactPresolve
