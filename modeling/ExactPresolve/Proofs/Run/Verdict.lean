import ExactPresolve.Proofs.Run.History

/-!
# The verdict of a run

A pass ends at the first expression that is marked as infeasible, so the expression that a run names
is the first one of those marked in the end, and a pass that is not ended so leaves no expression
marked. A mark takes the expression out of force for good. Each later run therefore meets it in its
first pass, unless it meets another one before.

* `State.PassTrace.findIdx?_eq`: the expression that ends a pass;
* **`State.LoopTrace.verdict`**: the status of a run and the marks in the end;
* `State.PassTrace.exists_le`, `State.LoopTrace.exists_le`: a mark that is there before;
* `State.Ended.rest`: what comes after an application of a run;
* **`Model.Leads.exists_le`**: the runs that come after a mark;
* **`Model.presolve_verdict`**: the verdict agrees with the marks and is never taken back.
-/

namespace ExactPresolve

namespace State

variable {slack : ℚ} {rules : List Rule} {limit : Option ℕ} {a b : State} {i k n : ℕ}
  {e : Expression} {as : List Application} {o : Option ℕ} {w : Ending} {x : Application}

/-! ## The marks at the end -/

theorem Ended.exists_infeasible (h : Ended slack rules a as (some i) b) :
    ∃ f, b.expressions[i]? = some f ∧ f.infeasible = true := by
  cases h with
  | marked _ hf hi => exact ⟨_, hf, hi⟩
  | refuted _ _ happ hi => exact ⟨_, happ.getElem?_after, hi⟩

/-- The expressions that a pass is done with are not infeasible. -/
theorem PassTrace.infeasible_eq_false (h : PassTrace slack rules k a as o b) {j : ℕ} (hk : k ≤ j)
    (ho : ∀ i ∈ o, j < i) {f : Expression} (hf : b.expressions[j]? = some f) :
    f.infeasible = false := by
  induction h with
  | done hlen => exact absurd (List.getElem?_eq_some_iff.mp hf).1 (by omega)
  | @stop k => exact absurd (ho k rfl) hk.not_gt
  | next _ hg hi hp ih =>
    rcases Nat.eq_or_lt_of_le hk with rfl | hlt
    · have hkeep := hp.getElem?_of_lt (Nat.lt_succ_self _)
      rwa [← Option.some.inj ((hkeep.trans hg).symm.trans hf)]
    · exact ih hlt ho hf

/-- **The expression that ends a pass is the first one marked as infeasible.** -/
theorem PassTrace.findIdx?_eq (h : PassTrace slack rules 0 a as o b) :
    b.expressions.findIdx? (·.infeasible) = o := by
  cases o with
  | none =>
    refine List.findIdx?_eq_none_iff.mpr fun f hf => ?_
    obtain ⟨j, hj⟩ := List.mem_iff_getElem?.mp hf
    exact h.infeasible_eq_false (Nat.zero_le j) nofun hj
  | some i =>
    obtain ⟨f, hf, hi⟩ := h.ended.exists_infeasible
    obtain ⟨hlt, rfl⟩ := List.getElem?_eq_some_iff.mp hf
    refine List.findIdx?_eq_some_iff_getElem.mpr ⟨hlt, hi, fun j hj => ?_⟩
    have hj' : ∀ i' ∈ some i, j < i' := fun i' hi' => Option.some.inj hi' ▸ hj
    simp [h.infeasible_eq_false (Nat.zero_le j) hj' (List.getElem?_eq_getElem (hj.trans hlt))]

/-- **The status of a run and the marks in the end**, by induction over the passes. The marks are not
looked at if the limit allows no pass at all. -/
theorem LoopTrace.verdict (h : LoopTrace slack rules limit n a as w) :
    w.expressions.findIdx? (·.infeasible) = w.status.index? ∨
      w.status = .iterationLimit ∧ w.passes = n ∧ w.expressions = a.expressions := by
  induction h with
  | limit => exact .inr ⟨rfl, rfl, rfl⟩
  | infeasible _ hp => exact .inl hp.findIdx?_eq
  | reduced _ hp => exact .inl hp.findIdx?_eq
  | again _ hp _ _ ih =>
    rcases ih with ih | ⟨hst, -, hw⟩
    · exact .inl ih
    · -- the limit ended the run, and the marks are those that this pass has left
      refine .inl ?_
      rw [hw, hst]
      exact hp.findIdx?_eq

/-! ## Marks that are there before -/

theorem PassTrace.exists_le (h : PassTrace slack rules k a as o b) (hk : k ≤ i)
    (he : a.expressions[i]? = some e) (hi : e.infeasible = true) : ∃ j ≤ i, o = some j := by
  induction h with
  | done hlen => exact absurd (List.getElem?_eq_some_iff.mp he).1 (by omega)
  | @stop k => exact ⟨k, hk, rfl⟩
  | next hv hf hn _ ih =>
    rcases Nat.eq_or_lt_of_le hk with rfl | hlt
    · obtain ⟨-, rfl⟩ := hv.eq_of_not_inForce he (Expression.not_inForce hi)
      obtain rfl := Option.some.inj (he.symm.trans hf)
      cases hi.symm.trans hn
    · exact ih hlt ((hv.getElem?_of_ne hlt.ne).trans he)

/-- With a mark that is there before, the next pass is the last one. -/
theorem LoopTrace.exists_le (h : LoopTrace slack rules limit n a as w) (hn : ∀ k ∈ limit, n < k)
    (he : a.expressions[i]? = some e) (hi : e.infeasible = true) :
    w.passes = n + 1 ∧ ∃ j ≤ i, w.status = .infeasible j := by
  cases h with
  | limit hk hle => exact absurd (hn _ hk) hle.not_gt
  | infeasible _ hp =>
    obtain ⟨j, hj, hs⟩ := hp.exists_le (Nat.zero_le i) he hi
    exact ⟨rfl, j, hj, congrArg Status.infeasible (Option.some.inj hs)⟩
  | reduced _ hp =>
    obtain ⟨j, -, hs⟩ := hp.exists_le (Nat.zero_le i) he hi
    cases hs
  | again _ hp =>
    obtain ⟨j, -, hs⟩ := hp.exists_le (Nat.zero_le i) he hi
    cases hs

/-! ## In the middle of a run -/

theorem Path.rest (h : Path slack rules a as b) (hx : x ∈ as) :
    ∃ bs, Path slack rules x.before bs b := by
  induction h with
  | refl => cases hx
  | apply _ hr happ hi ih =>
    rcases List.mem_append.mp hx with hx | hx
    · obtain ⟨bs, hbs⟩ := ih hx
      exact ⟨_, hbs.apply hr happ hi⟩
    · obtain rfl := List.mem_singleton.mp hx
      exact ⟨_, .apply .refl hr happ hi⟩
  | note _ event ih =>
    obtain ⟨bs, hbs⟩ := ih hx
    exact ⟨bs, hbs.note event⟩

/-- What comes after an application of a run leads to the same end. -/
theorem Ended.rest (h : Ended slack rules a as o b) (hx : x ∈ as) :
    ∃ bs, Ended slack rules x.before bs o b := by
  cases h with
  | kept h =>
    obtain ⟨bs, hbs⟩ := h.rest hx
    exact ⟨bs, .kept hbs⟩
  | marked h he hi =>
    obtain ⟨bs, hbs⟩ := h.rest hx
    exact ⟨bs, .marked hbs he hi⟩
  | refuted h hr happ hi =>
    rcases List.mem_append.mp hx with hx | hx
    · obtain ⟨bs, hbs⟩ := h.rest hx
      exact ⟨_, .refuted hbs hr happ hi⟩
    · obtain rfl := List.mem_singleton.mp hx
      exact ⟨_, .refuted .refl hr happ hi⟩

end State

open State

namespace Model

variable {m m' : Model} {rules : List Rule} {as : List Application} {r : Presolved} {i : ℕ}
  {e : Expression} {x : Application}

theorem Runs.findIdx?_eq (h : m.Runs rules as r) (hi : r.summary.status = .infeasible i) :
    r.model.expressions.findIdx? (·.infeasible) = some i := by
  obtain ⟨w, hL, rfl⟩ := h
  have hst : w.status = .infeasible i := hi
  rcases hL.verdict with hv | ⟨hv, -⟩
  · rw [hst] at hv
    exact hv
  · cases hst.symm.trans hv

theorem Runs.infeasible_eq_false (h : m.Runs rules as r)
    (hs : r.summary.status = .reduced ∨ r.summary.status = .iterationLimit ∧ 0 < r.summary.passes) :
    ∀ e ∈ r.model.expressions, e.infeasible = false := by
  obtain ⟨w, hL, rfl⟩ := h
  have hs' : w.status = .reduced ∨ w.status = .iterationLimit ∧ 0 < w.passes := hs
  refine List.findIdx?_eq_none_iff.mp (?_ : w.expressions.findIdx? (·.infeasible) = none)
  rcases hL.verdict with hv | ⟨hst, hp, -⟩
  · rcases hs' with hst | ⟨hst, -⟩ <;> rw [hst] at hv <;> exact hv
  · rcases hs' with hst' | ⟨-, hpos⟩
    · cases hst.symm.trans hst'
    · omega

/-- A run on a model with a mark ends in its first pass. -/
theorem Runs.exists_le (h : m.Runs rules as r) (hl : m.options.iterationLimit ≠ some 0)
    (he : m.expressions[i]? = some e) (hi : e.infeasible = true) :
    r.summary.passes = 1 ∧ ∃ j ≤ i, r.summary.status = .infeasible j := by
  obtain ⟨w, hL, rfl⟩ := h
  refine hL.exists_le (fun k hk => Nat.pos_of_ne_zero ?_) he hi
  rintro rfl
  exact hl hk

/-- However a model goes on after a mark, its runs end in their first pass. -/
theorem Leads.exists_le (h : m.Leads m') (hm : m.Reachable)
    (hl : m'.options.iterationLimit ≠ some 0) (he : m.expressions[i]? = some e)
    (hi : e.infeasible = true) (rules : List Rule) : ∃ r, m'.presolve rules = .ok r ∧
      r.summary.passes = 1 ∧ ∃ j ≤ i, r.summary.status = .infeasible j := by
  have he' := h.getElem?_of_not_inForce hm he (Expression.not_inForce hi)
  obtain ⟨r, as, hr, hruns⟩ := exists_runs (hm.of_leads h).built.wellFormed rules
  exact ⟨r, hr, hruns.exists_le hl he' hi⟩

/-- An expression that is out of force before one of the applications stays as it is. -/
theorem Runs.getElem?_of_before (h : m.Runs rules as r) (hm : WellFormed m.expressions m.vars)
    (hx : x ∈ as) (he : x.before.expressions[i]? = some e) (hf : ¬e.InForce) :
    r.model.expressions[i]? = some e := by
  obtain ⟨b, hended, hmodel, -⟩ := h.ended
  obtain ⟨bs, hrest⟩ := hended.rest hx
  have hb := (coherent_start hm).reaches (hended.madeFrom hx).reaches
  rw [hmodel]
  exact hrest.getElem?_of_not_inForce hb he hf

/-- **The verdict agrees with the marks and is never taken back**, however the model goes on. -/
theorem presolve_verdict (hm : m.Reachable) (rules : List Rule) :
    ∃ r as, m.presolve rules = .ok r ∧ m.Runs rules as r ∧
      (∀ i, r.summary.status = .infeasible i →
        r.model.expressions.findIdx? (·.infeasible) = some i) ∧
      (r.summary.status = .reduced ∨
          r.summary.status = .iterationLimit ∧ 0 < r.summary.passes →
        ∀ e ∈ r.model.expressions, e.infeasible = false) ∧
      (∀ i, r.summary.status = .infeasible i → ∀ m', r.model.Leads m' →
        m'.options.iterationLimit ≠ some 0 → ∀ rules', ∃ r', m'.presolve rules' = .ok r' ∧
          r'.summary.passes = 1 ∧ ∃ j ≤ i, r'.summary.status = .infeasible j) ∧
      (∀ (i : ℕ) (e : Expression), m.expressions[i]? = some e → e.redundant = true →
        ∀ m', m.Leads m' → m'.expressions[i]? = some e) ∧
      ∀ x ∈ as, ∀ (i : ℕ) (e : Expression), x.before.expressions[i]? = some e →
        e.redundant = true → r.model.expressions[i]? = some e := by
  have hw := hm.built.wellFormed
  obtain ⟨r, as, hr, hruns⟩ := exists_runs hw rules
  refine ⟨r, as, hr, hruns, fun i => hruns.findIdx?_eq, hruns.infeasible_eq_false,
    fun i hi m' hm' hl rules' => ?_, fun i e he hd m' hm' => ?_, fun x hx i e he hd => ?_⟩
  · obtain ⟨hlt, hmark, -⟩ := List.findIdx?_eq_some_iff_getElem.mp (hruns.findIdx?_eq hi)
    exact hm'.exists_le (hm.presolve hr) hl (List.getElem?_eq_getElem hlt) hmark rules'
  · exact hm'.getElem?_of_not_inForce hm he (Expression.not_inForce_of_redundant hd)
  · exact hruns.getElem?_of_before hw hx he (Expression.not_inForce_of_redundant hd)

/-- A model whose second expression leaves the first variable no value but zero, which neither the
second variable nor the first expression can take. -/
def contradictory : Model where
  vars := [⟨"x", .continuous, ⟨some 0, none⟩, none⟩, ⟨"y", .continuous, ⟨some 1, none⟩, none⟩]
  expressions := [⟨"c", .ofList [(0, 2)], .point 1, false, false⟩,
    ⟨"d", .ofList [(0, -1), (1, -1)], ⟨some 0, none⟩, false, false⟩]
  options := .standard

theorem presolve_verdict_contradictory : ∃ r m' r', contradictory.presolve [.signs] = .ok r ∧
    r.summary.status = .infeasible 1 ∧
      r.model.expressions.findIdx? (·.infeasible) = some 1 ∧
      r.model.Leads m' ∧ m'.options.iterationLimit = some 4 ∧
      m'.presolve [.fewFree] = .ok r' ∧ r'.summary.passes = 1 ∧
        ∃ j ≤ 1, r'.summary.status = .infeasible j := by
  have hm : contradictory.Built := by decide +kernel
  obtain ⟨r, as, hr, -, hfirst, -, hlater, -⟩ := presolve_verdict hm.reachable [.signs]
  have hrun : ∀ r ∈ (contradictory.presolve [.signs]).toOption,
      r.summary.status = .infeasible 1 := by
    decide +kernel
  have hst := hrun r (by rw [hr]; rfl)
  -- one more variable, an expression that is refused, and another limit
  have hleads := (((Leads.refl (m := r.model)).addVariable (.named "z")).addExpression
    ((Expression.named "e").withTerm 7 1)).configure ⟨0, some 4⟩
  obtain ⟨r', hr', hpasses, hj⟩ := hlater 1 hst _ hleads nofun [.fewFree]
  exact ⟨r, _, r', hr, hst, hfirst 1 hst, hleads, rfl, hr', hpasses, hj⟩

end Model

end ExactPresolve
