import ExactPresolve.Proofs.Run.Counts

/-!
# What a run leaves out

A run that ends because an expression turns out to be infeasible ends in the middle of an application.
What this application did to the variables stays, but the run neither looks for variables that it
fixed nor counts it. So the fixed set and the counts at the end can be short of it, and of nothing
else.

* `Application.Refutes`: the applications that find that an expression is infeasible;
* `State.Ended.fixed_eq_iff`, `State.Ended.fixes_get_iff`: when nothing is left out;
* `State.Applies.rule_eq_signs`, `State.Ended.eq_some_of_refutes`: the application that is left out;
* **`Model.fixed_and_fixes_exact_iff`**: when the fixed set and the counts are the true ones.
-/

namespace ExactPresolve

namespace Application

/-- The application finds that its expression is infeasible. -/
def Refutes (x : Application) : Prop := x.step.expression.infeasible = true

instance (x : Application) : Decidable x.Refutes := inferInstanceAs (Decidable (_ = true))

end Application

namespace State

variable {slack : ℚ} {rules : List Rule} {a b : State} {r : Rule} {i : ℕ} {e : Expression}
  {s : Step} {as : List Application} {o : Option ℕ}

theorem Path.not_refutes (h : Path slack rules a as b) : ∀ x ∈ as, ¬x.Refutes := by
  induction h with
  | refl => exact nofun
  | apply _ _ _ hi ih =>
    intro x hx hr
    rcases List.mem_append.mp hx with hx | hx
    · exact ih x hx hr
    · obtain rfl := List.mem_singleton.mp hx
      cases hi.symm.trans hr
  | note _ _ ih => exact ih

theorem Path.forall_append_iff (h : Path slack rules a as b) {y : Application} (hy : y.Refutes) :
    (∀ x ∈ as ++ [y], x.Fixes → ¬x.Refutes) ↔ ¬y.Fixes := by
  constructor
  · intro hall hf
    exact hall y (List.mem_append_right _ List.mem_cons_self) hf hy
  · intro hn x hx hf
    rcases List.mem_append.mp hx with hx | hx
    · exact h.not_refutes x hx
    · exact absurd (List.mem_singleton.mp hx ▸ hf) hn

/-- The fixed set holds the variables with equal bounds unless an application both fixes a variable
and refutes. -/
theorem Ended.fixed_eq_iff (h : Ended slack rules a as o b) (ha : a.Coherent) :
    b.fixed = fixedIndices b.vars ↔ ∀ x ∈ as, x.Fixes → ¬x.Refutes := by
  cases h with
  | kept h => exact iff_of_true (ha.reaches h.reaches).fixed_eq fun x hx _ => h.not_refutes x hx
  | marked h => exact iff_of_true (ha.reaches h.reaches).fixed_eq fun x hx _ => h.not_refutes x hx
  | @refuted as b r i e s h _ happ hi =>
    have hb := ha.reaches h.reaches
    rw [h.forall_append_iff (y := ⟨b, r, i, s⟩) hi, (progress_after_of_refutes hi).1,
      hb.fixed_eq, vars_after]
    constructor
    · rintro heq ⟨j, hj, hn⟩
      exact hn (heq ▸ hj)
    · intro hn
      refine IndexSet.ext fun j => ⟨fun hj => ?_, fun hj => ?_⟩
      · obtain ⟨v, hv, hfv⟩ := mem_fixedIndices.mp hj
        exact mem_fixedIndices.mpr ⟨v, happ.getElem?_of_isFixed hb hv hfv, hfv⟩
      · by_contra hj'
        exact hn ⟨j, hj, hj'⟩

/-- The counts are those of all applications that fix a variable unless one of these refutes. -/
theorem Ended.fixes_get_iff (h : Ended slack rules a as o b) (ha : a.Coherent) :
    (∀ q, b.progress.fixes.get q =
      a.progress.fixes.get q + as.countP fun x => x.rule = q ∧ x.Fixes) ↔
        ∀ x ∈ as, x.Fixes → ¬x.Refutes := by
  cases h with
  | kept h => exact iff_of_true (h.fixes_get ha) fun x hx _ => h.not_refutes x hx
  | marked h => exact iff_of_true (h.fixes_get ha) fun x hx _ => h.not_refutes x hx
  | @refuted as b r i e s h _ happ hi =>
    rw [h.forall_append_iff (y := ⟨b, r, i, s⟩) hi, (progress_after_of_refutes hi).2]
    simp only [h.fixes_get ha, List.countP_append, List.countP_singleton]
    constructor
    · intro hall hf
      simpa [hf] using hall r
    · intro hn q
      simp [hn]

/-- Only the rule for signs can fix a variable and refute in one application. -/
theorem Applies.rule_eq_signs (h : a.Applies slack r i e s) (ha : a.Coherent)
    (hx : (Application.mk a r i s).Fixes) (hi : s.expression.infeasible = true) : r = .signs := by
  have hany := (h.fixedAny_iff ha).mpr hx
  -- the other rule refutes without a change of bounds, and no free variable was fixed before
  have hfree {j : ℕ} {c : ℚ} {v : Variable} (hf : e.terms.free a.fixed = [(j, c)])
      (hj : a.vars[j]? = some v) : ¬v.IsFixed := by
    intro hv
    have hmem : j ∈ e.terms.freeIndices a.fixed :=
      List.mem_map.mpr ⟨(j, c), by simp [hf], rfl⟩
    exact (Terms.mem_freeIndices.mp hmem).2 ((ha.mem_fixed j).mpr ⟨v, hj, hv⟩)
  obtain ⟨held, -, hE⟩ := h.effect ha
  cases hE with
  | unopposed => rfl
  | zeroed => rfl
  | refusedZero => rfl
  | unreachable => rfl
  | tooMany => cases hany
  | outside => cases hany
  | derivedCrossed => cases hany
  | beyond hf hj => exact absurd (of_decide_eq_true hany) (hfree hf hj)
  | fractional hf hj => exact absurd (of_decide_eq_true hany) (hfree hf hj)
  | crossed hf hj => exact absurd (of_decide_eq_true hany) (hfree hf hj)
  | narrowed => cases h.inForce.2.symm.trans hi
  | _ => cases hi

/-- An application that refutes is the last one, and its expression ends the run. -/
theorem Ended.eq_some_of_refutes (h : Ended slack rules a as o b) {x : Application} (hx : x ∈ as)
    (hr : x.Refutes) : o = some x.index := by
  cases h with
  | kept h => exact absurd hr (h.not_refutes x hx)
  | marked h => exact absurd hr (h.not_refutes x hx)
  | refuted h =>
    rcases List.mem_append.mp hx with hx | hx
    · exact absurd hr (h.not_refutes x hx)
    · rw [List.mem_singleton.mp hx]

end State

theorem Status.eq_infeasible_of_index? {status : Status} {i : ℕ} (h : status.index? = some i) :
    status = .infeasible i := by
  cases status with
  | infeasible k => rw [Option.some.inj h]
  | _ => cases h

open State

namespace Model

variable {m : Model} {rules : List Rule} {as : List Application} {r : Presolved}

theorem Runs.fixed_eq_iff (h : m.Runs rules as r) (hm : WellFormed m.expressions m.vars) :
    r.summary.fixed = fixedIndices r.model.vars ↔ ∀ x ∈ as, x.Fixes → ¬x.Refutes := by
  obtain ⟨b, hended, hmodel, hfixed, -⟩ := h.ended
  rw [hfixed, hmodel]
  exact hended.fixed_eq_iff (coherent_start hm)

theorem Runs.fixes_get_iff (h : m.Runs rules as r) (hm : WellFormed m.expressions m.vars) :
    (∀ q, r.summary.fixes.get q = as.countP fun x => x.rule = q ∧ x.Fixes) ↔
      ∀ x ∈ as, x.Fixes → ¬x.Refutes := by
  obtain ⟨b, hended, -, -, hfixes⟩ := h.ended
  have hiff := hended.fixes_get_iff (coherent_start hm)
  have hzero (q : Rule) : (start m).progress.fixes.get q = 0 := by cases q <;> rfl
  simp only [hzero, Nat.zero_add] at hiff
  rwa [hfixes]

/-- **When the fixed set and the counts are the true ones:** if and only if no application both fixes a
variable and refutes. -/
theorem fixed_and_fixes_exact_iff (hm : m.Built) (rules : List Rule) :
    ∃ r as, m.presolve rules = .ok r ∧ m.Runs rules as r ∧
      (r.summary.fixed = fixedIndices r.model.vars ↔ ∀ x ∈ as, x.Fixes → ¬x.Refutes) ∧
        ((∀ q, r.summary.fixes.get q = as.countP fun x => x.rule = q ∧ x.Fixes) ↔
          ∀ x ∈ as, x.Fixes → ¬x.Refutes) ∧
        ∀ x ∈ as, x.Fixes → x.Refutes →
          x.rule = .signs ∧ r.summary.status = .infeasible x.index := by
  obtain ⟨r, as, hr, hruns⟩ := exists_runs hm.wellFormed rules
  refine ⟨r, as, hr, hruns, hruns.fixed_eq_iff hm.wellFormed, hruns.fixes_get_iff hm.wellFormed,
    fun x hx hf href => ?_⟩
  obtain ⟨b, hended, -⟩ := hruns.ended
  obtain ⟨hreach, -, e, happ⟩ := hended.madeFrom hx
  refine ⟨happ.rule_eq_signs ((coherent_start hm.wellFormed).reaches hreach) hf href, ?_⟩
  exact Status.eq_infeasible_of_index? (hended.eq_some_of_refutes hx href)

/-- A model in which one application fixes the first variable and then finds that the second one
cannot be zero. -/
def refusing : Model where
  vars := [⟨"x", .continuous, ⟨some 0, none⟩, none⟩, ⟨"y", .continuous, ⟨some 1, none⟩, none⟩]
  expressions := [⟨"c", .ofList [(0, -1), (1, -1)], ⟨some 0, none⟩, false, false⟩]
  options := .standard

theorem fixed_ne_refusing {r : Presolved} (h : refusing.presolve [.signs] = .ok r) :
    r.summary.fixed ≠ fixedIndices r.model.vars := by
  have hrun : ∀ r ∈ (refusing.presolve [.signs]).toOption,
      r.summary.fixed ≠ fixedIndices r.model.vars := by
    decide +kernel
  exact hrun r (by rw [h]; rfl)

theorem fixed_and_fixes_exact_iff_refusing : ∃ r as, refusing.presolve [.signs] = .ok r ∧
    refusing.Runs [.signs] as r ∧
      (∃ x ∈ as, x.Fixes ∧ x.Refutes) ∧ r.summary.status = .infeasible 0 := by
  have hm : refusing.Built := by decide +kernel
  obtain ⟨r, as, hr, hruns, hfixed, -, hlast⟩ := fixed_and_fixes_exact_iff hm [.signs]
  have hnot := hfixed.not.mp (fixed_ne_refusing hr)
  push Not at hnot
  have hrun : ∀ r ∈ (refusing.presolve [.signs]).toOption, r.summary.status = .infeasible 0 := by
    decide +kernel
  exact ⟨r, as, hr, hruns, hnot, hrun r (by rw [hr]; rfl)⟩

/-- Neither the fixed set nor the counts are the true ones at the end of every run. -/
theorem not_fixed_and_fixes_exact :
    (¬∀ m : Model, m.Built → ∀ rules r, m.presolve rules = .ok r →
      r.summary.fixed = fixedIndices r.model.vars) ∧
    ¬∀ m : Model, m.Built → ∀ rules r as, m.presolve rules = .ok r → m.Runs rules as r →
      ∀ q, r.summary.fixes.get q = as.countP fun x => x.rule = q ∧ x.Fixes := by
  have hm : refusing.Built := by decide +kernel
  obtain ⟨r, as, hr, hruns⟩ := exists_runs hm.wellFormed [.signs]
  have hne := fixed_ne_refusing hr
  refine ⟨fun h => hne (h refusing hm _ r hr), fun h => hne ?_⟩
  rw [hruns.fixed_eq_iff hm.wellFormed, ← hruns.fixes_get_iff hm.wellFormed]
  exact h refusing hm _ r as hr hruns

end Model

end ExactPresolve
