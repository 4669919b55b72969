import ExactPresolve.Proofs.Rule.Extension
import ExactPresolve.Proofs.Run.Reports
import ExactPresolve.Proofs.Run.Simulation

/-!
# Runs on models with further variables

Variables that are added to a built model occur in none of its expressions. A run on the larger model
makes the same applications: it leaves the further variables alone, and its fixed set differs by those
of them that were fixed from the start.

* `IndexSet.size_of_mem_iff`: the size of a set with further members behind the others;
* `State.ExtendedBy`, `State.ExtendedBy.after`: states of the two runs, before and after an application;
* `Model.Built.addVariables`: a built model with further variables;
* **`Model.presolve_addVariables`**: presolve and variables that do not occur.
-/

namespace ExactPresolve

variable {vs ws : List Variable}

/-- Further members behind the others add up with them. -/
theorem IndexSet.size_of_mem_iff {s t : IndexSet} {js : List ℕ} (hjs : js.Pairwise (· < ·))
    (hlt : ∀ i ∈ s, ∀ j ∈ js, i < j) (h : ∀ i, i ∈ t ↔ i ∈ s ∨ i ∈ js) :
    t.size = s.size + js.length := by
  have happ : (s.toList ++ js).Pairwise (· < ·) :=
    List.pairwise_append.mpr ⟨s.increasing, hjs, hlt⟩
  have heq : t.toList = s.toList ++ js :=
    eq_of_mem_iff t.increasing happ fun i => (h i).trans List.mem_append.symm
  rw [size, size, heq, List.length_append]

theorem le_of_mem_fixedFrom {i j : ℕ} (h : j ∈ fixedFrom i vs) : i ≤ j := by
  obtain ⟨k, -, rfl, -⟩ := mem_fixedFrom.mp h
  exact Nat.le_add_right i k

theorem fixedFrom_increasing (i : ℕ) (vs : List Variable) : (fixedFrom i vs).Pairwise (· < ·) := by
  induction vs generalizing i with
  | nil => exact .nil
  | cons v vs ih =>
    rw [fixedFrom]
    split_ifs
    · exact (ih (i + 1)).cons fun j hj => le_of_mem_fixedFrom hj
    · exact ih (i + 1)

theorem mem_fixedIndices_append {j : ℕ} : j ∈ fixedIndices (vs ++ ws) ↔
    j ∈ fixedIndices vs ∨ j ∈ fixedFrom vs.length ws := by
  rw [mem_fixedIndices, mem_fixedIndices, mem_fixedFrom]
  rcases lt_or_ge j vs.length with hj | hj
  · rw [List.getElem?_append_left hj]
    refine (or_iff_left ?_).symm
    rintro ⟨k, -, rfl, -⟩
    omega
  · obtain ⟨k, rfl⟩ := Nat.exists_eq_add_of_le hj
    rw [List.getElem?_append_right hj, List.getElem?_eq_none hj, Nat.add_sub_cancel_left]
    simp

/-! ## Applications -/

namespace State

variable {slack : ℚ} {a b : State} {r : Rule} {i n : ℕ} {e : Expression} {s : Step}

/-- An application finds the same fixed variables, since it only looks at those of its expression. -/
theorem Applies.fixedAmong_append (h : a.Applies slack r i e s) (ha : a.Coherent)
    (ws : List Variable) : Progress.fixedAmong (s.vars ++ ws) s.expression.terms.indices =
      Progress.fixedAmong s.vars s.expression.terms.indices := by
  have hr := (h.wellFormed ha).range s.expression (List.mem_of_getElem? h.getElem?_after)
  rw [vars_after] at hr
  exact List.filter_congr fun j hj => by rw [List.getElem?_append_left (hr j hj)]

/-- The second state is the first one, which has `n` variables, with further variables. -/
structure ExtendedBy (ws : List Variable) (n : ℕ) (a b : State) : Prop where
  length_vars : a.vars.length = n
  mem_fixed_lt : ∀ j ∈ a.fixed, j < n
  expressions : b.expressions = a.expressions
  vars : b.vars = a.vars ++ ws
  mem_fixed : ∀ j, j ∈ b.fixed ↔ j ∈ a.fixed ∨ j ∈ fixedFrom n ws
  fixes : b.progress.fixes = a.progress.fixes
  reports : b.reports = a.reports

namespace ExtendedBy

theorem size_fixed (h : ExtendedBy ws n a b) :
    b.fixed.size = a.fixed.size + (fixedFrom n ws).length :=
  IndexSet.size_of_mem_iff (fixedFrom_increasing n ws)
    (fun i hi _ hj => (h.mem_fixed_lt i hi).trans_le (le_of_mem_fixedFrom hj)) h.mem_fixed

theorem mem_fixed_iff (h : ExtendedBy ws n a b) {j : ℕ} (hj : j < n) : j ∈ b.fixed ↔ j ∈ a.fixed :=
  (h.mem_fixed j).trans (or_iff_left fun hw => absurd (le_of_mem_fixedFrom hw) hj.not_ge)

theorem after (h : ExtendedBy ws n a b) (ha : a.Coherent) (happ : a.Applies slack r i e s) :
    ExtendedBy ws n (a.after r i s) (b.after r i { s with vars := s.vars ++ ws }) where
  length_vars := by
    rw [vars_after]
    exact (happ.length_vars ha).trans h.length_vars
  mem_fixed_lt j := by
    rw [fixed_after]
    split_ifs
    · rw [IndexSet.mem_insertAll, Progress.mem_fixedAmong]
      rintro (⟨-, v, hv, -⟩ | hj)
      · rw [← h.length_vars, ← happ.length_vars ha]
        exact (List.getElem?_eq_some_iff.mp hv).1
      · exact h.mem_fixed_lt j hj
    · exact h.mem_fixed_lt j
  expressions := by rw [expressions_after, expressions_after, h.expressions]
  vars := by rw [vars_after, vars_after]
  mem_fixed j := by
    rw [fixed_after, fixed_after, happ.fixedAmong_append ha]
    split_ifs
    · rw [IndexSet.mem_insertAll, IndexSet.mem_insertAll, h.mem_fixed j, or_assoc]
    · exact h.mem_fixed j
  fixes := by rw [fixes_after, fixes_after, h.fixes]
  reports := by
    rw [reports_after, reports_after, h.reports]
    rfl

/-- **States with further variables stay so** while rules are applied. -/
theorem simulation (ws : List Variable) (n : ℕ) (slack : ℚ) :
    Simulation slack slack True (ExtendedBy ws n) where
  expression h he := ⟨_, by rwa [h.expressions], rfl, rfl⟩
  length h := by rw [h.expressions]
  grows h h' := by rw [h.size_fixed, h'.size_fixed, Nat.add_lt_add_iff_right]
  note {a b event event'} h he he' :=
    { h with reports := by rw [reports_note a he, reports_note b he', h.reports] }
  apply {a b r i e s} h ha hb happ _ := by
    obtain ⟨held, hh, hE⟩ := happ.effect ha
    have he : b.expressions[i]? = some e := by rw [h.expressions, happ.getElem?_eq]
    have hr := (ha.ready happ.getElem?_eq).range
    have hfixed : ∀ j ∈ e.terms.indices, (j ∈ b.fixed ↔ j ∈ a.fixed) := fun j hj =>
      h.mem_fixed_iff (h.length_vars ▸ hr j hj)
    have hready := hb.ready he
    rw [h.vars] at hready
    have happly := (hE.append hr hfixed ws).apply_eq happ.inForce hready
      (Expression.heldValue_append hfixed hh)
    exact ⟨e, _, ⟨he, happ.inForce, by rw [h.vars, happly]⟩, h.after ha happ⟩

end ExtendedBy

theorem extendedBy_start (m : Model) (ws : List Variable) :
    ExtendedBy ws m.vars.length (start m) (start { m with vars := m.vars ++ ws }) where
  length_vars := rfl
  mem_fixed_lt j hj := by
    obtain ⟨v, hv, -⟩ := mem_fixedIndices.mp hj
    exact (List.getElem?_eq_some_iff.mp hv).1
  expressions := rfl
  vars := rfl
  mem_fixed j := mem_fixedIndices_append
  fixes := rfl
  reports := rfl

end State

/-! ## Runs of presolve -/

open State

namespace Model

theorem Built.addVariables {m m' : Model} (hm : m.Built)
    (h : ws.foldlM Model.addVariable m = .ok m') : m'.Built ∧ m' = { m with vars := m.vars ++ ws } := by
  induction ws generalizing m with
  | nil =>
    obtain rfl := Except.ok.inj h
    exact ⟨hm, by rw [List.append_nil]⟩
  | cons w ws ih =>
    rw [List.foldlM_cons] at h
    cases hw : m.addVariable w with
    | error err => rw [hw] at h; cases h
    | ok m₁ =>
      rw [hw] at h
      obtain ⟨hm', rfl⟩ := ih (hm.addVariable hw) h
      obtain ⟨-, rfl⟩ := addVariable_eq_ok hw
      exact ⟨hm', by rw [List.append_assoc]; rfl⟩

/-- **Variables that do not occur have no influence.** They stay as they are, and join the fixed set if
their bounds are equal. -/
theorem presolve_addVariables {m m' : Model} (hm : m.Built) (h : ws.foldlM addVariable m = .ok m')
    (rules : List Rule) :
    ∃ r r', m.presolve rules = .ok r ∧ m'.presolve rules = .ok r' ∧
      r.model.vars.length = m.vars.length ∧
      r'.model = { r.model with vars := r.model.vars ++ ws } ∧
      r'.summary = { r.summary with fixed := r'.summary.fixed } ∧
      (∀ j, j ∈ r'.summary.fixed ↔ j ∈ r.summary.fixed ∨
        ∃ k v, j = m.vars.length + k ∧ ws[k]? = some v ∧ v.IsFixed) ∧
      Reporting.collect.reports r'.events = Reporting.collect.reports r.events := by
  obtain ⟨hm', heq⟩ := hm.addVariables h
  have hslack : m'.options.slack = m.options.slack := by rw [heq]
  have hlimit : m'.options.iterationLimit = m.options.iterationLimit := by rw [heq]
  have hstart : ExtendedBy ws m.vars.length (start m) (start m') := heq ▸ extendedBy_start m ws
  have hsim : Simulation m.options.slack m'.options.slack True (ExtendedBy ws m.vars.length) :=
    hslack ▸ ExtendedBy.simulation ws m.vars.length m.options.slack
  obtain ⟨w, w', hw, hw', hsame⟩ := hsim.presolve hlimit hm.wellFormed hm'.wellFormed hstart rules
  obtain ⟨hstatus, hpasses, hR⟩ := hsame fun _ => trivial
  have hexp : w'.expressions = w.expressions := hR.expressions
  have hvars : w'.progress.vars = w.progress.vars ++ ws := hR.vars
  have hfixes : w'.progress.fixes = w.progress.fixes := hR.fixes
  refine ⟨_, _, hw, hw', hR.length_vars, ?_, ?_, fun j => ?_, ?_⟩
  · simp only [presolved, hexp, hvars, heq]
  · simp only [presolved, hstatus, hpasses, hexp, hfixes]
  · exact (hR.mem_fixed j).trans (or_congr_right mem_fixedFrom)
  · rw [collect_presolved, collect_presolved]
    exact hR.reports

/-- A model whose second expression has more free variables than a rule can use, which its number of
terms shows at once as long as few variables are fixed. -/
def roomy : Model where
  vars := [⟨"x", .continuous, ⟨none, some 8⟩, none⟩, ⟨"y", .continuous, ⟨some 0, some 9⟩, none⟩,
    ⟨"z", .integer, ⟨some 0, some 5⟩, none⟩, ⟨"w", .integer, ⟨some 1, none⟩, none⟩]
  expressions := [⟨"c", .ofList [(0, 2)], .point 6, false, false⟩,
    ⟨"d", .ofList [(0, 1), (1, 2), (2, -1), (3, 1)], ⟨some 0, none⟩, false, false⟩,
    ⟨"e", .ofList [(0, 1), (3, 2)], .point 7, false, false⟩]
  options := ⟨0, none⟩

theorem presolve_addVariables_roomy :
    let ws : List Variable := [⟨"p", .continuous, ⟨some 1, some 1⟩, none⟩,
      ⟨"q", .integer, ⟨none, some 4⟩, none⟩, ⟨"s", .continuous, ⟨some (1 / 2), some (1 / 2)⟩, none⟩]
    ∃ m' r r', ws.foldlM addVariable roomy = .ok m' ∧ roomy.presolve [.signs, .fewFree] = .ok r ∧
      m'.presolve [.signs, .fewFree] = .ok r' ∧ r.summary.fixed = .ofList [0, 3] ∧
        r'.summary.fixed = .ofList [0, 3, 4, 6] ∧
          r'.model = { r.model with vars := r.model.vars ++ ws } := by
  intro ws
  have hm : roomy.Built := by decide +kernel
  have h : ws.foldlM addVariable roomy = .ok { roomy with vars := roomy.vars ++ ws } := by
    decide +kernel
  obtain ⟨r, r', hr, hr', -, hmodel, -⟩ := presolve_addVariables hm h [.signs, .fewFree]
  have hsmall : ∀ r ∈ (roomy.presolve [.signs, .fewFree]).toOption,
      r.summary.fixed = .ofList [0, 3] := by
    decide +kernel
  have hlarge : ∀ r' ∈ ({ roomy with vars := roomy.vars ++ ws }.presolve [.signs, .fewFree]).toOption,
      r'.summary.fixed = .ofList [0, 3, 4, 6] := by
    decide +kernel
  exact ⟨_, r, r', h, hr, hr', hsmall r (by rw [hr]; rfl), hlarge r' (by rw [hr']; rfl), hmodel⟩

end Model

end ExactPresolve
