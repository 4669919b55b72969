import ExactPresolve.Proofs.Rule.Renaming
import ExactPresolve.Proofs.Run.Simulation
import Mathlib.Logic.Equiv.Fin.Basic

/-!
# Runs on renamed models

A permutation of the indices of the variables rearranges the variables of a model, and with them the
terms of its expressions and the fixed set of a run. A run on the renamed model makes the same
applications. Only reports that one application gives can change their order, since the variables of
its expression are looked at in the order of their indices.

* `indexPerm`: a permutation of the indices of the variables, as one of all indices;
* `renameVars`, `Model.rename`: renamed variables and models;
* `State.RenamedBy`, `State.RenamedBy.after`: states of the two runs, before and after an application;
* **`Model.presolve_rename`**: presolve commutes with renaming.
-/

namespace ExactPresolve

variable {σ : Equiv.Perm ℕ} {vs ws : List Variable} {es : List Expression}

namespace IndexSet

theorem size_rename (s : IndexSet) : (s.rename σ).size = s.size := by
  have hn := s.nodup_toList.map σ.injective
  have hperm := (List.perm_ext_iff_of_nodup (s.rename σ).nodup_toList hn).mpr fun _ => mem_ofList
  exact hperm.length_eq.trans (List.length_map σ)

end IndexSet

/-! ## Renamed variables -/

/-- A permutation of the indices below `n` as one of all indices, where the others stay. -/
def indexPerm {n : ℕ} (τ : Equiv.Perm (Fin n)) : Equiv.Perm ℕ := τ.extendDomain Fin.equivSubtype

theorem indexPerm_of_lt {n j : ℕ} (τ : Equiv.Perm (Fin n)) (hj : j < n) :
    indexPerm τ j = τ ⟨j, hj⟩ :=
  τ.extendDomain_apply_subtype Fin.equivSubtype hj

theorem indexPerm_of_not_lt {n j : ℕ} (τ : Equiv.Perm (Fin n)) (hj : ¬j < n) : indexPerm τ j = j :=
  τ.extendDomain_apply_not_subtype Fin.equivSubtype hj

theorem indexPerm_lt_iff {n : ℕ} (τ : Equiv.Perm (Fin n)) (j : ℕ) : indexPerm τ j < n ↔ j < n := by
  by_cases hj : j < n
  · rw [indexPerm_of_lt τ hj]
    exact iff_of_true (τ ⟨j, hj⟩).isLt hj
  · rw [indexPerm_of_not_lt τ hj]

/-- The variables, rearranged such that the one of index `j` gets the index `σ j`. -/
def renameVars (σ : Equiv.Perm ℕ) (vs : List Variable) : List Variable :=
  vs.mapIdx fun k v => vs.getD (σ.symm k) v

theorem renames_renameVars (hσ : ∀ j, σ j < vs.length ↔ j < vs.length) :
    Renames σ vs (renameVars σ vs) where
  length_eq := List.length_mapIdx
  getElem?_eq j := by
    rw [renameVars, List.getElem?_mapIdx, σ.symm_apply_apply]
    by_cases hj : j < vs.length
    · simp [hj, (hσ j).mpr hj]
    · simp [hj, (hσ j).not.mpr hj]

namespace Renames

theorem lt_iff (h : Renames σ vs ws) (j : ℕ) : σ j < vs.length ↔ j < vs.length := by
  have hnone : ws[σ j]? = none ↔ vs[j]? = none := by rw [h.getElem?_eq j]
  rw [List.getElem?_eq_none_iff, List.getElem?_eq_none_iff, h.length_eq] at hnone
  omega

/-- There is no other way to rearrange the variables. -/
theorem eq (h : Renames σ vs ws) : ws = renameVars σ vs := by
  refine List.ext_getElem? fun k => ?_
  obtain ⟨j, rfl⟩ := σ.surjective k
  exact (h.getElem?_eq j).trans ((renames_renameVars h.lt_iff).getElem?_eq j).symm

theorem fixedIndices_eq (h : Renames σ vs ws) : fixedIndices ws = (fixedIndices vs).rename σ :=
  IndexSet.eq_rename fun j => by rw [mem_fixedIndices, mem_fixedIndices, h.getElem?_eq j]

theorem wellFormed (h : Renames σ vs ws) (hw : WellFormed es vs) :
    WellFormed (es.map (·.rename σ)) ws := by
  refine ⟨fun f hf k hk => ?_, fun f hf => ?_, fun w hw' => ?_⟩
  · obtain ⟨e, he, rfl⟩ := List.mem_map.mp hf
    obtain ⟨j, rfl⟩ := σ.surjective k
    have hj := hw.range e he j (Terms.mem_indices_rename.mp hk)
    rw [h.length_eq]
    exact (h.lt_iff j).mpr hj
  · obtain ⟨e, he, rfl⟩ := List.mem_map.mp hf
    exact hw.limits e he
  · obtain ⟨k, hk⟩ := List.mem_iff_getElem?.mp hw'
    obtain ⟨j, rfl⟩ := σ.surjective k
    exact hw.bounds w (List.mem_of_getElem? ((h.getElem?_eq j).symm.trans hk))

end Renames

/-! ## Applications -/

namespace State

variable {a b : State} {r : Rule} {i : ℕ} {e : Expression} {s t : Step}

/-- The second state is the first one with renamed variables, up to the order of the reports. -/
structure RenamedBy (σ : Equiv.Perm ℕ) (a b : State) : Prop where
  expressions : b.expressions = a.expressions.map (·.rename σ)
  vars : Renames σ a.vars b.vars
  fixed : b.fixed = a.fixed.rename σ
  fixes : b.progress.fixes = a.progress.fixes
  reports : (Reporting.collect.reports b.progress.events).Perm
    (Reporting.collect.reports a.progress.events)

theorem RenamedBy.getElem?_eq (h : RenamedBy σ a b) (he : a.expressions[i]? = some e) :
    b.expressions[i]? = some (e.rename σ) := by
  rw [h.expressions, List.getElem?_map, he, Option.map_some]

theorem mem_fixedAmong_rename (h : s.Renames σ t) {j : ℕ} :
    σ j ∈ Progress.fixedAmong t.vars t.expression.terms.indices ↔
      j ∈ Progress.fixedAmong s.vars s.expression.terms.indices := by
  rw [Progress.mem_fixedAmong, Progress.mem_fixedAmong, h.expression, h.vars.getElem?_eq j]
  exact and_congr_left' Terms.mem_indices_rename

theorem RenamedBy.after (h : RenamedBy σ a b) (r : Rule) (i : ℕ) (hst : s.Renames σ t) :
    RenamedBy σ (a.after r i s) (b.after r i t) where
  expressions := by
    rw [expressions_after, expressions_after, h.expressions, hst.expression, List.map_set]
  vars := by
    rw [vars_after, vars_after]
    exact hst.vars
  fixed := by
    rw [fixed_after, fixed_after, apply_ite (IndexSet.rename σ), h.fixed, hst.fixedAny]
    refine if_congr (by rw [hst.expression]; rfl) (IndexSet.eq_rename fun j => ?_) rfl
    rw [IndexSet.mem_insertAll, IndexSet.mem_insertAll, mem_fixedAmong_rename hst,
      IndexSet.mem_rename]
  fixes := by
    rw [fixes_after, fixes_after, hst.fixedAny, hst.expression, h.fixes]
    rfl
  reports := by
    rw [events_after, events_after, Reporting.collect_append, Reporting.collect_append]
    exact h.reports.append (hst.events.filterMap _)

/-- **Renamed states stay so** while rules are applied. -/
theorem RenamedBy.simulation (σ : Equiv.Perm ℕ) (slack : ℚ) :
    Simulation slack slack True (RenamedBy σ) where
  expression h he := ⟨_, h.getElem?_eq he, rfl, rfl⟩
  length h := by rw [h.expressions, List.length_map]
  grows h h' := by rw [h.fixed, h'.fixed, IndexSet.size_rename, IndexSet.size_rename]
  note {a b event event'} h he he' := by
    refine ⟨h.expressions, h.vars, h.fixed, h.fixes, ?_⟩
    simp only [State.note, Progress.note, Reporting.collect_append_of_none _ he,
      Reporting.collect_append_of_none _ he']
    exact h.reports
  apply {a b r i e s} h ha hb happ _ := by
    obtain ⟨held, hh, hE⟩ := happ.effect ha
    have hf := h.getElem?_eq happ.getElem?_eq
    have hready := hb.ready hf
    rw [h.fixed] at hready
    obtain ⟨t, hE', hst⟩ := hE.rename h.vars
    have happly := hE'.apply_eq happ.inForce hready (Expression.heldValue_rename h.vars hh)
    refine ⟨_, t, ⟨hf, happ.inForce, ?_⟩, h.after r i hst⟩
    rw [h.fixed, happly]

end State

/-! ## Runs of presolve -/

open State

namespace Model

/-- The model with renamed variables: the variables are rearranged, and the terms refer to them by
their new indices. -/
def rename (σ : Equiv.Perm ℕ) (m : Model) : Model :=
  { m with vars := renameVars σ m.vars, expressions := m.expressions.map (·.rename σ) }

/-- **Presolve commutes with renaming**, up to the order of the reports. -/
theorem presolve_rename {m : Model} (hm : m.Built) (rules : List Rule)
    (τ : Equiv.Perm (Fin m.vars.length)) :
    ∃ r r', m.presolve rules = .ok r ∧ (m.rename (indexPerm τ)).presolve rules = .ok r' ∧
      r'.model = r.model.rename (indexPerm τ) ∧
      r'.summary = { r.summary with fixed := r.summary.fixed.rename (indexPerm τ) } ∧
      (Reporting.collect.reports r'.events).Perm (Reporting.collect.reports r.events) := by
  have hvars : Renames (indexPerm τ) m.vars (renameVars (indexPerm τ) m.vars) :=
    renames_renameVars (indexPerm_lt_iff τ)
  have hstart : RenamedBy (indexPerm τ) (start m) (start (m.rename (indexPerm τ))) :=
    ⟨rfl, hvars, hvars.fixedIndices_eq, rfl, .refl _⟩
  have hsim : Simulation m.options.slack (m.rename (indexPerm τ)).options.slack True
      (RenamedBy (indexPerm τ)) := RenamedBy.simulation _ _
  obtain ⟨w, w', hw, hw', hsame⟩ := hsim.presolve rfl hm.wellFormed
    (hvars.wellFormed hm.wellFormed) hstart rules
  obtain ⟨hstatus, hpasses, hR⟩ := hsame fun _ => trivial
  have hexp : w'.expressions = w.expressions.map (·.rename (indexPerm τ)) := hR.expressions
  have hvars' : w'.progress.vars = renameVars (indexPerm τ) w.progress.vars := hR.vars.eq
  have hfixed : w'.progress.fixed = w.progress.fixed.rename (indexPerm τ) := hR.fixed
  have hfixes : w'.progress.fixes = w.progress.fixes := hR.fixes
  refine ⟨_, _, hw, hw', ?_, ?_, ?_⟩
  · simp only [presolved, hexp, hvars', rename]
  · simp only [presolved, hstatus, hpasses, hexp, hfixed, hfixes, List.countP_map]
    rfl
  · rw [collect_presolved, collect_presolved]
    exact hR.reports

/-- A model that is found infeasible at its second expression, where two variables refuse zero. -/
def contested : Model where
  vars := [⟨"x", .continuous, ⟨some 1, none⟩, none⟩, ⟨"y", .integer, ⟨some 2, some 8⟩, none⟩,
    ⟨"z", .integer, ⟨none, some 9⟩, none⟩, ⟨"w", .continuous, ⟨some 0, none⟩, none⟩]
  expressions := [⟨"c", .ofList [(2, 2)], .point 6, false, false⟩,
    ⟨"d", .ofList [(0, -1), (1, -3), (2, 2), (3, -1 / 2)], ⟨some 6, none⟩, false, false⟩]
  options := ⟨1 / 2, none⟩

theorem presolve_rename_contested : ∃ r r', contested.presolve [.signs, .fewFree] = .ok r ∧
    (contested.rename (indexPerm (n := 4) Fin.revPerm)).presolve [.signs, .fewFree] = .ok r' ∧
      r.summary.fixed = .ofList [2] ∧ r'.summary.fixed = .ofList [1] ∧
        r'.model = r.model.rename (indexPerm (n := 4) Fin.revPerm) ∧
          (Reporting.collect.reports r.events).map (·.name) = ["x", "y"] ∧
            (Reporting.collect.reports r'.events).Perm (Reporting.collect.reports r.events) := by
  have hm : contested.Built := by decide +kernel
  obtain ⟨r, r', hr, hr', hmodel, hsummary, hreports⟩ :=
    presolve_rename hm [.signs, .fewFree] Fin.revPerm
  have hrun : ∀ r ∈ (contested.presolve [.signs, .fewFree]).toOption,
      r.summary.fixed = .ofList [2] ∧
        r.summary.fixed.rename (indexPerm (n := 4) Fin.revPerm) = .ofList [1] ∧
          (Reporting.collect.reports r.events).map (·.name) = ["x", "y"] := by
    decide +kernel
  obtain ⟨hfixed, hrenamed, hnames⟩ := hrun r (by rw [hr]; rfl)
  refine ⟨r, r', hr, hr', hfixed, ?_, hmodel, hnames, hreports⟩
  rw [hsummary]
  exact hrenamed

end Model

end ExactPresolve
