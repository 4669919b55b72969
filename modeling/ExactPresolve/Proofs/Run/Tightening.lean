import ExactPresolve.Proofs.Run.Faultless
import ExactPresolve.Proofs.Run.Resume
import ExactPresolve.Proofs.Run.Variables

/-!
# Runs one after the other

Each expression, each pass and each run may fix variables at values that are beyond their bounds by
the slack. Such moves do not add up, since a variable that was fixed once is never moved again.

* `Model.presolveEach`: runs one after the other, each with rules and a limit of its own;
* `Model.exists_presolveEach`: all of the runs succeed;
* **`Model.presolveEach_tightens`**: bounds become tighter, up to one slack in total.
-/

namespace ExactPresolve

namespace Model

/-- Runs of presolve one after the other, each on what the one before has left. Each is given by its
rules and its limit on the number of passes. -/
def presolveEach : List (List Rule × Option ℕ) → Model → Except Fault Model
  | [], m => .ok m
  | (rules, limit) :: runs, m => do
    let r ← (m.limited limit).presolve rules
    presolveEach runs r.model

/-- **All of the runs succeed**, by induction on their list: what a run leaves is well formed again. -/
theorem exists_presolveEach {m : Model} (hm : WellFormed m.expressions m.vars)
    (runs : List (List Rule × Option ℕ)) :
    ∃ m', m.presolveEach runs = .ok m' ∧ WellFormed m'.expressions m'.vars ∧
      m'.options.slack = m.options.slack ∧ BecomeEach m.options.slack m.vars m'.vars := by
  induction runs generalizing m with
  | nil => exact ⟨m, rfl, hm, rfl, .refl _ m.vars⟩
  | cons run runs ih =>
    obtain ⟨rules, limit⟩ := run
    obtain ⟨r, as, hr, hruns⟩ := exists_runs (m := m.limited limit) hm rules
    obtain ⟨m', hm', hw, hslack, hb⟩ := ih (wellFormed_presolve (m := m.limited limit) hm hr)
    have hsame : r.model.options.slack = m.options.slack := by
      rw [hruns.options_eq]
      rfl
    rw [hsame] at hslack hb
    refine ⟨m', ?_, hw, hslack, BecomeEach.trans (hruns.becomeEach hm) hb⟩
    rw [presolveEach, hr]
    exact hm'

/-- **Bounds become tighter, up to one slack in total**, however many runs there are. -/
theorem presolveEach_tightens {m : Model} (hm : m.Built) (hs : 0 ≤ m.options.slack)
    (runs more : List (List Rule × Option ℕ)) :
    ∃ m₁ m₂, m.presolveEach runs = .ok m₁ ∧ m₁.presolveEach more = .ok m₂ ∧
      ∀ (k : ℕ) (v : Variable), m.vars[k]? = some v →
        ∃ v₁ v₂, m₁.vars[k]? = some v₁ ∧ m₂.vars[k]? = some v₂ ∧
          (∀ l ∈ v.bounds.lower, ∃ l' ∈ v₂.bounds.lower, l - m.options.slack ≤ l') ∧
          (∀ u ∈ v.bounds.upper, ∃ u' ∈ v₂.bounds.upper, u' ≤ u + m.options.slack) ∧
          (m.options.slack = 0 → v₂.bounds ⊆ v₁.bounds) := by
  obtain ⟨m₁, hm₁, hw₁, hslack, hb₁⟩ := exists_presolveEach hm.wellFormed runs
  obtain ⟨m₂, hm₂, -, -, hb₂⟩ := exists_presolveEach hw₁ more
  rw [hslack] at hb₂
  refine ⟨m₁, m₂, hm₁, hm₂, fun k v hv => ?_⟩
  obtain ⟨v₁, hv₁, hvv₁⟩ := hb₁.exists_after hv
  obtain ⟨v₂, hv₂, hvv₂⟩ := hb₂.exists_after hv₁
  obtain ⟨hl, hu⟩ := Bounds.subset_widen_iff.mp ((hvv₁.trans hvv₂).subset_widen hs)
  refine ⟨v₁, v₂, hv₁, hv₂, hl, hu, fun h0 => ?_⟩
  have hsub := hvv₂.subset_widen hs
  rwa [h0, Bounds.widen_zero] at hsub

/-- A model whose variables are fixed beyond their bounds, the first one in the first pass and the
second one in the pass after it. -/
def drifting : Model where
  vars := [⟨"x", .continuous, ⟨some 0, some 1⟩, none⟩, ⟨"y", .continuous, ⟨some 0, some 2⟩, none⟩,
    ⟨"z", .integer, ⟨some 0, some 3⟩, none⟩]
  expressions := [⟨"c", .ofList [(0, 1), (1, 1), (2, 1)], .point (27 / 4), false, false⟩,
    ⟨"d", .ofList [(0, 2)], .point (5 / 2), false, false⟩,
    ⟨"e", .ofList [(2, 4)], ⟨some 9, none⟩, false, false⟩]
  options := ⟨1 / 2, none⟩

theorem presolveEach_tightens_drifting : ∃ m₁ m₂ y,
    drifting.presolveEach [([.fewFree], some 1)] = .ok m₁ ∧
      m₁.presolveEach [([.signs], some 0), ([.signs, .fewFree], none)] = .ok m₂ ∧
        m₂.vars[1]? = some y ∧ (∃ l ∈ y.bounds.lower, (-1 / 2 : ℚ) ≤ l) ∧
          ∃ u ∈ y.bounds.upper, (2 : ℚ) < u ∧ u ≤ 5 / 2 := by
  have hm : drifting.Built := by decide +kernel
  obtain ⟨m₁, m₂, h₁, h₂, hbounds⟩ := presolveEach_tightens hm (by decide +kernel)
    [([.fewFree], some 1)] [([.signs], some 0), ([.signs, .fewFree], none)]
  have hrun : ∀ m₁ ∈ (drifting.presolveEach [([.fewFree], some 1)]).toOption,
      ∀ m₂ ∈ (m₁.presolveEach [([.signs], some 0), ([.signs, .fewFree], none)]).toOption,
        ∀ y ∈ m₂.vars[1]?, ∀ u ∈ y.bounds.upper, (2 : ℚ) < u := by
    decide +kernel
  have hbeyond := hrun m₁ (by rw [h₁]; rfl) m₂ (by rw [h₂]; rfl)
  obtain ⟨-, y, -, hy, hlower, hupper, -⟩ := hbounds 1 _ rfl
  obtain ⟨l, hl, hle⟩ := hlower 0 rfl
  obtain ⟨u, hu, hue⟩ := hupper 2 rfl
  refine ⟨m₁, m₂, y, h₁, h₂, hy, ⟨l, hl, ?_⟩, u, hu, hbeyond y hy u hu, ?_⟩
  · exact le_trans (by decide +kernel) hle
  · exact hue.trans (by decide +kernel)

end Model

end ExactPresolve
