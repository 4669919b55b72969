import ExactPresolve.Proofs.Rule.Apply
import ExactPresolve.Proofs.Rule.Solutions

/-!
# Which points one application of a rule keeps

The points are those within the bounds of all variables, with integers for integer variables. An
application should keep the points that satisfy the expression, and no others.

The rule for few free variables does so without slack, whatever the bounds and the limits are. The
rule for signs draws its conclusion from the signs of the coefficients alone. It is right about
variables that are not negative. If a variable may be negative, the free terms can get to the other
side of zero as well, and the points at which they do so are lost.

* `AdmitsEach`: the points that the variables admit;
* **`Rule.fewFree_exact`**: without slack, the rule for few free variables keeps exactly the points
  that satisfy the expression;
* `Signs.Opposed`: a limit is opposed by the signs of the free terms;
* **`Rule.signs_keeps_iff`**: where a limit is opposed, the rule for signs keeps just the points
  with zeros for the free variables.
-/

namespace ExactPresolve

/-- The point has a coordinate for each variable, which the variable admits. -/
def AdmitsEach (vs : List Variable) (point : List ℚ) : Prop :=
  point.length = vs.length ∧ ∀ c ∈ vs.zip point, c.1.Admits c.2

instance (vs : List Variable) (point : List ℚ) : Decidable (AdmitsEach vs point) :=
  inferInstanceAs (Decidable (_ ∧ _))

variable {slack held : ℚ} {fixed : IndexSet} {e : Expression} {vs : List Variable} {r : Rule}
  {s : Step} {x : ℕ → ℚ} {point : List ℚ}

theorem admitsEach_iff :
    AdmitsEach vs point ↔ point.length = vs.length ∧ Fits vs (valuation point) :=
  and_congr_right fits_iff

/-- The points that satisfy an expression, seen as valuations. -/
theorem admitsEach_and_isSatisfiedBy_iff (hr : ∀ j ∈ e.terms.indices, j < vs.length) :
    AdmitsEach vs point ∧ e.IsSatisfiedBy point ↔
      point.length = vs.length ∧ Fits vs (valuation point) ∧ e.Holds (valuation point) := by
  rw [admitsEach_iff, and_assoc]
  refine and_congr_right fun hlen => and_congr_right fun _ => ?_
  exact Expression.isSatisfiedBy_iff fun j hj => hlen ▸ hr j hj

/-! ## Few free variables -/

/-- **Without slack, the rule for few free variables is exact:** the same points satisfy the expression
and the variables before and after. -/
theorem Rule.fewFree_exact (he : e.InForce) (hr : ∀ j ∈ e.terms.indices, j < vs.length)
    (hf : e.HeldIn fixed vs) :
    ∃ s, Rule.fewFree.apply 0 fixed e vs = .ok s ∧ ∀ point : List ℚ,
      (AdmitsEach vs point ∧ e.IsSatisfiedBy point ↔
        s.expression.infeasible = false ∧ AdmitsEach s.vars point ∧
          s.expression.IsSatisfiedBy point) ∧
      (s.expression.redundant = true →
        (AdmitsEach vs point ∧ e.IsSatisfiedBy point ↔
          s.expression.infeasible = false ∧ AdmitsEach s.vars point)) := by
  obtain ⟨held, hh⟩ := hf.exists_heldValue
  obtain ⟨s, hE⟩ := Effect.exists_fewFree 0 held fixed hr
  have hlen : s.vars.length = vs.length := hE.changes.1
  have hr' : ∀ j ∈ s.expression.terms.indices, j < s.vars.length := by
    rwa [hE.terms_eq, hlen]
  refine ⟨s, hE.apply_fewFree_eq he hh, fun point => ?_⟩
  rw [admitsEach_and_isSatisfiedBy_iff hr, admitsEach_and_isSatisfiedBy_iff hr', admitsEach_iff,
    hlen]
  have hkeep (h : Fits vs (valuation point) ∧ e.Holds (valuation point)) :
      s.expression.infeasible = false ∧ Fits s.vars (valuation point) ∧
        s.expression.Holds (valuation point) :=
    hE.keeps_solution le_rfl he hf hh h.1 h.2 nofun
  have hback (hi : s.expression.infeasible = false) (hx : Fits s.vars (valuation point))
      (hex : s.expression.redundant = false → s.expression.Holds (valuation point)) :
      Fits vs (valuation point) ∧ e.Holds (valuation point) :=
    hE.solution_before_of_implied le_rfl (fun hd => hE.implied_of_fewFree he hf hh hd hi) hx hex
  constructor
  · constructor
    · rintro ⟨hp, h⟩
      obtain ⟨hi, hx, hex⟩ := hkeep h
      exact ⟨hi, hp, hx, hex⟩
    · rintro ⟨hi, hp, hx, hex⟩
      exact ⟨hp, hback hi hx fun _ => hex⟩
  · intro hd
    constructor
    · rintro ⟨hp, h⟩
      obtain ⟨hi, hx, -⟩ := hkeep h
      exact ⟨hi, hp, hx⟩
    · rintro ⟨hi, hp, hx⟩
      exact ⟨hp, hback hi hx fun h => by cases hd.symm.trans h⟩

/-- The limits of `z - 2 * n`, where `z` is fixed at 2, leave the integers from 1 to 3 for `n`. -/
def slope : Expression := ⟨"c", .ofList [(0, -2), (1, 1)], ⟨some (-5), some 0⟩, false, false⟩

def slopeVars : List Variable :=
  [⟨"n", .integer, ⟨none, some (9 / 2)⟩, none⟩, ⟨"z", .continuous, .point 2, none⟩]

theorem Rule.fewFree_exact_slope :
    ∃ s, Rule.fewFree.apply 0 (.ofList [1]) slope slopeVars = .ok s ∧
      (s.vars.map (·.bounds) = [⟨some 1, some 3⟩, .point 2]) ∧
      ∀ point, AdmitsEach slopeVars point ∧ slope.IsSatisfiedBy point ↔
        AdmitsEach s.vars point := by
  have hheld : slope.HeldIn (.ofList [1]) slopeVars := by decide +kernel
  obtain ⟨s, hs, hpoints⟩ := Rule.fewFree_exact (by decide +kernel) (by decide +kernel) hheld
  have hrun : ∀ s ∈ (Rule.fewFree.apply 0 (.ofList [1]) slope slopeVars).toOption,
      s.vars.map (·.bounds) = [⟨some 1, some 3⟩, .point 2] ∧ s.expression.redundant = true ∧
        s.expression.infeasible = false := by
    decide +kernel
  obtain ⟨hvars, hd, hi⟩ := hrun s (by rw [hs]; rfl)
  refine ⟨s, hs, hvars, fun point => ?_⟩
  rw [(hpoints point).2 hd]
  exact and_iff_right hi

/-! ## Signs -/

namespace Signs

/-- One of the limits lies on the side of zero that the signs of the free terms point away from, or
is zero itself. -/
def Opposed (ts : Terms) (fixed : IndexSet) (limits : Bounds) : Prop :=
  ∃ d, ∃ l ∈ limits.get d, Opposes ts fixed d l

theorem opposed_iff {ts : Terms} {limits : Bounds} : Opposed ts fixed limits ↔
    (∃ l ∈ limits.lower, Opposes ts fixed .lower l) ∨
      ∃ u ∈ limits.upper, Opposes ts fixed .upper u := by
  constructor
  · rintro ⟨d, h⟩
    cases d with
    | lower => exact .inl h
    | upper => exact .inr h
  · rintro (h | h)
    · exact ⟨.lower, h⟩
    · exact ⟨.upper, h⟩

instance (ts : Terms) (fixed : IndexSet) (limits : Bounds) :
    Decidable (Opposed ts fixed limits) :=
  decidable_of_iff _ opposed_iff.symm

end Signs

/-- Where a limit is opposed, an application of the rule for signs keeps a solution if and only if
all its free variables are zero. -/
theorem Effect.kept_iff (h : Effect slack fixed e vs held .signs s) (hs : 0 ≤ slack)
    (he : e.InForce) (hr : e.Ready fixed vs) (hh : e.heldValue fixed vs = .ok held)
    (hx : Fits vs x) (hex : e.Holds x) :
    s.expression.infeasible = false ∧ Fits s.vars x ↔
      (Signs.Opposed e.terms fixed (e.limits.subtract held) →
        ∀ j ∈ e.terms.freeIndices fixed, x j = 0) := by
  constructor
  · rintro ⟨hi, hfit⟩ ⟨d, l, hd, ho⟩ j hj
    cases h with
    | unopposed hno => exact absurd ho (hno d l hd)
    | zeroed _ _ hz =>
      have hlt := hr.range j (Terms.mem_freeIndices.mp hj).1
      exact eq_zero_of_zeroed hj hlt hz fun w hw => (hfit j w hw).1
    | _ => exact absurd hi (by simp [Expression.marked])
  · intro hzero
    by_cases ho : Signs.Opposed e.terms fixed (e.limits.subtract held)
    · obtain ⟨hi, hfit, -⟩ := h.keeps_solution hs he hr.held hh hx hex
        fun _ j hj => (hzero ho j hj).ge
      exact ⟨hi, hfit⟩
    · cases h with
      | unopposed => exact ⟨he.2, hx⟩
      | zeroed hd ho' => exact absurd ⟨_, _, hd, ho'⟩ ho
      | refusedZero hd ho' => exact absurd ⟨_, _, hd, ho'⟩ ho
      | unreachable hd ho' => exact absurd ⟨_, _, hd, ho'⟩ ho

/-- **Where a limit is opposed, the rule for signs keeps just the points with zeros for the free
variables**, and elsewhere it keeps all points. -/
theorem Rule.signs_keeps_iff (hs : 0 ≤ slack) (he : e.InForce) (hr : e.Ready fixed vs) :
    ∃ limits s, e.freeLimits fixed vs = .ok limits ∧ Rule.signs.apply slack fixed e vs = .ok s ∧
      ∀ point, AdmitsEach vs point → e.IsSatisfiedBy point →
        (s.expression.infeasible = false ∧ AdmitsEach s.vars point ↔
          (Signs.Opposed e.terms fixed limits →
            ∀ j ∈ e.terms.freeIndices fixed, valuation point j = 0)) ∧
        ((∀ j ∈ e.terms.freeIndices fixed, 0 ≤ valuation point j) →
          s.expression.infeasible = false ∧ AdmitsEach s.vars point) := by
  obtain ⟨held, s, hh, happly, hE⟩ := Rule.signs.exists_effect slack he hr
  refine ⟨_, s, Effect.freeLimits_eq hh, happly, fun point hp hsat => ?_⟩
  obtain ⟨hlen, hx, hex⟩ := (admitsEach_and_isSatisfiedBy_iff hr.range).mp ⟨hp, hsat⟩
  have hlen' : point.length = s.vars.length := hlen.trans hE.changes.1.symm
  rw [admitsEach_iff, and_iff_right hlen']
  refine ⟨hE.kept_iff hs he hr hh hx hex, fun hn => ?_⟩
  obtain ⟨hi, hfit, -⟩ := hE.keeps_solution hs he hr.held hh hx hex fun _ => hn
  exact ⟨hi, hfit⟩

/-- With `z` fixed at 2, `x + 2 * y` must not be positive, and `x` may be negative. -/
def balance : Expression := ⟨"c", .ofList [(0, 1), (1, 2), (2, 1)], ⟨none, some 2⟩, false, false⟩

def balanceVars : List Variable :=
  [⟨"x", .continuous, ⟨some (-5), some 5⟩, none⟩, ⟨"y", .integer, ⟨some 0, none⟩, none⟩,
    ⟨"z", .continuous, .point 2, none⟩]

theorem Rule.signs_keeps_iff_balance :
    ∃ s, Rule.signs.apply (1 / 2) (.ofList [2]) balance balanceVars = .ok s ∧
      (s.expression.infeasible = false ∧ AdmitsEach s.vars [0, 0, 2]) ∧
      (AdmitsEach balanceVars [-3, 1, 2] ∧ balance.IsSatisfiedBy [-3, 1, 2]) ∧
      ¬(s.expression.infeasible = false ∧ AdmitsEach s.vars [-3, 1, 2]) := by
  have hslack : (0 : ℚ) ≤ 1 / 2 := by decide +kernel
  have hready : balance.Ready (.ofList [2]) balanceVars := by decide +kernel
  obtain ⟨limits, s, hlim, hs, hkeep⟩ := Rule.signs_keeps_iff hslack (by decide +kernel) hready
  have hop : ∀ limits ∈ (balance.freeLimits (.ofList [2]) balanceVars).toOption,
      Signs.Opposed balance.terms (.ofList [2]) limits := by
    decide +kernel
  refine ⟨s, hs, (hkeep [0, 0, 2] (by decide +kernel) (by decide +kernel)).2 (by decide +kernel),
    by decide +kernel, fun hkept => ?_⟩
  have hzero := (hkeep [-3, 1, 2] (by decide +kernel) (by decide +kernel)).1.mp hkept
    (hop limits (by rw [hlim]; rfl))
  exact absurd hzero (by decide +kernel)

/-- A limit below zero for a single variable that may be negative. -/
def deficit : Expression := ⟨"c", .ofList [(0, 1)], ⟨none, some (-1)⟩, false, false⟩

def deficitVars : List Variable := [⟨"x", .continuous, ⟨some (-5), some 5⟩, none⟩]

/-- At `-2` the limit holds, but the rule concludes that it cannot be reached. -/
theorem not_signs_keeps : ¬∀ (slack : ℚ) (fixed : IndexSet) (e : Expression) (vs : List Variable),
    0 ≤ slack → e.InForce → e.Ready fixed vs → ∀ s, Rule.signs.apply slack fixed e vs = .ok s →
      ∀ point, AdmitsEach vs point → e.IsSatisfiedBy point →
        s.expression.infeasible = false ∧ AdmitsEach s.vars point := by
  intro h
  have hready : deficit.Ready .empty deficitVars := by decide +kernel
  have hrun : ∀ s ∈ (Rule.signs.apply 0 .empty deficit deficitVars).toOption,
      s.expression.infeasible = true := by
    decide +kernel
  obtain ⟨held, s, -, hs, -⟩ := Rule.signs.exists_effect 0 (by decide +kernel) hready
  obtain ⟨hi, -⟩ := h 0 .empty deficit deficitVars le_rfl (by decide +kernel) hready s hs [-2]
    (by decide +kernel) (by decide +kernel)
  cases hi.symm.trans (hrun s (by rw [hs]; rfl))

end ExactPresolve
