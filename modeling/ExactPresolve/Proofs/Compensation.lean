import ExactPresolve.Proofs.Projection
import ExactPresolve.Proofs.Rule.Apply
import Mathlib.Algebra.BigOperators.Fin

/-!
# Compensation for fixed variables

The rules do not look at the value of an expression. They look at what its fixed variables
contribute, at the terms of the others, and at the limits less that contribution. Here an expression
is followed from the coefficients that it was given, over terms that were replaced and removed, to
the value that these coefficients give at a point, and this value is split.

* `Expression.Given`: an expression and the coefficients that it was given;
* `Terms.linear_eq_sum`: the value of terms as a sum over all variables;
* `Expression.Given.coefficient_eq`: the coefficient that counts is the one given last;
* **`Expression.evaluate_splits`**: the value of an expression, and what is compared with its limits.
-/

namespace ExactPresolve

/-! ## Coefficients -/

namespace Terms

variable {ts : Terms} {j : ℕ}

theorem coefficient_of_mem {t : ℕ × ℚ} (ht : t ∈ ts.toList) : ts.coefficient t.1 = t.2 := by
  rw [coefficient, coefficient?]
  cases hu : ts.toList.find? (·.1 == t.1) with
  | none => exact absurd (beq_self_eq_true t.1) (List.find?_eq_none.mp hu t ht)
  | some u =>
    have hfst : u.1 = t.1 := by simpa using List.find?_some hu
    have hm := List.mem_of_find?_eq_some hu
    rw [List.inj_on_of_nodup_map ts.nodup_indices hm ht hfst]
    rfl

theorem coefficient_of_not_mem (hj : j ∉ ts.indices) : ts.coefficient j = 0 := by
  have hnone : ts.toList.find? (·.1 == j) = none :=
    List.find?_eq_none.mpr fun t ht hb => hj (mem_indices.mpr ⟨t, ht, beq_iff_eq.mp hb⟩)
  rw [coefficient, coefficient?, hnone]
  rfl

/-- The value of terms is the sum over all variables, where those that do not occur count as zero. -/
theorem linear_eq_sum {n : ℕ} (h : ∀ j ∈ ts.indices, j < n) (x : ℕ → ℚ) :
    linear ts.toList x = ∑ j : Fin n, ts.coefficient j * x j := by
  calc linear ts.toList x
      = (ts.indices.map fun j => ts.coefficient j * x j).sum := by
        rw [linear, indices, List.map_map]
        refine congrArg List.sum (List.map_congr_left fun t ht => ?_)
        rw [Function.comp_apply, coefficient_of_mem ht]
    _ = ∑ j ∈ ts.indices.toFinset, ts.coefficient j * x j :=
        (List.sum_toFinset _ ts.nodup_indices).symm
    _ = ∑ j ∈ Finset.range n, ts.coefficient j * x j := by
        refine Finset.sum_subset (fun j hj => ?_) fun j _ hj => ?_
        · exact Finset.mem_range.mpr (h j (List.mem_toFinset.mp hj))
        · rw [coefficient_of_not_mem fun hm => hj (List.mem_toFinset.mpr hm), zero_mul]
    _ = ∑ j : Fin n, ts.coefficient j * x j := Finset.sum_range _

end Terms

/-! ## Expressions and the coefficients given to them -/

/-- The coefficient that the variable `j` was given last, if the latest one comes first in the list. A
variable that was given none has coefficient zero. -/
def latestCoefficient (given : List (ℕ × ℚ)) (j : ℕ) : ℚ := (given.lookup j).getD 0

namespace Expression

/-- The expression was built step by step, and these are the coefficients that it was given, the
latest one first. -/
inductive Given : List (ℕ × ℚ) → Expression → Prop
  | named (name : String) : Given [] (.named name)
  | withTerm {given : List (ℕ × ℚ)} {e : Expression} (h : Given given e) (j : ℕ) (a : ℚ) :
      Given ((j, a) :: given) (e.withTerm j a)
  | withLimits {given : List (ℕ × ℚ)} {e : Expression} (h : Given given e) (b : Bounds) :
      Given given (e.withLimits b)
  | marked {given : List (ℕ × ℚ)} {e : Expression} (h : Given given e)
      (infeasible redundant : Bool) : Given given (e.marked infeasible redundant)

variable {given : List (ℕ × ℚ)} {e : Expression} {fixed : IndexSet} {vs : List Variable}
  {point : List ℚ}

/-- **The coefficient that counts is the one given last.** -/
theorem Given.coefficient_eq (h : e.Given given) (j : ℕ) :
    e.terms.coefficient j = latestCoefficient given j := by
  induction h with
  | named => rfl
  | withTerm h k a ih =>
    rw [Expression.withTerm, Terms.coefficient_set, latestCoefficient, List.lookup_cons]
    by_cases hj : j = k
    · simp [hj]
    · rw [if_neg hj, ih, beq_false_of_ne hj]
      rfl
  | withLimits h b ih => exact ih
  | marked h i r ih => exact ih

/-! ## The value of an expression and its parts -/

theorem heldValue_eq_of_agrees (hp : ∀ j ∈ e.terms.indices, j < point.length)
    (hf : ∀ j ∈ e.terms.indices, j ∈ fixed → ∃ v ∈ vs[j]?, v.fixedValue? = point[j]?) :
    e.heldValue fixed vs = .ok (linear (e.terms.held fixed) (valuation point)) := by
  refine weightedSum_ok fun t ht => ?_
  obtain ⟨hm, hfix⟩ := Terms.mem_held.mp ht
  have hj := Terms.fst_mem_indices hm
  obtain ⟨v, hv, hval⟩ := hf _ hj hfix
  refine fixedValue_eq_ok.mpr ⟨v, hv, ?_⟩
  rw [hval, valuation, List.getD_eq_getElem?_getD, List.getElem?_eq_getElem (hp _ hj)]
  rfl

/-- **The value of an expression splits** into the held value and that of the free terms, which satisfy
what remains of a limit exactly if the whole satisfies the limit. -/
theorem evaluate_splits (h : e.Given given) (hp : ∀ j ∈ e.terms.indices, j < point.length)
    (hf : ∀ j ∈ e.terms.indices, j ∈ fixed → ∃ v ∈ vs[j]?, v.fixedValue? = point[j]?) :
    ∃ value held limits, e.evaluate point = .ok value ∧ e.heldValue fixed vs = .ok held ∧
      e.freeLimits fixed vs = .ok limits ∧
      value = ∑ j : Fin point.length, latestCoefficient given j * point[j] ∧
      value = held + linear (e.terms.free fixed) (valuation point) ∧
      (∀ d, (limits.get d).isSome = (e.limits.get d).isSome ∧
        ((∀ l ∈ e.limits.get d, d.Allows l value) ↔
          ∀ l ∈ limits.get d, d.Allows l (linear (e.terms.free fixed) (valuation point)))) ∧
      (e.IsSatisfiedBy point ↔ linear (e.terms.free fixed) (valuation point) ∈ limits) := by
  have hheld := heldValue_eq_of_agrees hp hf
  have hsplit := e.terms.linear_split fixed (valuation point)
  refine ⟨_, _, _, evaluate_eq hp, hheld, Effect.freeLimits_eq hheld, ?_, hsplit, fun d => ?_, ?_⟩
  · rw [Terms.linear_eq_sum hp]
    refine Finset.sum_congr rfl fun j _ => ?_
    simp [h.coefficient_eq, valuation]
  · rw [Bounds.get_subtract]
    refine ⟨Option.isSome_map, ?_⟩
    simp only [Option.mem_map, forall_exists_index, and_imp, forall_apply_eq_imp_iff₂,
      Direction.allows_sub_iff, hsplit, add_comm]
  · rw [isSatisfiedBy_iff hp, Holds, hsplit, Bounds.mem_subtract, add_comm]

/-- The first coefficient of `x 0` was replaced, and the only one of `x 2` removed. -/
def revised : Expression :=
  (((((((named "c").withTerm 0 5).withTerm 1 2).withTerm 0 3).withTerm 2 4).withLimits
    ⟨some 0, some 20⟩).withTerm 2 0).withTerm 3 (-1)

def revisedVars : List Variable :=
  [.named "w", ⟨"x", .continuous, .point 7, none⟩, .named "y",
    ⟨"z", .integer, ⟨some 0, none⟩, some 4⟩]

def revisedPoint : List ℚ := [2, 7, 100, 4]

theorem evaluate_splits_revised :
    revised.Given [(3, -1), (2, 0), (2, 4), (0, 3), (1, 2), (0, 5)] ∧
      revised.evaluate revisedPoint = .ok 16 ∧
      revised.heldValue (.ofList [1, 3]) revisedVars = .ok 10 ∧
      revised.freeLimits (.ofList [1, 3]) revisedVars = .ok ⟨some (-10), some 10⟩ ∧
      16 = ∑ j : Fin revisedPoint.length,
        latestCoefficient [(3, -1), (2, 0), (2, 4), (0, 3), (1, 2), (0, 5)] j * revisedPoint[j] ∧
      16 = 10 + linear (revised.terms.free (.ofList [1, 3])) (valuation revisedPoint) ∧
      (revised.IsSatisfiedBy revisedPoint ↔
        linear (revised.terms.free (.ofList [1, 3])) (valuation revisedPoint) ∈
          Bounds.mk (some (-10)) (some 10)) := by
  have hgiven : revised.Given [(3, -1), (2, 0), (2, 4), (0, 3), (1, 2), (0, 5)] :=
    ((((((((Given.named "c").withTerm 0 5).withTerm 1 2).withTerm 0 3).withTerm 2 4).withLimits
      _).withTerm 2 0).withTerm 3 (-1))
  have hp : ∀ j ∈ revised.terms.indices, j < revisedPoint.length := by decide +kernel
  have hf : ∀ j ∈ revised.terms.indices, j ∈ IndexSet.ofList [1, 3] →
      ∃ v ∈ revisedVars[j]?, v.fixedValue? = revisedPoint[j]? := by decide +kernel
  obtain ⟨value, held, limits, hvalue, hheld, hlimits, hsum, hsplit, -, hsat⟩ :=
    evaluate_splits hgiven hp hf
  have hvalue' : revised.evaluate revisedPoint = .ok 16 := by decide +kernel
  have hheld' : revised.heldValue (.ofList [1, 3]) revisedVars = .ok 10 := by decide +kernel
  have hlimits' : revised.freeLimits (.ofList [1, 3]) revisedVars =
      .ok ⟨some (-10), some 10⟩ := by decide +kernel
  obtain rfl := Except.ok.inj (hvalue'.symm.trans hvalue)
  obtain rfl := Except.ok.inj (hheld'.symm.trans hheld)
  obtain rfl := Except.ok.inj (hlimits'.symm.trans hlimits)
  exact ⟨hgiven, hvalue, hheld, hlimits, hsum, hsplit, hsat⟩

end Expression

end ExactPresolve
