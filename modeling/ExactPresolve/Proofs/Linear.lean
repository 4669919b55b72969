import ExactPresolve.Model
import Mathlib.Algebra.Order.Ring.Rat
import Mathlib.Data.List.Perm.Subperm
import Mathlib.Tactic.Linarith
import Mathlib.Tactic.Ring

/-!
# Values of linear combinations

The code evaluates terms step by step and stops at the first value that is missing. Here the value
of terms is a plain sum over a valuation `x : ℕ → ℚ` of the variables, and a point of a model is
the valuation that reads its coordinates.

* `linear`: the sum; `Terms.linear_split`: held and free terms together make up all terms;
* `weightedSum_ok`: the evaluation succeeds if all values are there;
* `Expression.Holds`, `Fits`: an expression and the variables, seen from a valuation;
* **`Model.feasible_iff`**: feasibility of a point is a statement about its valuation;
* **`Expression.eval_of_heldValue`**: the held value and the free terms make up the value.
-/

namespace ExactPresolve

/-- The value of terms if the variable `j` has the value `x j`. -/
def linear (ts : List (ℕ × ℚ)) (x : ℕ → ℚ) : ℚ := (ts.map fun t => t.2 * x t.1).sum

@[simp] theorem linear_nil (x : ℕ → ℚ) : linear [] x = 0 := rfl

@[simp] theorem linear_cons (t : ℕ × ℚ) (ts : List (ℕ × ℚ)) (x : ℕ → ℚ) :
    linear (t :: ts) x = t.2 * x t.1 + linear ts x := by
  simp [linear]

theorem linear_congr {ts : List (ℕ × ℚ)} {x y : ℕ → ℚ} (h : ∀ t ∈ ts, x t.1 = y t.1) :
    linear ts x = linear ts y := by
  unfold linear
  exact congrArg List.sum (List.map_congr_left fun t ht => by rw [h t ht])

theorem linear_eq_zero {ts : List (ℕ × ℚ)} {x : ℕ → ℚ} (h : ∀ t ∈ ts, x t.1 = 0) :
    linear ts x = 0 := by
  rw [linear_congr (y := fun _ => 0) h]
  induction ts with
  | nil => rfl
  | cons t ts ih => rw [linear_cons, ih fun t ht => h t (List.mem_cons_of_mem _ ht)]; ring

/-- Nonpositive terms have a nonpositive value, and each of them is zero if the value is. -/
theorem linear_nonpos {ts : List (ℕ × ℚ)} {x : ℕ → ℚ} (h : ∀ t ∈ ts, t.2 * x t.1 ≤ 0) :
    linear ts x ≤ 0 ∧ (linear ts x = 0 → ∀ t ∈ ts, t.2 * x t.1 = 0) := by
  induction ts with
  | nil => simp
  | cons t ts ih =>
    obtain ⟨hle, heq⟩ := ih fun t ht => h t (List.mem_cons_of_mem _ ht)
    have ht := h t List.mem_cons_self
    rw [linear_cons]
    refine ⟨by linarith, fun h0 u hu => ?_⟩
    rcases List.mem_cons.mp hu with rfl | hu
    · linarith
    · exact heq (by linarith) u hu

theorem linear_neg (ts : List (ℕ × ℚ)) (x : ℕ → ℚ) : linear ts (-x ·) = -linear ts x := by
  induction ts with
  | nil => simp
  | cons t ts ih => rw [linear_cons, linear_cons, ih]; ring

theorem linear_filter (ts : List (ℕ × ℚ)) (x : ℕ → ℚ) (c : ℕ × ℚ → Prop) [DecidablePred c] :
    linear ts x = linear (ts.filter (c ·)) x + linear (ts.filter (¬ c ·)) x := by
  induction ts with
  | nil => simp
  | cons t ts ih => by_cases h : c t <;> simp [h, ih] <;> ring

/-! ## The terms of an expression -/

namespace Terms

variable {ts : Terms} {fixed : IndexSet}

theorem mem_free {t : ℕ × ℚ} : t ∈ ts.free fixed ↔ t ∈ ts.toList ∧ t.1 ∉ fixed := by
  simp [free]

theorem free_ne_zero {t : ℕ × ℚ} (h : t ∈ ts.free fixed) : t.2 ≠ 0 :=
  ts.nonzero t (mem_free.mp h).1

theorem mem_held {t : ℕ × ℚ} : t ∈ ts.held fixed ↔ t ∈ ts.toList ∧ t.1 ∈ fixed := by
  simp [held]

theorem mem_indices {j : ℕ} : j ∈ ts.indices ↔ ∃ t ∈ ts.toList, t.1 = j := by
  simp [indices]

theorem fst_mem_indices {t : ℕ × ℚ} (h : t ∈ ts.toList) : t.1 ∈ ts.indices :=
  mem_indices.mpr ⟨t, h, rfl⟩

theorem linear_split (ts : Terms) (fixed : IndexSet) (x : ℕ → ℚ) :
    linear ts.toList x = linear (ts.held fixed) x + linear (ts.free fixed) x :=
  linear_filter ts.toList x (·.1 ∈ fixed)

theorem free_increasing (ts : Terms) (fixed : IndexSet) :
    (ts.free fixed).Pairwise (·.1 < ·.1) :=
  ts.increasing.filter _

theorem free_eq_nil (h : ∀ j ∈ ts.indices, j ∈ fixed) : ts.free fixed = [] :=
  List.filter_eq_nil_iff.mpr fun t ht => by simpa using h t.1 (fst_mem_indices ht)

theorem nodup_map_fst {l : List (ℕ × ℚ)} (h : l.Pairwise (·.1 < ·.1)) : (l.map (·.1)).Nodup :=
  List.pairwise_map.mpr (h.imp fun h => Nat.ne_of_lt h)

theorem nodup_indices (ts : Terms) : ts.indices.Nodup := nodup_map_fst ts.increasing

theorem nodup_map_free (ts : Terms) (fixed : IndexSet) :
    ((ts.free fixed).map (·.1)).Nodup :=
  nodup_map_fst (ts.free_increasing fixed)

theorem ne_zero_of_free_singleton {j : ℕ} {a : ℚ} (h : ts.free fixed = [(j, a)]) : a ≠ 0 :=
  free_ne_zero (t := (j, a)) (by rw [h]; simp)

theorem ne_zero_of_free_pair {j k : ℕ} {a b : ℚ} (h : ts.free fixed = [(j, a), (k, b)]) :
    a ≠ 0 ∧ b ≠ 0 :=
  ⟨free_ne_zero (t := (j, a)) (by rw [h]; simp), free_ne_zero (t := (k, b)) (by rw [h]; simp)⟩

theorem ne_of_free_pair {j k : ℕ} {a b : ℚ} (h : ts.free fixed = [(j, a), (k, b)]) : j ≠ k := by
  have hn := ts.nodup_map_free fixed
  rw [h] at hn
  simpa using hn

theorem length_held_le (ts : Terms) (fixed : IndexSet) :
    (ts.held fixed).length ≤ fixed.size := by
  have hn : ((ts.held fixed).map (·.1)).Nodup := nodup_map_fst (ts.increasing.filter _)
  have hs : (ts.held fixed).map (·.1) ⊆ fixed.toList := by
    intro j hj
    obtain ⟨t, ht, rfl⟩ := List.mem_map.mp hj
    exact (mem_held.mp ht).2
  simpa [IndexSet.size] using (hn.subperm hs).length_le

theorem size_eq (ts : Terms) (fixed : IndexSet) :
    ts.size = (ts.held fixed).length + (ts.free fixed).length := by
  have h : ∀ l : List (ℕ × ℚ), l.length =
      (l.filter (·.1 ∈ fixed)).length + (l.filter (·.1 ∉ fixed)).length := by
    intro l
    induction l with
    | nil => rfl
    | cons t l ih => by_cases ht : t.1 ∈ fixed <;> simp [ht, ih] <;> omega
  exact h ts.toList

end Terms

/-! ## Evaluation -/

theorem weightedSum_congr {f g : ℕ → Except Fault ℚ} {ts : List (ℕ × ℚ)}
    (h : ∀ t ∈ ts, f t.1 = g t.1) : weightedSum f ts = weightedSum g ts := by
  induction ts with
  | nil => rfl
  | cons t ts ih =>
    obtain ⟨j, a⟩ := t
    rw [weightedSum, weightedSum, h _ List.mem_cons_self,
      ih fun t ht => h t (List.mem_cons_of_mem _ ht)]

theorem weightedSum_ok {value : ℕ → Except Fault ℚ} {x : ℕ → ℚ} {ts : List (ℕ × ℚ)}
    (h : ∀ t ∈ ts, value t.1 = .ok (x t.1)) : weightedSum value ts = .ok (linear ts x) := by
  induction ts with
  | nil => rfl
  | cons t ts ih =>
    obtain ⟨j, a⟩ := t
    rw [weightedSum, h _ List.mem_cons_self, ih fun t ht => h t (List.mem_cons_of_mem _ ht),
      linear_cons]
    rfl

theorem weightedSum_cons_eq_ok {value : ℕ → Except Fault ℚ} {t : ℕ × ℚ} {ts : List (ℕ × ℚ)}
    {x : ℚ} : weightedSum value (t :: ts) = .ok x ↔
      ∃ y z, value t.1 = .ok y ∧ weightedSum value ts = .ok z ∧ t.2 * y + z = x := by
  simp only [weightedSum, bind, Except.bind, pure, Except.pure]
  cases value t.1 with
  | error => simp
  | ok y => cases weightedSum value ts <;> simp

/-! ## Points as valuations -/

/-- The valuation of a point: the coordinate of each variable, zero beyond the end. -/
def valuation (point : List ℚ) : ℕ → ℚ := fun j => point.getD j 0

theorem coordinate_eq {point : List ℚ} {j : ℕ} (h : j < point.length) :
    Expression.coordinate point j = .ok (valuation point j) := by
  simp [Expression.coordinate, valuation, h]

/-- The valuation gives the expression a value within its limits. -/
def Expression.Holds (e : Expression) (x : ℕ → ℚ) : Prop := linear e.terms.toList x ∈ e.limits

/-- Each variable admits the value that the valuation gives it. -/
def Fits (vs : List Variable) (x : ℕ → ℚ) : Prop :=
  ∀ (j : ℕ) (v : Variable), vs[j]? = some v → v.Admits (x j)

theorem Expression.evaluate_eq {e : Expression} {point : List ℚ}
    (h : ∀ j ∈ e.terms.indices, j < point.length) :
    e.evaluate point = .ok (linear e.terms.toList (valuation point)) :=
  weightedSum_ok fun _ ht => coordinate_eq (h _ (Terms.fst_mem_indices ht))

theorem Expression.isSatisfiedBy_iff {e : Expression} {point : List ℚ}
    (h : ∀ j ∈ e.terms.indices, j < point.length) :
    e.IsSatisfiedBy point ↔ e.Holds (valuation point) := by
  simp [IsSatisfiedBy, Holds, evaluate_eq h, Except.toOption]

theorem fits_iff {vs : List Variable} {point : List ℚ} (h : point.length = vs.length) :
    (∀ c ∈ vs.zip point, c.1.Admits c.2) ↔ Fits vs (valuation point) := by
  constructor
  · intro ha j v hv
    have hj : j < point.length := h ▸ (List.getElem?_eq_some_iff.mp hv).1
    have hm : (v, point[j]) ∈ vs.zip point :=
      List.mem_of_getElem? (i := j) (by simp [List.getElem?_zip_eq_some, hv, hj])
    simpa [valuation, hj] using ha _ hm
  · rintro hf ⟨v, x⟩ hc
    obtain ⟨j, hj⟩ := List.getElem?_of_mem hc
    obtain ⟨hv, hx⟩ := List.getElem?_zip_eq_some.mp hj
    simpa [valuation, hx] using hf j v hv

namespace Model

/-- The point has a coordinate for each variable, which the variable admits. -/
def Admits (m : Model) (point : List ℚ) : Prop :=
  point.length = m.vars.length ∧ ∀ c ∈ m.vars.zip point, c.1.Admits c.2

instance (m : Model) (point : List ℚ) : Decidable (m.Admits point) :=
  inferInstanceAs (Decidable (_ ∧ _))

theorem admits_iff {m : Model} {point : List ℚ} :
    m.Admits point ↔ point.length = m.vars.length ∧ Fits m.vars (valuation point) :=
  and_congr_right fun h => fits_iff h

def InRange (m : Model) : Prop := ∀ e ∈ m.expressions, ∀ j ∈ e.terms.indices, j < m.vars.length

/-- **A point is feasible if its valuation fits the variables and satisfies the expressions.** -/
theorem feasible_iff {m : Model} (hm : m.InRange) {point : List ℚ} :
    m.Feasible point ↔ point.length = m.vars.length ∧ Fits m.vars (valuation point) ∧
      ∀ e ∈ m.expressions, e.Holds (valuation point) := by
  refine and_congr_right fun h => and_congr (fits_iff h) (forall₂_congr fun e he => ?_)
  exact Expression.isSatisfiedBy_iff fun j hj => h ▸ hm e he j hj

end Model

/-! ## Held values -/

namespace Expression

/-- The variables of the expression that lie in the fixed set have equal bounds. -/
def HeldIn (e : Expression) (fixed : IndexSet) (vs : List Variable) : Prop :=
  ∀ j ∈ e.terms.indices, j ∈ fixed → ∃ v, vs[j]? = some v ∧ v.IsFixed

instance (e : Expression) (fixed : IndexSet) (vs : List Variable) : Decidable (e.HeldIn fixed vs) :=
  inferInstanceAs (Decidable (∀ j ∈ e.terms.indices, j ∈ fixed → ∃ v ∈ vs[j]?, v.IsFixed))

/-- The valuation lies within the bounds of the variables of the expression. -/
def InBounds (e : Expression) (vs : List Variable) (x : ℕ → ℚ) : Prop :=
  ∀ j ∈ e.terms.indices, ∀ v : Variable, vs[j]? = some v → x j ∈ v.bounds

variable {e : Expression} {fixed : IndexSet} {vs : List Variable} {x : ℕ → ℚ}

theorem inBounds_of_fits (h : Fits vs x) : e.InBounds vs x := fun j _ v hv => (h j v hv).1

end Expression

theorem Variable.isFixed_iff {v : Variable} : v.IsFixed ↔ ∃ c, v.bounds = .point c := by
  simp only [IsFixed, Option.isSome_iff_exists, Bounds.point?_eq_some_iff]

@[simp] theorem Bounds.point?_point (c : ℚ) : (Bounds.point c).point? = some c := by
  simp [point, point?]

theorem Variable.fixedValue?_of_bounds {v : Variable} {c : ℚ} (h : v.bounds = .point c) :
    v.fixedValue? = some c := by
  simp [fixedValue?, h]

namespace Expression

variable {e : Expression} {fixed : IndexSet} {vs : List Variable} {x : ℕ → ℚ}

theorem fixedValue_eq_ok {j : ℕ} {c : ℚ} :
    fixedValue vs j = .ok c ↔ ∃ v, vs[j]? = some v ∧ v.fixedValue? = some c := by
  simp only [fixedValue, variableAt, bind, Except.bind, pure, Except.pure]
  cases vs[j]? with
  | none => simp
  | some v => cases hv : v.fixedValue? <;> simp [hv]

theorem fixedValue_eq {j : ℕ} {v : Variable} {c : ℚ} (hv : vs[j]? = some v)
    (hc : v.bounds = .point c) : fixedValue vs j = .ok c :=
  fixedValue_eq_ok.mpr ⟨v, hv, Variable.fixedValue?_of_bounds hc⟩

theorem HeldIn.fixedValue_ok (h : e.HeldIn fixed vs) (hx : e.InBounds vs x) {t : ℕ × ℚ}
    (ht : t ∈ e.terms.held fixed) : fixedValue vs t.1 = .ok (x t.1) := by
  obtain ⟨hm, hf⟩ := Terms.mem_held.mp ht
  have hj := Terms.fst_mem_indices hm
  obtain ⟨v, hv, hv'⟩ := h _ hj hf
  obtain ⟨c, hc⟩ := Variable.isFixed_iff.mp hv'
  have hxc : x t.1 = c := Bounds.mem_point.mp (hc ▸ hx _ hj v hv)
  rw [fixedValue_eq hv hc, hxc]

theorem HeldIn.heldValue_eq (h : e.HeldIn fixed vs) (hx : e.InBounds vs x) :
    e.heldValue fixed vs = .ok (linear (e.terms.held fixed) x) :=
  weightedSum_ok fun _ ht => h.fixedValue_ok hx ht

/-- **The held value and the free terms make up the value within the bounds.** -/
theorem eval_of_heldValue (h : e.HeldIn fixed vs) (hx : e.InBounds vs x) {held : ℚ}
    (hh : e.heldValue fixed vs = .ok held) :
    linear e.terms.toList x = held + linear (e.terms.free fixed) x := by
  rw [Terms.linear_split e.terms fixed, Except.ok.inj (hh.symm.trans (h.heldValue_eq hx))]

theorem HeldIn.exists_heldValue (h : e.HeldIn fixed vs) :
    ∃ held, e.heldValue fixed vs = .ok held := by
  refine ⟨_, weightedSum_ok (x := fun j => ((vs[j]?).bind Variable.fixedValue?).getD 0)
    fun t ht => ?_⟩
  obtain ⟨hm, hf⟩ := Terms.mem_held.mp ht
  obtain ⟨v, hv, hv'⟩ := h _ (Terms.fst_mem_indices hm) hf
  obtain ⟨c, hc⟩ := Variable.isFixed_iff.mp hv'
  rw [fixedValue_eq hv hc]
  simp [hv, Variable.fixedValue?_of_bounds hc]

end Expression

end ExactPresolve
