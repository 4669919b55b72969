import ExactPresolve.Proofs.Linear
import ExactPresolve.Proofs.Rule.Signs
import ExactPresolve.Rule

/-!
# What an application of a rule can do

A rule looks at the number of free variables, at the remaining limits and at the bounds of the free
variables, and then does one of a few things. Here the things are listed, each with the condition
under which it happens. Later modules argue about the list and do not open the rules again.

* `Expression.InForce`, `Expression.Ready`: the expressions that rules look at, and what rules rely
  on;
* `FewFree.solution`, `FewFree.confinedBounds`: what a last free variable receives;
* `Effect`: the things that an application can do;
* `Effect.exists_fewFree`, `Effect.exists_signs`: one of them happens, whatever the state is.
-/

namespace ExactPresolve

def Expression.InForce (e : Expression) : Prop := e.redundant = false ∧ e.infeasible = false

instance (e : Expression) : Decidable e.InForce := inferInstanceAs (Decidable (_ ∧ _))

theorem Expression.inForce_iff {e : Expression} : e.InForce ↔ ¬(e.redundant ∨ e.infeasible) := by
  simp [InForce, not_or]

theorem Expression.not_inForce {e : Expression} (h : e.infeasible = true) : ¬e.InForce :=
  fun he => by cases h.symm.trans he.2

theorem Expression.not_inForce_of_redundant {e : Expression} (h : e.redundant = true) :
    ¬e.InForce :=
  fun he => by cases h.symm.trans he.1

/-- What a rule relies on: the variables of the expression exist, those in the fixed set have equal
bounds, and the limits do not cross. -/
structure Expression.Ready (e : Expression) (fixed : IndexSet) (vs : List Variable) : Prop where
  range : ∀ j ∈ e.terms.indices, j < vs.length
  held : e.HeldIn fixed vs
  limits : e.limits.Consistent

theorem Expression.ready_iff {e : Expression} {fixed : IndexSet} {vs : List Variable} :
    e.Ready fixed vs ↔
      (∀ j ∈ e.terms.indices, j < vs.length) ∧ e.HeldIn fixed vs ∧ e.limits.Consistent :=
  ⟨fun h => ⟨h.range, h.held, h.limits⟩, fun h => ⟨h.1, h.2.1, h.2.2⟩⟩

instance (e : Expression) (fixed : IndexSet) (vs : List Variable) : Decidable (e.Ready fixed vs) :=
  decidable_of_iff _ Expression.ready_iff.symm

def Terms.freeIndices (ts : Terms) (fixed : IndexSet) : List ℕ := (ts.free fixed).map (·.1)

theorem Terms.mem_freeIndices {ts : Terms} {fixed : IndexSet} {j : ℕ} :
    j ∈ ts.freeIndices fixed ↔ j ∈ ts.indices ∧ j ∉ fixed := by
  simp only [freeIndices, List.mem_map, mem_free, mem_indices]
  constructor
  · rintro ⟨t, ⟨ht, hf⟩, rfl⟩
    exact ⟨⟨t, ht, rfl⟩, hf⟩
  · rintro ⟨⟨t, ht, rfl⟩, hf⟩
    exact ⟨t, ⟨ht, hf⟩, rfl⟩

theorem Terms.freeIndices_singleton {ts : Terms} {fixed : IndexSet} {j : ℕ} {a : ℚ}
    (h : ts.free fixed = [(j, a)]) : ts.freeIndices fixed = [j] := by
  rw [freeIndices, h]
  rfl

theorem Terms.mem_freeIndices_singleton {ts : Terms} {fixed : IndexSet} {j : ℕ} {a : ℚ}
    (h : ts.free fixed = [(j, a)]) : j ∈ ts.freeIndices fixed := by
  simp [freeIndices_singleton h]

theorem Terms.mem_freeIndices_pair {ts : Terms} {fixed : IndexSet} {j k : ℕ} {a b : ℚ}
    (h : ts.free fixed = [(j, a), (k, b)]) :
    j ∈ ts.freeIndices fixed ∧ k ∈ ts.freeIndices fixed := by
  simp [freeIndices, h]

namespace FewFree

/-- The value that a variable with coefficient `a` needs such that the expression has the value
`level`. -/
def solution (held a level : ℚ) : ℚ := (level - held) / a

/-- The bounds that a variable with coefficient `a` takes over from the limits. -/
def confinedBounds (e : Expression) (held a : ℚ) (v : Variable) : Bounds :=
  v.kind.roundInward (v.bounds.inter ((e.limits.subtract held).divide a))

/-- The first of two free variables with the bounds that the limits imply for it, given those of the
second one. -/
def narrowed (e : Expression) (held : ℚ) (v : Variable) (a b : ℚ) (w : Variable) : Variable :=
  v.withBounds (impliedBounds (e.limits.subtract held) v a b w.bounds)

end FewFree

open FewFree Signs

/-- What an application of a rule can do to an expression in force with the held value `held`. -/
inductive Effect (slack : ℚ) (fixed : IndexSet) (e : Expression) (vs : List Variable) (held : ℚ) :
    Rule → Step → Prop
  -- more than two free variables
  | tooMany (hf : 2 < (e.terms.free fixed).length) :
    Effect slack fixed e vs held .fewFree (.unchanged e vs)
  -- no free variable: the held value is that of the whole expression
  | checked (hf : e.terms.free fixed = []) (hv : e.violation? slack held = none) :
    Effect slack fixed e vs held .fewFree ⟨vs, (e.marked false true).level held, false, []⟩
  | outside {report} (hf : e.terms.free fixed = []) (hv : e.violation? slack held = some report) :
    Effect slack fixed e vs held .fewFree
      ⟨vs, e.marked true false, false, [.refused report, .outsideLimits e.name held]⟩
  -- one free variable in an equation, which takes the solution if it can
  | solved {j a v level} (hf : e.terms.free fixed = [(j, a)]) (hj : vs[j]? = some v)
      (hl : e.limits.point? = some level) (hk : v.kind.Admits (solution held a level))
      (hv : v.violation? slack (solution held a level) = none) :
    Effect slack fixed e vs held .fewFree
      ⟨vs.set j (v.level (solution held a level)), e.marked false true, true, []⟩
  | beyond {j a v level report} (hf : e.terms.free fixed = [(j, a)]) (hj : vs[j]? = some v)
      (hl : e.limits.point? = some level) (hk : v.kind.Admits (solution held a level))
      (hv : v.violation? slack (solution held a level) = some report) :
    Effect slack fixed e vs held .fewFree
      ⟨vs.set j v.settle, e.marked true false, decide v.IsFixed, [.refused report]⟩
  | fractional {j a v level} (hf : e.terms.free fixed = [(j, a)]) (hj : vs[j]? = some v)
      (hl : e.limits.point? = some level) (hk : ¬v.kind.Admits (solution held a level)) :
    Effect slack fixed e vs held .fewFree
      ⟨vs.set j v.settle, e.marked true false, decide v.IsFixed, []⟩
  -- one free variable otherwise, which takes over the limits as bounds unless these cross
  | confined {j a v} (hf : e.terms.free fixed = [(j, a)]) (hj : vs[j]? = some v)
      (hl : e.limits.point? = none) (hb : (confinedBounds e held a v).Consistent) :
    Effect slack fixed e vs held .fewFree
      ⟨vs.set j (v.withBounds (confinedBounds e held a v)).settle, e.marked false true,
        decide (v.withBounds (confinedBounds e held a v)).IsFixed, []⟩
  | crossed {j a v} (hf : e.terms.free fixed = [(j, a)]) (hj : vs[j]? = some v)
      (hl : e.limits.point? = none) (hb : ¬(confinedBounds e held a v).Consistent) :
    Effect slack fixed e vs held .fewFree
      ⟨vs.set j v.settle, e.marked true false, decide v.IsFixed, [.boundsCross e.name v.name]⟩
  -- two free variables, each of which receives the bounds that the other one implies
  | narrowed {j a k b v w} (hf : e.terms.free fixed = [(j, a), (k, b)]) (hj : vs[j]? = some v)
      (hk : vs[k]? = some w) (hv : (FewFree.narrowed e held v a b w).bounds.Consistent)
      (hw : (FewFree.narrowed e held w b a v).bounds.Consistent) :
    Effect slack fixed e vs held .fewFree
      ⟨(vs.set j (FewFree.narrowed e held v a b w).settle).set k
          (FewFree.narrowed e held w b a v).settle,
        e,
        decide ((FewFree.narrowed e held v a b w).IsFixed ∨
          (FewFree.narrowed e held w b a v).IsFixed),
        []⟩
  | derivedCrossed {j a k b v w} (hf : e.terms.free fixed = [(j, a), (k, b)])
      (hj : vs[j]? = some v) (hk : vs[k]? = some w)
      (hb : ¬((FewFree.narrowed e held v a b w).bounds.Consistent ∧
        (FewFree.narrowed e held w b a v).bounds.Consistent)) :
    Effect slack fixed e vs held .fewFree
      ⟨vs, e.marked true e.redundant, false, [.derivedBoundsCross e.name]⟩
  -- a limit may lie on the side of zero that the free terms cannot reach
  | unopposed (h : ∀ d l, (e.limits.subtract held).get d = some l → ¬Opposes e.terms fixed d l) :
    Effect slack fixed e vs held .signs (.unchanged e vs)
  | zeroed {d} (hd : (e.limits.subtract held).get d = some 0) (ho : Opposes e.terms fixed d 0)
      (hz : ∀ v ∈ targets (e.terms.freeIndices fixed) vs, v.TakesZero slack) :
    Effect slack fixed e vs held .signs
      ⟨Signs.zeroed slack (e.terms.freeIndices fixed) vs, e.marked false true,
        (targets (e.terms.freeIndices fixed) vs).any fun v => decide (v.TakesZero slack),
        (targets (e.terms.freeIndices fixed) vs).map (zeroEvent slack e.name)⟩
  | refusedZero {d} (hd : (e.limits.subtract held).get d = some 0) (ho : Opposes e.terms fixed d 0)
      (hz : ¬∀ v ∈ targets (e.terms.freeIndices fixed) vs, v.TakesZero slack) :
    Effect slack fixed e vs held .signs
      ⟨Signs.zeroed slack (e.terms.freeIndices fixed) vs, e.marked true true,
        (targets (e.terms.freeIndices fixed) vs).any fun v => decide (v.TakesZero slack),
        (targets (e.terms.freeIndices fixed) vs).map (zeroEvent slack e.name)⟩
  | unreachable {d l} (hd : (e.limits.subtract held).get d = some l)
      (ho : Opposes e.terms fixed d l) (hl : l ≠ 0) :
    Effect slack fixed e vs held .signs
      ⟨vs, e.marked true false, false, [.unreachableLimit e.name d]⟩

namespace Effect

variable {slack held : ℚ} {fixed : IndexSet} {e : Expression} {vs : List Variable}

theorem getElem?_of_range (hr : ∀ j ∈ e.terms.indices, j < vs.length) {t : ℕ × ℚ}
    (ht : t ∈ e.terms.free fixed) : ∃ v, vs[t.1]? = some v :=
  ⟨_, List.getElem?_eq_getElem (hr _ (Terms.fst_mem_indices (Terms.mem_free.mp ht).1))⟩

theorem exists_of_nil (slack held : ℚ) (vs : List Variable) (hf : e.terms.free fixed = []) :
    ∃ s, Effect slack fixed e vs held .fewFree s := by
  cases hv : e.violation? slack held with
  | none => exact ⟨_, checked hf hv⟩
  | some report => exact ⟨_, outside hf hv⟩

theorem exists_of_singleton (slack held : ℚ) {j : ℕ} {a : ℚ} {v : Variable}
    (hf : e.terms.free fixed = [(j, a)]) (hj : vs[j]? = some v) :
    ∃ s, Effect slack fixed e vs held .fewFree s := by
  cases hl : e.limits.point? with
  | none =>
    by_cases hb : (confinedBounds e held a v).Consistent
    · exact ⟨_, confined hf hj hl hb⟩
    · exact ⟨_, crossed hf hj hl hb⟩
  | some level =>
    by_cases hk : v.kind.Admits (solution held a level)
    · cases hv : v.violation? slack (solution held a level) with
      | none => exact ⟨_, solved hf hj hl hk hv⟩
      | some report => exact ⟨_, beyond hf hj hl hk hv⟩
    · exact ⟨_, fractional hf hj hl hk⟩

theorem exists_of_pair (slack held : ℚ) {j k : ℕ} {a b : ℚ} {v w : Variable}
    (hf : e.terms.free fixed = [(j, a), (k, b)]) (hj : vs[j]? = some v) (hk : vs[k]? = some w) :
    ∃ s, Effect slack fixed e vs held .fewFree s := by
  by_cases hb : (FewFree.narrowed e held v a b w).bounds.Consistent ∧
      (FewFree.narrowed e held w b a v).bounds.Consistent
  · exact ⟨_, narrowed hf hj hk hb.1 hb.2⟩
  · exact ⟨_, derivedCrossed hf hj hk hb⟩

theorem exists_fewFree (slack held : ℚ) (fixed : IndexSet)
    (hr : ∀ j ∈ e.terms.indices, j < vs.length) :
    ∃ s, Effect slack fixed e vs held .fewFree s := by
  rcases hf : e.terms.free fixed with _ | ⟨⟨j, a⟩, _ | ⟨⟨k, b⟩, _ | ⟨t, ts⟩⟩⟩
  · exact exists_of_nil slack held vs hf
  · obtain ⟨v, hj⟩ := getElem?_of_range (t := (j, a)) hr (by rw [hf]; simp)
    exact exists_of_singleton slack held hf hj
  · obtain ⟨v, hj⟩ := getElem?_of_range (t := (j, a)) hr (by rw [hf]; simp)
    obtain ⟨w, hk⟩ := getElem?_of_range (t := (k, b)) hr (by rw [hf]; simp)
    exact exists_of_pair slack held hf hj hk
  · exact ⟨_, tooMany (by simp [hf])⟩

theorem exists_signs (slack held : ℚ) (fixed : IndexSet) (e : Expression) (vs : List Variable) :
    ∃ s, Effect slack fixed e vs held .signs s := by
  by_cases h : ∃ d l, (e.limits.subtract held).get d = some l ∧ Opposes e.terms fixed d l
  · obtain ⟨d, l, hd, ho⟩ := h
    by_cases hl : l = 0
    · subst hl
      by_cases hz : ∀ v ∈ targets (e.terms.freeIndices fixed) vs, v.TakesZero slack
      · exact ⟨_, zeroed hd ho hz⟩
      · exact ⟨_, refusedZero hd ho hz⟩
    · exact ⟨_, unreachable hd ho hl⟩
  · exact ⟨_, unopposed fun d l hd ho => h ⟨d, l, hd, ho⟩⟩

end Effect

end ExactPresolve
