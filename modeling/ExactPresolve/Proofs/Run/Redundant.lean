import ExactPresolve.Proofs.Run.Presolve

/-!
# When a mark as redundant is justified

An expression that a rule marks as redundant follows from the bounds of the variables at that time.
Later applications go on to change these bounds. As long as they only tighten them, the mark stays
justified. But a later equation may fix a variable at a value beyond its bounds, if the slack allows
it, and the expression is not checked again. Since an expression becomes redundant only when it has
one variable left at most, this can happen only if all its variables are fixed in the end, and then
its held value tells whether it did.

* `Expression.Settled`: what stays true of a redundant expression;
* `State.Reaches.of_redundant`: a property of redundant expressions along a run;
* `Model.Justifies`: the bounds of the variables imply an expression;
* **`Model.redundant_justified_iff`**: which marks are justified in the end.
-/

namespace ExactPresolve

namespace Expression

/-- At most one variable of the expression is not fixed, and if there is one, then the bounds imply
the expression. -/
structure Settled (e : Expression) (vs : List Variable) : Prop where
  unique : ∀ j ∈ e.terms.indices, ∀ k ∈ e.terms.indices, ∀ v w, vs[j]? = some v → vs[k]? = some w →
    ¬v.IsFixed → ¬w.IsFixed → j = k
  implied : ∀ j ∈ e.terms.indices, ∀ v, vs[j]? = some v → ¬v.IsFixed → e.Implied vs

variable {e : Expression} {slack : ℚ} {js : List ℕ} {vs ws : List Variable}

theorem Implied.changes (h : e.Implied vs) (hc : Changes slack js vs ws) (hs : slack ≤ 0) :
    e.Implied ws := by
  refine fun x hx => h x fun k hk v hv => ?_
  obtain ⟨w, hw, -⟩ := hc.exists_after hv
  exact Bounds.mem_of_subset (hc.subset hv hw (.inl hs)) (hx k hk w hw)

/-- Changes to variables that are not fixed leave a settled expression settled. If one of them fixes
the last variable beyond its bounds, then no variable is left to claim anything about. -/
theorem Settled.changes (h : e.Settled vs) (hc : Changes slack js vs ws)
    (hkeep : ∀ (k : ℕ) (v : Variable), vs[k]? = some v → v.IsFixed → ws[k]? = some v) :
    e.Settled ws := by
  have hback {k : ℕ} {w : Variable} (hw : ws[k]? = some w) (hnw : ¬w.IsFixed) :
      ∃ v, vs[k]? = some v ∧ ¬v.IsFixed := by
    obtain ⟨v, hv, -⟩ := hc.exists_before hw
    refine ⟨v, hv, fun hf => hnw ?_⟩
    rwa [← Option.some.inj ((hkeep k v hv hf).symm.trans hw)]
  constructor
  · intro j hj k hk v w hv hw hnv hnw
    obtain ⟨v', hv', hnv'⟩ := hback hv hnv
    obtain ⟨w', hw', hnw'⟩ := hback hw hnw
    exact h.unique j hj k hk v' w' hv' hw' hnv' hnw'
  · intro j hj w hw hnw x hx
    obtain ⟨v, hv, hnv⟩ := hback hw hnw
    refine h.implied j hj v hv hnv x fun k hk u hu => ?_
    by_cases hfu : u.IsFixed
    · exact hx k hk u (hkeep k u hu hfu)
    · obtain rfl := h.unique j hj k hk v u hv hu hnv hfu
      exact Bounds.mem_of_subset (hc.subset hu hw (.inr hnw)) (hx j hj w hw)

def HeldWithin (e : Expression) (fixed : IndexSet) (vs : List Variable) : Prop :=
  ∃ held ∈ (e.heldValue fixed vs).toOption, held ∈ e.limits

instance (e : Expression) (fixed : IndexSet) (vs : List Variable) :
    Decidable (e.HeldWithin fixed vs) :=
  inferInstanceAs (Decidable (∃ held ∈ (e.heldValue fixed vs).toOption, held ∈ e.limits))

theorem Ready.holds_iff {fixed : IndexSet} (hr : e.Ready fixed vs)
    (hall : ∀ j ∈ e.terms.indices, j ∈ fixed) {x : ℕ → ℚ} (hx : e.InBounds vs x) :
    e.Holds x ↔ e.HeldWithin fixed vs := by
  obtain ⟨held, hh⟩ := hr.held.exists_heldValue
  have hval := eval_of_heldValue hr.held hx hh
  rw [Terms.free_eq_nil hall, linear_nil, add_zero] at hval
  simp [Holds, HeldWithin, hh, hval, Except.toOption]

end Expression

/-! ## Along a run -/

namespace State

variable {slack : ℚ} {rules : List Rule} {a b : State} {r : Rule} {i : ℕ} {e : Expression}
  {s : Step}

/-- A property that a new mark establishes and that applications keep holds of all redundant
expressions. -/
theorem Reaches.of_redundant {P : Expression → List Variable → Prop} (h : Reaches slack rules a b)
    (hnew : ∀ {a : State} {r i e s}, a.Coherent → a.Applies slack r i e s →
      s.expression.infeasible = false → s.expression.redundant = true → P s.expression s.vars)
    (hkeep : ∀ {a : State} {r i e s f}, a.Coherent → a.Applies slack r i e s → P f a.vars →
      P f s.vars)
    (ha : a.Coherent) (h0 : ∀ e ∈ a.expressions, e.redundant = true → P e a.vars) :
    ∀ e ∈ b.expressions, e.redundant = true → P e b.vars := by
  refine h.invariant (P := fun c => ∀ e ∈ c.expressions, e.redundant = true → P e c.vars) ha h0
    (fun _ _ ih => ih) fun hc _ happ hi ih f hf hd => ?_
  rw [vars_after]
  rcases List.mem_or_eq_of_mem_set hf with hf | rfl
  · exact hkeep hc happ (ih f hf hd)
  · exact hnew hc happ hi hd

theorem Applies.implied (h : a.Applies slack r i e s) (ha : a.Coherent)
    (hi : s.expression.infeasible = false) (hd : s.expression.redundant = true) :
    s.expression.Implied s.vars := by
  obtain ⟨held, hh, hE⟩ := h.effect ha
  exact hE.implied h.inForce (ha.ready h.getElem?_eq) hh hd hi

theorem Applies.settled (h : a.Applies slack r i e s) (ha : a.Coherent)
    (hi : s.expression.infeasible = false) (hd : s.expression.redundant = true) :
    s.expression.Settled s.vars := by
  obtain ⟨held, -, hE⟩ := h.effect ha
  refine ⟨fun j hj k hk v w => ?_, fun j _ v _ _ => h.implied ha hi hd⟩
  rw [hE.terms_eq] at hj hk
  exact hE.unfixed_unique h.inForce (ha.ready h.getElem?_eq) hd hi hj hk

/-- **Redundant expressions stay settled along a run.** -/
theorem Reaches.settled (h : Reaches slack rules a b) (ha : a.Coherent)
    (h0 : ∀ e ∈ a.expressions, e.InForce) :
    ∀ e ∈ b.expressions, e.redundant = true → e.Settled b.vars := by
  refine h.of_redundant (fun hc happ hi hd => happ.settled hc hi hd)
    (fun hc happ hP => ?_) ha fun e he hd => ?_
  · obtain ⟨held, -, hE⟩ := happ.effect hc
    exact hP.changes hE.changes fun k v hv hf => happ.getElem?_of_isFixed hc hv hf
  · cases (h0 e he).1.symm.trans hd

/-- **Without slack, redundant expressions stay implied along a run.** -/
theorem Reaches.implied (h : Reaches slack rules a b) (hs : slack ≤ 0) (ha : a.Coherent)
    (h0 : ∀ e ∈ a.expressions, e.InForce) :
    ∀ e ∈ b.expressions, e.redundant = true → e.Implied b.vars := by
  refine h.of_redundant (fun hc happ hi hd => happ.implied hc hi hd)
    (fun hc happ hP => ?_) ha fun e he hd => ?_
  · obtain ⟨held, -, hE⟩ := happ.effect hc
    exact hP.changes hE.changes hs
  · cases (h0 e he).1.symm.trans hd

end State

open State

namespace Model

variable {m : Model}

def Justifies (m : Model) (e : Expression) : Prop :=
  ∀ point, m.Admits point → e.IsSatisfiedBy point

theorem isSatisfiedBy_iff_holds {b : State} (hb : b.Coherent) {options : Options} {e : Expression}
    (he : e ∈ b.expressions) {point : List ℚ}
    (hp : Admits ⟨b.vars, b.expressions, options⟩ point) :
    e.InBounds b.vars (valuation point) ∧ (e.IsSatisfiedBy point ↔ e.Holds (valuation point)) := by
  obtain ⟨hlen, hfit⟩ := admits_iff.mp hp
  exact ⟨Expression.inBounds_of_fits hfit,
    Expression.isSatisfiedBy_iff fun j hj => hlen ▸ hb.range e he j hj⟩

/-- In a settled state, the bounds imply a redundant expression unless all its variables are fixed
and its held value is outside of the limits. -/
theorem justifies_iff {b : State} (hb : b.Coherent) {options : Options} {e : Expression}
    (he : e ∈ b.expressions) (hs : e.Settled b.vars) :
    Justifies ⟨b.vars, b.expressions, options⟩ e ↔
      ((∀ j ∈ e.terms.indices, j ∈ b.fixed) →
        (∃ point, Admits ⟨b.vars, b.expressions, options⟩ point) →
          e.HeldWithin b.fixed b.vars) := by
  obtain ⟨i, hi⟩ := List.mem_iff_getElem?.mp he
  have hr := hb.ready hi
  constructor
  · rintro hj hall ⟨point, hp⟩
    obtain ⟨hx, hiff⟩ := isSatisfiedBy_iff_holds hb he hp
    exact (hr.holds_iff hall hx).mp (hiff.mp (hj point hp))
  · intro h point hp
    obtain ⟨hx, hiff⟩ := isSatisfiedBy_iff_holds hb he hp
    rw [hiff]
    by_cases hall : ∀ j ∈ e.terms.indices, j ∈ b.fixed
    · exact (hr.holds_iff hall hx).mpr (h hall ⟨point, hp⟩)
    · push Not at hall
      obtain ⟨j, hj, hjf⟩ := hall
      have hlt := hr.range j hj
      have hv : b.vars[j]? = some b.vars[j] := List.getElem?_eq_getElem hlt
      exact hs.implied j hj _ hv (fun hf => hjf ((hb.mem_fixed j).mpr ⟨_, hv, hf⟩)) _ hx

/-- **Which marks as redundant are justified in the end.** Without slack all of them are. -/
theorem redundant_justified_iff (hm : m.Built) (hf : ∀ e ∈ m.expressions, e.InForce)
    (rules : List Rule) :
    ∃ r, m.presolve rules = .ok r ∧ (¬r.summary.status.IsInfeasible →
      ∀ e ∈ r.model.expressions, e.redundant = true →
        (r.model.Justifies e ↔
          ((∀ j ∈ e.terms.indices, j ∈ r.summary.fixed) → (∃ point, r.model.Admits point) →
            e.HeldWithin r.summary.fixed r.model.vars)) ∧
        (m.options.slack = 0 → r.model.Justifies e)) := by
  obtain ⟨r, b, hr, hO, hmodel, hfixed⟩ := exists_presolve hm.wellFormed rules
  refine ⟨r, hr, fun hfin e he hd => ?_⟩
  have hstart := coherent_start hm.wellFormed
  have hreach := hO.reaches hfin
  have hb := hstart.reaches hreach
  rw [hmodel] at he ⊢
  rw [hfixed]
  refine ⟨justifies_iff hb he (hreach.settled hstart hf e he hd), fun hs point hp => ?_⟩
  obtain ⟨hx, hiff⟩ := isSatisfiedBy_iff_holds hb he hp
  exact hiff.mpr (hreach.implied hs.le hstart hf e he hd _ hx)

/-- A model with slack, in which an equation fixes a variable beyond the bounds that an earlier
expression left. -/
def strained : Model where
  vars := [⟨"x", .continuous, ⟨some 0, some 10⟩, none⟩, ⟨"y", .integer, ⟨some 0, some 4⟩, none⟩]
  expressions := [⟨"c", .ofList [(0, 10)], ⟨none, some 50⟩, false, false⟩,
    ⟨"d", .ofList [(0, 2)], .point 11, false, false⟩,
    ⟨"e", .ofList [(0, 2), (1, 3)], ⟨none, some 19⟩, false, false⟩]
  options := ⟨1, none⟩

theorem redundant_justified_iff_strained : ∃ r, strained.presolve [.fewFree, .signs] = .ok r ∧
    ∀ e ∈ r.model.expressions, e.redundant = true ∧ (r.model.Justifies e ↔ e.name ≠ "c") := by
  have hm : strained.Built := by decide +kernel
  obtain ⟨r, hr, hjust⟩ := redundant_justified_iff hm (by decide +kernel) [.fewFree, .signs]
  have hrun : ∀ r ∈ (strained.presolve [.fewFree, .signs]).toOption,
      ¬r.summary.status.IsInfeasible ∧ r.model.Admits [11 / 2, 0] ∧
        ∀ e ∈ r.model.expressions, e.redundant = true ∧
          (((∀ j ∈ e.terms.indices, j ∈ r.summary.fixed) →
            e.HeldWithin r.summary.fixed r.model.vars) ↔ e.name ≠ "c") := by
    decide +kernel
  obtain ⟨hfin, hadm, hall⟩ := hrun r (by rw [hr]; rfl)
  refine ⟨r, hr, fun e he => ?_⟩
  obtain ⟨hd, hname⟩ := hall e he
  refine ⟨hd, ?_⟩
  rw [(hjust hfin e he hd).1, ← hname]
  exact forall_congr' fun _ => ⟨fun h => h ⟨_, hadm⟩, fun h _ => h⟩

/-- The smallest model whose slack leaves a mark as redundant without justification. -/
def pressed : Model where
  vars := [⟨"x", .continuous, ⟨some 0, some 10⟩, none⟩]
  expressions := [⟨"c", .ofList [(0, 10)], ⟨none, some 50⟩, false, false⟩,
    ⟨"d", .ofList [(0, 2)], .point 11, false, false⟩]
  options := ⟨1, some 1000⟩

theorem not_redundant_justified : ¬∀ m : Model, m.Built → (∀ e ∈ m.expressions, e.InForce) →
    0 ≤ m.options.slack → ∀ rules r, m.presolve rules = .ok r → ¬r.summary.status.IsInfeasible →
      ∀ e ∈ r.model.expressions, e.redundant = true → r.model.Justifies e := by
  intro h
  have hm : pressed.Built := by decide +kernel
  have hrun : ∀ r ∈ (pressed.presolve [.fewFree]).toOption, ¬r.summary.status.IsInfeasible ∧
      r.model.Admits [11 / 2] ∧ ∃ e ∈ r.model.expressions, e.redundant = true ∧
        ¬e.IsSatisfiedBy [11 / 2] := by
    decide +kernel
  obtain ⟨r, -, hr, -⟩ := exists_presolve hm.wellFormed [.fewFree]
  obtain ⟨hfin, hadm, e, he, hd, hsat⟩ := hrun r (by rw [hr]; rfl)
  exact hsat (h pressed hm (by decide +kernel) (by decide +kernel) _ r hr hfin e he hd _ hadm)

end Model

end ExactPresolve
