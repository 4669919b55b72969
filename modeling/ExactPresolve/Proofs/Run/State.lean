import ExactPresolve.Presolve
import ExactPresolve.Proofs.Rule.Apply
import ExactPresolve.Proofs.Rule.Solutions
import Mathlib.Logic.Relation

/-!
# The states of a run

A run goes from state to state by applying a rule to an expression in force. Between applications
the expressions, the variables and the fixed set fit together, which is all that the rules rely on.

* `State`, `State.Applies`, `State.after`: a state, and one application of a rule in it;
* `State.Advance`, `State.Reaches`: the accepted applications, one and any number of them;
* `WellFormed`: terms refer to variables, and no bounds or limits cross;
* `WellFormed.append_variable_iff`, `WellFormed.append_expression_iff`: what may be added;
* `State.Coherent`: in addition, the fixed set holds the variables with equal bounds, and no others;
* **`State.Coherent.reaches`**: a coherent state reaches only coherent states;
* **`State.Reaches.invariant`**: what accepted applications preserve holds along a run.
-/

namespace ExactPresolve

/-! ## Sets of indices -/

namespace IndexSet

variable {s t : IndexSet}

theorem nodup_toList (s : IndexSet) : s.toList.Nodup := s.increasing.imp fun h => Nat.ne_of_lt h

/-- A set with no more members than a subset of it is that subset. -/
theorem eq_of_subset_of_size_le (h : ∀ j ∈ s, j ∈ t) (hs : t.size ≤ s.size) : s = t := by
  have hp := (s.nodup_toList.subperm fun j hj => h j hj).perm_of_length_le hs
  exact IndexSet.ext fun j => hp.mem_iff

end IndexSet

theorem mem_fixedFrom {vs : List Variable} {i j : ℕ} :
    j ∈ fixedFrom i vs ↔ ∃ k v, j = i + k ∧ vs[k]? = some v ∧ v.IsFixed := by
  induction vs generalizing i with
  | nil => simp [fixedFrom]
  | cons u vs ih =>
    have hstep : (∃ k v, j = i + k ∧ (u :: vs)[k]? = some v ∧ v.IsFixed) ↔
        (j = i ∧ u.IsFixed) ∨ ∃ k v, j = i + 1 + k ∧ vs[k]? = some v ∧ v.IsFixed := by
      constructor
      · rintro ⟨_ | k, v, hj, hv, hf⟩
        · cases hv
          exact .inl ⟨hj, hf⟩
        · exact .inr ⟨k, v, by omega, hv, hf⟩
      · rintro (⟨hj, hf⟩ | ⟨k, v, hj, hv, hf⟩)
        · exact ⟨0, u, hj, rfl, hf⟩
        · exact ⟨k + 1, v, by omega, hv, hf⟩
    rw [hstep, ← ih, fixedFrom]
    split_ifs with hu <;> simp [hu]

theorem mem_fixedIndices {vs : List Variable} {j : ℕ} :
    j ∈ fixedIndices vs ↔ ∃ v, vs[j]? = some v ∧ v.IsFixed := by
  have he : ¬j ∈ IndexSet.empty := List.not_mem_nil
  simp [fixedIndices, IndexSet.ofList, IndexSet.mem_insertAll, mem_fixedFrom, he]

theorem Progress.mem_fixedAmong {vs : List Variable} {js : List ℕ} {j : ℕ} :
    j ∈ fixedAmong vs js ↔ j ∈ js ∧ ∃ v, vs[j]? = some v ∧ v.IsFixed := by
  simp [fixedAmong, Option.any_eq_true]

/-! ## States -/

/-- The state of a run between two applications of rules. -/
structure State where
  expressions : List Expression
  progress : Progress

namespace State

def vars (a : State) : List Variable := a.progress.vars

def fixed (a : State) : IndexSet := a.progress.fixed

/-- In the state, the rule `r` can be applied to the expression `e`, which is in force and has index
`i`, and its application is the step `s`. -/
structure Applies (slack : ℚ) (a : State) (r : Rule) (i : ℕ) (e : Expression) (s : Step) :
    Prop where
  getElem?_eq : a.expressions[i]? = some e
  inForce : e.InForce
  apply_eq : r.apply slack a.fixed e a.vars = .ok s

/-- The state after an application of the rule `r` to the expression of index `i`. -/
def after (a : State) (r : Rule) (i : ℕ) (s : Step) : State :=
  ⟨a.expressions.set i s.expression, a.progress.absorb r s⟩

def note (a : State) (event : Event) : State := ⟨a.expressions, a.progress.note event⟩

/-- What happens between two states while no expression turns out to be infeasible. -/
inductive Advance (slack : ℚ) (rules : List Rule) (a : State) : State → Prop
  | apply {r i e s} (hr : r ∈ rules) (h : a.Applies slack r i e s)
      (hi : s.expression.infeasible = false) : Advance slack rules a (a.after r i s)
  | note (event : Event) : Advance slack rules a (a.note event)

/-- The second state comes after the first one in some run. -/
def Reaches (slack : ℚ) (rules : List Rule) : State → State → Prop :=
  Relation.ReflTransGen (Advance slack rules)

@[simp] theorem vars_after (a : State) (r : Rule) (i : ℕ) (s : Step) :
    (a.after r i s).vars = s.vars := by
  simp only [after, vars, Progress.absorb]
  split_ifs <;> rfl

@[simp] theorem expressions_after (a : State) (r : Rule) (i : ℕ) (s : Step) :
    (a.after r i s).expressions = a.expressions.set i s.expression := rfl

@[simp] theorem fixed_after (a : State) (r : Rule) (i : ℕ) (s : Step) :
    (a.after r i s).fixed =
      if s.fixedAny ∧ ¬s.expression.infeasible then
        a.fixed.insertAll (Progress.fixedAmong s.vars s.expression.terms.indices)
      else a.fixed := by
  simp only [after, fixed, Progress.absorb]
  split_ifs <;> rfl

@[simp] theorem fixes_after (a : State) (r : Rule) (i : ℕ) (s : Step) :
    (a.after r i s).progress.fixes =
      if s.fixedAny ∧ ¬s.expression.infeasible then a.progress.fixes.increment r
      else a.progress.fixes := by
  simp only [after, Progress.absorb]
  split_ifs <;> rfl

@[simp] theorem events_after (a : State) (r : Rule) (i : ℕ) (s : Step) :
    (a.after r i s).progress.events = a.progress.events ++ s.events := by
  simp only [after, Progress.absorb]
  split_ifs <;> rfl

theorem mem_fixed_after {a : State} {r : Rule} {i : ℕ} {s : Step} {j : ℕ}
    (hi : s.expression.infeasible = false) :
    j ∈ (a.after r i s).fixed ↔ j ∈ a.fixed ∨ s.fixedAny = true ∧
      j ∈ s.expression.terms.indices ∧ ∃ v, s.vars[j]? = some v ∧ v.IsFixed := by
  cases hf : s.fixedAny with
  | false => simp [hf]
  | true => simp [hf, hi, IndexSet.mem_insertAll, Progress.mem_fixedAmong, or_comm]

end State

/-! ## Invariants -/

/-- The terms of the expressions refer to variables that exist, and no bounds or limits cross. -/
structure WellFormed (es : List Expression) (vs : List Variable) : Prop where
  range : ∀ e ∈ es, ∀ j ∈ e.terms.indices, j < vs.length
  limits : ∀ e ∈ es, e.limits.Consistent
  bounds : ∀ v ∈ vs, v.bounds.Consistent

theorem wellFormed_iff {es : List Expression} {vs : List Variable} : WellFormed es vs ↔
    (∀ e ∈ es, ∀ j ∈ e.terms.indices, j < vs.length) ∧ (∀ e ∈ es, e.limits.Consistent) ∧
      ∀ v ∈ vs, v.bounds.Consistent :=
  ⟨fun h => ⟨h.range, h.limits, h.bounds⟩, fun h => ⟨h.1, h.2.1, h.2.2⟩⟩

instance (es : List Expression) (vs : List Variable) : Decidable (WellFormed es vs) :=
  decidable_of_iff _ wellFormed_iff.symm

namespace WellFormed

variable {es : List Expression} {vs : List Variable} {e : Expression} {v : Variable}

theorem append_variable_iff (h : WellFormed es vs) :
    WellFormed es (vs ++ [v]) ↔ v.bounds.Consistent := by
  refine ⟨fun h' => h'.bounds v (by simp), fun hv => ⟨fun e he j hj => ?_, h.limits, fun w hw => ?_⟩⟩
  · exact (h.range e he j hj).trans_le (by simp)
  · rcases List.mem_append.mp hw with hw | hw
    · exact h.bounds w hw
    · rwa [List.mem_singleton.mp hw]

theorem append_expression_iff (h : WellFormed es vs) : WellFormed (es ++ [e]) vs ↔
    (∀ j ∈ e.terms.indices, j < vs.length) ∧ e.limits.Consistent := by
  constructor
  · exact fun h' => ⟨h'.range e (by simp), h'.limits e (by simp)⟩
  · rintro ⟨hr, hl⟩
    refine ⟨fun f hf => ?_, fun f hf => ?_, h.bounds⟩
    · rcases List.mem_append.mp hf with hf | hf
      · exact h.range f hf
      · rwa [List.mem_singleton.mp hf]
    · rcases List.mem_append.mp hf with hf | hf
      · exact h.limits f hf
      · rwa [List.mem_singleton.mp hf]

end WellFormed

namespace State

/-- The state is well formed, and its fixed set holds exactly the variables with equal bounds. -/
structure Coherent (a : State) : Prop extends WellFormed a.expressions a.vars where
  mem_fixed : ∀ j, j ∈ a.fixed ↔ ∃ v, a.vars[j]? = some v ∧ v.IsFixed

variable {slack : ℚ} {rules : List Rule} {a b : State} {r : Rule} {i : ℕ} {e : Expression}
  {s : Step}

theorem Coherent.ready (h : a.Coherent) (he : a.expressions[i]? = some e) :
    e.Ready a.fixed a.vars where
  range := h.range e (List.mem_of_getElem? he)
  held j _ hj := (h.mem_fixed j).mp hj
  limits := h.limits e (List.mem_of_getElem? he)

theorem Applies.getElem?_after (h : a.Applies slack r i e s) :
    (a.after r i s).expressions[i]? = some s.expression :=
  List.getElem?_set_self (List.getElem?_eq_some_iff.mp h.getElem?_eq).1

theorem Applies.effect (h : a.Applies slack r i e s) (ha : a.Coherent) :
    ∃ held, e.heldValue a.fixed a.vars = .ok held ∧ Effect slack a.fixed e a.vars held r s :=
  Rule.effect_of_apply h.inForce (ha.ready h.getElem?_eq) h.apply_eq

theorem Applies.wellFormed (h : a.Applies slack r i e s) (ha : a.Coherent) :
    WellFormed (a.after r i s).expressions (a.after r i s).vars := by
  obtain ⟨held, -, hE⟩ := h.effect ha
  have hr := ha.ready h.getElem?_eq
  rw [vars_after, expressions_after]
  refine ⟨fun f hf j hj => ?_, fun f hf => ?_, fun w hw => ?_⟩
  · rw [hE.changes.1]
    rcases List.mem_or_eq_of_mem_set hf with hf | rfl
    · exact ha.range f hf j hj
    · rw [hE.terms_eq] at hj
      exact hr.range j hj
  · rcases List.mem_or_eq_of_mem_set hf with hf | rfl
    · exact ha.limits f hf
    · exact hE.consistent_limits hr.limits
  · obtain ⟨k, hk⟩ := List.mem_iff_getElem?.mp hw
    obtain ⟨v, hv, rfl | ⟨-, hc⟩⟩ := hE.changes.exists_before hk
    · exact ha.bounds w (List.mem_of_getElem? hv)
    · exact hc.consistent (ha.bounds v (List.mem_of_getElem? hv))

theorem Applies.coherent (h : a.Applies slack r i e s) (ha : a.Coherent)
    (hi : s.expression.infeasible = false) : (a.after r i s).Coherent := by
  obtain ⟨held, -, hE⟩ := h.effect ha
  refine ⟨h.wellFormed ha, fun j => ?_⟩
  rw [mem_fixed_after hi, vars_after]
  constructor
  · rintro (hj | ⟨-, -, hj⟩)
    · obtain ⟨v, hv, hf⟩ := (ha.mem_fixed j).mp hj
      exact ⟨v, (hE.getElem?_held hj).trans hv, hf⟩
    · exact hj
  · rintro ⟨w, hw, hf⟩
    by_cases hj : j ∈ a.fixed
    · exact .inl hj
    · obtain ⟨v, hv, hc⟩ := hE.changes.exists_before hw
      have hnv : ¬v.IsFixed := fun hfv => hj ((ha.mem_fixed j).mpr ⟨v, hv, hfv⟩)
      rcases hc with rfl | ⟨hjf, -⟩
      · exact absurd hf hnv
      · have hji := (Terms.mem_freeIndices.mp hjf).1
        rw [← hE.terms_eq] at hji
        exact .inr ⟨hE.fixedAny_of_isFixed hv hnv hw hf, hji, w, hw, hf⟩

theorem Coherent.note (ha : a.Coherent) (event : Event) : (a.note event).Coherent :=
  ⟨ha.toWellFormed, ha.mem_fixed⟩

theorem Coherent.advance (ha : a.Coherent) (h : Advance slack rules a b) : b.Coherent := by
  cases h with
  | apply _ h hi => exact h.coherent ha hi
  | note event => exact ha.note event

/-- **A coherent state reaches only coherent states.** -/
theorem Coherent.reaches (ha : a.Coherent) (h : Reaches slack rules a b) : b.Coherent := by
  induction h with
  | refl => exact ha
  | tail _ h ih => exact ih.advance h

/-- **What accepted applications preserve holds along a run**, and each of them starts in a coherent
state. -/
theorem Reaches.invariant {P : State → Prop} (h : Reaches slack rules a b) (ha : a.Coherent)
    (h0 : P a) (hnote : ∀ c event, P c → P (note c event))
    (happ : ∀ {c r i e s}, Coherent c → r ∈ rules → c.Applies slack r i e s →
      s.expression.infeasible = false → P c → P (c.after r i s)) : P b := by
  induction h with
  | refl => exact h0
  | tail h h' ih =>
    cases h' with
    | apply hr h' hi => exact happ (ha.reaches h) hr h' hi ih
    | note event => exact hnote _ event ih

/-! ## What stays along a run -/

theorem Applies.length_vars (h : a.Applies slack r i e s) (ha : a.Coherent) :
    s.vars.length = a.vars.length := by
  obtain ⟨held, -, hE⟩ := h.effect ha
  exact hE.changes.1

theorem Reaches.length_vars (h : Reaches slack rules a b) (ha : a.Coherent) :
    b.vars.length = a.vars.length := by
  refine h.invariant (P := fun c => c.vars.length = a.vars.length) ha rfl (fun _ _ ih => ih)
    fun hc _ happ _ ih => ?_
  rw [vars_after]
  exact (happ.length_vars hc).trans ih

theorem Applies.getElem?_of_isFixed (h : a.Applies slack r i e s) (ha : a.Coherent) {k : ℕ}
    {v : Variable} (hv : a.vars[k]? = some v) (hf : v.IsFixed) : s.vars[k]? = some v := by
  obtain ⟨held, -, hE⟩ := h.effect ha
  exact (hE.getElem?_held ((ha.mem_fixed k).mpr ⟨v, hv, hf⟩)).trans hv

theorem Reaches.getElem?_of_isFixed (h : Reaches slack rules a b) (ha : a.Coherent) {k : ℕ}
    {v : Variable} (hv : a.vars[k]? = some v) (hf : v.IsFixed) : b.vars[k]? = some v := by
  refine h.invariant (P := fun c => c.vars[k]? = some v) ha hv (fun _ _ ih => ih)
    fun hc _ happ _ ih => ?_
  rw [vars_after]
  exact happ.getElem?_of_isFixed hc ih hf

theorem Reaches.fixed_subset (h : Reaches slack rules a b) (ha : a.Coherent) {j : ℕ}
    (hj : j ∈ a.fixed) : j ∈ b.fixed := by
  exact h.invariant (P := fun c => j ∈ c.fixed) ha hj (fun _ _ ih => ih)
    fun _ _ _ hi ih => (mem_fixed_after hi).mpr (.inl ih)

/-- An application leaves alone an expression that is out of force. -/
theorem Applies.getElem?_of_not_inForce {k : ℕ} {f : Expression} (h : a.Applies slack r k f s)
    (he : a.expressions[i]? = some e) (hf : ¬e.InForce) :
    (a.after r k s).expressions[i]? = some e := by
  have hk : k ≠ i := by
    rintro rfl
    exact hf (Option.some.inj (he.symm.trans h.getElem?_eq) ▸ h.inForce)
  exact (List.getElem?_set_ne hk).trans he

theorem Reaches.getElem?_of_not_inForce (h : Reaches slack rules a b) (ha : a.Coherent)
    (he : a.expressions[i]? = some e) (hf : ¬e.InForce) : b.expressions[i]? = some e :=
  h.invariant (P := fun c => c.expressions[i]? = some e) ha he (fun _ _ ih => ih)
    fun _ _ happ _ ih => happ.getElem?_of_not_inForce ih hf

theorem Reaches.not_infeasible (h : Reaches slack rules a b) (ha : a.Coherent)
    (h0 : ∀ e ∈ a.expressions, e.infeasible = false) :
    ∀ e ∈ b.expressions, e.infeasible = false := by
  refine h.invariant (P := fun c => ∀ e ∈ c.expressions, e.infeasible = false) ha h0
    (fun _ _ ih => ih) fun _ _ _ hi ih f hf => ?_
  rcases List.mem_or_eq_of_mem_set hf with hf | rfl
  · exact ih f hf
  · exact hi

end State

end ExactPresolve
