import ExactPresolve.Proofs.Run.Presolve

/-!
# What a run makes of a variable

A rule changes only variables that are not fixed, so a run changes a variable again and again until
it is fixed, and then never more. Until then its bounds only become tighter and its value stays as it
is. The change that fixes it is the only one that sets the value, and the only one that may move the
bounds outwards, by the slack at most.

* `Bounds.widen`: bounds moved outwards at both ends;
* `Variable.Becomes`, `BecomeEach`: what any number of changes make of a variable, and of each
  variable of a list;
* **`Variable.Becomes.trans`**: changes after changes;
* **`State.Applies.becomeEach`**, **`State.Ended.becomeEach`**: one application, and a run to its end;
* `State.Mentions`: the variables that occur in expressions, which are the only ones to change;
* **`Model.presolve_variable_cases`**: what presolve does to each variable.
-/

namespace ExactPresolve

namespace Bounds

variable {b c : Bounds} {slack x : ℚ}

/-- The bounds with both ends moved outwards by `slack`. -/
def widen (b : Bounds) (slack : ℚ) : Bounds := ⟨b.lower.map (· - slack), b.upper.map (· + slack)⟩

theorem mem_widen : x ∈ b.widen slack ↔ b.exceeded? slack x = none := by
  rw [exceeded?_eq_none_iff]
  obtain ⟨l, u⟩ := b
  cases l <;> cases u <;> simp [widen, Membership.mem]

theorem subset_widen (hs : 0 ≤ slack) (b : Bounds) : b ⊆ b.widen slack := by
  constructor
  · intro l hl
    obtain ⟨l', hl', rfl⟩ := Option.mem_map.mp hl
    exact ⟨l', hl', sub_le_self l' hs⟩
  · intro u hu
    obtain ⟨u', hu', rfl⟩ := Option.mem_map.mp hu
    exact ⟨u', hu', le_add_of_nonneg_right hs⟩

theorem widen_zero (b : Bounds) : b.widen 0 = b := by simp [widen]

theorem widen_subset_widen (h : b ⊆ c) (slack : ℚ) : b.widen slack ⊆ c.widen slack := by
  constructor
  · intro l hl
    obtain ⟨k, hk, rfl⟩ := Option.mem_map.mp hl
    obtain ⟨k', hk', hle⟩ := h.1 k hk
    exact ⟨_, Option.mem_map_of_mem _ hk', sub_le_sub_right hle slack⟩
  · intro u hu
    obtain ⟨k, hk, rfl⟩ := Option.mem_map.mp hu
    obtain ⟨k', hk', hle⟩ := h.2 k hk
    exact ⟨_, Option.mem_map_of_mem _ hk', add_le_add_left hle slack⟩

theorem subset_widen_iff : b ⊆ c.widen slack ↔
    (∀ l ∈ c.lower, ∃ l' ∈ b.lower, l - slack ≤ l') ∧
      ∀ u ∈ c.upper, ∃ u' ∈ b.upper, u' ≤ u + slack := by
  show (∀ l ∈ c.lower.map (· - slack), _) ∧ (∀ u ∈ c.upper.map (· + slack), _) ↔ _
  simp only [Option.mem_map, forall_exists_index, and_imp, forall_apply_eq_imp_iff₂]

end Bounds

namespace Variable

theorem settle_of_not_isFixed {v : Variable} (h : ¬v.IsFixed) : v.settle = v := by
  have hp : v.bounds.point? = none := by simpa [IsFixed] using h
  rw [settle, hp]

theorem settle_value {v : Variable} {x : ℚ} (h : v.bounds = .point x) : v.settle.value = some x := by
  simp [settle, h, withValue]

/-- What any number of changes make of the variable `v`, none of which touches a fixed variable. -/
structure Becomes (slack : ℚ) (v w : Variable) : Prop where
  name_eq : w.name = v.name
  kind_eq : w.kind = v.kind
  eq_of_isFixed : v.IsFixed → w = v
  value_eq : ¬w.IsFixed → w.value = v.value
  /-- A variable that is fixed on the way has a value of its kind. -/
  settled : ¬v.IsFixed → w.IsFixed →
    ∃ x, w.bounds = .point x ∧ w.value = some x ∧ v.kind.Admits x
  get_eq_or_admits : ∀ d x, w.bounds.get d = some x → v.bounds.get d = some x ∨ v.kind.Admits x
  /-- Only fixing the variable may move its bounds outwards. -/
  subset : w.bounds ⊆ v.bounds ∨ w.IsFixed ∧ w.bounds ⊆ v.bounds.widen slack

variable {slack : ℚ} {u v w : Variable}

theorem Becomes.refl (slack : ℚ) (v : Variable) : v.Becomes slack v where
  name_eq := rfl
  kind_eq := rfl
  eq_of_isFixed _ := rfl
  value_eq _ := rfl
  settled hn hf := absurd hf hn
  get_eq_or_admits _ _ h := .inl h
  subset := .inl v.bounds.subset_refl

/-- **What comes after fixing a variable adds nothing**, so the slack is used at most once. -/
theorem Becomes.trans (h : v.Becomes slack u) (h' : u.Becomes slack w) : v.Becomes slack w := by
  by_cases hu : u.IsFixed
  · -- whatever the first changes did with the slack, the second ones do nothing
    obtain rfl := h'.eq_of_isFixed hu
    exact h
  · have hv : ¬v.IsFixed := fun hf => hu (h.eq_of_isFixed hf ▸ hf)
    have hsub : u.bounds ⊆ v.bounds := h.subset.resolve_right fun hs => hu hs.1
    constructor
    · exact h'.name_eq.trans h.name_eq
    · exact h'.kind_eq.trans h.kind_eq
    · exact fun hf => absurd hf hv
    · exact fun hn => (h'.value_eq hn).trans (h.value_eq hu)
    · intro _ hf
      rw [← h.kind_eq]
      exact h'.settled hu hf
    · intro d x hx
      rcases h'.get_eq_or_admits d x hx with hx | hx
      · exact h.get_eq_or_admits d x hx
      · exact .inr (h.kind_eq ▸ hx)
    · rcases h'.subset with hs | ⟨hf, hs⟩
      · exact .inl (Bounds.subset_trans hs hsub)
      · exact .inr ⟨hf, Bounds.subset_trans hs (Bounds.widen_subset_widen hsub slack)⟩

theorem becomes_level {x : ℚ} (hn : ¬v.IsFixed) (hk : v.kind.Admits x)
    (hv : v.violation? slack x = none) : v.Becomes slack (v.level x) where
  name_eq := rfl
  kind_eq := rfl
  eq_of_isFixed hf := absurd hf hn
  value_eq h := absurd (v.isFixed_level x) h
  settled _ _ := ⟨x, rfl, rfl, hk⟩
  get_eq_or_admits d y hy := by
    obtain rfl : x = y := by cases d <;> exact Option.some.inj hy
    exact .inr hk
  subset :=
    .inr ⟨v.isFixed_level x,
      Bounds.point_subset (Bounds.mem_widen.mpr (violation?_eq_none_iff.mp hv))⟩

theorem becomes_narrow {b : Bounds} (hn : ¬v.IsFixed) (hb : b ⊆ v.bounds) :
    v.Becomes slack (v.withBounds (v.kind.roundInward b)).settle where
  name_eq := settle_name _
  kind_eq := settle_kind _
  eq_of_isFixed hf := absurd hf hn
  value_eq h := by
    rw [settle_of_not_isFixed (isFixed_settle.not.mp h)]
    rfl
  settled _ hf := by
    obtain ⟨x, hx⟩ := isFixed_iff.mp (isFixed_settle.mp hf)
    exact ⟨x, (settle_bounds _).trans hx, settle_value hx, Kind.admits_of_roundInward_eq hx⟩
  get_eq_or_admits d x hx := by
    rw [settle_bounds] at hx
    exact .inr (Kind.admits_of_get_roundInward hx)
  subset := by
    rw [settle_bounds]
    exact .inl (Bounds.subset_trans (v.kind.roundInward_subset b) hb)

/-- **One change** of a variable that is not fixed. -/
theorem Change.becomes (h : v.Change slack w) (hn : ¬v.IsFixed) : v.Becomes slack w := by
  cases h with
  | settle =>
    rw [settle_of_not_isFixed hn]
    exact .refl slack v
  | level hk hv => exact becomes_level hn hk hv
  | narrow hb => exact becomes_narrow hn hb

/-- However many changes there are, they move the bounds outwards by one slack at most. -/
theorem Becomes.subset_widen (h : v.Becomes slack w) (hs : 0 ≤ slack) :
    w.bounds ⊆ v.bounds.widen slack := by
  rcases h.subset with h | ⟨-, h⟩
  · exact Bounds.subset_trans h (Bounds.subset_widen hs _)
  · exact h

/-- The three cases of a variable in a run: it was fixed before, is not fixed after, or was fixed on
the way. -/
theorem Becomes.cases (h : v.Becomes slack w) : v.IsFixed ∧ w = v ∨
    ¬w.IsFixed ∧ w.value = v.value ∨
      ¬v.IsFixed ∧ ∃ x, w.bounds = .point x ∧ w.value = some x ∧ v.kind.Admits x := by
  by_cases hv : v.IsFixed
  · exact .inl ⟨hv, h.eq_of_isFixed hv⟩
  · by_cases hw : w.IsFixed
    · exact .inr (.inr ⟨hv, h.settled hv hw⟩)
    · exact .inr (.inl ⟨hw, h.value_eq hw⟩)

end Variable

/-- The variables of the second list are what changes make of those of the first one. -/
def BecomeEach (slack : ℚ) (vs ws : List Variable) : Prop :=
  ws.length = vs.length ∧ ∀ (k : ℕ) (v w : Variable), vs[k]? = some v → ws[k]? = some w →
    v.Becomes slack w

namespace BecomeEach

variable {slack : ℚ} {us vs ws : List Variable} {k : ℕ} {v : Variable}

theorem refl (slack : ℚ) (vs : List Variable) : BecomeEach slack vs vs := by
  refine ⟨rfl, fun k v w hv hw => ?_⟩
  obtain rfl := Option.some.inj (hv.symm.trans hw)
  exact .refl slack v

theorem exists_after (h : BecomeEach slack vs ws) (hv : vs[k]? = some v) :
    ∃ w, ws[k]? = some w ∧ v.Becomes slack w := by
  have hlt : k < ws.length := h.1 ▸ (List.getElem?_eq_some_iff.mp hv).1
  have hw : ws[k]? = some ws[k] := List.getElem?_eq_getElem hlt
  exact ⟨_, hw, h.2 k v _ hv hw⟩

theorem trans (h : BecomeEach slack us vs) (h' : BecomeEach slack vs ws) :
    BecomeEach slack us ws := by
  refine ⟨h'.1.trans h.1, fun k u w hu hw => ?_⟩
  obtain ⟨v, hv, hb⟩ := h.exists_after hu
  exact hb.trans (h'.2 k v w hv hw)

end BecomeEach

/-! ## Along a run -/

namespace State

variable {slack : ℚ} {rules : List Rule} {a b : State} {r : Rule} {i k : ℕ} {e : Expression}
  {s : Step} {as : List Application} {o : Option ℕ}

/-- **One application of a rule.** -/
theorem Applies.becomeEach (h : a.Applies slack r i e s) (ha : a.Coherent) :
    BecomeEach slack a.vars (a.after r i s).vars := by
  obtain ⟨held, -, hE⟩ := h.effect ha
  rw [vars_after]
  refine ⟨hE.changes.1, fun k v w hv hw => ?_⟩
  rcases hE.changes.2 k v w hv hw with rfl | ⟨hk, hc⟩
  · exact .refl slack w
  · refine hc.becomes fun hf => ?_
    exact (Terms.mem_freeIndices.mp hk).2 ((ha.mem_fixed k).mpr ⟨v, hv, hf⟩)

theorem Reaches.becomeEach (h : Reaches slack rules a b) (ha : a.Coherent) :
    BecomeEach slack a.vars b.vars :=
  h.invariant (P := fun c => BecomeEach slack a.vars c.vars) ha (.refl slack a.vars)
    (fun _ _ ih => ih) fun hc _ happ _ ih => ih.trans (happ.becomeEach hc)

/-- **A run to its end**, also if the last application finds an expression infeasible. -/
theorem Ended.becomeEach (h : Ended slack rules a as o b) (ha : a.Coherent) :
    BecomeEach slack a.vars b.vars :=
  h.invariant (P := fun c => BecomeEach slack a.vars c.vars) ha (.refl slack a.vars)
    (fun _ _ ih => ih) fun hc happ ih => ih.trans (happ.becomeEach hc)

/-! ## Variables that occur in no expression -/

/-- The variable `k` occurs in an expression. -/
def Mentions (a : State) (k : ℕ) : Prop := ∃ e ∈ a.expressions, k ∈ e.terms.indices

theorem Applies.not_mentions (h : a.Applies slack r i e s) (ha : a.Coherent)
    (hk : ¬a.Mentions k) :
    ¬(a.after r i s).Mentions k ∧ (a.after r i s).vars[k]? = a.vars[k]? := by
  obtain ⟨held, -, hE⟩ := h.effect ha
  have he : k ∉ e.terms.indices := fun hke => hk ⟨e, List.mem_of_getElem? h.getElem?_eq, hke⟩
  constructor
  · rintro ⟨f, hf, hkf⟩
    rcases List.mem_or_eq_of_mem_set hf with hf | rfl
    · exact hk ⟨f, hf, hkf⟩
    · exact he (hE.terms_eq ▸ hkf)
  · rw [vars_after]
    exact hE.changes.getElem?_eq fun hj => he (Terms.mem_freeIndices.mp hj).1

/-- A run leaves alone what occurs in no expression. -/
theorem Ended.getElem?_of_not_mentions (h : Ended slack rules a as o b) (ha : a.Coherent)
    (hk : ¬a.Mentions k) : b.vars[k]? = a.vars[k]? := by
  refine (h.invariant (P := fun c => ¬c.Mentions k ∧ c.vars[k]? = a.vars[k]?) ha ⟨hk, rfl⟩
    (fun _ _ ih => ih) fun hc happ ih => ?_).2
  obtain ⟨hn, heq⟩ := happ.not_mentions hc ih.1
  exact ⟨hn, heq.trans ih.2⟩

end State

open State

/-! ## Runs of presolve -/

namespace Model

variable {m : Model} {rules : List Rule} {as : List Application} {r : Presolved} {k : ℕ}

theorem Runs.becomeEach (h : m.Runs rules as r) (hm : WellFormed m.expressions m.vars) :
    BecomeEach m.options.slack m.vars r.model.vars := by
  obtain ⟨b, hended, hmodel, -⟩ := h.ended
  rw [hmodel]
  exact hended.becomeEach (coherent_start hm)

theorem Runs.getElem?_of_not_mentions (h : m.Runs rules as r)
    (hm : WellFormed m.expressions m.vars) (hk : ∀ e ∈ m.expressions, k ∉ e.terms.indices) :
    r.model.vars[k]? = m.vars[k]? := by
  obtain ⟨b, hended, hmodel, -⟩ := h.ended
  rw [hmodel]
  refine hended.getElem?_of_not_mentions (coherent_start hm) ?_
  rintro ⟨e, he, hke⟩
  exact hk e he hke

/-- **What presolve does to each variable**: it was fixed before and is unchanged, it is fixed on the
way and has its common bound as value, or it keeps its value. -/
theorem presolve_variable_cases (hm : m.Built) (rules : List Rule) :
    ∃ r, m.presolve rules = .ok r ∧ r.model.vars.length = m.vars.length ∧
      ∀ (k : ℕ) (v w : Variable), m.vars[k]? = some v → r.model.vars[k]? = some w →
        (v.IsFixed ∧ w = v ∨
          ¬w.IsFixed ∧ w.value = v.value ∨
          ¬v.IsFixed ∧ ∃ x, w.bounds = .point x ∧ w.value = some x ∧ v.kind.Admits x) ∧
        w.name = v.name ∧ w.kind = v.kind ∧
        ((∀ e ∈ m.expressions, k ∉ e.terms.indices) → w = v) ∧
        ∀ d x, w.bounds.get d = some x → v.bounds.get d = some x ∨ v.kind.Admits x := by
  obtain ⟨r, as, hr, hruns⟩ := exists_runs hm.wellFormed rules
  obtain ⟨hlen, hbecomes⟩ := hruns.becomeEach hm.wellFormed
  refine ⟨r, hr, hlen, fun k v w hv hw => ?_⟩
  have hb := hbecomes k v w hv hw
  refine ⟨hb.cases, hb.name_eq, hb.kind_eq, fun hk => ?_, hb.get_eq_or_admits⟩
  have heq := hruns.getElem?_of_not_mentions hm.wellFormed hk
  exact Option.some.inj (hw.symm.trans (heq.trans hv))

/-- A model with a variable for each of the cases, on which a run stops halfway: the last expression
fixes the first variable at zero and then refuses the other two. -/
def halfway : Model where
  vars := [⟨"x", .continuous, ⟨some 0, none⟩, none⟩, ⟨"y", .continuous, ⟨some 1, none⟩, none⟩,
    ⟨"z", .integer, ⟨some (1 / 2), some (9 / 2)⟩, some 9⟩, ⟨"w", .integer, .point (1 / 2), none⟩]
  expressions := [⟨"c", .ofList [(2, 2), (3, 1)], ⟨none, some 7⟩, false, false⟩,
    ⟨"d", .ofList [(0, -1), (1, -1), (2, -3)], ⟨some 0, none⟩, false, false⟩]
  options := .standard

theorem presolve_variable_cases_halfway : ∃ r x z, halfway.presolve [.fewFree, .signs] = .ok r ∧
    r.summary.status = .infeasible 1 ∧
      r.model.vars[0]? = some x ∧ (∃ c, x.bounds = .point c ∧ x.value = some c) ∧
      r.model.vars[2]? = some z ∧ z.value = some 9 ∧
        (∀ d c, z.bounds.get d = some c → Number.IsIntegral c) ∧
      r.model.vars[3]? = halfway.vars[3]? := by
  have hm : halfway.Built := by decide +kernel
  obtain ⟨r, hr, hlen, hcases⟩ := presolve_variable_cases hm [.fewFree, .signs]
  have hrun : ∀ r ∈ (halfway.presolve [.fewFree, .signs]).toOption,
      r.summary.status = .infeasible 1 ∧ (∀ x ∈ r.model.vars[0]?, x.IsFixed) ∧
        (∀ z ∈ r.model.vars[2]?, ¬z.IsFixed ∧ z.bounds = ⟨some 1, some 3⟩) ∧
          ∀ w ∈ r.model.vars[3]?, w.IsFixed := by
    decide +kernel
  obtain ⟨hst, hx, hz, hw⟩ := hrun r (by rw [hr]; rfl)
  have hget (k : ℕ) (hk : k < 4) : ∃ w, r.model.vars[k]? = some w :=
    ⟨_, List.getElem?_eq_getElem (hlen ▸ hk)⟩
  obtain ⟨x, hx0⟩ := hget 0 (by decide)
  obtain ⟨z, hz2⟩ := hget 2 (by decide)
  obtain ⟨w, hw3⟩ := hget 3 (by decide)
  refine ⟨r, x, z, hr, hst, hx0, ?_, hz2, ?_, ?_, ?_⟩
  · rcases (hcases 0 _ x rfl hx0).1 with ⟨hn, -⟩ | ⟨hn, -⟩ | ⟨-, c, hb, hv, -⟩
    · exact absurd hn (by decide +kernel)
    · exact absurd (hx x hx0) hn
    · exact ⟨c, hb, hv⟩
  · rcases (hcases 2 _ z rfl hz2).1 with ⟨hn, -⟩ | ⟨-, hv⟩ | ⟨-, c, hb, -⟩
    · exact absurd hn (by decide +kernel)
    · exact hv
    · exact absurd (Variable.isFixed_iff.mpr ⟨c, hb⟩) (hz z hz2).1
  · intro d c hc
    rcases (hcases 2 _ z rfl hz2).2.2.2.2 d c hc with hold | hadm
    · rw [(hz z hz2).2] at hc
      cases d <;> exact absurd (hc.trans hold.symm) (by decide +kernel)
    · exact hadm
  · rcases (hcases 3 _ w rfl hw3).1 with ⟨-, rfl⟩ | ⟨hn, -⟩ | ⟨hn, -⟩
    · exact hw3
    · exact absurd (hw w hw3) hn
    · exact absurd (by decide +kernel) hn

end Model

end ExactPresolve
