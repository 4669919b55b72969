import ExactPresolve.Proofs.Run.Presolve

/-!
# What a run counts

A run keeps a set of the variables that are known to be fixed and counts, for each rule, the
applications that fixed a variable. Each of these enlarges the set, so there are no more of them than
there are variables, and each pass but the last one makes one of them.

* `Application.Fixes`: the applications that fix a variable;
* `State.Applies.fixedAny_iff`: a rule tells exactly whether it fixed a variable;
* `State.Path.fixes_get`, `State.Path.total_fixes`, `State.Path.size_fixed`: the counts and the fixed
  set after any number of applications;
* `State.LoopTrace.counted`: the number of passes;
* **`Model.presolve_counts_consistent`**: the loop of passes ends, and the order between its counts.
-/

namespace ExactPresolve

/-! ## Counts for each rule -/

namespace RuleCounts

/-- The sum of the counts of all rules. -/
def total (c : RuleCounts) : ℕ := (Rule.all.map c.get).sum

theorem get_increment (c : RuleCounts) (r r' : Rule) :
    (c.increment r).get r' = c.get r' + if r = r' then 1 else 0 := by
  cases r <;> cases r' <;> rfl

theorem total_increment (c : RuleCounts) (r : Rule) : (c.increment r).total = c.total + 1 := by
  cases r <;> simp [total, Rule.all, get, increment] <;> omega

end RuleCounts

namespace IndexSet

variable {s t : IndexSet} {j : ℕ}

theorem size_lt (h : ∀ i ∈ s, i ∈ t) (hj : j ∈ t) (hn : j ∉ s) : s.size < t.size := by
  by_contra hle
  exact hn (eq_of_subset_of_size_le h (not_lt.mp hle) ▸ hj)

end IndexSet

/-! ## Applications that fix variables -/

namespace Application

/-- The application fixes a variable: after it the variable has equal bounds, but not before. -/
def Fixes (x : Application) : Prop :=
  ∃ j ∈ (fixedIndices x.step.vars).toList, j ∉ fixedIndices x.before.vars

instance (x : Application) : Decidable x.Fixes :=
  inferInstanceAs (Decidable (∃ j ∈ (fixedIndices x.step.vars).toList, _))

end Application

theorem Signs.exists_isFixed_zeroed {slack : ℚ} {js : List ℕ} {vs : List Variable}
    (h : ((targets js vs).any fun v => decide (v.TakesZero slack)) = true) :
    ∃ j ∈ js, ∃ w, (zeroed slack js vs)[j]? = some w ∧ w.IsFixed := by
  obtain ⟨v, hv, ht⟩ := List.any_eq_true.mp h
  obtain ⟨j, hj, hjv⟩ := mem_targets.mp hv
  refine ⟨j, hj, v.level 0, ?_, v.isFixed_level 0⟩
  rw [getElem?_zeroed, hjv, Option.map_some, if_pos ⟨hj, of_decide_eq_true ht⟩]

namespace Effect

variable {slack held : ℚ} {fixed : IndexSet} {e : Expression} {vs : List Variable} {r : Rule}
  {s : Step}

/-- A rule that tells of a fixed variable leaves one behind among the free ones. -/
theorem exists_isFixed (h : Effect slack fixed e vs held r s) (hs : s.fixedAny = true) :
    ∃ j ∈ e.terms.freeIndices fixed, ∃ w, s.vars[j]? = some w ∧ w.IsFixed := by
  have hset {ws : List Variable} {j : ℕ} {v u : Variable} (hj : ws[j]? = some v) (hu : u.IsFixed) :
      ∃ w, (ws.set j u)[j]? = some w ∧ w.IsFixed :=
    ⟨u, List.getElem?_set_self (List.getElem?_eq_some_iff.mp hj).1, hu⟩
  have hlast {j : ℕ} {a : ℚ} {v u : Variable} (hf : e.terms.free fixed = [(j, a)])
      (hj : vs[j]? = some v) (hu : u.IsFixed) :
      ∃ k ∈ e.terms.freeIndices fixed, ∃ w, (vs.set j u)[k]? = some w ∧ w.IsFixed :=
    ⟨j, Terms.mem_freeIndices_singleton hf, hset hj hu⟩
  cases h with
  | solved hf hj => exact hlast hf hj (Variable.isFixed_level _ _)
  | beyond hf hj => exact hlast hf hj (Variable.isFixed_settle.mpr (of_decide_eq_true hs))
  | fractional hf hj => exact hlast hf hj (Variable.isFixed_settle.mpr (of_decide_eq_true hs))
  | confined hf hj => exact hlast hf hj (Variable.isFixed_settle.mpr (of_decide_eq_true hs))
  | crossed hf hj => exact hlast hf hj (Variable.isFixed_settle.mpr (of_decide_eq_true hs))
  | @narrowed j a k b v w hf hj hk =>
    have hjk : k ≠ j := (Terms.ne_of_free_pair hf).symm
    rcases of_decide_eq_true hs with hv | hw
    · refine ⟨j, (Terms.mem_freeIndices_pair hf).1, ?_⟩
      rw [List.getElem?_set_ne hjk]
      exact hset hj (Variable.isFixed_settle.mpr hv)
    · refine ⟨k, (Terms.mem_freeIndices_pair hf).2, ?_⟩
      have hk' : (vs.set j (FewFree.narrowed e held v a b w).settle)[k]? = some w :=
        (List.getElem?_set_ne hjk.symm).trans hk
      exact hset hk' (Variable.isFixed_settle.mpr hw)
  | zeroed => exact Signs.exists_isFixed_zeroed hs
  | refusedZero => exact Signs.exists_isFixed_zeroed hs
  | _ => cases hs

end Effect

namespace State

variable {slack : ℚ} {rules : List Rule} {limit : Option ℕ} {a b : State} {r : Rule} {i n : ℕ}
  {e : Expression} {s : Step} {as : List Application} {o : Option ℕ} {w : Ending}

theorem Coherent.fixed_eq (ha : a.Coherent) : a.fixed = fixedIndices a.vars :=
  IndexSet.ext fun j => (ha.mem_fixed j).trans mem_fixedIndices.symm

/-- **A rule tells exactly whether it fixed a variable.** -/
theorem Applies.fixedAny_iff (h : a.Applies slack r i e s) (ha : a.Coherent) :
    s.fixedAny = true ↔ (Application.mk a r i s).Fixes := by
  obtain ⟨held, -, hE⟩ := h.effect ha
  constructor
  · intro hs
    obtain ⟨j, hj, hfix⟩ := hE.exists_isFixed hs
    refine ⟨j, mem_fixedIndices.mpr hfix, ?_⟩
    rw [← ha.fixed_eq]
    exact (Terms.mem_freeIndices.mp hj).2
  · rintro ⟨j, hj, hn⟩
    obtain ⟨w, hw, hfw⟩ := mem_fixedIndices.mp hj
    obtain ⟨v, hv, -⟩ := hE.changes.exists_before hw
    exact hE.fixedAny_of_isFixed hv (fun hfv => hn (mem_fixedIndices.mpr ⟨v, hv, hfv⟩)) hw hfw

/-! ## One application -/

theorem progress_after_of_refutes (hi : s.expression.infeasible = true) :
    (a.after r i s).fixed = a.fixed ∧ (a.after r i s).progress.fixes = a.progress.fixes := by
  simp [hi]

theorem Applies.fixes_after (h : a.Applies slack r i e s) (ha : a.Coherent)
    (hi : s.expression.infeasible = false) :
    (a.after r i s).progress.fixes =
      if (Application.mk a r i s).Fixes then a.progress.fixes.increment r else a.progress.fixes := by
  rw [if_congr (h.fixedAny_iff ha).symm rfl rfl]
  cases hs : s.fixedAny <;> simp [hs, hi]

theorem Applies.fixed_after_of_not_fixes (h : a.Applies slack r i e s) (ha : a.Coherent)
    (hn : ¬(Application.mk a r i s).Fixes) : (a.after r i s).fixed = a.fixed := by
  rw [fixed_after, if_neg fun hs => hn ((h.fixedAny_iff ha).mp hs.1)]

theorem Applies.size_fixed_after (h : a.Applies slack r i e s) (ha : a.Coherent)
    (hi : s.expression.infeasible = false) (hx : (Application.mk a r i s).Fixes) :
    a.fixed.size < (a.after r i s).fixed.size := by
  obtain ⟨j, hj, hn⟩ := hx
  have hj' : j ∈ (a.after r i s).fixed := by
    rw [(h.coherent ha hi).fixed_eq, vars_after]
    exact hj
  rw [← ha.fixed_eq] at hn
  exact IndexSet.size_lt (fun k hk => (mem_fixed_after hi).mpr (.inl hk)) hj' hn

/-! ## Any number of applications -/

/-- A count that goes up with the rules that satisfy `p` counts their applications that fix a
variable. -/
theorem Path.count_fixes (h : Path slack rules a as b) (ha : a.Coherent) {f : RuleCounts → ℕ}
    {p : Rule → Prop} [DecidablePred p]
    (hf : ∀ c r, f (c.increment r) = f c + if p r then 1 else 0) :
    f b.progress.fixes = f a.progress.fixes + as.countP fun x => p x.rule ∧ x.Fixes := by
  induction h with
  | refl => rfl
  | @apply as b r i e s h _ happ hi ih =>
    rw [happ.fixes_after (ha.reaches h.reaches) hi, List.countP_append, List.countP_singleton,
      ← Nat.add_assoc, ← ih]
    by_cases hx : (Application.mk b r i s).Fixes <;> simp [hx, hf]
  | note _ _ ih => exact ih

theorem Path.fixes_get (h : Path slack rules a as b) (ha : a.Coherent) (r : Rule) :
    b.progress.fixes.get r =
      a.progress.fixes.get r + as.countP fun x => x.rule = r ∧ x.Fixes :=
  h.count_fixes ha (f := fun c => c.get r) (p := fun q => q = r) fun c q => c.get_increment q r

theorem Path.total_fixes (h : Path slack rules a as b) (ha : a.Coherent) :
    b.progress.fixes.total = a.progress.fixes.total + as.countP fun x => x.Fixes := by
  rw [h.count_fixes ha (f := RuleCounts.total) (p := fun _ => True) fun c q => c.total_increment q]
  simp

/-- Each application that fixes a variable enlarges the fixed set, and the others leave it. -/
theorem Path.size_fixed (h : Path slack rules a as b) (ha : a.Coherent) :
    (a.fixed.size + as.countP fun x => x.Fixes) ≤ b.fixed.size ∧
      ((as.countP fun x => x.Fixes) = 0 → b.fixed = a.fixed) := by
  induction h with
  | refl => exact ⟨le_rfl, fun _ => rfl⟩
  | @apply as b q i e s h _ happ hi ih =>
    have hb := ha.reaches h.reaches
    rw [List.countP_append, List.countP_singleton]
    by_cases hx : (Application.mk b q i s).Fixes
    · have hlt := happ.size_fixed_after hb hi hx
      simp only [hx, decide_true, if_true]
      omega
    · rw [happ.fixed_after_of_not_fixes hb hx]
      simpa [hx] using ih
  | note _ _ ih => exact ih

/-- A run counts and collects what its applications do up to the first one that refutes. -/
theorem Ended.exists_path (h : Ended slack rules a as o b) :
    ∃ bs c, Path slack rules a bs c ∧ b.fixed = c.fixed ∧ b.progress.fixes = c.progress.fixes := by
  cases h with
  | kept h => exact ⟨_, _, h, rfl, rfl⟩
  | marked h => exact ⟨_, _, h, rfl, rfl⟩
  | refuted h _ _ hi =>
    obtain ⟨hfixed, hfixes⟩ := progress_after_of_refutes hi
    exact ⟨_, _, h, hfixed, hfixes⟩

theorem Ended.total_fixes_le (h : Ended slack rules a as o b) (ha : a.Coherent) :
    a.progress.fixes.total ≤ b.progress.fixes.total := by
  obtain ⟨bs, c, hp, -, hfixes⟩ := h.exists_path
  rw [hfixes, hp.total_fixes ha]
  exact Nat.le_add_right _ _

/-- A pass that enlarges the fixed set is counted. -/
theorem Path.total_fixes_lt (h : Path slack rules a as b) (ha : a.Coherent)
    (hs : a.fixed.size < b.fixed.size) : a.progress.fixes.total < b.progress.fixes.total := by
  rw [h.total_fixes ha]
  refine Nat.lt_add_of_pos_right (Nat.pos_of_ne_zero fun h0 => ?_)
  exact hs.ne (congrArg IndexSet.size ((h.size_fixed ha).2 h0)).symm

/-! ## Passes -/

/-- **The number of passes:** it stays within the limit, each pass but the last one is counted with
an application that fixes a variable, and also the last one if the limit ended the run. -/
theorem LoopTrace.counted (h : LoopTrace slack rules limit n a as w) (ha : a.Coherent)
    (hn : ∀ k ∈ limit, n ≤ k) :
    (∀ k ∈ limit, w.passes ≤ k) ∧
      a.progress.fixes.total + w.passes ≤ w.progress.fixes.total + n + 1 ∧
      (w.status = .iterationLimit → limit = some w.passes ∧
        a.progress.fixes.total + w.passes ≤ w.progress.fixes.total + n) := by
  induction h with
  | @limit n k a hk hle =>
    obtain rfl := hle.antisymm (hn k hk)
    exact ⟨hn, (Nat.le_succ _), fun _ => ⟨hk, le_rfl⟩⟩
  | infeasible h hp =>
    have hle := hp.ended.total_fixes_le ha
    exact ⟨h, by simp only [ending, Progress.note, State.note]; omega, nofun⟩
  | reduced h hp =>
    have hle := hp.ended.total_fixes_le ha
    exact ⟨h, by simp only [ending]; omega, nofun⟩
  | again h hp hs hl ih =>
    have hlt := hp.path.total_fixes_lt ha hs
    obtain ⟨hle, htotal, hlimit⟩ := ih (ha.reaches (hp.path.note _).reaches) h
    simp only [State.note, Progress.note] at htotal hlimit
    refine ⟨hle, by omega, fun hst => ?_⟩
    obtain ⟨hk, htotal'⟩ := hlimit hst
    exact ⟨hk, by omega⟩

end State

open State

/-! ## Runs of presolve -/

namespace Model

variable {m : Model} {rules : List Rule} {as : List Application} {r : Presolved}

theorem Runs.passes_le (h : m.Runs rules as r) (hm : WellFormed m.expressions m.vars) :
    (∀ k ∈ m.options.iterationLimit, r.summary.passes ≤ k) ∧
      r.summary.passes ≤ r.summary.fixes.total + 1 ∧
      (r.summary.status = .iterationLimit → m.options.iterationLimit = some r.summary.passes ∧
        r.summary.passes ≤ r.summary.fixes.total) := by
  obtain ⟨w, hL, rfl⟩ := h
  obtain ⟨hle, htotal, hlimit⟩ := hL.counted (coherent_start hm) fun k _ => Nat.zero_le k
  have hzero : (start m).progress.fixes.total = 0 := rfl
  rw [hzero, Nat.zero_add] at htotal hlimit
  exact ⟨hle, htotal, hlimit⟩

theorem Runs.fixed_grows (h : m.Runs rules as r) (hm : WellFormed m.expressions m.vars) :
    (∀ j ∈ fixedIndices m.vars, j ∈ r.summary.fixed) ∧
      r.summary.fixes.total + (fixedIndices m.vars).size ≤ r.summary.fixed.size ∧
        r.summary.fixed.size ≤ m.vars.length := by
  have hstart := coherent_start hm
  obtain ⟨b, hended, -, hfixed, hfixes⟩ := h.ended
  obtain ⟨bs, c, hpath, hbc, hbc'⟩ := hended.exists_path
  have hsize := (hpath.size_fixed hstart).1
  have htotal := hpath.total_fixes hstart
  have hzero : (start m).progress.fixes.total = 0 := rfl
  have hlen := hpath.reaches.length_vars hstart
  rw [hfixed, hfixes, hbc, hbc', htotal, hzero, Nat.zero_add, Nat.add_comm]
  refine ⟨fun j => hpath.reaches.fixed_subset hstart, hsize, ?_⟩
  rw [← vars_start, ← hlen]
  exact (hstart.reaches hpath.reaches).size_fixed_le

/-- **The loop of passes ends, and its counts are consistent**, with or without a limit. -/
theorem presolve_counts_consistent (hm : m.Built) (rules : List Rule) :
    ∃ r as, m.presolve rules = .ok r ∧ m.Runs rules as r ∧
      (∀ j ∈ fixedIndices m.vars, j ∈ r.summary.fixed) ∧
        r.summary.passes ≤ r.summary.fixes.total + 1 ∧
        r.summary.fixes.total + (fixedIndices m.vars).size ≤ r.summary.fixed.size ∧
        r.summary.fixed.size ≤ m.vars.length ∧
        (∀ k ∈ m.options.iterationLimit, r.summary.passes ≤ k) ∧
        (r.summary.status = .iterationLimit → ∃ k, m.options.iterationLimit = some k ∧
          r.summary.passes = k ∧ k + (fixedIndices m.vars).size ≤ r.summary.fixed.size) := by
  obtain ⟨r, as, hr, hruns⟩ := exists_runs hm.wellFormed rules
  obtain ⟨hle, hpasses, hlimit⟩ := hruns.passes_le hm.wellFormed
  obtain ⟨hsub, hsize, hlen⟩ := hruns.fixed_grows hm.wellFormed
  refine ⟨r, as, hr, hruns, hsub, hpasses, hsize, hlen, hle, fun hst => ?_⟩
  obtain ⟨hk, htotal⟩ := hlimit hst
  exact ⟨_, hk, rfl, by omega⟩

/-- A model that needs four passes: each of them finds one value more, from the last expression to
the first one. -/
def backwards : Model where
  vars := [⟨"x", .continuous, .unlimited, none⟩, ⟨"y", .integer, .unlimited, none⟩,
    ⟨"z", .continuous, ⟨some 0, some 9⟩, none⟩, ⟨"w", .integer, .point 2, none⟩]
  expressions := [⟨"c", .ofList [(0, 1), (1, 1)], .point 7, false, false⟩,
    ⟨"d", .ofList [(1, 2), (2, -1)], .point 4, false, false⟩,
    ⟨"e", .ofList [(2, 1), (3, 3)], .point 8, false, false⟩]
  options := ⟨0, some 2⟩

theorem presolve_counts_consistent_backwards : ∃ r as, backwards.presolve [.fewFree] = .ok r ∧
    backwards.Runs [.fewFree] as r ∧ r.summary.status = .iterationLimit ∧
      r.summary.passes = 2 ∧ 2 + 1 ≤ r.summary.fixed.size := by
  have hm : backwards.Built := by decide +kernel
  obtain ⟨r, as, hr, hruns, -, -, -, -, -, hlimit⟩ := presolve_counts_consistent hm [.fewFree]
  have hrun : ∀ r ∈ (backwards.presolve [.fewFree]).toOption,
      r.summary.status = .iterationLimit := by
    decide +kernel
  have hst := hrun r (by rw [hr]; rfl)
  obtain ⟨k, hk, hpasses, hsize⟩ := hlimit hst
  cases hk
  exact ⟨r, as, hr, hruns, hst, hpasses, hsize⟩

end Model

end ExactPresolve
