import ExactPresolve.Proofs.Run.Counts

/-!
# Two runs side by side

Two runs of presolve are compared by a relation between their states that each application of a rule
keeps: what the first run does to an expression, the second one does to its counterpart. It is enough
to show this for one application. The loop then does the same in both runs, pass by pass, and ends
them in the same way.

* `Simulation`: the relation and what one application has to keep;
* `Simulation.visit`, `Simulation.pass`: the rules applied to one expression, and one pass;
* **`Simulation.loop`**: the second run ends as the first one does, in a related state;
* **`Simulation.presolve`**: the same for presolve on two models;
* `State.AheadBy`: states that differ only in the counts, and `State.AheadBy.simulation`: they are kept
  if rules that do not depend on the counts return the same.
-/

namespace ExactPresolve

open State

/-- A relation between the states of two runs that applications keep. If `refuting` is false, this need
not hold for applications that find an expression infeasible. -/
structure Simulation (slack slack' : ℚ) (refuting : Prop) (R : State → State → Prop) : Prop where
  /-- Expressions have counterparts with the same marks. -/
  expression {a b : State} {i : ℕ} {e : Expression} (h : R a b)
    (he : a.expressions[i]? = some e) :
    ∃ f, b.expressions[i]? = some f ∧ f.infeasible = e.infeasible ∧ f.redundant = e.redundant
  length {a b : State} (h : R a b) : b.expressions.length = a.expressions.length
  /-- The fixed set grows in both runs or in neither. -/
  grows {a b a' b' : State} (h : R a b) (h' : R a' b') :
    a.fixed.size < a'.fixed.size ↔ b.fixed.size < b'.fixed.size
  /-- What is told about the passes is of no account. -/
  note {a b : State} {event event' : Event} (h : R a b) (he : event.report? = none)
    (he' : event'.report? = none) : R (a.note event) (b.note event')
  apply {a b : State} {r : Rule} {i : ℕ} {e : Expression} {s : Step} (h : R a b)
    (ha : a.Coherent) (hb : b.Coherent) (happ : a.Applies slack r i e s)
    (hr : s.expression.infeasible = true → refuting) :
    ∃ f t, b.Applies slack' r i f t ∧ R (a.after r i s) (b.after r i t)

namespace Simulation

variable {slack slack' : ℚ} {refuting : Prop} {R : State → State → Prop} {rules rs : List Rule}
  {limit : Option ℕ} {a b c : State} {i k n d : ℕ} {as : List Application} {o : Option ℕ} {w : Ending}

theorem inForce_iff (sim : Simulation slack slack' refuting R) (h : R a b) {e f : Expression}
    (he : a.expressions[i]? = some e) (hf : b.expressions[i]? = some f) : f.InForce ↔ e.InForce := by
  obtain ⟨f', hf', hi, hr⟩ := sim.expression h he
  obtain rfl := Option.some.inj (hf.symm.trans hf')
  rw [Expression.InForce, Expression.InForce, hi, hr]

/-- The counterpart of an application finds an expression infeasible if and only if it does. -/
theorem infeasible_eq (sim : Simulation slack slack' refuting R) {r : Rule} {e f : Expression}
    {s t : Step} (h : R (a.after r i s) (b.after r i t)) (ha : a.Applies slack r i e s)
    (hb : b.Applies slack' r i f t) : t.expression.infeasible = s.expression.infeasible := by
  obtain ⟨g, hg, hi, -⟩ := sim.expression h ha.getElem?_after
  rwa [← Option.some.inj (hb.getElem?_after.symm.trans hg)] at hi

/-- **The rules applied to one expression.** -/
theorem visit (sim : Simulation slack slack' refuting R) (h : VisitTrace slack i rs a as c)
    (hR : R a b) (ha : a.Coherent) (hb : b.Coherent)
    (hr : ∀ f, c.expressions[i]? = some f → f.infeasible = true → refuting) :
    ∃ bs d, VisitTrace slack' i rs b bs d ∧ R c d := by
  induction h generalizing b with
  | nil a => exact ⟨[], b, .nil b, hR⟩
  | skip he hf =>
    obtain ⟨f, hf', -⟩ := sim.expression hR he
    exact ⟨[], b, .skip hf' ((sim.inForce_iff hR he hf').not.mpr hf), hR⟩
  | @apply r rs a e s as c happ hv ih =>
    -- an application that refutes is the last one, and its expression stays as it is
    have hlast : s.expression.infeasible = true → as = [] ∧ c = a.after r i s := fun hi =>
      hv.eq_of_not_inForce happ.getElem?_after (Expression.not_inForce hi)
    have hrefute : s.expression.infeasible = true → refuting := by
      intro hi
      obtain ⟨-, rfl⟩ := hlast hi
      exact hr _ happ.getElem?_after hi
    obtain ⟨f, t, happ', hR'⟩ := sim.apply hR ha hb happ hrefute
    have hit := sim.infeasible_eq hR' happ happ'
    cases hi : s.expression.infeasible with
    | true =>
      obtain ⟨-, rfl⟩ := hlast hi
      have hn := Expression.not_inForce (hit.trans hi)
      exact ⟨_, _, .apply happ' (.of_not_inForce happ'.getElem?_after hn rs), hR'⟩
    | false =>
      obtain ⟨bs, d, hv', hR''⟩ :=
        ih hR' (happ.coherent ha hi) (happ'.coherent hb (hit.trans hi)) hr
      exact ⟨_, d, .apply happ' hv', hR''⟩

/-- **One pass.** -/
theorem pass (sim : Simulation slack slack' refuting R) (h : PassTrace slack rules k a as o c)
    (hR : R a b) (ha : a.Coherent) (hb : b.Coherent) (ho : ∀ i, o = some i → refuting) :
    ∃ bs d, PassTrace slack' rules k b bs o d ∧ R c d := by
  induction h generalizing b with
  | done h => exact ⟨[], b, .done (by rwa [sim.length hR]), hR⟩
  | stop hv hf hi =>
    obtain ⟨bs, d, hv', hR'⟩ := sim.visit hv hR ha hb fun _ _ _ => ho _ rfl
    obtain ⟨g, hg, hgi, -⟩ := sim.expression hR' hf
    exact ⟨bs, d, .stop hv' hg (hgi.trans hi), hR'⟩
  | @next k a as c f _ _ _ hv hf hi _ ih =>
    have hkept : ∀ g, c.expressions[k]? = some g → g.infeasible = true → refuting := by
      intro g hg hi'
      obtain rfl := Option.some.inj (hf.symm.trans hg)
      cases hi.symm.trans hi'
    obtain ⟨bs, d, hv', hR'⟩ := sim.visit hv hR ha hb hkept
    obtain ⟨g, hg, hgi, -⟩ := sim.expression hR' hf
    have hreach := ((hv.ended (fun _ hr => hr) hf).1 hi).reaches
    have hreach' := ((hv'.ended (fun _ hr => hr) hg).1 (hgi.trans hi)).reaches
    obtain ⟨bs', d', hp', hR''⟩ := ih hR' (ha.reaches hreach) (hb.reaches hreach') ho
    exact ⟨bs ++ bs', d', .next hv' hg (hgi.trans hi) hp', hR''⟩

theorem lt_of_mem_limit (h : ∀ k ∈ limit, n + d < k) : ∀ k ∈ limit.map (· - d), n < k := by
  intro k hk
  obtain ⟨k', hk', rfl⟩ := Option.map_eq_some_iff.mp hk
  exact Nat.lt_sub_of_add_lt (h k' hk')

/-- **All passes.** The second run ends as the first one does. If it starts `d` passes later, it makes
`d` passes less, within a limit that is smaller by `d`. -/
theorem loop (sim : Simulation slack slack' refuting R)
    (h : LoopTrace slack rules limit (n + d) a as w) (hR : R a b) (ha : a.Coherent)
    (hb : b.Coherent) (hw : w.status.IsInfeasible → refuting) :
    ∃ bs w', LoopTrace slack' rules (limit.map (· - d)) n b bs w' ∧ w'.status = w.status ∧
      w.passes = w'.passes + d ∧ R w.state w'.state := by
  generalize hn : n + d = m at h
  induction h generalizing n b with
  | limit hk hle =>
    subst hn
    refine ⟨[], _, .limit (congrArg (Option.map (· - d)) hk) (Nat.sub_le_of_le_add hle), rfl, rfl,
      ?_⟩
    exact sim.note hR rfl rfl
  | infeasible h hp hf =>
    subst hn
    obtain ⟨bs, c, hp', hR'⟩ := sim.pass hp hR ha hb fun _ _ => hw trivial
    obtain ⟨g, hg, -⟩ := sim.expression hR' hf
    refine ⟨bs, _, .infeasible (lt_of_mem_limit h) hp' hg, rfl, ?_, sim.note hR' rfl rfl⟩
    show n + d + 1 = n + 1 + d
    omega
  | reduced h hp hs =>
    subst hn
    obtain ⟨bs, c, hp', hR'⟩ := sim.pass hp hR ha hb nofun
    have hs' := not_lt.mp ((sim.grows hR hR').not.mp hs.not_gt)
    refine ⟨bs, _, .reduced (lt_of_mem_limit h) hp' hs', rfl, ?_, hR'⟩
    show n + d + 1 = n + 1 + d
    omega
  | @again _ _ _ c _ _ h hp hs _ ih =>
    subst hn
    obtain ⟨bs, c', hp', hR'⟩ := sim.pass hp hR ha hb nofun
    have hs' := (sim.grows hR hR').mp hs
    have hnoted : R (c.note (.passFixed (n + d + 1) c.fixed.size))
        (c'.note (.passFixed (n + 1) c'.fixed.size)) := sim.note hR' rfl rfl
    obtain ⟨bs', w', hl', hst, hpasses, hR''⟩ := ih hnoted ((ha.reaches hp.path.reaches).note _)
      ((hb.reaches hp'.path.reaches).note _) hw (Nat.succ_add_eq_add_succ n d)
    exact ⟨bs ++ bs', w', .again (lt_of_mem_limit h) hp' hs' hl', hst, hpasses, hR''⟩

/-- **Presolve on two models.** -/
theorem presolve {m m' : Model} (sim : Simulation m.options.slack m'.options.slack refuting R)
    (hlimit : m'.options.iterationLimit = m.options.iterationLimit)
    (hm : WellFormed m.expressions m.vars) (hm' : WellFormed m'.expressions m'.vars)
    (hR : R (start m) (start m')) (rules : List Rule) :
    ∃ w w', m.presolve rules = .ok (m.presolved w) ∧ m'.presolve rules = .ok (m'.presolved w') ∧
      ((w.status.IsInfeasible → refuting) →
        w'.status = w.status ∧ w'.passes = w.passes ∧ R w.state w'.state) := by
  obtain ⟨r, as, hr, w, hL, rfl⟩ := Model.exists_runs hm rules
  obtain ⟨r', bs, hr', w', hL', rfl⟩ := Model.exists_runs hm' rules
  refine ⟨w, w', hr, hr', fun hw => ?_⟩
  obtain ⟨bs', w'', hL'', hst, hpasses, hR'⟩ :=
    sim.loop (d := 0) hL hR (coherent_start hm) (coherent_start hm') hw
  have hsame : m.options.iterationLimit.map (· - 0) = m'.options.iterationLimit := by
    simp [hlimit]
  rw [hsame] at hL''
  obtain ⟨-, rfl⟩ := hL'.unique hL''
  exact ⟨hst, hpasses.symm, hR'⟩

end Simulation

/-! ## States that differ in the counts -/

theorem RuleCounts.ext {c d : RuleCounts} (h : ∀ q, c.get q = d.get q) : c = d := by
  obtain ⟨few, signs⟩ := c
  obtain ⟨few', signs'⟩ := d
  obtain rfl : few = few' := h .fewFree
  obtain rfl : signs = signs' := h .signs
  rfl

namespace State

/-- The states agree, except that the first one has counted more, and in their events. -/
structure AheadBy (c : RuleCounts) (a b : State) : Prop where
  expressions : b.expressions = a.expressions
  vars : b.vars = a.vars
  fixed : b.fixed = a.fixed
  fixes : ∀ q, a.progress.fixes.get q = b.progress.fixes.get q + c.get q

variable {slack slack' : ℚ} {refuting : Prop} {a b : State} {c : RuleCounts}

theorem AheadBy.after (h : AheadBy c a b) (r : Rule) (i : ℕ) (s : Step) :
    AheadBy c (a.after r i s) (b.after r i s) where
  expressions := congrArg (List.set · i s.expression) h.expressions
  vars := by rw [vars_after, vars_after]
  fixed := by rw [fixed_after, fixed_after, h.fixed]
  fixes q := by
    rw [fixes_after, fixes_after]
    split_ifs
    · rw [RuleCounts.get_increment, RuleCounts.get_increment, h.fixes q, Nat.add_right_comm]
    · exact h.fixes q

/-- **States that differ in the counts stay so**, if the rules return the same in both runs. -/
theorem AheadBy.simulation (c : RuleCounts)
    (happly : ∀ {fixed : IndexSet} {e : Expression} {vs : List Variable} {r : Rule} {s : Step},
      e.InForce → e.Ready fixed vs → (s.expression.infeasible = true → refuting) →
        r.apply slack fixed e vs = .ok s → r.apply slack' fixed e vs = .ok s) :
    Simulation slack slack' refuting (AheadBy c) where
  expression h he := ⟨_, by rwa [h.expressions], rfl, rfl⟩
  length h := congrArg List.length h.expressions
  grows h h' := by rw [h.fixed, h'.fixed]
  note h _ _ := ⟨h.expressions, h.vars, h.fixed, h.fixes⟩
  apply {a b r i e s} h ha _ happ hr := by
    refine ⟨e, s, ⟨by rw [h.expressions, happ.getElem?_eq], happ.inForce, ?_⟩, h.after r i s⟩
    rw [h.fixed, h.vars]
    exact happly happ.inForce (ha.ready happ.getElem?_eq) hr happ.apply_eq

end State

end ExactPresolve
