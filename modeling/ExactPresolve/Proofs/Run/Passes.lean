import ExactPresolve.Proofs.Run.Trace

/-!
# What the loop says about its passes

An expression that does not become redundant in a pass has had all rules applied to it, in states
that lie between the beginning and the end of the pass. With this, a run is looked at without the
applications that it makes.

* `State.Tried`: a rule was applied to an expression somewhere on the way;
* `State.Stops`: an expression turns out to be infeasible;
* `State.Visit`: rules are applied to one expression;
* `State.Pass`: a pass to its end, which tries every rule on what does not become redundant;
* `State.Outcome`: how a run ends;
* **`State.VisitTrace.visit`**, **`State.PassTrace.pass`**, **`State.LoopTrace.outcome`**: the parts
  of the loop.
-/

namespace ExactPresolve

namespace State

/-- Between the two states the rule `r` was applied to the expression of index `i`. -/
def Tried (slack : ℚ) (rules : List Rule) (a b : State) (r : Rule) (i : ℕ) : Prop :=
  ∃ c e s, Reaches slack rules a c ∧ c.Applies slack r i e s ∧ s.expression.infeasible = false ∧
    Reaches slack rules (c.after r i s) b

/-- The expression of index `i` is infeasible, or a rule finds that it is. -/
inductive Stops (slack : ℚ) (rules : List Rule) (a : State) (i : ℕ) : State → Prop
  | marked {e} (he : a.expressions[i]? = some e) (hi : e.infeasible = true) :
    Stops slack rules a i a
  | refuted {r e s} (hr : r ∈ rules) (h : a.Applies slack r i e s)
      (hi : s.expression.infeasible = true) : Stops slack rules a i (a.after r i s)

/-- The rules `rs` were applied to the expression of index `i`, which became `f`. -/
structure Visit (slack : ℚ) (rules rs : List Rule) (i : ℕ) (a : State) (f : Expression)
    (b : State) : Prop where
  reaches : f.infeasible = false → Reaches slack rules a b
  tried : f.infeasible = false → f.redundant = false → ∀ r ∈ rs, Tried slack rules a b r i
  stops : f.infeasible = true → ∃ c, Reaches slack rules a c ∧ Stops slack rules c i b

/-- A pass over the expressions from index `k` on. Every rule was tried on each of them that is not
redundant at the end. -/
structure Pass (slack : ℚ) (rules : List Rule) (k : ℕ) (a b : State) : Prop where
  reaches : Reaches slack rules a b
  tried : ∀ i f, k ≤ i → b.expressions[i]? = some f → f.redundant = false → ∀ r ∈ rules,
    Tried slack rules a b r i

/-- How a run from a state ends: with a status and a last state. -/
inductive Outcome (slack : ℚ) (rules : List Rule) (a : State) : Status → State → Prop
  | reduced {b c} (h : Reaches slack rules a b) (hp : Pass slack rules 0 b c)
      (hs : c.fixed.size ≤ b.fixed.size) : Outcome slack rules a .reduced c
  | limit {b} (h : Reaches slack rules a b) : Outcome slack rules a .iterationLimit b
  | infeasible {i b c} (event : Event) (h : Reaches slack rules a b) (hs : Stops slack rules b i c) :
    Outcome slack rules a (.infeasible i) (c.note event)

variable {slack : ℚ} {rules rs : List Rule} {limit : Option ℕ} {a b c : State} {r : Rule} {i k n : ℕ}
  {as : List Application} {o : Option ℕ} {w : Ending}

theorem Tried.of_reaches (h : Reaches slack rules a b) (ht : Tried slack rules b c r i) :
    Tried slack rules a c r i := by
  obtain ⟨d, e, s, hd, happ, hi, hr⟩ := ht
  exact ⟨d, e, s, h.trans hd, happ, hi, hr⟩

theorem Tried.reaches (ht : Tried slack rules a b r i) (h : Reaches slack rules b c) :
    Tried slack rules a c r i := by
  obtain ⟨d, e, s, hd, happ, hi, hr⟩ := ht
  exact ⟨d, e, s, hd, happ, hi, hr.trans h⟩

theorem Outcome.of_reaches {status : Status} (h : Reaches slack rules a b)
    (ho : Outcome slack rules b status c) : Outcome slack rules a status c := by
  cases ho with
  | reduced h' hp hs => exact .reduced (h.trans h') hp hs
  | limit h' => exact .limit (h.trans h')
  | infeasible event h' hs => exact .infeasible event (h.trans h') hs

/-! ## One expression -/

theorem Ended.exists_stops (h : Ended slack rules a as (some i) b) :
    ∃ c, Reaches slack rules a c ∧ Stops slack rules c i b := by
  cases h with
  | marked h he hi => exact ⟨_, h.reaches, .marked he hi⟩
  | refuted h hr happ hi => exact ⟨_, h.reaches, .refuted hr happ hi⟩

theorem VisitTrace.tried {f : Expression} (h : VisitTrace slack i rs a as b)
    (hrs : ∀ r ∈ rs, r ∈ rules) (hf : b.expressions[i]? = some f) (hi : f.infeasible = false)
    (hd : f.redundant = false) : ∀ r ∈ rs, Tried slack rules a b r i := by
  induction h with
  | nil => exact nofun
  | skip he hn =>
    obtain rfl := Option.some.inj (he.symm.trans hf)
    exact absurd ⟨hd, hi⟩ hn
  | @apply r rs a e s as b happ hv ih =>
    have hrs' : ∀ r' ∈ rs, r' ∈ rules := fun r' hr' => hrs r' (List.mem_cons_of_mem _ hr')
    -- an application that refutes would be the last one, and `f` its expression
    have hs : s.expression.infeasible = false := by
      by_contra hs
      obtain ⟨-, rfl⟩ := hv.eq_of_not_inForce happ.getElem?_after fun hin => hs hin.2
      obtain rfl := Option.some.inj (happ.getElem?_after.symm.trans hf)
      exact hs hi
    have hr := hrs r List.mem_cons_self
    have hrest : Reaches slack rules (a.after r i s) b := ((hv.ended hrs' hf).1 hi).reaches
    intro r' hr'
    rcases List.mem_cons.mp hr' with rfl | hr'
    · exact ⟨a, e, s, .refl, happ, hs, hrest⟩
    · exact (ih hrs' hf r' hr').of_reaches (.single (.apply hr happ hs))

/-- **The rules applied to one expression.** -/
theorem VisitTrace.visit {f : Expression} (h : VisitTrace slack i rs a as b)
    (hrs : ∀ r ∈ rs, r ∈ rules) (hf : b.expressions[i]? = some f) : Visit slack rules rs i a f b where
  reaches hi := ((h.ended hrs hf).1 hi).reaches
  tried hi hd := h.tried hrs hf hi hd
  stops hi := ((h.ended hrs hf).2 hi).exists_stops

/-! ## All expressions -/

theorem VisitTrace.getElem?_of_ne (h : VisitTrace slack k rs a as b) (hi : k ≠ i) :
    b.expressions[i]? = a.expressions[i]? := by
  induction h with
  | nil => rfl
  | skip => rfl
  | apply _ _ ih => exact ih.trans (List.getElem?_set_ne hi)

/-- A pass leaves alone the expressions before the one it begins with. -/
theorem PassTrace.getElem?_of_lt (h : PassTrace slack rules k a as o b) (hi : i < k) :
    b.expressions[i]? = a.expressions[i]? := by
  induction h with
  | done => rfl
  | stop hv => exact hv.getElem?_of_ne hi.ne'
  | next hv _ _ _ ih => exact (ih (by omega)).trans (hv.getElem?_of_ne hi.ne')

theorem PassTrace.tried (h : PassTrace slack rules k a as o b) (ho : o = none) :
    ∀ i f, k ≤ i → b.expressions[i]? = some f → f.redundant = false → ∀ r ∈ rules,
      Tried slack rules a b r i := by
  induction h with
  | done hlen =>
    intro i f hki hf
    exact absurd (List.getElem?_eq_some_iff.mp hf).1 (by omega)
  | stop => cases ho
  | next hv hf hi hp ih =>
    intro i g hki hg hd r hr
    subst ho
    have hV := hv.visit (fun _ hr => hr) hf
    rcases Nat.eq_or_lt_of_le hki with rfl | hlt
    · obtain rfl := Option.some.inj (hf.symm.trans ((hp.getElem?_of_lt (by omega)).symm.trans hg))
      exact (hV.tried hi hd r hr).reaches hp.path.reaches
    · exact (ih rfl i g hlt hg hd r hr).of_reaches (hV.reaches hi)

/-- **A pass to its end.** -/
theorem PassTrace.pass (h : PassTrace slack rules k a as none b) : Pass slack rules k a b :=
  ⟨h.path.reaches, h.tried rfl⟩

/-! ## Runs -/

/-- **All passes of a run.** -/
theorem LoopTrace.outcome (h : LoopTrace slack rules limit n a as w) :
    Outcome slack rules a w.status w.state := by
  induction h with
  | limit => exact .limit (.single (.note _))
  | infeasible _ hp =>
    obtain ⟨c, hc, hS⟩ := hp.ended.exists_stops
    exact .infeasible _ hc hS
  | reduced _ hp hs => exact .reduced .refl hp.pass hs
  | again _ hp _ _ ih => exact ih.of_reaches (hp.path.note _).reaches

end State

end ExactPresolve
