import ExactPresolve.Presolve
import ExactPresolve.Proofs.Run.State

/-!
# The applications of a run

A run goes over the expressions again and again until a pass fixes nothing, an expression turns out
to be infeasible or the limit on the number of passes is met. The functions that make a run go over
lists, stop at the first fault and are given a number of passes beforehand, even where there is no
limit. Here the loop is described by rules about states that know of no such number, and each part of
it carries the applications of rules that are made in it, in their order. Nothing else is said about
the functions than that they follow the loop.

* `Application`: an application of a rule, with the state in which it is made;
* `State.VisitTrace`, `State.PassTrace`, `State.LoopTrace`: the applications to one expression, in a
  pass and in the passes of a run;
* `State.Path`, `State.Ended`: applications from state to state, of which at most the last one finds
  that an expression is infeasible;
* `State.Ended.invariant`: what applications preserve;
* `State.PassTrace.ended`, `State.LoopTrace.ended`: the loop as applications from state to state;
* **`exists_visitTrace`**, **`exists_passTrace`**, **`exists_loopTrace`**: from a coherent state the
  functions meet no fault and follow the loop, which ends;
* **`State.LoopTrace.unique`**: there is no other way through the loop.
-/

namespace ExactPresolve

namespace IndexSet

variable {s t : IndexSet}

theorem size_le {n : ℕ} (h : ∀ j ∈ s, j < n) : s.size ≤ n := by
  have hp := s.nodup_toList.subperm fun j hj => List.mem_range.mpr (h j hj)
  simpa [size] using hp.length_le

end IndexSet

/-- An application of the rule `rule` to the expression of index `index`. -/
structure Application where
  before : State
  rule : Rule
  index : ℕ
  step : Step

/-- The index of the expression that ended a run. -/
def Status.index? : Status → Option ℕ
  | infeasible i => some i
  | _ => none

def Ending.state (w : Ending) : State := ⟨w.expressions, w.progress⟩

namespace State

/-! ## The loop -/

/-- The rules of a list are applied in turn to the expression of index `i`, while it is in force. -/
inductive VisitTrace (slack : ℚ) (i : ℕ) : List Rule → State → List Application → State → Prop
  | nil (a) : VisitTrace slack i [] a [] a
  | skip {r rs a e} (he : a.expressions[i]? = some e) (hf : ¬e.InForce) :
    VisitTrace slack i (r :: rs) a [] a
  | apply {r rs a e s as b} (h : a.Applies slack r i e s)
      (hv : VisitTrace slack i rs (a.after r i s) as b) :
    VisitTrace slack i (r :: rs) a (⟨a, r, i, s⟩ :: as) b

/-- A pass visits the expressions from index `k` on, up to the first one that is infeasible. -/
inductive PassTrace (slack : ℚ) (rules : List Rule) :
    ℕ → State → List Application → Option ℕ → State → Prop
  | done {k a} (h : a.expressions.length ≤ k) : PassTrace slack rules k a [] none a
  | stop {k a as b f} (hv : VisitTrace slack k rules a as b) (hf : b.expressions[k]? = some f)
      (hi : f.infeasible = true) : PassTrace slack rules k a as (some k) b
  | next {k a as b f bs o c} (hv : VisitTrace slack k rules a as b)
      (hf : b.expressions[k]? = some f) (hi : f.infeasible = false)
      (hp : PassTrace slack rules (k + 1) b bs o c) : PassTrace slack rules k a (as ++ bs) o c

/-- The end of a run after `n` passes. -/
def ending (a : State) (status : Status) (n : ℕ) : Ending := ⟨status, n, a.expressions, a.progress⟩

/-- Passes are made one after the other, of which `n` are already done. The limit is looked at before
each of them. -/
inductive LoopTrace (slack : ℚ) (rules : List Rule) (limit : Option ℕ) :
    ℕ → State → List Application → Ending → Prop
  | limit {n k a} (hk : limit = some k) (h : k ≤ n) :
    LoopTrace slack rules limit n a [] ((a.note (.limitReached n)).ending .iterationLimit n)
  | infeasible {n a as i b f} (h : ∀ k ∈ limit, n < k) (hp : PassTrace slack rules 0 a as (some i) b)
      (hf : b.expressions[i]? = some f) :
    LoopTrace slack rules limit n a as
      ((b.note (.provedInfeasible (n + 1) f.name)).ending (.infeasible i) (n + 1))
  | reduced {n a as b} (h : ∀ k ∈ limit, n < k) (hp : PassTrace slack rules 0 a as none b)
      (hs : b.fixed.size ≤ a.fixed.size) :
    LoopTrace slack rules limit n a as (b.ending .reduced (n + 1))
  | again {n a as b bs w} (h : ∀ k ∈ limit, n < k) (hp : PassTrace slack rules 0 a as none b)
      (hs : a.fixed.size < b.fixed.size)
      (hl : LoopTrace slack rules limit (n + 1) (b.note (.passFixed (n + 1) b.fixed.size)) bs w) :
    LoopTrace slack rules limit n a (as ++ bs) w

/-! ## Applications from state to state -/

/-- The applications lead from the state `a` to another one, and none of them finds that an
expression is infeasible. -/
inductive Path (slack : ℚ) (rules : List Rule) (a : State) : List Application → State → Prop
  | refl : Path slack rules a [] a
  | apply {as b r i e s} (h : Path slack rules a as b) (hr : r ∈ rules)
      (happ : b.Applies slack r i e s) (hi : s.expression.infeasible = false) :
    Path slack rules a (as ++ [⟨b, r, i, s⟩]) (b.after r i s)
  | note {as b} (h : Path slack rules a as b) (event : Event) : Path slack rules a as (b.note event)

/-- The applications lead from the state `a` to another one, where the expression of the given
index, if one is given, is infeasible. Either it was so before, or the last application shows it. -/
inductive Ended (slack : ℚ) (rules : List Rule) (a : State) :
    List Application → Option ℕ → State → Prop
  | kept {as b} (h : Path slack rules a as b) : Ended slack rules a as none b
  | marked {as b i e} (h : Path slack rules a as b) (he : b.expressions[i]? = some e)
      (hi : e.infeasible = true) : Ended slack rules a as (some i) b
  | refuted {as b r i e s} (h : Path slack rules a as b) (hr : r ∈ rules)
      (happ : b.Applies slack r i e s) (hi : s.expression.infeasible = true) :
    Ended slack rules a (as ++ [⟨b, r, i, s⟩]) (some i) (b.after r i s)

/-- The application is made in a run that goes through the state `a`. -/
structure MadeFrom (slack : ℚ) (rules : List Rule) (a : State) (x : Application) : Prop where
  reaches : Reaches slack rules a x.before
  mem_rules : x.rule ∈ rules
  applies : ∃ e, x.before.Applies slack x.rule x.index e x.step

variable {slack : ℚ} {rules rs : List Rule} {limit : Option ℕ} {a b c : State} {r : Rule} {i k n : ℕ}
  {e : Expression} {s : Step} {as bs : List Application} {o : Option ℕ} {w w' : Ending}

theorem Path.reaches (h : Path slack rules a as b) : Reaches slack rules a b := by
  induction h with
  | refl => exact .refl
  | apply _ hr happ hi ih => exact ih.tail (.apply hr happ hi)
  | note _ event ih => exact ih.tail (.note event)

theorem Path.trans (h : Path slack rules a as b) (h' : Path slack rules b bs c) :
    Path slack rules a (as ++ bs) c := by
  induction h' with
  | refl => rwa [List.append_nil]
  | apply _ hr happ hi ih =>
    rw [← List.append_assoc]
    exact ih.apply hr happ hi
  | note _ event ih => exact ih.note event

theorem Ended.of_path (h : Path slack rules a as b) (h' : Ended slack rules b bs o c) :
    Ended slack rules a (as ++ bs) o c := by
  cases h' with
  | kept h' => exact .kept (h.trans h')
  | marked h' he hi => exact .marked (h.trans h') he hi
  | refuted h' hr happ hi =>
    rw [← List.append_assoc]
    exact .refuted (h.trans h') hr happ hi

theorem Path.madeFrom {x : Application} (h : Path slack rules a as b) (hx : x ∈ as) :
    MadeFrom slack rules a x := by
  induction h with
  | refl => cases hx
  | apply h hr happ _ ih =>
    rcases List.mem_append.mp hx with hx | hx
    · exact ih hx
    · obtain rfl := List.mem_singleton.mp hx
      exact ⟨h.reaches, hr, _, happ⟩
  | note _ _ ih => exact ih hx

theorem Ended.madeFrom {x : Application} (h : Ended slack rules a as o b) (hx : x ∈ as) :
    MadeFrom slack rules a x := by
  cases h with
  | kept h => exact h.madeFrom hx
  | marked h => exact h.madeFrom hx
  | refuted h hr happ =>
    rcases List.mem_append.mp hx with hx | hx
    · exact h.madeFrom hx
    · obtain rfl := List.mem_singleton.mp hx
      exact ⟨h.reaches, hr, _, happ⟩

/-- **What applications preserve holds at the end of a run**, also if the last of them finds that an
expression is infeasible. -/
theorem Ended.invariant {P : State → Prop} (h : Ended slack rules a as o b) (ha : a.Coherent)
    (h0 : P a) (hnote : ∀ c event, P c → P (note c event))
    (happ : ∀ {c r i e s}, Coherent c → c.Applies slack r i e s → P c → P (c.after r i s)) : P b := by
  have hreach {c : State} (hc : Reaches slack rules a c) : P c :=
    hc.invariant ha h0 hnote fun hc _ hs _ ih => happ hc hs ih
  cases h with
  | kept h => exact hreach h.reaches
  | marked h => exact hreach h.reaches
  | refuted h _ hs => exact happ (ha.reaches h.reaches) hs (hreach h.reaches)

theorem VisitTrace.of_not_inForce (he : a.expressions[i]? = some e) (hf : ¬e.InForce)
    (rs : List Rule) : VisitTrace slack i rs a [] a := by
  cases rs with
  | nil => exact .nil a
  | cons r rs => exact .skip he hf

theorem VisitTrace.eq_of_not_inForce (h : VisitTrace slack i rs a as b)
    (he : a.expressions[i]? = some e) (hf : ¬e.InForce) : as = [] ∧ b = a := by
  cases h with
  | nil => exact ⟨rfl, rfl⟩
  | skip => exact ⟨rfl, rfl⟩
  | apply happ =>
    obtain rfl := Option.some.inj (he.symm.trans happ.getElem?_eq)
    exact absurd happ.inForce hf

theorem VisitTrace.ended {f : Expression} (h : VisitTrace slack i rs a as b)
    (hrs : ∀ r ∈ rs, r ∈ rules) (hf : b.expressions[i]? = some f) :
    (f.infeasible = false → Path slack rules a as b) ∧
      (f.infeasible = true → Ended slack rules a as (some i) b) := by
  induction h with
  | nil => exact ⟨fun _ => .refl, .marked .refl hf⟩
  | skip => exact ⟨fun _ => .refl, .marked .refl hf⟩
  | @apply r rs a e s as b happ hv ih =>
    have hr := hrs r List.mem_cons_self
    cases hi : s.expression.infeasible with
    | true =>
      obtain ⟨rfl, rfl⟩ := hv.eq_of_not_inForce happ.getElem?_after (Expression.not_inForce hi)
      obtain rfl := Option.some.inj (happ.getElem?_after.symm.trans hf)
      refine ⟨fun hi' => ?_, fun _ => .refuted .refl hr happ hi⟩
      cases hi.symm.trans hi'
    | false =>
      have hstep : Path slack rules a [⟨a, r, i, s⟩] (a.after r i s) := .apply .refl hr happ hi
      obtain ⟨hpath, hended⟩ := ih (fun r' hr' => hrs r' (List.mem_cons_of_mem _ hr')) hf
      exact ⟨fun hi' => hstep.trans (hpath hi'), fun hi' => .of_path hstep (hended hi')⟩

theorem PassTrace.ended (h : PassTrace slack rules k a as o b) : Ended slack rules a as o b := by
  induction h with
  | done => exact .kept .refl
  | stop hv hf hi => exact (hv.ended (fun _ hr => hr) hf).2 hi
  | next hv hf hi _ ih => exact .of_path ((hv.ended (fun _ hr => hr) hf).1 hi) ih

theorem PassTrace.path (h : PassTrace slack rules k a as none b) : Path slack rules a as b := by
  cases h.ended
  assumption

theorem LoopTrace.ended (h : LoopTrace slack rules limit n a as w) :
    ∃ b, Ended slack rules a as w.status.index? b ∧
      (w.state = b ∨ ∃ event, w.state = b.note event) := by
  induction h with
  | limit => exact ⟨_, .kept (.note .refl _), .inl rfl⟩
  | infeasible _ hp => exact ⟨_, hp.ended, .inr ⟨.provedInfeasible _ _, rfl⟩⟩
  | reduced _ hp => exact ⟨_, hp.ended, .inl rfl⟩
  | again _ hp _ _ ih =>
    obtain ⟨c, hc, hw⟩ := ih
    exact ⟨c, .of_path (hp.path.note _) hc, hw⟩

/-! ## The loop is determined by its start -/

theorem Applies.unique {e' : Expression} {s' : Step} (h : a.Applies slack r i e s)
    (h' : a.Applies slack r i e' s') : e = e' ∧ s = s' := by
  obtain rfl := Option.some.inj (h.getElem?_eq.symm.trans h'.getElem?_eq)
  exact ⟨rfl, Except.ok.inj (h.apply_eq.symm.trans h'.apply_eq)⟩

theorem VisitTrace.length_eq (h : VisitTrace slack i rs a as b) :
    b.expressions.length = a.expressions.length := by
  induction h with
  | nil => rfl
  | skip => rfl
  | apply _ _ ih => simpa using ih

theorem VisitTrace.unique {as' : List Application} {b' : State}
    (h : VisitTrace slack i rs a as b) (h' : VisitTrace slack i rs a as' b') :
    as = as' ∧ b = b' := by
  induction h generalizing as' b' with
  | nil =>
    cases h'
    exact ⟨rfl, rfl⟩
  | skip he hf =>
    cases h' with
    | skip => exact ⟨rfl, rfl⟩
    | apply happ =>
      obtain rfl := Option.some.inj (he.symm.trans happ.getElem?_eq)
      exact absurd happ.inForce hf
  | apply happ _ ih =>
    cases h' with
    | skip he hf =>
      obtain rfl := Option.some.inj (he.symm.trans happ.getElem?_eq)
      exact absurd happ.inForce hf
    | apply happ' hv' =>
      obtain ⟨-, rfl⟩ := happ.unique happ'
      obtain ⟨rfl, rfl⟩ := ih hv'
      exact ⟨rfl, rfl⟩

theorem VisitTrace.lt_length {f : Expression} (h : VisitTrace slack i rs a as b)
    (hf : b.expressions[i]? = some f) : i < a.expressions.length := by
  rw [← h.length_eq]
  exact (List.getElem?_eq_some_iff.mp hf).1

theorem PassTrace.unique {as' : List Application} {o' : Option ℕ} {b' : State}
    (h : PassTrace slack rules k a as o b) (h' : PassTrace slack rules k a as' o' b') :
    as = as' ∧ o = o' ∧ b = b' := by
  induction h generalizing as' o' b' with
  | done h =>
    cases h' with
    | done => exact ⟨rfl, rfl, rfl⟩
    | stop hv' hf' => exact absurd h (hv'.lt_length hf').not_ge
    | next hv' hf' => exact absurd h (hv'.lt_length hf').not_ge
  | stop hv hf hi =>
    cases h' with
    | done h' => exact absurd h' (hv.lt_length hf).not_ge
    | stop hv' =>
      obtain ⟨rfl, rfl⟩ := hv.unique hv'
      exact ⟨rfl, rfl, rfl⟩
    | next hv' hf' hi' =>
      obtain ⟨rfl, rfl⟩ := hv.unique hv'
      obtain rfl := Option.some.inj (hf.symm.trans hf')
      cases hi.symm.trans hi'
  | next hv hf hi _ ih =>
    cases h' with
    | done h' => exact absurd h' (hv.lt_length hf).not_ge
    | stop hv' hf' hi' =>
      obtain ⟨rfl, rfl⟩ := hv.unique hv'
      obtain rfl := Option.some.inj (hf.symm.trans hf')
      cases hi.symm.trans hi'
    | next hv' hf' hi' hp' =>
      obtain ⟨rfl, rfl⟩ := hv.unique hv'
      obtain ⟨rfl, rfl, rfl⟩ := ih hp'
      exact ⟨rfl, rfl, rfl⟩

theorem LoopTrace.unique {as' : List Application} (h : LoopTrace slack rules limit n a as w)
    (h' : LoopTrace slack rules limit n a as' w') : as = as' ∧ w = w' := by
  induction h generalizing as' w' with
  | limit hk hle =>
    cases h' with
    | limit => exact ⟨rfl, rfl⟩
    | infeasible h' => exact absurd hle (h' _ hk).not_ge
    | reduced h' => exact absurd hle (h' _ hk).not_ge
    | again h' => exact absurd hle (h' _ hk).not_ge
  | infeasible h hp hf =>
    cases h' with
    | limit hk' hle' => exact absurd hle' (h _ hk').not_ge
    | infeasible _ hp' hf' =>
      obtain ⟨rfl, ho, rfl⟩ := hp.unique hp'
      cases ho
      obtain rfl := Option.some.inj (hf.symm.trans hf')
      exact ⟨rfl, rfl⟩
    | reduced _ hp' => cases (hp.unique hp').2.1
    | again _ hp' => cases (hp.unique hp').2.1
  | reduced h hp hs =>
    cases h' with
    | limit hk' hle' => exact absurd hle' (h _ hk').not_ge
    | infeasible _ hp' => cases (hp.unique hp').2.1
    | reduced _ hp' =>
      obtain ⟨rfl, -, rfl⟩ := hp.unique hp'
      exact ⟨rfl, rfl⟩
    | again _ hp' hs' =>
      obtain ⟨-, -, rfl⟩ := hp.unique hp'
      exact absurd hs hs'.not_ge
  | again h hp hs _ ih =>
    cases h' with
    | limit hk' hle' => exact absurd hle' (h _ hk').not_ge
    | infeasible _ hp' => cases (hp.unique hp').2.1
    | reduced _ hp' hs' =>
      obtain ⟨-, -, rfl⟩ := hp.unique hp'
      exact absurd hs' hs.not_ge
    | again _ hp' _ hl' =>
      obtain ⟨rfl, -, rfl⟩ := hp.unique hp'
      obtain ⟨rfl, rfl⟩ := ih hl'
      exact ⟨rfl, rfl⟩

/-! ## Enough passes -/

/-- The number of passes that a run is given is enough: it is that of the limit, or there is no limit
and one pass more than there are variables that are not fixed. -/
def Affords (a : State) (limit : Option ℕ) (budget n : ℕ) : Prop :=
  limit = some (n + budget) ∨ limit = none ∧ a.vars.length < a.fixed.size + budget

theorem Affords.next {budget : ℕ} (h : a.Affords limit (budget + 1) n)
    (hs : a.fixed.size < b.fixed.size) (hv : b.vars.length = a.vars.length) :
    b.Affords limit budget (n + 1) := by
  rcases h with h | ⟨h, hsize⟩
  · exact .inl (h.trans (by congr 1; omega))
  · exact .inr ⟨h, by omega⟩

theorem Coherent.size_fixed_le (ha : a.Coherent) : a.fixed.size ≤ a.vars.length := by
  refine IndexSet.size_le fun j hj => ?_
  obtain ⟨v, hv, -⟩ := (ha.mem_fixed j).mp hj
  exact (List.getElem?_eq_some_iff.mp hv).1

end State

open State

variable {slack : ℚ} {rules : List Rule}

/-! ## The functions follow the loop -/

theorem visit_of_not_inForce {e : Expression} (he : ¬e.InForce) (rs : List Rule) (p : Progress) :
    visit slack rs e p = .ok (e, p) := by
  rw [Expression.inForce_iff, not_not] at he
  cases rs with
  | nil => rfl
  | cons r rs => exact if_pos he

theorem visit_of_applies {a : State} {r : Rule} {i : ℕ} {e : Expression} {s : Step}
    (h : a.Applies slack r i e s) (rs : List Rule) :
    visit slack (r :: rs) e a.progress = visit slack rs s.expression (a.after r i s).progress := by
  rw [visit, if_neg (Expression.inForce_iff.mp h.inForce)]
  have hs : r.apply slack a.progress.fixed e a.progress.vars = .ok s := h.apply_eq
  rw [hs]
  rfl

theorem State.Coherent.exists_applies {a : State} (ha : a.Coherent) (slack : ℚ) (r : Rule) {i : ℕ}
    {e : Expression} (he : a.expressions[i]? = some e) (hf : e.InForce) :
    ∃ s, a.Applies slack r i e s := by
  obtain ⟨held, s, -, hs, -⟩ := r.exists_effect slack hf (ha.ready he)
  exact ⟨s, he, hf, hs⟩

/-- **The rules applied to one expression**, in a coherent state. -/
theorem exists_visitTrace (slack : ℚ) (rs : List Rule) {a : State} (ha : a.Coherent) {i : ℕ}
    {e : Expression} (he : a.expressions[i]? = some e) :
    ∃ f p as, visit slack rs e a.progress = .ok (f, p) ∧
      VisitTrace slack i rs a as ⟨a.expressions.set i f, p⟩ := by
  induction rs generalizing a e with
  | nil =>
    refine ⟨e, a.progress, [], rfl, ?_⟩
    rw [set_eq_self he]
    exact .nil a
  | cons r rs ih =>
    by_cases hf : e.InForce
    swap
    · refine ⟨e, a.progress, [], visit_of_not_inForce hf _ _, ?_⟩
      rw [set_eq_self he]
      exact .skip he hf
    obtain ⟨s, happ⟩ := ha.exists_applies slack r he hf
    rw [visit_of_applies happ]
    cases hi : s.expression.infeasible with
    | true =>
      -- the state need not be coherent any more, but the rest of the rules is skipped
      have hn := Expression.not_inForce hi
      exact ⟨_, _, _, visit_of_not_inForce hn rs _,
        .apply happ (.of_not_inForce happ.getElem?_after hn rs)⟩
    | false =>
      obtain ⟨f, p, as, hv, hV⟩ := ih (happ.coherent ha hi) happ.getElem?_after
      rw [expressions_after, List.set_set] at hV
      exact ⟨f, p, _, hv, .apply happ hV⟩

/-- **One pass**, from the expression behind those that are done. -/
theorem exists_passTrace (slack : ℚ) (rules : List Rule) (done es : List Expression) {p : Progress}
    (ha : Coherent ⟨done ++ es, p⟩) :
    ∃ w as, sweep slack rules done.length es p = .ok w ∧
      PassTrace slack rules done.length ⟨done ++ es, p⟩ as (w.infeasible.map (·.1))
        ⟨done ++ w.expressions, w.progress⟩ ∧
      ∀ i f, w.infeasible = some (i, f) → (done ++ w.expressions)[i]? = some f := by
  induction es generalizing done p with
  | nil => exact ⟨_, [], rfl, .done (by simp), nofun⟩
  | cons e es ih =>
    have he : (done ++ e :: es)[done.length]? = some e := by simp
    obtain ⟨f, q, as, hv, hV⟩ := exists_visitTrace slack rules ha he
    have hset : (done ++ e :: es).set done.length f = done ++ f :: es := by simp
    have hf : (done ++ f :: es)[done.length]? = some f := by simp
    simp only [hset] at hV
    have hv' : visit slack rules e p = .ok (f, q) := hv
    simp only [sweep, hv', bind, Except.bind]
    cases hi : f.infeasible with
    | true =>
      refine ⟨⟨f :: es, q, some (done.length, f)⟩, as, if_pos rfl, .stop hV hf hi, fun i g hg => ?_⟩
      cases hg
      exact hf
    | false =>
      have hreach := ((hV.ended (fun _ hr => hr) hf).1 hi).reaches
      have happ (es' : List Expression) : done ++ f :: es' = (done ++ [f]) ++ es' := by simp
      rw [happ] at hV hf hreach
      obtain ⟨w, bs, hw, hP, hstop⟩ := ih (done ++ [f]) (ha.reaches hreach)
      rw [List.length_append, List.length_singleton] at hw hP
      refine ⟨{ w with expressions := f :: w.expressions }, as ++ bs, ?_, ?_, ?_⟩
      · simp [hw, pure, Except.pure]
      · rw [happ]
        exact .next hV hf hi hP
      · rw [happ]
        exact hstop

/-- **The loop ends**, and a run that can afford it does what the loop does. -/
theorem exists_loopTrace (slack : ℚ) (rules : List Rule) {limit : Option ℕ} {budget n : ℕ}
    {a : State} (ha : a.Coherent) (hb : a.Affords limit budget n) :
    ∃ w as, run slack rules budget n a.expressions a.progress = .ok w ∧
      LoopTrace slack rules limit n a as w := by
  induction budget generalizing a n with
  | zero =>
    rcases hb with hb | ⟨-, hb⟩
    · exact ⟨_, [], rfl, .limit hb le_rfl⟩
    · exact absurd ha.size_fixed_le (by omega)
  | succ budget ih =>
    have hlimit : ∀ k ∈ limit, n < k := by
      rintro k ⟨⟩
      rcases hb with hb | ⟨hb, -⟩
      · obtain rfl := Option.some.inj hb
        omega
      · cases hb
    obtain ⟨w, as, hw, hP, hstop⟩ := exists_passTrace slack rules [] a.expressions ha
    simp only [List.nil_append, List.length_nil] at hw hP hstop
    simp only [run, hw, bind, Except.bind, pure, Except.pure]
    cases hi : w.infeasible with
    | some stop =>
      obtain ⟨i, f⟩ := stop
      rw [hi] at hP
      exact ⟨_, as, rfl, .infeasible hlimit hP (hstop i f hi)⟩
    | none =>
      rw [hi] at hP
      dsimp only
      split_ifs with hlt
      · have hreach := (hP.path.note (.passFixed (n + 1) w.progress.fixed.size)).reaches
        obtain ⟨w', bs, hw', hL⟩ := ih (ha.reaches hreach) (hb.next hlt (hreach.length_vars ha))
        exact ⟨w', as ++ bs, hw', .again hlimit hP hlt hL⟩
      · exact ⟨_, as, rfl, .reduced hlimit hP (Nat.le_of_not_lt hlt)⟩

end ExactPresolve
