import ExactPresolve.Proofs.Run.Simulation

/-!
# Runs that the limit cuts short

A limit on the number of passes is looked at only before a pass, so up to there a run with a limit is
one without. What a cut run leaves behind is a model, without the fixed set and the counts. A new run
on this model computes the fixed set from the bounds and counts from zero. Since the fixed set of a
run holds exactly the variables with equal bounds, the new run goes on where the old one stopped.

* `Model.limited`: the model with another limit on the number of passes;
* `State.CutAt`, **`State.LoopTrace.cut`**: a run with a limit is one without, or the beginning of one;
* **`State.CutAt.exists_rest`**: a run on what was left behind makes the rest of the passes;
* **`Model.presolve_resumes`**: the same for presolve.
-/

namespace ExactPresolve

/-- The model with another limit on the number of passes. -/
def Model.limited (m : Model) (limit : Option ℕ) : Model :=
  { m with options := { m.options with iterationLimit := limit } }

namespace State

variable {slack : ℚ} {rules : List Rule} {limit : Option ℕ} {a c : State} {n : ℕ}
  {as : List Application} {w : Ending} {m m' : Model}

/-- The limit cut a run short in the state `c`: without it the run would have gone on from there. -/
structure CutAt (slack : ℚ) (rules : List Rule) (n : ℕ) (a : State) (as : List Application)
    (w : Ending) (c : State) : Prop where
  ending_eq : w = (c.note (.limitReached w.passes)).ending .iterationLimit w.passes
  path : Path slack rules a as c
  extend : ∀ bs w', LoopTrace slack rules none w.passes c bs w' →
    LoopTrace slack rules none n a (as ++ bs) w'

/-- **A run with a limit is one without, or the beginning of one.** -/
theorem LoopTrace.cut (h : LoopTrace slack rules limit n a as w) :
    (w.status ≠ .iterationLimit ∧ LoopTrace slack rules none n a as w) ∨
      ∃ c, CutAt slack rules n a as w c := by
  induction h with
  | @limit n k a => exact .inr ⟨a, rfl, .refl, fun _ _ hl => hl⟩
  | infeasible _ hp hf => exact .inl ⟨nofun, .infeasible nofun hp hf⟩
  | reduced _ hp hs => exact .inl ⟨nofun, .reduced nofun hp hs⟩
  | again _ hp hs _ ih =>
    rcases ih with ⟨hst, hl⟩ | ⟨c, hc⟩
    · exact .inl ⟨hst, .again nofun hp hs hl⟩
    · refine .inr ⟨c, hc.ending_eq, (hp.path.note _).trans hc.path, fun bs w' hl => ?_⟩
      rw [List.append_assoc]
      exact .again nofun hp hs (hc.extend bs w' hl)

theorem Coherent.exists_unlimited (ha : a.Coherent) (slack : ℚ) (rules : List Rule) (n : ℕ) :
    ∃ as w, LoopTrace slack rules none n a as w := by
  have hb : a.Affords none (a.vars.length + 1) n := .inr ⟨rfl, by omega⟩
  obtain ⟨w, as, -, hL⟩ := exists_loopTrace slack rules ha hb
  exact ⟨as, w, hL⟩

/-- The state of a run is ahead of the start of a new run on the same model by what was counted: the
new run finds the same variables fixed. -/
theorem Coherent.aheadBy_start (ha : a.Coherent) (he : m.expressions = a.expressions)
    (hv : m.vars = a.vars) : AheadBy a.progress.fixes a (start m) where
  expressions := he
  vars := hv
  fixed := by rw [ha.fixed_eq, ← hv]; rfl
  fixes q := by cases q <;> exact (Nat.zero_add _).symm

theorem CutAt.left (h : CutAt slack rules n a as w c) :
    w.expressions = c.expressions ∧ w.progress.vars = c.vars ∧
      w.progress.fixes = c.progress.fixes := by
  rw [h.ending_eq]
  exact ⟨rfl, rfl, rfl⟩

theorem CutAt.wellFormed (h : CutAt slack rules n a as w c) (ha : a.Coherent) :
    WellFormed w.expressions w.progress.vars := by
  obtain ⟨he, hv, -⟩ := h.left
  rw [he, hv]
  exact (ha.reaches h.path.reaches).toWellFormed

/-- **A run on what was left behind makes the rest of the passes.** -/
theorem CutAt.exists_rest (h : CutAt slack rules n a as w c) (ha : a.Coherent)
    (he : m.expressions = w.expressions) (hv : m.vars = w.progress.vars) :
    ∃ bs w' cs w'', LoopTrace slack rules none n a bs w' ∧
      LoopTrace slack rules none 0 (start m) cs w'' ∧ w''.status = w'.status ∧
        w'.passes = w''.passes + w.passes ∧ AheadBy w.progress.fixes w'.state w''.state := by
  have hc := ha.reaches h.path.reaches
  obtain ⟨hec, hvc, hfixes⟩ := h.left
  obtain ⟨bs, w', hL⟩ := hc.exists_unlimited slack rules w.passes
  have hstart : (start m).Coherent := coherent_start (by rw [he, hv]; exact h.wellFormed ha)
  have hsim : Simulation slack slack True (AheadBy c.progress.fixes) :=
    AheadBy.simulation _ fun _ _ _ happ => happ
  have hL' : LoopTrace slack rules none (0 + w.passes) c bs w' := by rwa [Nat.zero_add]
  obtain ⟨cs, w'', hrest, hst, hpasses, hR⟩ :=
    hsim.loop hL' (hc.aheadBy_start (he.trans hec) (hv.trans hvc)) hc hstart fun _ => trivial
  exact ⟨_, w', cs, w'', h.extend bs w' hL, hrest, hst, hpasses, hfixes ▸ hR⟩

end State

open State

namespace Model

/-- **The limit only cuts a run short, and a cut run can be resumed** to the end of the run without a
limit. -/
theorem presolve_resumes {m : Model} (hm : m.Built) (rules : List Rule) (k : ℕ) :
    ∃ r rk, (m.limited none).presolve rules = .ok r ∧
      (m.limited (some k)).presolve rules = .ok rk ∧
      (rk.summary.status ≠ .iterationLimit →
        rk = { r with model := r.model.limited (some k) }) ∧
      (rk.summary.status = .iterationLimit → ∃ r',
        (rk.model.limited none).presolve rules = .ok r' ∧ r'.model = r.model ∧
          r'.summary.status = r.summary.status ∧ r'.summary.fixed = r.summary.fixed ∧
          r'.summary.redundant = r.summary.redundant ∧
          r.summary.passes = rk.summary.passes + r'.summary.passes ∧
          ∀ q, r.summary.fixes.get q = rk.summary.fixes.get q + r'.summary.fixes.get q) := by
  have hw := hm.wellFormed
  obtain ⟨rk, as, hrk, w, hL, rfl⟩ := exists_runs (m := m.limited (some k)) hw rules
  rcases hL.cut with ⟨hst, hfull⟩ | ⟨c, hcut⟩
  · have hr := presolve_eq_of_loopTrace (m := m.limited none) hw hfull
    exact ⟨_, _, hr, hrk, fun _ => rfl, fun h => absurd h hst⟩
  · -- what the limit left behind, without a limit
    set left := ((m.limited (some k)).presolved w).model.limited none with hleft
    obtain ⟨bs, w', cs, w'', hfull, hrest, hst, hpasses, hR⟩ :=
      hcut.exists_rest (m := left) (coherent_start hw) rfl rfl
    have hr := presolve_eq_of_loopTrace (m := m.limited none) hw hfull
    have hr' := presolve_eq_of_loopTrace (m := left) (hcut.wellFormed (coherent_start hw)) hrest
    have hcutst : w.status = .iterationLimit := by rw [hcut.ending_eq]; rfl
    have hvars : w''.progress.vars = w'.progress.vars := hR.vars
    have hexp : w''.expressions = w'.expressions := hR.expressions
    refine ⟨_, _, hr, hrk, fun h => absurd hcutst h, fun _ => ⟨_, hr', ?_, hst, hR.fixed, ?_, ?_,
      fun q => ?_⟩⟩
    · simp only [presolved, hvars, hexp, hleft]
      rfl
    · simp only [presolved, hexp]
    · exact hpasses.trans (Nat.add_comm _ _)
    · exact (hR.fixes q).trans (Nat.add_comm _ _)

/-- A model that needs four passes: the last expression fixes three variables at zero by their signs,
and each of the later passes finds the value of one variable more. -/
def relay : Model where
  vars := [⟨"x", .continuous, ⟨some (-9), none⟩, none⟩, ⟨"y", .integer, .unlimited, none⟩,
    ⟨"z", .continuous, ⟨some 0, none⟩, none⟩, ⟨"u", .integer, ⟨some 0, some 5⟩, none⟩,
    ⟨"v", .continuous, ⟨some (-1), none⟩, none⟩]
  expressions := [⟨"c", .ofList [(0, 1 / 2), (1, 1)], .point 3, false, false⟩,
    ⟨"d", .ofList [(1, 2), (2, -1)], .point 4, false, false⟩,
    ⟨"e", .ofList [(2, -1), (3, -3), (4, -2)], ⟨some 0, none⟩, false, false⟩]
  options := ⟨0, none⟩

theorem presolve_resumes_relay : ∃ r rk r', (relay.limited none).presolve [.signs, .fewFree] = .ok r ∧
    (relay.limited (some 2)).presolve [.signs, .fewFree] = .ok rk ∧
      (rk.model.limited none).presolve [.signs, .fewFree] = .ok r' ∧ r'.model = r.model ∧
        rk.summary.fixed.size = 4 ∧ r'.summary.fixed.size = 5 ∧ r'.summary.passes = 2 ∧
          r'.summary.fixes.get .fewFree = 1 := by
  have hm : relay.Built := by decide +kernel
  obtain ⟨r, rk, hr, hrk, -, hcut⟩ := presolve_resumes hm [.signs, .fewFree] 2
  have hfull : ∀ r ∈ ((relay.limited none).presolve [.signs, .fewFree]).toOption,
      r.summary.passes = 4 ∧ r.summary.fixes = ⟨2, 1⟩ ∧ r.summary.fixed.size = 5 := by
    decide +kernel
  have hshort : ∀ r ∈ ((relay.limited (some 2)).presolve [.signs, .fewFree]).toOption,
      r.summary.status = .iterationLimit ∧ r.summary.passes = 2 ∧ r.summary.fixes = ⟨1, 1⟩ ∧
        r.summary.fixed.size = 4 := by
    decide +kernel
  obtain ⟨hpasses, hfixes, hsize⟩ := hfull r (by rw [hr]; rfl)
  obtain ⟨hst, hpassesk, hfixesk, hsizek⟩ := hshort rk (by rw [hrk]; rfl)
  obtain ⟨r', hr', hmodel, -, hfixed, -, hsum, hcounts⟩ := hcut hst
  refine ⟨r, rk, r', hr, hrk, hr', hmodel, hsizek, by rw [hfixed, hsize], by omega, ?_⟩
  have hfew := hcounts .fewFree
  rw [hfixes, hfixesk] at hfew
  exact (Nat.add_left_cancel hfew).symm

end Model

end ExactPresolve
