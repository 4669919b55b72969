import ExactPresolve.Proofs.Rule.Apply
import Mathlib.Data.List.Induction
import Mathlib.Data.List.Permutation
import Mathlib.Logic.Equiv.Defs

/-!
# Rules and renamed variables

The variables of a model are numbered, and terms and fixed sets are kept in the order of the numbers. A
permutation of the numbers rearranges them, so that the rules see the free variables in another order.
The order does not matter: sums have the same value, two free variables are narrowed with the bounds
that both had before, and the variables that are fixed at zero are fixed independently of each other.

* `IndexSet.rename`, `Terms.rename`, `Expression.rename`: renamed sets, terms and expressions;
* `Terms.rename_perm`, `Terms.free_rename`: renamed terms, up to their order;
* `Renames`: lists of variables of which the second one is the first one rearranged;
* `Expression.heldValue_rename`, `Signs.opposes_rename`, `Signs.targets_rename`: what the rules look at;
* `Step.Renames`, **`Effect.rename`**: an application to the renamed expression does the same, up to
  the order of the events.
-/

namespace ExactPresolve

open FewFree Signs

variable {σ : Equiv.Perm ℕ} {fixed : IndexSet} {vs ws : List Variable}

/-! ## Sets of indices -/

namespace IndexSet

/-- The indices in the set, renamed. -/
def rename (σ : Equiv.Perm ℕ) (s : IndexSet) : IndexSet := .ofList (s.toList.map σ)

theorem mem_ofList {js : List ℕ} {j : ℕ} : j ∈ ofList js ↔ j ∈ js := by
  have hempty : ¬j ∈ empty := List.not_mem_nil
  simp [ofList, mem_insertAll, hempty]

theorem mem_rename {s : IndexSet} {j : ℕ} : σ j ∈ s.rename σ ↔ j ∈ s := by
  rw [rename, mem_ofList, List.mem_map_of_injective σ.injective]
  rfl

theorem eq_rename {s t : IndexSet} (h : ∀ j, σ j ∈ t ↔ j ∈ s) : t = s.rename σ := by
  refine ext fun k => ?_
  obtain ⟨j, rfl⟩ := σ.surjective k
  exact (h j).trans mem_rename.symm

end IndexSet

/-! ## Terms -/

def renameTerm (σ : Equiv.Perm ℕ) (t : ℕ × ℚ) : ℕ × ℚ := (σ t.1, t.2)

theorem map_fst_renameTerm (σ : Equiv.Perm ℕ) (ts : List (ℕ × ℚ)) :
    (ts.map (renameTerm σ)).map (·.1) = (ts.map (·.1)).map σ := by
  rw [List.map_map, List.map_map]
  rfl

namespace Terms

variable {ts : Terms}

theorem perm_place {j : ℕ} {a : ℚ} {ts : List (ℕ × ℚ)} (h : ∀ t ∈ ts, t.1 ≠ j) :
    (place j a ts).Perm ((j, a) :: ts) := by
  induction ts with
  | nil => exact .refl _
  | cons t ts ih =>
    have hne : j ≠ t.1 := (h t List.mem_cons_self).symm
    rw [place, if_neg hne]
    split_ifs
    · exact .refl _
    · exact ((ih fun u hu => h u (List.mem_cons_of_mem _ hu)).cons t).trans (.swap _ _ _)

/-- Terms with different indices and without zeros are those of their combination. -/
theorem perm_ofList {ts : List (ℕ × ℚ)} (hn : (ts.map (·.1)).Nodup) (h0 : ∀ t ∈ ts, t.2 ≠ 0) :
    (ofList ts).toList.Perm ts := by
  induction ts using List.reverseRecOn with
  | nil => exact .refl _
  | append_singleton ts t ih =>
    rw [List.map_append, List.nodup_append'] at hn
    have hperm := ih hn.1 fun u hu => h0 u (List.mem_append_left _ hu)
    have hne : ∀ u ∈ (ofList ts).toList, u.1 ≠ t.1 := fun u hu he =>
      hn.2.2 (List.mem_map_of_mem (hperm.mem_iff.mp hu)) (by simp [he])
    have hset : (ofList (ts ++ [t])).toList = place t.1 t.2 (ofList ts).toList := by
      have h : ofList (ts ++ [t]) = (ofList ts).set t.1 t.2 := by simp [ofList]
      rw [h, set, dif_neg (h0 t (by simp))]
    rw [hset]
    exact (perm_place hne).trans ((hperm.cons t).trans (List.perm_append_singleton t ts).symm)

/-- The combination with renamed variables. -/
def rename (σ : Equiv.Perm ℕ) (ts : Terms) : Terms := .ofList (ts.toList.map (renameTerm σ))

/-- **Renamed terms**, up to their order. -/
theorem rename_perm (σ : Equiv.Perm ℕ) (ts : Terms) :
    (ts.rename σ).toList.Perm (ts.toList.map (renameTerm σ)) := by
  refine perm_ofList ?_ fun t ht => ?_
  · rw [map_fst_renameTerm]
    exact ts.nodup_indices.map σ.injective
  · obtain ⟨u, hu, rfl⟩ := List.mem_map.mp ht
    exact ts.nonzero u hu

theorem filter_rename (ts : Terms) {p q : ℕ → Prop} [DecidablePred p] [DecidablePred q]
    (h : ∀ j, q (σ j) ↔ p j) :
    ((ts.rename σ).toList.filter (q ·.1)).Perm
      ((ts.toList.filter (p ·.1)).map (renameTerm σ)) := by
  refine ((ts.rename_perm σ).filter _).trans ?_
  rw [List.filter_map]
  simp only [Function.comp_def, renameTerm, h]
  exact .refl _

theorem free_rename (ts : Terms) (fixed : IndexSet) :
    ((ts.rename σ).free (fixed.rename σ)).Perm ((ts.free fixed).map (renameTerm σ)) :=
  ts.filter_rename (p := (· ∉ fixed)) (q := (· ∉ fixed.rename σ)) fun _ => IndexSet.mem_rename.not

theorem held_rename (ts : Terms) (fixed : IndexSet) :
    ((ts.rename σ).held (fixed.rename σ)).Perm ((ts.held fixed).map (renameTerm σ)) :=
  ts.filter_rename (p := (· ∈ fixed)) (q := (· ∈ fixed.rename σ)) fun _ => IndexSet.mem_rename

theorem freeIndices_rename (ts : Terms) (fixed : IndexSet) :
    ((ts.rename σ).freeIndices (fixed.rename σ)).Perm ((ts.freeIndices fixed).map σ) := by
  rw [freeIndices, freeIndices, ← map_fst_renameTerm]
  exact (ts.free_rename fixed).map _

theorem indices_rename (ts : Terms) : (ts.rename σ).indices.Perm (ts.indices.map σ) := by
  rw [indices, indices, ← map_fst_renameTerm]
  exact (ts.rename_perm σ).map _

theorem mem_indices_rename {j : ℕ} : σ j ∈ (ts.rename σ).indices ↔ j ∈ ts.indices :=
  ts.indices_rename.mem_iff.trans (List.mem_map_of_injective σ.injective)

end Terms

theorem weightedSum_perm {value : ℕ → Except Fault ℚ} {ts us : List (ℕ × ℚ)} {x : ℚ}
    (h : ts.Perm us) (hs : weightedSum value ts = .ok x) : weightedSum value us = .ok x := by
  induction h generalizing x with
  | nil => exact hs
  | cons t _ ih =>
    obtain ⟨y, z, hy, hz, rfl⟩ := weightedSum_cons_eq_ok.mp hs
    exact weightedSum_cons_eq_ok.mpr ⟨y, z, hy, ih hz, rfl⟩
  | swap t u =>
    obtain ⟨y, z, hy, hz, rfl⟩ := weightedSum_cons_eq_ok.mp hs
    obtain ⟨y', z', hy', hz', rfl⟩ := weightedSum_cons_eq_ok.mp hz
    exact weightedSum_cons_eq_ok.mpr
      ⟨y', _, hy', weightedSum_cons_eq_ok.mpr ⟨y, z', hy, hz', rfl⟩, add_left_comm _ _ _⟩
  | trans _ _ ih ih' => exact ih' (ih hs)

theorem weightedSum_rename {value value' : ℕ → Except Fault ℚ} {ts : List (ℕ × ℚ)} {x : ℚ}
    (h : ∀ j y, value j = .ok y → value' (σ j) = .ok y) (hs : weightedSum value ts = .ok x) :
    weightedSum value' (ts.map (renameTerm σ)) = .ok x := by
  induction ts generalizing x with
  | nil => exact hs
  | cons t ts ih =>
    obtain ⟨y, z, hy, hz, rfl⟩ := weightedSum_cons_eq_ok.mp hs
    exact weightedSum_cons_eq_ok.mpr ⟨y, z, h t.1 y hy, ih hz, rfl⟩

/-! ## Variables and expressions -/

/-- The second list holds the variables of the first one, at the renamed indices. -/
structure Renames (σ : Equiv.Perm ℕ) (vs ws : List Variable) : Prop where
  length_eq : ws.length = vs.length
  getElem?_eq : ∀ j, ws[σ j]? = vs[j]?

theorem Renames.set (h : Renames σ vs ws) (j : ℕ) (v : Variable) :
    Renames σ (vs.set j v) (ws.set (σ j) v) where
  length_eq := by rw [List.length_set, List.length_set, h.length_eq]
  getElem?_eq k := by simp only [List.getElem?_set', σ.injective.eq_iff, h.getElem?_eq k]

/-- The expression with renamed variables. -/
def Expression.rename (σ : Equiv.Perm ℕ) (e : Expression) : Expression :=
  { e with terms := e.terms.rename σ }

theorem Expression.heldValue_rename {e : Expression} {held : ℚ} (hv : Renames σ vs ws)
    (h : e.heldValue fixed vs = .ok held) :
    (e.rename σ).heldValue (fixed.rename σ) ws = .ok held := by
  refine weightedSum_perm (e.terms.held_rename fixed).symm (weightedSum_rename (fun j y hy => ?_) h)
  obtain ⟨v, hj, hx⟩ := fixedValue_eq_ok.mp hy
  exact fixedValue_eq_ok.mpr ⟨v, (hv.getElem?_eq j).trans hj, hx⟩

/-! ## What the rule for signs looks at -/

namespace Signs

variable {slack : ℚ} {js js' : List ℕ}

theorem opposes_rename {ts : Terms} {d : Direction} {l : ℚ} :
    Opposes (ts.rename σ) (fixed.rename σ) d l ↔ Opposes ts fixed d l := by
  have hfree (p : ℚ → Prop) : (∀ t ∈ (ts.rename σ).free (fixed.rename σ), p t.2) ↔
      ∀ t ∈ ts.free fixed, p t.2 := by
    simp only [(ts.free_rename fixed).mem_iff, List.forall_mem_map, renameTerm]
  cases d with
  | lower => exact and_congr_right fun _ => hfree (· < 0)
  | upper => exact and_congr_right fun _ => hfree (0 < ·)

theorem targets_rename (hv : Renames σ vs ws) (h : js'.Perm (js.map σ)) :
    (targets js' ws).Perm (targets js vs) := by
  refine (h.filterMap _).trans ?_
  rw [List.filterMap_map]
  simp only [Function.comp_def, hv.getElem?_eq]
  exact .refl _

theorem zeroed_rename (slack : ℚ) (hv : Renames σ vs ws) (h : js'.Perm (js.map σ)) :
    Renames σ (zeroed slack js vs) (zeroed slack js' ws) where
  length_eq := by rw [length_zeroed, length_zeroed, hv.length_eq]
  getElem?_eq k := by
    rw [getElem?_zeroed, getElem?_zeroed, hv.getElem?_eq k]
    simp only [h.mem_iff, List.mem_map_of_injective σ.injective]

end Signs

/-! ## Applications -/

/-- The second step is the first one with renamed variables, up to the order of the events. -/
structure Step.Renames (σ : Equiv.Perm ℕ) (s t : Step) : Prop where
  vars : ExactPresolve.Renames σ s.vars t.vars
  expression : t.expression = s.expression.rename σ
  fixedAny : t.fixedAny = s.fixedAny
  events : t.events.Perm s.events

/-- **An application to the renamed expression does the same**, up to the order of the events. -/
theorem Effect.rename {slack held : ℚ} {e : Expression} {r : Rule} {s : Step}
    (hv : Renames σ vs ws) (h : Effect slack fixed e vs held r s) :
    ∃ t, Effect slack (fixed.rename σ) (e.rename σ) ws held r t ∧ s.Renames σ t := by
  have hfree := e.terms.free_rename (σ := σ) fixed
  have hnone (hf : e.terms.free fixed = []) : (e.rename σ).terms.free (fixed.rename σ) = [] := by
    rw [hf] at hfree
    exact hfree.eq_nil
  have hone {j : ℕ} {a : ℚ} (hf : e.terms.free fixed = [(j, a)]) :
      (e.rename σ).terms.free (fixed.rename σ) = [(σ j, a)] := by
    rw [hf] at hfree
    exact List.perm_singleton.mp hfree
  have htwo {j k : ℕ} {a b : ℚ} (hf : e.terms.free fixed = [(j, a), (k, b)]) :
      (e.rename σ).terms.free (fixed.rename σ) = [(σ j, a), (σ k, b)] ∨
        (e.rename σ).terms.free (fixed.rename σ) = [(σ k, b), (σ j, a)] := by
    rw [hf] at hfree
    exact List.perm_pair.mp hfree
  have hat {j : ℕ} {v : Variable} (hj : vs[j]? = some v) : ws[σ j]? = some v :=
    (hv.getElem?_eq j).trans hj
  have hindices := e.terms.freeIndices_rename (σ := σ) fixed
  have htargets := targets_rename hv hindices
  cases h with
  | tooMany hf =>
    have hf' : 2 < ((e.rename σ).terms.free (fixed.rename σ)).length := by
      rw [Expression.rename, hfree.length_eq, List.length_map]
      exact hf
    exact ⟨_, .tooMany hf', hv, rfl, rfl, .refl _⟩
  | checked hf hx => exact ⟨_, .checked (hnone hf) hx, hv, rfl, rfl, .refl _⟩
  | outside hf hx => exact ⟨_, .outside (hnone hf) hx, hv, rfl, rfl, .refl _⟩
  | solved hf hj hl hk hx =>
    exact ⟨_, .solved (hone hf) (hat hj) hl hk hx, hv.set _ _, rfl, rfl, .refl _⟩
  | beyond hf hj hl hk hx =>
    exact ⟨_, .beyond (hone hf) (hat hj) hl hk hx, hv.set _ _, rfl, rfl, .refl _⟩
  | fractional hf hj hl hk =>
    exact ⟨_, .fractional (hone hf) (hat hj) hl hk, hv.set _ _, rfl, rfl, .refl _⟩
  | confined hf hj hl hb =>
    exact ⟨_, .confined (hone hf) (hat hj) hl hb, hv.set _ _, rfl, rfl, .refl _⟩
  | crossed hf hj hl hb =>
    exact ⟨_, .crossed (hone hf) (hat hj) hl hb, hv.set _ _, rfl, rfl, .refl _⟩
  | @narrowed j a k b v w hf hj hk hv' hw' =>
    rcases htwo hf with hf' | hf'
    · exact ⟨_, .narrowed hf' (hat hj) (hat hk) hv' hw',
        (hv.set j _).set k _, rfl, rfl, .refl _⟩
    · -- the rule narrows the two variables in the other order
      have hjk : σ j ≠ σ k := σ.injective.ne (Terms.ne_of_free_pair hf)
      refine ⟨_, .narrowed hf' (hat hk) (hat hj) hw' hv', ?_, rfl, ?_, .refl _⟩
      · dsimp only
        rw [List.set_comm _ _ hjk.symm]
        exact (hv.set j _).set k _
      · exact decide_eq_decide.mpr or_comm
  | @derivedCrossed j a k b v w hf hj hk hb =>
    rcases htwo hf with hf' | hf'
    · exact ⟨_, .derivedCrossed hf' (hat hj) (hat hk) hb, hv, rfl, rfl, .refl _⟩
    · exact ⟨_, .derivedCrossed hf' (hat hk) (hat hj) fun h => hb h.symm, hv, rfl,
        rfl, .refl _⟩
  | unopposed h =>
    exact ⟨_, .unopposed fun d l hd ho => h d l hd (opposes_rename.mp ho), hv, rfl, rfl, .refl _⟩
  | zeroed hd ho hz =>
    exact ⟨_, .zeroed hd (opposes_rename.mpr ho) fun v hv' => hz v (htargets.mem_iff.mp hv'),
      zeroed_rename slack hv hindices, rfl, htargets.any_eq, htargets.map _⟩
  | refusedZero hd ho hz =>
    have hz' : ¬∀ v ∈ targets ((e.rename σ).terms.freeIndices (fixed.rename σ)) ws,
        v.TakesZero slack := fun h => hz fun v hv' => h v (htargets.mem_iff.mpr hv')
    exact ⟨_, .refusedZero hd (opposes_rename.mpr ho) hz', zeroed_rename slack hv hindices, rfl,
      htargets.any_eq, htargets.map _⟩
  | unreachable hd ho hl =>
    exact ⟨_, .unreachable hd (opposes_rename.mpr ho) hl, hv, rfl, rfl, .refl _⟩

end ExactPresolve
