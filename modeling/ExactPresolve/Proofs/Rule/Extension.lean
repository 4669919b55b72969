import ExactPresolve.Proofs.Rule.Apply

/-!
# Rules and variables that do not occur

A rule looks up the variables of its expression, and asks of the fixed set which of them are in it. The
rule for few free variables also compares the number of terms with the size of the whole fixed set, but
only to save time: an expression that is skipped for this has more than two free variables anyway. So
further variables, fixed or not, make no difference as long as they do not occur.

* `Terms.free_congr`, `Terms.held_congr`: fixed sets with the same members among the variables that occur;
* `Expression.heldValue_append`, `Signs.zeroed_append`, `Signs.targets_append`: what the rules look at;
* **`Effect.append`**: an application does the same if there are further variables.
-/

namespace ExactPresolve

open FewFree Signs

variable {fixed fixed' : IndexSet} {vs ws : List Variable}

namespace Terms

variable {ts : Terms}

theorem held_congr (h : ∀ j ∈ ts.indices, (j ∈ fixed' ↔ j ∈ fixed)) : ts.held fixed' = ts.held fixed :=
  List.filter_congr fun _ ht => decide_eq_decide.mpr (h _ (fst_mem_indices ht))

theorem free_congr (h : ∀ j ∈ ts.indices, (j ∈ fixed' ↔ j ∈ fixed)) : ts.free fixed' = ts.free fixed :=
  List.filter_congr fun _ ht => decide_eq_decide.mpr (h _ (fst_mem_indices ht)).not

end Terms

theorem getElem?_append_of_eq {j : ℕ} {v : Variable} (h : vs[j]? = some v) (ws : List Variable) :
    (vs ++ ws)[j]? = some v :=
  (List.getElem?_append_left (List.getElem?_eq_some_iff.mp h).1).trans h

theorem set_append_of_eq {j : ℕ} {v : Variable} (h : vs[j]? = some v) (u : Variable)
    (ws : List Variable) : (vs ++ ws).set j u = vs.set j u ++ ws :=
  List.set_append_left _ _ (List.getElem?_eq_some_iff.mp h).1

theorem Expression.heldValue_append {e : Expression} {held : ℚ}
    (hf : ∀ j ∈ e.terms.indices, (j ∈ fixed' ↔ j ∈ fixed)) (h : e.heldValue fixed vs = .ok held) :
    e.heldValue fixed' (vs ++ ws) = .ok held := by
  have hmono : ∀ {ts : List (ℕ × ℚ)} {x : ℚ}, weightedSum (fixedValue vs) ts = .ok x →
      weightedSum (fixedValue (vs ++ ws)) ts = .ok x := by
    intro ts
    induction ts with
    | nil => exact fun hx => hx
    | cons t ts ih =>
      intro x hx
      obtain ⟨y, z, hy, hz, rfl⟩ := weightedSum_cons_eq_ok.mp hx
      obtain ⟨v, hv, hy⟩ := fixedValue_eq_ok.mp hy
      exact weightedSum_cons_eq_ok.mpr
        ⟨y, z, fixedValue_eq_ok.mpr ⟨v, getElem?_append_of_eq hv ws, hy⟩, ih hz, rfl⟩
  rw [heldValue, Terms.held_congr hf]
  exact hmono h

namespace Signs

theorem opposes_congr {ts : Terms} (h : ts.free fixed' = ts.free fixed) {d : Direction} {l : ℚ} :
    Opposes ts fixed' d l ↔ Opposes ts fixed d l := by
  cases d <;> simp only [Opposes, Terms.FreeNegative, Terms.FreePositive, h]

variable {js : List ℕ}

theorem targets_append (hr : ∀ j ∈ js, j < vs.length) (ws : List Variable) :
    targets js (vs ++ ws) = targets js vs :=
  List.filterMap_congr fun j hj => List.getElem?_append_left (hr j hj)

theorem zeroed_append (slack : ℚ) (hr : ∀ j ∈ js, j < vs.length) (ws : List Variable) :
    zeroed slack js (vs ++ ws) = zeroed slack js vs ++ ws := by
  refine List.ext_getElem? fun k => ?_
  rw [getElem?_zeroed]
  by_cases hk : k < vs.length
  · rw [List.getElem?_append_left hk, List.getElem?_append_left (by rwa [length_zeroed]),
      getElem?_zeroed]
  · -- a variable behind the others has no index among the given ones
    have hj : k ∉ js := fun hj => hk (hr k hj)
    rw [List.getElem?_append_right (not_lt.mp hk),
      List.getElem?_append_right (by rw [length_zeroed]; exact not_lt.mp hk), length_zeroed]
    simp [hj]

end Signs

/-- **An application does the same if there are further variables** behind those that the expression
refers to, and if the fixed set holds further variables that do not occur in the expression. -/
theorem Effect.append {slack held : ℚ} {e : Expression} {r : Rule} {s : Step}
    (hr : ∀ j ∈ e.terms.indices, j < vs.length)
    (hfixed : ∀ j ∈ e.terms.indices, (j ∈ fixed' ↔ j ∈ fixed)) (ws : List Variable)
    (h : Effect slack fixed e vs held r s) :
    Effect slack fixed' e (vs ++ ws) held r { s with vars := s.vars ++ ws } := by
  have hfree : e.terms.free fixed' = e.terms.free fixed := Terms.free_congr hfixed
  have hindices : e.terms.freeIndices fixed' = e.terms.freeIndices fixed :=
    congrArg (List.map Prod.fst) hfree
  have hlt : ∀ j ∈ e.terms.freeIndices fixed, j < vs.length := fun j hj =>
    hr j (Terms.mem_freeIndices.mp hj).1
  have hat {j : ℕ} {v : Variable} (hj : vs[j]? = some v) := getElem?_append_of_eq hj ws
  have htargets := targets_append hlt ws
  cases h with
  | tooMany hf => exact .tooMany (by rwa [hfree])
  | checked hf hx => exact .checked (by rwa [hfree]) hx
  | outside hf hx => exact .outside (by rwa [hfree]) hx
  | solved hf hj hl hk hx =>
    rw [← set_append_of_eq hj]
    exact .solved (by rwa [hfree]) (hat hj) hl hk hx
  | beyond hf hj hl hk hx =>
    rw [← set_append_of_eq hj]
    exact .beyond (by rwa [hfree]) (hat hj) hl hk hx
  | fractional hf hj hl hk =>
    rw [← set_append_of_eq hj]
    exact .fractional (by rwa [hfree]) (hat hj) hl hk
  | confined hf hj hl hb =>
    rw [← set_append_of_eq hj]
    exact .confined (by rwa [hfree]) (hat hj) hl hb
  | crossed hf hj hl hb =>
    rw [← set_append_of_eq hj]
    exact .crossed (by rwa [hfree]) (hat hj) hl hb
  | @narrowed j a k b v w hf hj hk hv hw =>
    have hset (u u' : Variable) : ((vs ++ ws).set j u).set k u' = (vs.set j u).set k u' ++ ws := by
      rw [set_append_of_eq hj]
      refine List.set_append_left _ _ ?_
      rw [List.length_set]
      exact (List.getElem?_eq_some_iff.mp hk).1
    rw [← hset]
    exact .narrowed (by rwa [hfree]) (hat hj) (hat hk) hv hw
  | derivedCrossed hf hj hk hb => exact .derivedCrossed (by rwa [hfree]) (hat hj) (hat hk) hb
  | unopposed h => exact .unopposed fun d l hd ho => h d l hd ((opposes_congr hfree).mp ho)
  | zeroed hd ho hz =>
    rw [← zeroed_append slack hlt, ← htargets, ← hindices]
    exact .zeroed hd ((opposes_congr hfree).mpr ho) (by rwa [hindices, htargets])
  | refusedZero hd ho hz =>
    rw [← zeroed_append slack hlt, ← htargets, ← hindices]
    exact .refusedZero hd ((opposes_congr hfree).mpr ho) (by rwa [hindices, htargets])
  | unreachable hd ho hl => exact .unreachable hd ((opposes_congr hfree).mpr ho) hl

end ExactPresolve
