import ExactPresolve.IndexSet
import ExactPresolve.Number.Basic

/-!
# Terms of a linear combination

The terms `a * x j` of a linear combination, at most one for each variable index `j`, in
increasing order of the index and without zero coefficients, so that equal combinations are equal
values.

* `Terms`, `Terms.coefficient`: the combination as a list and as a function of the index;
* `Terms.set`: a coefficient replaced, where a zero removes the term;
* **`Terms.coefficient_set`**: a replaced coefficient is the new one, and the others stay;
* `Terms.free`, `Terms.held`: the terms of the variables outside and inside a fixed set;
* `weightedSum`: the value of terms at values of the variables that may be missing.
-/

namespace ExactPresolve

/-- A linear combination of variables. -/
structure Terms where
  toList : List (Nat × Rat)
  increasing : toList.Pairwise (·.1 < ·.1)
  nonzero : ∀ t ∈ toList, t.2 ≠ 0
  deriving DecidableEq, Repr

namespace Terms

def empty : Terms := ⟨[], .nil, by simp⟩

def size (ts : Terms) : Nat := ts.toList.length

def indices (ts : Terms) : List Nat := ts.toList.map (·.1)

def coefficient? (ts : Terms) (j : Nat) : Option Rat := (ts.toList.find? (·.1 == j)).map (·.2)

/-- The coefficient of the variable `j`, which is zero if the variable does not occur. -/
def coefficient (ts : Terms) (j : Nat) : Rat := (ts.coefficient? j).getD 0

/-! ## Replacing a coefficient -/

def place (j : Nat) (a : Rat) : List (Nat × Rat) → List (Nat × Rat)
  | [] => [(j, a)]
  | t :: ts =>
    if j < t.1 then (j, a) :: t :: ts else if j = t.1 then (j, a) :: ts else t :: place j a ts

theorem eq_or_mem_of_mem_place {j : Nat} {a : Rat} {t : Nat × Rat} {ts : List (Nat × Rat)}
    (h : t ∈ place j a ts) : t = (j, a) ∨ t ∈ ts := by
  induction ts with
  | nil => simpa [place] using h
  | cons s ts ih =>
    rw [place] at h
    split at h
    · simpa using h
    · split at h
      · rcases List.mem_cons.1 h with h | h
        · exact .inl h
        · exact .inr (List.mem_cons_of_mem _ h)
      · rcases List.mem_cons.1 h with h | h
        · exact .inr (h ▸ List.mem_cons_self)
        · exact (ih h).imp_right (List.mem_cons_of_mem _)

theorem place_increasing {j : Nat} {a : Rat} {ts : List (Nat × Rat)}
    (h : ts.Pairwise (·.1 < ·.1)) : (place j a ts).Pairwise (·.1 < ·.1) := by
  induction ts with
  | nil => simp [place]
  | cons s ts ih =>
    obtain ⟨hs, hts⟩ := List.pairwise_cons.1 h
    rw [place]
    split
    · rename_i hj
      refine List.pairwise_cons.2 ⟨fun t ht => ?_, h⟩
      rcases List.mem_cons.1 ht with rfl | ht
      · exact hj
      · exact Nat.lt_trans hj (hs t ht)
    · split
      · rename_i hj
        exact List.pairwise_cons.2 ⟨fun t ht => hj ▸ hs t ht, hts⟩
      · refine List.pairwise_cons.2 ⟨fun t ht => ?_, ih hts⟩
        rcases eq_or_mem_of_mem_place ht with rfl | ht
        · show s.1 < j
          omega
        · exact hs t ht

/-- The combination in which the variable `j` has coefficient `a`. -/
def set (ts : Terms) (j : Nat) (a : Rat) : Terms :=
  if h : a = 0 then
    ⟨ts.toList.filter (·.1 ≠ j), ts.increasing.filter _,
      fun t ht => ts.nonzero t (List.mem_filter.1 ht).1⟩
  else
    ⟨place j a ts.toList, place_increasing ts.increasing, fun t ht => by
      rcases eq_or_mem_of_mem_place ht with rfl | ht
      · exact h
      · exact ts.nonzero t ht⟩

theorem find?_place {j k : Nat} {a : Rat} {ts : List (Nat × Rat)} :
    (place j a ts).find? (·.1 == k) = if k = j then some (j, a) else ts.find? (·.1 == k) := by
  induction ts with
  | nil => grind [place]
  | cons t ts ih => grind [place]

theorem find?_filter_ne {j k : Nat} {ts : List (Nat × Rat)} :
    (ts.filter (·.1 ≠ j)).find? (·.1 == k) = if k = j then none else ts.find? (·.1 == k) := by
  induction ts with
  | nil => simp
  | cons t ts ih => grind

/-- A replaced coefficient is the new one, and the others stay. -/
theorem coefficient_set {ts : Terms} {j k : Nat} {a : Rat} :
    (ts.set j a).coefficient k = if k = j then a else ts.coefficient k := by
  unfold coefficient coefficient? set
  split
  · rw [find?_filter_ne]
    grind
  · rw [find?_place]
    grind

/-- The combination of the given terms, where a later term replaces an earlier one. -/
def ofList (ts : List (Nat × Rat)) : Terms := ts.foldl (fun c t => c.set t.1 t.2) empty

/-! ## Fixed and free variables -/

/-- The terms of the variables outside a fixed set. -/
def free (ts : Terms) (fixed : IndexSet) : List (Nat × Rat) := ts.toList.filter (·.1 ∉ fixed)

/-- The terms of the variables in a fixed set. -/
def held (ts : Terms) (fixed : IndexSet) : List (Nat × Rat) := ts.toList.filter (·.1 ∈ fixed)

/-- All free coefficients are negative. This holds if no variable is free. -/
def FreeNegative (ts : Terms) (fixed : IndexSet) : Prop := ∀ t ∈ ts.free fixed, t.2 < 0

/-- All free coefficients are positive. This holds if no variable is free. -/
def FreePositive (ts : Terms) (fixed : IndexSet) : Prop := ∀ t ∈ ts.free fixed, 0 < t.2

instance (ts : Terms) (fixed : IndexSet) : Decidable (ts.FreeNegative fixed) :=
  inferInstanceAs (Decidable (∀ t ∈ ts.free fixed, t.2 < 0))

instance (ts : Terms) (fixed : IndexSet) : Decidable (ts.FreePositive fixed) :=
  inferInstanceAs (Decidable (∀ t ∈ ts.free fixed, 0 < t.2))

end Terms

/-- The value of terms at values of the variables. The first value that is missing, in the order
of the terms, is the fault of the whole. -/
def weightedSum (value : Nat → Except Fault Rat) : List (Nat × Rat) → Except Fault Rat
  | [] => .ok 0
  | (j, a) :: ts => do
    let x ← value j
    let rest ← weightedSum value ts
    return a * x + rest

end ExactPresolve
