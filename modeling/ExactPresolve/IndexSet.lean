/-!
# Sets of indices

A finite set of natural numbers, kept as the increasing list of its members, so that equal sets
are equal values.

* `IndexSet`, with membership `j ∈ s`;
* `IndexSet.insert`, `IndexSet.ofList`, `IndexSet.insertAll`, `IndexSet.size`;
* **`IndexSet.mem_insert`**: what an insertion adds;
* **`IndexSet.ext`**: sets with the same members are equal.
-/

namespace ExactPresolve

/-- A finite set of indices. -/
structure IndexSet where
  /-- The members in increasing order. -/
  toList : List Nat
  increasing : toList.Pairwise (· < ·)
  deriving DecidableEq, Repr

namespace IndexSet

instance : Membership Nat IndexSet where
  mem s j := j ∈ s.toList

instance (j : Nat) (s : IndexSet) : Decidable (j ∈ s) :=
  inferInstanceAs (Decidable (j ∈ s.toList))

def empty : IndexSet := ⟨[], .nil⟩

def size (s : IndexSet) : Nat := s.toList.length

/-! ## Insertion -/

def place (j : Nat) : List Nat → List Nat
  | [] => [j]
  | k :: ks => if j < k then j :: k :: ks else if j = k then k :: ks else k :: place j ks

theorem mem_place {i j : Nat} {ks : List Nat} : i ∈ place j ks ↔ i = j ∨ i ∈ ks := by
  induction ks with
  | nil => simp [place]
  | cons k ks ih =>
    rw [place]
    split
    · simp
    · split
      · rename_i h
        subst h
        simp
      · simp only [List.mem_cons, ih]
        exact or_left_comm

theorem place_increasing {j : Nat} {ks : List Nat} (h : ks.Pairwise (· < ·)) :
    (place j ks).Pairwise (· < ·) := by
  induction ks with
  | nil => simp [place]
  | cons k ks ih =>
    obtain ⟨hk, hks⟩ := List.pairwise_cons.1 h
    rw [place]
    split
    · rename_i hj
      refine List.pairwise_cons.2 ⟨fun i hi => ?_, h⟩
      rcases List.mem_cons.1 hi with rfl | hi
      · exact hj
      · exact Nat.lt_trans hj (hk i hi)
    · split
      · exact h
      · refine List.pairwise_cons.2 ⟨fun i hi => ?_, ih hks⟩
        rcases mem_place.1 hi with rfl | hi
        · omega
        · exact hk i hi

def insert (s : IndexSet) (j : Nat) : IndexSet := ⟨place j s.toList, place_increasing s.increasing⟩

def insertAll (s : IndexSet) (js : List Nat) : IndexSet := js.foldl insert s

def ofList (js : List Nat) : IndexSet := empty.insertAll js

/-! ## Members -/

theorem mem_insert {s : IndexSet} {i j : Nat} : i ∈ s.insert j ↔ i = j ∨ i ∈ s := mem_place

theorem mem_insertAll {s : IndexSet} {js : List Nat} {i : Nat} :
    i ∈ s.insertAll js ↔ i ∈ js ∨ i ∈ s := by
  induction js generalizing s with
  | nil => simp [insertAll]
  | cons j js ih =>
    have h : s.insertAll (j :: js) = (s.insert j).insertAll js := rfl
    rw [h, ih, mem_insert, List.mem_cons]
    constructor
    · rintro (h | h | h) <;> simp [h]
    · rintro ((h | h) | h) <;> simp [h]

theorem eq_of_mem_iff {s t : List Nat} (hs : s.Pairwise (· < ·)) (ht : t.Pairwise (· < ·))
    (h : ∀ i, i ∈ s ↔ i ∈ t) : s = t := by
  induction s generalizing t with
  | nil =>
    cases t with
    | nil => rfl
    | cons b t => exact absurd ((h b).2 (by simp)) (by simp)
  | cons a s ih =>
    cases t with
    | nil => exact absurd ((h a).1 (by simp)) (by simp)
    | cons b t =>
      obtain ⟨ha, hs'⟩ := List.pairwise_cons.1 hs
      obtain ⟨hb, ht'⟩ := List.pairwise_cons.1 ht
      have hab : a = b := by
        rcases List.mem_cons.1 ((h a).1 (by simp)) with e | ma
        · exact e
        · rcases List.mem_cons.1 ((h b).2 (by simp)) with e | mb
          · exact e.symm
          · exact absurd (ha b mb) (Nat.lt_asymm (hb a ma))
      subst hab
      congr 1
      refine ih hs' ht' fun i => ⟨fun hi => ?_, fun hi => ?_⟩
      · rcases List.mem_cons.1 ((h i).1 (List.mem_cons_of_mem _ hi)) with e | hi'
        · exact absurd (ha i hi) (by omega)
        · exact hi'
      · rcases List.mem_cons.1 ((h i).2 (List.mem_cons_of_mem _ hi)) with e | hi'
        · exact absurd (hb i hi) (by omega)
        · exact hi'

/-- Sets with the same members are equal. -/
theorem ext {s t : IndexSet} (h : ∀ j, j ∈ s ↔ j ∈ t) : s = t := by
  obtain ⟨s, hs⟩ := s
  obtain ⟨t, ht⟩ := t
  obtain rfl : s = t := eq_of_mem_iff hs ht h
  rfl

end IndexSet

end ExactPresolve
