import ExactPresolve.Text
import Mathlib.Data.List.TakeWhile

/-!
# Text between blanks

* `Encloses`: text that stands between nothing but blanks, without one at its own ends;
* **`encloses_iff`**: trimming finds this text, and there is no other.
-/

namespace ExactPresolve.Text

/-- In the text `s` there are only blanks before and after `t`, which neither starts nor ends with
one. -/
inductive Encloses : (s t : List Char) → Prop
  | intro {a t b : List Char} (before : ∀ c ∈ a, isBlank c = true) (after : ∀ c ∈ b, isBlank c = true)
      (first : ∀ c ∈ t.head?, isBlank c = false) (last : ∀ c ∈ t.getLast?, isBlank c = false) :
      Encloses (a ++ t ++ b) t

variable {a s t : List Char}

theorem dropWhile_isBlank (before : ∀ c ∈ a, isBlank c = true)
    (first : ∀ c ∈ t.head?, isBlank c = false) : (a ++ t).dropWhile isBlank = t := by
  rw [List.dropWhile_append_of_pos before]
  cases t with
  | nil => rfl
  | cons c t => exact List.dropWhile_cons_of_neg (by simp [first c rfl])

theorem exists_blanks_before (s : List Char) :
    ∃ a, s = a ++ s.dropWhile isBlank ∧ (∀ c ∈ a, isBlank c = true) ∧
      ∀ c ∈ (s.dropWhile isBlank).head?, isBlank c = false := by
  refine ⟨s.takeWhile isBlank, List.takeWhile_append_dropWhile.symm,
    fun _ => List.mem_takeWhile_imp, fun c hc => ?_⟩
  have hnot := List.head?_dropWhile_not isBlank s
  rwa [hc] at hnot

theorem Encloses.trim_eq (h : Encloses s t) : trim s = t := by
  obtain ⟨before, after, first, last⟩ := h
  rename_i a b
  cases t with
  | nil =>
    have hblank : (a ++ ([] ++ b)).dropWhile isBlank = [] :=
      List.dropWhile_eq_nil_iff.mpr fun c hc => (List.mem_append.mp hc).elim (before c) (after c)
    rw [trim, List.append_assoc, hblank]
    rfl
  | cons c t =>
    have hdrop : (a ++ (c :: t ++ b)).dropWhile isBlank = c :: t ++ b := dropWhile_isBlank before first
    rw [trim, List.append_assoc, hdrop, List.reverse_append, dropWhile_isBlank, List.reverse_reverse]
    · exact fun d hd => after d (List.mem_reverse.mp hd)
    · rwa [List.head?_reverse]

theorem encloses_trim (s : List Char) : Encloses s (trim s) := by
  obtain ⟨a, hs, ha, hfirst⟩ := exists_blanks_before s
  obtain ⟨b, hd, hb, hlast⟩ := exists_blanks_before (s.dropWhile isBlank).reverse
  have hdrop : s.dropWhile isBlank = trim s ++ b.reverse := by
    rw [trim, ← List.reverse_append, ← hd, List.reverse_reverse]
  rw [hdrop] at hs hfirst
  have hfirst' : ∀ c ∈ (trim s).head?, isBlank c = false := fun c hc =>
    hfirst c (by rw [List.head?_append, hc]; rfl)
  have hlast' : ∀ c ∈ (trim s).getLast?, isBlank c = false := by
    rwa [trim, List.getLast?_reverse]
  generalize trim s = t at hs hfirst' hlast'
  rw [hs, ← List.append_assoc]
  exact .intro ha (fun c hc => hb c (List.mem_reverse.mp hc)) hfirst' hlast'

/-- **Trimming finds the text between the blanks.** -/
theorem encloses_iff : Encloses s t ↔ trim s = t := by
  refine ⟨Encloses.trim_eq, ?_⟩
  rintro rfl
  exact encloses_trim s

end ExactPresolve.Text
