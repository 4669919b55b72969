import ExactPresolve.Proofs.Bounds

/-!
# Propagation as projection

The points `(x, y)` within the bounds of two variables for which `a * x + b * y` lies within limits
form a polygon. Propagation derives bounds for `x` from the limits and the ends of the bounds of
`y`, one pair at a time. If neither the bounds of `y` nor the limits cross, nothing is lost by that:
the bounds that it implies for `x` hold exactly the projection of the polygon.

* `Bounds.exists_mem_iff`: bounds hold a number unless their ends cross;
* `Bounds.eq_of_mem_iff`: bounds that do not cross are determined by the numbers that they hold;
* `Bounds.consistent_inter`: two bounds have a number in common if no end of one of them excludes
  the other one;
* `FewFree.exists_mem_iff_ends`: some value of `y` satisfies the limits if each limit allows the end
  of `y` that is best for it;
* **`FewFree.mem_impliedBounds_iff`**: propagation computes the projection.
-/

namespace ExactPresolve

/-! ## One end at a time -/

namespace Direction

variable {d : Direction} {l x y : ℚ}

theorem allows_antisymm (h : d.Allows x y) (h' : d.Allows y x) : x = y := by
  cases d with
  | lower => exact le_antisymm h h'
  | upper => exact le_antisymm h' h

theorem allows_sub_iff : d.Allows (l - x) y ↔ d.Allows l (y + x) := by
  cases d with
  | lower => exact sub_le_iff_le_add
  | upper => exact le_sub_iff_add_le

/-- Values that a limit does not allow lie as far out as one likes. -/
theorem exists_not_allows (d : Direction) (l x : ℚ) : ∃ y, d.Allows y x ∧ ¬d.Allows l y := by
  cases d with
  | lower => exact ⟨min x (l - 1), min_le_left x _, by simp [Allows]⟩
  | upper => exact ⟨max x (l + 1), le_max_left x _, by simp [Allows]⟩

theorem mem_tightest {o o' : Option ℚ} (h : x ∈ d.tightest o o') : x ∈ o ∨ x ∈ o' := by
  cases o with
  | none => exact .inr h
  | some a =>
    cases o' with
    | none => exact .inl h
    | some b =>
      cases h
      cases d <;> simp only [tighter] <;> split_ifs <;> simp

end Direction

namespace Bounds

variable {b c : Bounds} {d : Direction} {l x y : ℚ}

theorem subset_iff_get : b ⊆ c ↔ ∀ d, ∀ l ∈ c.get d, ∃ l' ∈ b.get d, Direction.Allows d l l' := by
  constructor
  · rintro ⟨hl, hu⟩ d
    cases d with
    | lower => exact hl
    | upper => exact hu
  · intro h
    exact ⟨h .lower, h .upper⟩

theorem mem_get_of_subset (h : b ⊆ c) (h' : c ⊆ b) (hl : l ∈ c.get d) : l ∈ b.get d := by
  obtain ⟨l', hl', hle⟩ := subset_iff_get.mp h d l hl
  obtain ⟨l'', hl'', hle'⟩ := subset_iff_get.mp h' d l' hl'
  obtain rfl : l = l'' := Option.mem_unique hl hl''
  rwa [Direction.allows_antisymm hle hle']

theorem subset_antisymm (h : b ⊆ c) (h' : c ⊆ b) : b = c :=
  ext_get fun _ => Option.ext fun _ => ⟨mem_get_of_subset h' h, mem_get_of_subset h h'⟩

theorem get_tighten (b : Bounds) (d : Direction) (o : Option ℚ) :
    (b.tighten d o).get d = d.tightest (b.get d) o := by
  cases d <;> rfl

theorem allows_of_mem_tighten (h : x ∈ b.tighten d (some l)) : d.Allows l x := by
  have hget := mem_iff_allows.mp h d
  rw [get_tighten] at hget
  cases hb : b.get d with
  | none => exact hget l (by rw [hb]; rfl)
  | some k => exact (Direction.allows_tighter.mp (hget _ (by rw [hb]; rfl))).2

/-! ## What bounds hold -/

/-- Bounds hold a number unless their ends cross. -/
theorem exists_mem_iff : (∃ x, x ∈ b) ↔ b.Consistent := by
  refine ⟨fun ⟨_, hx⟩ => consistent_of_mem hx, fun h => ?_⟩
  cases hl : b.lower with
  | some l => exact ⟨l, mem_of_get (d := .lower) h hl⟩
  | none =>
    cases hu : b.upper with
    | some u => exact ⟨u, mem_of_get (d := .upper) h hu⟩
    | none => exact ⟨0, by simp [hl], by simp [hu]⟩

theorem mem_of_get_eq_none (hd : b.get d = none) (hx : x ∈ b) (hy : d.Allows y x) : y ∈ b := by
  refine mem_iff_allows.mpr fun d' l hl => ?_
  have hlx := mem_iff_allows.mp hx d' l hl
  cases d <;> cases d'
  · cases hd.symm.trans hl
  · exact le_trans (α := ℚ) hy hlx
  · exact le_trans (α := ℚ) hlx hy
  · cases hd.symm.trans hl

theorem subset_of_mem (hb : b.Consistent) (h : ∀ x ∈ b, x ∈ c) : b ⊆ c := by
  refine subset_iff_get.mpr fun d l hl => ?_
  cases hd : b.get d with
  | some l' => exact ⟨l', rfl, mem_iff_allows.mp (h l' (mem_of_get hb hd)) d l hl⟩
  | none =>
    obtain ⟨x, hx⟩ := exists_mem_iff.mpr hb
    obtain ⟨y, hyx, hly⟩ := d.exists_not_allows l x
    exact absurd (mem_iff_allows.mp (h y (mem_of_get_eq_none hd hx hyx)) d l hl) hly

/-- Bounds that do not cross are determined by the numbers that they hold. -/
theorem eq_of_mem_iff (hb : b.Consistent) (h : ∀ x, x ∈ b ↔ x ∈ c) : b = c := by
  obtain ⟨x, hx⟩ := exists_mem_iff.mpr hb
  have hc : c.Consistent := consistent_of_mem ((h x).mp hx)
  exact subset_antisymm (subset_of_mem hb fun y => (h y).mp) (subset_of_mem hc fun y => (h y).mpr)

theorem consistent_divide {a : ℚ} (ha : a ≠ 0) (h : b.Consistent) : (b.divide a).Consistent := by
  obtain ⟨x, hx⟩ := exists_mem_iff.mpr h
  refine consistent_of_mem (x := x / a) ((mem_divide ha).mpr ?_)
  rwa [mul_div_cancel₀ _ ha]

/-- Two bounds that do not cross have a number in common if no end of the second one excludes the
opposite end of the first one. -/
theorem consistent_inter (hb : b.Consistent) (hc : c.Consistent)
    (h : ∀ d, ∀ l ∈ c.get d, ∀ y ∈ b.get d.opposite, Direction.Allows d l y) :
    (b.inter c).Consistent := by
  intro l hl u hu
  rcases Direction.mem_tightest hl with hl | hl <;> rcases Direction.mem_tightest hu with hu | hu
  · exact hb l hl u hu
  · exact h .upper u hu l hl
  · exact h .lower l hl u hu
  · exact hc l hl u hu

end Bounds

/-! ## The polygon of two variables -/

namespace FewFree

variable {limits other own : Bounds} {a b c x : ℚ}

/-- Some value of the other variable satisfies the limits if and only if each limit allows the end
of this variable that is best for it. -/
theorem exists_mem_iff_ends (hb : b ≠ 0) (ho : other.Consistent) (hl : limits.Consistent) :
    (∃ y ∈ other, c + b * y ∈ limits) ↔
      ∀ d, ∀ l ∈ limits.get d, ∀ y ∈ other.get (d.times (.ofCoefficient b)).opposite,
        d.Allows l (c + b * y) := by
  constructor
  · rintro ⟨y, hy, hyl⟩ d l hd w hw
    have hlc := Direction.allows_sub (Bounds.mem_iff_allows.mp hyl d l hd) (allows_end hb hy hw)
    exact Direction.allows_sub_iff.mp hlc
  · intro h
    -- both conditions on `y` are bounds, so it is enough that their ends do not exclude each other
    have hinter : (other.inter ((limits.subtract c).divide b)).Consistent := by
      refine Bounds.consistent_inter ho
        (Bounds.consistent_divide hb (Bounds.consistent_subtract hl c)) fun d z hz y hy => ?_
      rw [Bounds.get_divide hb, Bounds.get_subtract, Option.map_map, Option.mem_map] at hz
      obtain ⟨l, hd, rfl⟩ := hz
      rw [← d.times_times_self (.ofCoefficient b)] at hy ⊢
      have hly := h _ l hd y hy
      rw [Direction.allows_mul hb, Function.comp_apply, mul_div_cancel₀ _ hb,
        Direction.allows_sub_iff, add_comm]
      exact hly
    obtain ⟨y, hy⟩ := Bounds.exists_mem_iff.mpr hinter
    rw [Bounds.mem_inter, Bounds.mem_divide hb, Bounds.mem_subtract, add_comm] at hy
    exact ⟨y, hy⟩

/-- Within the bounds that a limit implies, the limit holds with the end of the other variable that
is best for it. -/
theorem allows_of_mem_propagate (ha : a ≠ 0) {d : Direction} {l y : ℚ}
    (hx : x ∈ propagate limits a b other own d) (hl : l ∈ limits.get d)
    (hy : y ∈ other.get (d.times (.ofCoefficient b)).opposite) : d.Allows l (a * x + b * y) := by
  rw [Option.mem_def] at hl hy
  simp only [propagate, impliedBound, hl, hy, Option.bind_some, Option.map_some] at hx
  have hallows := Bounds.allows_of_mem_tighten hx
  rwa [Direction.allows_mul ha, mul_div_cancel₀ _ ha, Direction.allows_sub_iff] at hallows

/-- **Propagation computes the projection:** the bounds implied for a continuous variable hold the
values that it can take together with some value of the other one. -/
theorem mem_impliedBounds_iff (ha : a ≠ 0) (hb : b ≠ 0) {v : Variable} (hv : v.kind = .continuous)
    (ho : other.Consistent) (hl : limits.Consistent) :
    x ∈ impliedBounds limits v a b other ↔
      x ∈ v.bounds ∧ ∃ y ∈ other, a * x + b * y ∈ limits := by
  constructor
  · intro hx
    rw [impliedBounds, hv] at hx
    have hx' : x ∈ propagate limits a b other _ .upper := hx
    have hx'' := Bounds.mem_of_subset (propagate_subset limits a b other _ .upper) hx'
    refine ⟨Bounds.mem_of_subset (propagate_subset limits a b other _ .lower) hx'',
      (exists_mem_iff_ends hb ho hl).mpr fun d l hd y hy => ?_⟩
    cases d with
    | lower => exact allows_of_mem_propagate ha hx'' hd hy
    | upper => exact allows_of_mem_propagate ha hx' hd hy
  · rintro ⟨hx, y, hy, hxy⟩
    exact mem_impliedBounds ha hb ⟨hx, hv ▸ trivial⟩ hy hxy

end FewFree

end ExactPresolve
