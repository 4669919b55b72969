import ExactPresolve.Rule.FewFree
import Mathlib.Algebra.Order.Ring.Rat
import Mathlib.Tactic.Linarith
import Mathlib.Tactic.Ring

/-!
# How bounds are derived from bounds

Every bound that presolve writes is derived from the bounds before by rounding, by intersecting or
by propagating a limit of an expression. Two questions are asked of each derivation: are the new
bounds within the old ones, and which values stay.

* `Bounds.instHasSubset`: `b ⊆ c` compares the ends, so it also says which ends exist;
* `Direction.Allows`: one end as a condition on a value;
* `Bounds.exceeded?_eq_none_iff`: which values a check with slack lets pass;
* `Kind.roundInward_subset`, `Kind.mem_roundInward`, `Kind.admits_of_get_roundInward`: rounding;
* **`FewFree.impliedBound_allows`**: a value that satisfies the expression satisfies each bound
  that a limit implies for it;
* **`FewFree.impliedBounds_eq`**, **`FewFree.mem_impliedBounds`**: propagation only tightens, and it
  keeps the values of every solution.
-/

namespace ExactPresolve

namespace Bounds

/-- The bounds `b` have every end that `c` has, and lie within `c`. -/
instance instHasSubset : HasSubset Bounds where
  Subset b c := (∀ l ∈ c.lower, ∃ l' ∈ b.lower, l ≤ l') ∧ ∀ u ∈ c.upper, ∃ u' ∈ b.upper, u' ≤ u

variable {b c d : Bounds} {x : ℚ}

theorem subset_refl (b : Bounds) : b ⊆ b :=
  ⟨fun l h => ⟨l, h, le_rfl⟩, fun u h => ⟨u, h, le_rfl⟩⟩

theorem subset_trans (h : b ⊆ c) (h' : c ⊆ d) : b ⊆ d := by
  constructor
  · intro l hl
    obtain ⟨l', hl', hle⟩ := h'.1 l hl
    obtain ⟨l'', hl'', hle'⟩ := h.1 l' hl'
    exact ⟨l'', hl'', hle.trans hle'⟩
  · intro u hu
    obtain ⟨u', hu', hle⟩ := h'.2 u hu
    obtain ⟨u'', hu'', hle'⟩ := h.2 u' hu'
    exact ⟨u'', hu'', hle'.trans hle⟩

theorem mem_of_subset (h : b ⊆ c) (hx : x ∈ b) : x ∈ c := by
  constructor
  · intro l hl
    obtain ⟨l', hl', hle⟩ := h.1 l hl
    exact hle.trans (hx.1 l' hl')
  · intro u hu
    obtain ⟨u', hu', hle⟩ := h.2 u hu
    exact (hx.2 u' hu').trans hle

theorem point_subset (h : x ∈ b) : point x ⊆ b :=
  ⟨fun l hl => ⟨x, rfl, h.1 l hl⟩, fun u hu => ⟨x, rfl, h.2 u hu⟩⟩

theorem consistent_of_mem (h : x ∈ b) : b.Consistent :=
  fun l hl u hu => (h.1 l hl).trans (h.2 u hu)

theorem consistent_point (x : ℚ) : (point x).Consistent := consistent_of_mem (mem_point.mpr rfl)

theorem point_injective {x y : ℚ} (h : point x = point y) : x = y := by
  cases h
  rfl

theorem exceeded?_eq_none_iff {slack : ℚ} : b.exceeded? slack x = none ↔
    (∀ l ∈ b.lower, l - slack ≤ x) ∧ ∀ u ∈ b.upper, x ≤ u + slack := by
  obtain ⟨l, u⟩ := b
  cases l <;> cases u <;> simp [exceeded?, Option.filter, Option.or_eq_none_iff]

theorem exceeded?_eq_none_of_mem {slack : ℚ} (hs : 0 ≤ slack) (h : x ∈ b) :
    b.exceeded? slack x = none :=
  exceeded?_eq_none_iff.mpr ⟨fun l hl => by linarith [h.1 l hl], fun u hu => by linarith [h.2 u hu]⟩

theorem mem_of_exceeded?_eq_none {slack : ℚ} (hs : slack ≤ 0) (h : b.exceeded? slack x = none) :
    x ∈ b := by
  obtain ⟨hl, hu⟩ := exceeded?_eq_none_iff.mp h
  exact ⟨fun l hl' => by linarith [hl l hl'], fun u hu' => by linarith [hu u hu']⟩

end Bounds

theorem Variable.violation?_eq_none_iff {v : Variable} {slack x : ℚ} :
    v.violation? slack x = none ↔ v.bounds.exceeded? slack x = none := by
  simp [violation?, Violation.find?]

theorem Expression.violation?_eq_none_iff {e : Expression} {slack x : ℚ} :
    e.violation? slack x = none ↔ e.limits.exceeded? slack x = none := by
  simp [violation?, Violation.find?]

/-! ## One end at a time -/

namespace Direction

/-- The limit in this direction allows the value. -/
def Allows : Direction → ℚ → ℚ → Prop
  | lower, l, x => l ≤ x
  | upper, u, x => x ≤ u

theorem allows_tighter {d : Direction} {a b x : ℚ} :
    d.Allows (d.tighter a b) x ↔ d.Allows a x ∧ d.Allows b x := by
  cases d <;> simp only [Allows, tighter] <;> split_ifs with h <;> constructor <;> intro hx
  · exact ⟨h.trans hx, hx⟩
  · exact hx.2
  · exact ⟨hx, (le_of_not_ge h).trans hx⟩
  · exact hx.1
  · exact ⟨hx, hx.trans h⟩
  · exact hx.1
  · exact ⟨hx.trans (le_of_not_ge h), hx⟩
  · exact hx.2

theorem allows_tighter_left (d : Direction) (a b : ℚ) : d.Allows a (d.tighter a b) := by
  have h : d.Allows (d.tighter a b) (d.tighter a b) := by cases d <;> exact le_refl (α := ℚ) _
  exact (allows_tighter.mp h).1

theorem opposite_times (d s : Direction) : (d.times s).opposite = d.opposite.times s := by
  cases d <;> cases s <;> rfl

theorem times_times_self (d s : Direction) : (d.times s).times s = d := by
  cases d <;> cases s <;> rfl

/-- A limit on `y`, taken over to `a * y`: a negative coefficient turns its direction around. -/
theorem allows_mul {d : Direction} {a l y : ℚ} (ha : a ≠ 0) :
    (d.times (ofCoefficient a)).Allows l y ↔ d.Allows (a * l) (a * y) := by
  rcases lt_or_gt_of_ne ha with h | h
  · cases d <;>
      simp [ofCoefficient, not_lt.mpr h.le, times, opposite, Allows, mul_le_mul_left_of_neg h]
  · cases d <;> simp [ofCoefficient, h, times, opposite, Allows, mul_le_mul_iff_right₀ h]

theorem allows_sub {d : Direction} {l s t u : ℚ} (h : d.Allows l (s + t))
    (h' : d.opposite.Allows u t) : d.Allows (l - u) s := by
  cases d <;> simp only [Allows, opposite] at * <;> linarith

end Direction

namespace Bounds

variable {b : Bounds} {x : ℚ}

theorem mem_iff_allows : x ∈ b ↔ ∀ d l, b.get d = some l → Direction.Allows d l x := by
  constructor
  · rintro ⟨hl, hu⟩ d l h
    cases d
    · exact hl l h
    · exact hu l h
  · intro h
    exact ⟨fun l hl => h .lower l hl, fun u hu => h .upper u hu⟩

theorem ext_get {b b' : Bounds} (h : ∀ d, b.get d = b'.get d) : b = b' := by
  obtain ⟨l, u⟩ := b
  obtain ⟨l', u'⟩ := b'
  obtain rfl : l = l' := h .lower
  obtain rfl : u = u' := h .upper
  rfl

theorem get_divide {a : ℚ} (ha : a ≠ 0) (b : Bounds) (d : Direction) :
    (b.divide a).get d = (b.get (d.times (.ofCoefficient a))).map (· / a) := by
  rcases lt_or_gt_of_ne ha with h | h
  · rw [divide, if_pos h, Direction.ofCoefficient, if_neg h.not_gt]
    cases d <;> rfl
  · rw [divide, if_neg h.not_gt, Direction.ofCoefficient, if_pos h]
    cases d <;> rfl

theorem get_subtract (b : Bounds) (x : ℚ) (d : Direction) :
    (b.subtract x).get d = (b.get d).map (· - x) := by
  cases d <;> rfl

theorem consistent_subtract (h : b.Consistent) (c : ℚ) : (b.subtract c).Consistent := by
  intro l hl u hu
  obtain ⟨l', hl', rfl⟩ := Option.mem_map.mp hl
  obtain ⟨u', hu', rfl⟩ := Option.mem_map.mp hu
  exact sub_le_sub_right (h l' hl' u' hu') c

theorem mem_of_get (h : b.Consistent) {d : Direction} (hd : b.get d = some x) : x ∈ b := by
  cases d with
  | lower =>
    refine ⟨fun l hl => ?_, fun u hu => h x hd u hu⟩
    exact (Option.some.inj (hl.symm.trans hd)).le
  | upper =>
    refine ⟨fun l hl => h l hl x hd, fun u hu => ?_⟩
    exact (Option.some.inj (hd.symm.trans hu)).le

theorem subset_set_tighter {b : Bounds} {d : Direction} {a : ℚ}
    (h : ∀ l ∈ b.get d, d.Allows l a) : b.set d (some a) ⊆ b := by
  cases d with
  | lower => exact ⟨fun l hl => ⟨a, rfl, h l hl⟩, fun u hu => ⟨u, hu, le_rfl⟩⟩
  | upper => exact ⟨fun l hl => ⟨l, hl, le_rfl⟩, fun u hu => ⟨a, rfl, h u hu⟩⟩

theorem tighten_subset (b : Bounds) (d : Direction) (a : ℚ) : b.tighten d (some a) ⊆ b := by
  unfold tighten
  cases hb : b.get d with
  | none => exact subset_set_tighter (by simp [hb])
  | some l =>
    refine subset_set_tighter fun l' hl' => ?_
    obtain rfl : l = l' := Option.some.inj (hb.symm.trans hl')
    exact d.allows_tighter_left l a

theorem mem_tighten {d : Direction} {a : ℚ} (hx : x ∈ b) (ha : d.Allows a x) :
    x ∈ b.tighten d (some a) := by
  have h : ∀ l ∈ d.tightest (b.get d) (some a), d.Allows l x := by
    cases hb : b.get d with
    | none => rintro l ⟨⟩; exact ha
    | some k =>
      rintro l ⟨⟩
      exact Direction.allows_tighter.mpr ⟨mem_iff_allows.mp hx d k hb, ha⟩
  cases d with
  | lower => exact ⟨h, hx.2⟩
  | upper => exact ⟨hx.1, h⟩

theorem inter_subset_left (b c : Bounds) : b.inter c ⊆ b := by
  obtain ⟨l, u⟩ := b
  obtain ⟨l', u'⟩ := c
  constructor
  · rintro k ⟨⟩
    cases l' with
    | none => exact ⟨k, rfl, le_rfl⟩
    | some l' => exact ⟨_, rfl, Direction.lower.allows_tighter_left k l'⟩
  · rintro k ⟨⟩
    cases u' with
    | none => exact ⟨k, rfl, le_rfl⟩
    | some u' => exact ⟨_, rfl, Direction.upper.allows_tighter_left k u'⟩

theorem roundInward_subset (b : Bounds) : b.roundInward ⊆ b := by
  constructor
  · rintro l hl
    exact ⟨_, Option.mem_map_of_mem _ hl, Rat.le_ceil⟩
  · rintro u hu
    exact ⟨_, Option.mem_map_of_mem _ hu, Rat.floor_le u⟩

end Bounds

/-! ## Rounding for a kind -/

namespace Kind

variable {k : Kind} {b : Bounds} {x : ℚ}

theorem roundInward_subset (k : Kind) (b : Bounds) : k.roundInward b ⊆ b := by
  cases k with
  | continuous => exact b.subset_refl
  | integer => exact b.roundInward_subset

theorem mem_roundInward (hx : k.Admits x) : x ∈ k.roundInward b ↔ x ∈ b := by
  cases k with
  | continuous => exact Iff.rfl
  | integer => exact Bounds.mem_roundInward hx

/-- After rounding for a kind, both ends are of this kind. -/
theorem admits_of_get_roundInward {d : Direction} (h : (k.roundInward b).get d = some x) :
    k.Admits x := by
  cases k with
  | continuous => trivial
  | integer =>
    cases d with
    | lower =>
      obtain ⟨l, -, rfl⟩ := Option.map_eq_some_iff.mp h
      exact Rat.den_intCast l.ceil
    | upper =>
      obtain ⟨u, -, rfl⟩ := Option.map_eq_some_iff.mp h
      exact Rat.den_intCast u.floor

theorem admits_of_roundInward_eq (h : k.roundInward b = .point x) : k.Admits x :=
  admits_of_get_roundInward (b := b) (d := .lower) (congrArg Bounds.lower h)

end Kind

/-! ## Propagation -/

namespace FewFree

variable {limits other own : Bounds} {a b x y : ℚ}

/-- The end of the other variable that propagation uses bounds the term of this variable, in the
direction opposite to that of the limit. -/
theorem allows_end (hb : b ≠ 0) {d : Direction} {w : ℚ} (hy : y ∈ other)
    (hw : other.get (d.times (.ofCoefficient b)).opposite = some w) :
    d.opposite.Allows (b * w) (b * y) := by
  rw [← Direction.allows_mul hb, ← Direction.opposite_times]
  exact Bounds.mem_iff_allows.mp hy _ w hw

/-- **A solution of the expression satisfies the bound that a limit implies for it.** -/
theorem impliedBound_allows (ha : a ≠ 0) (hb : b ≠ 0) {d d' : Direction} {l z : ℚ}
    (h : impliedBound d l a b other = some (d', z)) (hy : y ∈ other)
    (hl : d.Allows l (a * x + b * y)) : d'.Allows z x := by
  unfold impliedBound at h
  obtain ⟨w, hw, hz⟩ := Option.map_eq_some_iff.mp h
  cases hz
  rw [Direction.allows_mul ha, mul_div_cancel₀ _ ha]
  exact Direction.allows_sub hl (allows_end hb hy hw)

theorem propagate_subset (limits : Bounds) (a b : ℚ) (other own : Bounds) (d : Direction) :
    propagate limits a b other own d ⊆ own := by
  unfold propagate
  split
  · exact own.tighten_subset _ _
  · exact own.subset_refl

theorem mem_propagate (ha : a ≠ 0) (hb : b ≠ 0) (d : Direction) (hx : x ∈ own) (hy : y ∈ other)
    (hxy : a * x + b * y ∈ limits) : x ∈ propagate limits a b other own d := by
  unfold propagate
  split
  · rename_i d' z h
    obtain ⟨l, hl, hz⟩ := Option.bind_eq_some_iff.mp h
    exact Bounds.mem_tighten hx
      (impliedBound_allows ha hb hz hy (Bounds.mem_iff_allows.mp hxy d l hl))
  · exact hx

/-- **Propagation only tightens:** the implied bounds are those of the variable, tightened and then
rounded for its kind. -/
theorem impliedBounds_eq (limits : Bounds) (v : Variable) (a b : ℚ) (other : Bounds) :
    ∃ c, c ⊆ v.bounds ∧ impliedBounds limits v a b other = v.kind.roundInward c :=
  ⟨_, Bounds.subset_trans (propagate_subset limits a b other _ .upper)
    (propagate_subset limits a b other v.bounds .lower), rfl⟩

/-- **Propagation keeps solutions:** a value that the variable admits stays, if with some value of
the other variable it satisfies the expression. -/
theorem mem_impliedBounds (ha : a ≠ 0) (hb : b ≠ 0) {v : Variable} (hx : v.Admits x)
    (hy : y ∈ other) (hxy : a * x + b * y ∈ limits) : x ∈ impliedBounds limits v a b other :=
  (Kind.mem_roundInward hx.2).mpr
    (mem_propagate ha hb .upper (mem_propagate ha hb .lower hx.1 hy hxy) hy hxy)

end FewFree

end ExactPresolve
