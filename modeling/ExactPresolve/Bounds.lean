import ExactPresolve.Number.Basic

/-!
# Bounds

An interval of numbers, each end of which may be missing. The limits of variables and of
expressions are bounds. Multiplying an inequality by a number keeps or flips its direction, so
directions multiply like signs.

* `Direction`, `Direction.opposite`, `Direction.times`: the two directions as a group of signs,
  with `lower` as the unit;
* `Direction.ofCoefficient`: the sign of a nonzero coefficient as a direction;
* `Direction.rounding`: the rounding that moves a limit inwards;
* `Direction.tighter`, `Direction.tightest`: the stricter of two limits, which may be absent;
* `Bounds`, with membership `x ∈ b`;
* `Bounds.point?`: the one number in bounds with equal ends;
* `Bounds.Consistent`: the ends do not cross;
* `Bounds.inter`, `Bounds.roundInward`, `Bounds.subtract`, `Bounds.divide`: the operations by
  which bounds are derived from bounds;
* `Bounds.exceeded?`: the end that a number lies beyond, if it does so by more than a margin;
* **`Bounds.mem_inter`**, **`Bounds.mem_subtract`**, **`Bounds.mem_divide`**,
  **`Bounds.mem_roundInward`**: what the derived bounds hold.
-/

namespace ExactPresolve

/-! ## Directions of limits -/

/-- The side from which a value is limited. -/
inductive Direction where
  | lower
  | upper
  deriving DecidableEq, Repr

namespace Direction

def opposite : Direction → Direction
  | lower => upper
  | upper => lower

/-- The product of two directions as signs, `lower` being positive. -/
def times : Direction → Direction → Direction
  | lower, d => d
  | upper, d => d.opposite

/-- The sign of a nonzero coefficient, `lower` being positive. -/
def ofCoefficient (a : Rat) : Direction := if 0 < a then lower else upper

/-- The rounding that makes a limit of this direction integral and no weaker. -/
def rounding : Direction → Rounding
  | lower => .ceiling
  | upper => .floor

/-- The stricter of two limits. -/
def tighter : Direction → Rat → Rat → Rat
  | lower, a, b => if a ≤ b then b else a
  | upper, a, b => if a ≤ b then a else b

/-- The stricter of two limits. An absent limit restricts nothing. -/
def tightest (d : Direction) : Option Rat → Option Rat → Option Rat
  | some a, some b => some (d.tighter a b)
  | some a, none => some a
  | none, b => b

end Direction

/-! ## Bounds -/

/-- The ends of an interval. A missing end does not restrict anything. -/
structure Bounds where
  lower : Option Rat
  upper : Option Rat
  deriving DecidableEq, Repr

namespace Bounds

/-- A number lies within bounds if it lies beyond neither end. -/
instance : Membership Rat Bounds where
  mem b x := (∀ l ∈ b.lower, l ≤ x) ∧ ∀ u ∈ b.upper, x ≤ u

instance (x : Rat) (b : Bounds) : Decidable (x ∈ b) :=
  inferInstanceAs (Decidable ((∀ l ∈ b.lower, l ≤ x) ∧ ∀ u ∈ b.upper, x ≤ u))

def unlimited : Bounds := ⟨none, none⟩

/-- The bounds that hold a single number. -/
def point (x : Rat) : Bounds := ⟨some x, some x⟩

def get (b : Bounds) : Direction → Option Rat
  | .lower => b.lower
  | .upper => b.upper

def set (b : Bounds) (d : Direction) (limit : Option Rat) : Bounds :=
  match d with
  | .lower => ⟨limit, b.upper⟩
  | .upper => ⟨b.lower, limit⟩

/-- The bounds with the end in one direction replaced by the stricter of itself and another. -/
def tighten (b : Bounds) (d : Direction) (limit : Option Rat) : Bounds :=
  b.set d (d.tightest (b.get d) limit)

/-- The common end of bounds whose two ends exist and are equal. -/
def point? : Bounds → Option Rat
  | ⟨some l, some u⟩ => if l = u then some l else none
  | _ => none

/-- The ends of the bounds do not cross. -/
def Consistent (b : Bounds) : Prop := ∀ l ∈ b.lower, ∀ u ∈ b.upper, l ≤ u

instance (b : Bounds) : Decidable b.Consistent :=
  inferInstanceAs (Decidable (∀ l ∈ b.lower, ∀ u ∈ b.upper, l ≤ u))

/-- The bounds that hold what two bounds both hold. -/
def inter (b c : Bounds) : Bounds :=
  ⟨Direction.lower.tightest b.lower c.lower, Direction.upper.tightest b.upper c.upper⟩

/-- The bounds that hold the same integers and have integral ends. -/
def roundInward (b : Bounds) : Bounds :=
  ⟨b.lower.map Direction.lower.rounding.round, b.upper.map Direction.upper.rounding.round⟩

/-- The bounds on `x` that hold if `x + c` lies within `b`. -/
def subtract (b : Bounds) (c : Rat) : Bounds := ⟨b.lower.map (· - c), b.upper.map (· - c)⟩

/-- The bounds on `x` that hold if `a * x` lies within `b`. A negative factor swaps the ends. -/
def divide (b : Bounds) (a : Rat) : Bounds :=
  if a < 0 then ⟨b.upper.map (· / a), b.lower.map (· / a)⟩
  else ⟨b.lower.map (· / a), b.upper.map (· / a)⟩

/-- The first end, with its direction, that `x` lies beyond by more than `slack`. -/
def exceeded? (b : Bounds) (slack x : Rat) : Option (Direction × Rat) :=
  ((b.lower.filter fun l => x < l - slack).map (Direction.lower, ·)).or
    ((b.upper.filter fun u => u + slack < x).map (Direction.upper, ·))

/-! ## Members -/

theorem mem_iff {b : Bounds} {x : Rat} :
    x ∈ b ↔ (∀ l ∈ b.lower, l ≤ x) ∧ ∀ u ∈ b.upper, x ≤ u := Iff.rfl

theorem forall_mem_map {limit : Option Rat} {f : Rat → Rat} {p : Rat → Prop} :
    (∀ y ∈ limit.map f, p y) ↔ ∀ y ∈ limit, p (f y) := by
  cases limit <;> simp

theorem mem_point {x y : Rat} : x ∈ point y ↔ x = y := by
  constructor
  · rintro ⟨hl, hu⟩
    exact Rat.le_antisymm (hu y rfl) (hl y rfl)
  · rintro rfl
    exact ⟨fun l h => by cases h; exact Rat.le_refl, fun u h => by cases h; exact Rat.le_refl⟩

/-- Bounds have a common end if and only if they are those of a single number. -/
theorem point?_eq_some_iff {b : Bounds} {x : Rat} : b.point? = some x ↔ b = point x := by
  obtain ⟨_ | l, _ | u⟩ := b
  · simp [point?, point]
  · simp [point?, point]
  · simp [point?, point]
  · simp only [point?, point, Option.ite_none_right_eq_some, Option.some.injEq, Bounds.mk.injEq]
    grind

theorem mem_inter {b c : Bounds} {x : Rat} : x ∈ b.inter c ↔ x ∈ b ∧ x ∈ c := by
  obtain ⟨l, u⟩ := b
  obtain ⟨l', u'⟩ := c
  cases l <;> cases u <;> cases l' <;> cases u' <;>
    simp [inter, Membership.mem, Direction.tightest, Direction.tighter] <;> grind

theorem mem_subtract {b : Bounds} {c x : Rat} : x ∈ b.subtract c ↔ x + c ∈ b := by
  have hle (y : Rat) : y - c ≤ x ↔ y ≤ x + c := by grind
  have hge (y : Rat) : x ≤ y - c ↔ x + c ≤ y := by grind
  simp only [subtract, mem_iff, forall_mem_map, hle, hge]

theorem mem_divide {b : Bounds} {a x : Rat} (ha : a ≠ 0) : x ∈ b.divide a ↔ a * x ∈ b := by
  by_cases h : a < 0
  · simp only [divide, if_pos h, mem_iff, forall_mem_map, Number.div_le_iff_of_neg h,
      Number.le_div_iff_of_neg h]
    exact and_comm
  · have hpos : 0 < a := by grind
    simp only [divide, if_neg h, mem_iff, forall_mem_map, Number.div_le_iff hpos,
      Number.le_div_iff hpos]

/-- Rounding bounds inwards loses no integer. -/
theorem mem_roundInward {b : Bounds} {x : Rat} (hx : Number.IsIntegral x) :
    x ∈ b.roundInward ↔ x ∈ b := by
  rw [hx.eq_num]
  simp only [roundInward, mem_iff, forall_mem_map, Direction.rounding, Rounding.round,
    Rat.intCast_le_intCast, Rat.ceil_le_iff, Rat.le_floor_iff]

/-- Without slack, the numbers that exceed no end are those within the bounds. -/
theorem exceeded?_zero_eq_none_iff {b : Bounds} {x : Rat} : b.exceeded? 0 x = none ↔ x ∈ b := by
  have hsub (l : Rat) : l - 0 = l := by grind
  simp only [exceeded?, mem_iff, Option.or_eq_none_iff, Option.map_eq_none_iff,
    Option.filter_eq_none_iff, Option.mem_def, decide_eq_true_eq, Rat.not_lt, Rat.add_zero, hsub]

end Bounds

end ExactPresolve
