import ExactPresolve.Proofs.Linear
import ExactPresolve.Rule

/-!
# Divisions of the rules

The rules divide by coefficients of free terms. In `ℚ` a division by zero gives zero, so what a rule
returns does not tell whether it divided by zero. Here each division of the rules is one that fails
for a zero divisor. No coefficient of a term is zero, so the rules do the same with it.

* `Bounds.divideChecked`: bounds divided by a number that must not be zero;
* `FewFree.solveChecked`, `FewFree.confineChecked`, `FewFree.impliedBoundChecked`: the three places
  in which a rule divides;
* **`Rule.applyChecked_eq`**: no application of a rule divides by zero.
-/

namespace ExactPresolve

theorem Number.quotient_eq {a b : ℚ} (hb : b ≠ 0) : quotient a b = .ok (a / b) := if_neg hb

namespace Bounds

/-- The bounds on `x` that hold if `a * x` lies within `b`, where `a` must not be zero. -/
def divideChecked (b : Bounds) (a : ℚ) : Except Fault Bounds := do
  let lower ← b.lower.mapM (Number.quotient · a)
  let upper ← b.upper.mapM (Number.quotient · a)
  return if a < 0 then ⟨upper, lower⟩ else ⟨lower, upper⟩

theorem divideChecked_eq {a : ℚ} (ha : a ≠ 0) (b : Bounds) :
    b.divideChecked a = .ok (b.divide a) := by
  have hm (o : Option ℚ) : o.mapM (Number.quotient · a) = .ok (o.map (· / a)) := by
    cases o with
    | none => rfl
    | some x => simp [Number.quotient_eq ha, Except.map, Functor.map]
  simp [divideChecked, divide, hm, bind, Except.bind, pure, Except.pure]

end Bounds

namespace FewFree

/-! ## One free variable -/

def solveChecked (slack : ℚ) (e : Expression) (held a level : ℚ) (v : Variable) :
    Except Fault (Expression × Variable × List Event) := do
  let x ← Number.quotient (level - held) a
  if v.kind.Admits x then
    match v.violation? slack x with
    | none => return (e.marked false true, v.level x, [])
    | some report => return (e.marked true false, v, [.refused report])
  else return (e.marked true false, v, [])

def confineChecked (e : Expression) (held a : ℚ) (v : Variable) :
    Except Fault (Expression × Variable × List Event) := do
  let c ← (e.limits.subtract held).divideChecked a
  let b := v.kind.roundInward (v.bounds.inter c)
  if b.Consistent then return (e.marked false true, v.withBounds b, [])
  else return (e.marked true false, v, [.boundsCross e.name v.name])

def oneFreeChecked (slack : ℚ) (e : Expression) (held : ℚ) (j : ℕ) (a : ℚ)
    (vs : List Variable) : Except Fault Step := do
  let v ← variableAt vs j
  let (e, v, events) ← match e.limits.point? with
    | some level => solveChecked slack e held a level v
    | none => confineChecked e held a v
  return ⟨vs.set j v.settle, e, decide v.IsFixed, events⟩

variable {a : ℚ} (ha : a ≠ 0) (slack : ℚ) (e : Expression) (held : ℚ) (vs : List Variable)

include ha

theorem solveChecked_eq (level : ℚ) (v : Variable) :
    solveChecked slack e held a level v = .ok (solve slack e held a level v) := by
  simp only [solveChecked, solve, Number.quotient_eq ha, bind, Except.bind, pure, Except.pure]
  split_ifs
  · cases v.violation? slack ((level - held) / a) <;> rfl
  · rfl

theorem confineChecked_eq (v : Variable) :
    confineChecked e held a v = .ok (confine e held a v) := by
  simp only [confineChecked, confine, Bounds.divideChecked_eq ha, bind, Except.bind, pure,
    Except.pure]
  split_ifs <;> rfl

theorem oneFreeChecked_eq (j : ℕ) :
    oneFreeChecked slack e held j a vs = oneFree slack e held j a vs := by
  unfold oneFreeChecked oneFree
  refine bind_congr fun v => ?_
  cases e.limits.point? with
  | none => simp only [confineChecked_eq ha, bind, Except.bind]
  | some level => simp only [solveChecked_eq ha, bind, Except.bind]

omit ha

/-! ## Two free variables -/

def impliedBoundChecked (d : Direction) (limit a b : ℚ) (other : Bounds) :
    Except Fault (Option (Direction × ℚ)) :=
  (other.get (d.times (.ofCoefficient b)).opposite).mapM fun y => do
    let x ← Number.quotient (limit - b * y) a
    return (d.times (.ofCoefficient a), x)

def propagateChecked (limits : Bounds) (a b : ℚ) (other : Bounds) (own : Bounds) (d : Direction) :
    Except Fault Bounds :=
  match limits.get d with
  | none => return own
  | some limit => do
    match ← impliedBoundChecked d limit a b other with
    | some (direction, x) => return own.tighten direction (some x)
    | none => return own

def impliedBoundsChecked (limits : Bounds) (v : Variable) (a b : ℚ) (other : Bounds) :
    Except Fault Bounds := do
  let bounds ← [Direction.lower, .upper].foldlM (propagateChecked limits a b other) v.bounds
  return v.kind.roundInward bounds

def twoFreeChecked (e : Expression) (held : ℚ) (j : ℕ) (a : ℚ) (k : ℕ) (b : ℚ)
    (vs : List Variable) : Except Fault Step := do
  let v ← variableAt vs j
  let w ← variableAt vs k
  let limits := e.limits.subtract held
  let v' := v.withBounds (← impliedBoundsChecked limits v a b w.bounds)
  let w' := w.withBounds (← impliedBoundsChecked limits w b a v.bounds)
  if v'.bounds.Consistent ∧ w'.bounds.Consistent then
    return ⟨(vs.set j v'.settle).set k w'.settle, e, decide (v'.IsFixed ∨ w'.IsFixed), []⟩
  else return ⟨vs, e.marked true e.redundant, false, [.derivedBoundsCross e.name]⟩

variable {b : ℚ} (hb : b ≠ 0)

include ha

theorem impliedBoundChecked_eq (d : Direction) (limit b : ℚ) (other : Bounds) :
    impliedBoundChecked d limit a b other = .ok (impliedBound d limit a b other) := by
  unfold impliedBoundChecked impliedBound
  cases other.get (d.times (.ofCoefficient b)).opposite with
  | none => rfl
  | some y =>
    simp [Number.quotient_eq ha, bind, Except.bind, pure, Except.pure, Functor.map, Except.map]

theorem propagateChecked_eq (limits : Bounds) (b : ℚ) (other own : Bounds) (d : Direction) :
    propagateChecked limits a b other own d = .ok (propagate limits a b other own d) := by
  unfold propagateChecked propagate
  cases limits.get d with
  | none => rfl
  | some limit =>
    simp only [impliedBoundChecked_eq ha, bind, Except.bind, Option.bind_some]
    cases impliedBound d limit a b other <;> rfl

theorem impliedBoundsChecked_eq (limits : Bounds) (v : Variable) (b : ℚ) (other : Bounds) :
    impliedBoundsChecked limits v a b other = .ok (impliedBounds limits v a b other) := by
  simp only [impliedBoundsChecked, impliedBounds, List.foldlM, propagateChecked_eq ha, bind,
    Except.bind, pure, Except.pure, List.foldl]

include hb

theorem twoFreeChecked_eq (j k : ℕ) :
    twoFreeChecked e held j a k b vs = twoFree e held j a k b vs := by
  unfold twoFreeChecked twoFree
  refine bind_congr fun v => bind_congr fun w => ?_
  simp only [impliedBoundsChecked_eq ha, impliedBoundsChecked_eq hb, bind, Except.bind]

end FewFree

/-! ## Rules -/

open FewFree in
def fewFreeChecked (slack : ℚ) (fixed : IndexSet) (e : Expression) (vs : List Variable) :
    Except Fault Step :=
  if fixed.size + 2 < e.terms.size then .ok (.unchanged e vs)
  else do
    let held ← e.heldValue fixed vs
    match e.terms.free fixed with
    | [] => return noneFree slack e held vs
    | [(j, a)] => oneFreeChecked slack e held j a vs
    | [(j, a), (k, b)] => twoFreeChecked e held j a k b vs
    | _ => return .unchanged e vs

open FewFree in
theorem fewFreeChecked_eq (slack : ℚ) (fixed : IndexSet) (e : Expression) (vs : List Variable) :
    fewFreeChecked slack fixed e vs = fewFree slack fixed e vs := by
  unfold fewFreeChecked fewFree
  refine if_congr Iff.rfl rfl (bind_congr fun held => ?_)
  rcases hf : e.terms.free fixed with _ | ⟨⟨j, a⟩, _ | ⟨⟨k, b⟩, _ | ⟨t, ts⟩⟩⟩
  · rfl
  · exact oneFreeChecked_eq (Terms.ne_zero_of_free_singleton hf) slack e held vs j
  · obtain ⟨ha, hb⟩ := Terms.ne_zero_of_free_pair hf
    exact twoFreeChecked_eq ha e held vs hb j k
  · rfl

namespace Rule

/-- One application of a rule to an expression, with divisions that fail for a zero divisor. -/
def applyChecked (r : Rule) (slack : ℚ) (fixed : IndexSet) (e : Expression) (vs : List Variable) :
    Except Fault Step :=
  if e.redundant ∨ e.infeasible then .ok (.unchanged e vs)
  else match r with
    | fewFree => fewFreeChecked slack fixed e vs
    | signs => ExactPresolve.signs slack fixed e vs

/-- **No application of a rule divides by zero.** -/
theorem applyChecked_eq (r : Rule) (slack : ℚ) (fixed : IndexSet) (e : Expression)
    (vs : List Variable) : r.applyChecked slack fixed e vs = r.apply slack fixed e vs := by
  unfold applyChecked apply
  cases r with
  | fewFree => rw [fewFreeChecked_eq]
  | signs => rfl

end Rule

end ExactPresolve
