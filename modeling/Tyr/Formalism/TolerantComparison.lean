import Tyr.Formalism.ExactEvaluation
import Mathlib.Algebra.Order.Field.Rat
import Mathlib.Algebra.Order.Group.MinMax

/-!
Comparisons of rationals up to the tolerance of their operands.

The tolerance grows with the operands, but more slowly than they do. So a
comparison that holds stays true when its operands are moved apart in its
direction, also beyond all bounds where it is not strict.

* `BooleanOp.apply_finite` — what a comparison of rationals says.
* `BooleanOp.le_apply_of_bounds`, `lt_apply_of_bounds` — comparisons of bounds.
* `BooleanOp.ne_apply_of_near` — two operands far apart, and numbers near them.
-/

namespace Tyr

/-- `FloatTolerance::tolerance` of rationals. -/
def toleranceOf (x y : ℚ) : ℚ := max absEpsilon (absEpsilon * max |x| |y|)

theorem absEpsilon_le_toleranceOf (x y : ℚ) : absEpsilon ≤ toleranceOf x y := le_max_left _ _

theorem toleranceOf_comm (x y : ℚ) : toleranceOf x y = toleranceOf y x := by
  rw [toleranceOf, toleranceOf, max_comm |x|]

/-- The tolerance changes by less than the operands do. -/
theorem toleranceOf_le_add {x y l u a b : ℚ} (nearX : |x - l| ≤ a) (nearY : |y - u| ≤ b) :
    toleranceOf x y ≤ toleranceOf l u + absEpsilon * (a + b) := by
  have positive := absEpsilon_pos.le
  have nonnegA : 0 ≤ a := (abs_nonneg _).trans nearX
  have nonnegB : 0 ≤ b := (abs_nonneg _).trans nearY
  have distance : 0 ≤ absEpsilon * (a + b) := mul_nonneg positive (add_nonneg nonnegA nonnegB)
  have boundX : |x| ≤ |l| + a := by
    linarith [abs_sub_abs_le_abs_sub x l]
  have boundY : |y| ≤ |u| + b := by
    linarith [abs_sub_abs_le_abs_sub y u]
  have bound : max |x| |y| ≤ max |l| |u| + (a + b) := by
    apply max_le
    · linarith [le_max_left |l| |u|]
    · linarith [le_max_right |l| |u|]
  apply max_le
  · linarith [absEpsilon_le_toleranceOf l u]
  · calc absEpsilon * max |x| |y| ≤ absEpsilon * (max |l| |u| + (a + b)) :=
          mul_le_mul_of_nonneg_left bound positive
      _ = absEpsilon * max |l| |u| + absEpsilon * (a + b) := mul_add _ _ _
      _ ≤ toleranceOf l u + absEpsilon * (a + b) := by
          linarith [le_max_right absEpsilon (absEpsilon * max |l| |u|),
            show toleranceOf l u = max absEpsilon (absEpsilon * max |l| |u|) from rfl]

theorem absEpsilon_mul_le {a : ℚ} (nonneg : 0 ≤ a) : absEpsilon * a ≤ a / 2 := by
  rw [absEpsilon]
  linarith

/-- A smaller and a larger operand keep `≤`. -/
theorem le_add_toleranceOf {x y l u : ℚ} (lower : l ≤ x) (upper : y ≤ u)
    (holds : x ≤ y + toleranceOf x y) : l ≤ u + toleranceOf l u := by
  have nearX : |x - l| ≤ x - l := (abs_of_nonneg (sub_nonneg.mpr lower)).le
  have nearY : |y - u| ≤ u - y := by
    rw [abs_sub_comm]
    exact (abs_of_nonneg (sub_nonneg.mpr upper)).le
  have change := toleranceOf_le_add nearX nearY
  have small := absEpsilon_mul_le (add_nonneg (sub_nonneg.mpr lower) (sub_nonneg.mpr upper))
  linarith

/-- A smaller and a larger operand keep `<`. -/
theorem lt_sub_toleranceOf {x y l u : ℚ} (lower : l ≤ x) (upper : y ≤ u)
    (holds : x < y - toleranceOf x y) : l < u - toleranceOf l u := by
  have nearX : |l - x| ≤ x - l := by
    rw [abs_sub_comm]
    exact (abs_of_nonneg (sub_nonneg.mpr lower)).le
  have nearY : |u - y| ≤ u - y := (abs_of_nonneg (sub_nonneg.mpr upper)).le
  have change := toleranceOf_le_add nearX nearY
  have small := absEpsilon_mul_le (add_nonneg (sub_nonneg.mpr lower) (sub_nonneg.mpr upper))
  linarith

/-- Bounds of `x` within their tolerance are close to `x`. -/
theorem near_of_bounds {x l u scale : ℚ} (lower : l ≤ x) (upper : x ≤ u) (unit : 1 ≤ scale)
    (small : |x| ≤ scale) (close : |l - u| ≤ toleranceOf l u) :
    |x - l| ≤ absEpsilon * (11 / 10) * scale := by
  have width : |l - u| = u - l := by
    rw [abs_sub_comm]
    exact abs_of_nonneg (sub_nonneg.mpr (lower.trans upper))
  have boundL : |l| ≤ scale + (u - l) := by
    have distance : |l - x| = x - l := by
      rw [abs_sub_comm]
      exact abs_of_nonneg (sub_nonneg.mpr lower)
    linarith [abs_sub_abs_le_abs_sub l x]
  have boundU : |u| ≤ scale + (u - l) := by
    have distance : |u - x| = u - x := abs_of_nonneg (sub_nonneg.mpr upper)
    linarith [abs_sub_abs_le_abs_sub u x]
  have tolerance : toleranceOf l u ≤ absEpsilon * (scale + (u - l)) := by
    apply max_le
    · have one : 1 ≤ scale + (u - l) := by linarith
      calc absEpsilon = absEpsilon * 1 := (mul_one _).symm
        _ ≤ absEpsilon * (scale + (u - l)) := mul_le_mul_of_nonneg_left one absEpsilon_pos.le
    · exact mul_le_mul_of_nonneg_left (max_le boundL boundU) absEpsilon_pos.le
  rw [abs_of_nonneg (sub_nonneg.mpr lower)]
  rw [width] at close
  rw [absEpsilon] at tolerance ⊢
  linarith

/-- Operands more than four tolerances apart, and numbers in intervals around them
whose bounds are the same up to the tolerance. -/
theorem toleranceOf_lt_of_near {x y l u l' u' : ℚ} (lower : l ≤ x) (upper : x ≤ u)
    (lower' : l' ≤ y) (upper' : y ≤ u') (close : |l - u| ≤ toleranceOf l u)
    (close' : |l' - u'| ≤ toleranceOf l' u') (apart : 4 * toleranceOf x y < |x - y|) :
    toleranceOf l l' < |l - l'| := by
  have unit : 1 ≤ max 1 (max |x| |y|) := le_max_left _ _
  have smallX : |x| ≤ max 1 (max |x| |y|) := (le_max_left _ _).trans (le_max_right _ _)
  have smallY : |y| ≤ max 1 (max |x| |y|) := (le_max_right _ _).trans (le_max_right _ _)
  have tolerance : toleranceOf x y = absEpsilon * max 1 (max |x| |y|) := by
    rw [toleranceOf, mul_max_of_nonneg 1 _ absEpsilon_pos.le, mul_one]
  generalize max 1 (max |x| |y|) = scale at unit smallX smallY tolerance
  have nearX := near_of_bounds lower upper unit smallX close
  have nearY := near_of_bounds lower' upper' unit smallY close'
  have change : toleranceOf l l' ≤ toleranceOf x y +
      absEpsilon * (absEpsilon * (11 / 10) * scale + absEpsilon * (11 / 10) * scale) := by
    rw [abs_sub_comm] at nearX nearY
    exact toleranceOf_le_add nearX nearY
  have triangle : |x - y| ≤ |x - l| + |l - l'| + |y - l'| := by
    have split : x - y = (x - l) + (l - l') + (l' - y) := by ring
    rw [split, abs_sub_comm y l']
    exact (abs_add_le _ _).trans (add_le_add_left (abs_add_le _ _) _)
  rw [tolerance] at apart change
  rw [absEpsilon] at *
  linarith

namespace Number

theorem max_finite (x y : ℚ) : max (finite x) (finite y) = finite (Max.max x y) := by
  rw [max]
  by_cases less : x < y
  · rw [if_pos ((finite_lt x y).mpr less), max_eq_right less.le]
  · rw [if_neg (fun found => less ((finite_lt x y).mp found)), max_eq_left (not_lt.mp less)]

theorem tolerance_finite (x y : ℚ) : tolerance (finite x) (finite y) = finite (toleranceOf x y) := by
  rw [tolerance, abs_finite, abs_finite, max_finite, finite_mul, max_finite]
  rfl

/-- The tolerance of an infinite operand is infinite. -/
theorem tolerance_infinite {x y : Number} (numberX : x ≠ nan) (numberY : y ≠ nan)
    (infinite : x = negInf ∨ y = posInf) : tolerance x y = posInf := by
  have scaled : finite absEpsilon * posInf = posInf := by
    decide +kernel
  have largest : max x.abs y.abs = posInf := by
    rcases infinite with rfl | rfl
    · cases y with
      | nan => exact absurd rfl numberY
      | _ => rfl
    · cases x with
      | nan => exact absurd rfl numberX
      | _ => rfl
  rw [tolerance, largest, scaled]
  rfl

end Number

namespace Formalism

open Number

namespace BooleanOp

/-- The meaning of a comparison of rationals up to a tolerance. -/
def HoldsWithin (tolerance : ℚ) : BooleanOp → ℚ → ℚ → Prop
  | eq, lhs, rhs => |lhs - rhs| ≤ tolerance
  | ne, lhs, rhs => tolerance < |lhs - rhs|
  | ge, lhs, rhs => rhs ≤ lhs + tolerance
  | gt, lhs, rhs => rhs + tolerance < lhs
  | le, lhs, rhs => lhs ≤ rhs + tolerance
  | lt, lhs, rhs => lhs < rhs - tolerance

theorem apply_finite {op : BooleanOp} {lhs rhs : ℚ} :
    op.apply (finite lhs) (finite rhs) = true ↔ op.HoldsWithin (toleranceOf lhs rhs) lhs rhs := by
  cases op with
  | ne =>
      simp only [apply, HoldsWithin, tolerance_finite, finite_sub, abs_finite, Bool.not_eq_true',
        Bool.eq_false_iff, ne_eq, finite_le, not_le]
  | _ => simp only [apply, HoldsWithin, tolerance_finite, finite_sub, abs_finite, finite_add,
      finite_le, finite_lt]

/-- `≤` of two elements holds of a lower bound of the left and an upper bound of the
right one. -/
theorem le_apply_of_bounds {lower upper : Number} {x y : ℚ} (isLower : lower.le (finite x) = true)
    (isUpper : (finite y).le upper = true) (holds : x ≤ y + toleranceOf x y) :
    BooleanOp.le.apply lower upper = true := by
  cases lower with
  | nan => simp at isLower
  | posInf => simp [Number.le, Number.lt] at isLower
  | negInf =>
      cases upper with
      | nan => simp at isUpper
      | negInf => simp [Number.le, Number.lt] at isUpper
      | posInf =>
          have infinite : tolerance negInf posInf = posInf :=
            tolerance_infinite Number.noConfusion Number.noConfusion (.inl rfl)
          rw [apply, infinite]
          rfl
      | finite upper =>
          have infinite : tolerance negInf (finite upper) = posInf :=
            tolerance_infinite Number.noConfusion Number.noConfusion (.inl rfl)
          rw [apply, infinite]
          rfl
  | finite lower =>
      cases upper with
      | nan => simp at isUpper
      | negInf => simp [Number.le, Number.lt] at isUpper
      | posInf =>
          have infinite : tolerance (finite lower) posInf = posInf :=
            tolerance_infinite Number.noConfusion Number.noConfusion (.inr rfl)
          rw [apply, infinite]
          rfl
      | finite upper =>
          rw [finite_le] at isLower isUpper
          exact apply_finite.mpr (le_add_toleranceOf isLower isUpper holds)

/-- `≥` is `≤` with the operands exchanged. -/
theorem ge_apply {lhs rhs : Number} (numberLhs : lhs ≠ nan) (numberRhs : rhs ≠ nan) :
    BooleanOp.ge.apply lhs rhs = BooleanOp.le.apply rhs lhs := by
  have same : tolerance lhs rhs = tolerance rhs lhs := by
    cases lhs with
    | nan => exact absurd rfl numberLhs
    | negInf => cases rhs <;> first | rfl | exact absurd rfl numberRhs
    | posInf => cases rhs <;> first | rfl | exact absurd rfl numberRhs
    | finite lhs =>
        cases rhs with
        | nan => exact absurd rfl numberRhs
        | finite rhs => rw [tolerance_finite, tolerance_finite, toleranceOf_comm]
        | _ => rfl
  rw [apply, apply, same]

/-- `<` of two elements holds of rational bounds. -/
theorem lt_apply_of_bounds {x y l u : ℚ} (isLower : l ≤ x) (isUpper : y ≤ u)
    (holds : x < y - toleranceOf x y) : BooleanOp.lt.apply (finite l) (finite u) = true :=
  apply_finite.mpr (lt_sub_toleranceOf isLower isUpper holds)

/-- `>` of two elements holds of rational bounds. -/
theorem gt_apply_of_bounds {x y l u : ℚ} (isUpper : x ≤ u) (isLower : l ≤ y)
    (holds : y + toleranceOf x y < x) : BooleanOp.gt.apply (finite u) (finite l) = true := by
  have less : y < x - toleranceOf y x := by
    rw [toleranceOf_comm]
    linarith
  have bounds := lt_sub_toleranceOf isLower isUpper less
  rw [toleranceOf_comm] at bounds
  apply apply_finite.mpr
  rw [HoldsWithin]
  linarith

end BooleanOp

end Formalism

end Tyr
