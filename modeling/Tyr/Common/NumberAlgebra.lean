import Tyr.Common.Number
import Mathlib.Data.Rat.Cast.Order
import Mathlib.Tactic.Ring
import Mathlib.Tactic.Linarith
import Mathlib.Tactic.Positivity
import Mathlib.Tactic.FieldSimp

/-!
Laws of the arithmetic on numbers.

Addition and multiplication are commutative and associative, also with infinities
and undefined numbers. A quotient is a product with the reciprocal of the divisor.
-/

namespace Tyr.Number

@[simp] theorem nan_add (x : Number) : nan + x = nan := by
  cases x <;> rfl

@[simp] theorem add_nan (x : Number) : x + nan = nan := by
  cases x <;> rfl

@[simp] theorem nan_mul (x : Number) : nan * x = nan := by
  cases x <;> rfl

@[simp] theorem mul_nan (x : Number) : x * nan = nan := by
  cases x <;> rfl

/-! ### Sums -/

theorem add_comm (x y : Number) : x + y = y + x := by
  cases x with
  | nan => simp
  | negInf => cases y <;> rfl
  | posInf => cases y <;> rfl
  | finite x =>
      cases y with
      | finite y => rw [finite_add, finite_add, Rat.add_comm]
      | _ => rfl

theorem add_assoc (x y z : Number) : x + y + z = x + (y + z) := by
  cases x <;> cases y <;> cases z <;> first | rfl | skip
  next x y z => rw [finite_add, finite_add, finite_add, finite_add, Rat.add_assoc]

@[simp] theorem add_zero (x : Number) : x + finite 0 = x := by
  cases x with
  | finite x => rw [finite_add, Rat.add_zero]
  | _ => rfl

/-! ### Products -/

theorem sign_of_pos {value : ℚ} (pos : 0 < value) : (finite value).sign = 1 := if_pos pos

theorem sign_of_neg {value : ℚ} (neg : value < 0) : (finite value).sign = -1 := by
  rw [sign, if_neg neg.not_gt, if_pos neg]

@[simp] theorem sign_zero : (finite 0).sign = 0 := rfl

theorem infinity_of_pos {value : ℚ} (pos : 0 < value) : infinity value = posInf := if_pos pos

theorem infinity_of_neg {value : ℚ} (neg : value < 0) : infinity value = negInf := by
  rw [infinity, if_neg neg.not_gt, if_pos neg]

@[simp] theorem infinity_zero : infinity 0 = nan := rfl

theorem sign_finite_mul (x y : ℚ) : (finite (x * y)).sign = (finite x).sign * (finite y).sign := by
  rcases lt_trichotomy x 0 with negX | rfl | posX
  · rcases lt_trichotomy y 0 with negY | rfl | posY
    · rw [sign_of_neg negX, sign_of_neg negY, sign_of_pos (mul_pos_of_neg_of_neg negX negY)]
      norm_num
    · simp
    · rw [sign_of_neg negX, sign_of_pos posY, sign_of_neg (mul_neg_of_neg_of_pos negX posY)]
      norm_num
  · simp
  · rcases lt_trichotomy y 0 with negY | rfl | posY
    · rw [sign_of_pos posX, sign_of_neg negY, sign_of_neg (mul_neg_of_pos_of_neg posX negY)]
      norm_num
    · simp
    · rw [sign_of_pos posX, sign_of_pos posY, sign_of_pos (mul_pos posX posY)]
      norm_num

/-- A sign is one of three rationals. -/
theorem sign_cases (x : Number) : x.sign = 1 ∨ x.sign = -1 ∨ x.sign = 0 := by
  cases x with
  | nan => exact Or.inr (Or.inr rfl)
  | negInf => exact Or.inr (Or.inl rfl)
  | posInf => exact Or.inl rfl
  | finite value =>
      rcases lt_trichotomy value 0 with neg | rfl | pos
      · exact Or.inr (Or.inl (sign_of_neg neg))
      · exact Or.inr (Or.inr rfl)
      · exact Or.inl (sign_of_pos pos)

theorem sign_infinity_mul (x y : Number) : (infinity (x.sign * y.sign)).sign = x.sign * y.sign := by
  have product : x.sign * y.sign = 1 ∨ x.sign * y.sign = -1 ∨ x.sign * y.sign = 0 := by
    rcases sign_cases x with hx | hx | hx <;> rcases sign_cases y with hy | hy | hy <;>
      norm_num [hx, hy]
  rcases product with h | h | h
  · rw [h, infinity_of_pos one_pos, sign]
  · rw [h, infinity_of_neg (by norm_num), sign]
  · rw [h, infinity_zero, sign]

/-- A number with a finite value. -/
def IsFinite (x : Number) : Prop := ∃ value, x = finite value

theorem not_isFinite_infinity (value : ℚ) : ¬ (infinity value).IsFinite := by
  rintro ⟨result, same⟩
  unfold infinity at same
  split at same
  · cases same
  · split at same <;> cases same

/-- A product with an infinite or undefined factor depends on the signs only. -/
theorem mul_eq_infinity {x y : Number} (notFinite : ¬ (x.IsFinite ∧ y.IsFinite)) :
    x * y = infinity (x.sign * y.sign) := by
  cases x with
  | nan => rw [nan_mul, sign, zero_mul, infinity_zero]
  | negInf =>
      cases y with
      | nan => rw [mul_nan, sign, sign, mul_zero, infinity_zero]
      | _ => rfl
  | posInf =>
      cases y with
      | nan => rw [mul_nan, sign, sign, mul_zero, infinity_zero]
      | _ => rfl
  | finite x =>
      cases y with
      | nan => rw [mul_nan, show nan.sign = 0 from rfl, mul_zero, infinity_zero]
      | finite y => exact absurd ⟨⟨x, rfl⟩, ⟨y, rfl⟩⟩ notFinite
      | _ => rfl

theorem sign_mul (x y : Number) : (x * y).sign = x.sign * y.sign := by
  by_cases bothFinite : x.IsFinite ∧ y.IsFinite
  · obtain ⟨⟨x, rfl⟩, ⟨y, rfl⟩⟩ := bothFinite
    rw [finite_mul, sign_finite_mul]
  · rw [mul_eq_infinity bothFinite, sign_infinity_mul]

theorem isFinite_mul {x y : Number} : (x * y).IsFinite ↔ x.IsFinite ∧ y.IsFinite := by
  constructor
  · intro isFinite
    by_contra notFinite
    rw [mul_eq_infinity notFinite] at isFinite
    exact not_isFinite_infinity _ isFinite
  · rintro ⟨⟨x, rfl⟩, ⟨y, rfl⟩⟩
    exact ⟨x * y, finite_mul x y⟩

theorem mul_comm (x y : Number) : x * y = y * x := by
  by_cases bothFinite : x.IsFinite ∧ y.IsFinite
  · obtain ⟨⟨x, rfl⟩, ⟨y, rfl⟩⟩ := bothFinite
    rw [finite_mul, finite_mul, Rat.mul_comm]
  · rw [mul_eq_infinity bothFinite, mul_eq_infinity fun both => bothFinite both.symm, Rat.mul_comm]

theorem mul_assoc (x y z : Number) : x * y * z = x * (y * z) := by
  by_cases allFinite : (x.IsFinite ∧ y.IsFinite) ∧ z.IsFinite
  · obtain ⟨⟨⟨x, rfl⟩, ⟨y, rfl⟩⟩, ⟨z, rfl⟩⟩ := allFinite
    rw [finite_mul, finite_mul, finite_mul, finite_mul, Rat.mul_assoc]
  · have left : ¬ ((x * y).IsFinite ∧ z.IsFinite) := by rwa [isFinite_mul]
    have right : ¬ (x.IsFinite ∧ (y * z).IsFinite) := by rwa [isFinite_mul, ← and_assoc]
    rw [mul_eq_infinity left, mul_eq_infinity right, sign_mul, sign_mul, Rat.mul_assoc]

/-! ### Quotients -/

/-- The reciprocal; a zero counts as the positive zero. -/
def reciprocal : Number → Number
  | nan => nan
  | negInf => finite 0
  | posInf => finite 0
  | finite value => if value = 0 then posInf else finite value⁻¹

theorem infinity_sign (x : ℚ) : infinity (finite x).sign = infinity x := by
  rcases lt_trichotomy x 0 with neg | rfl | pos
  · rw [sign_of_neg neg, infinity_of_neg neg, infinity_of_neg (by norm_num)]
  · rfl
  · rw [sign_of_pos pos, infinity_of_pos pos, infinity_of_pos one_pos]

theorem sign_finite_inv (x : ℚ) : (finite x⁻¹).sign = (finite x).sign := by
  rcases lt_trichotomy x 0 with neg | rfl | pos
  · rw [sign_of_neg neg, sign_of_neg (inv_lt_zero.mpr neg)]
  · rw [inv_zero]
  · rw [sign_of_pos pos, sign_of_pos (inv_pos.mpr pos)]

/-- The divisor zero counts as positive. -/
theorem infinite_div_finite {x : Number} (infinite : x = posInf ∨ x = negInf) (y : ℚ) :
    x / finite y = x * (finite y).reciprocal := by
  have definition : x / finite y = if y < 0 then x.neg else x := by
    rcases infinite with rfl | rfl <;> rfl
  rw [definition, reciprocal]
  rcases lt_trichotomy y 0 with neg | rfl | pos
  · rw [if_pos neg, if_neg neg.ne, mul_eq_infinity, sign_finite_inv, sign_of_neg neg]
    · rcases infinite with rfl | rfl
      · exact (infinity_of_neg (by norm_num [sign])).symm
      · exact (infinity_of_pos (by norm_num [sign])).symm
    · rcases infinite with rfl | rfl <;> exact fun both => by cases both.1 with | intro _ same => cases same
  · rw [if_neg (lt_irrefl _), if_pos rfl]
    rcases infinite with rfl | rfl
    · exact (infinity_of_pos (by norm_num [sign])).symm
    · exact (infinity_of_neg (by norm_num [sign])).symm
  · rw [if_neg pos.not_gt, if_neg pos.ne', mul_eq_infinity, sign_finite_inv, sign_of_pos pos]
    · rcases infinite with rfl | rfl
      · exact (infinity_of_pos (by norm_num [sign])).symm
      · exact (infinity_of_neg (by norm_num [sign])).symm
    · rcases infinite with rfl | rfl <;> exact fun both => by cases both.1 with | intro _ same => cases same

theorem div_infinite {y : Number} (infinite : y = posInf ∨ y = negInf) (x : Number) :
    x / y = x * finite 0 := by
  cases x with
  | nan =>
      rw [nan_mul]
      rcases infinite with rfl | rfl <;> rfl
  | finite x =>
      rw [finite_mul, mul_zero]
      rcases infinite with rfl | rfl <;> rfl
  | posInf =>
      have undefined : posInf * finite 0 = nan := congrArg infinity (mul_zero _)
      rw [undefined]
      rcases infinite with rfl | rfl <;> rfl
  | negInf =>
      have undefined : negInf * finite 0 = nan := congrArg infinity (mul_zero _)
      rw [undefined]
      rcases infinite with rfl | rfl <;> rfl

theorem div_eq_mul_reciprocal (x y : Number) : x / y = x * y.reciprocal := by
  cases y with
  | nan => cases x <;> rfl
  | negInf => exact div_infinite (Or.inr rfl) x
  | posInf => exact div_infinite (Or.inl rfl) x
  | finite y =>
      cases x with
      | nan => exact (nan_mul _).symm
      | negInf => exact infinite_div_finite (Or.inr rfl) y
      | posInf => exact infinite_div_finite (Or.inl rfl) y
      | finite x =>
          have definition : finite x / finite y = if y = 0 then infinity x else finite (x / y) := rfl
          rw [definition, reciprocal]
          split
          · rw [mul_eq_infinity, show posInf.sign = 1 from rfl, mul_one, infinity_sign]
            rintro ⟨_, _, same⟩
            cases same
          · rw [finite_mul, div_eq_mul_inv]

/-- The quotients by two numbers can be taken in either order. -/
theorem div_right_comm (x y z : Number) : x / y / z = x / z / y := by
  simp only [div_eq_mul_reciprocal, mul_assoc, mul_comm y.reciprocal]

theorem mul_right_comm (x y z : Number) : x * y * z = x * z * y := by
  rw [mul_assoc, mul_comm y, ← mul_assoc]

theorem mul_div_right_comm (x y z : Number) : x * y / z = x / z * y := by
  rw [div_eq_mul_reciprocal, div_eq_mul_reciprocal, mul_right_comm]

theorem add_right_comm (x y z : Number) : x + y + z = x + z + y := by
  rw [add_assoc, add_comm y, ← add_assoc]

end Tyr.Number
