import Mathlib.Algebra.Order.Floor.Ring
import Mathlib.Data.Rat.Floor
import Mathlib.Tactic.Linarith
import Mathlib.Tactic.NormNum
import Mathlib.Tactic.FieldSimp
import Mathlib.Tactic.Positivity

/-!
Canonical numbers.

The source stores metrics and heuristic values as floating point numbers rounded
to multiples of `abs_epsilon = 1e-12`. Numbers are modelled as rationals, so a
canonical number is an exact multiple of `absEpsilon`, and `canonicalize` rounds
to the nearest one, halves away from zero.
-/

namespace Tyr

/-- The rounding unit. -/
def absEpsilon : ℚ := 1 / 10 ^ 12

/-- `std::round`: the nearest integer, halves away from zero. -/
def roundHalfAway (x : ℚ) : ℤ :=
  if 0 ≤ x then ⌊x + 1 / 2⌋ else ⌈x - 1 / 2⌉

/-- Round to the nearest multiple of `absEpsilon`. -/
def canonicalize (value : ℚ) : ℚ := roundHalfAway (value / absEpsilon) * absEpsilon

/-- `value` is a multiple of `absEpsilon`. -/
def IsCanonical (value : ℚ) : Prop := ∃ n : ℤ, value = n * absEpsilon

theorem absEpsilon_pos : 0 < absEpsilon := by
  norm_num [absEpsilon]

theorem roundHalfAway_intCast (n : ℤ) : roundHalfAway n = n := by
  unfold roundHalfAway
  split
  · rw [Int.floor_eq_iff]
    constructor <;> linarith
  · rw [Int.ceil_eq_iff]
    constructor <;> linarith

theorem roundHalfAway_mono {x y : ℚ} (le : x ≤ y) : roundHalfAway x ≤ roundHalfAway y := by
  unfold roundHalfAway
  split_ifs with nonnegX nonnegY nonnegY
  · exact Int.floor_le_floor (by linarith)
  · exact absurd (nonnegX.trans le) nonnegY
  · have negX : ⌈x - 1 / 2⌉ ≤ 0 := Int.ceil_le.mpr (by push_cast; linarith [not_le.mp nonnegX])
    have posY : 0 ≤ ⌊y + 1 / 2⌋ := Int.floor_nonneg.mpr (by linarith)
    exact negX.trans posY
  · exact Int.ceil_le_ceil (by linarith)

theorem canonicalize_mono {x y : ℚ} (le : x ≤ y) : canonicalize x ≤ canonicalize y := by
  unfold canonicalize
  refine mul_le_mul_of_nonneg_right ?_ absEpsilon_pos.le
  exact_mod_cast roundHalfAway_mono (div_le_div_of_nonneg_right le absEpsilon_pos.le)

/-- Canonical numbers are left as they are. -/
theorem IsCanonical.canonicalize_eq {value : ℚ} (canonical : IsCanonical value) :
    canonicalize value = value := by
  obtain ⟨n, rfl⟩ := canonical
  unfold canonicalize
  rw [mul_div_cancel_right₀ _ absEpsilon_pos.ne', roundHalfAway_intCast]

theorem isCanonical_zero : IsCanonical 0 := ⟨0, by simp⟩

theorem isCanonical_one : IsCanonical 1 := ⟨10 ^ 12, by norm_num [absEpsilon]⟩

theorem IsCanonical.add {x y : ℚ} (canonicalX : IsCanonical x) (canonicalY : IsCanonical y) :
    IsCanonical (x + y) := by
  obtain ⟨n, rfl⟩ := canonicalX
  obtain ⟨m, rfl⟩ := canonicalY
  exact ⟨n + m, by push_cast; ring⟩

/-- Rounding a nonnegative number does not make it negative. -/
theorem canonicalize_nonneg {value : ℚ} (nonneg : 0 ≤ value) : 0 ≤ canonicalize value := by
  rw [← isCanonical_zero.canonicalize_eq]
  exact canonicalize_mono nonneg

end Tyr
