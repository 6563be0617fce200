import Tyr.Common.FloatTolerance

/-!
Numbers of the planning formalism.

The source computes with `float_t`. A `Number` is a `float_t` without rounding: a
rational, one of the two infinities, or not a number. The value of a function
term that was never set is not a number, and so are the indeterminate forms.
Signed zeros are not distinguished.
-/

namespace Tyr

/-- A `float_t`, with a rational in place of a finite value. -/
inductive Number where
  | nan
  | negInf
  | posInf
  | finite (value : ℚ)
deriving DecidableEq

namespace Number

/-- `std::isnan`. -/
def isNaN : Number → Bool
  | nan => true
  | _ => false

/-! ### Arithmetic -/

/-- The infinity with the sign of `value`; there is none for zero. -/
def infinity (value : ℚ) : Number :=
  if 0 < value then posInf else if value < 0 then negInf else nan

protected def neg : Number → Number
  | nan => nan
  | negInf => posInf
  | posInf => negInf
  | finite value => finite (-value)

protected def add : Number → Number → Number
  | nan, _ => nan
  | _, nan => nan
  | finite lhs, finite rhs => finite (lhs + rhs)
  | finite _, rhs => rhs
  | lhs, finite _ => lhs
  | posInf, posInf => posInf
  | negInf, negInf => negInf
  | posInf, negInf => nan
  | negInf, posInf => nan

/-- The sign of a number as a rational. -/
def sign : Number → ℚ
  | nan => 0
  | negInf => -1
  | posInf => 1
  | finite value => if 0 < value then 1 else if value < 0 then -1 else 0

protected def mul : Number → Number → Number
  | nan, _ => nan
  | _, nan => nan
  | finite lhs, finite rhs => finite (lhs * rhs)
  | lhs, rhs => infinity (lhs.sign * rhs.sign)

/-- A zero divisor counts as the positive zero. -/
protected def div : Number → Number → Number
  | nan, _ => nan
  | _, nan => nan
  | finite lhs, finite rhs => if rhs = 0 then infinity lhs else finite (lhs / rhs)
  | finite _, _ => finite 0
  | lhs, finite rhs => if rhs < 0 then lhs.neg else lhs
  | _, _ => nan

instance : Neg Number := ⟨Number.neg⟩
instance : Add Number := ⟨Number.add⟩
instance : Sub Number := ⟨fun lhs rhs => lhs + -rhs⟩
instance : Mul Number := ⟨Number.mul⟩
instance : Div Number := ⟨Number.div⟩

@[simp] theorem finite_add (lhs rhs : ℚ) : finite lhs + finite rhs = finite (lhs + rhs) := rfl

@[simp] theorem finite_mul (lhs rhs : ℚ) : finite lhs * finite rhs = finite (lhs * rhs) := rfl

/-! ### Comparison -/

/-- `<` on `float_t`: false if an operand is not a number. -/
def lt : Number → Number → Bool
  | nan, _ => false
  | _, nan => false
  | finite lhs, finite rhs => lhs < rhs
  | negInf, rhs => rhs != negInf
  | posInf, _ => false
  | finite _, rhs => rhs == posInf

/-- `<=` on `float_t`. -/
def le (lhs rhs : Number) : Bool := lt lhs rhs || (lhs == rhs && !lhs.isNaN)

/-- `std::abs`. -/
def abs : Number → Number
  | nan => nan
  | negInf => posInf
  | posInf => posInf
  | finite value => finite |value|

/-- `std::max`: the first operand unless it is smaller. -/
def max (lhs rhs : Number) : Number := if lt lhs rhs then rhs else lhs

/-- `FloatTolerance::tolerance`; the two epsilons are the same number. -/
def tolerance (lhs rhs : Number) : Number :=
  max (finite absEpsilon) (finite absEpsilon * max lhs.abs rhs.abs)

/-- `FloatTolerance::canonicalize`. -/
def canonicalize : Number → Number
  | finite value => finite (Tyr.canonicalize value)
  | other => other

/-! ### Canonical numbers -/

/-- A finite multiple of `absEpsilon`. -/
def IsCanonical (number : Number) : Prop := ∃ value, number = finite value ∧ Tyr.IsCanonical value

theorem IsCanonical.canonicalize_eq {number : Number} (canonical : number.IsCanonical) :
    number.canonicalize = number := by
  obtain ⟨value, rfl, multiple⟩ := canonical
  rw [canonicalize, multiple.canonicalize_eq]

theorem IsCanonical.add {x y : Number} (canonicalX : x.IsCanonical) (canonicalY : y.IsCanonical) :
    (x + y).IsCanonical := by
  obtain ⟨x, rfl, multipleX⟩ := canonicalX
  obtain ⟨y, rfl, multipleY⟩ := canonicalY
  exact ⟨x + y, rfl, multipleX.add multipleY⟩

theorem isCanonical_zero : IsCanonical (finite 0) := ⟨0, rfl, Tyr.isCanonical_zero⟩

theorem isCanonical_one : IsCanonical (finite 1) := ⟨1, rfl, Tyr.isCanonical_one⟩

theorem isCanonical_natCast (n : ℕ) : IsCanonical (finite n) := by
  induction n with
  | zero =>
      rw [Nat.cast_zero]
      exact isCanonical_zero
  | succ n ih =>
      rw [Nat.cast_succ, ← finite_add]
      exact ih.add isCanonical_one

end Number

end Tyr
