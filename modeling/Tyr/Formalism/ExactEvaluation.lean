import Tyr.Common.NumberAlgebra
import Tyr.Formalism.FunctionExpression

/-!
Numeric constraints in exact rational arithmetic.

Numbers are rational or undefined: a quotient by zero is undefined, and so is
everything computed from an undefined number. Comparisons have no tolerance.

* `BooleanOp.applyWithin` — a comparison with a given tolerance.
* `FunctionExpression.exactValue` — the exact value of an expression.
* `BooleanOp.exactly_finite`, `exactly_undefined` — what a comparison says.
-/

namespace Tyr

namespace Number

@[simp] theorem finite_sub (lhs rhs : ℚ) : finite lhs - finite rhs = finite (lhs - rhs) := by
  rw [Rat.sub_eq_add_neg]
  rfl

@[simp] theorem neg_finite (value : ℚ) : -finite value = finite (-value) := rfl

@[simp] theorem abs_finite (value : ℚ) : (finite value).abs = finite |value| := rfl

@[simp] theorem nan_sub (x : Number) : nan - x = nan := nan_add (-x)

@[simp] theorem sub_nan (x : Number) : x - nan = nan := add_nan x

@[simp] theorem nan_div (x : Number) : nan / x = nan := by
  cases x <;> rfl

@[simp] theorem div_nan (x : Number) : x / nan = nan := by
  cases x <;> rfl

@[simp] theorem finite_lt (lhs rhs : ℚ) : (finite lhs).lt (finite rhs) = true ↔ lhs < rhs :=
  decide_eq_true_iff

@[simp] theorem finite_le (lhs rhs : ℚ) : (finite lhs).le (finite rhs) = true ↔ lhs ≤ rhs := by
  simp only [le, isNaN, Bool.or_eq_true, finite_lt, Bool.not_false, Bool.and_true, beq_iff_eq,
    finite.injEq]
  exact le_iff_lt_or_eq.symm

@[simp] theorem nan_lt (rhs : Number) : nan.lt rhs = false := rfl

@[simp] theorem lt_nan (lhs : Number) : lhs.lt nan = false := by
  cases lhs <;> rfl

@[simp] theorem nan_le (rhs : Number) : nan.le rhs = false := by
  cases rhs <;> rfl

@[simp] theorem le_nan (lhs : Number) : lhs.le nan = false := by
  cases lhs <;> rfl

theorem le_trans_finite {lower upper : Number} {x y : ℚ} (lowerLe : lower.le (finite x) = true)
    (order : x ≤ y) (leUpper : (finite y).le upper = true) : lower.le upper = true := by
  cases lower with
  | nan => simp at lowerLe
  | posInf => simp [le, lt] at lowerLe
  | negInf =>
      cases upper with
      | nan => simp at leUpper
      | _ => rfl
  | finite lower =>
      cases upper with
      | nan => simp at leUpper
      | negInf => simp [le, lt] at leUpper
      | posInf => rfl
      | finite upper =>
          rw [finite_le] at lowerLe leUpper ⊢
          exact lowerLe.trans (order.trans leUpper)

theorem lt_trans_finite {lower upper : Number} {x y : ℚ} (lowerLe : lower.le (finite x) = true)
    (order : x < y) (leUpper : (finite y).le upper = true) : lower.lt upper = true := by
  cases lower with
  | nan => simp at lowerLe
  | posInf => simp [le, lt] at lowerLe
  | negInf =>
      cases upper with
      | nan => simp at leUpper
      | negInf => simp [le, lt] at leUpper
      | _ => rfl
  | finite lower =>
      cases upper with
      | nan => simp at leUpper
      | negInf => simp [le, lt] at leUpper
      | posInf => rfl
      | finite upper =>
          rw [finite_le] at lowerLe leUpper
          rw [finite_lt]
          exact lowerLe.trans_lt (order.trans_le leUpper)

/-- A rational, or undefined. -/
def IsRational : Number → Prop
  | nan => True
  | finite _ => True
  | _ => False

end Number

namespace Formalism

open Number

/-! ### Comparisons -/

namespace BooleanOp

/-- `formalism::apply` of a comparison for a given tolerance of its operands. -/
def applyWithin (tolerance : Number → Number → Number) (op : BooleanOp) (lhs rhs : Number) : Bool :=
  let tol := tolerance lhs rhs
  match op with
  | eq => Number.le (lhs - rhs).abs tol
  | ne => !Number.le (lhs - rhs).abs tol
  | ge => Number.le rhs (lhs + tol)
  | gt => Number.lt (rhs + tol) lhs
  | le => Number.le lhs (rhs + tol)
  | lt => Number.lt lhs (rhs - tol)

theorem apply_eq_applyWithin : apply = applyWithin Number.tolerance := rfl

/-- The comparison with tolerance zero. -/
def exactly : BooleanOp → Number → Number → Bool := applyWithin fun _ _ => finite 0

/-- The meaning of a comparison of rationals. -/
def Holds : BooleanOp → ℚ → ℚ → Prop
  | eq, lhs, rhs => lhs = rhs
  | ne, lhs, rhs => lhs ≠ rhs
  | ge, lhs, rhs => rhs ≤ lhs
  | gt, lhs, rhs => rhs < lhs
  | le, lhs, rhs => lhs ≤ rhs
  | lt, lhs, rhs => lhs < rhs

theorem exactly_finite {op : BooleanOp} {lhs rhs : ℚ} :
    op.exactly (finite lhs) (finite rhs) = true ↔ op.Holds lhs rhs := by
  have same : |lhs - rhs| ≤ 0 ↔ lhs = rhs := by
    rw [abs_nonpos_iff, sub_eq_zero]
  cases op with
  | ne =>
      simp only [exactly, applyWithin, Holds, finite_sub, abs_finite, Bool.not_eq_true',
        Bool.eq_false_iff, ne_eq, finite_le, same]
  | _ => simp [exactly, applyWithin, Holds, same]

/-- Of the comparisons with an undefined operand, the inequality alone is true. -/
theorem exactly_undefined {op : BooleanOp} {lhs rhs : Number} (undefined : lhs = nan ∨ rhs = nan) :
    op.exactly lhs rhs = true ↔ op = .ne := by
  rcases undefined with rfl | rfl
  · cases op <;> simp [exactly, applyWithin, Number.abs]
  · cases op <;> simp [exactly, applyWithin, Number.abs]

@[simp] theorem exactly_le (lhs rhs : Number) : exactly .le lhs rhs = lhs.le rhs :=
  congrArg lhs.le (add_zero rhs)

@[simp] theorem exactly_ge (lhs rhs : Number) : exactly .ge lhs rhs = rhs.le lhs :=
  congrArg rhs.le (add_zero lhs)

@[simp] theorem exactly_gt (lhs rhs : Number) : exactly .gt lhs rhs = rhs.lt lhs :=
  congrArg (Number.lt · lhs) (add_zero rhs)

@[simp] theorem exactly_lt (lhs rhs : Number) : exactly .lt lhs rhs = lhs.lt rhs :=
  congrArg lhs.lt (add_zero rhs)

/-- Infinite numbers are not exactly equal to anything. -/
theorem exactly_eq_iff {lhs rhs : Number} :
    exactly .eq lhs rhs = true ↔ ∃ v, lhs = finite v ∧ rhs = finite v := by
  constructor
  · intro same
    cases lhs with
    | nan => cases rhs <;> cases same
    | negInf => cases rhs <;> cases same
    | posInf => cases rhs <;> cases same
    | finite lhs =>
        cases rhs with
        | nan => cases same
        | negInf => cases same
        | posInf => cases same
        | finite rhs =>
            obtain rfl : lhs = rhs := exactly_finite.mp same
            exact ⟨lhs, rfl, rfl⟩
  · rintro ⟨v, rfl, rfl⟩
    exact exactly_finite.mpr rfl

end BooleanOp

/-! ### Expressions -/

/-- An operator in exact arithmetic: the quotient by zero is undefined. -/
def ArithmeticOp.applyExactly : ArithmeticOp → Number → Number → Number
  | div, lhs, rhs => if rhs = finite 0 then nan else lhs / rhs
  | op, lhs, rhs => op.apply lhs rhs

theorem ArithmeticOp.applyExactly_eq_apply {op : ArithmeticOp} {rhs : Number}
    (divides : op = .div → rhs ≠ finite 0) (lhs : Number) :
    op.applyExactly lhs rhs = op.apply lhs rhs := by
  cases op with
  | div => exact if_neg (divides rfl)
  | _ => rfl

/-- An operand that is undefined makes the result undefined. -/
theorem ArithmeticOp.applyExactly_undefined (op : ArithmeticOp) {lhs rhs : Number}
    (undefined : lhs = nan ∨ rhs = nan) : op.applyExactly lhs rhs = nan := by
  rcases undefined with rfl | rfl
  · cases op with
    | add => exact nan_add rhs
    | sub => exact nan_sub rhs
    | mul => exact nan_mul rhs
    | div => simp [applyExactly]
  · cases op with
    | add => exact add_nan lhs
    | sub => exact sub_nan lhs
    | mul => exact mul_nan lhs
    | div => simp [applyExactly]

theorem MultiOp.apply_undefined (op : MultiOp) {lhs rhs : Number}
    (undefined : lhs = nan ∨ rhs = nan) : op.apply lhs rhs = nan := by
  cases op with
  | add => exact ArithmeticOp.applyExactly_undefined .add undefined
  | mul => exact ArithmeticOp.applyExactly_undefined .mul undefined

namespace FunctionExpression

variable {FTerm : Type*} (valuation : FTerm → Number)

mutual

/-- The value of an expression in exact arithmetic. -/
def exactValue : FunctionExpression FTerm → Number
  | number value => value
  | neg arg => -exactValue arg
  | binary op lhs rhs => op.applyExactly (exactValue lhs) (exactValue rhs)
  | multi op front rest => exactFold op (exactValue front) rest
  | fterm t => valuation t

/-- The fold of an n-ary operator over its remaining arguments. -/
def exactFold (op : MultiOp) (init : Number) : List (FunctionExpression FTerm) → Number
  | [] => init
  | arg :: rest => exactFold op (op.apply init (exactValue arg)) rest

end

mutual

/-- No number in the expression is infinite. -/
def IsRational : FunctionExpression FTerm → Prop
  | number value => value.IsRational
  | neg arg => IsRational arg
  | binary _ lhs rhs => IsRational lhs ∧ IsRational rhs
  | multi _ front rest => IsRational front ∧ AreRational rest
  | fterm _ => True

def AreRational : List (FunctionExpression FTerm) → Prop
  | [] => True
  | arg :: rest => IsRational arg ∧ AreRational rest

end

mutual

/-- Every divisor in the expression has the property. -/
def EveryDivisor (P : FunctionExpression FTerm → Prop) : FunctionExpression FTerm → Prop
  | number _ => True
  | neg arg => EveryDivisor P arg
  | binary op lhs rhs => (EveryDivisor P lhs ∧ EveryDivisor P rhs) ∧ (op = .div → P rhs)
  | multi _ front rest => EveryDivisor P front ∧ EveryDivisorOfList P rest
  | fterm _ => True

def EveryDivisorOfList (P : FunctionExpression FTerm → Prop) : List (FunctionExpression FTerm) → Prop
  | [] => True
  | arg :: rest => EveryDivisor P arg ∧ EveryDivisorOfList P rest

end

/-- No divisor is zero. -/
def NonzeroDivisors : FunctionExpression FTerm → Prop :=
  EveryDivisor fun divisor => divisor.value valuation ≠ finite 0

mutual

/-- Without zero divisors the exact value is the value. -/
theorem exactValue_eq_value :
    ∀ {fexpr : FunctionExpression FTerm}, fexpr.NonzeroDivisors valuation →
      fexpr.exactValue valuation = fexpr.value valuation
  | number _, _ => by rw [exactValue, value]
  | neg arg, nonzero => by
      rw [NonzeroDivisors, EveryDivisor] at nonzero
      rw [exactValue, value, exactValue_eq_value nonzero]
  | binary op lhs rhs, nonzero => by
      rw [NonzeroDivisors, EveryDivisor] at nonzero
      rw [exactValue, value, exactValue_eq_value nonzero.1.1, exactValue_eq_value nonzero.1.2]
      exact ArithmeticOp.applyExactly_eq_apply nonzero.2 _
  | multi op front rest, nonzero => by
      rw [NonzeroDivisors, EveryDivisor] at nonzero
      rw [exactValue, value, exactValue_eq_value nonzero.1]
      exact exactFold_eq_fold op _ nonzero.2
  | fterm _, _ => by rw [exactValue, value]

theorem exactFold_eq_fold (op : MultiOp) (init : Number) :
    ∀ {rest : List (FunctionExpression FTerm)},
      EveryDivisorOfList (fun divisor => divisor.value valuation ≠ finite 0) rest →
      exactFold valuation op init rest = fold valuation op init rest
  | [], _ => by rw [exactFold, fold]
  | arg :: rest, nonzero => by
      rw [EveryDivisorOfList] at nonzero
      rw [exactFold, fold, exactValue_eq_value nonzero.1]
      exact exactFold_eq_fold op _ nonzero.2

end

end FunctionExpression

namespace FunctionExpression

variable {FTerm : Type*} {valuation : FTerm → Number}

mutual

/-- An undefined function term makes the expression undefined. -/
theorem exactValue_undefined :
    ∀ {fexpr : FunctionExpression FTerm}, (∃ t ∈ fexpr.fterms, valuation t = nan) →
      fexpr.exactValue valuation = nan
  | number _, ⟨t, mem, _⟩ => by
      rw [fterms] at mem
      cases mem
  | neg arg, undefined => by
      rw [fterms] at undefined
      rw [exactValue, exactValue_undefined undefined]
      rfl
  | binary op lhs rhs, ⟨t, mem, undefined⟩ => by
      rw [fterms] at mem
      rw [exactValue]
      apply op.applyExactly_undefined
      rcases List.mem_append.mp mem with left | right
      · exact .inl (exactValue_undefined ⟨t, left, undefined⟩)
      · exact .inr (exactValue_undefined ⟨t, right, undefined⟩)
  | multi op front rest, ⟨t, mem, undefined⟩ => by
      rw [fterms] at mem
      rw [exactValue]
      apply exactFold_undefined
      rcases List.mem_append.mp mem with left | right
      · exact .inl (exactValue_undefined ⟨t, left, undefined⟩)
      · exact .inr ⟨t, right, undefined⟩
  | fterm t, ⟨t', mem, undefined⟩ => by
      rw [fterms] at mem
      obtain rfl := List.mem_singleton.mp mem
      rw [exactValue, undefined]

theorem exactFold_undefined {op : MultiOp} {init : Number} :
    ∀ {rest : List (FunctionExpression FTerm)},
      (init = nan ∨ ∃ t ∈ ftermsOfList rest, valuation t = nan) →
      exactFold valuation op init rest = nan
  | [], undefined => by
      rw [exactFold]
      rcases undefined with undefined | ⟨t, mem, _⟩
      · exact undefined
      · rw [ftermsOfList] at mem
        cases mem
  | arg :: rest, undefined => by
      rw [exactFold]
      apply exactFold_undefined
      rcases undefined with undefined | ⟨t, mem, undefined⟩
      · exact .inl (op.apply_undefined (.inl undefined))
      · rw [ftermsOfList] at mem
        rcases List.mem_append.mp mem with left | right
        · exact .inl (op.apply_undefined (.inr (exactValue_undefined ⟨t, left, undefined⟩)))
        · exact .inr ⟨t, right, undefined⟩

end

end FunctionExpression

/-- No number in the constraint is infinite. -/
def BooleanOperator.IsRational {FTerm : Type*} (constraint : BooleanOperator FTerm) : Prop :=
  constraint.lhs.IsRational ∧ constraint.rhs.IsRational

/-- The constraint is true in exact arithmetic. -/
def BooleanOperator.HoldsExactly {FTerm : Type*} (valuation : FTerm → Number)
    (constraint : BooleanOperator FTerm) : Prop :=
  constraint.op.exactly (constraint.lhs.exactValue valuation)
    (constraint.rhs.exactValue valuation) = true

end Formalism

end Tyr
