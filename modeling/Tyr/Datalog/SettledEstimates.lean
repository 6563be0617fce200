import Tyr.Datalog.NumberIntervals
import Tyr.Formalism.Definedness
import Tyr.Formalism.TolerantComparison

/-!
Numeric constraints whose estimates are exact.

Interval arithmetic on points is arithmetic. So a constraint that is only estimated
is decided correctly where some vertex or edge of the binding determines the values
of its function terms. The estimates of all other vertices and edges enclose the
values of a constraint and let it pass if it holds; strict comparisons need finite
bounds for that, and inequalities sides that are clearly apart.

* `Estimable` — what estimating a constraint takes.
* `Settled` — a vertex or an edge determines the function terms of a constraint.
* `matches_numericConstraints` — then matching is exact.
-/

namespace Tyr.Datalog

open Tyr.Lib Tyr.Formalism Tyr.Formalism.Datalog Number

namespace IntervalLibrary

section

variable {library : IntervalLibrary}

/-! ### Expressions -/

theorem IsPoint.neg (spec : library.BoundsSpec) (propagates : library.PropagatesEmpty)
    {a : library.Interval} {x : Number} (isPoint : IsPoint a x) : IsPoint (library.neg a) (-x) := by
  cases x with
  | nan => exact propagates.neg isPoint
  | negInf => exact isPoint
  | posInf => exact isPoint
  | finite x => exact spec.neg isPoint

theorem IsPoint.apply (spec : library.BoundsSpec) (propagates : library.PropagatesEmpty)
    {op : ArithmeticOp} {a b : library.Interval} {x y : Number} (left : IsPoint a x)
    (right : IsPoint b y) (divides : op = .div → y ≠ finite 0) :
    IsPoint (library.apply op a b) (op.apply x y) := by
  cases x with
  | nan =>
      rw [op.apply_undefined (.inl rfl)]
      exact propagates.apply op (.inl left)
  | negInf => exact left.elim
  | posInf => exact left.elim
  | finite x =>
      cases y with
      | nan =>
          rw [op.apply_undefined (.inr rfl)]
          exact propagates.apply op (.inr right)
      | negInf => exact right.elim
      | posInf => exact right.elim
      | finite y =>
          cases op with
          | add => exact spec.add left right
          | sub =>
              have difference : ArithmeticOp.apply .sub (finite x) (finite y) = finite (x - y) :=
                finite_sub x y
              rw [difference]
              exact spec.sub left right
          | mul => exact spec.mul_point left right
          | div =>
              have nonzero : y ≠ 0 := fun zero => divides rfl (congrArg finite zero)
              have quotient : ArithmeticOp.apply .div (finite x) (finite y) = finite (x / y) :=
                if_neg nonzero
              rw [quotient]
              exact spec.div_point left right nonzero

theorem IsPoint.applyMulti (spec : library.BoundsSpec) (propagates : library.PropagatesEmpty)
    {op : MultiOp} {a b : library.Interval} {x y : Number} (left : IsPoint a x)
    (right : IsPoint b y) : IsPoint (library.applyMulti op a b) (op.apply x y) := by
  cases op with
  | add =>
      have sum : IsPoint (library.apply .add a b) (ArithmeticOp.apply .add x y) :=
        left.apply spec propagates right ArithmeticOp.noConfusion
      exact sum
  | mul =>
      have product : IsPoint (library.apply .mul a b) (ArithmeticOp.apply .mul x y) :=
        left.apply spec propagates right ArithmeticOp.noConfusion
      exact product

section

variable {estimate : FunctionTerm → library.Interval} {valuation : FunctionTerm → Number}

theorem isPoint_number (hulls : library.HullSpec) {value : Number} (rational : value.IsRational) :
    IsPoint (library.closed value value) value := by
  cases value with
  | nan => exact hulls.closed_nan
  | negInf => exact rational
  | posInf => exact rational
  | finite v =>
      obtain ⟨nonempty, lower, upper⟩ := hulls.closed (finite v) (by simp)
      exact ⟨nonempty, lower, upper⟩

mutual

/-- Interval arithmetic on the values of the function terms is arithmetic. -/
theorem isPoint_consistentInterval (hulls : library.HullSpec) (spec : library.BoundsSpec)
    (propagates : library.PropagatesEmpty) :
    ∀ {fexpr : FunctionExpression FunctionTerm}, fexpr.IsRational →
      fexpr.NonzeroDivisors valuation →
      (∀ fterm ∈ fexpr.fterms, IsPoint (estimate fterm) (valuation fterm)) →
      IsPoint (library.consistentInterval estimate fexpr) (fexpr.value valuation)
  | .number value, rational, _, _ => by
      rw [FunctionExpression.IsRational] at rational
      rw [consistentInterval, FunctionExpression.value]
      exact isPoint_number hulls rational
  | .neg arg, rational, nonzero, terms => by
      rw [FunctionExpression.IsRational] at rational
      rw [FunctionExpression.NonzeroDivisors, FunctionExpression.EveryDivisor] at nonzero
      rw [FunctionExpression.fterms] at terms
      rw [consistentInterval, FunctionExpression.value]
      exact (isPoint_consistentInterval hulls spec propagates rational nonzero terms).neg
        spec propagates
  | .binary op lhs rhs, rational, nonzero, terms => by
      rw [FunctionExpression.IsRational] at rational
      rw [FunctionExpression.NonzeroDivisors, FunctionExpression.EveryDivisor] at nonzero
      rw [FunctionExpression.fterms] at terms
      rw [consistentInterval, FunctionExpression.value]
      have left := isPoint_consistentInterval hulls spec propagates rational.1 nonzero.1.1
        (fun fterm mem => terms fterm (List.mem_append_left _ mem))
      have right := isPoint_consistentInterval hulls spec propagates rational.2 nonzero.1.2
        (fun fterm mem => terms fterm (List.mem_append_right _ mem))
      exact left.apply spec propagates right nonzero.2
  | .multi op front rest, rational, nonzero, terms => by
      rw [FunctionExpression.IsRational] at rational
      rw [FunctionExpression.NonzeroDivisors, FunctionExpression.EveryDivisor] at nonzero
      rw [FunctionExpression.fterms] at terms
      rw [consistentInterval, FunctionExpression.value]
      have first := isPoint_consistentInterval hulls spec propagates rational.1 nonzero.1
        (fun fterm mem => terms fterm (List.mem_append_left _ mem))
      exact isPoint_accumulate hulls spec propagates first rational.2 nonzero.2
        (fun fterm mem => terms fterm (List.mem_append_right _ mem))
  | .fterm fterm, _, _, terms => by
      rw [FunctionExpression.fterms] at terms
      rw [consistentInterval, FunctionExpression.value]
      exact terms fterm (List.mem_singleton_self fterm)

theorem isPoint_accumulate (hulls : library.HullSpec) (spec : library.BoundsSpec)
    (propagates : library.PropagatesEmpty) {op : MultiOp} {bounds : library.Interval}
    {value : Number} (isPoint : IsPoint bounds value) :
    ∀ {rest : List (FunctionExpression FunctionTerm)}, FunctionExpression.AreRational rest →
      FunctionExpression.EveryDivisorOfList
        (fun divisor => divisor.value valuation ≠ finite 0) rest →
      (∀ fterm ∈ FunctionExpression.ftermsOfList rest,
        IsPoint (estimate fterm) (valuation fterm)) →
      IsPoint (library.accumulate estimate op bounds rest)
        (FunctionExpression.fold valuation op value rest)
  | [], _, _, _ => by
      rw [accumulate, FunctionExpression.fold]
      exact isPoint
  | arg :: rest, rational, nonzero, terms => by
      rw [FunctionExpression.AreRational] at rational
      rw [FunctionExpression.EveryDivisorOfList] at nonzero
      rw [FunctionExpression.ftermsOfList] at terms
      rw [accumulate, FunctionExpression.fold]
      have next := isPoint_consistentInterval hulls spec propagates rational.1 nonzero.1
        (fun fterm mem => terms fterm (List.mem_append_left _ mem))
      exact isPoint_accumulate hulls spec propagates (isPoint.applyMulti spec propagates next)
        rational.2 nonzero.2 (fun fterm mem => terms fterm (List.mem_append_right _ mem))

end

/-- The listed values of the function are all positive, or all negative. -/
def Signed (values : FunctionValues) (fterm : FunctionTerm) : Prop :=
  (∀ v, Listed values fterm v → 0 < v) ∨ ∀ v, Listed values fterm v → v < 0

/-- A divisor without function terms, or a function term of one sign. -/
def SafeDivisor (values : FunctionValues) (divisor : FunctionExpression FunctionTerm) : Prop :=
  divisor.fterms = [] ∨ ∃ fterm, divisor = .fterm fterm ∧ Signed values fterm

/-- Intervals of defined operands have rational bounds if those of the divisors exclude
zero. -/
theorem between_apply (spec : library.BoundsSpec) (op : ArithmeticOp) {a b : library.Interval}
    (left : ∃ l u : ℚ, Between a l u)
    (right : ∃ l u : ℚ, Between b l u ∧ (op = .div → 0 < l ∨ u < 0)) :
    ∃ l u : ℚ, Between (library.apply op a b) l u := by
  obtain ⟨l, u, between⟩ := left
  obtain ⟨l', u', between', apart⟩ := right
  cases op with
  | add => exact ⟨_, _, spec.add between between'⟩
  | sub => exact ⟨_, _, spec.sub between between'⟩
  | mul => exact spec.mul between between'
  | div => exact spec.div between between' (apart rfl)

variable {values : FunctionValues}

/-- The interval of a safe divisor excludes zero. -/
theorem between_divisor (hulls : library.HullSpec) (spec : library.BoundsSpec)
    (propagates : library.PropagatesEmpty) {divisor : FunctionExpression FunctionTerm}
    (safe : SafeDivisor values divisor) (rational : divisor.IsRational)
    (nonzero : divisor.NonzeroDivisors valuation) (isNonzero : divisor.value valuation ≠ finite 0)
    (defined : divisor.value valuation ≠ nan)
    (rationalValues : ∀ fterm, (valuation fterm).IsRational)
    (terms : ∀ fterm ∈ divisor.fterms,
      Bounds (Listed values fterm) (estimate fterm) (valuation fterm)) :
    ∃ l u : ℚ, Between (library.consistentInterval estimate divisor) l u ∧ (0 < l ∨ u < 0) := by
  rcases safe with constant | ⟨fterm, rfl, signed⟩
  · have isPoint : IsPoint (library.consistentInterval estimate divisor)
        (divisor.value valuation) := by
      apply isPoint_consistentInterval hulls spec propagates rational nonzero
      intro fterm mem
      rw [constant] at mem
      cases mem
    cases value : divisor.value valuation with
    | nan => exact absurd value defined
    | negInf =>
        rw [value] at isPoint
        exact isPoint.elim
    | posInf =>
        rw [value] at isPoint
        exact isPoint.elim
    | finite y =>
        rw [value] at isPoint isNonzero
        have apart : y ≠ 0 := fun zero => isNonzero (congrArg finite zero)
        exact ⟨y, y, isPoint, (lt_or_gt_of_ne apart).symm⟩
  · rw [FunctionExpression.value] at defined
    rw [consistentInterval]
    have isRational := rationalValues fterm
    cases value : valuation fterm with
    | nan => exact absurd value defined
    | negInf =>
        rw [value] at isRational
        exact isRational.elim
    | posInf =>
        rw [value] at isRational
        exact isRational.elim
    | finite v =>
        rw [FunctionExpression.fterms] at terms
        obtain ⟨l, u, between, _, listedL, listedU⟩ :=
          terms fterm (List.mem_singleton_self fterm) v value
        refine ⟨l, u, between, ?_⟩
        exact signed.imp (fun positive => positive l listedL) fun negative => negative u listedU

mutual

/-- The interval of a defined expression with safe divisors has rational bounds. -/
theorem between_consistentInterval (hulls : library.HullSpec) (spec : library.BoundsSpec)
    (propagates : library.PropagatesEmpty)
    (rationalValues : ∀ fterm, (valuation fterm).IsRational) :
    ∀ {fexpr : FunctionExpression FunctionTerm}, fexpr.IsRational →
      fexpr.NonzeroDivisors valuation → fexpr.EveryDivisor (SafeDivisor values) →
      fexpr.value valuation ≠ nan →
      (∀ fterm ∈ fexpr.fterms, Bounds (Listed values fterm) (estimate fterm) (valuation fterm)) →
      ∃ l u : ℚ, Between (library.consistentInterval estimate fexpr) l u
  | .number value, rational, _, _, defined, _ => by
      rw [FunctionExpression.IsRational] at rational
      rw [FunctionExpression.value] at defined
      rw [consistentInterval]
      cases value with
      | nan => exact absurd rfl defined
      | negInf => exact rational.elim
      | posInf => exact rational.elim
      | finite v =>
          have isPoint : IsPoint (library.closed (finite v) (finite v)) (finite v) :=
            isPoint_number hulls trivial
          exact ⟨v, v, isPoint⟩
  | .neg arg, rational, nonzero, safe, defined, terms => by
      rw [FunctionExpression.IsRational] at rational
      rw [FunctionExpression.NonzeroDivisors, FunctionExpression.EveryDivisor] at nonzero
      rw [FunctionExpression.EveryDivisor] at safe
      rw [FunctionExpression.value] at defined
      rw [FunctionExpression.fterms] at terms
      rw [consistentInterval]
      have definedArg : arg.value valuation ≠ nan := by
        intro undefined
        rw [undefined] at defined
        exact defined rfl
      obtain ⟨l, u, between⟩ := between_consistentInterval hulls spec propagates rationalValues
        rational nonzero safe definedArg terms
      exact ⟨_, _, spec.neg between⟩
  | .binary op lhs rhs, rational, nonzero, safe, defined, terms => by
      rw [FunctionExpression.IsRational] at rational
      rw [FunctionExpression.NonzeroDivisors, FunctionExpression.EveryDivisor] at nonzero
      rw [FunctionExpression.EveryDivisor] at safe
      rw [FunctionExpression.value] at defined
      rw [FunctionExpression.fterms] at terms
      rw [consistentInterval]
      have termsRhs : ∀ fterm ∈ rhs.fterms,
          Bounds (Listed values fterm) (estimate fterm) (valuation fterm) :=
        fun fterm mem => terms fterm (List.mem_append_right _ mem)
      have definedLhs : lhs.value valuation ≠ nan :=
        fun undefined => defined (op.apply_undefined (.inl undefined))
      have definedRhs : rhs.value valuation ≠ nan :=
        fun undefined => defined (op.apply_undefined (.inr undefined))
      have left := between_consistentInterval hulls spec propagates rationalValues rational.1
        nonzero.1.1 safe.1.1 definedLhs (fun fterm mem => terms fterm (List.mem_append_left _ mem))
      apply between_apply spec op left
      by_cases divides : op = .div
      · obtain ⟨l, u, between, apart⟩ := between_divisor hulls spec propagates (safe.2 divides)
          rational.2 nonzero.1.2 (nonzero.2 divides) definedRhs rationalValues termsRhs
        exact ⟨l, u, between, fun _ => apart⟩
      · obtain ⟨l, u, between⟩ := between_consistentInterval hulls spec propagates rationalValues
          rational.2 nonzero.1.2 safe.1.2 definedRhs termsRhs
        exact ⟨l, u, between, fun isDiv => absurd isDiv divides⟩
  | .multi op front rest, rational, nonzero, safe, defined, terms => by
      rw [FunctionExpression.IsRational] at rational
      rw [FunctionExpression.NonzeroDivisors, FunctionExpression.EveryDivisor] at nonzero
      rw [FunctionExpression.EveryDivisor] at safe
      rw [FunctionExpression.value] at defined
      rw [FunctionExpression.fterms] at terms
      rw [consistentInterval]
      have definedFront : front.value valuation ≠ nan := by
        intro undefined
        rw [undefined] at defined
        exact defined (FunctionExpression.fold_undefined (.inl rfl))
      have first := between_consistentInterval hulls spec propagates rationalValues rational.1
        nonzero.1 safe.1 definedFront (fun fterm mem => terms fterm (List.mem_append_left _ mem))
      exact between_accumulate hulls spec propagates rationalValues first rational.2 nonzero.2
        safe.2 defined (fun fterm mem => terms fterm (List.mem_append_right _ mem))
  | .fterm fterm, _, _, _, defined, terms => by
      rw [FunctionExpression.value] at defined
      rw [consistentInterval]
      have isRational := rationalValues fterm
      cases value : valuation fterm with
      | nan => exact absurd value defined
      | negInf =>
          rw [value] at isRational
          exact isRational.elim
      | posInf =>
          rw [value] at isRational
          exact isRational.elim
      | finite v =>
          rw [FunctionExpression.fterms] at terms
          obtain ⟨l, u, between, _⟩ := terms fterm (List.mem_singleton_self fterm) v value
          exact ⟨l, u, between⟩

theorem between_accumulate (hulls : library.HullSpec) (spec : library.BoundsSpec)
    (propagates : library.PropagatesEmpty)
    (rationalValues : ∀ fterm, (valuation fterm).IsRational) {op : MultiOp} {bounds : library.Interval} {value : Number}
    (between : ∃ l u : ℚ, Between bounds l u) :
    ∀ {rest : List (FunctionExpression FunctionTerm)}, FunctionExpression.AreRational rest →
      FunctionExpression.EveryDivisorOfList
        (fun divisor => divisor.value valuation ≠ finite 0) rest →
      FunctionExpression.EveryDivisorOfList (SafeDivisor values) rest →
      FunctionExpression.fold valuation op value rest ≠ nan →
      (∀ fterm ∈ FunctionExpression.ftermsOfList rest,
        Bounds (Listed values fterm) (estimate fterm) (valuation fterm)) →
      ∃ l u : ℚ, Between (library.accumulate estimate op bounds rest) l u
  | [], _, _, _, _, _ => by
      rw [accumulate]
      exact between
  | arg :: rest, rational, nonzero, safe, defined, terms => by
      rw [FunctionExpression.AreRational] at rational
      rw [FunctionExpression.EveryDivisorOfList] at nonzero safe
      rw [FunctionExpression.fold] at defined
      rw [FunctionExpression.ftermsOfList] at terms
      rw [accumulate]
      have definedArg : arg.value valuation ≠ nan := by
        intro undefined
        apply defined
        exact FunctionExpression.fold_undefined (.inl (op.apply_undefined (.inr undefined)))
      have next := between_consistentInterval hulls spec propagates rationalValues rational.1
        nonzero.1 safe.1 definedArg (fun fterm mem => terms fterm (List.mem_append_left _ mem))
      have both : ∃ l u : ℚ, Between
          (library.applyMulti op bounds (library.consistentInterval estimate arg)) l u := by
        obtain ⟨l, u, found⟩ := next
        cases op with
        | add => exact between_apply spec .add between ⟨l, u, found, ArithmeticOp.noConfusion⟩
        | mul => exact between_apply spec .mul between ⟨l, u, found, ArithmeticOp.noConfusion⟩
      exact between_accumulate hulls spec propagates rationalValues both rational.2 nonzero.2
        safe.2 defined (fun fterm mem => terms fterm (List.mem_append_right _ mem))

end

end

/-! ### Comparisons -/

/-- The comparison of points is the comparison. -/
theorem applyExistential_of_points {op : BooleanOp} {a b : library.Interval} {x y : Number}
    (left : IsPoint a x) (right : IsPoint b y) (defined : op = .ne → x ≠ nan ∧ y ≠ nan) :
    library.applyExistential op a b = op.apply x y := by
  have emptySide : (library.isEmpty a || library.isEmpty b) = true → x = nan ∨ y = nan →
      library.applyExistential op a b = op.apply x y := by
    intro empty undefined
    have strict : op ≠ .ne := by
      intro inequality
      obtain ⟨definedX, definedY⟩ := defined inequality
      exact undefined.elim definedX definedY
    unfold applyExistential
    rw [if_pos empty, BooleanOp.apply_undefined strict undefined]
  cases x with
  | negInf => exact left.elim
  | posInf => exact left.elim
  | nan =>
      apply emptySide _ (.inl rfl)
      rw [show library.isEmpty a = true from left, Bool.true_or]
  | finite x =>
      cases y with
      | negInf => exact right.elim
      | posInf => exact right.elim
      | nan =>
          apply emptySide _ (.inr rfl)
          rw [show library.isEmpty b = true from right, Bool.or_true]
      | finite y =>
          have left : Between a x x := left
          have right : Between b y y := right
          have same : ∀ v : ℚ, BooleanOp.eq.apply (finite v) (finite v) = true := by
            intro v
            apply BooleanOp.apply_finite.mpr
            rw [BooleanOp.HoldsWithin, sub_self, abs_zero]
            exact absEpsilon_pos.le.trans (absEpsilon_le_toleranceOf v v)
          unfold applyExistential
          rw [left.nonempty, right.nonempty, Bool.or_false,
            if_neg Bool.false_ne_true]
          rw [left.lower, left.upper, right.lower, right.upper]
          cases op with
          | eq =>
              rw [Bool.eq_iff_iff, Bool.and_eq_true, BooleanOp.apply_finite, BooleanOp.apply_finite,
                BooleanOp.apply_finite]
              simp only [BooleanOp.HoldsWithin, abs_le]
              constructor
              · rintro ⟨below, above⟩
                exact ⟨by linarith, by linarith⟩
              · rintro ⟨above, below⟩
                exact ⟨by linarith, by linarith⟩
          | ne =>
              rw [same, same]
              rfl
          | ge => rfl
          | gt => rfl
          | le => rfl
          | lt => rfl

/-- A comparison that holds of elements, up to the tolerance, is not ruled out. Strict
comparisons and the inequality need rational bounds, and the inequality elements that
are clearly apart. -/
theorem applyExistential_of_contains {enclosure : library.Enclosure} {op : BooleanOp}
    {a b : library.Interval} {x y : ℚ} (containsX : enclosure.Contains a x)
    (containsY : enclosure.Contains b y) (holds : op.HoldsWithin (toleranceOf x y) x y)
    (bounded : op = .lt ∨ op = .gt ∨ op = .ne →
      (∃ l u : ℚ, Between a l u) ∧ ∃ l u : ℚ, Between b l u)
    (apart : op = .ne → 4 * toleranceOf x y < |x - y|) :
    library.applyExistential op a b = true := by
  have lowerX := enclosure.lower_le containsX
  have upperX := enclosure.le_upper containsX
  have lowerY := enclosure.lower_le containsY
  have upperY := enclosure.le_upper containsY
  have lowerNumber : ∀ {bound : Number} {v : ℚ}, bound.le (finite v) = true → bound ≠ nan := by
    rintro bound v below rfl
    cases below
  have upperNumber : ∀ {bound : Number} {v : ℚ}, (finite v).le bound = true → bound ≠ nan := by
    rintro bound v above rfl
    cases above
  have atLeast : y ≤ x + toleranceOf x y →
      BooleanOp.ge.apply (library.upper a) (library.lower b) = true := by
    intro below
    rw [BooleanOp.ge_apply (upperNumber upperX) (lowerNumber lowerY)]
    rw [toleranceOf_comm] at below
    exact BooleanOp.le_apply_of_bounds lowerY upperX below
  unfold applyExistential
  rw [enclosure.nonempty containsX, enclosure.nonempty containsY, Bool.or_false,
    if_neg Bool.false_ne_true]
  cases op with
  | eq =>
      rw [BooleanOp.HoldsWithin, abs_le] at holds
      simp only [Bool.and_eq_true]
      exact ⟨BooleanOp.le_apply_of_bounds lowerX upperY (by linarith), atLeast (by linarith)⟩
  | ge => exact atLeast holds
  | le => exact BooleanOp.le_apply_of_bounds lowerX upperY holds
  | lt =>
      obtain ⟨⟨l, u, between⟩, l', u', between'⟩ := bounded (.inl rfl)
      rw [between.lower, finite_le] at lowerX
      rw [between'.upper, finite_le] at upperY
      simp only [between.lower, between'.upper]
      exact BooleanOp.lt_apply_of_bounds lowerX upperY holds
  | gt =>
      obtain ⟨⟨l, u, between⟩, l', u', between'⟩ := bounded (.inr (.inl rfl))
      rw [between.upper, finite_le] at upperX
      rw [between'.lower, finite_le] at lowerY
      simp only [between.upper, between'.lower]
      exact BooleanOp.gt_apply_of_bounds upperX lowerY holds
  | ne =>
      obtain ⟨⟨l, u, between⟩, l', u', between'⟩ := bounded (.inr (.inr rfl))
      rw [between.lower, finite_le] at lowerX
      rw [between.upper, finite_le] at upperX
      rw [between'.lower, finite_le] at lowerY
      rw [between'.upper, finite_le] at upperY
      simp only [between.lower, between.upper, between'.lower, between'.upper]
      split
      · next close =>
          obtain ⟨closeX, closeY⟩ := Bool.and_eq_true_iff.mp close
          apply BooleanOp.apply_finite.mpr
          exact toleranceOf_lt_of_near lowerX upperX lowerY upperY (BooleanOp.apply_finite.mp closeX)
            (BooleanOp.apply_finite.mp closeY) (apart rfl)
      · rfl

end

end IntervalLibrary

/-! ### Constraints -/

/-- What estimating a constraint takes, whatever is estimated: its numbers are finite and
no divisor is zero under the binding. A strict comparison and an inequality divide by
numbers or by function terms of one sign only. The sides of an inequality are defined,
and either equal up to the tolerance or more than four tolerances apart. -/
structure Estimable (values : FunctionValues) (binding : List Nat)
    (constraint : BooleanOperator FunctionTerm) : Prop where
  rational : constraint.IsRational
  nonzero : constraint.lhs.NonzeroDivisors (values.valuation binding) ∧
    constraint.rhs.NonzeroDivisors (values.valuation binding)
  safe : constraint.op = .lt ∨ constraint.op = .gt ∨ constraint.op = .ne →
    constraint.lhs.EveryDivisor (IntervalLibrary.SafeDivisor values) ∧
      constraint.rhs.EveryDivisor (IntervalLibrary.SafeDivisor values)
  defined : constraint.op = .ne → constraint.lhs.value (values.valuation binding) ≠ nan ∧
    constraint.rhs.value (values.valuation binding) ≠ nan
  apart : constraint.op = .ne → ∀ x y, constraint.lhs.value (values.valuation binding) = finite x →
    constraint.rhs.value (values.valuation binding) = finite y →
      |x - y| ≤ toleranceOf x y ∨ 4 * toleranceOf x y < |x - y|

/-- Some vertex or edge of the parameters of the constraint looks at views that determine
the values of all its function terms. -/
def Settled (values : FunctionValues) (binding : List Nat)
    (constraint : BooleanOperator FunctionTerm) : Prop :=
  (∃ p ∈ Constraint.collectParameters constraint, ∀ fterm ∈ Constraint.fterms constraint,
      ∃ view, VertexView fterm p view ∧ Determines values binding fterm view) ∨
    ∃ p ∈ Constraint.collectParameters constraint, ∃ q ∈ Constraint.collectParameters constraint,
      p < q ∧ ∀ fterm ∈ Constraint.fterms constraint,
        ∃ view, EdgeView fterm p q view ∧ Determines values binding fterm view

namespace IntervalLibrary

section

variable {library : IntervalLibrary} {values : FunctionValues} {binding : List Nat}
  {constraint : BooleanOperator FunctionTerm} {estimate : FunctionTerm → library.Interval}

theorem valuation_isRational (rational : values.IsRational) (binding : List Nat)
    (fterm : FunctionTerm) : (values.valuation binding fterm).IsRational := by
  cases value : values.valuation binding fterm with
  | nan => trivial
  | finite v => trivial
  | negInf => exact rational _ _ (mem_entries_of_value (by simp) value)
  | posInf => exact rational _ _ (mem_entries_of_value (by simp) value)

/-- An estimable constraint whose function terms are estimated by their values passes iff
it holds. -/
theorem consistentConstraint_of_points (hulls : library.HullSpec) (spec : library.BoundsSpec)
    (propagates : library.PropagatesEmpty) (estimable : Estimable values binding constraint)
    (points : ∀ fterm ∈ Constraint.fterms constraint,
      IsPoint (estimate fterm) (values.valuation binding fterm)) :
    library.consistentConstraint estimate constraint =
      constraint.op.apply (constraint.lhs.value (values.valuation binding))
        (constraint.rhs.value (values.valuation binding)) := by
  have left := isPoint_consistentInterval hulls spec propagates estimable.rational.1
    estimable.nonzero.1 fun fterm mem => points fterm (List.mem_append_left _ mem)
  have right := isPoint_consistentInterval hulls spec propagates estimable.rational.2
    estimable.nonzero.2 fun fterm mem => points fterm (List.mem_append_right _ mem)
  exact applyExistential_of_points left right estimable.defined

/-- An estimable constraint that holds passes if the estimates enclose the values. -/
theorem consistentConstraint_of_holds (enclosure : library.Enclosure) (hulls : library.HullSpec)
    (spec : library.BoundsSpec) (propagates : library.PropagatesEmpty)
    (rational : values.IsRational) (estimable : Estimable values binding constraint)
    (encloses : ∀ fterm, Encloses enclosure (estimate fterm) (values.valuation binding fterm))
    (bounds : ∀ fterm ∈ Constraint.fterms constraint,
      Bounds (Listed values fterm) (estimate fterm) (values.valuation binding fterm))
    (holds : constraint.op.apply (constraint.lhs.value (values.valuation binding))
      (constraint.rhs.value (values.valuation binding)) = true) :
    library.consistentConstraint estimate constraint = true := by
  have left := encloses_consistentInterval encloses estimable.rational.1
  have right := encloses_consistentInterval encloses estimable.rational.2
  rw [FunctionExpression.exactValue_eq_value _ estimable.nonzero.1] at left
  rw [FunctionExpression.exactValue_eq_value _ estimable.nonzero.2] at right
  have defined : constraint.lhs.value (values.valuation binding) ≠ nan ∧
      constraint.rhs.value (values.valuation binding) ≠ nan := by
    by_cases inequality : constraint.op = .ne
    · exact estimable.defined inequality
    · constructor
      · intro undefined
        rw [BooleanOp.apply_undefined inequality (.inl undefined)] at holds
        cases holds
      · intro undefined
        rw [BooleanOp.apply_undefined inequality (.inr undefined)] at holds
        cases holds
  have bounded : constraint.op = .lt ∨ constraint.op = .gt ∨ constraint.op = .ne →
      (∃ l u : ℚ, Between (library.consistentInterval estimate constraint.lhs) l u) ∧
        ∃ l u : ℚ, Between (library.consistentInterval estimate constraint.rhs) l u := by
    intro strict
    have safe := estimable.safe strict
    exact ⟨between_consistentInterval hulls spec propagates (valuation_isRational rational binding)
        estimable.rational.1 estimable.nonzero.1 safe.1 defined.1
        (fun fterm mem => bounds fterm (List.mem_append_left _ mem)),
      between_consistentInterval hulls spec propagates (valuation_isRational rational binding)
        estimable.rational.2 estimable.nonzero.2 safe.2 defined.2
        (fun fterm mem => bounds fterm (List.mem_append_right _ mem))⟩
  have apart := estimable.apart
  cases lhs : constraint.lhs.value (values.valuation binding) with
  | nan => exact absurd lhs defined.1
  | negInf =>
      rw [lhs] at left
      exact left.elim
  | posInf =>
      rw [lhs] at left
      exact left.elim
  | finite x =>
      cases rhs : constraint.rhs.value (values.valuation binding) with
      | nan => exact absurd rhs defined.2
      | negInf =>
          rw [rhs] at right
          exact right.elim
      | posInf =>
          rw [rhs] at right
          exact right.elim
      | finite y =>
          rw [lhs] at left
          rw [rhs] at right
          rw [lhs, rhs] at holds
          have within := BooleanOp.apply_finite.mp holds
          apply applyExistential_of_contains left right within bounded
          intro inequality
          rw [inequality, BooleanOp.HoldsWithin] at within
          exact (apart inequality x y lhs rhs).resolve_left (not_le.mpr within)

end

end IntervalLibrary

/-! ### Matching -/

namespace ConstRuleWorkspace

variable {cws : ConstRuleWorkspace}

/-- The parameters of the constraints are those of the rule, and the domains of the
functions cover what the rule can ask for and all listed values. -/
structure CoversFunctions (cws : ConstRuleWorkspace)
    (functionDomains : FactKind → Nat → List (List Nat)) (values : FunctionValues) : Prop where
  closed : ∀ constraint ∈ cws.rule.body.numericConstraints,
    ∀ p ∈ Constraint.collectParameters constraint, p < cws.rule.arity
  arity : ∀ constraint ∈ cws.rule.body.numericConstraints, ∀ fterm ∈ Constraint.fterms constraint,
    fterm.terms.length = (functionDomains fterm.kind fterm.function).length
  covered : ∀ constraint ∈ cws.rule.body.numericConstraints,
    ∀ fterm ∈ Constraint.fterms constraint, ∀ position term,
      fterm.terms[position]? = some term → ∀ object ∈ termDomain cws.parameterDomains term,
        object ∈ (functionDomains fterm.kind fterm.function).getD position []
  full : ∀ kind, ∀ entry ∈ values.entries kind,
    entry.1.objects.length = (functionDomains kind entry.1.relation).length

variable {functionDomains : FactKind → Nat → List (List Nat)} {values : FunctionValues}
  {binding : List Nat} {constraint : BooleanOperator FunctionTerm}

open IntervalLibrary

theorem extends_vertexOf (inDomains : cws.InDomains binding) {p : Nat} (inRange : p < cws.rule.arity) :
    IntervalLibrary.Extends binding (vertexOf binding p) := by
  have found : p < binding.length := inDomains.1 ▸ inRange
  rw [IntervalLibrary.Extends, vertexOf, List.getD_eq_getElem _ _ found]
  exact List.getElem?_eq_getElem found

theorem CoversFunctions.within (covers : cws.CoversFunctions functionDomains values)
    (inDomains : cws.InDomains binding) (inBody : constraint ∈ cws.rule.body.numericConstraints)
    {fterm : FunctionTerm} (occurs : fterm ∈ Constraint.fterms constraint) :
    WithinDomains functionDomains values binding fterm where
  arity := covers.arity constraint inBody fterm occurs
  full entry mem same := by
    rw [covers.full fterm.kind entry mem, same]
  covered i object found := by
    rw [groundObjects, List.getElem?_map, Option.map_eq_some_iff] at found
    obtain ⟨term, isTerm, isObject⟩ := found
    apply covers.covered constraint inBody fterm occurs i term isTerm
    cases term with
    | object index =>
        rw [Term.ground] at isObject
        rw [termDomain, isObject]
        exact List.mem_singleton_self object
    | parameter index =>
        rw [Term.ground] at isObject
        have collected : index ∈ Constraint.collectParameters constraint :=
          List.mem_flatMap.mpr ⟨fterm, occurs,
            mem_parametersOfTerms.mpr (List.mem_of_getElem? isTerm)⟩
        rw [termDomain, ← isObject]
        exact inDomains.2 index (covers.closed constraint inBody index collected)

theorem mem_unary_numericConstraints :
    constraint ∈ cws.unaryOverapproximation.numericConstraints ↔
      constraint ∈ cws.rule.body.numericConstraints ∧ 1 ≤ Constraint.parameterArity constraint := by
  rw [unaryOverapproximation, ConjunctiveCondition.overapproximation, ConjunctiveCondition.filter,
    List.mem_filter, decide_eq_true_iff, Constraint.kpkcArity_eq_parameterArity]

theorem mem_binary_numericConstraints :
    constraint ∈ cws.binaryOverapproximation.numericConstraints ↔
      constraint ∈ cws.rule.body.numericConstraints ∧ 2 ≤ Constraint.parameterArity constraint := by
  rw [binaryOverapproximation, ConjunctiveCondition.overapproximation, ConjunctiveCondition.filter,
    List.mem_filter, decide_eq_true_iff, Constraint.kpkcArity_eq_parameterArity]

/-- The vertices of a parameter of a constraint are tested. -/
theorem unaryRuntime_of_mem (inUnary : constraint ∈ cws.unaryOverapproximation.numericConstraints)
    {p : Nat} (mem : p ∈ Constraint.collectParameters constraint) : cws.unaryRuntime p = true := by
  rw [unaryRuntime, Bool.or_eq_true, List.any_eq_true, List.any_eq_true]
  exact .inr ⟨constraint, inUnary, List.contains_iff_mem.mpr mem⟩

/-- The edges between two parameters of a constraint are tested. -/
theorem binaryRuntime_of_mem
    (inBinary : constraint ∈ cws.binaryOverapproximation.numericConstraints) {p q : Nat}
    (memP : p ∈ Constraint.collectParameters constraint)
    (memQ : q ∈ Constraint.collectParameters constraint) (different : p ≠ q) :
    cws.hasDependency p q = true ∧ cws.binaryRuntime p q = true := by
  have related : (cws.binaryOverapproximation.numericConstraints.any fun c =>
      Constraint.mentions c p && Constraint.mentions c q) = true := by
    rw [List.any_eq_true]
    exact ⟨constraint, inBinary,
      Bool.and_eq_true_iff.mpr ⟨List.contains_iff_mem.mpr memP, List.contains_iff_mem.mpr memQ⟩⟩
  have apart : (p != q) = true := bne_iff_ne.mpr different
  constructor
  · rw [hasDependency, apart, related, Bool.true_and, Bool.or_true]
  · rw [binaryRuntime, apart, related, Bool.true_and, Bool.or_true]

section

variable {library : IntervalLibrary} {facts : FactSets}

/-- A settled constraint holds if the estimates of the binding pass. -/
theorem holds_of_estimatesPass (hulls : library.HullSpec) (spec : library.BoundsSpec)
    (propagates : library.PropagatesEmpty) (rational : values.IsRational)
    (covers : cws.CoversFunctions functionDomains values) (inDomains : cws.InDomains binding)
    (inBody : constraint ∈ cws.rule.body.numericConstraints)
    (estimable : Estimable values binding constraint) (settled : Settled values binding constraint)
    (passes : cws.EstimatesPass (library.overapproximation functionDomains values) facts binding) :
    constraint.op.apply (constraint.lhs.value (values.valuation binding))
      (constraint.rhs.value (values.valuation binding)) = true := by
  rcases settled with ⟨p, memP, determined⟩ | ⟨p, memP, q, memQ, before, determined⟩
  · have some : 1 ≤ Constraint.parameterArity constraint :=
      List.length_pos_of_mem (List.mem_dedup.mpr memP)
    have inUnary := mem_unary_numericConstraints.mpr ⟨inBody, some⟩
    have inRange := covers.closed constraint inBody p memP
    have passed := passes.vertex p inRange (unaryRuntime_of_mem inUnary memP) constraint inUnary
    rw [← consistentConstraint_of_points hulls spec propagates estimable]
    · exact passed
    · intro fterm occurs
      obtain ⟨view, ofVertex, determines⟩ := determined fterm occurs
      exact vertexInterval_isPoint hulls spec rational (covers.within inDomains inBody occurs)
        (extends_vertexOf inDomains inRange) ofVertex determines
  · have both : 2 ≤ Constraint.parameterArity constraint := by
      have twice : [p, q] ⊆ (Constraint.collectParameters constraint).dedup := by
        intro parameter mem
        rw [List.mem_dedup]
        rcases List.mem_cons.mp mem with rfl | mem
        · exact memP
        · rw [List.mem_singleton.mp mem]
          exact memQ
      have distinct : [p, q].Nodup := by simpa using before.ne
      exact (distinct.subperm twice).length_le
    have inBinary := mem_binary_numericConstraints.mpr ⟨inBody, both⟩
    have inRange := covers.closed constraint inBody q memQ
    obtain ⟨dependency, runtime⟩ := binaryRuntime_of_mem inBinary memP memQ before.ne
    have passed := passes.edge p q before inRange dependency runtime constraint inBinary
    rw [← consistentConstraint_of_points hulls spec propagates estimable]
    · exact passed
    · intro fterm occurs
      obtain ⟨view, ofEdge, determines⟩ := determined fterm occurs
      exact edgeInterval_isPoint hulls spec rational (covers.within inDomains inBody occurs)
        before.ne (extends_vertexOf inDomains (before.trans inRange))
        (extends_vertexOf inDomains inRange) ofEdge determines

/-- The estimates of a binding pass if its constraints hold. -/
theorem estimatesPass_of_holds (enclosure : library.Enclosure) (hulls : library.HullSpec)
    (spec : library.BoundsSpec) (propagates : library.PropagatesEmpty)
    (rational : values.IsRational) (covers : cws.CoversFunctions functionDomains values)
    (inDomains : cws.InDomains binding)
    (estimable : ∀ constraint ∈ cws.rule.body.numericConstraints,
      1 ≤ Constraint.parameterArity constraint → Estimable values binding constraint)
    (holds : ∀ constraint ∈ cws.rule.body.numericConstraints,
      constraint.op.apply (constraint.lhs.value (values.valuation binding))
        (constraint.rhs.value (values.valuation binding)) = true) :
    cws.EstimatesPass (library.overapproximation functionDomains values) facts binding := by
  constructor
  · intro p inRange _ constraint inUnary
    obtain ⟨inBody, some⟩ := mem_unary_numericConstraints.mp inUnary
    have extending := extends_vertexOf inDomains inRange
    apply consistentConstraint_of_holds enclosure hulls spec propagates rational
      (estimable constraint inBody some) _ _ (holds constraint inBody)
    · intro fterm
      exact encloses_valuation rational fun v covered => vertexInterval_contains covered extending
    · intro fterm occurs
      exact vertexInterval_bounds hulls spec rational (covers.within inDomains inBody occurs) extending
  · intro p q before inRange _ _ constraint inBinary
    obtain ⟨inBody, both⟩ := mem_binary_numericConstraints.mp inBinary
    have extendsFirst := extends_vertexOf inDomains (before.trans inRange)
    have extendsSecond := extends_vertexOf inDomains inRange
    apply consistentConstraint_of_holds enclosure hulls spec propagates rational
      (estimable constraint inBody (by omega)) _ _ (holds constraint inBody)
    · intro fterm
      exact encloses_valuation rational fun v covered =>
        edgeInterval_contains covered before.ne extendsFirst extendsSecond
    · intro fterm occurs
      exact edgeInterval_bounds hulls spec rational (covers.within inDomains inBody occurs)
        before.ne extendsFirst extendsSecond

end

end ConstRuleWorkspace

/-- The rule `h(x) :- p(x), f(x, x) >= 3` over the objects 0 and 1. -/
def diagonalRule : ConstRuleWorkspace where
  rule := ⟨1, { fluentLiterals := [⟨⟨0, [.parameter 0]⟩, true⟩],
                numericConstraints := [⟨.ge, .fterm ⟨.fluent, 0, [.parameter 0, .parameter 0]⟩,
                  .number (.finite 3)⟩] },
    ⟨1, [.parameter 0]⟩, 0⟩
  parameterDomains := [[0, 1]]
  predicateDomains _ _ := [[0, 1]]
  closed kind literal mem index isTerm := by
    cases kind with
    | static => cases mem
    | fluent =>
        obtain rfl := List.mem_singleton.mp mem
        simp only [List.mem_singleton, Term.parameter.injEq] at isTerm
        subst isTerm
        exact Nat.zero_lt_one
  full kind literal mem := by
    cases kind with
    | static => cases mem
    | fluent =>
        obtain rfl := List.mem_singleton.mp mem
        rfl
  covered kind literal mem position term found object isObject := by
    cases kind with
    | static => cases mem
    | fluent =>
        obtain rfl := List.mem_singleton.mp mem
        match position with
        | 0 =>
            cases found
            exact isObject
        | _ + 1 => cases found

/-- The fact `p(0)`. -/
def singleFact : TypedFactSets diagonalRule.predicateDomains where
  predicate
    | .static => []
    | .fluent => [⟨0, [0]⟩]
  function _ _ := .nan
  full kind fact mem := by
    cases kind with
    | static => cases mem
    | fluent =>
        obtain rfl := List.mem_singleton.mp mem
        rfl

/-- The values `f(0, 0) = diagonal` and `f(0, 1) = f(1, 0) = 5`. -/
def diagonalValues (diagonal : ℚ) : FunctionValues where
  entries
    | .static => []
    | .fluent => [(⟨0, [0, 0]⟩, .finite diagonal), (⟨0, [0, 1]⟩, .finite 5), (⟨0, [1, 0]⟩, .finite 5)]
  nodup kind := by
    cases kind <;> simp

/-- The rule `h(x, y) :- p(x), f(x, y) > 3` over the objects 0 and 1. -/
def pairRule : ConstRuleWorkspace where
  rule := ⟨2, { fluentLiterals := [⟨⟨0, [.parameter 0]⟩, true⟩],
                numericConstraints := [⟨.gt, .fterm ⟨.fluent, 0, [.parameter 0, .parameter 1]⟩,
                  .number (.finite 3)⟩] },
    ⟨1, [.parameter 0, .parameter 1]⟩, 0⟩
  parameterDomains := [[0, 1], [0, 1]]
  predicateDomains _ _ := [[0, 1]]
  closed kind literal mem index isTerm := by
    cases kind with
    | static => cases mem
    | fluent =>
        obtain rfl := List.mem_singleton.mp mem
        simp only [List.mem_singleton, Term.parameter.injEq] at isTerm
        subst isTerm
        exact Nat.zero_lt_two
  full kind literal mem := by
    cases kind with
    | static => cases mem
    | fluent =>
        obtain rfl := List.mem_singleton.mp mem
        rfl
  covered kind literal mem position term found object isObject := by
    cases kind with
    | static => cases mem
    | fluent =>
        obtain rfl := List.mem_singleton.mp mem
        match position with
        | 0 =>
            cases found
            exact isObject
        | _ + 1 => cases found

/-- The fact `p(0)`. -/
def pairFact : TypedFactSets pairRule.predicateDomains where
  predicate
    | .static => []
    | .fluent => [⟨0, [0]⟩]
  function _ _ := .nan
  full kind fact mem := by
    cases kind with
    | static => cases mem
    | fluent =>
        obtain rfl := List.mem_singleton.mp mem
        rfl

end Tyr.Datalog
