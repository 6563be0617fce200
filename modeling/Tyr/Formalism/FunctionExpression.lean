import Tyr.Common.Number

/-!
Function expressions and numeric constraints.

An expression is built from numbers, function terms and operators. It is generic
in the type of its function terms, which are lifted in an action schema and
ground in a ground action or a metric.

* `evaluate` — what the evaluators of the source compute: an n-ary operator
  multiplies its arguments, whichever operator it is.
* `value` — the mathematical value of an expression.
* `evaluate_eq_value` — the two agree on expressions without n-ary sums.
-/

namespace Tyr.Formalism

/-- The binary arithmetic operators. -/
inductive ArithmeticOp where
  | add
  | sub
  | mul
  | div
deriving DecidableEq, Repr

/-- The n-ary arithmetic operators. -/
inductive MultiOp where
  | add
  | mul
deriving DecidableEq, Repr

/-- The comparison operators. -/
inductive BooleanOp where
  | eq
  | ne
  | ge
  | gt
  | le
  | lt
deriving DecidableEq, Repr

namespace ArithmeticOp

/-- `formalism::apply` on two arguments. -/
def apply : ArithmeticOp → Number → Number → Number
  | add, lhs, rhs => lhs + rhs
  | sub, lhs, rhs => lhs - rhs
  | mul, lhs, rhs => lhs * rhs
  | div, lhs, rhs => lhs / rhs

end ArithmeticOp

namespace MultiOp

def apply : MultiOp → Number → Number → Number
  | add => ArithmeticOp.apply .add
  | mul => ArithmeticOp.apply .mul

end MultiOp

namespace BooleanOp

/-- `formalism::apply` of a comparison: the operands are compared up to their
tolerance (`FloatCmp`). -/
def apply (op : BooleanOp) (lhs rhs : Number) : Bool :=
  let tol := Number.tolerance lhs rhs
  match op with
  | eq => Number.le (lhs - rhs).abs tol
  | ne => !Number.le (lhs - rhs).abs tol
  | ge => Number.le rhs (lhs + tol)
  | gt => Number.lt (rhs + tol) lhs
  | le => Number.le lhs (rhs + tol)
  | lt => Number.lt lhs (rhs - tol)

end BooleanOp

/-- A function expression over the function terms `FTerm`. An n-ary operator has
at least one argument. -/
inductive FunctionExpression (FTerm : Type*) where
  | number (value : Number)
  | neg (arg : FunctionExpression FTerm)
  | binary (op : ArithmeticOp) (lhs rhs : FunctionExpression FTerm)
  | multi (op : MultiOp) (front : FunctionExpression FTerm) (rest : List (FunctionExpression FTerm))
  | fterm (t : FTerm)

/-- A comparison of two function expressions. -/
structure BooleanOperator (FTerm : Type*) where
  op : BooleanOp
  lhs : FunctionExpression FTerm
  rhs : FunctionExpression FTerm

namespace FunctionExpression

variable {FTerm : Type*}

/-! ### The evaluators -/

section

variable (valuation : FTerm → Number)

mutual

/-- `evaluate`: the arguments of an n-ary operator are accumulated with `OpMul`. -/
def evaluate : FunctionExpression FTerm → Number
  | number value => value
  | neg arg => -evaluate arg
  | binary op lhs rhs => op.apply (evaluate lhs) (evaluate rhs)
  | multi _ front rest => accumulate (evaluate front) rest
  | fterm t => valuation t

/-- `std::accumulate` over the remaining arguments of an n-ary operator. -/
def accumulate (init : Number) : List (FunctionExpression FTerm) → Number
  | [] => init
  | arg :: rest => accumulate (MultiOp.apply .mul init (evaluate arg)) rest

end

mutual

/-- The mathematical value of an expression. -/
def value : FunctionExpression FTerm → Number
  | number value => value
  | neg arg => -value arg
  | binary op lhs rhs => op.apply (value lhs) (value rhs)
  | multi op front rest => fold op (value front) rest
  | fterm t => valuation t

/-- The fold of an n-ary operator over its remaining arguments. -/
def fold (op : MultiOp) (init : Number) : List (FunctionExpression FTerm) → Number
  | [] => init
  | arg :: rest => fold op (op.apply init (value arg)) rest

end

end

/-! ### Expressions without n-ary sums -/

mutual

/-- No n-ary sum with two or more arguments occurs in the expression. -/
def NoMultiSum : FunctionExpression FTerm → Prop
  | number _ => True
  | neg arg => NoMultiSum arg
  | binary _ lhs rhs => NoMultiSum lhs ∧ NoMultiSum rhs
  | multi op front rest => (op = .mul ∨ rest = []) ∧ NoMultiSum front ∧ NoMultiSums rest
  | fterm _ => True

def NoMultiSums : List (FunctionExpression FTerm) → Prop
  | [] => True
  | arg :: rest => NoMultiSum arg ∧ NoMultiSums rest

end

mutual

/-- The evaluators compute the value of an expression without n-ary sums. -/
theorem evaluate_eq_value (valuation : FTerm → Number) :
    ∀ {fexpr : FunctionExpression FTerm}, fexpr.NoMultiSum →
      fexpr.evaluate valuation = fexpr.value valuation
  | number _, _ => by rw [evaluate, value]
  | neg arg, noSum => by
      rw [NoMultiSum] at noSum
      rw [evaluate, value, evaluate_eq_value valuation noSum]
  | binary op lhs rhs, noSum => by
      rw [NoMultiSum] at noSum
      rw [evaluate, value, evaluate_eq_value valuation noSum.1, evaluate_eq_value valuation noSum.2]
  | multi op front rest, noSum => by
      rw [NoMultiSum] at noSum
      obtain ⟨isMul | single, frontNoSum, restNoSum⟩ := noSum
      · rw [evaluate, value, isMul, evaluate_eq_value valuation frontNoSum]
        exact accumulate_eq_fold valuation _ restNoSum
      · rw [evaluate, value, single, evaluate_eq_value valuation frontNoSum, accumulate, fold]
  | fterm _, _ => by rw [evaluate, value]

theorem accumulate_eq_fold (valuation : FTerm → Number) (init : Number) :
    ∀ {rest : List (FunctionExpression FTerm)}, NoMultiSums rest →
      accumulate valuation init rest = fold valuation .mul init rest
  | [], _ => by rw [accumulate, fold]
  | arg :: rest, noSum => by
      rw [NoMultiSums] at noSum
      rw [accumulate, fold, evaluate_eq_value valuation noSum.1]
      exact accumulate_eq_fold valuation _ noSum.2

end

/-! ### The function terms of an expression -/

mutual

/-- The function terms that occur in an expression. -/
def fterms : FunctionExpression FTerm → List FTerm
  | number _ => []
  | neg arg => fterms arg
  | binary _ lhs rhs => fterms lhs ++ fterms rhs
  | multi _ front rest => fterms front ++ ftermsOfList rest
  | fterm t => [t]

def ftermsOfList : List (FunctionExpression FTerm) → List FTerm
  | [] => []
  | arg :: rest => fterms arg ++ ftermsOfList rest

end

mutual

/-- The value of an expression depends on its function terms only. -/
theorem value_congr {valuation valuation' : FTerm → Number} :
    ∀ {fexpr : FunctionExpression FTerm}, (∀ t ∈ fexpr.fterms, valuation t = valuation' t) →
      fexpr.value valuation = fexpr.value valuation'
  | number _, _ => by rw [value, value]
  | neg arg, agree => by
      rw [fterms] at agree
      rw [value, value, value_congr agree]
  | binary op lhs rhs, agree => by
      rw [fterms] at agree
      rw [value, value, value_congr fun t mem => agree t (List.mem_append_left _ mem),
        value_congr fun t mem => agree t (List.mem_append_right _ mem)]
  | multi op front rest, agree => by
      rw [fterms] at agree
      rw [value, value, value_congr fun t mem => agree t (List.mem_append_left _ mem)]
      exact fold_congr _ _ fun t mem => agree t (List.mem_append_right _ mem)
  | fterm t, agree => by
      rw [value, value]
      exact agree t (by rw [fterms]; exact List.mem_singleton_self t)

theorem fold_congr {valuation valuation' : FTerm → Number} (op : MultiOp) (init : Number) :
    ∀ {rest : List (FunctionExpression FTerm)},
      (∀ t ∈ ftermsOfList rest, valuation t = valuation' t) →
      fold valuation op init rest = fold valuation' op init rest
  | [], _ => by rw [fold, fold]
  | arg :: rest, agree => by
      rw [ftermsOfList] at agree
      rw [fold, fold, value_congr fun t mem => agree t (List.mem_append_left _ mem)]
      exact fold_congr op _ fun t mem => agree t (List.mem_append_right _ mem)

end

end FunctionExpression

namespace BooleanOperator

variable {FTerm : Type*}

/-- `evaluate` of a numeric constraint. -/
def evaluate (valuation : FTerm → Number) (constraint : BooleanOperator FTerm) : Bool :=
  constraint.op.apply (constraint.lhs.evaluate valuation) (constraint.rhs.evaluate valuation)

end BooleanOperator

end Tyr.Formalism
