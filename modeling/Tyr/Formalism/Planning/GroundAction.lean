import Tyr.Formalism.FunctionExpression

/-!
Ground conditions, effects and actions.

Ground atoms, ground function terms and finite-domain variables are their
indices in the repository. The expressions of a ground action come from lifted
ones, which range over static and fluent function terms; only a metric can also
mention the auxiliary function `total-cost`.
-/

namespace Tyr.Formalism.Planning

/-- A value of a finite-domain variable; `FDRValue.none` stands for no atom. -/
abbrev FDRValue := Nat

def FDRValue.none : FDRValue := 0

/-- A finite-domain variable has a value. -/
structure FDRFact where
  var : Nat
  value : FDRValue
deriving DecidableEq, Repr

structure GroundLiteral where
  atom : Nat
  polarity : Bool
deriving DecidableEq, Repr

/-- The function terms of a ground action. -/
inductive GroundFunctionTerm where
  | static (index : Nat)
  | fluent (index : Nat)
deriving DecidableEq, Repr

/-- The function terms of a metric. -/
inductive MetricFunctionTerm where
  | state (fterm : GroundFunctionTerm)
  | auxiliary
deriving DecidableEq, Repr

/-- The families of numeric effects that may target one function term together. -/
inductive EffectFamily where
  | none
  | assign
  | increaseDecrease
  | scaleUpScaleDown
deriving DecidableEq, Repr

/-- The first effect on a term is accepted, and a further one of the same family
unless it assigns. -/
def isCompatibleEffectFamily (lhs rhs : EffectFamily) : Bool :=
  if lhs = .none ∨ rhs = .none then true
  else if lhs = rhs then lhs != .assign
  else false

inductive NumericEffectOp where
  | assign
  | increase
  | decrease
  | scaleUp
  | scaleDown
deriving DecidableEq, Repr

namespace NumericEffectOp

def family : NumericEffectOp → EffectFamily
  | assign => .assign
  | increase | decrease => .increaseDecrease
  | scaleUp | scaleDown => .scaleUpScaleDown

/-- `formalism::planning::apply`. -/
def apply : NumericEffectOp → Number → Number → Number
  | assign, _, rhs => rhs
  | increase, lhs, rhs => lhs + rhs
  | decrease, lhs, rhs => lhs - rhs
  | scaleUp, lhs, rhs => lhs * rhs
  | scaleDown, lhs, rhs => lhs / rhs

end NumericEffectOp

/-- A numeric effect on a fluent function term. -/
structure GroundNumericEffect where
  op : NumericEffectOp
  fterm : Nat
  fexpr : FunctionExpression GroundFunctionTerm

structure GroundConjunctiveCondition where
  staticLiterals : List GroundLiteral := []
  positiveFacts : List FDRFact := []
  negativeFacts : List FDRFact := []
  derivedLiterals : List GroundLiteral := []
  numericConstraints : List (BooleanOperator GroundFunctionTerm) := []

/-- The auxiliary numeric effect increases `total-cost` by its expression. -/
structure GroundConjunctiveEffect where
  negativeFacts : List FDRFact := []
  positiveFacts : List FDRFact := []
  numericEffects : List GroundNumericEffect := []
  auxiliaryNumericEffect : Option (FunctionExpression GroundFunctionTerm) := none

structure GroundConditionalEffect where
  condition : GroundConjunctiveCondition := {}
  effect : GroundConjunctiveEffect

structure GroundAction where
  condition : GroundConjunctiveCondition := {}
  effects : List GroundConditionalEffect

end Tyr.Formalism.Planning
