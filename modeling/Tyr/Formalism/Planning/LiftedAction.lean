import Tyr.Formalism.Atom
import Tyr.Formalism.Planning.GroundAction

/-!
Lifted conditions, effects and actions.

The parameters of an action are numbered from zero, and the quantified variables
of a conditional effect follow them.
-/

namespace Tyr.Formalism.Planning

/-- The function terms of an action. -/
inductive FunctionTerm where
  | static (function : Nat) (terms : List Term)
  | fluent (function : Nat) (terms : List Term)
deriving DecidableEq, Repr

/-- A numeric effect on a fluent function term. -/
structure NumericEffect where
  op : NumericEffectOp
  function : Nat
  terms : List Term
  fexpr : FunctionExpression FunctionTerm

structure ConjunctiveCondition where
  staticLiterals : List Literal := []
  fluentLiterals : List Literal := []
  derivedLiterals : List Literal := []
  numericConstraints : List (BooleanOperator FunctionTerm) := []

/-- The auxiliary numeric effect increases `total-cost` by its expression. -/
structure ConjunctiveEffect where
  literals : List Literal := []
  numericEffects : List NumericEffect := []
  auxiliaryNumericEffect : Option (FunctionExpression FunctionTerm) := none

/-- An effect with `arity` quantified variables. -/
structure ConditionalEffect where
  arity : Nat := 0
  condition : ConjunctiveCondition := {}
  effect : ConjunctiveEffect

namespace FunctionTerm

def terms : FunctionTerm → List Term
  | static _ terms => terms
  | fluent _ terms => terms

end FunctionTerm

namespace ConjunctiveCondition

/-- All terms of a condition. -/
def terms (condition : ConjunctiveCondition) : List Term :=
  (condition.staticLiterals ++ condition.fluentLiterals ++ condition.derivedLiterals).flatMap
      (fun literal => literal.atom.terms) ++
    condition.numericConstraints.flatMap (fun constraint =>
      (constraint.lhs.fterms ++ constraint.rhs.fterms).flatMap FunctionTerm.terms)

/-- A condition without literals and constraints mentions no parameter. -/
theorem closed_empty : ∀ index,
    Term.parameter index ∈ ({} : ConjunctiveCondition).terms → index < 0 :=
  fun _ occurs => absurd occurs List.not_mem_nil

end ConjunctiveCondition

/-- An action schema. Its precondition mentions the parameters of the action only. -/
structure Action where
  arity : Nat
  condition : ConjunctiveCondition := {}
  effects : List ConditionalEffect
  closed : ∀ index, Term.parameter index ∈ condition.terms → index < arity

end Tyr.Formalism.Planning
