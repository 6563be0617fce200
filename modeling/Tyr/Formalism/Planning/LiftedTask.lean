import Tyr.Formalism.Occurrence
import Tyr.Formalism.Planning.LiftedAction

/-!
Lifted tasks.

The predicates and functions are known by their indices, one index space for each
kind. The constants of the domain come before the objects of the problem, and the
axioms of the domain before those of the problem.
-/

namespace Tyr.Formalism.Planning

/-- An axiom derives its head if its body holds. -/
structure Axiom where
  arity : Nat
  head : Atom
  body : ConjunctiveCondition

/-- `staticAtoms` and the like are the initial ones. What effects and axioms derive
mentions their own parameters only. -/
structure LiftedTask where
  objects : List Nat
  arity : Symbol → Nat
  staticAtoms : List Tuple
  fluentAtoms : List Tuple
  staticFtermValues : List (Tuple × Number)
  fluentFtermValues : List (Tuple × Number)
  actions : List Action
  axioms : List Axiom
  goal : ConjunctiveCondition
  effects_closed : ∀ action ∈ actions, ∀ effect ∈ action.effects, ∀ literal ∈ effect.effect.literals,
    ∀ index, .parameter index ∈ literal.atom.terms → index < action.arity + effect.arity
  heads_closed : ∀ ax ∈ axioms, ∀ index, .parameter index ∈ ax.head.terms → index < ax.arity

namespace LiftedTask

/-- The value of a static function term, not a number if it is not listed. -/
def staticValue (task : LiftedTask) (fterm : Tuple) : Number :=
  (task.staticFtermValues.lookup fterm).getD .nan

/-- A list of objects for `arity` parameters. -/
structure IsBinding (task : LiftedTask) (arity : Nat) (binding : List Nat) : Prop where
  length : binding.length = arity
  objects : ∀ object ∈ binding, object ∈ task.objects

end LiftedTask

/-- The static and fluent literals have one term for each position of their predicate
and mention the given parameters only. -/
structure ConjunctiveCondition.Typed (arity : Symbol → Nat) (parameters : Nat)
    (condition : ConjunctiveCondition) : Prop where
  static : ∀ literal ∈ condition.staticLiterals,
    literal.atom.terms.length = arity (.staticPredicate literal.atom.predicate) ∧
      ∀ index, .parameter index ∈ literal.atom.terms → index < parameters
  fluent : ∀ literal ∈ condition.fluentLiterals,
    literal.atom.terms.length = arity (.fluentPredicate literal.atom.predicate) ∧
      ∀ index, .parameter index ∈ literal.atom.terms → index < parameters

/-- A task whose atoms have one object for each position of their predicate. -/
structure TypedTask extends LiftedTask where
  staticAtoms_typed : ∀ atom ∈ staticAtoms,
    atom.objects.length = arity (.staticPredicate atom.relation)
  fluentAtoms_typed : ∀ atom ∈ fluentAtoms,
    atom.objects.length = arity (.fluentPredicate atom.relation)
  preconditions_typed : ∀ action ∈ actions, action.condition.Typed arity action.arity
  conditions_typed : ∀ action ∈ actions, ∀ effect ∈ action.effects,
    effect.condition.Typed arity (action.arity + effect.arity)
  effects_typed : ∀ action ∈ actions, ∀ effect ∈ action.effects, ∀ literal ∈ effect.effect.literals,
    literal.atom.terms.length = arity (.fluentPredicate literal.atom.predicate)

end Tyr.Formalism.Planning
