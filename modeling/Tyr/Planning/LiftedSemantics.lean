import Tyr.Formalism.Planning.LiftedTask
import Tyr.Lib.StratifiedModel

/-!
The states and runs of a lifted task.

A state is a set of fluent atoms and a value for each fluent function term. The
derived atoms of a state are those of the perfect model of the axioms. An action
is applied under a binding: all instances of its conditional effects whose condition
holds delete and add their atoms, and an atom that is both stays.

What the numeric parts mean is left open, so that results hold for the evaluators
of the source as well as for mathematical ones.

* `Reachable` — the states of all runs.
* `Run` — the runs from a state.
* `mem_successor`, `mem_derivedAtoms` — where atoms come from.
-/

namespace Tyr.Planning

open Tyr.Lib Tyr.Formalism Tyr.Formalism.Planning

structure LiftedState where
  fluentAtoms : Set Tuple
  fluentValues : Tuple → Number

/-- The layers in which the axioms are evaluated, and the meaning of constraints and
numeric effects. -/
structure TaskSemantics (task : LiftedTask) where
  axiomLayers : List (List Axiom)
  mem_axioms : ∀ layer ∈ axiomLayers, ∀ ax ∈ layer, ax ∈ task.axioms
  constraintHolds : (FunctionTerm → Number) → BooleanOperator FunctionTerm → Prop
  effectsAccepted : LiftedState → Action → List Nat → Prop
  successorValues : LiftedState → Action → List Nat → Tuple → Number

namespace TaskSemantics

variable {task : LiftedTask} (semantics : TaskSemantics task) (state : LiftedState)

/-! ### Conditions -/

/-- The value of a function term under a binding. -/
def value (task : LiftedTask) (state : LiftedState) (binding : List Nat) : FunctionTerm → Number
  | .static function terms => task.staticValue ⟨function, terms.map (Term.ground binding)⟩
  | .fluent function terms => state.fluentValues ⟨function, terms.map (Term.ground binding)⟩

/-- The condition holds apart from its derived literals. -/
structure HoldsUnderived (binding : List Nat) (condition : ConjunctiveCondition) : Prop where
  static : ∀ literal ∈ condition.staticLiterals, literal.HoldsIn {atom | atom ∈ task.staticAtoms} binding
  fluent : ∀ literal ∈ condition.fluentLiterals, literal.HoldsIn state.fluentAtoms binding
  numeric : ∀ constraint ∈ condition.numericConstraints,
    semantics.constraintHolds (value task state binding) constraint

/-- The instances of the axioms of a layer. -/
def axiomClauses (layer : List Axiom) : Set (Clause Tuple) :=
  {clause | ∃ ax ∈ layer, ∃ binding, task.IsBinding ax.arity binding ∧
    semantics.HoldsUnderived state binding ax.body ∧
    clause =
      { head := ax.head.ground binding
        positive := (ax.body.derivedLiterals.filter Literal.polarity).map (·.atom.ground binding)
        negative := (ax.body.derivedLiterals.filter (!·.polarity)).map (·.atom.ground binding) }}

def derivedAtoms : Set Tuple :=
  perfectModel (semantics.axiomLayers.map (semantics.axiomClauses state)) ∅

structure Holds (binding : List Nat) (condition : ConjunctiveCondition) : Prop
    extends semantics.HoldsUnderived state binding condition where
  derived : ∀ literal ∈ condition.derivedLiterals,
    literal.HoldsIn (semantics.derivedAtoms state) binding

/-! ### Actions -/

/-- The action can be applied under the binding. -/
structure Applicable (action : Action) (binding : List Nat) : Prop where
  known : action ∈ task.actions
  isBinding : task.IsBinding action.arity binding
  condition : semantics.Holds state binding action.condition
  accepted : semantics.effectsAccepted state action binding

/-- The instance of the conditional effect fires. -/
structure Fires (binding : List Nat) (effect : ConditionalEffect) (objects : List Nat) : Prop where
  isBinding : task.IsBinding effect.arity objects
  condition : semantics.Holds state (binding ++ objects) effect.condition

/-- A literal of the given polarity of a firing effect is about the atom. -/
def Changes (polarity : Bool) (action : Action) (binding : List Nat) (atom : Tuple) : Prop :=
  ∃ effect ∈ action.effects, ∃ objects, semantics.Fires state binding effect objects ∧
    ∃ literal ∈ effect.effect.literals, literal.polarity = polarity ∧
      literal.atom.ground (binding ++ objects) = atom

def successor (action : Action) (binding : List Nat) : LiftedState where
  fluentAtoms := {atom | semantics.Changes state true action binding atom ∨
    (atom ∈ state.fluentAtoms ∧ ¬ semantics.Changes state false action binding atom)}
  fluentValues := semantics.successorValues state action binding

def initial (task : LiftedTask) : LiftedState where
  fluentAtoms := {atom | atom ∈ task.fluentAtoms}
  fluentValues fterm := (task.fluentFtermValues.lookup fterm).getD .nan

inductive Reachable : LiftedState → Prop where
  | initial : Reachable (initial task)
  | successor {state : LiftedState} {action : Action} {binding : List Nat} : Reachable state →
      semantics.Applicable state action binding → Reachable (semantics.successor state action binding)

/-- The runs from a state to a state, with their steps. -/
inductive Run : LiftedState → List (Action × List Nat) → LiftedState → Prop where
  | nil {state : LiftedState} : Run state [] state
  | cons {state last : LiftedState} {action : Action} {binding : List Nat}
      {steps : List (Action × List Nat)} : semantics.Applicable state action binding →
      Run (semantics.successor state action binding) steps last →
      Run state ((action, binding) :: steps) last

/-! ### Where atoms come from -/

variable {semantics state}

theorem mem_successor {action : Action} {binding : List Nat} {atom : Tuple}
    (holds : atom ∈ (semantics.successor state action binding).fluentAtoms) :
    semantics.Changes state true action binding atom ∨ atom ∈ state.fluentAtoms :=
  holds.imp_right And.left

/-- A derived atom is the head of an instance of an axiom. -/
theorem mem_derivedAtoms {atom : Tuple} (derived : atom ∈ semantics.derivedAtoms state) :
    ∃ ax ∈ task.axioms, ∃ binding, task.IsBinding ax.arity binding ∧
      semantics.HoldsUnderived state binding ax.body ∧ ax.head.ground binding = atom := by
  have heads : semantics.derivedAtoms state ⊆ {atom | ∃ ax ∈ task.axioms, ∃ binding,
      task.IsBinding ax.arity binding ∧ semantics.HoldsUnderived state binding ax.body ∧
        ax.head.ground binding = atom} := by
    apply perfectModel_subset (Set.empty_subset _)
    intro clauses mem clause memClause _
    obtain ⟨layer, memLayer, rfl⟩ := List.mem_map.mp mem
    obtain ⟨ax, memAx, binding, isBinding, holds, rfl⟩ := memClause
    exact ⟨ax, semantics.mem_axioms layer memLayer ax memAx, binding, isBinding, holds, rfl⟩
  exact heads derived

end TaskSemantics

end Tyr.Planning
