import Mathlib.Data.Finset.Sort
import Tyr.Formalism.Datalog.Program
import Tyr.Formalism.Planning.LiftedTask

/-!
Domains of the variables and of the positions of predicates and functions.

The domains of the positions start from the initial atoms and values and the constants
of the schemas. Then each parameter is restricted to the positions of static predicates
and functions at which it occurs, and last the domains of the parameters are added to
the positions at which they occur. There is no fixpoint.

* `insertConstants`, `restrict`, `lift` — the policies.
* `TaskVariableDomains.compute`, `ProgramVariableDomains.compute` — the domains.
-/

namespace Tyr.Analysis

open Tyr.Formalism

/-- The objects of each position of each symbol. -/
abbrev DomainSets := Symbol → Nat → Finset Nat

/-- The objects of each parameter. -/
abbrev ParameterDomains := Nat → Finset Nat

namespace DomainSets

def empty : DomainSets := fun _ _ => ∅

/-- Add objects to a position. -/
def add (sets : DomainSets) (symbol : Symbol) (pos : Nat) (objects : Finset Nat) : DomainSets :=
  Function.update sets symbol (Function.update (sets symbol) pos (sets symbol pos ∪ objects))

/-- Add the objects of a tuple to the positions of its symbol. -/
def insertObjects (sets : DomainSets) (symbol : Symbol) (objects : List Nat) : DomainSets :=
  objects.zipIdx.foldl (fun sets entry => sets.add symbol entry.2 {entry.1}) sets

/-- `insert_into_predicate_domain_sets`. -/
def insertAtoms (sets : DomainSets) (predicate : Nat → Symbol) (atoms : List Tuple) : DomainSets :=
  atoms.foldl (fun sets atom => sets.insertObjects (predicate atom.relation) atom.objects) sets

/-- `insert_into_function_domain_sets`. -/
def insertFtermValues (sets : DomainSets) (function : Nat → Symbol) (values : List (Tuple × Number)) :
    DomainSets :=
  values.foldl (fun sets entry =>
    sets.insertObjects (function entry.1.relation) entry.1.objects) sets

/-- Steps 1 and 2: the initial atoms and values. -/
def ofInitial (staticAtoms fluentAtoms : List Tuple)
    (staticFtermValues fluentFtermValues : List (Tuple × Number)) : DomainSets :=
  (((empty.insertAtoms .staticPredicate staticAtoms).insertAtoms .fluentPredicate
    fluentAtoms).insertFtermValues .staticFunction staticFtermValues).insertFtermValues
      .fluentFunction fluentFtermValues

end DomainSets

/-! ### Policies -/

def isStaticFunction : Symbol → Bool
  | .staticFunction _ => true
  | _ => false

def isFluentFunction : Symbol → Bool
  | .fluentFunction _ => true
  | _ => false

/-- `InsertConstantPolicy`: add the constants to their positions. -/
def insertConstant (sets : DomainSets) (occurrence : Occurrence) : DomainSets :=
  if isFluentFunction occurrence.symbol then sets
  else
    occurrence.terms.zipIdx.foldl (fun sets entry =>
      match entry.1 with
      | .object object => sets.add occurrence.symbol entry.2 {object}
      | .parameter _ => sets) sets

/-- `RestrictPolicy`: restrict the parameters to their positions. -/
def restrict (sets : DomainSets) (domains : ParameterDomains) (occurrence : Occurrence) :
    ParameterDomains :=
  if !occurrence.polarity || isFluentFunction occurrence.symbol then domains
  else
    occurrence.terms.zipIdx.foldl (fun domains entry =>
      match entry.1 with
      | .object _ => domains
      | .parameter index =>
          Function.update domains index (domains index ∩ sets occurrence.symbol entry.2)) domains

/-- `LiftPolicy`: add the constants and the domains of the parameters to their positions. -/
def lift (domains : ParameterDomains) (sets : DomainSets) (occurrence : Occurrence) : DomainSets :=
  if isStaticFunction occurrence.symbol then sets
  else
    occurrence.terms.zipIdx.foldl (fun sets entry =>
      match entry.1 with
      | .object object => sets.add occurrence.symbol entry.2 {object}
      | .parameter index => sets.add occurrence.symbol entry.2 (domains index)) sets

/-- `to_variable_domain`. -/
def toVariableDomain (domain : Finset Nat) : List Nat := domain.sort (· ≤ ·)

/-- The domains of the first parameters as sorted lists. -/
def toVariableDomainList (arity : Nat) (domains : Nat → Finset Nat) : List (List Nat) :=
  (List.range arity).map fun index => toVariableDomain (domains index)

/-! ### Tasks -/

section

open Planning

def fterm : FunctionTerm → Occurrence
  | .static function terms => ⟨.staticFunction function, terms, true⟩
  | .fluent function terms => ⟨.fluentFunction function, terms, true⟩

/-- The function terms of a constraint in the order of the traversal. -/
def constraint (constraint : BooleanOperator FunctionTerm) : List Occurrence :=
  (constraint.lhs.fterms ++ constraint.rhs.fterms).map fterm

def constraints (condition : ConjunctiveCondition) : List Occurrence :=
  condition.numericConstraints.flatMap constraint

def staticLiterals (condition : ConjunctiveCondition) : List Occurrence :=
  condition.staticLiterals.map (Literal.occurrence .staticPredicate)

def fluentLiterals (condition : ConjunctiveCondition) : List Occurrence :=
  condition.fluentLiterals.map (Literal.occurrence .fluentPredicate)

def derivedLiterals (condition : ConjunctiveCondition) : List Occurrence :=
  condition.derivedLiterals.map (Literal.occurrence .derivedPredicate)

/-- The target of a numeric effect, and the function terms of its expression. -/
def numericEffect (effect : NumericEffect) : List Occurrence :=
  ⟨.fluentFunction effect.function, effect.terms, true⟩ :: effect.fexpr.fterms.map fterm

namespace TaskDomains

variable (task : LiftedTask)

/-- The universe: the constants and the objects. -/
def allObjects : ParameterDomains := fun _ => task.objects.toFinset

/-- Steps 1 and 2. -/
def initialSets : DomainSets :=
  .ofInitial task.staticAtoms task.fluentAtoms task.staticFtermValues task.fluentFtermValues

/-- What step 2.5 visits, in this order. -/
def constantOccurrences : List Occurrence :=
  task.actions.flatMap (fun action =>
    staticLiterals action.condition ++ constraints action.condition ++
      action.effects.flatMap fun effect =>
        staticLiterals effect.condition ++ fluentLiterals effect.condition ++
          constraints effect.condition) ++
  task.axioms.flatMap fun ax => staticLiterals ax.body ++ constraints ax.body

/-- Steps 1 to 2.5. -/
def staticSets : DomainSets := (constantOccurrences task).foldl insertConstant (initialSets task)

/-- Step 3 for one condition. -/
def restrictBy (condition : ConjunctiveCondition) (domains : ParameterDomains) : ParameterDomains :=
  (staticLiterals condition ++ constraints condition).foldl (restrict (staticSets task)) domains

def actionDomains (action : Action) : ParameterDomains :=
  restrictBy task action.condition (allObjects task)

/-- The quantified variables of an effect follow the parameters of its action. -/
def effectDomains (action : Action) (effect : ConditionalEffect) : ParameterDomains :=
  restrictBy task effect.condition (actionDomains task action)

def axiomDomains (ax : Axiom) : ParameterDomains := restrictBy task ax.body (allObjects task)

/-- What step 4 visits for an effect. -/
def effectOccurrences (effect : ConditionalEffect) : List Occurrence :=
  staticLiterals effect.condition ++ fluentLiterals effect.condition ++
    constraints effect.condition ++
    effect.effect.literals.map (Literal.occurrence .fluentPredicate) ++
    effect.effect.numericEffects.flatMap numericEffect

def liftAction (sets : DomainSets) (action : Action) : DomainSets :=
  let sets := (staticLiterals action.condition ++ fluentLiterals action.condition ++
    derivedLiterals action.condition ++ constraints action.condition).foldl
      (lift (actionDomains task action)) sets
  action.effects.foldl (fun sets effect =>
    (effectOccurrences effect).foldl (lift (effectDomains task action effect)) sets) sets

def liftAxiom (sets : DomainSets) (ax : Axiom) : DomainSets :=
  (staticLiterals ax.body ++ fluentLiterals ax.body ++ derivedLiterals ax.body ++
    constraints ax.body ++ [ax.head.occurrence .derivedPredicate]).foldl
      (lift (axiomDomains task ax)) sets

/-- The sets after step 4. -/
def liftedSets : DomainSets :=
  task.axioms.foldl (liftAxiom task) (task.actions.foldl (liftAction task) (staticSets task))

end TaskDomains

/-- The domains of the positions of the symbols and of the parameters. -/
structure TaskVariableDomains where
  symbolDomains : Symbol → List (List Nat)
  preconditionDomains : Action → List (List Nat)
  effectDomains : Action → ConditionalEffect → List (List Nat)
  axiomDomains : Axiom → List (List Nat)

/-- `compute_variable_domains` of a task. -/
def TaskVariableDomains.compute (task : LiftedTask) : TaskVariableDomains where
  symbolDomains symbol :=
    toVariableDomainList (task.arity symbol) (TaskDomains.liftedSets task symbol)
  preconditionDomains action :=
    toVariableDomainList action.arity (TaskDomains.actionDomains task action)
  effectDomains action effect :=
    toVariableDomainList (action.arity + effect.arity) (TaskDomains.effectDomains task action effect)
  axiomDomains ax := toVariableDomainList ax.arity (TaskDomains.axiomDomains task ax)

end

/-! ### Programs -/

section

open Datalog

def programFterm (fterm : FunctionTerm) : Occurrence :=
  match fterm.kind with
  | .static => ⟨.staticFunction fterm.function, fterm.terms, true⟩
  | .fluent => ⟨.fluentFunction fterm.function, fterm.terms, true⟩

def programConstraints (condition : ConjunctiveCondition) : List Occurrence :=
  condition.numericConstraints.flatMap fun constraint =>
    (constraint.lhs.fterms ++ constraint.rhs.fterms).map programFterm

def programLiterals (condition : ConjunctiveCondition) : FactKind → List Occurrence
  | .static => condition.staticLiterals.map (Literal.occurrence .staticPredicate)
  | .fluent => condition.fluentLiterals.map (Literal.occurrence .fluentPredicate)

namespace ProgramDomains

variable (program : Program)

def allObjects : ParameterDomains := fun _ => program.objects.toFinset

/-- Steps 1 and 2. -/
def initialSets : DomainSets :=
  .ofInitial program.staticAtoms program.fluentAtoms program.staticFtermValues
    program.fluentFtermValues

/-- Steps 1 to 2.5. -/
def staticSets : DomainSets :=
  (program.rules.flatMap fun rule =>
    programLiterals rule.body .static ++ programConstraints rule.body).foldl insertConstant
      (initialSets program)

/-- Step 3. -/
def ruleDomains (rule : Rule) : ParameterDomains :=
  (programLiterals rule.body .static ++ programConstraints rule.body).foldl
    (restrict (staticSets program)) (allObjects program)

def liftRule (sets : DomainSets) (rule : Rule) : DomainSets :=
  (programLiterals rule.body .static ++ programLiterals rule.body .fluent ++
    programConstraints rule.body ++ [rule.head.occurrence .fluentPredicate]).foldl
      (lift (ruleDomains program rule)) sets

/-- The sets after step 4. -/
def liftedSets : DomainSets := program.rules.foldl (liftRule program) (staticSets program)

end ProgramDomains

structure ProgramVariableDomains where
  symbolDomains : Symbol → List (List Nat)
  ruleDomains : Rule → List (List Nat)

/-- `compute_variable_domains` of a program. -/
def ProgramVariableDomains.compute (program : Program) : ProgramVariableDomains where
  symbolDomains symbol :=
    toVariableDomainList (program.arity symbol) (ProgramDomains.liftedSets program symbol)
  ruleDomains rule := toVariableDomainList rule.arity (ProgramDomains.ruleDomains program rule)

end

end Tyr.Analysis
