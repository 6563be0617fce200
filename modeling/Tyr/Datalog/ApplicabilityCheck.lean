import Tyr.Formalism.Datalog.Rule
import Mathlib.Tactic.Tauto

/-!
Bodies of rules under facts, and the residual check of a binding.

`isValidBinding` evaluates a condition under a binding. An `ApplicabilityCheck`
evaluates the nullary and the conflicting condition of a rule for one binding.
It remembers which fluent literals and numeric constraints it has not seen
satisfied yet, and later calls look at these only.
-/

namespace Tyr.Datalog

open Tyr.Formalism Tyr.Formalism.Datalog

/-- The facts and the function values. -/
structure FactSets where
  predicate : FactKind → List Tuple
  function : FactKind → Tuple → Number

namespace FactSets

variable (facts : FactSets) (binding : List Nat)

/-- `is_valid_binding` of a literal. -/
def isValidBinding (kind : FactKind) (literal : Literal) : Bool :=
  decide (literal.atom.ground binding ∈ facts.predicate kind) == literal.polarity

/-- `is_valid_binding` of a numeric constraint. -/
def isValidConstraint (constraint : BooleanOperator FunctionTerm) : Bool :=
  let valuation (fterm : FunctionTerm) : Number :=
    facts.function fterm.kind ⟨fterm.function, fterm.terms.map (Term.ground binding)⟩
  constraint.op.apply (constraint.lhs.value valuation) (constraint.rhs.value valuation)

/-- `is_valid_binding` of a condition. -/
def isValidCondition (condition : ConjunctiveCondition) : Bool :=
  condition.staticLiterals.all (facts.isValidBinding binding .static) &&
    condition.fluentLiterals.all (facts.isValidBinding binding .fluent) &&
    condition.numericConstraints.all (facts.isValidConstraint binding)

theorem isValidBinding_iff {facts : FactSets} {binding : List Nat} {kind : FactKind}
    {literal : Literal} :
    facts.isValidBinding binding kind literal = true ↔
      (literal.atom.ground binding ∈ facts.predicate kind ↔ literal.polarity = true) := by
  unfold isValidBinding
  cases literal.polarity <;> simp

theorem isValidCondition_iff {facts : FactSets} {binding : List Nat}
    {condition : ConjunctiveCondition} :
    facts.isValidCondition binding condition = true ↔
      (∀ kind, ∀ literal ∈ condition.literals kind,
        facts.isValidBinding binding kind literal = true) ∧
      ∀ constraint ∈ condition.numericConstraints,
        facts.isValidConstraint binding constraint = true := by
  simp only [isValidCondition, Bool.and_eq_true, List.all_eq_true]
  constructor
  · rintro ⟨⟨static, fluent⟩, numeric⟩
    refine ⟨fun kind => ?_, numeric⟩
    cases kind with
    | static => exact static
    | fluent => exact fluent
  · rintro ⟨literals, numeric⟩
    exact ⟨⟨literals .static, literals .fluent⟩, numeric⟩

/-- The value of a constraint depends on the tuples of its function terms only. -/
theorem isValidConstraint_congr {constraint : BooleanOperator FunctionTerm} {facts : FactSets}
    {binding binding' : List Nat}
    (same : ∀ fterm ∈ Constraint.fterms constraint,
      fterm.terms.map (Term.ground binding) = fterm.terms.map (Term.ground binding')) :
    facts.isValidConstraint binding constraint = facts.isValidConstraint binding' constraint := by
  let valuation (binding : List Nat) (fterm : FunctionTerm) : Number :=
    facts.function fterm.kind ⟨fterm.function, fterm.terms.map (Term.ground binding)⟩
  have agree : ∀ fterm ∈ Constraint.fterms constraint,
      valuation binding fterm = valuation binding' fterm := by
    intro fterm mem
    simp only [valuation, same fterm mem]
  have left : constraint.lhs.value (valuation binding) = constraint.lhs.value (valuation binding') :=
    FunctionExpression.value_congr fun fterm mem => agree fterm (List.mem_append_left _ mem)
  have right : constraint.rhs.value (valuation binding) = constraint.rhs.value (valuation binding') :=
    FunctionExpression.value_congr fun fterm mem => agree fterm (List.mem_append_right _ mem)
  exact congrArg₂ constraint.op.apply left right

/-- A constraint without parameters does not depend on the binding. -/
theorem isValidConstraint_of_parameterArity_eq_zero {constraint : BooleanOperator FunctionTerm}
    (ground : Constraint.parameterArity constraint = 0) (facts : FactSets)
    (binding binding' : List Nat) :
    facts.isValidConstraint binding constraint = facts.isValidConstraint binding' constraint := by
  have noParameters : Constraint.collectParameters constraint = [] :=
    (List.dedup_eq_nil _).mp (List.length_eq_zero_iff.mp ground)
  apply isValidConstraint_congr
  intro fterm memFterm
  apply List.map_congr_left
  intro term mem
  cases term with
  | parameter index =>
      have collected : index ∈ Constraint.collectParameters constraint :=
        List.mem_flatMap.mpr ⟨fterm, memFterm, mem_parametersOfTerms.mpr mem⟩
      rw [noParameters] at collected
      exact absurd collected List.not_mem_nil
  | object index => rfl

end FactSets

/-! ### The check of one condition -/

/-- The check of a condition: the members whose bit is still set. -/
structure ConditionCheck where
  unsatFluentLiterals : List Literal
  unsatNumericConstraints : List (BooleanOperator FunctionTerm)
  staticallyApplicable : Bool

namespace ConditionCheck

def create (condition : ConjunctiveCondition) (facts : FactSets) (binding : List Nat) :
    ConditionCheck where
  unsatFluentLiterals := condition.fluentLiterals
  unsatNumericConstraints := condition.numericConstraints
  staticallyApplicable := condition.staticLiterals.all (facts.isValidBinding binding .static)

/-- Reset the bits of what holds now. -/
def update (check : ConditionCheck) (facts : FactSets) (binding : List Nat) : ConditionCheck where
  unsatFluentLiterals :=
    check.unsatFluentLiterals.filter fun literal => !facts.isValidBinding binding .fluent literal
  unsatNumericConstraints :=
    check.unsatNumericConstraints.filter fun constraint => !facts.isValidConstraint binding constraint
  staticallyApplicable := check.staticallyApplicable

/-- No bit is set. -/
def none (check : ConditionCheck) : Bool :=
  check.unsatFluentLiterals.isEmpty && check.unsatNumericConstraints.isEmpty

theorem none_update {check : ConditionCheck} {facts : FactSets} {binding : List Nat} :
    (check.update facts binding).none = true ↔
      (∀ literal ∈ check.unsatFluentLiterals,
        facts.isValidBinding binding .fluent literal = true) ∧
      ∀ constraint ∈ check.unsatNumericConstraints,
        facts.isValidConstraint binding constraint = true := by
  simp [none, update]

end ConditionCheck

/-! ### The residual check of a binding -/

structure ApplicabilityCheck where
  nullary : ConditionCheck
  conflicting : ConditionCheck

namespace ApplicabilityCheck

/-- The nullary condition is ground: its binding is empty. -/
def create (nullary conflicting : ConjunctiveCondition) (facts : FactSets) (binding : List Nat) :
    ApplicabilityCheck where
  nullary := ConditionCheck.create nullary facts []
  conflicting := ConditionCheck.create conflicting facts binding

def isStaticallyApplicable (check : ApplicabilityCheck) : Bool :=
  check.nullary.staticallyApplicable && check.conflicting.staticallyApplicable

/-- The answer and the check after it. The conflicting condition is looked at
only when the nullary condition holds. -/
def isDynamicallyApplicable (check : ApplicabilityCheck) (facts : FactSets) (binding : List Nat) :
    Bool × ApplicabilityCheck :=
  let nullary := check.nullary.update facts []
  if nullary.none then
    let conflicting := check.conflicting.update facts binding
    (conflicting.none, ⟨nullary, conflicting⟩)
  else
    (false, ⟨nullary, check.conflicting⟩)

theorem isDynamicallyApplicable_fst {check : ApplicabilityCheck} {facts : FactSets}
    {binding : List Nat} :
    (check.isDynamicallyApplicable facts binding).1 = true ↔
      (check.nullary.update facts []).none = true ∧
        (check.conflicting.update facts binding).none = true := by
  unfold isDynamicallyApplicable
  dsimp only
  split
  · next holds => exact (and_iff_right holds).symm
  · next fails => exact iff_of_false Bool.false_ne_true fun both => fails both.1

/-- A new check accepts its binding iff both conditions hold. -/
theorem create_accepts {nullary conflicting : ConjunctiveCondition} {facts : FactSets}
    {binding : List Nat} :
    (create nullary conflicting facts binding).isStaticallyApplicable = true ∧
        ((create nullary conflicting facts binding).isDynamicallyApplicable facts binding).1 =
          true ↔
      facts.isValidCondition [] nullary = true ∧ facts.isValidCondition binding conflicting = true := by
  rw [isDynamicallyApplicable_fst, ConditionCheck.none_update, ConditionCheck.none_update]
  simp only [isStaticallyApplicable, create, ConditionCheck.create,
    FactSets.isValidCondition, Bool.and_eq_true, List.all_eq_true]
  tauto

end ApplicabilityCheck

end Tyr.Datalog
