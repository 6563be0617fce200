import Tyr.Formalism.Atom
import Tyr.Formalism.FunctionExpression
import Mathlib.Data.List.Dedup

/-!
Rules of a datalog program.

A rule derives its head, a fluent atom, for each binding of its parameters under
which its body holds. The body is a conjunction of static literals, fluent
literals and numeric constraints.
-/

namespace Tyr.Formalism.Datalog

/-- Static facts are given, fluent facts are derived. -/
inductive FactKind where
  | static
  | fluent
deriving DecidableEq, Repr

structure FunctionTerm where
  kind : FactKind
  function : Nat
  terms : List Term
deriving DecidableEq, Repr

structure ConjunctiveCondition where
  staticLiterals : List Literal := []
  fluentLiterals : List Literal := []
  numericConstraints : List (BooleanOperator FunctionTerm) := []

/-- A rule of `arity` parameters. -/
structure Rule where
  arity : Nat
  body : ConjunctiveCondition
  head : Atom
  cost : Nat := 0

/-! ### Parameters and arities -/

def parametersOfTerms (terms : List Term) : List Nat :=
  terms.filterMap fun
    | .parameter index => some index
    | .object _ => none

theorem mem_parametersOfTerms {terms : List Term} {index : Nat} :
    index ∈ parametersOfTerms terms ↔ .parameter index ∈ terms := by
  unfold parametersOfTerms
  rw [List.mem_filterMap]
  constructor
  · rintro ⟨term, mem, same⟩
    cases term with
    | parameter i =>
        cases same
        exact mem
    | object => cases same
  · intro mem
    exact ⟨_, mem, rfl⟩

/-- `collect_parameters` of a literal. -/
def collectParameters (literal : Literal) : List Nat :=
  parametersOfTerms literal.atom.terms

/-- The arity of the predicate of a literal. -/
def kpkcArity (literal : Literal) : Nat := literal.atom.terms.length

/-- The number of distinct parameters of a literal. -/
def parameterArity (literal : Literal) : Nat := (collectParameters literal).dedup.length

theorem parameterArity_eq_zero {literal : Literal} :
    parameterArity literal = 0 ↔ ∀ index, .parameter index ∉ literal.atom.terms := by
  rw [parameterArity, List.length_eq_zero_iff, List.dedup_eq_nil, List.eq_nil_iff_forall_not_mem]
  exact forall_congr' fun index => not_congr mem_parametersOfTerms

/-- A literal without parameters is the same under all bindings. -/
theorem ground_of_nullary {literal : Literal} (nullary : parameterArity literal = 0)
    (binding binding' : List Nat) : literal.atom.ground binding = literal.atom.ground binding' := by
  apply Atom.ground_congr
  intro term mem
  cases term with
  | object => rfl
  | parameter index => exact absurd mem (parameterArity_eq_zero.mp nullary index)

namespace Constraint

def fterms (constraint : BooleanOperator FunctionTerm) : List FunctionTerm :=
  constraint.lhs.fterms ++ constraint.rhs.fterms

/-- `collect_parameters` of a numeric constraint. -/
def collectParameters (constraint : BooleanOperator FunctionTerm) : List Nat :=
  (fterms constraint).flatMap fun fterm => parametersOfTerms fterm.terms

/-- `max_fterm_arity` of a number. -/
def maxFtermArityOfNumber (_ : Nat) : Nat := 0

/-- `max_fterm_arity` of a function term: the call on the arity of the function
takes the arity for a number. -/
def maxFtermArityOfTerm (fterm : FunctionTerm) : Nat :=
  maxFtermArityOfNumber fterm.terms.length

def maxFtermArity (constraint : BooleanOperator FunctionTerm) : Nat :=
  ((fterms constraint).map maxFtermArityOfTerm).foldl max 0

/-- The number of distinct parameters of a numeric constraint. -/
def parameterArity (constraint : BooleanOperator FunctionTerm) : Nat :=
  (collectParameters constraint).dedup.length

def kpkcArity (constraint : BooleanOperator FunctionTerm) : Nat :=
  max (maxFtermArity constraint) (parameterArity constraint)

/-- The arities of the functions are not counted. -/
theorem kpkcArity_eq_parameterArity (constraint : BooleanOperator FunctionTerm) :
    kpkcArity constraint = parameterArity constraint := by
  have numbers : maxFtermArity constraint = 0 := by
    unfold maxFtermArity
    induction fterms constraint with
    | nil => rfl
    | cons _ _ ih => exact ih
  rw [kpkcArity, numbers, Nat.zero_max]

end Constraint

/-! ### Parts of a condition -/

namespace ConjunctiveCondition

def literals (condition : ConjunctiveCondition) : FactKind → List Literal
  | .static => condition.staticLiterals
  | .fluent => condition.fluentLiterals

/-- The literals and the numeric constraints that pass a test. -/
def filter (condition : ConjunctiveCondition) (keepLiteral : Literal → Bool)
    (keepConstraint : BooleanOperator FunctionTerm → Bool) : ConjunctiveCondition where
  staticLiterals := condition.staticLiterals.filter keepLiteral
  fluentLiterals := condition.fluentLiterals.filter keepLiteral
  numericConstraints := condition.numericConstraints.filter keepConstraint

/-- `create_overapproximation_conjunctive_condition`: the positive literals of
arity at least `k` and the negative literals of arity `k`. -/
def overapproximation (condition : ConjunctiveCondition) (k : Nat) : ConjunctiveCondition :=
  condition.filter
    (fun literal => (!literal.polarity && kpkcArity literal == k) ||
      (literal.polarity && decide (k ≤ kpkcArity literal)))
    fun constraint => decide (k ≤ Constraint.kpkcArity constraint)

/-- `create_overapproximation_conflicting_conjunctive_condition`: everything of
arity above `k`. -/
def conflictingOverapproximation (condition : ConjunctiveCondition) (k : Nat) :
    ConjunctiveCondition :=
  condition.filter (fun literal => decide (k < kpkcArity literal))
    fun constraint => decide (k < Constraint.kpkcArity constraint)

/-- `create_ground_nullary_conjunctive_condition`: everything without parameters. -/
def nullary (condition : ConjunctiveCondition) : ConjunctiveCondition :=
  condition.filter (fun literal => parameterArity literal == 0)
    fun constraint => Constraint.parameterArity constraint == 0

theorem mem_literals_filter {condition : ConjunctiveCondition} {keepLiteral : Literal → Bool}
    {keepConstraint : BooleanOperator FunctionTerm → Bool} {kind : FactKind} {literal : Literal} :
    literal ∈ (condition.filter keepLiteral keepConstraint).literals kind ↔
      literal ∈ condition.literals kind ∧ keepLiteral literal = true := by
  cases kind <;> exact List.mem_filter

theorem mem_overapproximation {condition : ConjunctiveCondition} {k : Nat} {kind : FactKind}
    {literal : Literal} :
    literal ∈ (condition.overapproximation k).literals kind ↔ literal ∈ condition.literals kind ∧
      ((literal.polarity = false ∧ kpkcArity literal = k) ∨
        (literal.polarity = true ∧ k ≤ kpkcArity literal)) := by
  rw [overapproximation, mem_literals_filter]
  simp

theorem mem_conflictingOverapproximation {condition : ConjunctiveCondition} {k : Nat}
    {kind : FactKind} {literal : Literal} :
    literal ∈ (condition.conflictingOverapproximation k).literals kind ↔
      literal ∈ condition.literals kind ∧ k < kpkcArity literal := by
  rw [conflictingOverapproximation, mem_literals_filter, decide_eq_true_iff]

theorem mem_nullary {condition : ConjunctiveCondition} {kind : FactKind} {literal : Literal} :
    literal ∈ condition.nullary.literals kind ↔
      literal ∈ condition.literals kind ∧ parameterArity literal = 0 := by
  rw [nullary, mem_literals_filter, beq_iff_eq]

end ConjunctiveCondition

end Tyr.Formalism.Datalog
