import Tyr.Datalog.RuleGraph
import Tyr.Datalog.NewCliques

/-!
The workspace of a rule: its consistency graph and the matching of a binding.

A rule with parameters enumerates the cliques of its consistency graph and
accepts a binding by the check of the nullary and the conflicting condition
(`ConstRuleWorkspace.Matches`). The numeric constraints are tested by a
`NumericOverapproximation` on vertices and edges.
-/

namespace Tyr.Datalog

open Tyr.Lib Tyr.Formalism Tyr.Formalism.Datalog

/-! ### The workspace of a rule -/

/-- The objects that a term can stand for. -/
def termDomain (parameterDomains : List (List Nat)) : Term → List Nat
  | .parameter index => parameterDomains.getD index []
  | .object index => [index]

/-- A rule with the domains of its parameters. The domains of the predicates
cover what the rule can ask for: each object of a parameter and each constant is
in the domain of every position where it occurs. -/
structure ConstRuleWorkspace where
  rule : Rule
  parameterDomains : List (List Nat)
  predicateDomains : FactKind → Nat → List (List Nat)
  closed : ∀ kind, ∀ literal ∈ rule.body.literals kind, ∀ index,
    .parameter index ∈ literal.atom.terms → index < rule.arity
  full : ∀ kind, ∀ literal ∈ rule.body.literals kind,
    literal.atom.terms.length = (predicateDomains kind literal.atom.predicate).length
  covered : ∀ kind, ∀ literal ∈ rule.body.literals kind, ∀ position term,
    literal.atom.terms[position]? = some term → ∀ object ∈ termDomain parameterDomains term,
      object ∈ (predicateDomains kind literal.atom.predicate).getD position []

/-- Facts with one object for each position of their predicate. -/
structure TypedFactSets (predicateDomains : FactKind → Nat → List (List Nat)) extends FactSets where
  full : ∀ kind, ∀ fact ∈ predicate kind,
    fact.objects.length = (predicateDomains kind fact.relation).length

/-- The tests of a numeric constraint against the function assignment sets, for
a vertex and for an edge. -/
structure NumericOverapproximation where
  consistentVertex : (FactKind → Tuple → Number) → BooleanOperator FunctionTerm → RuleVertex → Bool
  consistentEdge : (FactKind → Tuple → Number) → BooleanOperator FunctionTerm →
    RuleVertex → RuleVertex → Bool

/-- What changes from iteration to iteration: the fluent facts and the values. -/
structure AssignmentSets where
  fluent : PredicateAssignmentSets
  function : FactKind → Tuple → Number

def Constraint.mentions (constraint : BooleanOperator FunctionTerm) (parameter : Nat) : Bool :=
  (Formalism.Datalog.Constraint.collectParameters constraint).contains parameter

namespace ConstRuleWorkspace

variable (cws : ConstRuleWorkspace)

def unaryOverapproximation : ConjunctiveCondition := cws.rule.body.overapproximation 1

def binaryOverapproximation : ConjunctiveCondition := cws.rule.body.overapproximation 2

def conflictingOverapproximation : ConjunctiveCondition :=
  cws.rule.body.conflictingOverapproximation (if cws.rule.arity = 1 then 1 else 2)

/-- Some literal or numeric constraint of the binary condition relates `p` and `q`. -/
def hasDependency (p q : Nat) : Bool :=
  p != q &&
    ((cws.binaryOverapproximation.staticLiterals.any fun l => mentions l p && mentions l q) ||
      (cws.binaryOverapproximation.fluentLiterals.any fun l => mentions l p && mentions l q) ||
      cws.binaryOverapproximation.numericConstraints.any fun c =>
        Constraint.mentions c p && Constraint.mentions c q)

/-- The vertices of `p` have to be tested in each iteration. -/
def unaryRuntime (p : Nat) : Bool :=
  (cws.unaryOverapproximation.fluentLiterals.any fun l => mentions l p) ||
    cws.unaryOverapproximation.numericConstraints.any fun c => Constraint.mentions c p

/-- The edges between `p` and `q` have to be tested in each iteration. -/
def binaryRuntime (p q : Nat) : Bool :=
  p != q &&
    ((cws.binaryOverapproximation.fluentLiterals.any fun l => mentions l p && mentions l q) ||
      cws.binaryOverapproximation.numericConstraints.any fun c =>
        Constraint.mentions c p && Constraint.mentions c q)

theorem hasDependency_symm (p q : Nat) : cws.hasDependency p q = cws.hasDependency q p := by
  unfold hasDependency
  rw [bne_comm]
  congr 2
  · congr 1 <;> exact congrArg _ (funext fun _ => Bool.and_comm _ _)
  · exact congrArg _ (funext fun _ => Bool.and_comm _ _)

theorem binaryRuntime_symm (p q : Nat) : cws.binaryRuntime p q = cws.binaryRuntime q p := by
  unfold binaryRuntime
  rw [bne_comm]
  congr 2 <;> exact congrArg _ (funext fun _ => Bool.and_comm _ _)

section

variable (numeric : NumericOverapproximation) (facts : FactSets)

/-- The assignment sets of the static facts. -/
def staticSets : PredicateAssignmentSets :=
  .ofFacts (cws.predicateDomains .static) (facts.predicate .static)

/-- `compute_vertices`: the objects of partition `p`. -/
def partitionObjects (p : Nat) : List Nat :=
  (cws.parameterDomains.getD p []).filter fun object =>
    consistentLiterals (cws.staticSets facts) cws.unaryOverapproximation.staticLiterals ⟨p, object⟩

def getVertex (v : Kpkc.Vertex) : RuleVertex :=
  ⟨v.partition, (cws.partitionObjects facts v.partition).getD v.bit 0⟩

/-- `compute_edges`: is the pair compatible with the static literals? -/
def staticEdge (v w : Kpkc.Vertex) : Bool :=
  consistentEdgeLiterals (cws.staticSets facts) cws.binaryOverapproximation.staticLiterals
    (cws.getVertex facts v) (cws.getVertex facts w)

def staticConsistencyGraph : Kpkc.StaticConsistencyGraph AssignmentSets where
  layout := ⟨cws.rule.arity, fun p => (cws.partitionObjects facts p).length⟩
  binaryDependency := cws.hasDependency
  binaryDependency_symm := cws.hasDependency_symm
  unaryRuntime := cws.unaryRuntime
  binaryRuntime := cws.binaryRuntime
  staticEdges v q bit :=
    if v.partition < q then cws.staticEdge facts v ⟨q, bit⟩
    else q < v.partition && cws.staticEdge facts ⟨q, bit⟩ v
  consistentVertex sets v :=
    consistentLiterals sets.fluent cws.unaryOverapproximation.fluentLiterals (cws.getVertex facts v) &&
      cws.unaryOverapproximation.numericConstraints.all fun constraint =>
        numeric.consistentVertex sets.function constraint (cws.getVertex facts v)
  consistentEdge sets v w :=
    consistentEdgeLiterals sets.fluent cws.binaryOverapproximation.fluentLiterals
        (cws.getVertex facts v) (cws.getVertex facts w) &&
      cws.binaryOverapproximation.numericConstraints.all fun constraint =>
        numeric.consistentEdge sets.function constraint (cws.getVertex facts v) (cws.getVertex facts w)

/-- The assignment sets of an iteration with the fluent facts and values of `facts`. -/
def assignmentSets : AssignmentSets where
  fluent := .ofFacts (cws.predicateDomains .fluent) (facts.predicate .fluent)
  function := facts.function

/-- `create_general_binding`. -/
def createGeneralBinding (clique : List Kpkc.Vertex) : List Nat :=
  clique.map fun v => (cws.getVertex facts v).object

/-- The binding is the one of a clique that the first iteration after a reset reports. -/
def Enumerated (st : Kpkc.DeltaKPKC) (ws : Kpkc.Workspace) (binding : List Nat) : Prop :=
  let graph := cws.staticConsistencyGraph numeric facts
  ∃ clique ∈ Kpkc.forEachNewKClique graph (Kpkc.runAfterReset graph st [cws.assignmentSets facts]) ws,
    cws.createGeneralBinding facts clique = binding

/-- The residual check accepts the binding. -/
def Accepted (binding : List Nat) : Prop :=
  let check := ApplicabilityCheck.create cws.rule.body.nullary cws.conflictingOverapproximation
    facts binding
  check.isStaticallyApplicable = true ∧ (check.isDynamicallyApplicable facts binding).1 = true

/-- The rule fires for the binding: a rule without parameters evaluates its
whole body (`generate_nullary_case`), all others go through the graph. -/
def Matches (st : Kpkc.DeltaKPKC) (ws : Kpkc.Workspace) (binding : List Nat) : Prop :=
  if cws.rule.arity = 0 then
    binding = [] ∧ facts.isValidCondition [] cws.rule.body.nullary = true ∧
      facts.isValidCondition binding cws.rule.body = true
  else cws.Enumerated numeric facts st ws binding ∧ cws.Accepted facts binding

end

/-- The parameters lie in their domains. -/
def InDomains (binding : List Nat) : Prop :=
  binding.length = cws.rule.arity ∧
    ∀ p < cws.rule.arity, binding.getD p 0 ∈ cws.parameterDomains.getD p []

variable {cws} in
theorem inDomains_nil (noParameters : cws.rule.arity = 0) : cws.InDomains [] :=
  ⟨noParameters.symm, fun p below => absurd below (by omega)⟩

/-- The meaning of the literals of the body: the positive ones are facts and the
negative ones are not. -/
def LiteralsHold (facts : FactSets) (binding : List Nat) : Prop :=
  ∀ kind, ∀ literal ∈ cws.rule.body.literals kind,
    (literal.atom.ground binding ∈ facts.predicate kind ↔ literal.polarity = true)

end ConstRuleWorkspace

end Tyr.Datalog
