import Tyr.Datalog.RuleWorkspace

/-!
When the matching of a rule is exact.

Each literal of the body is tested by the vertices, by the edges of the pairs
that the dependency graph relates, or by the residual check (`LiteralTested`).

* `enumerated_iff` — the bindings of the cliques.
* `matches_iff` — a binding matches iff its objects lie in their domains, every
  literal passes its tests and the numeric constraints are accepted.
* `literalTested_iff` — the tests of a literal are exact, unless it is `Weak`.
* `matches_exact_iff` — when matching is exact.
-/

namespace Tyr.Datalog

open Tyr.Lib Tyr.Formalism Tyr.Formalism.Datalog

namespace ConstRuleWorkspace

variable {cws : ConstRuleWorkspace} {numeric : NumericOverapproximation} {facts : FactSets}

/-! ### The bindings of the cliques -/

/-- The assignment sets of the facts of each kind. -/
def sets (cws : ConstRuleWorkspace) (facts : FactSets) (kind : FactKind) : PredicateAssignmentSets :=
  .ofFacts (cws.predicateDomains kind) (facts.predicate kind)

/-- Are the vertices of `p` tested against the facts of this kind? -/
def vertexGate (cws : ConstRuleWorkspace) (kind : FactKind) (p : Nat) : Bool :=
  match kind with
  | .static => true
  | .fluent => cws.unaryRuntime p

/-- Are the edges between `p` and `q` tested against the facts of this kind? -/
def edgeGate (cws : ConstRuleWorkspace) (kind : FactKind) (p q : Nat) : Bool :=
  match kind with
  | .static => cws.hasDependency p q
  | .fluent => cws.hasDependency p q && cws.binaryRuntime p q

/-- What a clique guarantees about its binding. -/
structure CliqueTests (cws : ConstRuleWorkspace) (numeric : NumericOverapproximation)
    (facts : FactSets) (binding : List Nat) : Prop where
  inDomains : cws.InDomains binding
  vertex : ∀ kind, ∀ p < cws.rule.arity, cws.vertexGate kind p = true →
    consistentLiterals (cws.sets facts kind) (cws.unaryOverapproximation.literals kind)
      (vertexOf binding p) = true
  edge : ∀ kind p q, p < q → q < cws.rule.arity → cws.edgeGate kind p q = true →
    consistentEdgeLiterals (cws.sets facts kind) (cws.binaryOverapproximation.literals kind)
      (vertexOf binding p) (vertexOf binding q) = true
  numericVertex : ∀ p < cws.rule.arity, cws.unaryRuntime p = true →
    ∀ constraint ∈ cws.unaryOverapproximation.numericConstraints,
      numeric.consistentVertex facts.function constraint (vertexOf binding p) = true
  numericEdge : ∀ p q, p < q → q < cws.rule.arity → cws.hasDependency p q = true →
    cws.binaryRuntime p q = true → ∀ constraint ∈ cws.binaryOverapproximation.numericConstraints,
      numeric.consistentEdge facts.function constraint (vertexOf binding p) (vertexOf binding q) = true

theorem mem_partitionObjects {p object : Nat} :
    object ∈ cws.partitionObjects facts p ↔ object ∈ cws.parameterDomains.getD p [] ∧
      consistentLiterals (cws.sets facts .static) (cws.unaryOverapproximation.literals .static)
        ⟨p, object⟩ = true :=
  List.mem_filter

/-- The vertex of each parameter under the binding of a selection. -/
theorem getVertex_eq {f : Nat → Kpkc.Vertex} {binding : List Nat}
    (partition : ∀ p < cws.rule.arity, (f p).partition = p)
    (same : binding = (List.range cws.rule.arity).map fun p => (cws.getVertex facts (f p)).object)
    {p : Nat} (inRange : p < cws.rule.arity) : cws.getVertex facts (f p) = vertexOf binding p := by
  have object : binding.getD p 0 = (cws.getVertex facts (f p)).object := by
    rw [same, List.getD_eq_getElem _ _ (by simpa using inRange), List.getElem_map,
      List.getElem_range]
  rw [vertexOf, object, getVertex, partition p inRange]

/-- The binding of an accepted selection passes the tests. -/
theorem cliqueTests_of_selection {f : Nat → Kpkc.Vertex}
    (accepted : Kpkc.IsAcceptedSelection (cws.staticConsistencyGraph numeric facts)
      (cws.assignmentSets facts) f) {binding : List Nat}
    (same : binding = (List.range cws.rule.arity).map fun p => (cws.getVertex facts (f p)).object) :
    cws.CliqueTests numeric facts binding := by
  have shape : ∀ p < cws.rule.arity, f p = ⟨p, (f p).bit⟩ := fun p inRange =>
    Kpkc.Vertex.ext (accepted.partition p inRange) rfl
  have vertex : ∀ {p}, p < cws.rule.arity → cws.getVertex facts (f p) = vertexOf binding p :=
    getVertex_eq accepted.partition same
  have member : ∀ p < cws.rule.arity, binding.getD p 0 ∈ cws.partitionObjects facts p := by
    intro p inRange
    have value : (cws.getVertex facts (f p)).object = binding.getD p 0 :=
      congrArg RuleVertex.object (vertex inRange)
    have inBits := (accepted.vertex p inRange).1
    rw [shape p inRange] at value inBits
    have inBits : (f p).bit < (cws.partitionObjects facts p).length := inBits
    rw [← value, getVertex, List.getD_eq_getElem _ _ inBits]
    exact List.getElem_mem inBits
  have runtime : ∀ p < cws.rule.arity, cws.unaryRuntime p = true → _ := fun p inRange isRuntime =>
    Bool.and_eq_true_iff.mp ((accepted.vertex p inRange).2 (by rwa [accepted.partition p inRange]))
  have edges : ∀ p q, p < q → q < cws.rule.arity → cws.hasDependency p q = true →
      cws.staticEdge facts (f p) (f q) = true ∧ (cws.binaryRuntime p q = true →
        (cws.staticConsistencyGraph numeric facts).consistentEdge (cws.assignmentSets facts)
          (f p) (f q) = true) := by
    intro p q before inRange dep
    obtain ⟨_, _, static, runtime⟩ := accepted.edge p q before inRange dep
    rw [accepted.partition p (before.trans inRange), accepted.partition q inRange] at runtime
    refine ⟨?_, runtime⟩
    rw [shape q inRange]
    simpa only [staticConsistencyGraph, accepted.partition p (before.trans inRange),
      accepted.partition q inRange, before, if_true] using static
  refine ⟨⟨by simp [same], fun p inRange => (mem_partitionObjects.mp (member p inRange)).1⟩,
    ?_, ?_, ?_, ?_⟩
  · intro kind p inRange gate
    cases kind with
    | static => exact (mem_partitionObjects.mp (member p inRange)).2
    | fluent => exact vertex inRange ▸ (runtime p inRange gate).1
  · intro kind p q before inRange gate
    have inP := before.trans inRange
    cases kind with
    | static =>
        have test := (edges p q before inRange gate).1
        rw [staticEdge, vertex inP, vertex inRange] at test
        exact test
    | fluent =>
        obtain ⟨dep, isRuntime⟩ := Bool.and_eq_true_iff.mp gate
        have test := (Bool.and_eq_true_iff.mp ((edges p q before inRange dep).2 isRuntime)).1
        rw [vertex inP, vertex inRange] at test
        exact test
  · intro p inRange isRuntime constraint mem
    exact vertex inRange ▸ List.all_eq_true.mp (runtime p inRange isRuntime).2 constraint mem
  · intro p q before inRange dep isRuntime constraint mem
    have test := List.all_eq_true.mp
      (Bool.and_eq_true_iff.mp ((edges p q before inRange dep).2 isRuntime)).2 constraint mem
    rw [vertex (before.trans inRange), vertex inRange] at test
    exact test

/-- A binding that passes the tests is the one of an accepted selection. -/
theorem selection_of_cliqueTests {binding : List Nat}
    (tests : cws.CliqueTests numeric facts binding) :
    ∃ f, Kpkc.IsAcceptedSelection (cws.staticConsistencyGraph numeric facts)
        (cws.assignmentSets facts) f ∧
      ∀ p < cws.rule.arity, cws.getVertex facts (f p) = vertexOf binding p := by
  have member : ∀ p < cws.rule.arity, binding.getD p 0 ∈ cws.partitionObjects facts p :=
    fun p inRange => mem_partitionObjects.mpr
      ⟨tests.inDomains.2 p inRange, tests.vertex .static p inRange rfl⟩
  let f : Nat → Kpkc.Vertex := fun p => ⟨p, (cws.partitionObjects facts p).idxOf (binding.getD p 0)⟩
  have inBits : ∀ p < cws.rule.arity, (f p).bit < (cws.partitionObjects facts p).length :=
    fun p inRange => List.idxOf_lt_length_iff.mpr (member p inRange)
  have vertex : ∀ p < cws.rule.arity, cws.getVertex facts (f p) = vertexOf binding p := by
    intro p inRange
    rw [getVertex, vertexOf, List.getD_eq_getElem _ _ (inBits p inRange)]
    exact congrArg _ (List.getElem_idxOf (inBits p inRange))
  refine ⟨f, ⟨fun p _ => rfl, fun p inRange => ⟨inBits p inRange, fun isRuntime => ?_⟩,
    fun p q before inRange dep => ⟨before, dep, ?_, fun isRuntime => ?_⟩⟩, vertex⟩
  · refine Bool.and_eq_true_iff.mpr ⟨?_, List.all_eq_true.mpr fun constraint mem => ?_⟩
    · rw [vertex p inRange]
      exact tests.vertex .fluent p inRange isRuntime
    · rw [vertex p inRange]
      exact tests.numericVertex p inRange isRuntime constraint mem
  · have isStatic : cws.staticEdge facts (f p) (f q) = true := by
      rw [staticEdge, vertex p (before.trans inRange), vertex q inRange]
      exact tests.edge .static p q before inRange dep
    exact (if_pos before).trans isStatic
  · refine Bool.and_eq_true_iff.mpr ⟨?_, List.all_eq_true.mpr fun constraint mem => ?_⟩
    · rw [vertex p (before.trans inRange), vertex q inRange]
      exact tests.edge .fluent p q before inRange (Bool.and_eq_true_iff.mpr ⟨dep, isRuntime⟩)
    · rw [vertex p (before.trans inRange), vertex q inRange]
      exact tests.numericEdge p q before inRange dep isRuntime constraint mem

/-- The bindings of the cliques. -/
theorem enumerated_iff {st : Kpkc.DeltaKPKC}
    (reachable : Kpkc.Reachable (cws.staticConsistencyGraph numeric facts) st) {ws : Kpkc.Workspace}
    {binding : List Nat} :
    cws.Enumerated numeric facts st ws binding ↔ cws.CliqueTests numeric facts binding := by
  simp only [Enumerated, Kpkc.first_report_iff reachable, createGeneralBinding]
  constructor
  · rintro ⟨clique, ⟨f, accepted, rfl⟩, same⟩
    apply cliqueTests_of_selection accepted
    rw [← same, List.map_map]
    rfl
  · intro tests
    obtain ⟨f, accepted, vertex⟩ := selection_of_cliqueTests tests
    refine ⟨_, ⟨f, accepted, rfl⟩, ?_⟩
    have arity := tests.inDomains.1
    refine List.ext_getElem (by simpa [staticConsistencyGraph] using arity.symm) ?_
    intro p _ inBinding
    simp only [List.map_map, List.getElem_map, List.getElem_range, Function.comp_apply,
      vertex p (arity ▸ inBinding)]
    exact List.getD_eq_getElem _ _ inBinding

/-! ### The tests of one literal -/

/-- The tests of a literal of the body: by the vertices of its parameters, by
the edges, and by the residual check. -/
structure LiteralTested (cws : ConstRuleWorkspace) (facts : FactSets) (binding : List Nat)
    (kind : FactKind) (literal : Literal) : Prop where
  vertex : literal ∈ cws.unaryOverapproximation.literals kind →
    ∀ p < cws.rule.arity, cws.vertexGate kind p = true → mentions literal p = true →
      consistentLiteral (cws.sets facts kind literal.atom.predicate) literal (vertexOf binding p) = true
  pair : literal ∈ cws.binaryOverapproximation.literals kind →
    ∀ p q, p < q → q < cws.rule.arity → cws.edgeGate kind p q = true →
      mentions literal p = true → mentions literal q = true →
      consistentParameterPair (cws.sets facts kind literal.atom.predicate) literal
        (vertexOf binding p) (vertexOf binding q) = true
  constants : literal ∈ cws.binaryOverapproximation.literals kind →
    ∀ p < cws.rule.arity, ∀ q < cws.rule.arity, cws.edgeGate kind p q = true →
      mentions literal p = true →
      consistentWithConstants (cws.sets facts kind literal.atom.predicate) literal
        (vertexOf binding p) = true
  nullary : literal ∈ cws.rule.body.nullary.literals kind →
    facts.isValidBinding [] kind literal = true
  conflicting : literal ∈ cws.conflictingOverapproximation.literals kind →
    facts.isValidBinding binding kind literal = true

/-- The numeric constraints pass the tests of the graph and the residual check;
a rule without parameters evaluates them all. -/
def NumericAccepted (cws : ConstRuleWorkspace) (numeric : NumericOverapproximation)
    (facts : FactSets) (binding : List Nat) : Prop :=
  if cws.rule.arity = 0 then
    ∀ constraint ∈ cws.rule.body.numericConstraints,
      facts.isValidConstraint binding constraint = true
  else
    (∀ p < cws.rule.arity, cws.unaryRuntime p = true →
      ∀ constraint ∈ cws.unaryOverapproximation.numericConstraints,
        numeric.consistentVertex facts.function constraint (vertexOf binding p) = true) ∧
    (∀ p q, p < q → q < cws.rule.arity → cws.hasDependency p q = true →
      cws.binaryRuntime p q = true → ∀ constraint ∈ cws.binaryOverapproximation.numericConstraints,
        numeric.consistentEdge facts.function constraint (vertexOf binding p) (vertexOf binding q) =
          true) ∧
    (∀ constraint ∈ cws.rule.body.nullary.numericConstraints,
      facts.isValidConstraint [] constraint = true) ∧
    ∀ constraint ∈ cws.conflictingOverapproximation.numericConstraints,
      facts.isValidConstraint binding constraint = true

theorem edgeGate_symm (kind : FactKind) (p q : Nat) : cws.edgeGate kind p q = cws.edgeGate kind q p := by
  cases kind with
  | static => exact cws.hasDependency_symm p q
  | fluent => exact congrArg₂ and (cws.hasDependency_symm p q) (cws.binaryRuntime_symm p q)

theorem ne_of_edgeGate {kind : FactKind} {p q : Nat} (gate : cws.edgeGate kind p q = true) : p ≠ q := by
  rintro rfl
  cases kind <;> simp [edgeGate, hasDependency] at gate

theorem consistentEdgeLiterals_iff {sets : PredicateAssignmentSets} {literals : List Literal}
    {first second : RuleVertex} :
    consistentEdgeLiterals sets literals first second = true ↔
      ∀ literal ∈ literals,
        (mentions literal first.parameter = true → mentions literal second.parameter = true →
          consistentParameterPair (sets literal.atom.predicate) literal first second = true) ∧
        (mentions literal first.parameter = true →
          consistentWithConstants (sets literal.atom.predicate) literal first = true) ∧
        (mentions literal second.parameter = true →
          consistentWithConstants (sets literal.atom.predicate) literal second = true) := by
  simp only [consistentEdgeLiterals, consistentConstantLiterals, Bool.and_eq_true, List.all_eq_true,
    Bool.or_eq_true, Bool.not_eq_true', Bool.and_eq_false_iff, ← forall_and, ← and_assoc]
  apply forall₂_congr
  intro literal _
  cases mentions literal first.parameter <;> cases mentions literal second.parameter <;> simp

/-- A literal of a binding that passes the tests of the cliques is tested, if the
residual check accepts it. -/
theorem CliqueTests.literalTested {binding : List Nat}
    (tests : cws.CliqueTests numeric facts binding) {kind : FactKind} {literal : Literal}
    (nullary : literal ∈ cws.rule.body.nullary.literals kind →
      facts.isValidBinding [] kind literal = true)
    (conflicting : literal ∈ cws.conflictingOverapproximation.literals kind →
      facts.isValidBinding binding kind literal = true) :
    cws.LiteralTested facts binding kind literal := by
  refine ⟨fun inUnary p inRange gate mentioned => ?_, fun inBinary p q before inRange gate => ?_,
    fun inBinary p inP q inQ gate mentioned => ?_, nullary, conflicting⟩
  · have test := List.all_eq_true.mp (tests.vertex kind p inRange gate) literal inUnary
    simpa [vertexOf, mentioned] using test
  · exact (consistentEdgeLiterals_iff.mp (tests.edge kind p q before inRange gate) literal
      inBinary).1
  · rcases Nat.lt_or_gt_of_ne (ne_of_edgeGate gate) with before | after
    · exact (consistentEdgeLiterals_iff.mp (tests.edge kind p q before inQ gate) literal
        inBinary).2.1 mentioned
    · rw [edgeGate_symm] at gate
      exact (consistentEdgeLiterals_iff.mp (tests.edge kind q p after inP gate) literal
        inBinary).2.2 mentioned

/-- A binding in the domains passes the tests of the cliques, if all literals are
tested and the numeric constraints pass. -/
theorem cliqueTests_of_literalTested {binding : List Nat} (inDomains : cws.InDomains binding)
    (tested : ∀ kind, ∀ literal ∈ cws.rule.body.literals kind,
      cws.LiteralTested facts binding kind literal)
    (numericVertex : ∀ p < cws.rule.arity, cws.unaryRuntime p = true →
      ∀ constraint ∈ cws.unaryOverapproximation.numericConstraints,
        numeric.consistentVertex facts.function constraint (vertexOf binding p) = true)
    (numericEdge : ∀ p q, p < q → q < cws.rule.arity → cws.hasDependency p q = true →
      cws.binaryRuntime p q = true → ∀ constraint ∈ cws.binaryOverapproximation.numericConstraints,
        numeric.consistentEdge facts.function constraint (vertexOf binding p) (vertexOf binding q) =
          true) :
    cws.CliqueTests numeric facts binding := by
  have inBody : ∀ {keepLiteral keepConstraint} {kind literal},
      literal ∈ (cws.rule.body.filter keepLiteral keepConstraint).literals kind →
        literal ∈ cws.rule.body.literals kind :=
    fun mem => (ConjunctiveCondition.mem_literals_filter.mp mem).1
  refine ⟨inDomains, fun kind p inRange gate => List.all_eq_true.mpr fun literal inUnary => ?_,
    fun kind p q before inRange gate => consistentEdgeLiterals_iff.mpr fun literal inBinary => ?_,
    numericVertex, numericEdge⟩
  · have test := (tested kind literal (inBody inUnary)).vertex inUnary p inRange gate
    cases mentioned : mentions literal p with
    | false => simp [vertexOf, mentioned]
    | true => simpa [vertexOf, mentioned] using test mentioned
  · have test := tested kind literal (inBody inBinary)
    have inP := before.trans inRange
    exact ⟨test.pair inBinary p q before inRange gate,
      test.constants inBinary p inP q inRange gate,
      test.constants inBinary q inRange p inP (edgeGate_symm kind p q ▸ gate)⟩

/-- A rule with parameters matches a binding iff the parameters lie in their
domains, each literal passes its tests and so do the numeric constraints. -/
theorem matches_iff (parameters : cws.rule.arity ≠ 0) {st : Kpkc.DeltaKPKC}
    (reachable : Kpkc.Reachable (cws.staticConsistencyGraph numeric facts) st) {ws : Kpkc.Workspace}
    {binding : List Nat} :
    cws.Matches numeric facts st ws binding ↔ cws.InDomains binding ∧
      (∀ kind, ∀ literal ∈ cws.rule.body.literals kind, cws.LiteralTested facts binding kind literal) ∧
      cws.NumericAccepted numeric facts binding := by
  rw [Matches, if_neg parameters, enumerated_iff reachable, Accepted,
    ApplicabilityCheck.create_accepts, FactSets.isValidCondition_iff, FactSets.isValidCondition_iff,
    NumericAccepted, if_neg parameters]
  constructor
  · rintro ⟨tests, ⟨nullary, nullaryNumeric⟩, conflicting, conflictingNumeric⟩
    exact ⟨tests.inDomains,
      fun kind literal _ => tests.literalTested (nullary kind literal) (conflicting kind literal),
      tests.numericVertex, tests.numericEdge, nullaryNumeric, conflictingNumeric⟩
  · rintro ⟨inDomains, tested, numericVertex, numericEdge, nullaryNumeric, conflictingNumeric⟩
    have inBody : ∀ {keepLiteral keepConstraint} {kind literal},
        literal ∈ (cws.rule.body.filter keepLiteral keepConstraint).literals kind →
          literal ∈ cws.rule.body.literals kind :=
      fun mem => (ConjunctiveCondition.mem_literals_filter.mp mem).1
    exact ⟨cliqueTests_of_literalTested inDomains tested numericVertex numericEdge,
      ⟨fun kind literal mem => (tested kind literal (inBody mem)).nullary mem, nullaryNumeric⟩,
      fun kind literal mem => (tested kind literal (inBody mem)).conflicting mem, conflictingNumeric⟩

/-! ### Which tests are exact -/

/-- The literals that no exact test covers, in rules of at least two parameters:
a binary literal that repeats its parameter, and a negative binary literal with
a constant whose parameter has no edge that tests it. -/
def Weak (cws : ConstRuleWorkspace) (kind : FactKind) (literal : Literal) : Prop :=
  2 ≤ cws.rule.arity ∧ kpkcArity literal = 2 ∧
    ((∃ p, literal.atom.terms = [.parameter p, .parameter p]) ∨
      (literal.polarity = false ∧ ∃ p c, .parameter p ∈ literal.atom.terms ∧
        .object c ∈ literal.atom.terms ∧ ∀ q < cws.rule.arity, cws.edgeGate kind p q = false))

/-- What the tests of a weak literal say: a positive one has its object in both
positions, each of some fact. -/
def WeaklyHolds (facts : FactSets) (binding : List Nat) (kind : FactKind) (literal : Literal) : Prop :=
  literal.polarity = true →
    ProjectsTo (facts.predicate kind) binding literal [0] ∧
      ProjectsTo (facts.predicate kind) binding literal [1]

section

variable {facts : TypedFactSets cws.predicateDomains} {binding : List Nat} {kind : FactKind}
  {literal : Literal}

theorem covered_of_inDomains (inDomains : cws.InDomains binding)
    (mem : literal ∈ cws.rule.body.literals kind) :
    Covered (cws.predicateDomains kind) binding literal := by
  intro position term found
  apply cws.covered kind literal mem position term found
  cases term with
  | object index => exact List.mem_singleton_self index
  | parameter index =>
      exact inDomains.2 index (cws.closed kind literal mem index (List.mem_of_getElem? found))

/-- A literal that holds passes its tests. -/
theorem literalTested_of_holds (inDomains : cws.InDomains binding)
    (mem : literal ∈ cws.rule.body.literals kind)
    (holds : literal.atom.ground binding ∈ facts.predicate kind ↔ literal.polarity = true) :
    cws.LiteralTested facts.toFactSets binding kind literal := by
  have covered := covered_of_inDomains inDomains mem
  have factsFull := facts.full kind
  have full := cws.full kind literal mem
  have projects : ∀ {position other : Nat} {term term' : Term},
      literal ∈ cws.binaryOverapproximation.literals kind → position ≠ other →
      literal.atom.terms[position]? = some term → literal.atom.terms[other]? = some term' →
      (literal.polarity = true ↔
        ProjectsTo (facts.predicate kind) binding literal [position, other]) := by
    intro position other term term' inBinary different found found'
    rcases (ConjunctiveCondition.mem_overapproximation.mp inBinary).2 with ⟨_, binary⟩ | ⟨positive, _⟩
    · have inRange := (List.getElem?_eq_some_iff.mp found).1
      have inRange' := (List.getElem?_eq_some_iff.mp found').1
      rw [projectsTo_pair factsFull full binary different (by unfold kpkcArity at binary; omega)
        (by unfold kpkcArity at binary; omega)]
      exact holds.symm
    · exact iff_of_true positive (projectsTo_of_mem (holds.mpr positive) _)
  refine ⟨fun inUnary p _ _ mentioned => ?_, fun inBinary p q before _ _ _ _ => ?_,
    fun inBinary p _ _ _ _ _ => ?_, fun inNullary => ?_,
    fun _ => FactSets.isValidBinding_iff.mpr holds⟩
  · rcases (ConjunctiveCondition.mem_overapproximation.mp inUnary).2 with ⟨_, unary⟩ | ⟨positive, _⟩
    · obtain ⟨term, single⟩ := List.length_eq_one_iff.mp unary
      have isTerm := mentions_iff.mp mentioned
      rw [single, List.mem_singleton] at isTerm
      exact (consistentLiteral_unary factsFull covered full (isTerm ▸ single)).mpr holds
    · exact consistentLiteral_of_mem factsFull covered positive (holds.mpr positive)
  · rw [sets, consistentParameterPair_iff factsFull covered before.ne]
    intro position other found found'
    refine projects inBinary ?_ found found'
    rintro rfl
    rw [found] at found'
    cases found'
    exact before.ne rfl
  · rw [sets, consistentWithConstants_iff factsFull covered]
    intro position other object found found'
    exact projects inBinary (ne_of_terms found found') found found'
  · rw [FactSets.isValidBinding_iff,
      ground_of_nullary (ConjunctiveCondition.mem_nullary.mp inNullary).2 [] binding]
    exact holds

/-- A vertex of a literal of the unary condition is tested. -/
theorem vertexGate_of_mentions (inUnary : literal ∈ cws.unaryOverapproximation.literals kind)
    {p : Nat} (mentioned : mentions literal p = true) : cws.vertexGate kind p = true := by
  cases kind with
  | static => rfl
  | fluent =>
      exact Bool.or_eq_true_iff.mpr (.inl (List.any_eq_true.mpr ⟨literal, inUnary, mentioned⟩))

/-- An edge of a literal of the binary condition is tested. -/
theorem edgeGate_of_mentions (inBinary : literal ∈ cws.binaryOverapproximation.literals kind)
    {p q : Nat} (different : p ≠ q) (mentionsP : mentions literal p = true)
    (mentionsQ : mentions literal q = true) : cws.edgeGate kind p q = true := by
  have found : ((cws.binaryOverapproximation.literals kind).any fun l =>
      mentions l p && mentions l q) = true :=
    List.any_eq_true.mpr ⟨literal, inBinary, Bool.and_eq_true_iff.mpr ⟨mentionsP, mentionsQ⟩⟩
  cases kind with
  | static =>
      have found : (cws.binaryOverapproximation.staticLiterals.any fun l =>
        mentions l p && mentions l q) = true := found
      simp [edgeGate, hasDependency, different, found]
  | fluent =>
      have found : (cws.binaryOverapproximation.fluentLiterals.any fun l =>
        mentions l p && mentions l q) = true := found
      simp [edgeGate, hasDependency, binaryRuntime, different, found]

/-- The tests of a binary literal with a constant are exact, if an edge tests
its parameter or it is positive. -/
theorem holds_of_tested_constant (inDomains : cws.InDomains binding)
    (mem : literal ∈ cws.rule.body.literals kind) (two : 2 ≤ cws.rule.arity)
    (binary : kpkcArity literal = 2) (strong : ¬ cws.Weak kind literal)
    (tested : cws.LiteralTested facts.toFactSets binding kind literal)
    {position other p c : Nat} (found : literal.atom.terms[position]? = some (.parameter p))
    (found' : literal.atom.terms[other]? = some (.object c)) :
    literal.atom.ground binding ∈ facts.predicate kind ↔ literal.polarity = true := by
  have covered := covered_of_inDomains inDomains mem
  have full := cws.full kind literal mem
  have inRange := cws.closed kind literal mem p (List.mem_of_getElem? found)
  have mentioned := mentions_iff.mpr (List.mem_of_getElem? found)
  cases polarity : literal.polarity with
  | true =>
      have inUnary : literal ∈ cws.unaryOverapproximation.literals kind :=
        ConjunctiveCondition.mem_overapproximation.mpr ⟨mem, .inr ⟨polarity, by omega⟩⟩
      have test := tested.vertex inUnary p inRange (vertexGate_of_mentions inUnary mentioned) mentioned
      exact iff_of_true ((consistentLiteral_constant (facts.full kind) covered full binary polarity
        found found').mp test) rfl
  | false =>
      have inBinary : literal ∈ cws.binaryOverapproximation.literals kind :=
        ConjunctiveCondition.mem_overapproximation.mpr ⟨mem, .inl ⟨polarity, binary⟩⟩
      have partner : ∃ q < cws.rule.arity, cws.edgeGate kind p q = true := by
        by_contra none
        refine strong ⟨two, binary, .inr ⟨polarity, p, c, List.mem_of_getElem? found,
          List.mem_of_getElem? found', fun q inQ => ?_⟩⟩
        exact Bool.eq_false_iff.mpr fun gate => none ⟨q, inQ, gate⟩
      obtain ⟨q, inQ, gate⟩ := partner
      have test := tested.constants inBinary p inRange q inQ gate mentioned
      rw [← polarity]
      exact (consistentWithConstants_binary (facts.full kind) covered full binary found found').mp test

/-- The tests of a binary literal with two parameters are exact. -/
theorem holds_of_tested_pair (inDomains : cws.InDomains binding)
    (mem : literal ∈ cws.rule.body.literals kind) (binary : kpkcArity literal = 2)
    (tested : cws.LiteralTested facts.toFactSets binding kind literal)
    {position other p q : Nat} (before : p < q)
    (found : literal.atom.terms[position]? = some (.parameter p))
    (found' : literal.atom.terms[other]? = some (.parameter q)) :
    literal.atom.ground binding ∈ facts.predicate kind ↔ literal.polarity = true := by
  have inRange := cws.closed kind literal mem q (List.mem_of_getElem? found')
  have mentionsP := mentions_iff.mpr (List.mem_of_getElem? found)
  have mentionsQ := mentions_iff.mpr (List.mem_of_getElem? found')
  have inBinary : literal ∈ cws.binaryOverapproximation.literals kind := by
    apply ConjunctiveCondition.mem_overapproximation.mpr
    cases polarity : literal.polarity with
    | true => exact ⟨mem, .inr ⟨rfl, binary.ge⟩⟩
    | false => exact ⟨mem, .inl ⟨rfl, binary⟩⟩
  have test := tested.pair inBinary p q before inRange
    (edgeGate_of_mentions inBinary before.ne mentionsP mentionsQ) mentionsP mentionsQ
  exact (consistentParameterPair_binary (facts.full kind) (covered_of_inDomains inDomains mem)
    (cws.full kind literal mem) binary before.ne found found').mp test

/-- The tests of a literal that is not weak are exact. -/
theorem holds_of_literalTested (parameters : cws.rule.arity ≠ 0) (inDomains : cws.InDomains binding)
    (mem : literal ∈ cws.rule.body.literals kind) (strong : ¬ cws.Weak kind literal)
    (tested : cws.LiteralTested facts.toFactSets binding kind literal) :
    literal.atom.ground binding ∈ facts.predicate kind ↔ literal.polarity = true := by
  by_cases nullary : parameterArity literal = 0
  · rw [ground_of_nullary nullary binding [], ← FactSets.isValidBinding_iff]
    exact tested.nullary (ConjunctiveCondition.mem_nullary.mpr ⟨mem, nullary⟩)
  by_cases conflicting : (if cws.rule.arity = 1 then 1 else 2) < kpkcArity literal
  · exact FactSets.isValidBinding_iff.mp
      (tested.conflicting (ConjunctiveCondition.mem_conflictingOverapproximation.mpr ⟨mem, conflicting⟩))
  have small : kpkcArity literal = 0 ∨ kpkcArity literal = 1 ∨
      (2 ≤ cws.rule.arity ∧ kpkcArity literal = 2) := by
    split at conflicting <;> omega
  rcases small with zero | unary | ⟨two, binary⟩
  · exact absurd (parameterArity_eq_zero.mpr (by simp [List.length_eq_zero_iff.mp zero])) nullary
  · obtain ⟨term, single⟩ := List.length_eq_one_iff.mp unary
    cases term with
    | object => exact absurd (parameterArity_eq_zero.mpr (by simp [single])) nullary
    | parameter p =>
        have isTerm : .parameter p ∈ literal.atom.terms := by simp [single]
        have mentioned := mentions_iff.mpr isTerm
        have inUnary : literal ∈ cws.unaryOverapproximation.literals kind := by
          apply ConjunctiveCondition.mem_overapproximation.mpr
          cases polarity : literal.polarity with
          | true => exact ⟨mem, .inr ⟨rfl, unary.ge⟩⟩
          | false => exact ⟨mem, .inl ⟨rfl, unary⟩⟩
        have test := tested.vertex inUnary p (cws.closed kind literal mem p isTerm)
          (vertexGate_of_mentions inUnary mentioned) mentioned
        exact (consistentLiteral_unary (facts.full kind) (covered_of_inDomains inDomains mem)
          (cws.full kind literal mem) single).mp test
  · obtain ⟨first, second, pair⟩ := List.length_eq_two.mp binary
    have atZero : literal.atom.terms[0]? = some first := by rw [pair]; rfl
    have atOne : literal.atom.terms[1]? = some second := by rw [pair]; rfl
    cases first with
    | object c =>
        cases second with
        | object => exact absurd (parameterArity_eq_zero.mpr (by simp [pair])) nullary
        | parameter p =>
            exact holds_of_tested_constant inDomains mem two binary strong tested atOne atZero
    | parameter p =>
        cases second with
        | object c => exact holds_of_tested_constant inDomains mem two binary strong tested atZero atOne
        | parameter q =>
            rcases Nat.lt_trichotomy p q with before | rfl | after
            · exact holds_of_tested_pair inDomains mem binary tested before atZero atOne
            · exact absurd ⟨two, binary, .inl ⟨p, pair⟩⟩ strong
            · exact holds_of_tested_pair inDomains mem binary tested after atOne atZero

/-- The parameter of a weak literal is the only one it mentions. -/
theorem Weak.mentions_unique (weak : cws.Weak kind literal) {p q : Nat}
    (mentionsP : mentions literal p = true) (mentionsQ : mentions literal q = true) : p = q := by
  obtain ⟨_, binary, ⟨r, repeated⟩ | ⟨_, r, c, _, isConstant, _⟩⟩ := weak
  · have isP := mentions_iff.mp mentionsP
    have isQ := mentions_iff.mp mentionsQ
    rw [repeated] at isP isQ
    simp only [List.mem_cons, List.not_mem_nil, or_false, or_self, Term.parameter.injEq] at isP isQ
    exact isP.trans isQ.symm
  · obtain ⟨first, second, pair⟩ := List.length_eq_two.mp binary
    have isP := mentions_iff.mp mentionsP
    have isQ := mentions_iff.mp mentionsQ
    rw [pair] at isP isQ isConstant
    grind

/-- The tests of a weak literal say less than the literal. -/
theorem literalTested_iff_of_weak (inDomains : cws.InDomains binding)
    (mem : literal ∈ cws.rule.body.literals kind) (weak : cws.Weak kind literal) :
    cws.LiteralTested facts.toFactSets binding kind literal ↔
      WeaklyHolds facts.toFactSets binding kind literal := by
  have covered := covered_of_inDomains inDomains mem
  have repeats : literal.polarity = true →
      ∃ p, literal.atom.terms = [.parameter p, .parameter p] := by
    intro positive
    obtain ⟨_, _, repeated | ⟨negative, _⟩⟩ := weak
    · exact repeated
    · rw [positive] at negative
      cases negative
  constructor
  · intro tested positive
    obtain ⟨p, repeated⟩ := repeats positive
    have isTerm : .parameter p ∈ literal.atom.terms := by simp [repeated]
    have mentioned := mentions_iff.mpr isTerm
    have inUnary : literal ∈ cws.unaryOverapproximation.literals kind :=
      ConjunctiveCondition.mem_overapproximation.mpr
        ⟨mem, .inr ⟨positive, by rw [weak.2.1]; exact Nat.le_succ 1⟩⟩
    have test := tested.vertex inUnary p (cws.closed kind literal mem p isTerm)
      (vertexGate_of_mentions inUnary mentioned) mentioned
    exact (consistentLiteral_repeated (facts.full kind) covered positive repeated).mp test
  · intro projections
    refine ⟨fun inUnary p _ _ mentioned => ?_, fun _ p q before _ _ mentionsP mentionsQ => ?_,
      fun _ p _ q inQ gate mentioned => ?_, fun inNullary => ?_, fun inConflicting => ?_⟩
    · rcases (ConjunctiveCondition.mem_overapproximation.mp inUnary).2 with ⟨_, unary⟩ | ⟨positive, _⟩
      · rw [weak.2.1] at unary
        cases unary
      · obtain ⟨r, repeated⟩ := repeats positive
        obtain rfl : p = r :=
          weak.mentions_unique mentioned (mentions_iff.mpr (by simp [repeated]))
        exact (consistentLiteral_repeated (facts.full kind) covered positive repeated).mpr
          (projections positive)
    · exact absurd (weak.mentions_unique mentionsP mentionsQ) before.ne
    · have unique : ∀ {r}, mentions literal r = true → p = r := weak.mentions_unique mentioned
      obtain ⟨_, _, ⟨r, repeated⟩ | ⟨_, r, _, isTerm, _, untested⟩⟩ := weak
      · rw [sets, consistentWithConstants_iff (facts.full kind) covered]
        intro position other object _ found
        have isConstant := List.mem_of_getElem? found
        simp [repeated] at isConstant
      · obtain rfl : p = r := unique (mentions_iff.mpr isTerm)
        rw [untested q inQ] at gate
        cases gate
    · have nullary := parameterArity_eq_zero.mp (ConjunctiveCondition.mem_nullary.mp inNullary).2
      obtain ⟨_, _, ⟨r, repeated⟩ | ⟨_, r, _, isTerm, _⟩⟩ := weak
      · exact absurd (by simp [repeated]) (nullary r)
      · exact absurd isTerm (nullary r)
    · have large := (ConjunctiveCondition.mem_conflictingOverapproximation.mp inConflicting).2
      have two := weak.1
      have binary := weak.2.1
      rw [if_neg (by omega)] at large
      omega

end

/-! ### When matching is exact -/

theorem matches_of_no_parameters (nullary : cws.rule.arity = 0) {st : Kpkc.DeltaKPKC}
    {ws : Kpkc.Workspace} {binding : List Nat} :
    cws.Matches numeric facts st ws binding ↔
      (cws.InDomains binding ∧ cws.LiteralsHold facts binding) ∧
        cws.NumericAccepted numeric facts binding := by
  rw [Matches, if_pos nullary, NumericAccepted, if_pos nullary, InDomains, nullary,
    FactSets.isValidCondition_iff, FactSets.isValidCondition_iff]
  simp only [LiteralsHold, FactSets.isValidBinding_iff]
  constructor
  · rintro ⟨rfl, _, literals, constraints⟩
    exact ⟨⟨⟨rfl, fun _ inRange => absurd inRange (Nat.not_lt_zero _)⟩, literals⟩, constraints⟩
  · rintro ⟨⟨⟨empty, _⟩, literals⟩, constraints⟩
    obtain rfl := List.length_eq_zero_iff.mp empty
    refine ⟨rfl, ⟨fun kind literal mem => ?_, fun constraint mem => ?_⟩, literals, constraints⟩
    · exact literals kind literal (ConjunctiveCondition.mem_literals_filter.mp mem).1
    · exact constraints constraint (List.mem_of_mem_filter mem)

/-- Matching is exact for a binding iff a binding that fails on weak literals
alone fails already on their projections. -/
theorem matches_exact_iff (cws : ConstRuleWorkspace) (numeric : NumericOverapproximation)
    (facts : TypedFactSets cws.predicateDomains) (st : Kpkc.DeltaKPKC)
    (reachable : Kpkc.Reachable (cws.staticConsistencyGraph numeric facts.toFactSets) st)
    (ws : Kpkc.Workspace) (binding : List Nat) :
    (cws.Matches numeric facts.toFactSets st ws binding ↔
      (cws.InDomains binding ∧ cws.LiteralsHold facts.toFactSets binding) ∧
        cws.NumericAccepted numeric facts.toFactSets binding) ↔
    (cws.InDomains binding → cws.NumericAccepted numeric facts.toFactSets binding →
      (∀ kind, ∀ literal ∈ cws.rule.body.literals kind, ¬ cws.Weak kind literal →
        (literal.atom.ground binding ∈ facts.predicate kind ↔ literal.polarity = true)) →
      (∀ kind, ∀ literal ∈ cws.rule.body.literals kind, cws.Weak kind literal →
        WeaklyHolds facts.toFactSets binding kind literal) →
      ∀ kind, ∀ literal ∈ cws.rule.body.literals kind, cws.Weak kind literal →
        (literal.atom.ground binding ∈ facts.predicate kind ↔ literal.polarity = true)) := by
  by_cases parameters : cws.rule.arity = 0
  · apply iff_of_true (matches_of_no_parameters parameters)
    intro _ _ _ _ kind literal _ weak
    have two := weak.1
    omega
  rw [matches_iff parameters reachable]
  constructor
  · intro exactly inDomains accepted strong weak kind literal mem _
    refine (exactly.mp ⟨inDomains, fun kind literal mem => ?_, accepted⟩).1.2 kind literal mem
    by_cases isWeak : cws.Weak kind literal
    · exact (literalTested_iff_of_weak inDomains mem isWeak).mpr (weak kind literal mem isWeak)
    · exact literalTested_of_holds inDomains mem (strong kind literal mem isWeak)
  · intro condition
    constructor
    · rintro ⟨inDomains, tested, accepted⟩
      have strong : ∀ kind, ∀ literal ∈ cws.rule.body.literals kind, ¬ cws.Weak kind literal → _ :=
        fun kind literal mem isStrong =>
          holds_of_literalTested parameters inDomains mem isStrong (tested kind literal mem)
      have weak := condition inDomains accepted strong fun kind literal mem isWeak =>
        (literalTested_iff_of_weak inDomains mem isWeak).mp (tested kind literal mem)
      refine ⟨⟨inDomains, fun kind literal mem => ?_⟩, accepted⟩
      by_cases isWeak : cws.Weak kind literal
      · exact weak kind literal mem isWeak
      · exact strong kind literal mem isWeak
    · rintro ⟨⟨inDomains, literals⟩, accepted⟩
      exact ⟨inDomains, fun kind literal mem =>
        literalTested_of_holds inDomains mem (literals kind literal mem), accepted⟩

end ConstRuleWorkspace

/-- The rule `h(x, y) :- p(x, x)` over the objects 0 and 1. -/
def repeatedVariable : ConstRuleWorkspace where
  rule := ⟨2, { staticLiterals := [⟨⟨0, [.parameter 0, .parameter 0]⟩, true⟩] },
    ⟨0, [.parameter 0, .parameter 1]⟩, 0⟩
  parameterDomains := [[0, 1], [0]]
  predicateDomains _ _ := [[0, 1], [0, 1]]
  closed kind literal mem index isTerm := by
    cases kind with
    | static =>
        obtain rfl := List.mem_singleton.mp mem
        simp only [List.mem_cons, List.not_mem_nil, or_false, or_self, Term.parameter.injEq] at isTerm
        subst isTerm
        exact Nat.zero_lt_two
    | fluent => cases mem
  full kind literal mem := by
    cases kind with
    | static =>
        obtain rfl := List.mem_singleton.mp mem
        rfl
    | fluent => cases mem
  covered kind literal mem position term found object isObject := by
    cases kind with
    | static =>
        obtain rfl := List.mem_singleton.mp mem
        match position with
        | 0 | 1 =>
            cases found
            exact isObject
        | _ + 2 => cases found
    | fluent => cases mem

/-- The facts `p(0, 1)` and `p(1, 0)`. -/
def crossedFacts : TypedFactSets repeatedVariable.predicateDomains where
  predicate
    | .static => [⟨0, [0, 1]⟩, ⟨0, [1, 0]⟩]
    | .fluent => []
  function _ _ := .nan
  full kind fact mem := by
    cases kind with
    | static =>
        simp only [List.mem_cons, List.not_mem_nil, or_false] at mem
        obtain rfl | rfl := mem <;> rfl
    | fluent => cases mem

/-- The fact `p(0, 0)`. -/
def selfLoopFacts : TypedFactSets repeatedVariable.predicateDomains where
  predicate
    | .static => [⟨0, [0, 0]⟩]
    | .fluent => []
  function _ _ := .nan
  full kind fact mem := by
    cases kind with
    | static =>
        obtain rfl := List.mem_singleton.mp mem
        rfl
    | fluent => cases mem

/-- With the fact `p(0, 0)` the match of `x = y = 0` is right. -/
theorem matches_exact_iff_selfLoop :
    repeatedVariable.Matches ⟨fun _ _ _ => true, fun _ _ _ _ => true⟩ selfLoopFacts.toFactSets
        Kpkc.DeltaKPKC.create ⟨fun _ _ => false, fun _ => false, fun _ => ⟨0, 0⟩, none⟩ [0, 0] ↔
      (repeatedVariable.InDomains [0, 0] ∧
        repeatedVariable.LiteralsHold selfLoopFacts.toFactSets [0, 0]) ∧
      repeatedVariable.NumericAccepted ⟨fun _ _ _ => true, fun _ _ _ _ => true⟩
        selfLoopFacts.toFactSets [0, 0] := by
  apply (repeatedVariable.matches_exact_iff ⟨fun _ _ _ => true, fun _ _ _ _ => true⟩ selfLoopFacts
    Kpkc.DeltaKPKC.create .create ⟨fun _ _ => false, fun _ => false, fun _ => ⟨0, 0⟩, none⟩
    [0, 0]).mpr
  intro _ _ _ _ kind literal mem _
  cases kind with
  | static =>
      obtain rfl := List.mem_singleton.mp mem
      decide
  | fluent => cases mem

/-- The rule matches `x = y = 0`, although `p(0, 0)` is no fact. -/
theorem repeatedVariable_not_exact :
    ¬ (repeatedVariable.Matches ⟨fun _ _ _ => true, fun _ _ _ _ => true⟩ crossedFacts.toFactSets
        Kpkc.DeltaKPKC.create ⟨fun _ _ => false, fun _ => false, fun _ => ⟨0, 0⟩, none⟩ [0, 0] ↔
      repeatedVariable.InDomains [0, 0] ∧
        repeatedVariable.LiteralsHold crossedFacts.toFactSets [0, 0]) := by
  intro exactly
  have matched : repeatedVariable.Matches ⟨fun _ _ _ => true, fun _ _ _ _ => true⟩
      crossedFacts.toFactSets Kpkc.DeltaKPKC.create
      ⟨fun _ _ => false, fun _ => false, fun _ => ⟨0, 0⟩, none⟩ [0, 0] := by
    refine ⟨⟨[⟨0, 0⟩, ⟨1, 0⟩], ?_, ?_⟩, ?_, ?_⟩ <;> decide +kernel
  have fails : ¬ ((⟨0, [0, 0]⟩ : Tuple) ∈ crossedFacts.predicate .static ↔ true = true) := by
    decide
  exact fails ((exactly.mp matched).2 .static _ List.mem_cons_self)

end Tyr.Datalog
