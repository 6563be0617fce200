import Tyr.Datalog.GrowingCliques
import Tyr.Datalog.MirroredBuckets

/-!
The bindings that a rule reports on growing facts.

Along the passes over a stratum the facts grow, and no new fact has a predicate that a rule
of the stratum negates. So a clique that passes its tests keeps passing them, and what a
pass reports are the bindings that pass the tests now and did not on the facts of the
enumeration before.

* `grows_of_growsFor` — vertices and edges keep passing.
* `acceptedClique_iff` — a clique is accepted iff its binding passes the tests.
* `newBindings_spec` — the bindings of the new cliques.
-/

namespace Tyr.Datalog

open Tyr.Lib Tyr.Formalism Tyr.Formalism.Datalog

/-! ### Tests on more facts -/

/-- No fact is lost, and no new fact has a predicate that the rule negates. -/
structure GrowsFor (rule : Rule) (old new : List Tuple) : Prop where
  subset : ∀ fact ∈ old, fact ∈ new
  negative : ∀ literal ∈ rule.body.fluentLiterals, literal.polarity = false →
    ∀ fact ∈ new, fact.relation = literal.atom.predicate → fact ∈ old

theorem GrowsFor.trans {rule : Rule} {old new later : List Tuple} (first : GrowsFor rule old new)
    (second : GrowsFor rule new later) : GrowsFor rule old later where
  subset fact mem := second.subset fact (first.subset fact mem)
  negative literal mem negative fact isFact same :=
    first.negative literal mem negative fact (second.negative literal mem negative fact isFact same) same

namespace PredicateAssignmentSets

variable {domains : Nat → List (List Nat)} {old new : List Tuple} {predicate : Nat}

/-- The bits of a predicate depend on its facts alone. -/
theorem set_mono_of_relation (sub : ∀ fact ∈ old, fact.relation = predicate → fact ∈ new) {rank : Nat}
    (isSet : (ofFacts domains old predicate).set rank = true) :
    (ofFacts domains new predicate).set rank = true := by
  rw [set_ofFacts_iff] at isSet ⊢
  obtain ⟨fact, mem, same, adds⟩ := isSet
  exact ⟨fact, sub fact mem same, same, adds⟩

end PredicateAssignmentSets

/-- What a literal asks of the set and gets, it also gets from the other one. -/
structure KeepsTests (literal : Literal) (set other : PredicateAssignmentSet) : Prop where
  vertex : ∀ a, (literal.polarity == set.testVertex a) = true →
    (literal.polarity == other.testVertex a) = true
  edge : ∀ a, (literal.polarity == set.testEdge a) = true →
    (literal.polarity == other.testEdge a) = true

section

variable {literal : Literal} {set other : PredicateAssignmentSet}

theorem KeepsTests.consistentWithConstants (keeps : KeepsTests literal set other) {vertex : RuleVertex}
    (consistent : consistentWithConstants set literal vertex = true) :
    Datalog.consistentWithConstants other literal vertex = true := by
  simp only [Datalog.consistentWithConstants, List.all_eq_true] at consistent ⊢
  intro position mem constant memConstant
  exact keeps.edge _ (consistent position mem constant memConstant)

theorem KeepsTests.consistentParameterPair (keeps : KeepsTests literal set other)
    {first second : RuleVertex}
    (consistent : consistentParameterPair set literal first second = true) :
    Datalog.consistentParameterPair other literal first second = true := by
  simp only [Datalog.consistentParameterPair, List.all_eq_true] at consistent ⊢
  intro position mem position' mem'
  exact keeps.edge _ (consistent position mem position' mem')

theorem KeepsTests.consistentLiteral (keeps : KeepsTests literal set other) {vertex : RuleVertex}
    (consistent : consistentLiteral set literal vertex = true) :
    Datalog.consistentLiteral other literal vertex = true := by
  simp only [Datalog.consistentLiteral, Bool.and_eq_true, List.all_eq_true] at consistent ⊢
  obtain ⟨positions, constants⟩ := consistent
  refine ⟨fun position mem => ⟨keeps.vertex _ (positions position mem).1, ?_⟩,
    fun constant mem => keeps.vertex _ (constants constant mem)⟩
  exact fun constant memConstant => keeps.edge _ ((positions position mem).2 constant memConstant)

variable {rule : Rule} {old new : List Tuple} {domains : Nat → List (List Nat)}

/-- A positive literal gains bits, and a negative one has the same. -/
theorem GrowsFor.keepsTests (grows : GrowsFor rule old new) (mem : literal ∈ rule.body.fluentLiterals) :
    KeepsTests literal (PredicateAssignmentSets.ofFacts domains old literal.atom.predicate)
      (PredicateAssignmentSets.ofFacts domains new literal.atom.predicate) := by
  have hashes := @PredicateAssignmentSets.hashes_ofFacts domains
  have keeps {rank : Nat} (test : (literal.polarity ==
      (PredicateAssignmentSets.ofFacts domains old literal.atom.predicate).set rank) = true) :
      (literal.polarity ==
        (PredicateAssignmentSets.ofFacts domains new literal.atom.predicate).set rank) = true := by
    cases polarity : literal.polarity with
    | true =>
        rw [polarity, beq_iff_eq] at test
        exact beq_iff_eq.mpr (PredicateAssignmentSets.set_mono grows.subset test.symm).symm
    | false =>
        rw [polarity] at test
        exact negative_test rfl (PredicateAssignmentSets.set_mono_of_relation
          (grows.negative literal mem polarity)) test
  constructor
  · intro a test
    rw [PredicateAssignmentSet.testVertex, hashes] at test ⊢
    exact keeps test
  · intro a test
    rw [PredicateAssignmentSet.testEdge, hashes] at test ⊢
    exact keeps test

end

namespace ConstRuleWorkspace

variable {cws : ConstRuleWorkspace} {numeric : NumericOverapproximation} {data : ProgramData}
  {old new fluent : List Tuple}

/-- The consistency graph of a rule depends on the static facts alone. -/
def ruleGraph (cws : ConstRuleWorkspace) (numeric : NumericOverapproximation) (data : ProgramData) :
    Kpkc.StaticConsistencyGraph AssignmentSets :=
  cws.staticConsistencyGraph numeric (data.factSets [])

/-- The assignment sets of the fluent facts. -/
def setsOf (cws : ConstRuleWorkspace) (data : ProgramData) (fluent : List Tuple) : AssignmentSets :=
  cws.assignmentSets (data.factSets fluent)

theorem mem_body_of_overapproximation {k : Nat} {kind : FactKind} {literal : Literal}
    (mem : literal ∈ (cws.rule.body.overapproximation k).literals kind) :
    literal ∈ cws.rule.body.literals kind :=
  (ConjunctiveCondition.mem_overapproximation.mp mem).1

theorem grows_vertices (grows : GrowsFor cws.rule old new) {vertex : RuleVertex}
    (consistent : consistentLiterals (cws.setsOf data old).fluent
      cws.unaryOverapproximation.fluentLiterals vertex = true) :
    consistentLiterals (cws.setsOf data new).fluent cws.unaryOverapproximation.fluentLiterals vertex =
      true := by
  unfold consistentLiterals at consistent ⊢
  rw [List.all_eq_true] at consistent ⊢
  intro literal mem
  have inBody : literal ∈ cws.rule.body.literals .fluent := mem_body_of_overapproximation mem
  have keeps : KeepsTests literal ((cws.setsOf data old).fluent literal.atom.predicate)
      ((cws.setsOf data new).fluent literal.atom.predicate) := grows.keepsTests inBody
  have test := consistent literal mem
  rw [Bool.or_eq_true] at test ⊢
  exact test.imp_right keeps.consistentLiteral

theorem grows_edges (grows : GrowsFor cws.rule old new) {first second : RuleVertex}
    (consistent : consistentEdgeLiterals (cws.setsOf data old).fluent
      cws.binaryOverapproximation.fluentLiterals first second = true) :
    consistentEdgeLiterals (cws.setsOf data new).fluent cws.binaryOverapproximation.fluentLiterals
      first second = true := by
  rw [consistentEdgeLiterals_iff] at consistent ⊢
  intro literal mem
  have inBody : literal ∈ cws.rule.body.literals .fluent := mem_body_of_overapproximation mem
  have keeps : KeepsTests literal ((cws.setsOf data old).fluent literal.atom.predicate)
      ((cws.setsOf data new).fluent literal.atom.predicate) := grows.keepsTests inBody
  obtain ⟨pair, constants, constants'⟩ := consistent literal mem
  exact ⟨fun mentioned mentioned' => keeps.consistentParameterPair (pair mentioned mentioned'),
    fun mentioned => keeps.consistentWithConstants (constants mentioned),
    fun mentioned => keeps.consistentWithConstants (constants' mentioned)⟩

/-- A vertex or an edge that passes its test keeps passing it. -/
theorem grows_of_growsFor (growing : GrowsFor cws.rule old new) :
    Kpkc.Grows (cws.ruleGraph numeric data) (cws.setsOf data old) (cws.setsOf data new) where
  vertex := by
    rintro v ⟨inBits, runtime⟩
    refine ⟨inBits, fun isRuntime => ?_⟩
    obtain ⟨literals, constraints⟩ := Bool.and_eq_true_iff.mp (runtime isRuntime)
    exact Bool.and_eq_true_iff.mpr ⟨grows_vertices growing literals, constraints⟩
  edge := by
    rintro u v ⟨before, dep, static, runtime⟩
    refine ⟨before, dep, static, fun isRuntime => ?_⟩
    obtain ⟨literals, constraints⟩ := Bool.and_eq_true_iff.mp (runtime isRuntime)
    exact Bool.and_eq_true_iff.mpr ⟨grows_edges growing literals, constraints⟩

/-- A binding that passes the tests keeps passing them. -/
theorem CliqueTests.of_growsFor {binding : List Nat} (growing : GrowsFor cws.rule old new)
    (tests : cws.CliqueTests numeric (data.factSets old) binding) :
    cws.CliqueTests numeric (data.factSets new) binding := by
  refine ⟨tests.inDomains, fun kind p inRange gate => ?_, fun kind p q before inRange gate => ?_,
    tests.numericVertex, tests.numericEdge⟩
  · cases kind with
    | static => exact tests.vertex .static p inRange gate
    | fluent => exact @grows_vertices cws data old new growing _ (tests.vertex .fluent p inRange gate)
  · cases kind with
    | static => exact tests.edge .static p q before inRange gate
    | fluent => exact @grows_edges cws data old new growing _ _ (tests.edge .fluent p q before inRange gate)

/-! ### The bindings of accepted cliques -/

/-- The clique passes its tests against the facts. -/
def AcceptedClique (cws : ConstRuleWorkspace) (numeric : NumericOverapproximation)
    (data : ProgramData) (fluent : List Tuple) (clique : List Kpkc.Vertex) : Prop :=
  ∃ f, Kpkc.IsAcceptedSelection (cws.ruleGraph numeric data) (cws.setsOf data fluent) f ∧
    clique = (List.range cws.rule.arity).map f

/-- The clique has one vertex of each partition. -/
def IsChoice (cws : ConstRuleWorkspace) (data : ProgramData) (clique : List Kpkc.Vertex) : Prop :=
  ∃ f : Nat → Kpkc.Vertex, clique = (List.range cws.rule.arity).map f ∧
    ∀ p < cws.rule.arity, (f p).partition = p ∧
      (f p).bit < (cws.partitionObjects (data.factSets []) p).length

/-- The objects of a clique. -/
def bindingOf (cws : ConstRuleWorkspace) (data : ProgramData) (clique : List Kpkc.Vertex) : List Nat :=
  cws.createGeneralBinding (data.factSets []) clique

theorem AcceptedClique.isChoice {clique : List Kpkc.Vertex}
    (accepted : cws.AcceptedClique numeric data fluent clique) : cws.IsChoice data clique := by
  obtain ⟨f, isAccepted, rfl⟩ := accepted
  refine ⟨f, rfl, fun p inRange => ⟨isAccepted.partition p inRange, ?_⟩⟩
  have inBits := (isAccepted.vertex p inRange).1
  rwa [isAccepted.partition p inRange] at inBits

theorem nodup_partitionObjects (distinct : ∀ domain ∈ cws.parameterDomains, domain.Nodup) (p : Nat) :
    (cws.partitionObjects (data.factSets fluent) p).Nodup := by
  apply List.Nodup.filter
  rw [List.getD_eq_getElem?_getD]
  cases found : cws.parameterDomains[p]? with
  | none => exact List.nodup_nil
  | some domain => exact distinct domain (List.mem_of_getElem? found)

/-- Two choices of vertices for the same objects are the same. -/
theorem choice_unique (distinct : ∀ domain ∈ cws.parameterDomains, domain.Nodup)
    {v w : Kpkc.Vertex} (samePartition : v.partition = w.partition)
    (inBits : v.bit < (cws.partitionObjects (data.factSets []) v.partition).length)
    (inBits' : w.bit < (cws.partitionObjects (data.factSets []) w.partition).length)
    (same : (cws.getVertex (data.factSets []) v).object = (cws.getVertex (data.factSets []) w).object) :
    v = w := by
  obtain ⟨p, bit⟩ := v
  obtain ⟨q, bit'⟩ := w
  obtain rfl : p = q := samePartition
  rw [getVertex, getVertex, List.getD_eq_getElem _ _ inBits, List.getD_eq_getElem _ _ inBits'] at same
  exact Kpkc.Vertex.ext rfl ((nodup_partitionObjects distinct p).getElem_inj_iff.mp same)

/-- A clique is accepted iff its binding passes the tests. -/
theorem acceptedClique_iff (distinct : ∀ domain ∈ cws.parameterDomains, domain.Nodup)
    {clique : List Kpkc.Vertex} (choice : cws.IsChoice data clique) :
    cws.AcceptedClique numeric data fluent clique ↔
      cws.CliqueTests numeric (data.factSets fluent) (cws.bindingOf data clique) := by
  constructor
  · rintro ⟨f, accepted, rfl⟩
    have isAccepted : Kpkc.IsAcceptedSelection (cws.staticConsistencyGraph numeric (data.factSets fluent))
        (cws.assignmentSets (data.factSets fluent)) f := accepted
    apply cliqueTests_of_selection isAccepted
    rw [bindingOf, createGeneralBinding, List.map_map]
    rfl
  · intro tests
    obtain ⟨f, rfl, inLayout⟩ := choice
    obtain ⟨g, accepted, vertex⟩ := selection_of_cliqueTests tests
    refine ⟨g, accepted, List.map_congr_left fun p mem => ?_⟩
    have inRange := List.mem_range.mp mem
    have partition : (g p).partition = p := accepted.partition p inRange
    have inBits := (accepted.vertex p inRange).1
    have isVertex : cws.getVertex (data.factSets []) (f p) =
        vertexOf (cws.bindingOf data ((List.range cws.rule.arity).map f)) p := by
      apply getVertex_eq (fun q below => (inLayout q below).1) _ inRange
      rw [bindingOf, createGeneralBinding, List.map_map]
      rfl
    refine choice_unique distinct ((inLayout p inRange).1.trans partition.symm) ?_ inBits
      (congrArg RuleVertex.object (isVertex.trans (vertex p inRange).symm))
    rw [(inLayout p inRange).1]
    exact (inLayout p inRange).2

theorem exists_acceptedClique {binding : List Nat}
    (tests : cws.CliqueTests numeric (data.factSets fluent) binding) :
    ∃ clique, cws.AcceptedClique numeric data fluent clique ∧ cws.bindingOf data clique = binding := by
  have enumerated := (@enumerated_iff cws numeric (data.factSets fluent) _ .create
    ⟨fun _ _ => false, fun _ => false, fun _ => ⟨0, 0⟩, none⟩ binding).mpr tests
  obtain ⟨clique, isNew, same⟩ := enumerated
  exact ⟨clique, (Kpkc.first_report_iff .create _ _).mp isNew, same⟩

theorem bindingOf_inj (distinct : ∀ domain ∈ cws.parameterDomains, domain.Nodup)
    {clique clique' : List Kpkc.Vertex} (choice : cws.IsChoice data clique)
    (choice' : cws.IsChoice data clique')
    (same : cws.bindingOf data clique = cws.bindingOf data clique') : clique = clique' := by
  obtain ⟨f, rfl, inLayout⟩ := choice
  obtain ⟨g, rfl, inLayout'⟩ := choice'
  refine List.map_congr_left fun p mem => ?_
  have inRange := List.mem_range.mp mem
  rw [bindingOf, bindingOf, createGeneralBinding, createGeneralBinding, List.map_map, List.map_map] at same
  have object := List.map_inj_left.mp same p mem
  have partition := (inLayout p inRange).1.trans (inLayout' p inRange).1.symm
  refine choice_unique distinct partition ?_ ?_ object
  · rw [(inLayout p inRange).1]
    exact (inLayout p inRange).2
  · rw [(inLayout' p inRange).1]
    exact (inLayout' p inRange).2

/-! ### The reported bindings -/

/-- `generate_general_case`: the bindings of the new cliques. -/
def newBindings (cws : ConstRuleWorkspace) (numeric : NumericOverapproximation) (data : ProgramData)
    (kpkc : Kpkc.DeltaKPKC) (ws : Kpkc.Workspace) : List (List Nat) :=
  (Kpkc.forEachNewKClique (cws.ruleGraph numeric data) kpkc ws).map (cws.bindingOf data)

/-- After growing facts the new cliques are those that are accepted now and were not before. -/
theorem mem_newCliques {origin : Kpkc.DeltaKPKC}
    (reachable : Kpkc.Reachable (cws.ruleGraph numeric data) origin) (ws : Kpkc.Workspace)
    {history : List (List Tuple)} (growing : (history ++ [fluent]).Pairwise (GrowsFor cws.rule))
    (clique : List Kpkc.Vertex) :
    clique ∈ Kpkc.forEachNewKClique (cws.ruleGraph numeric data)
        (Kpkc.runAfterReset (cws.ruleGraph numeric data) origin
          ((history ++ [fluent]).map (cws.setsOf data))) ws ↔
      cws.AcceptedClique numeric data fluent clique ∧
        ∀ seen ∈ history.getLast?, ¬ cws.AcceptedClique numeric data seen clique := by
  have grown : ((history ++ [fluent]).map (cws.setsOf data)).Pairwise
      (Kpkc.Grows (cws.ruleGraph numeric data)) :=
    List.pairwise_map.mpr (growing.imp grows_of_growsFor)
  rw [List.map_append, List.map_singleton] at grown ⊢
  rw [Kpkc.report_grows_iff reachable ws grown, List.getLast?_map]
  refine and_congr Iff.rfl ?_
  simp only [Option.mem_def, Option.map_eq_some_iff, forall_exists_index, and_imp,
    forall_apply_eq_imp_iff₂]
  exact Iff.rfl

/-- After growing facts the new cliques are, each once, those of the bindings that pass the
tests and did not before. -/
theorem newBindings_spec (distinct : ∀ domain ∈ cws.parameterDomains, domain.Nodup)
    {origin : Kpkc.DeltaKPKC} (reachable : Kpkc.Reachable (cws.ruleGraph numeric data) origin)
    (ws : Kpkc.Workspace) {history : List (List Tuple)}
    (growing : (history ++ [fluent]).Pairwise (GrowsFor cws.rule)) :
    (cws.newBindings numeric data (Kpkc.runAfterReset (cws.ruleGraph numeric data) origin
      ((history ++ [fluent]).map (cws.setsOf data))) ws).Nodup ∧
    ∀ binding, binding ∈ cws.newBindings numeric data (Kpkc.runAfterReset (cws.ruleGraph numeric data)
        origin ((history ++ [fluent]).map (cws.setsOf data))) ws ↔
      cws.CliqueTests numeric (data.factSets fluent) binding ∧
        ∀ seen ∈ history.getLast?, ¬ cws.CliqueTests numeric (data.factSets seen) binding := by
  have reported := mem_newCliques reachable ws growing
  constructor
  · refine List.Nodup.map_on (fun clique mem clique' mem' same => ?_) ?_
    · exact bindingOf_inj distinct ((reported clique).mp mem).1.isChoice
        ((reported clique').mp mem').1.isChoice same
    · rw [List.map_append, List.map_singleton]
      exact (Kpkc.report_spec reachable ws (history.map (cws.setsOf data)) (cws.setsOf data fluent)).1
  · intro binding
    constructor
    · intro mem
      obtain ⟨clique, isNew, rfl⟩ := List.mem_map.mp mem
      obtain ⟨accepted, notBefore⟩ := (reported clique).mp isNew
      refine ⟨(acceptedClique_iff distinct accepted.isChoice).mp accepted, fun seen isSeen tests => ?_⟩
      exact notBefore seen isSeen ((acceptedClique_iff distinct accepted.isChoice).mpr tests)
    · rintro ⟨tests, notBefore⟩
      obtain ⟨clique, accepted, rfl⟩ := exists_acceptedClique tests
      refine List.mem_map.mpr ⟨clique, (reported clique).mpr ⟨accepted, fun seen isSeen before => ?_⟩, rfl⟩
      exact notBefore seen isSeen ((acceptedClique_iff distinct accepted.isChoice).mp before)

end ConstRuleWorkspace

end Tyr.Datalog
