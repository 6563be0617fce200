import Tyr.Planning.Programs.Axiom

/-!
The program of the applicable actions, and the bindings that the successor generator of a
lifted task goes over.

Each action is a rule whose head is its applicability predicate. The program is evaluated
on the atoms and the values of an extended state, and each fact of an applicability
predicate is a binding of its action.

* `ApplicableActionProgram.createProgram` — the program.
* `ApplicableActionProgram.ComputesActionFacts` — the evaluation of a state.
* `ApplicableActionProgram.forEachActionBinding` — the bindings that are read.
* `ApplicableActionProgram.getApplicableActionBindings_exact` — what is applicable.
-/

namespace Tyr.Planning

open Tyr.Lib Tyr.Formalism Tyr.Formalism.Planning Tyr.Formalism.FunctionExpression
open Tyr.Analysis.Stratification

open GroundTaskProgram (mergeLiteral mergeAtom actionData createApplicabilityAtom
  createApplicabilityAtom_ground parameter_mem_createApplicabilityAtom)
open StateProgram

namespace ApplicableActionProgram

section

variable (task : NamedTask)

/-- The data of the applicability predicates. -/
def applicabilityData : List PredicateData :=
  (List.finRange task.actions.length).map (actionData task)

/-- The index of `create_applicability_predicate`. -/
def applicabilityPredicate (action : Fin task.actions.length) : Nat :=
  predicateIndex task (applicabilityData task) (actionData task action)

variable {task} in
theorem actionData_mem (action : Fin task.actions.length) :
    actionData task action ∈ applicabilityData task :=
  List.mem_map_of_mem (List.mem_finRange action)

end

end ApplicableActionProgram

open ApplicableActionProgram (applicabilityData)

/-- A task whose actions are declared, too, and whose applicability predicates are distinct. -/
structure ActionTask [LinearOrder (FunctionExpression FunctionTerm)] extends AxiomTask where
  applicability_distinct : Distinct toNamedTask (applicabilityData toNamedTask)
  conditions_declared : ∀ action ∈ actions, Declared toNamedTask action.arity action.condition

namespace ApplicableActionProgram

theorem declared_get [LinearOrder (FunctionExpression FunctionTerm)] {task : ActionTask}
    (action : Fin task.actions.length) :
    Declared task.toNamedTask (task.actions.get action).arity (task.actions.get action).condition :=
  task.conditions_declared _ (List.get_mem _ action)

/-! ### The program -/

section

variable [LinearOrder (FunctionExpression Datalog.FunctionTerm)] (task : NamedTask)
  (literals : Canonicalization Literal)
  (constraints : Canonicalization (BooleanOperator Datalog.FunctionTerm))

def createRule (action : Fin task.actions.length) : Datalog.Rule where
  arity := (task.actions.get action).arity
  body := createBody task (applicabilityData task) literals constraints
    (task.actions.get action).condition
  head := createApplicabilityAtom (applicabilityPredicate task action) (task.actions.get action).arity

def rules : List Datalog.Rule :=
  (List.finRange task.actions.length).map (createRule task literals constraints)

theorem heads_closed : ∀ rule ∈ rules task literals constraints, ∀ index,
    .parameter index ∈ rule.head.terms → index < rule.arity := by
  intro rule mem index occurs
  obtain ⟨action, _, rfl⟩ := List.mem_map.mp mem
  exact parameter_mem_createApplicabilityAtom occurs

/-- `create_program`. -/
def createProgram : Datalog.Program where
  objects := task.objects
  arity := arity task (applicabilityData task)
  staticAtoms := task.staticAtoms
  fluentAtoms := task.fluentAtoms.map
    (mergeAtom (fluentToFluentPredicate task (applicabilityData task)))
  staticFtermValues := task.staticFtermValues
  fluentFtermValues := task.fluentFtermValues
  rules := rules task literals constraints
  heads_closed := heads_closed task literals constraints

theorem hasStaticPart : HasStaticPart task (createProgram task literals constraints) := ⟨rfl, rfl, rfl⟩

end

section

variable [LinearOrder (FunctionExpression FunctionTerm)]
  [LinearOrder (FunctionExpression Datalog.FunctionTerm)] (task : ActionTask)
  (literals : Canonicalization Literal)
  (constraints : Canonicalization (BooleanOperator Datalog.FunctionTerm))

theorem literals_typed : ∀ rule ∈ rules task.toNamedTask literals constraints, ∀ kind,
    ∀ literal ∈ rule.body.literals kind,
      literal.atom.terms.length = arity task.toNamedTask (applicabilityData task.toNamedTask)
        (predicateSymbol kind literal.atom.predicate) ∧
      ∀ index, .parameter index ∈ literal.atom.terms → index < rule.arity := by
  intro rule mem kind literal memLiteral
  obtain ⟨action, _, rfl⟩ := List.mem_map.mp mem
  exact (declared_get action).literal_typed kind memLiteral

theorem head_lt : ∀ rule ∈ rules task.toNamedTask literals constraints, rule.head.predicate <
    (fluentPredicates task.toNamedTask (applicabilityData task.toNamedTask)).length := by
  intro rule mem
  obtain ⟨action, _, rfl⟩ := List.mem_map.mp mem
  exact predicateIndex_lt (further_mem (actionData_mem action))

theorem body_lt : ∀ rule ∈ rules task.toNamedTask literals constraints,
    ∀ literal ∈ rule.body.fluentLiterals, literal.atom.predicate <
      (fluentPredicates task.toNamedTask (applicabilityData task.toNamedTask)).length := by
  intro rule mem literal memLiteral
  obtain ⟨action, _, rfl⟩ := List.mem_map.mp mem
  exact (declared_get action).predicate_lt memLiteral

/-- The program with what the task guarantees of it. -/
def typedProgram : TypedProgram where
  program := createProgram task.toNamedTask literals constraints
  numFluentPredicates := (fluentPredicates task.toNamedTask (applicabilityData task.toNamedTask)).length
  head_lt := head_lt task literals constraints
  body_lt := body_lt task literals constraints
  literals_typed := literals_typed task literals constraints

end

/-! ### Applicability predicates -/

section

variable {task : NamedTask} (distinct : Distinct task (applicabilityData task))

include distinct in
theorem applicabilityPredicate_inj {action action' : Fin task.actions.length}
    (same : applicabilityPredicate task action = applicabilityPredicate task action') :
    action = action' := by
  have sameData := (predicateIndex_inj (further_mem (actionData_mem action))).mp same
  exact List.inj_on_of_nodup_map (List.nodup_append.mp distinct).2.1 (List.mem_finRange action)
    (List.mem_finRange action') sameData

include distinct in
theorem fluent_ne_applicability {predicate : Nat} (isFluent : predicate ∈ task.fluentPredicates)
    (action : Fin task.actions.length) :
    fluentToFluentPredicate task (applicabilityData task) predicate ≠
      applicabilityPredicate task action :=
  distinct.ne_further (List.mem_append_left _ (List.mem_map_of_mem isFluent)) (actionData_mem action)

include distinct in
theorem derived_ne_applicability {predicate : Nat} (isDerived : predicate ∈ task.derivedPredicates)
    (action : Fin task.actions.length) :
    derivedToFluentPredicate task (applicabilityData task) predicate ≠
      applicabilityPredicate task action :=
  distinct.ne_further (List.mem_append_right _ (List.mem_map_of_mem isDerived)) (actionData_mem action)

end

/-! ### Reading the bindings -/

section

variable (task : NamedTask)

/-- `get_predicate_to_action_mapping`. -/
def predicateToAction (predicate : Nat) : Option (Fin task.actions.length) :=
  (List.finRange task.actions.length).find? fun action =>
    applicabilityPredicate task action == predicate

/-- The binding of a fact, if its predicate is that of an action. -/
def readActionBinding (fact : Tuple) : Option (Fin task.actions.length × List Nat) :=
  (predicateToAction task fact.relation).map fun action => (action, fact.objects)

/-- The facts of each predicate. -/
def factSets (facts : List Tuple) : List (List Tuple) :=
  (List.range (fluentPredicates task (applicabilityData task)).length).map fun predicate =>
    facts.filter fun fact => fact.relation == predicate

/-- `for_each_action_binding`. -/
def forEachActionBinding (facts : List Tuple) : List (Fin task.actions.length × List Nat) :=
  (factSets task facts).flatMap fun set => set.filterMap (readActionBinding task)

/-- `get_applicable_action_bindings`; `accepts` is the test of the executor. -/
def getApplicableActionBindings (accepts : Fin task.actions.length → List Nat → Bool)
    (facts : List Tuple) : List (Fin task.actions.length × List Nat) :=
  (forEachActionBinding task facts).filter fun entry => accepts entry.1 entry.2

end

section

variable {task : NamedTask} {fact : Tuple} {entry : Fin task.actions.length × List Nat}

/-- The fact that an action is applicable under a binding. -/
def applicabilityFact (entry : Fin task.actions.length × List Nat) : Tuple :=
  ⟨applicabilityPredicate task entry.1, entry.2⟩

theorem readActionBinding_eq_some (isRead : readActionBinding task fact = some entry) :
    fact = applicabilityFact entry := by
  obtain ⟨action, found, rfl⟩ := Option.map_eq_some_iff.mp isRead
  unfold predicateToAction at found
  have same := List.find?_some found
  rw [applicabilityFact, beq_iff_eq.mp same]

theorem predicateToAction_eq (distinct : Distinct task (applicabilityData task))
    (action : Fin task.actions.length) :
    predicateToAction task (applicabilityPredicate task action) = some action := by
  cases search : predicateToAction task (applicabilityPredicate task action) with
  | none =>
      have absent := List.find?_eq_none.mp search action (List.mem_finRange action)
      exact absurd (beq_self_eq_true _) absent
  | some other =>
      unfold predicateToAction at search
      have same := List.find?_some search
      rw [applicabilityPredicate_inj distinct (beq_iff_eq.mp same)]

theorem readActionBinding_applicabilityFact (distinct : Distinct task (applicabilityData task)) :
    readActionBinding task (applicabilityFact entry) = some entry := by
  rw [readActionBinding, applicabilityFact, predicateToAction_eq distinct]
  rfl

/-- The facts of other predicates are not read. -/
theorem readActionBinding_eq_none
    (other : ∀ action, fact.relation ≠ applicabilityPredicate task action) :
    readActionBinding task fact = none := by
  cases isRead : readActionBinding task fact with
  | none => rfl
  | some entry => exact absurd (congrArg Tuple.relation (readActionBinding_eq_some isRead)) (other _)

theorem mem_factSets {set facts : List Tuple} (mem : set ∈ factSets task facts) :
    ∃ predicate, set = facts.filter fun fact => fact.relation == predicate := by
  obtain ⟨predicate, _, rfl⟩ := List.mem_map.mp mem
  exact ⟨predicate, rfl⟩

theorem mem_forEachActionBinding (distinct : Distinct task (applicabilityData task))
    {facts : List Tuple} : entry ∈ forEachActionBinding task facts ↔ applicabilityFact entry ∈ facts := by
  rw [forEachActionBinding, List.mem_flatMap]
  constructor
  · rintro ⟨set, memSet, mem⟩
    obtain ⟨fact, inSet, isRead⟩ := List.mem_filterMap.mp mem
    obtain ⟨predicate, rfl⟩ := mem_factSets memSet
    rw [← readActionBinding_eq_some isRead]
    exact (List.mem_filter.mp inSet).1
  · intro mem
    have inRange : applicabilityPredicate task entry.1 <
        (fluentPredicates task (applicabilityData task)).length :=
      predicateIndex_lt (further_mem (actionData_mem entry.1))
    refine ⟨_, List.mem_map_of_mem (List.mem_range.mpr inRange), List.mem_filterMap.mpr
      ⟨applicabilityFact entry, List.mem_filter.mpr ⟨mem, ?_⟩,
        readActionBinding_applicabilityFact distinct⟩⟩
    exact beq_self_eq_true (applicabilityPredicate task entry.1)

/-- If no fact is listed twice, no binding is. -/
theorem nodup_forEachActionBinding {facts : List Tuple} (nodup : facts.Nodup) :
    (forEachActionBinding task facts).Nodup := by
  refine List.nodup_flatMap.mpr ⟨fun set memSet => ?_, ?_⟩
  · obtain ⟨predicate, rfl⟩ := mem_factSets memSet
    refine (nodup.filter _).filterMap ?_
    intro fact fact' entry isRead isRead'
    exact (readActionBinding_eq_some isRead).trans (readActionBinding_eq_some isRead').symm
  · refine (List.pairwise_map.mpr ?_ : (factSets task facts).Pairwise _)
    refine List.nodup_range.imp fun {predicate other} different entry inSet inOther => ?_
    obtain ⟨fact, memFact, isRead⟩ := List.mem_filterMap.mp inSet
    obtain ⟨fact', memFact', isRead'⟩ := List.mem_filterMap.mp inOther
    have same := (readActionBinding_eq_some isRead).trans (readActionBinding_eq_some isRead').symm
    have relation := beq_iff_eq.mp (List.mem_filter.mp memFact).2
    have relation' := beq_iff_eq.mp (List.mem_filter.mp memFact').2
    exact different (by rw [← relation, ← relation', same])

end

/-! ### What is applicable -/

section

variable (task : NamedTask) (view : StateView)

/-- The condition holds in the state as it lists its atoms. -/
structure HoldsIn (binding : List Nat)
    (condition : ConjunctiveCondition) : Prop where
  static : ∀ literal ∈ condition.staticLiterals,
    literal.HoldsIn {atom | atom ∈ task.staticAtoms} binding
  fluent : ∀ literal ∈ condition.fluentLiterals, literal.HoldsIn {atom | atom ∈ view.fluentAtoms} binding
  derived : ∀ literal ∈ condition.derivedLiterals,
    literal.HoldsIn {atom | atom ∈ view.derivedAtoms} binding
  numeric : ∀ constraint ∈ condition.numericConstraints,
    constraint.holds (TaskSemantics.value task.toLiftedTask view.unextended binding) = true

/-- The clauses of the actions when their conditions are evaluated. -/
def actionClauses : Set (Clause (Fin task.actions.length × List Nat)) :=
  {clause | ∃ action binding, task.IsBinding (task.actions.get action).arity binding ∧
    HoldsIn task view binding (task.actions.get action).condition ∧ clause = ⟨(action, binding), [], []⟩}

variable {task view}

theorem isStable_actionClauses :
    IsStable (actionClauses task view) {entry |
      task.IsBinding (task.actions.get entry.1).arity entry.2 ∧
        HoldsIn task view entry.2 (task.actions.get entry.1).condition} := by
  rintro ⟨action, binding⟩
  constructor
  · rintro ⟨isBinding, holds⟩
    have mem : (⟨(action, binding), [], []⟩ : Clause (Fin task.actions.length × List Nat)) ∈
        actionClauses task view := ⟨action, binding, isBinding, holds, rfl⟩
    exact .clause mem nofun nofun
  · intro derives
    obtain ⟨_, ⟨action', binding', isBinding, holds, rfl⟩, same⟩ := derives.head
    cases same
    exact ⟨isBinding, holds⟩

/-- A literal holds if the facts of the run have it when it is positive, and not when it is
negative. -/
theorem holdsIn_of_clause {literal : Literal} {binding : List Nat} {atoms : List Tuple}
    {given : Prop} (same : given ↔ literal.atom.ground binding ∈ atoms)
    (positive : literal.polarity = true → given) (negative : literal.polarity = false → ¬ given) :
    literal.HoldsIn {atom | atom ∈ atoms} binding := by
  cases isPolarity : literal.polarity with
  | true => exact iff_of_true (same.mp (positive isPolarity)) isPolarity
  | false => exact iff_of_false (fun holds => negative isPolarity (same.mpr holds)) (by simp [isPolarity])

end

/-! ### The evaluation of a state -/

section

variable [LinearOrder (FunctionExpression FunctionTerm)]
  [LinearOrder (FunctionExpression Datalog.FunctionTerm)] (task : ActionTask)
  (literals : Canonicalization Literal)
  (constraints : Canonicalization (BooleanOperator Datalog.FunctionTerm))
  (numeric : Datalog.NumericOverapproximation)

/-- `compute_action_facts`: some evaluation of the program on the extended state. -/
def ComputesActionFacts (strata : List (List (typedProgram task literals constraints).ProgramRule))
    (extended : StateView) (final : Datalog.SolveState) : Prop :=
  Datalog.KpkcSolves (data task.toNamedTask extended) numeric .none
    ((typedProgram task literals constraints).workspaces strata)
    (insertExtendedState task.toNamedTask (applicabilityData task.toNamedTask) extended) final

/-- What the evaluation of an extended state relies on. -/
abbrev MatchedIn (extended : StateView) : Prop :=
  (typedProgram task literals constraints).Matched numeric (data task.toNamedTask extended)
    (insertExtendedState task.toNamedTask (applicabilityData task.toNamedTask) extended)

/-- No body has an applicability predicate, so no cycle has an edge. -/
theorem not_negativeCycle : ¬ ((typedProgram task literals constraints).ruleDependencies.graph
    (typedProgram task literals constraints).program.rules.attach).NegativeCycle := by
  have ends : ∀ edge ∈ ((typedProgram task literals constraints).ruleDependencies.graph
      (typedProgram task literals constraints).program.rules.attach).edges,
      (∃ action, edge.target = applicabilityPredicate task.toNamedTask action) ∧
        ∀ action, edge.source ≠ applicabilityPredicate task.toNamedTask action := by
    intro edge mem
    obtain ⟨⟨rule, isRule⟩, _, literal, memLiteral, rfl⟩ := mem_graph_edges.mp mem
    obtain ⟨action, _, rfl⟩ := List.mem_map.mp isRule
    obtain ⟨other, memOther, rfl⟩ := List.mem_map.mp memLiteral
    refine ⟨⟨action, rfl⟩, ?_⟩
    have declared := declared_get action
    rcases mem_fluent.mp memOther with ⟨origin, memOrigin, rfl⟩ | ⟨origin, memOrigin, rfl⟩
    · exact fluent_ne_applicability task.applicability_distinct (declared.fluent origin memOrigin)
    · exact derived_ne_applicability task.applicability_distinct (declared.derived origin memOrigin).1
  rintro ⟨edge, mem, _, back⟩
  obtain ⟨⟨action, isTarget⟩, notSource⟩ := ends edge mem
  rcases back.cases_head with same | ⟨_, ⟨next, memNext, fromTarget, _⟩, _⟩
  · exact notSource action (same.symm.trans isTarget)
  · exact (ends next memNext).2 action (fromTarget.trans isTarget)

variable {task literals constraints numeric} {extended : StateView}

omit [LinearOrder (FunctionExpression FunctionTerm)] in
theorem groundHead_createRule {task : NamedTask} (action : Fin task.actions.length)
    {binding : List Nat} (length : binding.length = (task.actions.get action).arity) :
    Datalog.groundHead (createRule task literals constraints action) binding =
      applicabilityFact (action, binding) := by
  have same := createApplicabilityAtom_ground (applicabilityPredicate task action) length []
  rwa [List.append_nil] at same

/-- No literal of a body is read. -/
theorem readActionBinding_body (action : Fin task.actions.length) {binding : List Nat}
    {polarity : Bool} {source : Tuple} (inBody : ∃ literal ∈
      (createRule task.toNamedTask literals constraints action).body.fluentLiterals,
        literal.polarity = polarity ∧ literal.atom.ground binding = source) :
    readActionBinding task.toNamedTask source = none := by
  have declared := declared_get action
  rcases mem_groundBody.mp inBody with ⟨literal, mem, _, rfl⟩ | ⟨literal, mem, _, rfl⟩
  · exact readActionBinding_eq_none
      (fluent_ne_applicability task.applicability_distinct (declared.fluent literal mem))
  · exact readActionBinding_eq_none
      (derived_ne_applicability task.applicability_distinct (declared.derived literal mem).1)

/-- The clause of an action whose condition is evaluated has no body. -/
theorem readsAs_groundClause (action : Fin task.actions.length) {binding : List Nat}
    (length : binding.length = (task.actions.get action).arity) :
    ReadsAs (readActionBinding task.toNamedTask)
      (Datalog.groundClause (createRule task.toNamedTask literals constraints action) binding)
      ⟨(action, binding), [], []⟩ := by
  refine ⟨?_, fun atom => ⟨nofun, ?_⟩, fun atom => ⟨nofun, ?_⟩⟩
  · rw [Datalog.groundClause, groundHead_createRule action length]
    exact readActionBinding_applicabilityFact task.applicability_distinct
  · rintro ⟨source, isPositive, isRead⟩
    rw [readActionBinding_body action (Datalog.mem_witnessFacts.mp isPositive)] at isRead
    cases isRead
  · rintro ⟨source, isNegative, isRead⟩
    rw [readActionBinding_body action (Datalog.mem_negativeFacts.mp isNegative)] at isRead
    cases isRead

/-- The body of an action holds in the facts of the run if the condition holds in the state. -/
theorem body_given_iff (declared : extended.DeclaredIn task.toNamedTask)
    (action : Fin task.actions.length) (binding : List Nat) :
    ((∀ source ∈ (Datalog.groundClause (createRule task.toNamedTask literals constraints action)
        binding).positive, source ∈ insertExtendedState task.toNamedTask
          (applicabilityData task.toNamedTask) extended) ∧
      ∀ source ∈ (Datalog.groundClause (createRule task.toNamedTask literals constraints action)
        binding).negative, source ∉ insertExtendedState task.toNamedTask
          (applicabilityData task.toNamedTask) extended) ↔
    (∀ literal ∈ (task.actions.get action).condition.fluentLiterals,
      literal.HoldsIn {atom | atom ∈ extended.fluentAtoms} binding) ∧
    ∀ literal ∈ (task.actions.get action).condition.derivedLiterals,
      literal.HoldsIn {atom | atom ∈ extended.derivedAtoms} binding := by
  have isDeclared := declared_get action
  have fluent := fun (literal : Literal)
      (mem : literal ∈ (task.actions.get action).condition.fluentLiterals) =>
    mem_extended_fluent_iff task.applicability_distinct declared (isDeclared.fluent literal mem) binding
  have derived := fun (literal : Literal)
      (mem : literal ∈ (task.actions.get action).condition.derivedLiterals) =>
    mem_extended_derived_iff task.applicability_distinct declared (isDeclared.derived literal mem).1
      binding
  constructor
  · rintro ⟨positive, negative⟩
    constructor
    · intro literal mem
      refine holdsIn_of_clause (fluent literal mem) (fun isPositive => positive _ ?_)
        fun isNegative => negative _ ?_
      · exact Datalog.mem_witnessFacts.mpr (mem_groundBody.mpr (.inl ⟨literal, mem, isPositive, rfl⟩))
      · exact Datalog.mem_negativeFacts.mpr (mem_groundBody.mpr (.inl ⟨literal, mem, isNegative, rfl⟩))
    · intro literal mem
      refine holdsIn_of_clause (derived literal mem) (fun isPositive => positive _ ?_)
        fun isNegative => negative _ ?_
      · exact Datalog.mem_witnessFacts.mpr (mem_groundBody.mpr (.inr ⟨literal, mem, isPositive, rfl⟩))
      · exact Datalog.mem_negativeFacts.mpr (mem_groundBody.mpr (.inr ⟨literal, mem, isNegative, rfl⟩))
  · rintro ⟨fluentHolds, derivedHolds⟩
    constructor
    · intro source isPositive
      rcases mem_groundBody.mp (Datalog.mem_witnessFacts.mp isPositive) with
        ⟨literal, mem, isPolarity, rfl⟩ | ⟨literal, mem, isPolarity, rfl⟩
      · exact (fluent literal mem).mpr ((fluentHolds literal mem).mpr isPolarity)
      · exact (derived literal mem).mpr ((derivedHolds literal mem).mpr isPolarity)
    · intro source isNegative isGiven
      rcases mem_groundBody.mp (Datalog.mem_negativeFacts.mp isNegative) with
        ⟨literal, mem, isPolarity, rfl⟩ | ⟨literal, mem, isPolarity, rfl⟩
      · have positive := (fluentHolds literal mem).mp ((fluent literal mem).mp isGiven)
        rw [isPolarity] at positive
        cases positive
      · have positive := (derivedHolds literal mem).mp ((derived literal mem).mp isGiven)
        rw [isPolarity] at positive
        cases positive

omit [LinearOrder (FunctionExpression Datalog.FunctionTerm)] in
/-- Every atom of the state has another predicate than the actions. -/
theorem extended_ne_applicability (declared : extended.DeclaredIn task.toNamedTask) {fact : Tuple}
    (mem : fact ∈ insertExtendedState task.toNamedTask (applicabilityData task.toNamedTask) extended)
    (action : Fin task.actions.length) :
    fact.relation ≠ applicabilityPredicate task.toNamedTask action := by
  rcases mem_insertExtendedState.mp mem with ⟨atom, memAtom, rfl⟩ | ⟨atom, memAtom, rfl⟩
  · exact fluent_ne_applicability task.applicability_distinct (declared.fluent atom memAtom) action
  · exact derived_ne_applicability task.applicability_distinct (declared.derived atom memAtom) action

/-- When the conditions are evaluated, the program says which actions are applicable. -/
theorem isResidual (declared : extended.DeclaredIn task.toNamedTask)
    {strata : List (List (typedProgram task literals constraints).ProgramRule)} {stratum : Nat → Nat}
    (stratified : IsStratification (typedProgram task literals constraints).ruleDependencies
      (typedProgram task literals constraints).program.rules.attach strata stratum) :
    IsResidual
      (Datalog.programClauses (data task.toNamedTask extended)
        ((typedProgram task literals constraints).workspaces strata)
        (insertExtendedState task.toNamedTask (applicabilityData task.toNamedTask) extended))
      {fact | fact ∈ insertExtendedState task.toNamedTask (applicabilityData task.toNamedTask) extended}
      (readActionBinding task.toNamedTask) (actionClauses task.toNamedTask extended) where
  read_injective isRead isRead' :=
    (readActionBinding_eq_some isRead).trans (readActionBinding_eq_some isRead').symm
  given_unread := fun _ mem => readActionBinding_eq_none (extended_ne_applicability declared mem)
  given_clause fact mem := .inl ⟨fact, mem, rfl⟩
  of_clause := by
    intro clause mem
    rcases (TypedProgram.mem_programClauses stratified).mp mem with
      ⟨fact, isGiven, rfl⟩ | ⟨⟨rule, isRule⟩, binding, admits, rfl⟩
    · exact .inl isGiven
    · refine .inr fun positive negative => ?_
      obtain ⟨action, _, rfl⟩ := List.mem_map.mp isRule
      obtain ⟨isBinding, static, numeric⟩ := ((declared_get action).admits_iff
        (hasStaticPart task.toNamedTask literals constraints) rfl).mp admits
      obtain ⟨fluent, derived⟩ := (body_given_iff declared action binding).mp
        ⟨fun source isPositive => positive source isPositive
          (readActionBinding_body action (Datalog.mem_witnessFacts.mp isPositive)), negative⟩
      exact ⟨⟨(action, binding), [], []⟩,
        ⟨action, binding, isBinding, ⟨static, fluent, derived, numeric⟩, rfl⟩,
        readsAs_groundClause action isBinding.length⟩
  to_clause := by
    rintro _ ⟨action, binding, isBinding, holds, rfl⟩
    have isRule : createRule task.toNamedTask literals constraints action ∈
        (typedProgram task literals constraints).program.rules :=
      List.mem_map_of_mem (List.mem_finRange action)
    obtain ⟨positive, negative⟩ := (body_given_iff declared action binding).mpr
      ⟨holds.fluent, holds.derived⟩
    refine ⟨Datalog.groundClause (createRule task.toNamedTask literals constraints action) binding,
      (TypedProgram.mem_programClauses stratified).mpr (.inr ⟨⟨_, isRule⟩, binding, ?_, rfl⟩),
      readsAs_groundClause action isBinding.length, fun source isPositive _ =>
        positive source isPositive, negative⟩
    exact ((declared_get action).admits_iff
      (hasStaticPart task.toNamedTask literals constraints) rfl).mpr
        ⟨isBinding, holds.static, holds.numeric⟩

/-- The bindings that are gone over are those under which the conditions hold. -/
theorem mem_forEachActionBinding_iff {library : GraphLibrary}
    (correct : library.CorrectOn ((typedProgram task literals constraints).ruleDependencies.graph
      (typedProgram task literals constraints).program.rules.attach))
    {strata : List (List (typedProgram task literals constraints).ProgramRule)}
    (computed : (typedProgram task literals constraints).computeStrata library = .ok strata)
    (declared : extended.DeclaredIn task.toNamedTask)
    (matched : MatchedIn task literals constraints numeric extended) {final : Datalog.SolveState}
    (computes : ComputesActionFacts task literals constraints numeric strata extended final)
    {entry : Fin task.actions.length × List Nat} :
    entry ∈ forEachActionBinding task.toNamedTask final.facts ↔
      task.IsBinding (task.actions.get entry.1).arity entry.2 ∧
        HoldsIn task.toNamedTask extended entry.2 (task.actions.get entry.1).condition := by
  obtain ⟨stratum, stratified⟩ := TypedProgram.isStratification_of_ok correct computed
  have solves := computes.solvesStrata (TypedProgram.stratified_workspaces stratified)
    matched.matchedStrata
  have extensional : ∀ fact ∈ insertExtendedState task.toNamedTask
      (applicabilityData task.toNamedTask) extended,
      ∀ rule ∈ (typedProgram task literals constraints).program.rules,
        rule.head.predicate ≠ fact.relation := by
    intro fact mem rule isRule same
    obtain ⟨action, _, rfl⟩ := List.mem_map.mp isRule
    exact extended_ne_applicability declared mem action same.symm
  have model := (TypedProgram.stable_of_residual correct computed solves extensional
    (isResidual declared stratified) _).mp isStable_actionClauses
  rw [mem_forEachActionBinding task.applicability_distinct]
  refine Iff.trans ?_ (Set.ext_iff.mp model entry).symm
  constructor
  · exact fun mem => ⟨_, mem, readActionBinding_applicabilityFact task.applicability_distinct⟩
  · rintro ⟨fact, mem, isRead⟩
    rwa [← readActionBinding_eq_some isRead]

omit [LinearOrder (FunctionExpression Datalog.FunctionTerm)] in
/-- Where the axioms have been evaluated, a condition holds in the state as it lists its
atoms if it holds in the state. -/
theorem holdsIn_iff {view : StateView} (semantics : TaskSemantics task.toLiftedTask)
    (valued : ∀ valuation constraint, semantics.constraintHolds valuation constraint ↔
      constraint.holds valuation = true)
    (sameState : extended.unextended = view.unextended)
    (sameDerived : semantics.derivedAtoms view.unextended = {atom | atom ∈ extended.derivedAtoms})
    {binding : List Nat} {condition : ConjunctiveCondition} :
    HoldsIn task.toNamedTask extended binding condition ↔
      semantics.Holds view.unextended binding condition := by
  rw [← sameState] at sameDerived ⊢
  constructor
  · intro holds
    refine ⟨⟨holds.static, holds.fluent, fun constraint mem =>
      (valued _ _).mpr (holds.numeric constraint mem)⟩, fun literal mem => ?_⟩
    rw [sameDerived]
    exact holds.derived literal mem
  · intro holds
    refine ⟨holds.static, holds.fluent, fun literal mem => ?_, fun constraint mem =>
      (valued _ _).mp (holds.numeric constraint mem)⟩
    rw [← sameDerived]
    exact holds.derived literal mem

end

/-- Opens a shut door. -/
def openShut : Action where
  arity := 1
  condition := { derivedLiterals := [⟨⟨0, [.parameter 0]⟩, true⟩] }
  effects := [{ effect := { literals := [⟨⟨0, [.parameter 0]⟩, true⟩] } }]
  closed := by
    intro index occurs
    cases List.mem_singleton.mp occurs
    exact Nat.zero_lt_one

theorem openShut_effects_closed : ∀ action ∈ [openShut], ∀ effect ∈ action.effects,
    ∀ literal ∈ effect.effect.literals, ∀ index, .parameter index ∈ literal.atom.terms →
      index < action.arity + effect.arity := by
  intro action mem effect memEffect literal memLiteral index occurs
  cases List.mem_singleton.mp mem
  cases List.mem_singleton.mp memEffect
  cases List.mem_singleton.mp memLiteral
  cases List.mem_singleton.mp occurs
  exact Nat.zero_lt_one

theorem openShut_declared [LinearOrder (FunctionExpression FunctionTerm)] {task : NamedTask}
    (unary : task.arity (.derivedPredicate 0) = 1) (isDerived : 0 ∈ task.derivedPredicates) :
    Declared task openShut.arity openShut.condition where
  typed := ⟨nofun, nofun⟩
  fluent := nofun
  derived := by
    intro literal mem
    cases List.mem_singleton.mp mem
    refine ⟨isDerived, unary.symm, fun index occurs => ?_⟩
    cases List.mem_singleton.mp occurs
    exact Nat.zero_lt_one
  canonical := nofun
  strict := nofun

/-- The only edges lead from the derived predicate to the actions. -/
theorem openShut_ascends [LinearOrder (FunctionExpression FunctionTerm)]
    [LinearOrder (FunctionExpression Datalog.FunctionTerm)] {task : ActionTask}
    (only : ∀ action ∈ task.actions, action.condition = openShut.condition)
    (before : ∀ action, derivedToFluentPredicate task.toNamedTask (applicabilityData task.toNamedTask) 0 <
      applicabilityPredicate task.toNamedTask action)
    (literals : Canonicalization Literal)
    (constraints : Canonicalization (BooleanOperator Datalog.FunctionTerm)) :
    ∀ edge ∈ ((typedProgram task literals constraints).ruleDependencies.graph
      (typedProgram task literals constraints).program.rules.attach).edges,
      edge.source < edge.target := by
  intro edge mem
  obtain ⟨⟨rule, isRule⟩, _, literal, memLiteral, rfl⟩ := mem_graph_edges.mp mem
  obtain ⟨action, _, rfl⟩ := List.mem_map.mp isRule
  obtain ⟨other, memOther, rfl⟩ := List.mem_map.mp memLiteral
  have same := only _ (List.get_mem _ action)
  rcases mem_fluent.mp memOther with ⟨origin, memOrigin, _⟩ | ⟨origin, memOrigin, rfl⟩
  · rw [same] at memOrigin
    cases memOrigin
  · rw [same] at memOrigin
    obtain rfl := List.mem_singleton.mp memOrigin
    exact before action

def openableDoors : NamedTask :=
  { AxiomEvaluatorProgram.shutDoors with
    actions := [openShut]
    effects_closed := openShut_effects_closed
    actionName := fun _ => "unlock"
    actionIndex := Fin.val }

theorem openableDoors_distinct : Distinct openableDoors [] := by
  unfold Distinct
  decide

theorem openableDoors_applicability_distinct :
    Distinct openableDoors (applicabilityData openableDoors) := by
  unfold Distinct
  decide

section

noncomputable local instance : LinearOrder (FunctionExpression FunctionTerm) := arbitraryOrder _

noncomputable local instance : LinearOrder (FunctionExpression Datalog.FunctionTerm) :=
  arbitraryOrder _

theorem openableDoors_bodies_declared : ∀ ax ∈ openableDoors.axioms,
    Declared openableDoors ax.arity ax.body := by
  intro ax mem
  obtain rfl := List.mem_singleton.mp mem
  exact AxiomEvaluatorProgram.shutAxiom_declared rfl (List.mem_singleton_self 0)

theorem openableDoors_heads_declared : ∀ ax ∈ openableDoors.axioms,
    ax.head.predicate ∈ openableDoors.derivedPredicates := by decide

theorem openableDoors_conditions_declared : ∀ action ∈ openableDoors.actions,
    Declared openableDoors action.arity action.condition := by
  intro action mem
  obtain rfl := List.mem_singleton.mp mem
  exact openShut_declared rfl (List.mem_singleton_self 0)

noncomputable def openableTask : ActionTask where
  toNamedTask := openableDoors
  distinct := openableDoors_distinct
  bodies_declared := openableDoors_bodies_declared
  heads_declared := openableDoors_heads_declared
  applicability_distinct := openableDoors_applicability_distinct
  conditions_declared := openableDoors_conditions_declared

/-- The axiom has no derived literal, so one layer is enough. -/
theorem openableTask_layered (state : LiftedState) :
    IsStable ((AxiomEvaluatorProgram.plainSemantics openableTask.toLiftedTask).axiomClauses state
        openableTask.axioms)
      ((AxiomEvaluatorProgram.plainSemantics openableTask.toLiftedTask).derivedAtoms state) := by
  let semantics := AxiomEvaluatorProgram.plainSemantics openableTask.toLiftedTask
  have bodiless : ∀ clause ∈ semantics.axiomClauses state openableTask.axioms,
      clause.positive = [] ∧ clause.negative = [] := by
    rintro _ ⟨ax, memAxiom, binding, _, _, rfl⟩
    obtain rfl := List.mem_singleton.mp memAxiom
    exact ⟨rfl, rfl⟩
  intro atom
  constructor
  · intro derived
    cases derived with
    | base isBase => exact absurd isBase (Set.notMem_empty atom)
    | @clause clause mem _ _ =>
        obtain ⟨noPositive, noNegative⟩ := bodiless clause mem
        refine .clause mem (fun other isNegative => ?_) fun other isPositive => ?_
        · rw [noNegative] at isNegative
          cases isNegative
        · rw [noPositive] at isPositive
          cases isPositive
  · intro derives
    cases derives with
    | @clause clause mem _ _ =>
        obtain ⟨noPositive, noNegative⟩ := bodiless clause mem
        refine LayerModel.clause mem (fun other isNegative => ?_) fun other isPositive => ?_
        · rw [noNegative] at isNegative
          cases isNegative
        · rw [noPositive] at isPositive
          cases isPositive

theorem openable_matched : AxiomEvaluatorProgram.MatchedIn openableTask.toAxiomTask (.classical _)
    (.classical _) Datalog.noNumeric AxiomEvaluatorProgram.firstOpen where
  exact := AxiomEvaluatorProgram.shut_exact rfl _ _
  heads := by
    intro rule isRule
    obtain ⟨ax, memAxiom, rfl⟩ := List.mem_map.mp isRule
    obtain rfl := List.mem_singleton.mp memAxiom
    rfl
  static := fun fact mem => nomatch mem
  fluent := by
    intro fact mem
    obtain ⟨atom, memAtom, rfl⟩ := mem_insertUnextendedState.mp mem
    obtain rfl := List.mem_singleton.mp memAtom
    rfl

/-- The rule of the action has one parameter and no constraint. -/
theorem openable_matchedActions {extended : StateView}
    (fluent : extended.fluentAtoms = [⟨0, [0]⟩])
    (derived : ∀ atom ∈ extended.derivedAtoms, atom.relation = 0 ∧ atom.objects.length = 1) :
    MatchedIn openableTask (.classical _) (.classical _) Datalog.noNumeric extended where
  exact := by
    rintro ⟨rule, isRule⟩
    obtain ⟨action, _, rfl⟩ := List.mem_map.mp isRule
    obtain rfl : action = (0 : Fin 1) := @Subsingleton.elim (Fin 1) _ _ _
    refine TypedProgram.exactTests_of_arity_le_one le_rfl ?_
    apply List.eq_nil_iff_forall_not_mem.mpr
    intro constraint mem
    obtain ⟨_, inBody, _⟩ := mem_numeric.mp mem
    cases inBody
  heads := by
    intro rule isRule
    obtain ⟨action, _, rfl⟩ := List.mem_map.mp isRule
    obtain rfl : action = (0 : Fin 1) := @Subsingleton.elim (Fin 1) _ _ _
    rfl
  static := fun fact mem => nomatch mem
  fluent := by
    intro fact mem
    rcases mem_insertExtendedState.mp mem with ⟨atom, memAtom, rfl⟩ | ⟨atom, memAtom, rfl⟩
    · rw [fluent] at memAtom
      obtain rfl := List.mem_singleton.mp memAtom
      rfl
    · obtain ⟨relation, length⟩ := derived atom memAtom
      obtain ⟨predicate, objects⟩ := atom
      obtain rfl : predicate = 0 := relation
      exact length

end

end ApplicableActionProgram

end Tyr.Planning
