import Tyr.Datalog.FlatPrograms
import Tyr.Datalog.NumericIntervals
import Tyr.Planning.ApplyAction
import Tyr.Planning.Programs.Action
import Tyr.Planning.RelaxedPlan

/-!
The applicable actions that a lifted successor generator enumerates.

The bindings come from the program of the applicable actions, where a binding that only passes
the tests of the matching is announced, too. The executor then tests the effects, of the ground
action from the shared cache or of the action binding.

* `SuccessorGenerator.mem_forEachActionBinding_iff` — the bindings that are announced.
* `SearchNode.getApplicableActionBindings`, `SearchNode.forEachApplicableActionBinding`,
  `SearchNode.liftedTask` — the three ways to enumerate.
* `SearchNode.TestsSuffice` — what the tests of the matching and of the effects have to decide.
* `SearchNode.enumerationExact_iff` — when all of them are exact and have the same successors.
-/

namespace Tyr.Planning

open Tyr.Lib Tyr.Formalism Tyr.Formalism.Planning Tyr.Formalism.FunctionExpression
open Tyr.Analysis.Stratification

open StateProgram
open ApplicableActionProgram (applicabilityData applicabilityPredicate applicabilityFact typedProgram
  createRule forEachActionBinding)

/-! ### The generator -/

/-- The task, its program of the applicable actions, and what the executor works on. The facts
of a lifted task are binary variables, one for each atom. -/
structure SuccessorGenerator [LinearOrder (FunctionExpression FunctionTerm)]
    [LinearOrder (FunctionExpression Datalog.FunctionTerm)] extends ActionTask where
  literals : Canonicalization Literal
  constraints : Canonicalization (BooleanOperator Datalog.FunctionTerm)
  numeric : Datalog.NumericOverapproximation
  library : GraphLibrary
  correct : library.CorrectOn ((typedProgram toActionTask literals constraints).ruleDependencies.graph
    (typedProgram toActionTask literals constraints).program.rules.attach)
  strata : List (List (typedProgram toActionTask literals constraints).ProgramRule)
  computed : (typedProgram toActionTask literals constraints).computeStrata library = .ok strata
  static_typed : ∀ atom ∈ staticAtoms, atom.objects.length = arity (.staticPredicate atom.relation)
  executionTask : Task
  repository : Repository
  binary : ∀ atom, (repository.fluentFact atom).value = 1
  effectDomains : EffectDomains
  ftermIndex : FtermIndex
  ruleLiterals : Canonicalization Literal

namespace SuccessorGenerator

variable [LinearOrder (FunctionExpression FunctionTerm)]
  [LinearOrder (FunctionExpression Datalog.FunctionTerm)] (generator : SuccessorGenerator)

abbrev program : TypedProgram :=
  typedProgram generator.toActionTask generator.literals generator.constraints

/-- An action and the objects of its parameters. -/
abbrev Entry : Type := Fin generator.actions.length × List Nat

def action (entry : generator.Entry) : Action := generator.actions.get entry.1

theorem createRule_mem (action : Fin generator.actions.length) :
    createRule generator.toNamedTask generator.literals generator.constraints action ∈
      generator.program.program.rules :=
  List.mem_map_of_mem (List.mem_finRange action)

/-- The workspace of the rule of an action. -/
def workspace (action : Fin generator.actions.length) : Datalog.ConstRuleWorkspace :=
  generator.program.ruleWorkspace ⟨_, generator.createRule_mem action⟩

/-- The atoms of a state as facts of the program. -/
def givenFacts (view : StateView) : List Tuple :=
  insertExtendedState generator.toNamedTask (applicabilityData generator.toNamedTask) view

/-- `compute_action_facts`: the facts when an evaluation of the program has ended. -/
def ComputesActionFacts (view : StateView) (final : Datalog.SolveState) : Prop :=
  Relation.ReflTransGen
    (Datalog.Machine.SolveStep (data generator.toNamedTask view) generator.numeric .none)
    (.between (generator.program.workspaces generator.strata) (.initial (generator.givenFacts view)))
    (.between [] final)

/-- The binding passes the matching of the rule of its action. -/
def MatchedLoosely (view : StateView) (entry : generator.Entry) : Prop :=
  (generator.workspace entry.1).MatchedLoosely generator.numeric
    ((data generator.toNamedTask view).factSets (generator.givenFacts view)) entry.2

/-- The atoms of a state are declared and have an object for each position of their predicate. -/
structure Typed (view : StateView) : Prop extends view.DeclaredIn generator.toNamedTask where
  fluent_typed : ∀ atom ∈ view.fluentAtoms,
    atom.objects.length = generator.arity (.fluentPredicate atom.relation)
  derived_typed : ∀ atom ∈ view.derivedAtoms,
    atom.objects.length = generator.arity (.derivedPredicate atom.relation)

variable {generator} {view : StateView}

theorem Typed.givenFacts (typed : generator.Typed view) : ∀ fact ∈ generator.givenFacts view,
    fact.objects.length = generator.program.program.arity (.fluentPredicate fact.relation) := by
  intro fact mem
  rcases mem_insertExtendedState.mp mem with ⟨atom, isFluent, rfl⟩ | ⟨atom, isDerived, rfl⟩
  · have declared := typed.fluent atom isFluent
    exact (typed.fluent_typed atom isFluent).trans (arity_predicateIndex (fluentData_mem declared)).symm
  · have declared := typed.derived atom isDerived
    exact (typed.derived_typed atom isDerived).trans
      (arity_predicateIndex (derivedData_mem declared)).symm

theorem Typed.typedStrata (typed : generator.Typed view) :
    Datalog.TypedStrata (data generator.toNamedTask view)
      (generator.program.workspaces generator.strata) (generator.givenFacts view) := by
  refine TypedProgram.typedStrata ?_ generator.static_typed typed.givenFacts
  intro rule isRule
  obtain ⟨action, _, rfl⟩ := List.mem_map.mp isRule
  have length : (GroundTaskProgram.createApplicabilityAtom
      (applicabilityPredicate generator.toNamedTask action)
      (generator.actions.get action).arity).terms.length = (generator.actions.get action).arity := by
    simp [GroundTaskProgram.createApplicabilityAtom]
  exact length.trans
    (arity_predicateIndex (further_mem (ApplicableActionProgram.actionData_mem action))).symm

/-- The bodies of the rules have no applicability predicate. -/
theorem flat : Datalog.Machine.Flat (generator.program.workspaces generator.strata) := by
  intro stratum memStratum cws mem literal memLiteral other memOther fact derives same
  obtain ⟨⟨rule, isRule⟩, rfl⟩ := TypedProgram.exists_rule memStratum mem
  obtain ⟨_, memHead, _, rfl⟩ := derives
  obtain ⟨⟨head, isHead⟩, rfl⟩ := TypedProgram.exists_rule memOther memHead
  obtain ⟨action, _, rfl⟩ := List.mem_map.mp isRule
  obtain ⟨action', _, rfl⟩ := List.mem_map.mp isHead
  have declared := ApplicableActionProgram.declared_get action
  rcases mem_fluent.mp memLiteral with ⟨origin, memOrigin, rfl⟩ | ⟨origin, memOrigin, rfl⟩
  · exact ApplicableActionProgram.fluent_ne_applicability generator.applicability_distinct
      (declared.fluent origin memOrigin) action' same.symm
  · exact ApplicableActionProgram.derived_ne_applicability generator.applicability_distinct
      (declared.derived origin memOrigin).1 action' same.symm

theorem exists_computesActionFacts (generator : SuccessorGenerator) (view : StateView) :
    ∃ final, generator.ComputesActionFacts view final :=
  Datalog.Machine.exists_run _ _ _ _ _

section

variable (typed : generator.Typed view) {final : Datalog.SolveState}
  (computes : generator.ComputesActionFacts view final)

include typed computes

theorem collected : Datalog.Machine.Collected (data generator.toNamedTask view) generator.numeric
    (generator.givenFacts view) (generator.program.workspaces generator.strata) final.facts :=
  Datalog.Machine.facts_of_flat flat typed.typedStrata nodup_insertExtendedState computes

/-- The bindings that are gone over are those that pass the matching. -/
theorem mem_forEachActionBinding_iff {entry : generator.Entry} :
    entry ∈ forEachActionBinding generator.toNamedTask final.facts ↔
      generator.MatchedLoosely view entry := by
  obtain ⟨stratum, stratified⟩ :=
    TypedProgram.isStratification_of_ok generator.correct generator.computed
  have known : ∀ (rule : generator.program.ProgramRule), ∃ rules,
      rules ∈ generator.program.workspaces generator.strata ∧
        generator.program.ruleWorkspace rule ∈ rules := by
    intro rule
    obtain ⟨rules, memStratum, memRule⟩ :=
      List.mem_flatten.mp (stratified.once.mem_iff.mpr (List.mem_attach _ rule))
    exact ⟨_, List.mem_map_of_mem memStratum, List.mem_map_of_mem memRule⟩
  have fires : ∀ {rules cws binding}, rules ∈ generator.program.workspaces generator.strata →
      cws ∈ rules → (cws.Fires generator.numeric
        ((data generator.toNamedTask view).factSets (generator.givenFacts view)) binding ↔
          cws.MatchedLoosely generator.numeric
            ((data generator.toNamedTask view).factSets (generator.givenFacts view)) binding) :=
    fun memStratum mem => Datalog.ConstRuleWorkspace.fires_iff
      (typed.typedStrata _ memStratum _ mem _ fun _ => .inl)
  rw [ApplicableActionProgram.mem_forEachActionBinding generator.applicability_distinct,
    (collected typed computes).mem_iff]
  constructor
  · rintro (given | ⟨rules, memStratum, cws, mem, binding, isFired, same⟩)
    · exact absurd rfl (ApplicableActionProgram.extended_ne_applicability typed.toDeclaredIn given entry.1)
    · have matched := (fires memStratum mem).mp isFired
      obtain ⟨⟨rule, isRule⟩, rfl⟩ := TypedProgram.exists_rule memStratum mem
      obtain ⟨action, _, rfl⟩ := List.mem_map.mp isRule
      have isHead : applicabilityFact (action, binding) = applicabilityFact entry :=
        (ApplicableActionProgram.groundHead_createRule action matched.inDomains.1).symm.trans same
      obtain ⟨samePredicate, sameBinding⟩ := Tuple.mk.inj isHead
      obtain rfl := ApplicableActionProgram.applicabilityPredicate_inj
        generator.applicability_distinct samePredicate
      rw [SuccessorGenerator.MatchedLoosely, ← sameBinding]
      exact matched
  · intro matched
    obtain ⟨rules, memStratum, mem⟩ := known ⟨_, generator.createRule_mem entry.1⟩
    exact .inr ⟨rules, memStratum, _, mem, entry.2, (fires memStratum mem).mpr matched,
      ApplicableActionProgram.groundHead_createRule entry.1 matched.inDomains.1⟩

theorem nodup_forEachActionBinding :
    (forEachActionBinding generator.toNamedTask final.facts).Nodup :=
  ApplicableActionProgram.nodup_forEachActionBinding (collected typed computes).nodup

end

end SuccessorGenerator

/-! ### A node that is expanded -/

/-- What `insert_extended_state` reads of a state: the view lists the atoms whose facts hold and
the values, and the task has the static atoms and values. -/
structure StateProgram.StateView.Lists (view : StateView) (task : NamedTask) (repository : Repository)
    (state : StateContext) : Prop where
  staticAtom : ∀ atom, atom ∈ task.staticAtoms ↔
    state.task.staticAtoms (repository.staticAtom atom) = true
  staticValue : ∀ fterm, task.staticValue fterm = state.task.staticValues (repository.staticFterm fterm)
  fluentAtom : ∀ atom, atom ∈ view.fluentAtoms ↔
    state.unpackedState.fluentFacts (repository.fluentFact atom).var =
      (repository.fluentFact atom).value
  derivedAtom : ∀ atom, atom ∈ view.derivedAtoms ↔
    state.unpackedState.derivedAtoms (repository.derivedAtom atom) = true
  fluentValue : ∀ fterm, view.fluentValues fterm =
    state.unpackedState.fluentValues (repository.fluentFterm fterm)

/-- The condition holds in the state, with the mathematical truth of its constraints. -/
structure ApplicabilityContext.Holds (context : ApplicabilityContext)
    (condition : ConjunctiveCondition) : Prop where
  static : ∀ literal ∈ condition.staticLiterals,
    (context.state.task.staticAtoms
        (context.repository.staticAtom (literal.atom.ground context.binding)) = true ↔
      literal.polarity = true)
  fluent : ∀ literal ∈ condition.fluentLiterals,
    (context.state.unpackedState.fluentFacts
        (context.repository.fluentFact (literal.atom.ground context.binding)).var =
          (context.repository.fluentFact (literal.atom.ground context.binding)).value ↔
      literal.polarity = true)
  derived : ∀ literal ∈ condition.derivedLiterals,
    (context.state.unpackedState.derivedAtoms
        (context.repository.derivedAtom (literal.atom.ground context.binding)) = true ↔
      literal.polarity = true)
  numeric : ∀ constraint ∈ condition.numericConstraints, constraint.holds context.get = true

/-- A node of a search with what its state lists and what has been created so far. -/
structure SearchNode [LinearOrder (FunctionExpression FunctionTerm)]
    [LinearOrder (FunctionExpression Datalog.FunctionTerm)] (generator : SuccessorGenerator) where
  node : UnpackedNode
  view : StateView
  typed : generator.Typed view
  lists : view.Lists generator.toNamedTask generator.repository
    (nodeContext generator.executionTask node)
  created : Created
  covers : created.Covers generator.repository (nodeContext generator.executionTask node)

namespace SearchNode

section

variable [LinearOrder (FunctionExpression FunctionTerm)]
  [LinearOrder (FunctionExpression Datalog.FunctionTerm)] {generator : SuccessorGenerator}
  (search : SearchNode generator)

/-- The executor's view of an action binding. -/
def context (entry : generator.Entry) : ApplicabilityContext where
  state := nodeContext generator.executionTask search.node
  repository := generator.repository
  created := search.created
  binding := entry.2
  covers := search.covers

/-- What the numeric effects that fire under the binding read and change. -/
def effectTests (entry : generator.Entry) : List EffectTest :=
  actionBindingTests (search.context entry) generator.ftermIndex generator.effectDomains
    (generator.action entry)

/-- The action is applicable under the binding: its precondition holds, and the numeric effects
that fire are defined and compatible. -/
structure Applicable (entry : generator.Entry) : Prop where
  isBinding : generator.IsBinding (generator.action entry).arity entry.2
  condition : (search.context entry).Holds (generator.action entry).condition
  effects : Acceptable (search.effectTests entry)

/-! ### The binding interface -/

/-- `is_applicable` of an action binding. -/
def isApplicable (entry : generator.Entry) : Bool :=
  (search.context entry).isApplicableIfFiresLifted generator.ftermIndex generator.effectDomains
    (generator.action entry).effects

/-- `get_applicable_action_bindings`, after `compute_action_facts`. -/
def getApplicableActionBindings (facts : List Tuple) : List generator.Entry :=
  ApplicableActionProgram.getApplicableActionBindings generator.toNamedTask
    (fun action binding => search.isApplicable (action, binding)) facts

/-- The bindings for which `for_each_applicable_action_binding` calls back. -/
def forEachApplicableActionBinding (facts : List Tuple) : List generator.Entry :=
  (ApplicableActionProgram.factSets generator.toNamedTask facts).flatMap fun set =>
    set.filterMap fun fact =>
      (ApplicableActionProgram.predicateToAction generator.toNamedTask fact.relation).bind fun action =>
        if search.isApplicable (action, fact.objects) then some (action, fact.objects) else none

/-- `get_successor_node` of an action binding. -/
def getSuccessorNode (entry : generator.Entry) : UnpackedNode :=
  applyActionLifted (search.context entry) generator.effectDomains (generator.action entry)

theorem forEachApplicableActionBinding_eq (facts : List Tuple) :
    search.forEachApplicableActionBinding facts = search.getApplicableActionBindings facts := by
  rw [forEachApplicableActionBinding, getApplicableActionBindings,
    ApplicableActionProgram.getApplicableActionBindings, forEachActionBinding, List.filter_flatMap]
  congr 1
  funext set
  rw [List.filter_filterMap]
  congr 1
  funext fact
  rw [ApplicableActionProgram.readActionBinding]
  cases ApplicableActionProgram.predicateToAction generator.toNamedTask fact.relation with
  | none => rfl
  | some action => rfl

/-! ### What the state lists -/

variable {search}

theorem get_eq_value (entry : generator.Entry) : (search.context entry).get =
    TaskSemantics.value generator.toLiftedTask search.view.unextended entry.2 := by
  funext fterm
  rw [(search.context entry).get_eq]
  cases fterm with
  | static function terms => exact (search.lists.staticValue _).symm
  | fluent function terms => exact (search.lists.fluentValue _).symm

/-- A condition holds in the state as it lists its atoms. -/
theorem holds_iff (entry : generator.Entry) (condition : ConjunctiveCondition) :
    (search.context entry).Holds condition ↔
      ApplicableActionProgram.HoldsIn generator.toNamedTask search.view entry.2 condition := by
  have static := fun literal : Literal =>
    iff_congr (search.lists.staticAtom (literal.atom.ground entry.2)) (Iff.refl (literal.polarity = true))
  have fluent := fun literal : Literal =>
    iff_congr (search.lists.fluentAtom (literal.atom.ground entry.2)) (Iff.refl (literal.polarity = true))
  have derived := fun literal : Literal =>
    iff_congr (search.lists.derivedAtom (literal.atom.ground entry.2))
      (Iff.refl (literal.polarity = true))
  constructor
  · intro holds
    refine ⟨fun literal mem => (static literal).mpr (holds.static literal mem),
      fun literal mem => (fluent literal).mpr (holds.fluent literal mem),
      fun literal mem => (derived literal).mpr (holds.derived literal mem), fun constraint mem => ?_⟩
    rw [← get_eq_value]
    exact holds.numeric constraint mem
  · intro holds
    refine ⟨fun literal mem => (static literal).mp (holds.static literal mem),
      fun literal mem => (fluent literal).mp (holds.fluent literal mem),
      fun literal mem => (derived literal).mp (holds.derived literal mem), fun constraint mem => ?_⟩
    rw [get_eq_value]
    exact holds.numeric constraint mem

/-- The facts that the rules are matched on. -/
def facts (search : SearchNode generator) : Datalog.FactSets :=
  (data generator.toNamedTask search.view).factSets (generator.givenFacts search.view)

/-- The numeric constraints of the precondition pass the tests of the matching. -/
def NumericAccepted (search : SearchNode generator) (entry : generator.Entry) : Prop :=
  (generator.workspace entry.1).NumericAccepted generator.numeric search.facts entry.2

/-- The literals of the rule of an action hold if those of its precondition do. -/
theorem literalsHold_iff (search : SearchNode generator) (entry : generator.Entry) :
    (generator.workspace entry.1).LiteralsHold search.facts entry.2 ↔
      (∀ literal ∈ (generator.action entry).condition.staticLiterals,
        literal.HoldsIn {atom | atom ∈ generator.staticAtoms} entry.2) ∧
      (∀ literal ∈ (generator.action entry).condition.fluentLiterals,
        literal.HoldsIn {atom | atom ∈ search.view.fluentAtoms} entry.2) ∧
      ∀ literal ∈ (generator.action entry).condition.derivedLiterals,
        literal.HoldsIn {atom | atom ∈ search.view.derivedAtoms} entry.2 := by
  have declared := ApplicableActionProgram.declared_get entry.1
  have fluent := fun literal mem => mem_extended_fluent_iff generator.applicability_distinct
    search.typed.toDeclaredIn (declared.fluent literal mem) entry.2
  have derived := fun literal mem => mem_extended_derived_iff generator.applicability_distinct
    search.typed.toDeclaredIn (declared.derived literal mem).1 entry.2
  constructor
  · intro holds
    refine ⟨fun literal mem => holds .static literal (mem_static.mpr mem), fun literal mem => ?_,
      fun literal mem => ?_⟩
    · exact (fluent literal mem).symm.trans
        (holds .fluent _ (mem_fluent.mpr (.inl ⟨literal, mem, rfl⟩)))
    · exact (derived literal mem).symm.trans
        (holds .fluent _ (mem_fluent.mpr (.inr ⟨literal, mem, rfl⟩)))
  · rintro ⟨staticHolds, fluentHolds, derivedHolds⟩ kind literal mem
    cases kind with
    | static => exact staticHolds literal (mem_static.mp mem)
    | fluent =>
        rcases mem_fluent.mp mem with ⟨origin, memOrigin, rfl⟩ | ⟨origin, memOrigin, rfl⟩
        · exact (fluent origin memOrigin).trans (fluentHolds origin memOrigin)
        · exact (derived origin memOrigin).trans (derivedHolds origin memOrigin)

/-- A binding under which the precondition holds is only missed by the numeric tests. -/
theorem matchedLoosely_of_holds {entry : generator.Entry}
    (isBinding : generator.IsBinding (generator.action entry).arity entry.2)
    (holds : (search.context entry).Holds (generator.action entry).condition)
    (accepted : search.NumericAccepted entry) : generator.MatchedLoosely search.view entry := by
  have holdsIn := (holds_iff entry _).mp holds
  have admits : Datalog.AdmitsStatically (data generator.toNamedTask search.view)
      (generator.workspace entry.1) entry.2 :=
    ((ApplicableActionProgram.declared_get entry.1).admits_iff
      (ApplicableActionProgram.hasStaticPart generator.toNamedTask generator.literals
        generator.constraints) rfl).mpr ⟨isBinding, holdsIn.static, holdsIn.numeric⟩
  exact .of_literalsHold admits.inDomains
    ((search.literalsHold_iff entry).mpr ⟨holdsIn.static, holdsIn.fluent, holdsIn.derived⟩) accepted

/-- The weak literals of the rule of the action hold. -/
def WeakLiteralsHold (search : SearchNode generator) (entry : generator.Entry) : Prop :=
  ∀ kind, ∀ literal ∈ (generator.workspace entry.1).rule.body.literals kind,
    (generator.workspace entry.1).Weak kind literal →
      (literal.atom.ground entry.2 ∈ search.facts.predicate kind ↔ literal.polarity = true)

/-- The precondition of a matched binding holds up to its weak literals and its constraints. -/
theorem holds_iff_of_matchedLoosely {entry : generator.Entry}
    (matched : generator.MatchedLoosely search.view entry) :
    (search.context entry).Holds (generator.action entry).condition ↔
      search.WeakLiteralsHold entry ∧
        ∀ constraint ∈ (generator.action entry).condition.numericConstraints,
          constraint.holds (search.context entry).get = true := by
  constructor
  · intro holds
    have holdsIn := (holds_iff entry _).mp holds
    exact ⟨fun kind literal mem _ => (search.literalsHold_iff entry).mpr
      ⟨holdsIn.static, holdsIn.fluent, holdsIn.derived⟩ kind literal mem, holds.numeric⟩
  · rintro ⟨weak, numeric⟩
    have literalsHold : (generator.workspace entry.1).LiteralsHold search.facts entry.2 := by
      intro kind literal mem
      by_cases isWeak : (generator.workspace entry.1).Weak kind literal
      · exact weak kind literal mem isWeak
      · exact matched.strong kind literal mem isWeak
    obtain ⟨static, fluent, derived⟩ := (search.literalsHold_iff entry).mp literalsHold
    refine (holds_iff entry _).mpr ⟨static, fluent, derived, fun constraint mem => ?_⟩
    rw [← get_eq_value]
    exact numeric constraint mem

theorem isBinding_of_matchedLoosely {entry : generator.Entry}
    (matched : generator.MatchedLoosely search.view entry) :
    generator.IsBinding (generator.action entry).arity entry.2 :=
  ⟨matched.inDomains.1, TypedProgram.mem_objects_of_inDomains matched.inDomains⟩

end

end SearchNode

/-- Everything that is read is defined, and the records show no incompatible pair. -/
def Accepts (tests : List EffectTest) : Prop := AllDefined tests ∧ VisiblyCompatible (numericTests tests)

namespace SearchNode

section

variable [LinearOrder (FunctionExpression FunctionTerm)]
  [LinearOrder (FunctionExpression Datalog.FunctionTerm)] {generator : SuccessorGenerator}
  (search : SearchNode generator)

/-- The list has the applicable entries, each once. -/
def Enumerates (entries : List generator.Entry) : Prop :=
  entries.Nodup ∧ ∀ entry, entry ∈ entries ↔ search.Applicable entry

variable {search}

theorem enumerates_getApplicableActionBindings_iff {final : Datalog.SolveState}
    (computes : generator.ComputesActionFacts search.view final) :
    search.Enumerates (search.getApplicableActionBindings final.facts) ↔
      ∀ entry, generator.MatchedLoosely search.view entry ∧ Accepts (search.effectTests entry) ↔
        search.Applicable entry := by
  refine (and_iff_right ?_).trans (forall_congr' fun entry => ?_)
  · exact (SuccessorGenerator.nodup_forEachActionBinding search.typed computes).filter _
  · have isApplicable : search.isApplicable entry = true ↔ Accepts (search.effectTests entry) :=
      ApplicabilityContext.isApplicableIfFiresLifted_iff _ _
    rw [getApplicableActionBindings, ApplicableActionProgram.getApplicableActionBindings,
      List.mem_filter, SuccessorGenerator.mem_forEachActionBinding_iff search.typed computes, isApplicable]

/-! ### The ground interface -/

variable [LinearOrder (FunctionExpression GroundFunctionTerm)] [LinearOrder GroundNumericEffect]
  [LinearOrder GroundConditionalEffect]

/-- What the numeric effects of the ground action read and change. -/
def groundTests (search : SearchNode generator) (entry : generator.Entry) : List EffectTest :=
  groundActionTests (search.context entry).sorted generator.effectDomains (generator.action entry)

/-- The task whose ground actions the searches share, with the bindings that the program
enumerates for a state. -/
def liftedTask (generator : SuccessorGenerator) (bindings : UnpackedState → List generator.Entry)
    (bindings_length : ∀ state, ∀ entry ∈ bindings state,
      entry.2.length = (generator.actions.get entry.1).arity) : LiftedTask where
  task := generator.executionTask
  repository :=
    ({ generator.repository with
        conditionalEffects := .sorted GroundConditionalEffect } : Repository).sorted
  actions := generator.actions
  effectDomains := generator.effectDomains
  ruleLiterals := generator.ruleLiterals
  applicableBindings := bindings
  bindings_length := bindings_length

/-- The ground action of an entry with the successor node of the binding interface. -/
def labeled (search : SearchNode generator) (entry : generator.Entry) : LabeledSuccessor where
  binding := ⟨entry.1, entry.2⟩
  action := groundAction (search.context entry).sorted generator.effectDomains (generator.action entry)
  node := search.getSuccessorNode entry

/-- The ground action of an entry with its own successor node. -/
def groundLabeled (search : SearchNode generator) (entry : generator.Entry) : LabeledSuccessor :=
  { search.labeled entry with
    node := applyAction (search.context entry).state
      (groundAction (search.context entry).sorted generator.effectDomains (generator.action entry)) }

/-- `is_applicable` of the ground action of an entry. -/
def isApplicableGround (search : SearchNode generator) (entry : generator.Entry) : Bool :=
  isApplicableIfFires (search.context entry).state
    (groundAction (search.context entry).sorted generator.effectDomains (generator.action entry)).effects

section

variable {bindings : UnpackedState → List generator.Entry}
  {bindings_length : ∀ state, ∀ entry ∈ bindings state,
    entry.2.length = (generator.actions.get entry.1).arity} {history : List Call}

/-- With harmless rows the ground interface lists the entries that the test of the ground
action accepts. -/
theorem labeledSuccessors_eq (search : SearchNode generator)
    (harmless : FirstRequestsHarmless
      (sessionAfter (liftedTask generator bindings bindings_length) history).requests) :
    (labeledSuccessors (sessionAfter (liftedTask generator bindings bindings_length) history)
      search.node).1 =
      ((bindings search.node.state).filter search.isApplicableGround).map search.groundLabeled := by
  have exact : CacheExact (liftedTask generator bindings bindings_length)
      (sessionAfter (liftedTask generator bindings bindings_length) history).cache := by
    rw [show (sessionAfter _ history).cache = _ from replayed_sessionAfter _ history]
    exact (cacheExact_replay_iff _).mpr harmless
  rw [labeledSuccessors_of_cacheExact exact]
  have successors : ∀ entries : List generator.Entry,
      (∀ entry ∈ entries, entry.2.length = (generator.actions.get entry.1).arity) →
      entries.filterMap (successor (liftedTask generator bindings bindings_length)
          (nodeContext generator.executionTask search.node)) =
        (entries.filter search.isApplicableGround).map search.groundLabeled := by
    intro entries
    induction entries with
    | nil => exact fun _ => rfl
    | cons entry rest ih =>
        intro lengths
        have key : entry.2.take (generator.actions.get entry.1).arity = entry.2 :=
          List.take_of_length_le (lengths entry List.mem_cons_self).le
        have ofEntry : successor (liftedTask generator bindings bindings_length)
            (nodeContext generator.executionTask search.node) entry =
            if search.isApplicableGround entry then some (search.groundLabeled entry) else none := by
          rw [groundLabeled, labeled, ← key]
          rfl
        have ih := ih fun other mem => lengths other (List.mem_cons_of_mem _ mem)
        by_cases accepted : search.isApplicableGround entry = true
        · rw [if_pos accepted] at ofEntry
          rw [List.filter_cons_of_pos accepted, List.map_cons, ← ih]
          exact List.filterMap_cons_some ofEntry
        · rw [if_neg accepted] at ofEntry
          rw [List.filter_cons_of_neg accepted, ← ih]
          exact List.filterMap_cons_none ofEntry
  exact successors _ (bindings_length _)

end

/-! ### Exactness -/

/-- The three interfaces enumerate the applicable entries, each once, and have the same
successor nodes: after every evaluation of the program, and after every use of the shared cache
in which each binding was first grounded with a harmless row. -/
structure EnumerationExact (search : SearchNode generator) : Prop where
  get : ∀ final, generator.ComputesActionFacts search.view final →
    search.Enumerates (search.getApplicableActionBindings final.facts)
  forEach : ∀ final, generator.ComputesActionFacts search.view final →
    search.Enumerates (search.forEachApplicableActionBinding final.facts)
  labeled : ∀ final, generator.ComputesActionFacts search.view final →
    ∀ bindings bindings_length history,
      bindings search.node.state = forEachActionBinding generator.toNamedTask final.facts →
      FirstRequestsHarmless
        (sessionAfter (liftedTask generator bindings bindings_length) history).requests →
      ∃ entries, search.Enumerates entries ∧
        (labeledSuccessors (sessionAfter (liftedTask generator bindings bindings_length) history)
          search.node).1 = entries.map search.labeled

/-- No test is deceived. A binding that is matched and whose effects a test accepts does not
violate a weak literal or a constraint; the estimates do not drop an applicable binding; and
where the precondition holds, the records of both tests show an incompatible pair of
effects exactly if there is one. -/
structure TestsSuffice (search : SearchNode generator) : Prop where
  literals : ∀ entry, generator.MatchedLoosely search.view entry →
    Accepts (search.groundTests entry) ∨ Accepts (search.effectTests entry) →
      search.WeakLiteralsHold entry
  constraints : ∀ entry, generator.MatchedLoosely search.view entry →
    Accepts (search.groundTests entry) ∨ Accepts (search.effectTests entry) →
      ∀ constraint ∈ (generator.action entry).condition.numericConstraints,
        constraint.holds (search.context entry).get = true
  estimates : ∀ entry, search.Applicable entry → search.NumericAccepted entry
  records : ∀ entry, generator.IsBinding (generator.action entry).arity entry.2 →
    (search.context entry).Holds (generator.action entry).condition → search.NumericAccepted entry →
      (Accepts (search.groundTests entry) ↔ Acceptable (search.effectTests entry)) ∧
        (Accepts (search.effectTests entry) ↔ Acceptable (search.effectTests entry))

/-- Both tests leave exactly the applicable entries if and only if they suffice. -/
theorem testsSuffice_iff : search.TestsSuffice ↔
    (∀ entry, generator.MatchedLoosely search.view entry ∧ Accepts (search.groundTests entry) ↔
      search.Applicable entry) ∧
    ∀ entry, generator.MatchedLoosely search.view entry ∧ Accepts (search.effectTests entry) ↔
      search.Applicable entry := by
  constructor
  · intro suffice
    have holds : ∀ entry, generator.MatchedLoosely search.view entry →
        Accepts (search.groundTests entry) ∨ Accepts (search.effectTests entry) →
          (search.context entry).Holds (generator.action entry).condition := fun entry matched accepted =>
      (holds_iff_of_matchedLoosely matched).mpr ⟨suffice.literals entry matched accepted,
        suffice.constraints entry matched accepted⟩
    have matched : ∀ entry, search.Applicable entry → generator.MatchedLoosely search.view entry :=
      fun entry applicable => matchedLoosely_of_holds applicable.isBinding applicable.condition
        (suffice.estimates entry applicable)
    have records : ∀ entry, search.Applicable entry →
        Accepts (search.groundTests entry) ∧ Accepts (search.effectTests entry) := by
      intro entry applicable
      obtain ⟨ground, lifted⟩ := suffice.records entry applicable.isBinding applicable.condition
        (suffice.estimates entry applicable)
      exact ⟨ground.mpr applicable.effects, lifted.mpr applicable.effects⟩
    refine ⟨fun entry => ⟨?_, fun applicable => ⟨matched entry applicable,
      (records entry applicable).1⟩⟩, fun entry => ⟨?_, fun applicable =>
        ⟨matched entry applicable, (records entry applicable).2⟩⟩⟩
    · rintro ⟨isMatched, accepted⟩
      have holds := holds entry isMatched (.inl accepted)
      have isBinding := isBinding_of_matchedLoosely isMatched
      exact ⟨isBinding, holds,
        (suffice.records entry isBinding holds isMatched.numeric).1.mp accepted⟩
    · rintro ⟨isMatched, accepted⟩
      have holds := holds entry isMatched (.inr accepted)
      have isBinding := isBinding_of_matchedLoosely isMatched
      exact ⟨isBinding, holds,
        (suffice.records entry isBinding holds isMatched.numeric).2.mp accepted⟩
  · rintro ⟨ground, lifted⟩
    have applicable : ∀ entry, generator.MatchedLoosely search.view entry →
        Accepts (search.groundTests entry) ∨ Accepts (search.effectTests entry) →
          search.Applicable entry := by
      rintro entry matched (accepted | accepted)
      · exact (ground entry).mp ⟨matched, accepted⟩
      · exact (lifted entry).mp ⟨matched, accepted⟩
    refine ⟨fun entry matched accepted => ?_, fun entry matched accepted => ?_,
      fun entry isApplicable => ?_, fun entry isBinding holds accepted => ?_⟩
    · exact ((holds_iff_of_matchedLoosely matched).mp
        (applicable entry matched accepted).condition).1
    · exact (applicable entry matched accepted).condition.numeric
    · exact ((ground entry).mpr isApplicable).1.numeric
    · have matched := matchedLoosely_of_holds isBinding holds accepted
      constructor
      · exact ⟨fun accepts => (applicable entry matched (.inl accepts)).effects,
          fun acceptable => ((ground entry).mpr ⟨isBinding, holds, acceptable⟩).2⟩
      · exact ⟨fun accepts => (applicable entry matched (.inr accepts)).effects,
          fun acceptable => ((lifted entry).mpr ⟨isBinding, holds, acceptable⟩).2⟩

theorem groundLabeled_eq_iff (entry : generator.Entry) :
    search.groundLabeled entry = search.labeled entry ↔
      search.getSuccessorNode entry = applyAction (search.context entry).state
        (groundAction (search.context entry).sorted generator.effectDomains (generator.action entry)) := by
  constructor
  · exact fun same => (congrArg LabeledSuccessor.node same).symm
  · intro same
    rw [groundLabeled, ← same]
    rfl

/-- A list of labels is that of the entries with these bindings. -/
theorem exists_labeled_iff {entries : List generator.Entry} :
    (∃ listed, search.Enumerates listed ∧
        entries.map search.groundLabeled = listed.map search.labeled) ↔
      search.Enumerates entries ∧
        ∀ entry ∈ entries, search.groundLabeled entry = search.labeled entry := by
  constructor
  · rintro ⟨listed, enumerates, same⟩
    have bindings := congrArg (List.map LabeledSuccessor.binding) same
    rw [List.map_map, List.map_map] at bindings
    have injective : Function.Injective (LabeledSuccessor.binding ∘ search.labeled) := by
      intro entry other sameBinding
      obtain ⟨sameAction, sameObjects⟩ := ActionBinding.mk.inj sameBinding
      exact Prod.ext (Fin.ext sameAction) sameObjects
    obtain rfl := List.map_injective_iff.mpr injective bindings
    exact ⟨enumerates, List.map_inj_left.mp same⟩
  · rintro ⟨enumerates, same⟩
    exact ⟨entries, enumerates, List.map_inj_left.mpr same⟩

theorem enumerates_isApplicableGround_iff {final : Datalog.SolveState}
    (computes : generator.ComputesActionFacts search.view final) :
    search.Enumerates ((forEachActionBinding generator.toNamedTask final.facts).filter
        search.isApplicableGround) ↔
      ∀ entry, generator.MatchedLoosely search.view entry ∧ Accepts (search.groundTests entry) ↔
        search.Applicable entry := by
  refine (and_iff_right ?_).trans (forall_congr' fun entry => ?_)
  · exact (SuccessorGenerator.nodup_forEachActionBinding search.typed computes).filter _
  · have isApplicable : search.isApplicableGround entry = true ↔ Accepts (search.groundTests entry) :=
      isApplicableIfFires_iff _
    rw [List.mem_filter, SuccessorGenerator.mem_forEachActionBinding_iff search.typed computes,
      isApplicable]

/-- The interfaces are exact if and only if the tests suffice and the applicable bindings have
the successors of their ground actions. -/
theorem enumerationExact_iff_testsSuffice : search.EnumerationExact ↔ search.TestsSuffice ∧
    ∀ entry, search.Applicable entry →
      search.getSuccessorNode entry = applyAction (search.context entry).state
        (groundAction (search.context entry).sorted generator.effectDomains (generator.action entry)) := by
  rw [testsSuffice_iff]
  constructor
  · intro exact
    obtain ⟨final, computes⟩ := generator.exists_computesActionFacts search.view
    have lengths : ∀ _ : UnpackedState,
        ∀ entry ∈ forEachActionBinding generator.toNamedTask final.facts,
          entry.2.length = (generator.actions.get entry.1).arity := fun _ entry mem =>
      (isBinding_of_matchedLoosely ((SuccessorGenerator.mem_forEachActionBinding_iff search.typed
        computes).mp mem)).length
    have ofLabeled := exact.labeled final computes _ lengths [] rfl
    have harmless : FirstRequestsHarmless
        (sessionAfter (liftedTask generator _ lengths) []).requests := by
      rintro earlier request ⟨later, isNil⟩
      cases earlier <;> cases isNil
    have labeled := ofLabeled harmless
    rw [labeledSuccessors_eq search harmless, exists_labeled_iff,
      enumerates_isApplicableGround_iff computes] at labeled
    refine ⟨⟨labeled.1, (enumerates_getApplicableActionBindings_iff computes).mp
      (exact.get final computes)⟩, fun entry applicable => ?_⟩
    have mem := (((enumerates_isApplicableGround_iff computes).mpr labeled.1).2 entry).mpr applicable
    exact (groundLabeled_eq_iff entry).mp (labeled.2 entry mem)
  · rintro ⟨⟨ground, lifted⟩, sameSuccessor⟩
    refine ⟨fun final computes => ?_, fun final computes => ?_,
      fun final computes bindings bindings_length history enumerated harmless => ?_⟩
    · exact (enumerates_getApplicableActionBindings_iff computes).mpr lifted
    · rw [forEachApplicableActionBinding_eq]
      exact (enumerates_getApplicableActionBindings_iff computes).mpr lifted
    · have enumerates := (enumerates_isApplicableGround_iff computes).mpr ground
      rw [labeledSuccessors_eq search harmless, enumerated]
      refine exists_labeled_iff.mpr ⟨enumerates, fun entry mem => ?_⟩
      exact (groundLabeled_eq_iff entry).mpr (sameSuccessor entry ((enumerates.2 entry).mp mem))

end

variable [LinearOrder (FunctionExpression FunctionTerm)]
  [LinearOrder (FunctionExpression Datalog.FunctionTerm)] {generator : SuccessorGenerator}

theorem oneValuePerVariable (search : SearchNode generator) (entry : generator.Entry)
    (domains : EffectDomains) (effects : List ConditionalEffect) :
    OneValuePerVariable ((search.context entry).firedFacts true domains effects) := by
  have binary : ∀ fact ∈ (search.context entry).firedFacts true domains effects, fact.value = 1 := by
    intro fact mem
    obtain ⟨inst, _, isAdded⟩ := List.mem_flatMap.mp mem
    obtain ⟨literal, _, rfl⟩ := List.mem_map.mp isAdded
    exact generator.binary _
  intro fact mem other memOther _
  rw [binary fact mem, binary other memOther]

end SearchNode

/-! Opening a shut door sets the numbers of all doors to zero. -/

/-- Opens a shut door and resets the numbers. -/
def openAndReset : Action :=
  { ApplicableActionProgram.openShut with
    effects := [{
      arity := 1
      effect :=
        { literals := [⟨⟨0, [.parameter 0]⟩, true⟩]
          numericEffects := [⟨.assign, 0, [.parameter 1], .number (.finite 0)⟩] } }] }

theorem openAndReset_effects_closed : ∀ action ∈ [openAndReset], ∀ effect ∈ action.effects,
    ∀ literal ∈ effect.effect.literals, ∀ index, .parameter index ∈ literal.atom.terms →
      index < action.arity + effect.arity := by
  intro action mem effect memEffect literal memLiteral index occurs
  cases List.mem_singleton.mp mem
  cases List.mem_singleton.mp memEffect
  cases List.mem_singleton.mp memLiteral
  cases List.mem_singleton.mp occurs
  exact Nat.zero_lt_two

def resettableDoors : NamedTask :=
  { ApplicableActionProgram.openableDoors with
    actions := [openAndReset]
    effects_closed := openAndReset_effects_closed
    actionName := fun _ => "unlock"
    actionIndex := Fin.val }

theorem resettableDoors_distinct : Distinct resettableDoors [] := by
  unfold Distinct
  decide

theorem resettableDoors_applicability_distinct :
    Distinct resettableDoors (applicabilityData resettableDoors) := by
  unfold Distinct
  decide

/-- The index of an atom or a function term is its encoding. -/
def encodeTuple (tuple : Tuple) : Nat := Encodable.encode (tuple.relation, tuple.objects)

theorem encodeTuple_injective : Function.Injective encodeTuple := by
  intro tuple other same
  obtain ⟨sameRelation, sameObjects⟩ := Prod.mk.inj (Encodable.encode_injective same)
  cases tuple
  cases other
  cases sameRelation
  cases sameObjects
  rfl

noncomputable def encodedRepository : Repository where
  staticAtom := encodeTuple
  fluentFact atom := ⟨encodeTuple atom, 1⟩
  derivedAtom := encodeTuple
  staticFterm := encodeTuple
  fluentFterm := encodeTuple
  greater _ _ := false
  arguments := .classical _
  numericEffects := .classical _
  conditionalEffects := .classical _

/-- The first door is open and the second one is shut. -/
def secondShut : StateView where
  fluentAtoms := [⟨0, [0]⟩]
  derivedAtoms := [⟨0, [1]⟩]
  fluentValues _ := .nan

/-- A door that is not open is shut. -/
def resettableExecution : Task where
  staticAtoms _ := false
  staticValues _ := .nan
  fluentFacts := [⟨encodeTuple ⟨0, [0]⟩, 1⟩]
  fluentFtermValues := []
  auxiliaryFtermValue := none
  metric := none
  axiomEvaluator state index := [0, 1].any fun door =>
    index == encodeTuple ⟨0, [door]⟩ && state.fluentFacts (encodeTuple ⟨0, [door]⟩) != 1

section

noncomputable local instance : LinearOrder (FunctionExpression FunctionTerm) := arbitraryOrder _

noncomputable local instance : LinearOrder (FunctionExpression Datalog.FunctionTerm) :=
  arbitraryOrder _

noncomputable def resettableTask : ActionTask where
  toNamedTask := resettableDoors
  distinct := resettableDoors_distinct
  bodies_declared := by
    intro ax mem
    obtain rfl := List.mem_singleton.mp mem
    exact AxiomEvaluatorProgram.shutAxiom_declared rfl (List.mem_singleton_self 0)
  heads_declared := by decide
  applicability_distinct := resettableDoors_applicability_distinct
  conditions_declared := by
    intro action mem
    obtain rfl := List.mem_singleton.mp mem
    exact ApplicableActionProgram.openShut_declared rfl (List.mem_singleton_self 0)

theorem resettableTask_ascends : ∀ edge ∈ ((typedProgram resettableTask (.classical _)
      (.classical _)).ruleDependencies.graph
    (typedProgram resettableTask (.classical _) (.classical _)).program.rules.attach).edges,
    edge.source < edge.target := by
  have only : ∀ action ∈ resettableTask.actions,
      action.condition = ApplicableActionProgram.openShut.condition := by
    intro action mem
    rw [List.mem_singleton.mp mem]
    rfl
  exact ApplicableActionProgram.openShut_ascends only (show ∀ action,
    derivedToFluentPredicate resettableDoors (applicabilityData resettableDoors) 0 <
      applicabilityPredicate resettableDoors action by decide) (.classical _) (.classical _)

theorem exists_resettableStrata : ∃ strata,
    (typedProgram resettableTask (.classical _) (.classical _)).computeStrata ascendingLibrary =
      .ok strata :=
  TypedProgram.exists_strata (ascendingLibrary_correctOn resettableTask_ascends)
    (not_negativeCycle_of_ascends resettableTask_ascends)

/-- The generator for the given objects of the quantified variable. -/
noncomputable def resettableGenerator (objects : List Nat) : SuccessorGenerator where
  toActionTask := resettableTask
  literals := .classical _
  constraints := .classical _
  numeric := Datalog.noNumeric
  library := ascendingLibrary
  correct := ascendingLibrary_correctOn resettableTask_ascends
  strata := exists_resettableStrata.choose
  computed := exists_resettableStrata.choose_spec
  static_typed := nofun
  executionTask := resettableExecution
  repository := encodedRepository
  binary _ := rfl
  effectDomains effect := List.replicate effect.arity objects
  ftermIndex := .encode
  ruleLiterals := .classical _

theorem secondShut_typed (objects : List Nat) : (resettableGenerator objects).Typed secondShut where
  fluent := show ∀ atom ∈ secondShut.fluentAtoms, atom.relation ∈ resettableDoors.fluentPredicates by decide
  derived := show ∀ atom ∈ secondShut.derivedAtoms, atom.relation ∈ resettableDoors.derivedPredicates by
    decide
  fluent_typed := by
    intro atom mem
    obtain rfl := List.mem_singleton.mp mem
    rfl
  derived_typed := by
    intro atom mem
    obtain rfl := List.mem_singleton.mp mem
    rfl

theorem initialFacts_eq_one_iff (atom : Tuple) :
    (initialState resettableExecution).fluentFacts (encodeTuple atom) = 1 ↔ atom = ⟨0, [0]⟩ := by
  change Function.update (fun _ => 0) (encodeTuple ⟨0, [0]⟩) 1 (encodeTuple atom) = 1 ↔ _
  rw [Function.update_apply]
  constructor
  · intro isOne
    split at isOne
    · exact encodeTuple_injective ‹_›
    · cases isOne
  · rintro rfl
    exact if_pos rfl

theorem secondShut_lists : secondShut.Lists resettableDoors encodedRepository
    (nodeContext resettableExecution (getInitialNode resettableExecution)) where
  staticAtom atom := ⟨nofun, nofun⟩
  staticValue fterm := rfl
  fluentAtom atom := List.mem_singleton.trans (initialFacts_eq_one_iff atom).symm
  derivedAtom atom := by
    change atom ∈ [⟨0, [1]⟩] ↔ ([0, 1].any fun door => encodeTuple atom == encodeTuple ⟨0, [door]⟩ &&
      (initialState resettableExecution).fluentFacts (encodeTuple ⟨0, [door]⟩) != 1) = true
    simp [initialFacts_eq_one_iff, encodeTuple_injective.eq_iff]
  fluentValue fterm := rfl

/-- The initial node. -/
noncomputable def resettableSearch (objects : List Nat) : SearchNode (resettableGenerator objects) where
  node := getInitialNode resettableExecution
  view := secondShut
  typed := secondShut_typed objects
  lists := secondShut_lists
  created := ⟨fun _ => true, fun _ => true, fun _ => true, fun _ => true, fun _ => true, fun _ => true⟩
  covers := ⟨nofun, nofun, nofun, nofun, nofun⟩

noncomputable local instance : LinearOrder (FunctionExpression GroundFunctionTerm) :=
  arbitraryOrder _

variable {objects : List Nat}

theorem resettable_action (entry : (resettableGenerator objects).Entry) :
    (resettableGenerator objects).action entry = openAndReset :=
  List.mem_singleton.mp (List.get_mem [openAndReset] entry.1)

/-- The precondition is one positive literal of a rule with one parameter. -/
theorem resettable_weakLiteralsHold (entry : (resettableGenerator objects).Entry) :
    (resettableSearch objects).WeakLiteralsHold entry := by
  intro kind literal mem weak
  have two : 2 ≤ ((resettableGenerator objects).action entry).arity := weak.1
  rw [resettable_action] at two
  exact absurd two (Nat.not_succ_le_self 1)

theorem resettable_numericAccepted (entry : (resettableGenerator objects).Entry) :
    (resettableSearch objects).NumericAccepted entry := by
  refine Datalog.ConstRuleWorkspace.numericAccepted_iff.mpr ⟨⟨fun _ _ _ _ _ => rfl,
    fun _ _ _ _ _ _ _ _ => rfl⟩, fun constraint mem => ?_⟩
  obtain ⟨origin, inBody, _⟩ := mem_numeric.mp mem
  have inCondition : origin ∈ ((resettableGenerator objects).action entry).condition.numericConstraints :=
    inBody
  rw [resettable_action] at inCondition
  cases inCondition

/-- What the instance for a quantified object reads and changes. -/
def resetTest (entry : (resettableGenerator objects).Entry) (object : Nat) : EffectTest :=
  ⟨true, some ⟨FtermIndex.encode.index 0 [.parameter 1],
    encodeTuple ⟨0, [(entry.2 ++ [object]).getD 1 0]⟩, .assign⟩⟩

theorem resettable_effectTests_one (entry : (resettableGenerator [0]).Entry) :
    (resettableSearch [0]).effectTests entry = [resetTest entry 0] := by
  rw [SearchNode.effectTests, resettable_action]
  rfl

theorem resettable_effectTests_two (entry : (resettableGenerator [0, 1]).Entry) :
    (resettableSearch [0, 1]).effectTests entry = [resetTest entry 0, resetTest entry 1] := by
  rw [SearchNode.effectTests, resettable_action]
  rfl

/-- The ground action records the effect under its ground function term. -/
theorem resettable_groundTests_one [LinearOrder GroundNumericEffect]
    [LinearOrder GroundConditionalEffect] (entry : (resettableGenerator [0]).Entry) :
    (resettableSearch [0]).groundTests entry =
      [⟨true, some ⟨encodeTuple ⟨0, [(entry.2 ++ [0]).getD 1 0]⟩,
        encodeTuple ⟨0, [(entry.2 ++ [0]).getD 1 0]⟩, .assign⟩⟩] := by
  rw [SearchNode.groundTests, resettable_action]
  rfl

theorem acceptable_singleton (effect : FiredEffect) : Acceptable [⟨true, some effect⟩] :=
  ⟨by simp [AllDefined], List.pairwise_singleton _ _⟩

theorem accepts_singleton (effect : FiredEffect) : Accepts [⟨true, some effect⟩] := by
  refine ⟨(acceptable_singleton effect).1, ?_⟩
  change VisiblyCompatible ([] ++ [effect])
  refine visiblyCompatible_concat.mpr ⟨?_, ?_⟩
  · intro before other after split
    simp at split
  · rintro earlier ⟨before, after, split, _⟩
    simp at split

/-- The second door is shut. -/
theorem resettable_applicable
    (acceptable : Acceptable ((resettableSearch objects).effectTests ((0 : Fin 1), [1]))) :
    (resettableSearch objects).Applicable ((0 : Fin 1), [1]) where
  isBinding := ⟨rfl, show ∀ object ∈ [1], object ∈ resettableDoors.objects by decide⟩
  condition := by
    refine (SearchNode.holds_iff _ _).mpr ?_
    rw [resettable_action]
    refine ⟨nofun, nofun, fun literal mem => ?_, nofun⟩
    obtain rfl := List.mem_singleton.mp mem
    exact iff_of_true (List.mem_singleton_self _) rfl
  effects := acceptable

theorem resettable_neutral (entry : (resettableGenerator [0]).Entry) :
    ((resettableSearch [0]).context entry).NeutralArguments (resettableGenerator [0]).effectDomains
      ((resettableGenerator [0]).action entry) := by
  rw [resettable_action]
  intro inst mem
  obtain ⟨effect, memEffect, isInstance⟩ := List.mem_flatMap.mp mem
  obtain ⟨objects, -, rfl⟩ := List.mem_map.mp isInstance
  obtain rfl := List.mem_singleton.mp memEffect
  refine ⟨nofun, fun _ numeric memNumeric => ?_, nofun⟩
  obtain rfl := List.mem_singleton.mp memNumeric
  simp [ApplicabilityContext.NeutralExpression, FunctionExpression.Everywhere,
    FunctionExpression.ProductNeutral]

theorem resettable_testsSuffice [LinearOrder GroundNumericEffect]
    [LinearOrder GroundConditionalEffect] : (resettableSearch [0]).TestsSuffice where
  literals entry _ _ := resettable_weakLiteralsHold entry
  constraints entry _ _ constraint mem := by
    rw [resettable_action] at mem
    cases mem
  estimates entry _ := resettable_numericAccepted entry
  records entry _ _ _ := by
    rw [resettable_groundTests_one, resettable_effectTests_one]
    exact ⟨iff_of_true (accepts_singleton _) (acceptable_singleton _),
      iff_of_true (accepts_singleton _) (acceptable_singleton _)⟩

/-- There is one instance, which is not merged. -/
theorem resettable_mergesNeutral (entry : (resettableGenerator [0]).Entry) :
    MergesNeutral ((resettableSearch [0]).context entry) (resettableGenerator [0]).effectDomains
      ((resettableGenerator [0]).action entry) := by
  rw [resettable_action]
  constructor
  · intro update mem other memOther _
    rw [List.mem_singleton.mp mem, List.mem_singleton.mp memOther]
  · intro numericOrder effectOrder totalCost
    rfl

end

end Tyr.Planning
