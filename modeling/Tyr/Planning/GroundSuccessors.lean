import Tyr.Planning.ApplyAction
import Tyr.Planning.GroundAxiomEvaluator

/-!
The successor generator of a ground task.

The match tree of the actions generates those whose conditions hold dynamically, and the
executor keeps those that are applicable. A node is registered with its derived atoms, so
that every node that is ever expanded holds the stable model of the axioms.

* `getLabeledSuccessorNodes` — the successors of a node.
* `Expanded` — the nodes of the runs of the generator.
* `groundSuccessors_exact` — the derived atoms and the successors of the nodes.
-/

namespace Tyr.Planning

open Tyr.Lib Tyr.Formalism Tyr.Formalism.Planning Tyr.Analysis.Stratification

/-- A ground task with its match trees, whose derived atoms are those that the evaluator
computes. -/
structure CompiledTask (library : GraphLibrary) where
  task : Task
  indexed : IndexedTask
  strata : List (List Nat)
  actionTree : Option MatchTree.Node
  axiomTrees : List (Option MatchTree.Node)
  correct : library.CorrectOn (indexed.dependencies.graph indexed.groundAxioms)
  stratified : computeStratification library indexed.dependencies indexed.groundAxioms = .ok strata
  actionTree_created : MatchTree.IsTree indexed.actionRepository indexed.groundActions actionTree
  axiomTrees_created : List.Forall₂ (MatchTree.IsTree indexed.axiomRepository) strata axiomTrees
  evaluates : ∀ state, state.derivedAtoms = (fun _ => false) → ∃ steps, ∀ fuel ≥ steps,
    computeExtendedState task indexed axiomTrees fuel state = some (registerState task state)

/-- What the grounder asserts: the static literals of the ground actions and axioms hold. -/
structure CompiledTask.Asserts {library : GraphLibrary} (compiled : CompiledTask library) : Prop where
  actions : ∀ element ∈ compiled.indexed.groundActions,
    isStaticallyApplicable compiled.task (compiled.indexed.action element).condition = true
  axioms : ∀ element ∈ compiled.indexed.groundAxioms,
    isStaticallyApplicable compiled.task (compiled.indexed.groundAxiom element).body = true

section

variable {library : GraphLibrary} (compiled : CompiledTask library)

/-- `get_labeled_successor_nodes`. None if the fuel does not last. The executor only asserts
that the precondition holds and tests the effects. -/
def getLabeledSuccessorNodes (fuel : Nat) (node : UnpackedNode) : Option (List (Nat × UnpackedNode)) := do
  let context := nodeContext compiled.task node
  let applicable ← MatchTree.generate context compiled.actionTree fuel
  some ((applicable.filter fun element =>
      isApplicableIfFires context (compiled.indexed.action element).effects).map
    fun element => (element, applyAction context (compiled.indexed.action element)))

/-- The nodes that the generator reaches from the initial one. -/
inductive Expanded : UnpackedNode → Prop where
  | initial : Expanded (getInitialNode compiled.task)
  | successor {node successor : UnpackedNode} {element fuel : Nat}
      {successors : List (Nat × UnpackedNode)} : Expanded node →
      getLabeledSuccessorNodes compiled fuel node = some successors →
      (element, successor) ∈ successors → Expanded successor

/-- The clauses of the axioms in a state. -/
abbrev CompiledTask.clauses (state : UnpackedState) : Set (Clause Nat) :=
  stateClauses compiled.task compiled.indexed state compiled.indexed.groundAxioms

end

section

variable {library : GraphLibrary} {indexed : IndexedTask} {strata : List (List Nat)}
  {actionTree : Option MatchTree.Node} {axiomTrees : List (Option MatchTree.Node)}

open Classical in
/-- The task whose derived atoms are those of the perfect model of the strata. -/
noncomputable def withPerfectModel (task : Task) (indexed : IndexedTask) (strata : List (List Nat)) :
    Task :=
  { task with
    axiomEvaluator := fun state atom =>
      decide (atom ∈ perfectModel (strata.map (testedClauses task indexed state)) ∅) }

/-- The evaluator computes the perfect model. -/
theorem evaluates_withPerfectModel {stratum : Nat → Nat} (task : Task)
    (stratified : IsStratification indexed.dependencies indexed.groundAxioms strata stratum)
    (created : List.Forall₂ (MatchTree.IsTree indexed.axiomRepository) strata axiomTrees)
    (state : UnpackedState) (unextended : state.derivedAtoms = fun _ => false) :
    ∃ steps, ∀ fuel ≥ steps,
      computeExtendedState (withPerfectModel task indexed strata) indexed axiomTrees fuel state =
        some (registerState (withPerfectModel task indexed strata) state) := by
  obtain ⟨extended, ⟨steps, ends⟩, same, model⟩ :=
    @evaluateStrata_model (withPerfectModel task indexed strata) _ _ _
      (generates_strata stratified created) (negationFree_stratum stratified) state
  have isRegistered : extended = registerState (withPerfectModel task indexed strata) state := by
    refine SameUnextended.eq ⟨same.facts, same.values⟩ ?_
    have sameClauses : testedClauses (withPerfectModel task indexed strata) indexed state =
        testedClauses task indexed state := funext (testedClauses_congr rfl ⟨rfl, rfl⟩)
    rw [model, derivedSet_of_unextended unextended, sameClauses]
    ext atom
    exact (@decide_eq_true_iff _ (Classical.propDecidable _)).symm
  exact ⟨steps, fun fuel enough => (ends fuel enough).trans (congrArg some isRegistered)⟩

theorem isStratification_of_ok
    (correct : library.CorrectOn (indexed.dependencies.graph indexed.groundAxioms))
    (computed : computeStratification library indexed.dependencies indexed.groundAxioms = .ok strata) :
    ∃ stratum, IsStratification indexed.dependencies indexed.groundAxioms strata stratum := by
  have isCorrect := computeStratification_correct indexed.closed correct
  rw [computed] at isCorrect
  cases isCorrect with
  | ok _ _ isStratification => exact isStratification

/-- Every task with stratified axioms can be compiled. -/
noncomputable def compile (task : Task)
    (correct : library.CorrectOn (indexed.dependencies.graph indexed.groundAxioms))
    (stratified : computeStratification library indexed.dependencies indexed.groundAxioms = .ok strata)
    (actionTree_created : MatchTree.IsTree indexed.actionRepository indexed.groundActions actionTree)
    (axiomTrees_created : List.Forall₂ (MatchTree.IsTree indexed.axiomRepository) strata axiomTrees) :
    CompiledTask library where
  task := withPerfectModel task indexed strata
  indexed := indexed
  strata := strata
  actionTree := actionTree
  axiomTrees := axiomTrees
  correct := correct
  stratified := stratified
  actionTree_created := actionTree_created
  axiomTrees_created := axiomTrees_created
  evaluates := by
    obtain ⟨stratum, isStratification⟩ := isStratification_of_ok correct stratified
    exact evaluates_withPerfectModel task isStratification axiomTrees_created

end

section

variable {library : GraphLibrary} {compiled : CompiledTask library}

theorem CompiledTask.exists_stratification (compiled : CompiledTask library) :
    ∃ stratum, IsStratification compiled.indexed.dependencies compiled.indexed.groundAxioms
      compiled.strata stratum :=
  isStratification_of_ok compiled.correct compiled.stratified

/-- A registered state holds the stable model. -/
theorem registerState_stable (asserts : compiled.Asserts) (state : UnpackedState)
    (unextended : state.derivedAtoms = fun _ => false) :
    IsStable (compiled.clauses (registerState compiled.task state))
      (registerState compiled.task state).derivedSet := by
  obtain ⟨stratum, stratified⟩ := compiled.exists_stratification
  obtain ⟨extended, ⟨steps, ends⟩, _, model⟩ := @evaluateStrata_model compiled.task _ _ _
    (generates_strata stratified compiled.axiomTrees_created) (negationFree_stratum stratified) state
  obtain ⟨others, evaluated⟩ := compiled.evaluates state unextended
  have isExtended : extended = registerState compiled.task state := Option.some.inj
    ((ends _ (le_max_left steps others)).symm.trans (evaluated _ (le_max_right steps others)))
  have same : SameUnextended (registerState compiled.task state) state := ⟨rfl, rfl⟩
  rw [← isExtended, model, derivedSet_of_unextended unextended, isExtended, CompiledTask.clauses,
    stateClauses_eq asserts.axioms, testedClauses_congr rfl same]
  exact isStable_strata stratified state

theorem isApplicable_iff_of_static {context : StateContext} {action : GroundAction}
    (static : isStaticallyApplicable context.task action.condition = true) :
    isApplicable context action = true ↔ isDynamicallyApplicable context action.condition = true ∧
      isApplicableIfFires context action.effects = true := by
  unfold isStaticallyApplicable at static
  simp only [isApplicable, isApplicableCondition, isDynamicallyApplicable, static, Bool.true_and,
    Bool.and_eq_true]

/-- Each node is registered. -/
theorem Expanded.registered {node : UnpackedNode} (expanded : Expanded compiled node) :
    ∃ state : UnpackedState, (state.derivedAtoms = fun _ => false) ∧
      node.state = registerState compiled.task state := by
  cases expanded with
  | initial =>
      refine ⟨_, ?_, rfl⟩
      have values (state : UnpackedState) (ftermValues : List (Nat × Number)) :
          (ftermValues.foldl (fun state ftermValue => state.setValue ftermValue.1 ftermValue.2)
            state).derivedAtoms = state.derivedAtoms := by
        induction ftermValues generalizing state with
        | nil => rfl
        | cons ftermValue rest ih => exact ih _
      rw [values, foldl_setFact_derivedAtoms]
      rfl
  | @successor before _ _ fuel successors _ generated mem =>
      rw [getLabeledSuccessorNodes, Option.bind_eq_bind, Option.bind_eq_some_iff] at generated
      obtain ⟨applicable, _, same⟩ := generated
      obtain rfl := Option.some.inj same
      obtain ⟨element, _, isNode⟩ := List.mem_map.mp mem
      obtain ⟨rfl, rfl⟩ := Prod.mk.inj isNode
      rw [applyAction_eq]
      exact ⟨_, rfl, rfl⟩

end

/-- Where the assertions of the grounder hold, every node of a run of the generator holds exactly
the stable model of the axioms, and its successors are the results of the applicable actions,
each once. -/
theorem groundSuccessors_exact (library : GraphLibrary) (compiled : CompiledTask library)
    (asserts : compiled.Asserts) (node : UnpackedNode) (expanded : Expanded compiled node) :
    (∀ model, IsStable (compiled.clauses node.state) model ↔
      model = {atom | node.state.derivedAtoms atom = true}) ∧
    ∃ successors, (∃ steps, ∀ fuel ≥ steps,
        getLabeledSuccessorNodes compiled fuel node = some successors) ∧
      (successors.map Prod.fst).Nodup ∧
      ∀ element successor, (element, successor) ∈ successors ↔
        element ∈ compiled.indexed.groundActions ∧
        isApplicable (nodeContext compiled.task node) (compiled.indexed.action element) = true ∧
        successor = getSuccessorNode compiled.task node (compiled.indexed.action element) := by
  constructor
  · obtain ⟨state, unextended, isRegistered⟩ := expanded.registered
    have stable := @registerState_stable _ compiled asserts state unextended
    rw [← isRegistered] at stable
    obtain ⟨stratum, stratified⟩ := compiled.exists_stratification
    rw [CompiledTask.clauses, stateClauses_eq asserts.axioms] at stable ⊢
    intro model
    constructor
    · intro otherStable
      exact otherStable.unique (leveled_testedClauses stratified node.state) stable
    · rintro rfl
      exact stable
  · obtain ⟨applicable, ⟨steps, generated⟩, nodup, exact⟩ :=
      compiled.actionTree_created.generates compiled.indexed.actions_nodup
        compiled.indexed.actions_consistent (nodeContext compiled.task node)
    let context := nodeContext compiled.task node
    refine ⟨(applicable.filter fun element =>
          isApplicableIfFires context (compiled.indexed.action element).effects).map
        fun element => (element, applyAction context (compiled.indexed.action element)),
      ⟨steps, fun fuel enough => ?_⟩, ?_, fun element successor => ?_⟩
    · rw [getLabeledSuccessorNodes, generated fuel enough]
      rfl
    · rw [List.map_map]
      exact (List.map_id _).symm ▸ nodup.filter _
    · rw [List.mem_map]
      constructor
      · rintro ⟨other, mem, same⟩
        obtain ⟨rfl, rfl⟩ := Prod.mk.inj same
        obtain ⟨isGenerated, fires⟩ := List.mem_filter.mp mem
        obtain ⟨inTask, holds⟩ := (exact other).mp isGenerated
        have static := asserts.actions other inTask
        exact ⟨inTask, (isApplicable_iff_of_static static).mpr ⟨holds, fires⟩, rfl⟩
      · rintro ⟨mem, applies, rfl⟩
        obtain ⟨holds, fires⟩ :=
          (isApplicable_iff_of_static (asserts.actions element mem)).mp applies
        exact ⟨element, List.mem_filter.mpr ⟨(exact element).mpr ⟨mem, holds⟩, fires⟩, rfl⟩

theorem exists_doorActionTree : ∃ root,
    MatchTree.IsTree doorTask.actionRepository doorTask.groundActions root := by
  obtain ⟨root, built, _⟩ := MatchTree.exists_root doorTask.actions_nodup doorTask.actions_consistent
    (MatchTree.sortedPreconditions doorTask.actionRepository doorTask.groundActions)
  exact ⟨root, _, built⟩

theorem door_actions_static : ∀ element ∈ doorTask.groundActions,
    isStaticallyApplicable plainTask (doorTask.action element).condition = true := by decide

/-- At the initial node the door is closed, and it can be opened. -/
theorem groundSuccessors_exact_door : ∃ (compiled : CompiledTask descendingLibrary) (successors :
    List (Nat × UnpackedNode)), compiled.indexed = doorTask ∧ (∃ steps, ∀ fuel ≥ steps,
      getLabeledSuccessorNodes compiled fuel (getInitialNode compiled.task) = some successors) ∧
    ∀ element successor, (element, successor) ∈ successors ↔
      element ∈ doorTask.groundActions ∧
        isApplicable (nodeContext compiled.task (getInitialNode compiled.task))
          (doorTask.action element) = true ∧
        successor = getSuccessorNode compiled.task (getInitialNode compiled.task)
          (doorTask.action element) := by
  obtain ⟨actionTree, actionCreated⟩ := exists_doorActionTree
  obtain ⟨axiomTrees, axiomsCreated⟩ := exists_doorTrees
  let compiled := compile plainTask doorTask_correctOn doorTask_strata actionCreated axiomsCreated
  have asserts : compiled.Asserts := ⟨door_actions_static, door_axioms_static⟩
  obtain ⟨_, successors, ends, _, exact⟩ := groundSuccessors_exact descendingLibrary compiled asserts
    (getInitialNode compiled.task) .initial
  exact ⟨compiled, successors, rfl, ends, exact⟩

end Tyr.Planning
