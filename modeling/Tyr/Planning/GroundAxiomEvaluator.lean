import Tyr.Analysis.Stratification
import Tyr.Lib.StableModel
import Tyr.Planning.MatchTreeExact

/-!
The axiom evaluator of a ground task.

The ground axioms are stratified, and each stratum has a match tree. A pass generates
the axioms of a stratum whose bodies hold and sets their heads, until a pass sets no
new atom; then the next stratum follows.

* `IsTree.generates` — what a match tree generates.
* `computeExtendedState` — the evaluator.
* `evaluateStratum_model`, `evaluateStrata_model` — the loops end with the model of a
  layer and with the perfect model.
* `computeExtendedState_stable` — the evaluator computes the only stable model.
-/

namespace Tyr.Planning

open Tyr.Lib Tyr.Formalism Tyr.Formalism.Planning Tyr.Analysis.Stratification

namespace MatchTree

/-! ### Trees -/

/-- The construction ends with the root, for some order of the preconditions. -/
def IsTree (repository : Repository) (elements : List Nat) (root : Option Node) : Prop :=
  ∃ preconditions : SortedPreconditions repository elements,
    ∃ steps, ∀ fuel ≥ steps, create repository preconditions fuel = some root

/-- One of the orders. -/
def sortedPreconditions (repository : Repository) (elements : List Nat) :
    SortedPreconditions repository elements where
  keys := ((elements.flatMap fun element =>
      (entries (repository.condition element)).map Prod.fst).dedup).insertionSort fun first second =>
    (repository.occurrences elements second).length ≤ (repository.occurrences elements first).length
  nodup := (List.perm_insertionSort _ _).nodup_iff.mpr (List.nodup_dedup _)
  mem_iff key := by
    rw [List.mem_insertionSort, List.mem_dedup, Repository.occurrences, Ne, List.flatMap_eq_nil_iff]
    simp
  sorted := by
    let more (first second : Precondition) : Prop :=
      (repository.occurrences elements second).length ≤ (repository.occurrences elements first).length
    have : Std.Total more := ⟨fun first second => Nat.le_total _ _⟩
    have : IsTrans Precondition more := ⟨fun _ _ _ first second => second.trans first⟩
    exact List.pairwise_insertionSort more _

section

variable {repository : Repository} {elements : List Nat}

/-- The evaluation of the root ends with the elements that hold dynamically. -/
def Generates (repository : Repository) (elements : List Nat) (root : Option Node) : Prop :=
  ∀ context, ∃ generated, (∃ steps, ∀ fuel ≥ steps, generate context root fuel = some generated) ∧
    generated.Nodup ∧ ∀ element, element ∈ generated ↔
      element ∈ elements ∧ isDynamicallyApplicable context (repository.condition element) = true

theorem generates_of_builds (preconditions : SortedPreconditions repository elements)
    (consistent : ∀ element ∈ elements, isConsistent (repository.condition element) = true)
    {node : Node}
    (exact : ∀ context, Exact repository context preconditions.keys elements (collect context node)) :
    Generates repository elements (some node) := by
  intro context
  obtain ⟨steps, evaluates⟩ := @evaluates_collect context node
  refine ⟨collect context node, ⟨steps, fun fuel enough => ?_⟩, (exact context).1, fun element => ?_⟩
  · have run := evaluates (fuel - steps) [] []
    rw [Nat.add_sub_of_le enough, List.append_nil, List.nil_append] at run
    rw [generate, Option.toList_some, run]
    cases fuel - steps <;> rfl
  · rw [(exact context).2]
    exact and_congr_right fun mem => passes_iff preconditions mem (consistent element mem)

/-- The construction ends with a root. -/
theorem exists_root (nodup : elements.Nodup)
    (consistent : ∀ element ∈ elements, isConsistent (repository.condition element) = true)
    (preconditions : SortedPreconditions repository elements) :
    ∃ root, (∃ steps, ∀ fuel ≥ steps, create repository preconditions fuel = some root) ∧
      Generates repository elements root := by
  by_cases empty : elements = []
  · subst empty
    refine ⟨none, ⟨0, fun fuel _ => ?_⟩, fun context =>
      ⟨[], ⟨0, fun fuel _ => ?_⟩, List.nodup_nil, by simp⟩⟩
    · have noEntry : tryCreateStackEntry repository preconditions.keys [] = none := by
        unfold tryCreateStackEntry
        exact if_pos rfl
      rw [create, noEntry]
    · cases fuel <;> rfl
  · obtain ⟨entry, node, creates, builds, exact⟩ :=
      tryCreateStackEntry_exact preconditions.keys empty nodup
    obtain ⟨steps, run⟩ := construct_of_builds builds
    refine ⟨some node, ⟨steps, fun fuel enough => ?_⟩,
      generates_of_builds preconditions consistent exact⟩
    rw [create, creates]
    dsimp only
    rw [← Nat.add_sub_of_le enough, run, resume, Option.map_some]

/-- A tree over distinct consistent elements generates those that hold dynamically. -/
theorem IsTree.generates {root : Option Node} (isTree : IsTree repository elements root)
    (nodup : elements.Nodup)
    (consistent : ∀ element ∈ elements, isConsistent (repository.condition element) = true) :
    Generates repository elements root := by
  obtain ⟨preconditions, others, built⟩ := isTree
  obtain ⟨root, ⟨steps, created⟩, generates⟩ := exists_root nodup consistent preconditions
  have same := (created _ (le_max_left steps others)).symm.trans (built _ (le_max_right steps others))
  rwa [Option.some.inj same] at generates

end

end MatchTree

/-! ### The evaluator -/

/-- The ground actions and axioms of a finite-domain task, which are known by their
indices. They passed `is_consistent` when they were created. -/
structure IndexedTask where
  groundActions : List Nat
  groundAxioms : List Nat
  action : Nat → GroundAction
  groundAxiom : Nat → GroundAxiom
  numDerivedAtoms : Nat
  domainSize : Nat → Nat
  actions_nodup : groundActions.Nodup
  axioms_nodup : groundAxioms.Nodup
  actions_consistent : ∀ element ∈ groundActions, isConsistent (action element).condition = true
  axioms_consistent : ∀ element ∈ groundAxioms, isConsistent (groundAxiom element).body = true
  actions_inDomain : ∀ element, ∀ fact ∈ (action element).condition.positiveFacts,
    fact.value < domainSize fact.var
  axioms_inDomain : ∀ element, ∀ fact ∈ (groundAxiom element).body.positiveFacts,
    fact.value < domainSize fact.var
  head_lt : ∀ element ∈ groundAxioms, (groundAxiom element).head < numDerivedAtoms
  body_lt : ∀ element ∈ groundAxioms, ∀ literal ∈ (groundAxiom element).body.derivedLiterals,
    literal.atom < numDerivedAtoms

namespace IndexedTask

variable (indexed : IndexedTask)

def actionRepository : MatchTree.Repository where
  condition element := (indexed.action element).condition
  domainSize := indexed.domainSize
  inDomain := indexed.actions_inDomain

def axiomRepository : MatchTree.Repository where
  condition element := (indexed.groundAxiom element).body
  domainSize := indexed.domainSize
  inDomain := indexed.axioms_inDomain

/-- The dependencies of the ground axioms. -/
def dependencies : Dependencies Nat where
  numVertices := indexed.numDerivedAtoms
  head element := (indexed.groundAxiom element).head
  body element := (indexed.groundAxiom element).body.derivedLiterals.map fun literal =>
    (literal.atom, literal.polarity)

theorem closed : indexed.dependencies.Closed indexed.groundAxioms := by
  intro element mem
  refine ⟨indexed.head_lt element mem, fun literal memLiteral => ?_⟩
  obtain ⟨origin, memOrigin, rfl⟩ := List.mem_map.mp memLiteral
  exact indexed.body_lt element mem origin memOrigin

end IndexedTask

/-- Set a derived atom. -/
def UnpackedState.setDerived (state : UnpackedState) (atom : Nat) : UnpackedState :=
  { state with derivedAtoms := Function.update state.derivedAtoms atom true }

/-- Set the head of an applicable axiom; remember whether it is new. -/
def setHead (indexed : IndexedTask) (found : UnpackedState × Bool) (element : Nat) : UnpackedState × Bool :=
  let atom := (indexed.groundAxiom element).head
  (found.1.setDerived atom, if !found.1.derivedAtoms atom then true else found.2)

/-- The loop over a stratum. None if the fuel does not last. -/
def evaluateStratum (task : Task) (indexed : IndexedTask) (tree : Option MatchTree.Node) :
    Nat → UnpackedState → Option UnpackedState
  | 0, _ => none
  | fuel + 1, state => do
      let applicable ← MatchTree.generate ⟨task, state, .finite 0⟩ tree fuel
      let (state, discovered) := applicable.foldl (setHead indexed) (state, false)
      if discovered then evaluateStratum task indexed tree fuel state else some state

/-- `compute_extended_state`. -/
def computeExtendedState (task : Task) (indexed : IndexedTask) (strata : List (Option MatchTree.Node))
    (fuel : Nat) (state : UnpackedState) : Option UnpackedState :=
  strata.foldlM (fun state tree => evaluateStratum task indexed tree fuel state) state

/-! ### The clauses of a state -/

/-- `is_statically_applicable`. -/
def isStaticallyApplicable (task : Task) (condition : GroundConjunctiveCondition) : Bool :=
  condition.staticLiterals.all fun literal => task.staticAtoms literal.atom == literal.polarity

/-- What the match trees test of a condition apart from its derived literals; the static ones
are not tested. -/
structure TestsUnderived (context : StateContext) (condition : GroundConjunctiveCondition) : Prop where
  positive : ∀ fact ∈ condition.positiveFacts, context.unpackedState.fluentFacts fact.var = fact.value
  negative : ∀ fact ∈ condition.negativeFacts, context.unpackedState.fluentFacts fact.var ≠ fact.value
  numeric : ∀ constraint ∈ condition.numericConstraints, constraint.evaluate context.get = true

/-- The condition holds apart from its derived literals. -/
structure HoldsUnderived (context : StateContext) (condition : GroundConjunctiveCondition) : Prop
    extends TestsUnderived context condition where
  static : ∀ literal ∈ condition.staticLiterals,
    context.task.staticAtoms literal.atom = literal.polarity

/-- The clause of a ground axiom. -/
def axiomClause (groundAxiom : GroundAxiom) : Clause Nat where
  head := groundAxiom.head
  positive := (groundAxiom.body.derivedLiterals.filter GroundLiteral.polarity).map GroundLiteral.atom
  negative := (groundAxiom.body.derivedLiterals.filter (!·.polarity)).map GroundLiteral.atom

/-- The axioms whose bodies hold in the state apart from the derived literals. -/
def stateClauses (task : Task) (indexed : IndexedTask) (state : UnpackedState) (elements : List Nat) :
    Set (Clause Nat) :=
  {clause | ∃ element ∈ elements,
    HoldsUnderived ⟨task, state, .finite 0⟩ (indexed.groundAxiom element).body ∧
      clause = axiomClause (indexed.groundAxiom element)}

/-- The axioms whose bodies pass the tests in the state apart from the derived literals. -/
def testedClauses (task : Task) (indexed : IndexedTask) (state : UnpackedState) (elements : List Nat) :
    Set (Clause Nat) :=
  {clause | ∃ element ∈ elements,
    TestsUnderived ⟨task, state, .finite 0⟩ (indexed.groundAxiom element).body ∧
      clause = axiomClause (indexed.groundAxiom element)}

/-- Where the static literals hold, what passes the tests holds. -/
theorem stateClauses_eq {task : Task} {indexed : IndexedTask} {elements : List Nat}
    (static : ∀ element ∈ elements,
      isStaticallyApplicable task (indexed.groundAxiom element).body = true) (state : UnpackedState) :
    stateClauses task indexed state elements = testedClauses task indexed state elements := by
  ext clause
  constructor
  · rintro ⟨element, mem, holds, same⟩
    exact ⟨element, mem, holds.toTestsUnderived, same⟩
  · rintro ⟨element, mem, tested, same⟩
    exact ⟨element, mem, ⟨tested, fun literal memLiteral =>
      beq_iff_eq.mp (List.all_eq_true.mp (static element mem) literal memLiteral)⟩, same⟩

/-- The derived atoms that hold in the state. -/
def UnpackedState.derivedSet (state : UnpackedState) : Set Nat := {atom | state.derivedAtoms atom = true}

section

variable {task : Task} {indexed : IndexedTask} {state : UnpackedState}

theorem isDynamicallyApplicable_iff_clause {element : Nat} :
    isDynamicallyApplicable ⟨task, state, .finite 0⟩ (indexed.groundAxiom element).body = true ↔
      TestsUnderived ⟨task, state, .finite 0⟩ (indexed.groundAxiom element).body ∧
        (∀ atom ∈ (axiomClause (indexed.groundAxiom element)).positive, atom ∈ state.derivedSet) ∧
        ∀ atom ∈ (axiomClause (indexed.groundAxiom element)).negative, atom ∉ state.derivedSet := by
  have derived : (∀ literal ∈ (indexed.groundAxiom element).body.derivedLiterals,
        state.derivedAtoms literal.atom = literal.polarity) ↔
      (∀ atom ∈ (axiomClause (indexed.groundAxiom element)).positive, atom ∈ state.derivedSet) ∧
        ∀ atom ∈ (axiomClause (indexed.groundAxiom element)).negative, atom ∉ state.derivedSet := by
    simp only [axiomClause, List.forall_mem_map, List.mem_filter, and_imp, UnpackedState.derivedSet,
      Set.mem_ofPred_eq]
    constructor
    · intro all
      refine ⟨fun literal mem positive => (all literal mem).trans positive,
        fun literal mem negative => ?_⟩
      rw [all literal mem]
      simpa using negative
    · rintro ⟨positive, negative⟩ literal mem
      cases polarity : literal.polarity with
      | true => exact positive literal mem polarity
      | false => simpa using negative literal mem (by simp [polarity])
  rw [← derived]
  simp only [isDynamicallyApplicable, Bool.and_eq_true, List.all_eq_true, beq_iff_eq, bne_iff_ne]
  constructor
  · rintro ⟨⟨⟨positive, negative⟩, literals⟩, constraints⟩
    exact ⟨⟨positive, negative, constraints⟩, literals⟩
  · rintro ⟨⟨positive, negative, constraints⟩, literals⟩
    exact ⟨⟨⟨positive, negative⟩, literals⟩, constraints⟩

end

/-! ### A pass -/

section

variable {indexed : IndexedTask} {state : UnpackedState}

/-- The states have the same fluent part. -/
structure SameUnextended (state other : UnpackedState) : Prop where
  facts : state.fluentFacts = other.fluentFacts
  values : state.fluentValues = other.fluentValues

theorem derivedSet_setDerived (atom : Nat) :
    (state.setDerived atom).derivedSet = insert atom state.derivedSet := by
  ext other
  simp only [UnpackedState.derivedSet, UnpackedState.setDerived, Set.mem_ofPred_eq, Set.mem_insert_iff,
    Function.update_apply]
  split
  · next same => simp [same]
  · next different => simp [different]

theorem derivedSet_of_unextended (unextended : state.derivedAtoms = fun _ => false) :
    state.derivedSet = ∅ := by
  ext atom
  simp [UnpackedState.derivedSet, unextended]

theorem SameUnextended.eq {other : UnpackedState} (same : SameUnextended state other)
    (derived : state.derivedSet = other.derivedSet) : state = other := by
  obtain ⟨facts, values, atoms⟩ := state
  obtain ⟨otherFacts, otherValues, otherAtoms⟩ := other
  obtain rfl : facts = otherFacts := same.facts
  obtain rfl : values = otherValues := same.values
  have sameAtoms : atoms = otherAtoms :=
    funext fun atom => Bool.eq_iff_iff.mpr (Set.ext_iff.mp derived atom)
  rw [sameAtoms]

/-- The pass sets the heads of the applicable axioms. -/
theorem foldl_setHead (applicable : List Nat) (discovered : Bool) :
    let found := applicable.foldl (setHead indexed) (state, discovered)
    SameUnextended found.1 state ∧
      found.1.derivedSet =
        state.derivedSet ∪ {atom | ∃ element ∈ applicable, (indexed.groundAxiom element).head = atom} ∧
      (found.2 = true ↔ discovered = true ∨
        ∃ element ∈ applicable, (indexed.groundAxiom element).head ∉ state.derivedSet) := by
  induction applicable generalizing state discovered with
  | nil => simp [SameUnextended.mk]
  | cons element rest ih =>
      obtain ⟨same, heads, found⟩ := @ih (state.setDerived (indexed.groundAxiom element).head)
        (if !state.derivedAtoms (indexed.groundAxiom element).head then true else discovered)
      refine ⟨⟨same.facts, same.values⟩, heads.trans ?_, found.trans ?_⟩
      · rw [derivedSet_setDerived]
        ext atom
        simp only [Set.mem_union, Set.mem_insert_iff, Set.mem_ofPred_eq, List.exists_mem_cons_iff]
        tauto
      · rw [derivedSet_setDerived, List.exists_mem_cons_iff]
        by_cases holds : state.derivedAtoms (indexed.groundAxiom element).head = true
        · have isDerived : (indexed.groundAxiom element).head ∈ state.derivedSet := holds
          simp [holds, Set.insert_eq_of_mem isDerived, isDerived]
        · have notDerived : (indexed.groundAxiom element).head ∉ state.derivedSet := holds
          simp [holds, notDerived]

/-- The clauses depend on the static values and the fluent part of the state. -/
theorem testedClauses_congr {task otherTask : Task} {other : UnpackedState}
    (static : task.staticValues = otherTask.staticValues) (same : SameUnextended state other)
    (elements : List Nat) :
    testedClauses task indexed state elements = testedClauses otherTask indexed other elements := by
  obtain ⟨facts, values⟩ := same
  have sameGet : StateContext.get ⟨task, state, .finite 0⟩ =
      StateContext.get ⟨otherTask, other, .finite 0⟩ := by
    funext fterm
    cases fterm with
    | static index => exact congrFun static index
    | fluent index => exact congrFun values index
  have sameHolds (condition : GroundConjunctiveCondition) :
      TestsUnderived ⟨task, state, .finite 0⟩ condition ↔
        TestsUnderived ⟨otherTask, other, .finite 0⟩ condition := by
    constructor <;> rintro ⟨positive, negative, numeric⟩ <;> constructor <;> simp_all
  simp only [testedClauses, sameHolds]

end

/-! ### The loops -/

section

variable {task : Task} {indexed : IndexedTask} {elements : List Nat} {tree : Option MatchTree.Node}

/-- No axiom of the list uses the head of another one negatively. -/
def NegationFree (indexed : IndexedTask) (elements : List Nat) : Prop :=
  ∀ element ∈ elements, ∀ other ∈ elements,
    (indexed.groundAxiom other).head ∉ (axiomClause (indexed.groundAxiom element)).negative

/-- Heads of the stratum that are not set yet. -/
def unset (indexed : IndexedTask) (elements : List Nat) (state : UnpackedState) : Finset Nat :=
  (elements.map fun element => (indexed.groundAxiom element).head).toFinset.filter
    fun atom => state.derivedAtoms atom = false

/-- What a state inside the loop over a stratum is, from the state at its start. -/
structure InStratum (task : Task) (indexed : IndexedTask) (elements : List Nat)
    (start state : UnpackedState) : Prop where
  same : SameUnextended state start
  sub : start.derivedSet ⊆ state.derivedSet
  sound : ∀ atom ∈ state.derivedSet,
    LayerModel (testedClauses task indexed start elements) start.derivedSet atom

/-- One pass stays inside the model of the stratum. -/
theorem InStratum.pass {start state : UnpackedState}
    (inv : InStratum task indexed elements start state) {applicable : List Nat}
    (exact : ∀ element, element ∈ applicable ↔ element ∈ elements ∧
      isDynamicallyApplicable ⟨task, state, .finite 0⟩ (indexed.groundAxiom element).body = true) :
    InStratum task indexed elements start (applicable.foldl (setHead indexed) (state, false)).1 := by
  obtain ⟨same, heads, _⟩ := @foldl_setHead indexed state applicable false
  refine ⟨⟨same.facts.trans inv.same.facts, same.values.trans inv.same.values⟩, ?_, ?_⟩
  · rw [heads]
    exact inv.sub.trans Set.subset_union_left
  · rw [heads]
    rintro atom (before | ⟨element, isApplicable, rfl⟩)
    · exact inv.sound atom before
    · obtain ⟨mem, holds⟩ := (exact element).mp isApplicable
      obtain ⟨underived, positive, negative⟩ := isDynamicallyApplicable_iff_clause.mp holds
      have isClause : axiomClause (indexed.groundAxiom element) ∈
          testedClauses task indexed start elements := by
        rw [← testedClauses_congr rfl inv.same]
        exact ⟨element, mem, underived, rfl⟩
      exact .clause isClause (fun other isNegative isBase => negative other isNegative (inv.sub isBase))
        fun other isPositive => inv.sound other (positive other isPositive)

/-- Without a new atom the state is the model of the stratum. -/
theorem InStratum.model {start state : UnpackedState}
    (inv : InStratum task indexed elements start state) (negationFree : NegationFree indexed elements)
    (closed : ∀ element ∈ elements,
      isDynamicallyApplicable ⟨task, state, .finite 0⟩ (indexed.groundAxiom element).body = true →
        (indexed.groundAxiom element).head ∈ state.derivedSet) :
    state.derivedSet =
      {atom | LayerModel (testedClauses task indexed start elements) start.derivedSet atom} := by
  apply Set.Subset.antisymm inv.sound
  apply LayerModel.subset_of_closed inv.sub
  rw [← testedClauses_congr rfl inv.same]
  rintro _ ⟨element, mem, underived, rfl⟩ absent present
  apply closed element mem
  refine isDynamicallyApplicable_iff_clause.mpr ⟨underived, present, fun atom isNegative holds => ?_⟩
  -- What the stratum derives is not used negatively in it.
  cases inv.sound atom holds with
  | base isBase => exact absent atom isNegative isBase
  | clause isClause _ _ =>
      obtain ⟨other, memOther, _, rfl⟩ := isClause
      exact negationFree element mem other memOther isNegative

theorem unset_ssubset {state : UnpackedState} {applicable : List Nat}
    (sub : ∀ element ∈ applicable, element ∈ elements)
    (discovered : (applicable.foldl (setHead indexed) (state, false)).2 = true) :
    unset indexed elements (applicable.foldl (setHead indexed) (state, false)).1 ⊂
      unset indexed elements state := by
  obtain ⟨_, heads, found⟩ := @foldl_setHead indexed state applicable false
  obtain ⟨element, isApplicable, isNew⟩ := (found.mp discovered).resolve_left Bool.false_ne_true
  have holds (atom : Nat) : atom ∈ (applicable.foldl (setHead indexed) (state, false)).1.derivedSet ↔ _ :=
    Set.ext_iff.mp heads atom
  refine Finset.ssubset_iff_subset_ne.mpr ⟨fun atom mem => ?_, fun same => ?_⟩
  · obtain ⟨isHead, notSet⟩ := Finset.mem_filter.mp mem
    refine Finset.mem_filter.mpr ⟨isHead, ?_⟩
    by_contra isSet
    have after := (holds atom).mpr (.inl (by simpa [UnpackedState.derivedSet] using isSet))
    rw [show _ = true from after] at notSet
    cases notSet
  · have before : (indexed.groundAxiom element).head ∈ unset indexed elements state := by
      refine Finset.mem_filter.mpr ⟨?_, by simpa [UnpackedState.derivedSet] using isNew⟩
      exact List.mem_toFinset.mpr (List.mem_map_of_mem (sub element isApplicable))
    rw [← same] at before
    have notSet := (Finset.mem_filter.mp before).2
    rw [show _ = true from (holds _).mpr (.inr ⟨element, isApplicable, rfl⟩)] at notSet
    cases notSet

/-- The loop over a stratum ends with the model of the stratum. -/
theorem evaluateStratum_model (generates : MatchTree.Generates indexed.axiomRepository elements tree)
    (negationFree : NegationFree indexed elements) (start : UnpackedState) :
    ∃ final, (∃ steps, ∀ fuel ≥ steps, evaluateStratum task indexed tree fuel start = some final) ∧
      SameUnextended final start ∧ final.derivedSet =
        {atom | LayerModel (testedClauses task indexed start elements) start.derivedSet atom} := by
  suffices loop : ∀ n state, (unset indexed elements state).card = n →
      InStratum task indexed elements start state →
      ∃ final, (∃ steps, ∀ fuel ≥ steps, evaluateStratum task indexed tree fuel state = some final) ∧
        SameUnextended final start ∧ final.derivedSet =
          {atom | LayerModel (testedClauses task indexed start elements) start.derivedSet atom} from
    loop _ start rfl ⟨⟨rfl, rfl⟩, subset_rfl, fun atom mem => .base mem⟩
  intro n
  induction n using Nat.strong_induction_on with
  | h n ih =>
      intro state isCard inv
      obtain ⟨applicable, ⟨steps, generated⟩, _, exact⟩ := generates ⟨task, state, .finite 0⟩
      have after := inv.pass exact
      obtain ⟨_, heads, found⟩ := @foldl_setHead indexed state applicable false
      by_cases discovered : (applicable.foldl (setHead indexed) (state, false)).2 = true
      · have fewer := Finset.card_lt_card
          (unset_ssubset (fun element mem => ((exact element).mp mem).1) discovered)
        obtain ⟨final, ⟨others, ends⟩, same, model⟩ := ih _ (isCard ▸ fewer) _ rfl after
        refine ⟨final, ⟨max steps others + 1, fun fuel enough => ?_⟩, same, model⟩
        obtain ⟨fuel, rfl⟩ := Nat.exists_eq_succ_of_ne_zero (Nat.ne_of_gt (Nat.zero_lt_of_lt enough))
        have enough := Nat.le_of_succ_le_succ enough
        rw [Nat.succ_eq_add_one, evaluateStratum, generated fuel (le_of_max_le_left enough)]
        simp only [Option.bind_eq_bind, Option.bind_some, discovered, if_true]
        exact ends fuel (le_of_max_le_right enough)
      · refine ⟨_, ⟨steps + 1, fun fuel enough => ?_⟩, after.same, after.model negationFree ?_⟩
        · obtain ⟨fuel, rfl⟩ := Nat.exists_eq_succ_of_ne_zero (Nat.ne_of_gt (Nat.zero_lt_of_lt enough))
          rw [Nat.succ_eq_add_one, evaluateStratum, generated fuel (Nat.le_of_succ_le_succ enough)]
          simp only [Option.bind_eq_bind, Option.bind_some, discovered]
          rfl
        · -- The last pass sets nothing new.
          have old : ∀ element ∈ applicable, (indexed.groundAxiom element).head ∈ state.derivedSet := by
            intro element mem
            by_contra isNew
            exact discovered (found.mpr (.inr ⟨element, mem, isNew⟩))
          have unchanged : (applicable.foldl (setHead indexed) (state, false)).1 = state := by
            obtain ⟨same, _, _⟩ := @foldl_setHead indexed state applicable false
            refine same.eq (heads.trans (Set.union_eq_left.mpr ?_))
            rintro _ ⟨element, mem, rfl⟩
            exact old element mem
          rw [unchanged]
          exact fun element mem holds => old element ((exact element).mpr ⟨mem, holds⟩)

/-- The strata one after the other compute the perfect model. -/
theorem evaluateStrata_model {strata : List (List Nat)} {trees : List (Option MatchTree.Node)}
    (generates : List.Forall₂ (MatchTree.Generates indexed.axiomRepository) strata trees)
    (negationFree : ∀ stratum ∈ strata, NegationFree indexed stratum) (start : UnpackedState) :
    ∃ final, (∃ steps, ∀ fuel ≥ steps, computeExtendedState task indexed trees fuel start = some final) ∧
      SameUnextended final start ∧
      final.derivedSet = perfectModel (strata.map (testedClauses task indexed start)) start.derivedSet := by
  induction generates generalizing start with
  | nil => exact ⟨start, ⟨0, fun _ _ => rfl⟩, ⟨rfl, rfl⟩, rfl⟩
  | @cons stratum tree strata trees first _ ih =>
      obtain ⟨middle, ⟨steps, evaluated⟩, sameMiddle, isModel⟩ :=
        @evaluateStratum_model task _ _ _ first (negationFree stratum List.mem_cons_self) start
      obtain ⟨final, ⟨others, ends⟩, same, model⟩ :=
        ih (fun other mem => negationFree other (List.mem_cons_of_mem _ mem)) middle
      refine ⟨final, ⟨max steps others, fun fuel enough => ?_⟩,
        ⟨same.facts.trans sameMiddle.facts, same.values.trans sameMiddle.values⟩, ?_⟩
      · rw [computeExtendedState, List.foldlM_cons, evaluated fuel (le_of_max_le_left enough)]
        exact ends fuel (le_of_max_le_right enough)
      · have sameClauses : testedClauses task indexed middle = testedClauses task indexed start :=
          funext (testedClauses_congr rfl sameMiddle)
        rw [model, isModel, List.map_cons, perfectModel, sameClauses]

end

/-! ### The stable model -/

section

variable {task : Task} {indexed : IndexedTask} {strata : List (List Nat)} {stratum : Nat → Nat}

theorem mem_positive {groundAxiom : GroundAxiom} {atom : Nat} :
    atom ∈ (axiomClause groundAxiom).positive ↔
      (atom, true) ∈ groundAxiom.body.derivedLiterals.map fun literal =>
        (literal.atom, literal.polarity) := by
  simp only [axiomClause, List.mem_map, List.mem_filter, Prod.mk.injEq]
  exact exists_congr fun literal => by tauto

theorem mem_negative {groundAxiom : GroundAxiom} {atom : Nat} :
    atom ∈ (axiomClause groundAxiom).negative ↔
      (atom, false) ∈ groundAxiom.body.derivedLiterals.map fun literal =>
        (literal.atom, literal.polarity) := by
  simp only [axiomClause, List.mem_map, List.mem_filter, Prod.mk.injEq, Bool.not_eq_true']
  exact exists_congr fun literal => by tauto

/-- The strata of the atoms respect the clauses. -/
theorem leveled_testedClauses
    (stratified : IsStratification indexed.dependencies indexed.groundAxioms strata stratum)
    (state : UnpackedState) :
    Leveled (testedClauses task indexed state indexed.groundAxioms) stratum where
  positive := by
    rintro _ ⟨element, mem, _, rfl⟩ atom isPositive
    exact stratified.positive element mem atom (mem_positive.mp isPositive)
  negative := by
    rintro _ ⟨element, mem, _, rfl⟩ atom isNegative
    exact stratified.negative element mem atom (mem_negative.mp isNegative)

theorem mem_stratum_iff
    (stratified : IsStratification indexed.dependencies indexed.groundAxioms strata stratum)
    {i : Nat} {elements : List Nat} (isStratum : strata[i]? = some elements) {element : Nat} :
    element ∈ elements ↔
      element ∈ indexed.groundAxioms ∧ stratum (indexed.groundAxiom element).head = i := by
  have lt := (List.getElem?_eq_some_iff.mp isStratum).1
  obtain rfl := Option.some.inj (isStratum.symm.trans (stratified.listed i lt))
  rw [List.mem_filter, decide_eq_true_iff]
  rfl

theorem negationFree_stratum
    (stratified : IsStratification indexed.dependencies indexed.groundAxioms strata stratum) :
    ∀ elements ∈ strata, NegationFree indexed elements := by
  intro elements mem element memElement other memOther isNegative
  obtain ⟨i, isStratum⟩ := List.mem_iff_getElem?.mp mem
  obtain ⟨isAxiom, level⟩ := (mem_stratum_iff stratified isStratum).mp memElement
  obtain ⟨_, otherLevel⟩ := (mem_stratum_iff stratified isStratum).mp memOther
  have lower := stratified.negative element isAxiom _ (mem_negative.mp isNegative)
  change stratum (indexed.groundAxiom other).head < stratum (indexed.groundAxiom element).head at lower
  omega

theorem generates_strata
    (stratified : IsStratification indexed.dependencies indexed.groundAxioms strata stratum)
    {trees : List (Option MatchTree.Node)}
    (created : List.Forall₂ (MatchTree.IsTree indexed.axiomRepository) strata trees) :
    List.Forall₂ (MatchTree.Generates indexed.axiomRepository) strata trees := by
  have nodup : strata.flatten.Nodup := stratified.once.nodup_iff.mpr indexed.axioms_nodup
  refine List.forall₂_iff_get.mpr ⟨created.length_eq, fun i lt ltTrees => ?_⟩
  have isTree := (List.forall₂_iff_get.mp created).2 i lt ltTrees
  have mem := List.get_mem strata ⟨i, lt⟩
  refine isTree.generates (nodup.sublist (List.sublist_flatten_of_mem mem)) fun element memElement => ?_
  exact indexed.axioms_consistent element
    (stratified.once.mem_iff.mp (List.mem_flatten.mpr ⟨_, mem, memElement⟩))

/-- The perfect model of the strata is stable. -/
theorem isStable_strata
    (stratified : IsStratification indexed.dependencies indexed.groundAxioms strata stratum)
    (state : UnpackedState) :
    IsStable (testedClauses task indexed state indexed.groundAxioms)
      (perfectModel (strata.map (testedClauses task indexed state)) ∅) := by
  have all : testedClauses task indexed state indexed.groundAxioms = ∅ ∪ {clause | ∃ layer ∈
      strata.map (testedClauses task indexed state), clause ∈ layer} := by
    ext clause
    rw [Set.empty_union]
    constructor
    · rintro ⟨element, mem, holds, rfl⟩
      obtain ⟨elements, memStratum, inStratum⟩ := List.mem_flatten.mp (stratified.once.mem_iff.mpr mem)
      exact ⟨_, List.mem_map_of_mem memStratum, element, inStratum, holds, rfl⟩
    · rintro ⟨_, isLayer, mem⟩
      obtain ⟨elements, memStratum, rfl⟩ := List.mem_map.mp isLayer
      obtain ⟨element, inStratum, holds, rfl⟩ := mem
      exact ⟨element, stratified.once.mem_iff.mp (List.mem_flatten.mpr ⟨elements, memStratum, inStratum⟩),
        holds, rfl⟩
  have leveled := @leveled_testedClauses task _ _ _ stratified state
  rw [all] at leveled ⊢
  refine isStable_perfectModel (n := 0) leveled nofun ?_ fun atom => ?_
  · intro i layer isLayer clause mem
    rw [List.getElem?_map] at isLayer
    obtain ⟨elements, isStratum, rfl⟩ := Option.map_eq_some_iff.mp isLayer
    obtain ⟨element, memElement, _, rfl⟩ := mem
    rw [Nat.zero_add]
    exact ((mem_stratum_iff stratified isStratum).mp memElement).2
  · refine iff_of_false (Set.notMem_empty atom) fun derives => ?_
    obtain ⟨_, mem, _⟩ := derives.head
    exact mem

end

/-- With stratified axioms whose static literals hold, the evaluator ends in every state without
derived atoms, leaves its fluent part alone and adds the only stable model of the axioms. -/
theorem computeExtendedState_stable (library : GraphLibrary) (task : Task) (indexed : IndexedTask)
    (correct : library.CorrectOn (indexed.dependencies.graph indexed.groundAxioms))
    (strata : List (List Nat))
    (computed : computeStratification library indexed.dependencies indexed.groundAxioms = .ok strata)
    (trees : List (Option MatchTree.Node))
    (created : List.Forall₂ (MatchTree.IsTree indexed.axiomRepository) strata trees)
    (static : ∀ element ∈ indexed.groundAxioms,
      isStaticallyApplicable task (indexed.groundAxiom element).body = true)
    (state : UnpackedState) (unextended : state.derivedAtoms = fun _ => false) :
    ∃ extended, (∃ steps, ∀ fuel ≥ steps,
        computeExtendedState task indexed trees fuel state = some extended) ∧
      extended.fluentFacts = state.fluentFacts ∧ extended.fluentValues = state.fluentValues ∧
      ∀ model, IsStable (stateClauses task indexed state indexed.groundAxioms) model ↔
        model = {atom | extended.derivedAtoms atom = true} := by
  rw [stateClauses_eq static]
  have isCorrect := computeStratification_correct indexed.closed correct
  rw [computed] at isCorrect
  cases isCorrect with
  | ok _ _ isStratification =>
      obtain ⟨stratum, stratified⟩ := isStratification
      have generates := generates_strata stratified created
      obtain ⟨extended, ends, same, model⟩ :=
        @evaluateStrata_model task _ _ _ generates (negationFree_stratum stratified) state
      rw [derivedSet_of_unextended unextended] at model
      have stable := @isStable_strata task _ _ _ stratified state
      rw [← model] at stable
      refine ⟨extended, ends, same.facts, same.values, fun other => ⟨fun otherStable => ?_, ?_⟩⟩
      · exact otherStable.unique (leveled_testedClauses stratified state) stable
      · rintro rfl
        exact stable

/-! Atom 1 holds if the first variable is one, and atom 0 unless atom 1 does. -/

def openAxiom : GroundAxiom where
  head := 1
  body := { staticLiterals := [⟨0, true⟩], positiveFacts := [⟨0, 1⟩] }

def closedAxiom : GroundAxiom where
  head := 0
  body := { derivedLiterals := [⟨1, false⟩] }

def doorAxiom (element : Nat) : GroundAxiom := if element = 0 then openAxiom else closedAxiom

theorem door_axioms_consistent : ∀ element ∈ [0, 1], isConsistent (doorAxiom element).body = true := by
  decide

theorem door_axioms_inDomain : ∀ element, ∀ fact ∈ (doorAxiom element).body.positiveFacts,
    fact.value < 2 := by
  intro element fact mem
  unfold doorAxiom at mem
  split at mem
  · obtain rfl := List.mem_singleton.mp mem
    exact Nat.one_lt_two
  · cases mem

theorem door_head_lt : ∀ element ∈ [0, 1], (doorAxiom element).head < 2 := by decide

theorem door_body_lt : ∀ element ∈ [0, 1], ∀ literal ∈ (doorAxiom element).body.derivedLiterals,
    literal.atom < 2 := by decide

/-- Opens the door. -/
def doorAction (_ : Nat) : GroundAction where
  condition :=
    { staticLiterals := [⟨0, true⟩], positiveFacts := [⟨0, 0⟩], derivedLiterals := [⟨0, true⟩] }
  effects := [{ effect := { positiveFacts := [⟨0, 1⟩] } }]

theorem door_actions_consistent : ∀ element ∈ [0],
    isConsistent (doorAction element).condition = true := by decide

theorem door_actions_inDomain : ∀ element, ∀ fact ∈ (doorAction element).condition.positiveFacts,
    fact.value < 2 := by
  intro element fact mem
  obtain rfl := List.mem_singleton.mp mem
  exact Nat.zero_lt_two

theorem door_actions_nodup : [0].Nodup := List.nodup_singleton 0

theorem door_axioms_nodup : [0, 1].Nodup := by decide

def doorTask : IndexedTask where
  groundActions := [0]
  groundAxioms := [0, 1]
  action := doorAction
  groundAxiom := doorAxiom
  numDerivedAtoms := 2
  domainSize := fun _ => 2
  actions_nodup := door_actions_nodup
  axioms_nodup := door_axioms_nodup
  actions_consistent := door_actions_consistent
  axioms_consistent := door_axioms_consistent
  actions_inDomain := door_actions_inDomain
  axioms_inDomain := door_axioms_inDomain
  head_lt := door_head_lt
  body_lt := door_body_lt

theorem doorTask_correctOn :
    descendingLibrary.CorrectOn (doorTask.dependencies.graph doorTask.groundAxioms) := by
  apply descendingLibrary_correctOn
  have edges : (doorTask.dependencies.graph doorTask.groundAxioms).edges = [⟨1, 0, .strict⟩] := rfl
  rw [edges]
  intro edge mem
  obtain rfl := List.mem_singleton.mp mem
  exact Nat.zero_lt_one

theorem doorTask_strata : computeStratification descendingLibrary doorTask.dependencies
    doorTask.groundAxioms = .ok [[0], [1]] := rfl

theorem exists_doorTrees : ∃ trees,
    List.Forall₂ (MatchTree.IsTree doorTask.axiomRepository) [[0], [1]] trees := by
  have tree (element : Nat) (mem : element ∈ [0, 1]) :
      ∃ root, MatchTree.IsTree doorTask.axiomRepository [element] root := by
    obtain ⟨root, built, _⟩ := MatchTree.exists_root (List.nodup_singleton element)
      (fun other isElement => by
        rw [List.mem_singleton.mp isElement]
        exact doorTask.axioms_consistent element mem)
      (MatchTree.sortedPreconditions doorTask.axiomRepository [element])
    exact ⟨root, _, built⟩
  obtain ⟨first, isFirst⟩ := tree 0 (by decide)
  obtain ⟨second, isSecond⟩ := tree 1 (by decide)
  exact ⟨[first, second], .cons isFirst (.cons isSecond .nil)⟩

/-- Some task in which the static atoms hold. -/
def plainTask : Task where
  staticAtoms := fun _ => true
  staticValues := fun _ => .nan
  fluentFacts := []
  fluentFtermValues := []
  auxiliaryFtermValue := none
  metric := none
  axiomEvaluator := fun _ _ => false

theorem door_axioms_static : ∀ element ∈ doorTask.groundAxioms,
    isStaticallyApplicable plainTask (doorTask.groundAxiom element).body = true := by decide

/-- The door is closed at first. -/
theorem computeExtendedState_stable_door : ∃ trees extended, (∃ steps, ∀ fuel ≥ steps,
      computeExtendedState plainTask doorTask trees fuel .empty = some extended) ∧
    ∀ model, IsStable (stateClauses plainTask doorTask .empty doorTask.groundAxioms) model ↔
      model = {atom | extended.derivedAtoms atom = true} := by
  obtain ⟨trees, created⟩ := exists_doorTrees
  obtain ⟨extended, ends, _, _, stable⟩ := computeExtendedState_stable descendingLibrary plainTask
    doorTask doorTask_correctOn [[0], [1]] doorTask_strata trees created door_axioms_static .empty rfl
  exact ⟨trees, extended, ends, stable⟩

end Tyr.Planning
