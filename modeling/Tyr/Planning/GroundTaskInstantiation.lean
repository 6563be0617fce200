import Mathlib.Data.List.Sort
import Tyr.Formalism.Planning.Mutexes
import Tyr.Planning.TaskGrounder

/-!
Instantiation of the ground task.

The facts of the program are translated back to the reachable atoms of the task. The mutex
groups of these atoms give the variables of the ground task, whose list is taken before
the goal, the actions and the axioms are grounded.

* `instantiateGroundTask` — the ground task, unless the goal asks for an atom that is not
  reachable.
* `Encoded` — two reachable atoms have one variable if they are in one group, and the listed
  variables have reachable atoms only.
* `isConsistent_iff_consistent` — which actions and axioms are kept.
* `instantiateGroundTask_inRange_iff` — all facts are in range exactly if the atoms of the
  kept effects are reachable.
-/

namespace Tyr.Planning

open Tyr.Lib Tyr.Formalism Tyr.Formalism.Planning Tyr.Analysis

namespace TaskGrounder

/-! ### The program -/

/-- The facts that the evaluation of the program has derived. -/
structure SolvedProgram where
  facts : List Tuple
  nodup : facts.Nodup

section

variable (task : NamedTask)

def fluentToFluentPredicate (predicate : Nat) : Option Nat :=
  task.fluentPredicates.find? fun p => GroundTaskProgram.fluentToFluentPredicate task p == predicate

def fluentToDerivedPredicate (predicate : Nat) : Option Nat :=
  task.derivedPredicates.find? fun p => GroundTaskProgram.derivedToFluentPredicate task p == predicate

def predicateToAction (predicate : Nat) : Option (Fin task.actions.length) :=
  (List.finRange task.actions.length).find? fun action =>
    GroundTaskProgram.actionPredicate task action == predicate

def predicateToAxiom (predicate : Nat) : Option (Fin task.axioms.length) :=
  (List.finRange task.axioms.length).find? fun ax =>
    GroundTaskProgram.axiomPredicate task ax == predicate

/-- The fluent atom of a fact. -/
def fluentAtom (fact : Tuple) : Option Tuple :=
  (fluentToFluentPredicate task fact.relation).map fun p => ⟨p, fact.objects⟩

/-- The derived atom of a fact of another predicate. -/
def derivedAtom (fact : Tuple) : Option Tuple :=
  match fluentToFluentPredicate task fact.relation with
  | some _ => none
  | none => (fluentToDerivedPredicate task fact.relation).map fun p => ⟨p, fact.objects⟩

end

/-! ### The instantiation -/

structure GroundTaskInstantiationOptions where
  disableInvariantSynthesis : Bool := false
deriving DecidableEq, Repr

/-- The task with the facts of its program, the invariants of its domain, and the repository
that the ground task is created in: a child of that of the domain, which has no variables. -/
structure Input where
  task : NamedTask
  solved : SolvedProgram
  invariants : List Invariant
  options : GroundTaskInstantiationOptions
  repository : Repository
  start : PlanningRepository
  start_reachable : start.Reachable
  start_noVariables : ∀ var, start.atomsOf var = none

/-- Create the atoms one after the other. -/
def createAtoms (repo : PlanningRepository) (tuples : List Tuple) :
    PlanningRepository × List (Tuple × Nat) :=
  tuples.foldl (fun result tuple =>
    let (repo, atom) := createGroundAtom result.1 tuple
    (repo, result.2 ++ [(tuple, atom)])) (repo, [])

namespace Input

variable (input : Input)

/-- The repository with the initial and the reachable atoms, and the reachable ones in the
order in which they are created. -/
def created : PlanningRepository × List (Tuple × Nat) :=
  createAtoms (createAtoms input.start input.task.fluentAtoms).1
    (input.solved.facts.filterMap (fluentAtom input.task))

/-- The reachable fluent atoms in the order of their indices. -/
def fluentAtoms : List (Tuple × Nat) :=
  input.created.2.insertionSort fun x y => x.2 ≤ y.2

def fluentTuples : List Tuple := input.fluentAtoms.map Prod.fst

def reached : Reached where
  repository := input.repository
  fluentAtoms := input.fluentAtoms.map Prod.snd
  derivedAtoms := input.solved.facts.filterMap (derivedAtom input.task)

/-- `compute_mutex_groups`, where the index of an atom is its position. -/
def mutexGroups : List (List Tuple) :=
  computeMutexGroups (fun tuple => input.fluentTuples.idxOf tuple) input.task.fluentAtoms
    input.fluentTuples input.invariants

/-- The atom of a tuple. -/
def atomOf (tuple : Tuple) : Nat := (input.fluentAtoms.lookup tuple).getD 0

def fdrContext : FDRContext :=
  if input.options.disableInvariantSynthesis then
    .ofAtoms (input.fluentAtoms.map Prod.snd) input.created.1
  else
    .ofMutexes (input.mutexGroups.map fun group => group.map input.atomOf) input.created.1

/-- The domains of the variables of the effects. -/
def effectDomains : Action → ConditionalEffect → List (List Nat) :=
  (TaskVariableDomains.compute input.task.toLiftedTask).effectDomains

end Input

/-- A ground action and its binding. -/
structure BoundAction where
  action : Nat
  objects : List Nat
  result : GroundAction

/-- A ground axiom and its binding. -/
structure BoundAxiom where
  ax : Nat
  objects : List Nat
  result : GroundAxiom

structure FDRTask where
  fluentAtoms : List Nat
  derivedAtoms : List Nat
  fluentVariables : List Nat
  fluentFacts : List FDRFact
  goal : GroundConjunctiveCondition
  groundActions : List BoundAction
  groundAxioms : List BoundAxiom

section

variable (input : Input)

/-- The facts of the initial atoms. -/
def groundFacts (ctx : FDRContext) (tuples : List Tuple) : FDRContext × List FDRFact :=
  tuples.foldl (fun result tuple =>
    let (ctx, fact) := groundFact result.1 tuple
    (ctx, result.2 ++ [fact])) (ctx, [])

/-- One binding of an applicability predicate of an action. -/
def addGroundAction (result : FDRContext × List BoundAction) (fact : Tuple) :
    FDRContext × List BoundAction :=
  match predicateToAction input.task fact.relation with
  | none => result
  | some action =>
      match groundPrunedAction input.reached fact.objects input.effectDomains result.1
        (input.task.actions.get action) with
      | (ctx, none) => (ctx, result.2)
      | (ctx, some groundAction) =>
          if isConsistent groundAction.condition then
            (ctx, result.2 ++ [⟨input.task.actionIndex action, fact.objects, groundAction⟩])
          else
            (ctx, result.2)

/-- One binding of an applicability predicate of an axiom. -/
def addGroundAxiom (result : FDRContext × List BoundAxiom) (fact : Tuple) :
    FDRContext × List BoundAxiom :=
  match predicateToAxiom input.task fact.relation with
  | none => result
  | some ax =>
      match groundPrunedAxiom input.reached fact.objects result.1 (input.task.axioms.get ax) with
      | (ctx, none) => (ctx, result.2)
      | (ctx, some groundAxiom) =>
          if isConsistent groundAxiom.body then
            (ctx, result.2 ++ [⟨input.task.axiomIndex ax, fact.objects, groundAxiom⟩])
          else
            (ctx, result.2)

/-- `instantiate_ground_task`: nothing if the task is proven unsolvable. -/
def instantiateGroundTask : Option (FDRTask × FDRContext) :=
  let fluentVariables := input.fdrContext.vars
  let (ctx, fluentFacts) := groundFacts input.fdrContext input.task.fluentAtoms
  match createGroundFDRCondition input.reached [] ctx input.task.goal with
  | (_, none) => none
  | (ctx, some goal) =>
      let (ctx, groundActions) := input.solved.facts.foldl (addGroundAction input) (ctx, [])
      let (ctx, groundAxioms) := input.solved.facts.foldl (addGroundAxiom input) (ctx, [])
      some (⟨input.reached.fluentAtoms,
        input.reached.derivedAtoms.map input.repository.derivedAtom, fluentVariables, fluentFacts,
        goal, groundActions, groundAxioms⟩, ctx)

end

/-! ### The reachable atoms -/

/-- The tuples with their atoms; there are no further variables. -/
structure Creates (repo : PlanningRepository) (tuples : List Tuple)
    (result : PlanningRepository × List (Tuple × Nat)) : Prop where
  sound : result.1.Sound
  variables_eq : ∀ var, result.1.atomsOf var = repo.atomsOf var
  denotes : ∀ entry ∈ result.2, Denotes result.1 entry.2 entry.1
  tuples : result.2.map Prod.fst = tuples

theorem createAtoms_spec {repo : PlanningRepository} (sound : repo.Sound) (tuples : List Tuple) :
    Creates repo tuples (createAtoms repo tuples) := by
  induction tuples using List.reverseRecOn with
  | nil => exact ⟨sound, fun _ => rfl, List.forall_mem_nil _, rfl⟩
  | append_singleton tuples tuple ih =>
      unfold createAtoms at ih ⊢
      rw [List.foldl_concat]
      generalize List.foldl _ (repo, []) tuples = before at ih ⊢
      obtain ⟨⟨between, first, second⟩, denotes⟩ := createGroundAtom_spec ih.sound tuple
      have run := first.extends.trans second.extends
      refine ⟨second.sound (first.sound ih.sound), fun var => ?_, fun entry mem => ?_, ?_⟩
      · exact (atomsOf_createGroundAtom before.1 tuple var).trans (ih.variables_eq var)
      · rcases List.mem_append.mp mem with old | isNew
        · exact (ih.denotes entry old).later ih.sound run
        · rw [List.mem_singleton.mp isNew]
          exact denotes
      · rw [List.map_append, ih.tuples]
        rfl

/-- Different facts have different atoms. -/
theorem fluentAtom_inj {task : NamedTask} {fact fact' tuple : Tuple}
    (isAtom : fluentAtom task fact = some tuple) (isAtom' : fluentAtom task fact' = some tuple) :
    fact = fact' := by
  obtain ⟨predicate, found, rfl⟩ := Option.map_eq_some_iff.mp isAtom
  obtain ⟨predicate', found', same⟩ := Option.map_eq_some_iff.mp isAtom'
  obtain ⟨rfl, objects⟩ := Tuple.mk.injEq .. |>.mp same
  unfold fluentToFluentPredicate at found found'
  have relation := List.find?_some found
  have relation' := List.find?_some found'
  rw [beq_iff_eq] at relation relation'
  cases fact
  cases fact'
  rw [Tuple.mk.injEq]
  exact ⟨relation.symm.trans relation', objects.symm⟩

namespace Input

section

variable (input : Input)

theorem created_spec : Creates (createAtoms input.start input.task.fluentAtoms).1
    (input.solved.facts.filterMap (fluentAtom input.task)) input.created :=
  createAtoms_spec (createAtoms_spec input.start_reachable.sound _).sound _

/-- No variable is created with the atoms. -/
theorem size_created : input.created.1.size PlanningSymbol.fdrVariable = 0 := by
  by_contra nonzero
  obtain ⟨atoms, found⟩ :=
    ((PlanningRepository.variables_intern input.created_spec.sound).interned.dense 0).mpr
      (Nat.pos_of_ne_zero nonzero)
  have noVariable : input.created.1.atomsOf 0 = none := by
    rw [input.created_spec.variables_eq,
      (createAtoms_spec input.start_reachable.sound _).variables_eq, input.start_noVariables]
  cases noVariable.symm.trans found

theorem fluentTuples_perm :
    input.fluentTuples.Perm (input.solved.facts.filterMap (fluentAtom input.task)) := by
  rw [← input.created_spec.tuples]
  exact (List.perm_insertionSort _ _).map _

theorem fluentTuples_nodup : input.fluentTuples.Nodup := by
  rw [input.fluentTuples_perm.nodup_iff]
  exact input.solved.nodup.filterMap fun _ _ _ => fluentAtom_inj

/-- The groups of the reachable atoms: each atom has its own if there are no invariants. -/
def groups : List (List Tuple) :=
  if input.options.disableInvariantSynthesis then input.fluentTuples.map fun tuple => [tuple]
  else input.mutexGroups

/-- The groups are a partition. -/
theorem groups_perm : input.groups.flatten.Perm input.fluentTuples := by
  unfold groups
  split
  · rw [← List.flatMap_def, List.flatMap_singleton']
  · refine (computeMutexGroups_spec ?_ _ _).1
    intro position tuple found
    obtain ⟨inside, rfl⟩ := List.getElem?_eq_some_iff.mp found
    exact input.fluentTuples_nodup.idxOf_getElem position inside

end

section

variable {input : Input} {tuple tuple' : Tuple} {group group' : List Tuple}

theorem mem_fluentTuples :
    tuple ∈ input.fluentTuples ↔ ∃ fact ∈ input.solved.facts, fluentAtom input.task fact = some tuple := by
  rw [input.fluentTuples_perm.mem_iff, List.mem_filterMap]

theorem lookup_atomOf {entry : Tuple × Nat} (mem : entry ∈ input.fluentAtoms) :
    input.atomOf entry.1 = entry.2 := by
  have found := (AssociationList.mem_iff_lookup input.fluentTuples_nodup).mp mem
  rw [atomOf, found]
  rfl

theorem map_atomOf : input.fluentTuples.map input.atomOf = input.reached.fluentAtoms := by
  rw [fluentTuples, List.map_map]
  exact List.map_congr_left fun entry mem => lookup_atomOf mem

theorem denotes_atomOf (mem : tuple ∈ input.fluentTuples) :
    Denotes input.created.1 (input.atomOf tuple) tuple := by
  obtain ⟨entry, known, rfl⟩ := List.mem_map.mp mem
  rw [lookup_atomOf known]
  exact input.created_spec.denotes entry ((List.perm_insertionSort _ _).mem_iff.mp known)

theorem mem_of_group (mem : group ∈ input.groups) (inGroup : tuple ∈ group) :
    tuple ∈ input.fluentTuples :=
  input.groups_perm.mem_iff.mp (List.mem_flatten.mpr ⟨group, mem, inGroup⟩)

theorem exists_group (mem : tuple ∈ input.fluentTuples) : ∃ group ∈ input.groups, tuple ∈ group :=
  List.mem_flatten.mp (input.groups_perm.mem_iff.mpr mem)

/-- An atom is in one group. -/
theorem group_unique (mem : group ∈ input.groups) (mem' : group' ∈ input.groups)
    (inGroup : tuple ∈ group) (inGroup' : tuple ∈ group') : group = group' := by
  have nodup := input.groups_perm.nodup_iff.mpr input.fluentTuples_nodup
  have disjoint := (List.nodup_flatten.mp nodup).2
  have : Std.Symm (@List.Disjoint Tuple) := ⟨fun _ _ apart => apart.symm⟩
  by_contra different
  exact disjoint.forall mem mem' different inGroup inGroup'

end

end Input

/-! ### The variables -/

/-- The listed variables are those of the groups, and each reachable atom has a fact of one
of them. -/
structure Encoded (input : Input) (ctx : FDRContext) : Prop where
  represents : ctx.Represents
  denotes : ∀ tuple ∈ input.fluentTuples, Denotes ctx.repo (input.atomOf tuple) tuple
  listed : ∀ tuple ∈ input.fluentTuples,
    ∃ fact, FactOf ctx tuple fact ∧ fact.var ∈ input.fdrContext.vars
  groups : ∀ var ∈ input.fdrContext.vars,
    ∃ group ∈ input.groups, ctx.repo.atomsOf var = some (group.map input.atomOf)

section

variable {input : Input} {ctx after : FDRContext} {tuple tuple' : Tuple} {fact fact' : FDRFact}

theorem Input.fdrContext_eq : input.fdrContext =
    .ofMutexes (input.groups.map fun group => group.map input.atomOf) input.created.1 := by
  unfold Input.fdrContext Input.groups
  split
  · have sameAtoms : input.fluentAtoms.map Prod.snd = input.fluentTuples.map input.atomOf :=
      Input.map_atomOf.symm
    rw [FDRContext.ofAtoms_eq_ofMutexes, sameAtoms, List.map_map, List.map_map]
    rfl
  · rfl

/-- The context is the one of the groups, and its variables are numbered from zero. -/
theorem encoded_fdrContext (input : Input) :
    Encoded input input.fdrContext ∧
      ∀ var ∈ input.fdrContext.vars, var < input.fdrContext.vars.length := by
  have areAtoms : ∀ group ∈ input.groups.map fun group => group.map input.atomOf,
      ∀ atom ∈ group, (input.created.1.bindingOf atom).isSome := by
    intro atoms mem atom inAtoms
    obtain ⟨group, known, rfl⟩ := List.mem_map.mp mem
    obtain ⟨tuple, inGroup, rfl⟩ := List.mem_map.mp inAtoms
    exact (Input.denotes_atomOf (Input.mem_of_group known inGroup)).isSome
  have sound := input.created_spec.sound
  obtain ⟨represents, run, groups, size⟩ := FDRContext.ofMutexes_spec sound areAtoms
  have hasFact := fun atom => @FDRContext.isSome_lookup_ofMutexes input.created.1
    (input.groups.map fun group => group.map input.atomOf) atom
  rw [← Input.fdrContext_eq] at represents run groups size hasFact
  have denotes : ∀ tuple ∈ input.fluentTuples,
      Denotes input.fdrContext.repo (input.atomOf tuple) tuple :=
    fun tuple mem => (Input.denotes_atomOf mem).later sound run
  refine ⟨⟨represents, denotes, fun tuple mem => ?_, fun var mem => ?_⟩, fun var mem => ?_⟩
  · obtain ⟨group, known, inGroup⟩ := Input.exists_group mem
    have isSome := (hasFact (input.atomOf tuple)).mpr
      ⟨_, List.mem_map_of_mem known, List.mem_map_of_mem inGroup⟩
    obtain ⟨fact, found⟩ := Option.isSome_iff_exists.mp isSome
    exact ⟨fact, ⟨_, denotes tuple mem, found⟩, represents.listed _ _ found⟩
  · obtain ⟨atoms, known, found⟩ := groups var mem
    obtain ⟨group, isGroup, rfl⟩ := List.mem_map.mp known
    exact ⟨group, isGroup, found⟩
  · obtain ⟨atoms, found⟩ := Option.isSome_iff_exists.mp (represents.vars var mem)
    have inside :=
      ((PlanningRepository.variables_intern represents.sound).interned.dense var).mp ⟨atoms, found⟩
    rw [input.size_created, Nat.zero_add] at size
    exact Nat.lt_of_lt_of_le inside size

theorem Encoded.run (encoded : Encoded input ctx) (run : FDRContext.Run ctx after) :
    Encoded input after where
  represents := run.represents encoded.represents
  denotes tuple mem := (encoded.denotes tuple mem).run encoded.represents run
  listed tuple mem := by
    obtain ⟨fact, isFact, listed⟩ := encoded.listed tuple mem
    exact ⟨fact, isFact.run encoded.represents run, listed⟩
  groups var mem := by
    obtain ⟨group, known, found⟩ := encoded.groups var mem
    exact ⟨group, known,
      PlanningRepository.atomsOf_later encoded.represents.sound run.extends found⟩

theorem Encoded.prepared (encoded : Encoded input ctx) :
    Prepared input.reached input.fluentTuples ctx where
  represents := encoded.represents
  denotes atom mem := by
    rw [← Input.map_atomOf] at mem
    obtain ⟨tuple, known, rfl⟩ := List.mem_map.mp mem
    exact ⟨tuple, known, encoded.denotes tuple known⟩
  atoms tuple mem :=
    ⟨_, Input.map_atomOf ▸ List.mem_map_of_mem mem, encoded.denotes tuple mem⟩
  facts tuple mem := by
    obtain ⟨fact, isFact, _⟩ := encoded.listed tuple mem
    exact ⟨fact, isFact⟩

/-- The atom of a fact of a variable of a group is in the group. -/
theorem Encoded.mem_group (encoded : Encoded input ctx) (isFact : FactOf ctx tuple fact)
    {group : List Tuple} (known : group ∈ input.groups)
    (found : ctx.repo.atomsOf fact.var = some (group.map input.atomOf)) : tuple ∈ group := by
  obtain ⟨atom, denotes, isMapped⟩ := isFact
  obtain ⟨_, atoms, found', _, here⟩ := encoded.represents.stores atom fact isMapped
  obtain rfl := Option.some.inj (found.symm.trans found')
  obtain ⟨other, inGroup, rfl⟩ := List.mem_map.mp (List.mem_of_getElem? here)
  have isOther := encoded.denotes other (Input.mem_of_group known inGroup)
  rw [denotes.tuple_unique isOther]
  exact inGroup

/-- The facts of the listed variables are those of the reachable atoms. -/
theorem Encoded.listed_iff (encoded : Encoded input ctx) (isFact : FactOf ctx tuple fact) :
    fact.var ∈ input.fdrContext.vars ↔ tuple ∈ input.fluentTuples := by
  constructor
  · intro listed
    obtain ⟨group, known, found⟩ := encoded.groups fact.var listed
    exact Input.mem_of_group known (encoded.mem_group isFact known found)
  · intro mem
    obtain ⟨other, isOther, listed⟩ := encoded.listed tuple mem
    rw [isFact.unique encoded.represents isOther]
    exact listed

/-- Reachable atoms have one variable if they are in one group. -/
theorem Encoded.var_eq_iff (encoded : Encoded input ctx) (isFact : FactOf ctx tuple fact)
    (isFact' : FactOf ctx tuple' fact') (mem : tuple ∈ input.fluentTuples)
    (mem' : tuple' ∈ input.fluentTuples) :
    fact.var = fact'.var ↔ ∃ group ∈ input.groups, tuple ∈ group ∧ tuple' ∈ group := by
  obtain ⟨group, known, found⟩ := encoded.groups fact.var ((encoded.listed_iff isFact).mpr mem)
  obtain ⟨group', known', found'⟩ := encoded.groups fact'.var ((encoded.listed_iff isFact').mpr mem')
  have inGroup := encoded.mem_group isFact known found
  have inGroup' := encoded.mem_group isFact' known' found'
  constructor
  · intro same
    rw [same] at found
    exact ⟨group, known, inGroup, encoded.mem_group isFact' known found⟩
  · rintro ⟨common, isCommon, inCommon, inCommon'⟩
    obtain rfl := Input.group_unique known isCommon inGroup inCommon
    obtain rfl := Input.group_unique known' isCommon inGroup' inCommon'
    exact (PlanningRepository.variables_intern encoded.represents.sound).interned.distinct
      fact.var fact'.var _ _ found found' (PlanningSymbol.equalTo_self .fdrVariable _)

end

/-! ### Consistent conditions -/

/-- No two wanted atoms are in one group, no atom is wanted and forbidden, and no derived atom
has two truth values. -/
structure Consistent (input : Input) (binding : List Nat) (condition : ConjunctiveCondition) : Prop where
  positive : ∀ literal ∈ condition.fluentLiterals, ∀ literal' ∈ condition.fluentLiterals,
    literal.polarity = true → literal'.polarity = true → ∀ group ∈ input.groups,
      literal.atom.ground binding ∈ group → literal'.atom.ground binding ∈ group →
        literal.atom.ground binding = literal'.atom.ground binding
  negative : ∀ literal ∈ condition.fluentLiterals, ∀ literal' ∈ condition.fluentLiterals,
    literal.polarity = true → literal'.polarity = false →
      literal.atom.ground binding ≠ literal'.atom.ground binding
  derived : ∀ literal ∈ condition.derivedLiterals, ∀ literal' ∈ condition.derivedLiterals,
    literal.atom.ground binding ∈ input.reached.derivedAtoms →
      literal'.atom.ground binding ∈ input.reached.derivedAtoms →
        input.repository.derivedAtom (literal.atom.ground binding) =
          input.repository.derivedAtom (literal'.atom.ground binding) →
          literal.polarity = literal'.polarity

/-- The conditions that the grounder keeps. -/
def Kept (input : Input) (binding : List Nat) (condition : ConjunctiveCondition) : Prop :=
  Possible input.reached input.fluentTuples binding condition ∧ Consistent input binding condition

theorem isConsistent_iff_consistent {input : Input} {ctx : FDRContext} {binding : List Nat}
    {condition : ConjunctiveCondition} {result : GroundConjunctiveCondition}
    (encoded : Encoded input ctx)
    (possible : Possible input.reached input.fluentTuples binding condition)
    (isGround : IsGround input.reached input.fluentTuples binding ctx condition result) :
    isConsistent result = true ↔ Consistent input binding condition := by
  have represents := encoded.represents
  have fact_of : ∀ literal ∈ condition.fluentLiterals, literal.polarity = true →
      ∃ fact ∈ result.positiveFacts, FactOf ctx (literal.atom.ground binding) fact := by
    intro literal mem positive
    obtain ⟨fact, isFact, _⟩ := encoded.listed _ (possible.fluent literal mem positive)
    exact ⟨fact, (isGround.positive fact).mpr ⟨literal, mem, positive, isFact⟩, isFact⟩
  rw [isConsistent_iff]
  constructor
  · rintro ⟨values, notForbidden, polarities⟩
    refine ⟨?_, ?_, ?_⟩
    · intro literal mem literal' mem' positive positive' group known inGroup inGroup'
      obtain ⟨fact, wanted, isFact⟩ := fact_of literal mem positive
      obtain ⟨fact', wanted', isFact'⟩ := fact_of literal' mem' positive'
      have sameVar := (encoded.var_eq_iff isFact isFact' (Input.mem_of_group known inGroup)
        (Input.mem_of_group known inGroup')).mpr ⟨group, known, inGroup, inGroup'⟩
      have sameValue := values fact wanted fact' wanted' sameVar
      have sameFact : fact = fact' := by
        cases fact
        cases fact'
        rw [FDRFact.mk.injEq]
        exact ⟨sameVar, sameValue⟩
      exact isFact.tuple_unique represents (sameFact ▸ isFact')
    · intro literal mem literal' mem' positive negative same
      obtain ⟨fact, wanted, isFact⟩ := fact_of literal mem positive
      have known := possible.fluent literal mem positive
      rw [same] at isFact known
      exact notForbidden fact
        ((isGround.negative fact).mpr ⟨literal', mem', ⟨negative, known⟩, isFact⟩) wanted
    · intro literal mem literal' mem' known known' same
      exact polarities ⟨_, literal.polarity⟩
        ((isGround.derived _).mpr ⟨literal, mem, known, rfl⟩) ⟨_, literal'.polarity⟩
        ((isGround.derived _).mpr ⟨literal', mem', known', rfl⟩) same
  · intro consistent
    refine ⟨?_, ?_, ?_⟩
    · intro fact wanted fact' wanted' sameVar
      obtain ⟨literal, mem, positive, isFact⟩ := (isGround.positive fact).mp wanted
      obtain ⟨literal', mem', positive', isFact'⟩ := (isGround.positive fact').mp wanted'
      obtain ⟨group, known, inGroup, inGroup'⟩ := (encoded.var_eq_iff isFact isFact'
        (possible.fluent literal mem positive) (possible.fluent literal' mem' positive')).mp sameVar
      have same := consistent.positive literal mem literal' mem' positive positive' group known
        inGroup inGroup'
      rw [same] at isFact
      rw [isFact.unique represents isFact']
    · intro fact forbidden wanted
      obtain ⟨literal, mem, positive, isFact⟩ := (isGround.positive fact).mp wanted
      obtain ⟨literal', mem', ⟨negative, _⟩, isFact'⟩ := (isGround.negative fact).mp forbidden
      exact consistent.negative literal mem literal' mem' positive negative
        (isFact.tuple_unique represents isFact')
    · intro literal mem literal' mem' same
      obtain ⟨original, known, reachable, rfl⟩ := (isGround.derived literal).mp mem
      obtain ⟨original', known', reachable', rfl⟩ := (isGround.derived literal').mp mem'
      exact consistent.derived original known original' known' reachable reachable' same

/-! ### Actions and axioms -/

/-- Each result is one of a fact, and a wanted fact has a result. -/
structure Collects {R : Type} (IsResult : Tuple → R → Prop) (Wanted : Tuple → Prop)
    (facts : List Tuple) (results : List R) : Prop where
  sound : ∀ result ∈ results, ∃ fact ∈ facts, IsResult fact result
  complete : ∀ fact ∈ facts, Wanted fact → ∃ result ∈ results, IsResult fact result

theorem Collects.mono {R : Type} {IsResult IsResult' : Tuple → R → Prop} {Wanted : Tuple → Prop}
    {facts : List Tuple} {results : List R} (collects : Collects IsResult Wanted facts results)
    (implies : ∀ fact result, IsResult fact result → IsResult' fact result) :
    Collects IsResult' Wanted facts results where
  sound result mem := by
    obtain ⟨fact, known, isResult⟩ := collects.sound result mem
    exact ⟨fact, known, implies fact result isResult⟩
  complete fact mem wanted := by
    obtain ⟨result, known, isResult⟩ := collects.complete fact mem wanted
    exact ⟨result, known, implies fact result isResult⟩

/-- One fact adds at most one result. -/
structure Adds {R : Type} (IsResult : FDRContext → Tuple → R → Prop) (Wanted : Tuple → Prop)
    (fact : Tuple) (before after : FDRContext × List R) (added : Option R) : Prop where
  run : FDRContext.Run before.1 after.1
  results : after.2 = before.2 ++ added.toList
  sound : ∀ result, added = some result → IsResult after.1 fact result
  complete : Wanted fact → added.isSome

section

variable {input : Input} {R : Type} {IsResult : FDRContext → Tuple → R → Prop} {Wanted : Tuple → Prop}
  {step : FDRContext × List R → Tuple → FDRContext × List R}

theorem Adds.nothing {fact : Tuple} {before after : FDRContext × List R}
    (run : FDRContext.Run before.1 after.1) (same : after.2 = before.2) (unwanted : ¬ Wanted fact) :
    Adds IsResult Wanted fact before after none where
  run := run
  results := by rw [same, Option.toList_none, List.append_nil]
  sound _ isAdded := by cases isAdded
  complete wanted := absurd wanted unwanted

/-- The loops over the facts of the program. -/
theorem foldl_collects
    (keeps : ∀ {ctx after : FDRContext}, Encoded input ctx → FDRContext.Run ctx after →
      ∀ fact result, IsResult ctx fact result → IsResult after fact result)
    (adds : ∀ {before : FDRContext × List R}, Encoded input before.1 →
      ∀ fact, ∃ added, Adds IsResult Wanted fact before (step before fact) added)
    {ctx : FDRContext} (encoded : Encoded input ctx) (facts : List Tuple) :
    FDRContext.Run ctx (facts.foldl step (ctx, [])).1 ∧
      Collects (IsResult (facts.foldl step (ctx, [])).1) Wanted facts (facts.foldl step (ctx, [])).2 := by
  induction facts using List.reverseRecOn with
  | nil => exact ⟨.refl, List.forall_mem_nil _, List.forall_mem_nil _⟩
  | append_singleton facts fact ih =>
      rw [List.foldl_concat]
      obtain ⟨run, collects⟩ := ih
      generalize facts.foldl step (ctx, []) = before at *
      have encoded' := encoded.run run
      obtain ⟨added, ofFact⟩ := adds encoded' fact
      rw [ofFact.results]
      refine ⟨run.trans ofFact.run, fun result mem => ?_, fun other mem wanted => ?_⟩
      · rcases List.mem_append.mp mem with old | isAdded
        · obtain ⟨other, known, isResult⟩ := collects.sound result old
          exact ⟨other, List.mem_append_left _ known, keeps encoded' ofFact.run other result isResult⟩
        · exact ⟨fact, List.mem_append_right _ (List.mem_singleton_self _),
            ofFact.sound result (Option.mem_toList.mp isAdded)⟩
      · rcases List.mem_append.mp mem with old | isNew
        · obtain ⟨result, known, isResult⟩ := collects.complete other old wanted
          exact ⟨result, List.mem_append_left _ known,
            keeps encoded' ofFact.run other result isResult⟩
        · obtain rfl := List.mem_singleton.mp isNew
          obtain ⟨result, isAdded⟩ := Option.isSome_iff_exists.mp (ofFact.complete wanted)
          exact ⟨result, List.mem_append_right _ (Option.mem_toList.mpr isAdded),
            ofFact.sound result isAdded⟩

end

/-- The instances of the effects that are kept with the action. -/
def KeptInstance (input : Input) (action : Action) (objects : List Nat)
    (instance_ : ConditionalEffect × List Nat) : Prop :=
  instance_ ∈ effectInstances input.effectDomains action ∧
    Possible input.reached input.fluentTuples (objects ++ instance_.2) instance_.1.condition

/-- The ground action of a binding. -/
def IsActionOf (input : Input) (ctx : FDRContext) (fact : Tuple) (bound : BoundAction) : Prop :=
  ∃ action, predicateToAction input.task fact.relation = some action ∧
    Kept input fact.objects (input.task.actions.get action).condition ∧
    IsGroundAction input.reached input.fluentTuples fact.objects ctx (input.task.actions.get action)
      (effectInstances input.effectDomains (input.task.actions.get action)) bound.result

/-- The bindings with a ground action. -/
def HasAction (input : Input) (fact : Tuple) : Prop :=
  ∃ action, predicateToAction input.task fact.relation = some action ∧
    Kept input fact.objects (input.task.actions.get action).condition ∧
    ∃ instance_, KeptInstance input (input.task.actions.get action) fact.objects instance_ ∧
      instance_.1.effect.literals ≠ []

/-- The ground axiom of a binding. -/
def IsAxiomOf (input : Input) (ctx : FDRContext) (fact : Tuple) (bound : BoundAxiom) : Prop :=
  ∃ ax, predicateToAxiom input.task fact.relation = some ax ∧
    Kept input fact.objects (input.task.axioms.get ax).body ∧
    IsGround input.reached input.fluentTuples fact.objects ctx (input.task.axioms.get ax).body
      bound.result.body

/-- The bindings with a ground axiom. -/
def HasAxiom (input : Input) (fact : Tuple) : Prop :=
  ∃ ax, predicateToAxiom input.task fact.relation = some ax ∧
    Kept input fact.objects (input.task.axioms.get ax).body ∧
    (input.task.axioms.get ax).head.ground fact.objects ∈ input.reached.derivedAtoms

section

variable {input : Input} {before : FDRContext × List BoundAction}

theorem IsActionOf.run {ctx after : FDRContext} (encoded : Encoded input ctx)
    (run : FDRContext.Run ctx after) (fact : Tuple) (bound : BoundAction)
    (isAction : IsActionOf input ctx fact bound) : IsActionOf input after fact bound := by
  obtain ⟨action, found, kept, isGround⟩ := isAction
  exact ⟨action, found, kept, isGround.run encoded.prepared run⟩

theorem IsAxiomOf.run {ctx after : FDRContext} (encoded : Encoded input ctx)
    (run : FDRContext.Run ctx after) (fact : Tuple) (bound : BoundAxiom)
    (isAxiom : IsAxiomOf input ctx fact bound) : IsAxiomOf input after fact bound := by
  obtain ⟨ax, found, kept, isGround⟩ := isAxiom
  exact ⟨ax, found, kept, isGround.run kept.1 encoded.prepared run⟩

theorem addGroundAction_adds (encoded : Encoded input before.1) (fact : Tuple) :
    ∃ added, Adds (IsActionOf input) (HasAction input) fact before (addGroundAction input before fact)
      added := by
  unfold addGroundAction
  cases found : predicateToAction input.task fact.relation with
  | none =>
      refine ⟨none, .nothing .refl rfl ?_⟩
      rintro ⟨action, found', _⟩
      cases found.symm.trans found'
  | some action =>
      obtain ⟨run, isSome, isGround⟩ := groundPrunedAction_spec fact.objects input.effectDomains
        encoded.prepared (input.task.actions.get action)
      have hasAction : HasAction input fact →
          Kept input fact.objects (input.task.actions.get action).condition ∧
          (groundPrunedAction input.reached fact.objects input.effectDomains before.1
            (input.task.actions.get action)).2.isSome := by
        rintro ⟨action', found', kept, instance_, ⟨mem, possible⟩, nonempty⟩
        obtain rfl := Option.some.inj (found.symm.trans found')
        exact ⟨kept, isSome kept.1 ⟨instance_, mem, possible, nonempty⟩⟩
      dsimp only
      generalize groundPrunedAction input.reached fact.objects input.effectDomains before.1
        (input.task.actions.get action) = next at *
      obtain ⟨ctx, result⟩ := next
      dsimp only at run isGround hasAction
      cases result with
      | none =>
          exact ⟨none, .nothing run rfl fun wanted => Bool.false_ne_true (hasAction wanted).2⟩
      | some result =>
          have isResult := isGround result rfl
          have consistent := isConsistent_iff_consistent (encoded.run run) isResult.possible
            isResult.condition
          dsimp only
          split
          · next holds =>
              refine ⟨some _, run, rfl, fun bound same => ?_, fun _ => rfl⟩
              obtain rfl := Option.some.inj same
              exact ⟨action, found, ⟨isResult.possible, consistent.mp holds⟩, isResult⟩
          · next fails =>
              exact ⟨none, .nothing run rfl fun wanted =>
                fails (consistent.mpr (hasAction wanted).1.2)⟩

theorem addGroundAxiom_adds {before : FDRContext × List BoundAxiom} (encoded : Encoded input before.1)
    (fact : Tuple) :
    ∃ added, Adds (IsAxiomOf input) (HasAxiom input) fact before (addGroundAxiom input before fact)
      added := by
  unfold addGroundAxiom
  cases found : predicateToAxiom input.task fact.relation with
  | none =>
      refine ⟨none, .nothing .refl rfl ?_⟩
      rintro ⟨ax, found', _⟩
      cases found.symm.trans found'
  | some ax =>
      obtain ⟨run, isSome, isGround⟩ := groundPrunedAxiom_spec fact.objects encoded.prepared
        (input.task.axioms.get ax)
      have hasAxiom : HasAxiom input fact →
          Kept input fact.objects (input.task.axioms.get ax).body ∧
          (input.task.axioms.get ax).head.ground fact.objects ∈ input.reached.derivedAtoms := by
        rintro ⟨ax', found', kept, reachable⟩
        obtain rfl := Option.some.inj (found.symm.trans found')
        exact ⟨kept, reachable⟩
      dsimp only
      generalize groundPrunedAxiom input.reached fact.objects before.1 (input.task.axioms.get ax) =
        next at *
      obtain ⟨ctx, result⟩ := next
      dsimp only at run isSome isGround
      cases result with
      | none =>
          refine ⟨none, .nothing run rfl fun wanted => ?_⟩
          obtain ⟨kept, reachable⟩ := hasAxiom wanted
          exact Bool.false_ne_true (isSome.mpr ⟨kept.1, reachable⟩)
      | some result =>
          have possible := (isSome.mp rfl).1
          have isResult := isGround result rfl
          have consistent := isConsistent_iff_consistent (encoded.run run) possible isResult
          dsimp only
          split
          · next holds =>
              refine ⟨some _, run, rfl, fun bound same => ?_, fun _ => rfl⟩
              obtain rfl := Option.some.inj same
              exact ⟨ax, found, ⟨possible, consistent.mp holds⟩, isResult⟩
          · next fails =>
              exact ⟨none, .nothing run rfl fun wanted =>
                fails (consistent.mpr (hasAxiom wanted).1.2)⟩

end

/-! ### The ground task -/

/-- The goal, the actions and the axioms of the ground task. -/
structure Instantiates (input : Input) (task : FDRTask) (ctx : FDRContext) : Prop where
  encoded : Encoded input ctx
  fluentVariables : task.fluentVariables = input.fdrContext.vars
  possible : Possible input.reached input.fluentTuples [] input.task.goal
  goal : IsGround input.reached input.fluentTuples [] ctx input.task.goal task.goal
  actions : Collects (IsActionOf input ctx) (HasAction input) input.solved.facts task.groundActions
  axioms : Collects (IsAxiomOf input ctx) (HasAxiom input) input.solved.facts task.groundAxioms

theorem groundFacts_run {ctx : FDRContext} (represents : ctx.Represents) (tuples : List Tuple) :
    FDRContext.Run ctx (groundFacts ctx tuples).1 := by
  refine foldl_invariant (P := fun result : FDRContext × List FDRFact =>
    FDRContext.Run ctx result.1) ?_ .refl
  intro result run tuple _
  exact run.trans (groundFact_spec (run.represents represents) tuple).1

/-- There is a ground task unless the goal asks for an atom that is not reachable. -/
theorem instantiateGroundTask_spec (input : Input) :
    ((instantiateGroundTask input).isSome ↔
      Possible input.reached input.fluentTuples [] input.task.goal) ∧
    ∀ task ctx, instantiateGroundTask input = some (task, ctx) → Instantiates input task ctx := by
  have start := (encoded_fdrContext input).1
  have runFacts := groundFacts_run start.represents input.task.fluentAtoms
  unfold instantiateGroundTask
  generalize groundFacts input.fdrContext input.task.fluentAtoms = initial at *
  obtain ⟨ctx₁, fluentFacts⟩ := initial
  have encoded₁ := start.run runFacts
  obtain ⟨runGoal, isSome, isGoal⟩ := createGroundFDRCondition_spec [] encoded₁.prepared input.task.goal
  dsimp only at encoded₁ runGoal isSome isGoal ⊢
  generalize createGroundFDRCondition input.reached [] ctx₁ input.task.goal = grounded at *
  obtain ⟨ctx₂, goal⟩ := grounded
  cases goal with
  | none => exact ⟨isSome, fun task ctx same => by cases same⟩
  | some goal =>
      have encoded₂ := encoded₁.run runGoal
      obtain ⟨runActions, actions⟩ := foldl_collects IsActionOf.run addGroundAction_adds encoded₂
        input.solved.facts
      have encoded₃ := encoded₂.run runActions
      obtain ⟨runAxioms, axioms⟩ := foldl_collects IsAxiomOf.run addGroundAxiom_adds encoded₃
        input.solved.facts
      have possible := isSome.mp rfl
      refine ⟨iff_of_true rfl possible, fun task ctx same => ?_⟩
      obtain ⟨rfl, rfl⟩ := Prod.mk.inj (Option.some.inj same)
      exact
        { encoded := encoded₃.run runAxioms
          fluentVariables := rfl
          possible := possible
          goal := (isGoal goal rfl).run possible (encoded₁.run runGoal).prepared
            (runActions.trans runAxioms)
          actions := actions.mono fun fact bound => IsActionOf.run encoded₃ runAxioms fact bound
          axioms := axioms }

/-! ### Facts in range -/

def conditionFacts (condition : GroundConjunctiveCondition) : List FDRFact :=
  condition.positiveFacts ++ condition.negativeFacts

def effectFacts (effect : GroundConditionalEffect) : List FDRFact :=
  conditionFacts effect.condition ++ effect.effect.positiveFacts ++ effect.effect.negativeFacts

def actionFacts (action : GroundAction) : List FDRFact :=
  conditionFacts action.condition ++ action.effects.flatMap effectFacts

/-- The facts of the goal, the actions and the axioms. -/
def FDRTask.facts (task : FDRTask) : List FDRFact :=
  conditionFacts task.goal ++ task.groundActions.flatMap (fun bound => actionFacts bound.result) ++
    task.groundAxioms.flatMap fun bound => conditionFacts bound.result.body

/-- The variable is one of the task, a state has storage for it, and the value is in its
domain. -/
def FDRTask.InRange (task : FDRTask) (ctx : FDRContext) (fact : FDRFact) : Prop :=
  fact.var ∈ task.fluentVariables ∧ fact.var < task.fluentVariables.length ∧
    ∃ atoms, ctx.repo.atomsOf fact.var = some atoms ∧ fact.value < atoms.length + 1

/-- The effects of the kept actions are about reachable atoms. -/
def EffectsReachable (input : Input) : Prop :=
  ∀ fact ∈ input.solved.facts, ∀ action, predicateToAction input.task fact.relation = some action →
    Kept input fact.objects (input.task.actions.get action).condition →
      ∀ instance_, KeptInstance input (input.task.actions.get action) fact.objects instance_ →
        ∀ literal ∈ instance_.1.effect.literals,
          literal.atom.ground (fact.objects ++ instance_.2) ∈ input.fluentTuples

section

variable {input : Input} {task : FDRTask} {ctx : FDRContext} {fact : FDRFact} {tuple : Tuple}
  {binding : List Nat}

/-- A fact is in range if its atom is reachable. -/
theorem Instantiates.inRange_iff (instantiates : Instantiates input task ctx)
    (isFact : FactOf ctx tuple fact) : task.InRange ctx fact ↔ tuple ∈ input.fluentTuples := by
  rw [FDRTask.InRange, instantiates.fluentVariables, instantiates.encoded.listed_iff isFact]
  refine and_iff_left_of_imp fun reachable => ?_
  have listed := (instantiates.encoded.listed_iff isFact).mpr reachable
  obtain ⟨atom, _, found⟩ := isFact
  obtain ⟨_, atoms, isVariable, inDomain, _⟩ :=
    instantiates.encoded.represents.stores atom fact found
  exact ⟨(encoded_fdrContext input).2 fact.var listed, atoms, isVariable, inDomain⟩

theorem Instantiates.conditionFacts_inRange (instantiates : Instantiates input task ctx)
    {condition : ConjunctiveCondition} {result : GroundConjunctiveCondition}
    (possible : Possible input.reached input.fluentTuples binding condition)
    (isGround : IsGround input.reached input.fluentTuples binding ctx condition result) :
    ∀ fact ∈ conditionFacts result, task.InRange ctx fact := by
  intro fact mem
  rcases List.mem_append.mp mem with positive | negative
  · obtain ⟨literal, known, isPositive, isFact⟩ := (isGround.positive fact).mp positive
    exact (instantiates.inRange_iff isFact).mpr (possible.fluent literal known isPositive)
  · obtain ⟨literal, _, ⟨_, reachable⟩, isFact⟩ := (isGround.negative fact).mp negative
    exact (instantiates.inRange_iff isFact).mpr reachable

/-- The facts of an effect are in range if its atoms are reachable. -/
theorem Instantiates.effectFacts_inRange (instantiates : Instantiates input task ctx)
    {effect : ConditionalEffect} {result : GroundConditionalEffect}
    (isGround : IsGroundEffect input.reached input.fluentTuples binding ctx effect result) :
    (∀ fact ∈ effectFacts result, task.InRange ctx fact) ↔
      ∀ literal ∈ effect.effect.literals, literal.atom.ground binding ∈ input.fluentTuples := by
  constructor
  · intro inRange literal mem
    obtain ⟨fact, isFact⟩ := isGround.defined literal mem
    refine (instantiates.inRange_iff isFact).mp (inRange fact ?_)
    cases polarity : literal.polarity with
    | true =>
        have added := (isGround.positive fact).mpr ⟨literal, mem, polarity, isFact⟩
        exact List.mem_append_left _ (List.mem_append_right _ added)
    | false =>
        have deleted := (isGround.negative fact).mpr ⟨literal, mem, polarity, isFact⟩
        exact List.mem_append_right _ deleted
  · intro reachable fact mem
    rcases List.mem_append.mp mem with others | deleted
    · rcases List.mem_append.mp others with inCondition | added
      · exact instantiates.conditionFacts_inRange isGround.possible isGround.condition fact inCondition
      · obtain ⟨literal, known, _, isFact⟩ := (isGround.positive fact).mp added
        exact (instantiates.inRange_iff isFact).mpr (reachable literal known)
    · obtain ⟨literal, known, _, isFact⟩ := (isGround.negative fact).mp deleted
      exact (instantiates.inRange_iff isFact).mpr (reachable literal known)

/-- The conditions are about reachable atoms, so it depends on the effects only. -/
theorem Instantiates.facts_inRange_iff (instantiates : Instantiates input task ctx) :
    (∀ fact ∈ task.facts, task.InRange ctx fact) ↔ EffectsReachable input := by
  constructor
  · intro inRange fact mem action found kept instance_ keptInstance literal isLiteral
    have hasAction : HasAction input fact :=
      ⟨action, found, kept, instance_, keptInstance, List.ne_nil_of_mem isLiteral⟩
    obtain ⟨bound, known, action', found', _, isGround⟩ :=
      instantiates.actions.complete fact mem hasAction
    obtain rfl := Option.some.inj (found.symm.trans found')
    obtain ⟨result, inEffects, isResult⟩ := isGround.effects.complete instance_ keptInstance.1
      keptInstance.2 (List.ne_nil_of_mem isLiteral)
    refine (instantiates.effectFacts_inRange isResult).mp (fun other isFact => ?_) literal isLiteral
    refine inRange other (List.mem_append_left _ (List.mem_append_right _ ?_))
    refine List.mem_flatMap.mpr ⟨bound, known, List.mem_append_right _ ?_⟩
    exact List.mem_flatMap.mpr ⟨result, inEffects, isFact⟩
  · intro reachable fact mem
    rcases List.mem_append.mp mem with others | ofAxioms
    · rcases List.mem_append.mp others with ofGoal | ofActions
      · exact instantiates.conditionFacts_inRange instantiates.possible instantiates.goal fact ofGoal
      · obtain ⟨bound, known, isFact⟩ := List.mem_flatMap.mp ofActions
        obtain ⟨origin, inFacts, action, found, kept, isGround⟩ :=
          instantiates.actions.sound bound known
        rcases List.mem_append.mp isFact with inCondition | inEffects
        · exact instantiates.conditionFacts_inRange kept.1 isGround.condition fact inCondition
        · obtain ⟨effect, inAction, isFact⟩ := List.mem_flatMap.mp inEffects
          obtain ⟨instance_, isInstance, isResult⟩ := isGround.effects.sound effect inAction
          refine (instantiates.effectFacts_inRange isResult).mpr ?_ fact isFact
          exact reachable origin inFacts action found kept instance_ ⟨isInstance, isResult.possible⟩
    · obtain ⟨bound, known, isFact⟩ := List.mem_flatMap.mp ofAxioms
      obtain ⟨origin, _, ax, _, kept, isGround⟩ := instantiates.axioms.sound bound known
      exact instantiates.conditionFacts_inRange kept.1 isGround fact isFact

end

/-- All facts of the ground task are in range exactly if there is no ground task, or the
effects of the kept actions are about reachable atoms. -/
theorem instantiateGroundTask_inRange_iff (input : Input) :
    (∀ task ctx, instantiateGroundTask input = some (task, ctx) →
      ∀ fact ∈ task.facts, task.InRange ctx fact) ↔
    (Possible input.reached input.fluentTuples [] input.task.goal → EffectsReachable input) := by
  obtain ⟨isSome, instantiates⟩ := instantiateGroundTask_spec input
  constructor
  · intro inRange possible
    obtain ⟨⟨task, ctx⟩, result⟩ := Option.isSome_iff_exists.mp (isSome.mpr possible)
    exact (instantiates task ctx result).facts_inRange_iff.mp (inRange task ctx result)
  · intro reachable task ctx result
    have isInstance := instantiates task ctx result
    exact isInstance.facts_inRange_iff.mpr (reachable isInstance.possible)

/-- Deletes the atom `r`. -/
def deleteR : Action where
  arity := 0
  effects := [{ effect := { literals := [⟨⟨0, []⟩, false⟩] } }]
  closed := ConjunctiveCondition.closed_empty

theorem deleteR_closed : ∀ action ∈ [deleteR], ∀ effect ∈ action.effects,
    ∀ literal ∈ effect.effect.literals, ∀ index, .parameter index ∈ literal.atom.terms →
      index < action.arity + effect.arity := by
  intro action mem effect memEffect literal memLiteral index occurs
  obtain rfl := List.mem_singleton.mp mem
  obtain rfl := List.mem_singleton.mp memEffect
  obtain rfl := List.mem_singleton.mp memLiteral
  cases occurs

theorem noAxiom_closed : ∀ ax ∈ ([] : List Axiom), ∀ index, .parameter index ∈ ax.head.terms →
    index < ax.arity :=
  List.forall_mem_nil _

/-- The action `a` deletes the atom `r`, which nothing adds. -/
def deleteTask : NamedTask where
  objects := []
  arity _ := 0
  staticAtoms := []
  fluentAtoms := []
  staticFtermValues := []
  fluentFtermValues := []
  actions := [deleteR]
  axioms := []
  goal := { fluentLiterals := [⟨⟨0, []⟩, false⟩] }
  effects_closed := deleteR_closed
  heads_closed := noAxiom_closed
  fluentPredicates := [0]
  derivedPredicates := []
  predicateName _ := "r"
  actionName _ := "a"
  actionIndex := Fin.val
  axiomIndex := Fin.val

def deleteAction : Fin deleteTask.actions.length := ⟨0, Nat.zero_lt_one⟩

/-- The only fact is that the action is applicable. -/
def applicableFact : Tuple := ⟨GroundTaskProgram.actionPredicate deleteTask deleteAction, []⟩

theorem mem_facts_deleteTask {literals : Canonicalization Literal} {fact : Tuple} :
    fact ∈ [applicableFact] ↔ fact ∈ GroundTaskProgram.facts deleteTask literals := by
  have onlyRule : GroundTaskProgram.rules deleteTask literals =
      [GroundTaskProgram.createActionRule deleteTask literals deleteAction] := rfl
  have head : ∀ binding, (GroundTaskProgram.createActionRule deleteTask literals
      deleteAction).head.ground binding = applicableFact := fun _ => rfl
  constructor
  · intro mem
    rw [List.mem_singleton.mp mem, ← head []]
    refine GroundTaskProgram.head_mem_facts (onlyRule ▸ List.mem_singleton_self _)
      ⟨rfl, List.forall_mem_nil _⟩ ?_
    exact GroundTaskProgram.bodyHolds_nil.canonicalize
  · intro derived
    have covers : GroundTaskProgram.facts deleteTask literals ⊆ {fact | fact ∈ [applicableFact]} := by
      apply perfectModel_subset
      · intro fact mem
        cases mem
      intro layer isLayer clause isClause _
      obtain rfl := List.mem_singleton.mp isLayer
      obtain ⟨rule, isRule, binding, _, rfl⟩ := isClause
      rw [onlyRule] at isRule
      obtain rfl := List.mem_singleton.mp isRule
      exact List.mem_singleton.mpr (head binding)
    exact covers derived

noncomputable def deleteInput : Input where
  task := deleteTask
  solved := ⟨[applicableFact], List.nodup_singleton _⟩
  invariants := []
  options := {}
  repository :=
    { staticAtom := fun _ => 0
      fluentFact := fun _ => ⟨0, 1⟩
      derivedAtom := fun _ => 0
      staticFterm := fun _ => 0
      fluentFterm := fun _ => 0
      greater := fun _ _ => false
      arguments := .classical _
      numericEffects := .classical _
      conditionalEffects := .classical _ }
  start := Formalism.Repository.branch (.root planningSchema)
  start_reachable := .branch .root
  start_noVariables var := by
    refine Option.map_eq_none_iff.mpr (Option.eq_none_iff_forall_ne_some.mpr fun data found => ?_)
    cases (Formalism.Repository.get_root var).symm.trans (Formalism.Repository.get_of_branch found)

theorem not_mem_fluentTuples_deleteInput : ⟨0, []⟩ ∉ deleteInput.fluentTuples := by
  rw [Input.mem_fluentTuples]
  rintro ⟨fact, mem, isAtom⟩
  obtain rfl := List.mem_singleton.mp mem
  obtain ⟨predicate, found, same⟩ := Option.map_eq_some_iff.mp isAtom
  unfold fluentToFluentPredicate at found
  have relation := List.find?_some found
  rw [beq_iff_eq] at relation
  have sameData := (GroundTaskProgram.predicateIndex_inj
    (GroundTaskProgram.actionData_mem deleteAction)).mp relation.symm
  have sameName : createApplicabilityName "a" 0 = "r" := congrArg PredicateData.name sameData
  have sameHead := congrArg (fun name => name.toList.head?) sameName
  simp [createApplicabilityName] at sameHead

/-- The fact of the deleted atom is not in range, although the facts are exactly those of the
least model of the program. -/
theorem deleteTask_not_inRange : ¬ ∀ (literals : Canonicalization Literal) (input : Input)
    (task : FDRTask) (ctx : FDRContext),
    (∀ fact, fact ∈ input.solved.facts ↔ fact ∈ GroundTaskProgram.facts input.task literals) →
      instantiateGroundTask input = some (task, ctx) → ∀ fact ∈ task.facts, task.InRange ctx fact := by
  intro claim
  obtain ⟨isSome, instantiates⟩ := instantiateGroundTask_spec deleteInput
  have goal : Possible deleteInput.reached deleteInput.fluentTuples [] deleteTask.goal := by
    refine ⟨fun literal mem positive => ?_, List.forall_mem_nil _⟩
    rw [List.mem_singleton.mp mem] at positive
    cases positive
  have precondition : Kept deleteInput [] {} :=
    ⟨⟨List.forall_mem_nil _, List.forall_mem_nil _⟩,
      List.forall_mem_nil _, List.forall_mem_nil _, List.forall_mem_nil _⟩
  obtain ⟨⟨task, ctx⟩, result⟩ := Option.isSome_iff_exists.mp (isSome.mpr goal)
  have reachable := (instantiates task ctx result).facts_inRange_iff.mp
    (claim (.classical _) _ task ctx (fun _ => mem_facts_deleteTask) result)
  have found : predicateToAction deleteTask applicableFact.relation = some deleteAction := by
    have onlyAction : List.finRange deleteTask.actions.length = [deleteAction] := rfl
    rw [predicateToAction, onlyAction]
    exact List.find?_cons_of_pos (beq_self_eq_true _)
  apply not_mem_fluentTuples_deleteInput
  exact reachable applicableFact (List.mem_singleton_self _) deleteAction found precondition (_, [])
    ⟨List.mem_singleton_self _, List.forall_mem_nil _, List.forall_mem_nil _⟩ ⟨⟨0, []⟩, false⟩
    (List.mem_singleton_self _)

end TaskGrounder

end Tyr.Planning
