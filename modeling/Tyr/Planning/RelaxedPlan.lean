import Tyr.Formalism.Planning.Grounder
import Mathlib.Logic.Equiv.List
import Tyr.Lib.Fold
import Tyr.Planning.ActionExecutor

/-!
Relaxed plan extraction and the shared cache of ground actions.

The FF heuristic follows the witnesses of the annotated relaxed planning graph.
The row of a witness binds the parameters of an action and the quantified
variables of one of its effects, and the action is grounded with the whole row.
The successor generator grounds actions from the same cache, with their
parameters only.

* `Session` — the cache together with the groundings asked for so far.
* `extract`, `evaluate` — relaxed plan extraction.
* `labeledSuccessors` — the successor generator.
* `cacheExact_iff` — the cache holds exactly the instantiations of its keys if and
  only if every binding is first asked for with a harmless row, and then earlier
  evaluations do not change the successors.
-/

namespace Tyr.Planning

open Tyr.Lib Tyr.Formalism Tyr.Formalism.Planning

/-! ### The task -/

/-- A lifted task. `applicableBindings` lists the bindings that the applicable
action program enumerates for a state, and `ruleLiterals` orders the body of a
rule of the relaxed program. -/
structure LiftedTask where
  task : Task
  repository : Repository
  actions : List Action
  effectDomains : EffectDomains
  ruleLiterals : Canonicalization Literal
  applicableBindings : UnpackedState → List (Fin actions.length × List Nat)
  bindings_length : ∀ state, ∀ binding ∈ applicableBindings state,
    binding.2.length = (actions.get binding.1).arity

namespace LiftedTask

variable (task : LiftedTask)

/-- The ground action of a schema under a whole binding. -/
def instantiate (action : Fin task.actions.length) (binding : List Nat) : GroundAction :=
  (task.actions.get action).instantiate task.repository task.effectDomains binding

end LiftedTask

/-! ### The relaxed program -/

/-- A rule of the relaxed program: negative, derived and numeric conditions are dropped.
Variables have no names, so rules that differ only in them are the same. -/
structure RelaxedRule where
  arity : Nat
  staticLiterals : List Literal
  fluentLiterals : List Literal
  head : Atom
deriving DecidableEq

/-- `create_cond_effect_rule`: the parameters of the action are followed by the
quantified variables of the effect. -/
def createCondEffectRule (literals : Canonicalization Literal) (action : Action)
    (effect : ConditionalEffect) (head : Atom) : RelaxedRule where
  arity := action.arity + effect.arity
  staticLiterals := literals.canonicalize
    (action.condition.staticLiterals ++ effect.condition.staticLiterals)
  fluentLiterals := literals.canonicalize
    ((action.condition.fluentLiterals ++ effect.condition.fluentLiterals).filter Literal.polarity)
  head := head

namespace LiftedTask

variable (task : LiftedTask)

/-- The rules with their actions: one rule for each added atom. -/
def relaxedRules : List (RelaxedRule × Fin task.actions.length) :=
  (List.finRange task.actions.length).flatMap fun index =>
    let action := task.actions.get index
    action.effects.flatMap fun effect =>
      (effect.effect.literals.filter Literal.polarity).map fun literal =>
        (createCondEffectRule task.ruleLiterals action effect literal.atom, index)

/-- The first action that a rule was created for. -/
def ruleToAction (rule : RelaxedRule) : Option (Fin task.actions.length) :=
  (task.relaxedRules.find? fun entry => entry.1 = rule).map Prod.snd

end LiftedTask

/-- The rule and the row of objects that an atom was derived with. -/
structure Witness where
  rule : RelaxedRule
  row : List Nat

/-- The annotated relaxed planning graph of a state: the witnesses of the derived
atoms, the goal atoms, and the number of its atoms. -/
structure RelaxedPlanningGraph where
  witness : Tuple → Option Witness
  goals : List Tuple
  numAtoms : Nat

/-- Witnesses are instances of rules of the relaxed program that derive the atom. -/
def RelaxedPlanningGraph.Sound (graph : RelaxedPlanningGraph) (task : LiftedTask) : Prop :=
  ∀ atom witness, graph.witness atom = some witness →
    (∃ action, (witness.rule, action) ∈ task.relaxedRules) ∧
      witness.row.length = witness.rule.arity ∧ witness.rule.head.ground witness.row = atom

/-! ### Sessions -/

/-- An action is grounded with a binding, which may be longer than its parameter list. -/
structure Request (task : LiftedTask) where
  action : Fin task.actions.length
  binding : List Nat

/-- The key of a request in the cache. -/
def Request.key {task : LiftedTask} (request : Request task) : ActionBinding :=
  ⟨request.action, request.binding.take (task.actions.get request.action).arity⟩

/-- The shared cache and the groundings asked for so far, in their order. -/
structure Session (task : LiftedTask) where
  cache : GrounderCache
  requests : List (Request task)

namespace Session

variable {task : LiftedTask}

def initial (task : LiftedTask) : Session task := ⟨GrounderCache.empty, []⟩

/-- Ground an action through the cache. -/
def ground (session : Session task) (request : Request task) : GroundAction × Session task :=
  let result := session.cache.ground task.repository task.effectDomains request.action
    (task.actions.get request.action) request.binding
  (result.1, ⟨result.2, session.requests ++ [request]⟩)

end Session

/-! ### Relaxed plan extraction -/

/-- The state of the extraction. -/
structure Extraction (task : LiftedTask) where
  session : Session task
  marked : List Tuple
  relaxedPlan : List GroundAction
  preferredActions : List GroundAction

variable {task : LiftedTask}

/-- Ground the action of a witness and add it to the relaxed plan. -/
def groundWitness (context : StateContext) (extraction : Extraction task)
    (action : Fin task.actions.length) (row : List Nat) : Extraction task :=
  let result := extraction.session.ground ⟨action, row⟩
  { extraction with
    session := result.2
    relaxedPlan := result.1 :: extraction.relaxedPlan
    preferredActions :=
      if isApplicable context result.1 then result.1 :: extraction.preferredActions
      else extraction.preferredActions }

/-- `extract_relaxed_plan_and_preferred_actions`: an atom that is marked or has no
witness ends the recursion. `fuel` bounds the depth. -/
def extract (graph : RelaxedPlanningGraph) (context : StateContext) :
    (fuel : Nat) → Tuple → Extraction task → Extraction task
  | 0, _, extraction => extraction
  | fuel + 1, atom, extraction =>
      if atom ∈ extraction.marked then
        extraction
      else
        let extraction := { extraction with marked := atom :: extraction.marked }
        match graph.witness atom with
        | none => extraction
        | some witness =>
            let extraction :=
              match task.ruleToAction witness.rule with
              | some action => groundWitness context extraction action witness.row
              | none => extraction
            witness.rule.fluentLiterals.foldl (fun extraction literal =>
              extract graph context fuel (literal.atom.ground witness.row) extraction) extraction

/-- `FFRPGHeuristic::evaluate`, after the relaxed planning graph has been built:
extract from every goal atom. Every level of the recursion marks another atom. -/
def evaluate (session : Session task) (graph : RelaxedPlanningGraph) (state : UnpackedState) :
    Extraction task :=
  graph.goals.foldl (fun extraction atom =>
      extract graph ⟨task.task, state, .finite 0⟩ (graph.numAtoms + 1) atom extraction)
    ⟨session, [], [], []⟩

/-! ### The successor generator -/

/-- A successor node and the ground action that leads to it. -/
structure LabeledSuccessor where
  binding : ActionBinding
  action : GroundAction
  node : UnpackedNode

/-- Ground an enumerated binding and keep it if its numeric effects are accepted. -/
def addSuccessor (context : StateContext) (result : List LabeledSuccessor × Session task)
    (binding : Fin task.actions.length × List Nat) : List LabeledSuccessor × Session task :=
  let request : Request task := ⟨binding.1, binding.2⟩
  let grounded := result.2.ground request
  if isApplicableIfFires context grounded.1.effects then
    (result.1 ++ [⟨request.key, grounded.1, applyAction context grounded.1⟩], grounded.2)
  else
    (result.1, grounded.2)

/-- `get_labeled_successor_nodes`. -/
def labeledSuccessors (session : Session task) (node : UnpackedNode) :
    List LabeledSuccessor × Session task :=
  (task.applicableBindings node.state).foldl
    (addSuccessor (nodeContext task.task node)) ([], session)

/-! ### Histories -/

/-- A use of the shared cache. -/
inductive Call where
  | evaluate (graph : RelaxedPlanningGraph) (state : UnpackedState)
  | expand (node : UnpackedNode)

def Session.call (session : Session task) : Call → Session task
  | .evaluate graph state => (Planning.evaluate session graph state).session
  | .expand node => (labeledSuccessors session node).2

/-- The session after a sequence of calls. -/
def sessionAfter (task : LiftedTask) (history : List Call) : Session task :=
  history.foldl Session.call (Session.initial task)

/-! ### The cache as a function of the requests -/

/-- The cache after a list of requests. -/
def replay (requests : List (Request task)) : GrounderCache :=
  requests.foldl (fun cache request =>
    (cache.ground task.repository task.effectDomains request.action
      (task.actions.get request.action) request.binding).2) GrounderCache.empty

/-- The cache of a session is the result of its requests. -/
def Session.Replayed (session : Session task) : Prop := session.cache = replay session.requests

theorem Session.Replayed.ground {session : Session task} (replayed : session.Replayed)
    (request : Request task) : (session.ground request).2.Replayed := by
  simp only [Session.Replayed, Session.ground, replay, List.foldl_append, List.foldl_cons,
    List.foldl_nil]
  rw [show session.cache = _ from replayed]
  rfl

theorem replayed_extract (graph : RelaxedPlanningGraph) (context : StateContext) (fuel : Nat)
    (atom : Tuple) {extraction : Extraction task} (replayed : extraction.session.Replayed) :
    (extract graph context fuel atom extraction).session.Replayed := by
  induction fuel generalizing atom extraction with
  | zero => exact replayed
  | succ fuel ih =>
      rw [extract]
      split
      · exact replayed
      · cases graph.witness atom with
        | none => exact replayed
        | some witness =>
            dsimp only
            apply foldl_invariant (P := fun extraction : Extraction task =>
              extraction.session.Replayed)
            · intro extraction before literal _
              exact ih _ before
            · cases task.ruleToAction witness.rule with
              | none => exact replayed
              | some action => exact Session.Replayed.ground replayed ⟨action, witness.row⟩

theorem replayed_evaluate {session : Session task} (replayed : session.Replayed)
    (graph : RelaxedPlanningGraph) (state : UnpackedState) :
    (evaluate session graph state).session.Replayed := by
  unfold evaluate
  apply foldl_invariant (P := fun extraction : Extraction task => extraction.session.Replayed)
  · intro extraction before atom _
    exact replayed_extract graph _ _ atom before
  · exact replayed

theorem replayed_addSuccessor (context : StateContext)
    {result : List LabeledSuccessor × Session task} (replayed : result.2.Replayed)
    (binding : Fin task.actions.length × List Nat) :
    (addSuccessor context result binding).2.Replayed := by
  have grounded := replayed.ground ⟨binding.1, binding.2⟩
  simp only [addSuccessor]
  split
  · exact grounded
  · exact grounded

theorem replayed_labeledSuccessors {session : Session task} (replayed : session.Replayed)
    (node : UnpackedNode) : (labeledSuccessors session node).2.Replayed := by
  unfold labeledSuccessors
  apply foldl_invariant (P := fun result : List LabeledSuccessor × Session task =>
    result.2.Replayed)
  · intro result before binding _
    exact replayed_addSuccessor _ before binding
  · exact replayed

theorem replayed_sessionAfter (task : LiftedTask) (history : List Call) :
    (sessionAfter task history).Replayed := by
  unfold sessionAfter
  apply foldl_invariant (P := Session.Replayed)
  · intro session before call _
    cases call with
    | evaluate graph state => exact replayed_evaluate before graph state
    | expand node => exact replayed_labeledSuccessors before node
  · rfl

/-- The cache holds for every key the ground action of the first request with it. -/
theorem replay_eq (requests : List (Request task)) (key : ActionBinding) :
    replay requests key =
      (requests.find? fun request => request.key = key).map fun request =>
        task.instantiate request.action request.binding := by
  induction requests using List.reverseRecOn with
  | nil => rfl
  | append_singleton requests request ih =>
      rw [replay, List.foldl_append, List.foldl_cons, List.foldl_nil, List.find?_append]
      change (GrounderCache.ground (replay requests) _ _ _ _ _).2 key = _
      by_cases same : request.key = key
      · have lookup : replay requests request.key = replay requests key := by rw [same]
        cases found : requests.find? fun request => request.key = key with
        | some first =>
            rw [found] at ih
            simp only [GrounderCache.ground]
            rw [show replay requests ⟨request.action, _⟩ = _ from lookup, ih]
            simp [ih]
        | none =>
            rw [found] at ih
            simp only [GrounderCache.ground]
            rw [show replay requests ⟨request.action, _⟩ = _ from lookup, ih]
            rw [show (⟨request.action, _⟩ : ActionBinding) = _ from same]
            simp [same, LiftedTask.instantiate]
      · have other : (GrounderCache.ground (replay requests) task.repository task.effectDomains
            request.action (task.actions.get request.action) request.binding).2 key =
            replay requests key := by
          simp only [GrounderCache.ground]
          split
          · rfl
          · exact Function.update_of_ne (Ne.symm same) _ _
        rw [other, ih]
        simp [same]

/-! ### Exact caches -/

/-- Every cached ground action is the instantiation of its action under exactly
the objects of its key. -/
def CacheExact (task : LiftedTask) (cache : GrounderCache) : Prop :=
  ∀ (action : Fin task.actions.length) (objects : List Nat) (groundAction : GroundAction),
    cache ⟨action, objects⟩ = some groundAction →
      groundAction = task.instantiate action objects

/-- The conditional effects have the same instances under the whole binding as
under the parameters of the action alone. -/
def Harmless (request : Request task) : Prop :=
  let action := task.actions.get request.action
  ∀ effect,
    effect ∈ action.instances task.repository task.effectDomains request.binding ↔
      effect ∈ action.instances task.repository task.effectDomains
        (request.binding.take action.arity)

/-- A binding of the parameters alone is harmless. -/
theorem harmless_of_length_le {request : Request task}
    (noRest : request.binding.length ≤ (task.actions.get request.action).arity) :
    Harmless request := by
  simp only [Harmless, List.take_of_length_le noRest, implies_true]

theorem instantiate_take_eq_iff_harmless (request : Request task) :
    task.instantiate request.action request.binding =
        task.instantiate request.action
          (request.binding.take (task.actions.get request.action).arity) ↔
      Harmless request :=
  (task.actions.get request.action).instantiate_take_eq_iff task.repository task.effectDomains
    request.binding

/-- Every binding is first asked for with a harmless row. -/
def FirstRequestsHarmless (requests : List (Request task)) : Prop :=
  ∀ earlier request, earlier ++ [request] <+: requests →
    (∀ other ∈ earlier, other.key ≠ request.key) → Harmless request

theorem cacheExact_replay_iff (requests : List (Request task)) :
    CacheExact task (replay requests) ↔ FirstRequestsHarmless requests := by
  constructor
  · rintro exact earlier request ⟨later, rfl⟩ first
    have found : (earlier ++ [request] ++ later).find? (fun other => other.key = request.key) =
        some request := by
      apply List.find?_eq_some_iff_append.mpr
      refine ⟨by simp, earlier, later, by simp, ?_⟩
      intro other mem
      simpa using first other mem
    have cached := exact request.action
      (request.binding.take (task.actions.get request.action).arity)
      (task.instantiate request.action request.binding)
      ((replay_eq _ request.key).trans (by rw [found]; rfl))
    exact (instantiate_take_eq_iff_harmless request).mp cached
  · intro harmless action objects groundAction cached
    rw [replay_eq] at cached
    obtain ⟨request, found, rfl⟩ := Option.map_eq_some_iff.mp cached
    obtain ⟨sameKey, earlier, later, split, first⟩ := List.find?_eq_some_iff_append.mp found
    have sameKey : request.key = ⟨action, objects⟩ := by simpa using sameKey
    have isFirst : ∀ other ∈ earlier, other.key ≠ request.key := by
      intro other mem
      rw [sameKey]
      simpa using first other mem
    have inRequests : earlier ++ [request] <+: requests := ⟨later, by simp [split]⟩
    have same := (instantiate_take_eq_iff_harmless request).mpr
      (harmless earlier request inRequests isFirst)
    obtain ⟨sameAction, sameObjects⟩ := ActionBinding.mk.inj sameKey
    rw [same, sameObjects, Fin.ext sameAction]

/-! ### Successors -/

/-- With an exact cache, a binding of the parameters is grounded to its
instantiation, and the cache stays exact. -/
theorem ground_of_cacheExact {session : Session task} (exact : CacheExact task session.cache)
    (request : Request task)
    (parameters : request.binding.length = (task.actions.get request.action).arity) :
    (session.ground request).1 = task.instantiate request.action request.binding ∧
      CacheExact task (session.ground request).2.cache := by
  have key : request.binding.take (task.actions.get request.action).arity = request.binding :=
    List.take_of_length_le parameters.le
  simp only [Session.ground, GrounderCache.ground, key]
  cases cached : session.cache ⟨request.action, request.binding⟩ with
  | some groundAction => exact ⟨exact _ _ _ cached, exact⟩
  | none =>
      constructor
      · rfl
      · intro action objects groundAction found
        dsimp only at found
        by_cases same : (⟨action, objects⟩ : ActionBinding) = ⟨request.action, request.binding⟩
        · rw [same, Function.update_self] at found
          obtain ⟨sameAction, sameObjects⟩ := ActionBinding.mk.inj same
          rw [← Option.some.inj found, Fin.ext sameAction, sameObjects]
          rfl
        · rw [Function.update_of_ne same] at found
          exact exact action objects groundAction found

/-- The successor of a binding, if its numeric effects are accepted. -/
def successor (task : LiftedTask) (context : StateContext)
    (binding : Fin task.actions.length × List Nat) : Option LabeledSuccessor :=
  let action := task.instantiate binding.1 binding.2
  if isApplicableIfFires context action.effects then
    some ⟨(⟨binding.1, binding.2⟩ : Request task).key, action, applyAction context action⟩
  else
    none

/-- With an exact cache the successor generator lists the successors of the
enumerated bindings. -/
theorem labeledSuccessors_of_cacheExact {session : Session task}
    (exact : CacheExact task session.cache) (node : UnpackedNode) :
    (labeledSuccessors session node).1 =
      (task.applicableBindings node.state).filterMap
        (successor task (nodeContext task.task node)) := by
  suffices loop : ∀ (bindings : List (Fin task.actions.length × List Nat)),
      (∀ binding ∈ bindings, binding.2.length = (task.actions.get binding.1).arity) →
      ∀ (found : List LabeledSuccessor) (session : Session task), CacheExact task session.cache →
        (bindings.foldl (addSuccessor (nodeContext task.task node)) (found, session)).1 =
          found ++ bindings.filterMap (successor task (nodeContext task.task node)) by
    exact loop _ (task.bindings_length node.state) [] session exact
  intro bindings
  induction bindings with
  | nil =>
      intro _ found session _
      rw [List.foldl_nil, List.filterMap_nil, List.append_nil]
  | cons binding rest ih =>
      intro lengths found session exact
      have ih := ih fun other mem => lengths other (List.mem_cons_of_mem _ mem)
      obtain ⟨grounded, stillExact⟩ := ground_of_cacheExact exact ⟨binding.1, binding.2⟩
        (lengths binding List.mem_cons_self)
      rw [List.foldl_cons, List.filterMap_cons, successor]
      simp only [addSuccessor]
      rw [grounded]
      split
      · rw [ih _ _ stillExact, List.append_assoc]
        rfl
      · exact ih _ _ stillExact

/-- The cache after any calls is exact if and only if every binding was first asked
for with a harmless row. An exact cache gives the successors that the empty cache gives. -/
theorem cacheExact_iff (task : LiftedTask) (history : List Call) :
    (CacheExact task (sessionAfter task history).cache ↔
        FirstRequestsHarmless (sessionAfter task history).requests) ∧
      (CacheExact task (sessionAfter task history).cache → ∀ node,
        (labeledSuccessors (sessionAfter task history) node).1 =
          (labeledSuccessors (Session.initial task) node).1) := by
  constructor
  · rw [show (sessionAfter task history).cache = _ from replayed_sessionAfter task history]
    exact cacheExact_replay_iff _
  · intro exact node
    have emptyExact : CacheExact task (Session.initial task).cache := by
      intro action objects groundAction cached
      cases cached
    rw [labeledSuccessors_of_cacheExact exact, labeledSuccessors_of_cacheExact emptyExact]

/-! ### A harmful row -/

/-- Opens every door, whatever its state. -/
def openAll : Action where
  arity := 0
  effects := [{ arity := 1, effect := { literals := [⟨⟨0, [.parameter 0]⟩, true⟩] } }]
  closed := ConjunctiveCondition.closed_empty

/-- Two doors and the action that opens them. -/
noncomputable def openDoors : LiftedTask where
  task :=
    { staticAtoms := fun _ => false
      staticValues := fun _ => .nan
      fluentFacts := []
      fluentFtermValues := []
      auxiliaryFtermValue := none
      metric := none
      axiomEvaluator := fun _ _ => false }
  repository :=
    { staticAtom := fun tuple => Encodable.encode (tuple.relation, tuple.objects)
      fluentFact := fun tuple => ⟨Encodable.encode (tuple.relation, tuple.objects), 1⟩
      derivedAtom := fun tuple => Encodable.encode (tuple.relation, tuple.objects)
      staticFterm := fun tuple => Encodable.encode (tuple.relation, tuple.objects)
      fluentFterm := fun tuple => Encodable.encode (tuple.relation, tuple.objects)
      greater := fun _ _ => false
      arguments := .classical _
      numericEffects := .classical _
      conditionalEffects := .classical _ }
  actions := [openAll]
  effectDomains := fun _ => [[0, 1]]
  ruleLiterals := .classical _
  applicableBindings := fun _ => [(0, [])]
  bindings_length := by simp [openAll]

/-- The rule that derives an open door. -/
noncomputable def openRule : RelaxedRule :=
  createCondEffectRule openDoors.ruleLiterals openAll (openAll.effects.head (by simp [openAll]))
    ⟨0, [.parameter 0]⟩

/-- Every open door is derived by the rule, and the goal is the first one. -/
noncomputable def openGraph : RelaxedPlanningGraph where
  witness := fun atom =>
    match atom with
    | ⟨0, [door]⟩ => some ⟨openRule, [door]⟩
    | _ => none
  goals := [⟨0, [0]⟩]
  numAtoms := 2

/-- The only action of the task. -/
def openDoors_action : Fin openDoors.actions.length := ⟨0, Nat.zero_lt_one⟩

theorem openDoors_relaxedRules : openDoors.relaxedRules = [(openRule, openDoors_action)] := rfl

theorem openGraph_sound : openGraph.Sound openDoors := by
  intro atom witness derived
  simp only [openGraph] at derived
  split at derived
  · rw [← Option.some.inj derived]
    exact ⟨⟨openDoors_action, by simp [openDoors_relaxedRules]⟩, rfl, rfl⟩
  · cases derived

/-- The evaluation asks for the action with the door of the goal. -/
theorem openDoors_requests (state : UnpackedState) :
    sessionAfter openDoors [.evaluate openGraph state] =
      ((Session.initial openDoors).ground (⟨openDoors_action, [0]⟩ : Request openDoors)).2 := by
  have action : openDoors.ruleToAction openRule = some openDoors_action := by
    simp [LiftedTask.ruleToAction, openDoors_relaxedRules]
  have body : openRule.fluentLiterals = [] := by
    simp [openRule, createCondEffectRule, openAll]
  simp [sessionAfter, Session.call, evaluate, openGraph, extract, action, body, groundWitness]

theorem openDoors_isApplicable (context : StateContext) (binding : List Nat) :
    isApplicableIfFires context (openDoors.instantiate openDoors_action binding).effects := by
  apply isApplicableIfFires_of_noNumericEffects
  intro condEffect mem
  have mem := (openDoors.repository.conditionalEffects.mem_canonicalize _ _).mp mem
  simp only [Action.instances, List.mem_flatMap, List.mem_map] at mem
  obtain ⟨effect, isEffect, bindingCond, _, rfl⟩ := mem
  rw [show effect = _ from List.mem_singleton.mp isEffect]
  exact ⟨openDoors.repository.numericEffects.canonicalize_nil, rfl⟩

/-- The row of the first door does not open the second one. -/
theorem openDoors_harmful : ¬ Harmless (⟨openDoors_action, [0]⟩ : Request openDoors) := by
  intro harmless
  let opened (door : Nat) : GroundConditionalEffect :=
    openDoors.repository.groundConditionalEffect [door]
      (openAll.effects.head (by simp [openAll]))
  have inSchema : opened 1 ∈ openAll.instances openDoors.repository openDoors.effectDomains [] := by
    simp [Action.instances, opened, openAll, openDoors, CartesianSet.elements]
  have inRow := (harmless (opened 1)).mpr inSchema
  change opened 1 ∈ openAll.instances openDoors.repository openDoors.effectDomains [0] at inRow
  -- With the row in front, every instance opens the first door.
  simp [Action.instances, opened, openAll, openDoors, CartesianSet.elements,
    Repository.groundConditionalEffect, Repository.groundEffect, Atom.ground, Term.ground] at inRow

/-- After the evaluation the successor generator returns a successor in which only
the first door is open. -/
theorem openDoors_labeledSuccessors_ne :
    ¬ ∀ (task : LiftedTask) (evaluations : List (RelaxedPlanningGraph × UnpackedState)),
      (∀ evaluation ∈ evaluations, evaluation.1.Sound task) → ∀ node,
        (labeledSuccessors (sessionAfter task (evaluations.map fun evaluation =>
            .evaluate evaluation.1 evaluation.2)) node).1 =
          (labeledSuccessors (Session.initial task) node).1 := by
  intro claim
  let node := getInitialNode openDoors.task
  have same := claim openDoors [(openGraph, node.state)] (by simp [openGraph_sound]) node
  have fresh : (labeledSuccessors (Session.initial openDoors) node).1.map
      LabeledSuccessor.action = [openDoors.instantiate openDoors_action []] := by
    have applicable := openDoors_isApplicable (nodeContext openDoors.task node) []
    rw [labeledSuccessors_of_cacheExact (by intro _ _ _ cached; cases cached)]
    change List.map _ (List.filterMap _ [(openDoors_action, [])]) = _
    simp [successor, applicable]
  have stale : (labeledSuccessors (sessionAfter openDoors
      [.evaluate openGraph node.state]) node).1.map LabeledSuccessor.action =
        [openDoors.instantiate openDoors_action [0]] := by
    have applicable := openDoors_isApplicable (nodeContext openDoors.task node) [0]
    have cached : ((sessionAfter openDoors [.evaluate openGraph node.state]).ground
        ⟨openDoors_action, []⟩).1 = openDoors.instantiate openDoors_action [0] := by
      rw [openDoors_requests]
      rfl
    change List.map _ (List.foldl _ ([], sessionAfter openDoors _) [(openDoors_action, [])]).1 = _
    simp [addSuccessor, cached, applicable]
  have actions := congrArg (List.map LabeledSuccessor.action) same
  rw [fresh] at actions
  have equal : openDoors.instantiate openDoors_action [0] =
      openDoors.instantiate openDoors_action [] := by
    simpa using stale.symm.trans actions
  exact openDoors_harmful ((instantiate_take_eq_iff_harmless
    (⟨openDoors_action, [0]⟩ : Request openDoors)).mp equal)

end Tyr.Planning
