import Tyr.Datalog.Witnesses
import Tyr.Lib.DepthFirst
import Tyr.Planning.Heuristics.RpgMax

/-!
The lifted FF heuristic.

Extraction is a depth-first traversal of the witnesses: it marks the atoms that it visits
and collects the ground actions of their witnesses. Along the witnesses the costs go
down, so the collected actions can be executed in the order of the costs of their atoms.

* `extract_eq_visit` — extraction as a traversal.
* `RelaxedRun` — runs in which deletes and negative, derived and numeric conditions are
  ignored.
* `relaxedPlan_correct` — the collected actions reach the goals.
-/

namespace Tyr.Planning

open Tyr.Lib Tyr.Formalism Tyr.Formalism.Planning

/-! ### Extraction as a traversal -/

section

variable {task : LiftedTask} (graph : RelaxedPlanningGraph) (context : StateContext)

/-- Mark an atom, and ground the action of its witness. -/
def enterAtom (extraction : Extraction task) (atom : Tuple) : Extraction task :=
  let extraction := { extraction with marked := atom :: extraction.marked }
  match graph.witness atom with
  | none => extraction
  | some witness =>
      match task.ruleToAction witness.rule with
      | some action => groundWitness context extraction action witness.row
      | none => extraction

/-- The fluent atoms of the body of the witness. -/
def witnessAtoms (atom : Tuple) : List Tuple :=
  match graph.witness atom with
  | none => []
  | some witness => witness.rule.fluentLiterals.map fun literal => literal.atom.ground witness.row

theorem marked_enterAtom (extraction : Extraction task) (atom : Tuple) :
    (enterAtom graph context extraction atom).marked = atom :: extraction.marked := by
  unfold enterAtom
  cases graph.witness atom with
  | none => rfl
  | some witness =>
      dsimp only
      cases task.ruleToAction witness.rule <;> rfl

def extraction (task : LiftedTask) : DepthFirst Tuple (Extraction task) where
  marked := Extraction.marked
  enter := enterAtom graph context
  children := witnessAtoms graph
  marked_enter := marked_enterAtom graph context

theorem extract_eq_visit (fuel : Nat) (atom : Tuple) (before : Extraction task) :
    extract graph context fuel atom before =
      (extraction graph context task).visit fuel atom before := by
  induction fuel generalizing atom before with
  | zero => rfl
  | succ fuel ih =>
      by_cases marked : atom ∈ before.marked
      · rw [extract, if_pos marked, DepthFirst.visit_of_mem marked]
      · rw [extract, if_neg marked, DepthFirst.visit_of_notMem marked, DepthFirst.visitAll]
        simp only [ih]
        change _ = (witnessAtoms graph atom).foldl _ (enterAtom graph context before atom)
        unfold witnessAtoms enterAtom
        cases graph.witness atom with
        | none => rfl
        | some witness =>
            dsimp only
            let search := Planning.extraction graph context task
            let visited (before : Extraction task) (atom : Tuple) : Extraction task :=
              search.visit fuel atom before
            let grounded (literal : Literal) : Tuple := literal.atom.ground witness.row
            exact (@List.foldl_map _ _ _ grounded visited witness.rule.fluentLiterals _).symm

/-- `evaluate` with the given fuel. -/
def evaluateWithin (fuel : Nat) (session : Session task) (state : UnpackedState) : Extraction task :=
  graph.goals.foldl (fun before atom => extract graph ⟨task.task, state, .finite 0⟩ fuel atom before)
    ⟨session, [], [], []⟩

theorem evaluateWithin_eq_visitAll (fuel : Nat) (session : Session task) (state : UnpackedState) :
    evaluateWithin graph fuel session state =
      (extraction graph ⟨task.task, state, .finite 0⟩ task).visitAll fuel graph.goals
        ⟨session, [], [], []⟩ := by
  unfold evaluateWithin DepthFirst.visitAll
  simp only [extract_eq_visit]

end

/-! ### What is collected -/

section

variable {task : LiftedTask}

/-- With an exact cache, a harmless request is answered with the instantiation of its
parameters, and the cache stays exact. -/
theorem ground_of_harmless {session : Session task} (exact : CacheExact task session.cache)
    (request : Request task) (harmless : Harmless request) :
    (session.ground request).1 = task.instantiate request.action
        (request.binding.take (task.actions.get request.action).arity) ∧
      CacheExact task (session.ground request).2.cache := by
  have same := (instantiate_take_eq_iff_harmless request).mpr harmless
  simp only [Session.ground, GrounderCache.ground]
  cases cached : session.cache ⟨request.action,
      request.binding.take (task.actions.get request.action).arity⟩ with
  | some groundAction => exact ⟨exact _ _ _ cached, exact⟩
  | none =>
      refine ⟨same, fun action objects groundAction found => ?_⟩
      dsimp only at found
      by_cases isKey : (⟨action, objects⟩ : ActionBinding) =
          ⟨request.action, request.binding.take (task.actions.get request.action).arity⟩
      · rw [isKey, Function.update_self] at found
        obtain ⟨sameAction, sameObjects⟩ := ActionBinding.mk.inj isKey
        rw [← Option.some.inj found, Fin.ext sameAction, sameObjects]
        exact same
      · rw [Function.update_of_ne isKey] at found
        exact exact action objects groundAction found

/-- The ground action of a witness is preferred if it is applicable. -/
theorem mem_preferredActions_groundWitness {context : StateContext} {before : Extraction task}
    {action : Fin task.actions.length} {row : List Nat} {groundAction : GroundAction} :
    groundAction ∈ (groundWitness context before action row).preferredActions ↔
      (groundAction = (before.session.ground ⟨action, row⟩).1 ∧
        isApplicable context groundAction = true) ∨ groundAction ∈ before.preferredActions := by
  change groundAction ∈ (if isApplicable context (before.session.ground ⟨action, row⟩).1 then
    (before.session.ground ⟨action, row⟩).1 :: before.preferredActions
      else before.preferredActions) ↔ _
  split
  · next applicable =>
      rw [List.mem_cons]
      refine or_congr_left (iff_self_and.mpr ?_)
      rintro rfl
      exact applicable
  · next inapplicable =>
      refine (or_iff_right ?_).symm
      rintro ⟨rfl, applicable⟩
      exact inapplicable applicable

variable (graph : RelaxedPlanningGraph) (context : StateContext)

/-- The ground action is the one of the witness of the atom. -/
def WitnessAction (task : LiftedTask) (graph : RelaxedPlanningGraph) (atom : Tuple)
    (groundAction : GroundAction) : Prop :=
  ∃ witness action, graph.witness atom = some witness ∧
    task.ruleToAction witness.rule = some action ∧
    groundAction = task.instantiate action (witness.row.take (task.actions.get action).arity)

/-- The cache is exact, and the collected actions are those of the marked atoms. -/
structure Collected (extraction : Extraction task) : Prop where
  exact : CacheExact task extraction.session.cache
  plan : ∀ groundAction, groundAction ∈ extraction.relaxedPlan ↔
    ∃ atom ∈ extraction.marked, WitnessAction task graph atom groundAction
  preferred : ∀ groundAction, groundAction ∈ extraction.preferredActions ↔
    groundAction ∈ extraction.relaxedPlan ∧ isApplicable context groundAction = true

variable {graph context}

/-- The rows of the witness of the atom are harmless. -/
def HarmlessWitness (task : LiftedTask) (graph : RelaxedPlanningGraph) (atom : Tuple) : Prop :=
  ∀ witness, graph.witness atom = some witness → ∀ action,
    task.ruleToAction witness.rule = some action → Harmless (⟨action, witness.row⟩ : Request task)

theorem Collected.enterAtom {before : Extraction task} (collected : Collected graph context before)
    {atom : Tuple} (harmless : HarmlessWitness task graph atom) :
    Collected graph context (enterAtom graph context before atom) := by
  obtain ⟨exact, plan, preferred⟩ := collected
  -- An atom without an action adds nothing.
  have nothing (without : ∀ groundAction, ¬ WitnessAction task graph atom groundAction) :
      Collected graph context { before with marked := atom :: before.marked } := by
    refine ⟨exact, fun groundAction => (plan groundAction).trans ?_, preferred⟩
    constructor
    · rintro ⟨other, mem, isAction⟩
      exact ⟨other, List.mem_cons_of_mem _ mem, isAction⟩
    · rintro ⟨other, mem, isAction⟩
      rcases List.mem_cons.mp mem with rfl | mem
      · exact absurd isAction (without groundAction)
      · exact ⟨other, mem, isAction⟩
  unfold Planning.enterAtom
  cases found : graph.witness atom with
  | none =>
      apply nothing
      rintro groundAction ⟨witness, _, isWitness, _⟩
      rw [found] at isWitness
      cases isWitness
  | some witness =>
      dsimp only
      cases isRule : task.ruleToAction witness.rule with
      | none =>
          apply nothing
          rintro groundAction ⟨other, action, isWitness, isAction, _⟩
          obtain rfl : witness = other := Option.some.inj (found.symm.trans isWitness)
          rw [isRule] at isAction
          cases isAction
      | some action =>
          obtain ⟨same, stillExact⟩ := ground_of_harmless exact ⟨action, witness.row⟩
            (harmless witness found action isRule)
          have isAction : ∀ groundAction, WitnessAction task graph atom groundAction ↔
              groundAction = (before.session.ground ⟨action, witness.row⟩).1 := by
            intro groundAction
            rw [same]
            constructor
            · rintro ⟨other, otherAction, isWitness, isOther, rfl⟩
              obtain rfl : witness = other := Option.some.inj (found.symm.trans isWitness)
              obtain rfl : action = otherAction := Option.some.inj (isRule.symm.trans isOther)
              rfl
            · rintro rfl
              exact ⟨witness, action, found, isRule, rfl⟩
          refine ⟨stillExact, fun groundAction => ?_, fun groundAction => ?_⟩
          · change groundAction ∈ (before.session.ground ⟨action, witness.row⟩).1 ::
              before.relaxedPlan ↔ ∃ other ∈ atom :: before.marked, _
            rw [List.mem_cons, plan, List.exists_mem_cons_iff, isAction]
          · rw [mem_preferredActions_groundWitness]
            change _ ↔ groundAction ∈ (before.session.ground ⟨action, witness.row⟩).1 ::
              before.relaxedPlan ∧ _
            rw [List.mem_cons, or_and_right]
            exact or_congr_right (preferred groundAction)

end

/-! ### Relaxed execution -/

section

variable (task : Task)

/-- The static literals and the positive facts of the condition hold. -/
structure RelaxedHolds (facts : Set FDRFact) (condition : GroundConjunctiveCondition) : Prop where
  static : ∀ literal ∈ condition.staticLiterals, task.staticAtoms literal.atom = literal.polarity
  positive : ∀ fact ∈ condition.positiveFacts, fact ∈ facts

/-- The action adds the facts of the effects whose relaxed condition holds. -/
def relaxedSuccessor (facts : Set FDRFact) (action : GroundAction) : Set FDRFact :=
  facts ∪ {fact | ∃ effect ∈ action.effects, RelaxedHolds task facts effect.condition ∧
    fact ∈ effect.effect.positiveFacts}

inductive RelaxedRun : Set FDRFact → List GroundAction → Set FDRFact → Prop where
  | nil {facts : Set FDRFact} : RelaxedRun facts [] facts
  | cons {facts last : Set FDRFact} {action : GroundAction} {steps : List GroundAction} :
      RelaxedHolds task facts action.condition →
      RelaxedRun (relaxedSuccessor task facts action) steps last →
      RelaxedRun facts (action :: steps) last

/-- Executing the actions one after the other reaches all of the facts. -/
def RelaxedPlan (start : Set FDRFact) (steps : List GroundAction) (goals : List FDRFact) : Prop :=
  ∃ last, RelaxedRun task start steps last ∧ ∀ goal ∈ goals, goal ∈ last

/-- The fact of the atom holds already and the atom has no action, or it has one, which is
applicable and adds the fact as soon as the facts of its children hold. -/
def Achievable (start : Set FDRFact) (fact : Tuple → FDRFact) (children : Tuple → List Tuple)
    (isAction : Tuple → GroundAction → Prop) (atom : Tuple) : Prop :=
  (fact atom ∈ start ∧ ∀ action, ¬ isAction atom action) ∨
    ∃ action, (∀ other, isAction atom other ↔ other = action) ∧
      ∀ facts, (∀ child ∈ children atom, fact child ∈ facts) →
        RelaxedHolds task facts action.condition ∧ fact atom ∈ relaxedSuccessor task facts action

end

section

variable {task : Task} {start : Set FDRFact} {fact : Tuple → FDRFact}
  {children : Tuple → List Tuple} {isAction : Tuple → GroundAction → Prop}

/-- The actions of atoms whose children come earlier can be executed in this order. -/
theorem exists_relaxedRun (done rest : List Tuple)
    (earlier : ∀ front atom back, done ++ rest = front ++ atom :: back →
      ∀ child ∈ children atom, child ∈ front)
    (achievable : ∀ atom ∈ rest, Achievable task start fact children isAction atom)
    {facts : Set FDRFact} (sub : start ⊆ facts) (reached : ∀ atom ∈ done, fact atom ∈ facts) :
    ∃ steps last, RelaxedRun task facts steps last ∧
      (∀ action, action ∈ steps ↔ ∃ atom ∈ rest, isAction atom action) ∧
      facts ⊆ last ∧ ∀ atom ∈ done ++ rest, fact atom ∈ last := by
  induction rest generalizing done facts with
  | nil =>
      refine ⟨[], facts, .nil, by simp, subset_rfl, ?_⟩
      rwa [List.append_nil]
  | cons atom rest ih =>
      have split : done ++ atom :: rest = (done ++ [atom]) ++ rest := by simp
      have others : ∀ other ∈ rest, Achievable task start fact children isAction other :=
        fun other mem => achievable other (List.mem_cons_of_mem _ mem)
      rw [split] at earlier ⊢
      rcases achievable atom List.mem_cons_self with ⟨holds, without⟩ | ⟨action, isOnly, adds⟩
      · obtain ⟨steps, last, run, actions, grows, all⟩ := ih (done ++ [atom]) earlier others sub
          (List.forall_mem_append.mpr ⟨reached, List.forall_mem_singleton.mpr (sub holds)⟩)
        refine ⟨steps, last, run, fun action => (actions action).trans ?_, grows, all⟩
        rw [List.exists_mem_cons_iff, or_iff_right (without action)]
      · obtain ⟨applicable, added⟩ := adds facts fun child isChild =>
          reached child (earlier done atom rest split.symm child isChild)
        obtain ⟨steps, last, run, actions, grows, all⟩ := ih (done ++ [atom]) earlier others
          (sub.trans Set.subset_union_left)
          (List.forall_mem_append.mpr
            ⟨fun other mem => Set.subset_union_left (reached other mem),
              List.forall_mem_singleton.mpr added⟩)
        refine ⟨action :: steps, last, .cons applicable run, fun other => ?_,
          Set.subset_union_left.trans grows, all⟩
        rw [List.mem_cons, actions, List.exists_mem_cons_iff, isOnly]

/-- Atoms whose children cost less can be achieved in the order of their costs. -/
theorem exists_relaxedPlan {Cost : Type*} [LinearOrder Cost] (cost : Tuple → Cost)
    {atoms : List Tuple} (closed : ∀ atom ∈ atoms, ∀ child ∈ children atom, child ∈ atoms)
    (cheaper : ∀ atom ∈ atoms, ∀ child ∈ children atom, cost child < cost atom)
    (achievable : ∀ atom ∈ atoms, Achievable task start fact children isAction atom)
    {goals : List Tuple} (mem : ∀ goal ∈ goals, goal ∈ atoms) :
    ∃ steps, (∀ action, action ∈ steps ↔ ∃ atom ∈ atoms, isAction atom action) ∧
      RelaxedPlan task start steps (goals.map fact) := by
  let order := atoms.insertionSort fun a b => cost a ≤ cost b
  have same : ∀ atom, atom ∈ order ↔ atom ∈ atoms := fun _ => List.mem_insertionSort _
  have sorted : order.Pairwise fun a b => cost a ≤ cost b := List.pairwise_insertionSort _ _
  have earlier : ∀ front atom back, order = front ++ atom :: back →
      ∀ child ∈ children atom, child ∈ front := by
    intro front atom back split child isChild
    have inAtoms : atom ∈ atoms := (same atom).mp (by rw [split]; simp)
    have less := cheaper atom inAtoms child isChild
    have inOrder := (same child).mpr (closed atom inAtoms child isChild)
    rw [split] at inOrder sorted
    rcases List.mem_append.mp inOrder with before | later
    · exact before
    · rcases List.mem_cons.mp later with rfl | later
      · exact absurd less (lt_irrefl _)
      · have after := List.rel_of_pairwise_cons (List.pairwise_append.mp sorted).2.1 later
        exact absurd less (not_lt.mpr after)
  obtain ⟨steps, last, run, actions, _, all⟩ := exists_relaxedRun [] order earlier
    (fun atom mem => achievable atom ((same atom).mp mem)) subset_rfl (List.forall_mem_nil _)
  refine ⟨steps, fun action => ?_, last, run, ?_⟩
  · rw [actions]
    simp only [same]
  · intro goal isGoal
    obtain ⟨atom, isAtom, rfl⟩ := List.mem_map.mp isGoal
    exact all atom ((same atom).mpr (mem atom isAtom))

end

/-! ### The witnesses of an evaluation -/

/-- The rule of the relaxed program. -/
def relaxedRule (rule : Formalism.Datalog.Rule) : RelaxedRule :=
  ⟨rule.arity, rule.body.staticLiterals, rule.body.fluentLiterals, rule.head⟩

/-- The planning task and the lifted task that its program was created from. -/
structure Translates (typed : TypedTask) (task : LiftedTask) : Prop where
  actions : task.actions = typed.actions
  static : ∀ atom, task.task.staticAtoms (task.repository.staticAtom atom) =
    decide (atom ∈ typed.staticAtoms)

/-- The row binds the quantified variables of an effect that the rule was created for to
objects of their domains. -/
def RowInDomains (task : LiftedTask) (action : Fin task.actions.length) (witness : Witness) : Prop :=
  ∃ effect ∈ (task.actions.get action).effects, ∃ literal ∈ effect.effect.literals,
    literal.polarity = true ∧
      createCondEffectRule task.ruleLiterals (task.actions.get action) effect literal.atom =
        witness.rule ∧
      witness.row.drop (task.actions.get action).arity ∈
        CartesianSet.elements (task.effectDomains effect)

namespace FFRPGHeuristic

/-- What extraction reads of an evaluation. -/
def relaxedPlanningGraph {stratum : Datalog.Stratum} (e : Datalog.Evaluation stratum) :
    RelaxedPlanningGraph where
  witness atom := (e.state.annotations.andAnnot atom).map fun witness =>
    ⟨relaxedRule witness.rule, witness.binding⟩
  goals := e.tp.bindings
  numAtoms := e.state.facts.length

/-- The facts of a state. -/
def relaxedState (state : UnpackedState) : Set FDRFact :=
  {fact | state.fluentFacts fact.var = fact.value}

section

variable {typed : TypedTask} {task : LiftedTask}

theorem ruleToAction_isSome (translates : Translates typed task) {rule : Formalism.Datalog.Rule}
    (mem : rule ∈ RpgProgram.rules typed task.ruleLiterals) :
    ∃ action, task.ruleToAction (relaxedRule rule) = some action := by
  obtain ⟨action, memAction, effect, memEffect, literal, memLiteral, positive, rfl⟩ :=
    RpgProgram.mem_rules.mp mem
  rw [← translates.actions] at memAction
  obtain ⟨index, rfl⟩ := List.get_of_mem memAction
  have listed : (createCondEffectRule task.ruleLiterals (task.actions.get index) effect
      literal.atom, index) ∈ task.relaxedRules := by
    refine List.mem_flatMap.mpr ⟨index, List.mem_finRange index,
      List.mem_flatMap.mpr ⟨effect, memEffect, List.mem_map.mpr ⟨literal, ?_, rfl⟩⟩⟩
    exact List.mem_filter.mpr ⟨memLiteral, positive⟩
  have found : (task.relaxedRules.find? fun entry => entry.1 =
      createCondEffectRule task.ruleLiterals (task.actions.get index) effect literal.atom).isSome :=
    List.find?_isSome.mpr ⟨_, listed, decide_eq_true rfl⟩
  obtain ⟨entry, isFirst⟩ := Option.isSome_iff_exists.mp found
  exact ⟨entry.2, Option.map_eq_some_iff.mpr ⟨entry, isFirst, rfl⟩⟩

/-- A condition holds in the relaxed sense if its literals are those of a body that holds. -/
theorem relaxedHolds_of_body (translates : Translates typed task) {row : List Nat}
    {condition : ConjunctiveCondition} {facts : Set FDRFact}
    (static : ∀ literal ∈ condition.staticLiterals,
      (literal.atom.ground row ∈ typed.staticAtoms ↔ literal.polarity = true))
    (fluent : ∀ literal ∈ condition.fluentLiterals, literal.polarity = true →
      task.repository.fluentFact (literal.atom.ground row) ∈ facts) :
    RelaxedHolds task.task facts (task.repository.groundCondition row condition) where
  static := by
    intro ground mem
    obtain ⟨literal, memLiteral, rfl⟩ := List.mem_map.mp mem
    rw [translates.static]
    rw [Bool.eq_iff_iff, decide_eq_true_iff]
    exact static literal memLiteral
  positive := by
    intro fact mem
    obtain ⟨literal, memLiteral, rfl⟩ := List.mem_map.mp mem
    obtain ⟨inCondition, positive⟩ := List.mem_filter.mp memLiteral
    exact fluent literal inCondition positive

/-- The action of a witness is applicable in the relaxed sense where the body of the
witness holds, and adds its atom. -/
theorem adds_of_witness (translates : Translates typed task) {witness : Witness}
    {action : Fin task.actions.length} (inDomains : RowInDomains task action witness)
    (static : ∀ literal ∈ witness.rule.staticLiterals,
      (literal.atom.ground witness.row ∈ typed.staticAtoms ↔ literal.polarity = true))
    {facts : Set FDRFact}
    (fluent : ∀ literal ∈ witness.rule.fluentLiterals,
      task.repository.fluentFact (literal.atom.ground witness.row) ∈ facts) :
    let groundAction :=
      task.instantiate action (witness.row.take (task.actions.get action).arity)
    RelaxedHolds task.task facts groundAction.condition ∧
      task.repository.fluentFact (witness.rule.head.ground witness.row) ∈
        relaxedSuccessor task.task facts groundAction := by
  obtain ⟨effect, memEffect, literal, memLiteral, positive, isRule, inElements⟩ := inDomains
  have body : ∀ {condition : Literal},
      (condition ∈ witness.rule.staticLiterals ↔
        condition ∈ (task.actions.get action).condition.staticLiterals ∨
          condition ∈ effect.condition.staticLiterals) ∧
      (condition ∈ witness.rule.fluentLiterals ↔
        (condition ∈ (task.actions.get action).condition.fluentLiterals ∨
          condition ∈ effect.condition.fluentLiterals) ∧ condition.polarity = true) := by
    intro condition
    rw [← isRule]
    exact @RpgProgram.mem_body task.ruleLiterals (task.actions.get action) effect literal.atom
      condition
  have head : witness.rule.head = literal.atom := by rw [← isRule]; rfl
  constructor
  · change RelaxedHolds task.task facts (task.repository.groundCondition _ _)
    rw [Action.groundCondition_take]
    refine relaxedHolds_of_body translates (fun condition mem => ?_) fun condition mem isPositive => ?_
    · exact static condition (body.1.mpr (.inl mem))
    · exact fluent condition (body.2.mpr ⟨.inl mem, isPositive⟩)
  · refine .inr ⟨task.repository.groundConditionalEffect witness.row effect, ?_, ?_, ?_⟩
    · refine (task.repository.conditionalEffects.mem_canonicalize _ _).mpr
        (List.mem_flatMap.mpr ⟨effect, memEffect, List.mem_map.mpr ⟨_, inElements, ?_⟩⟩)
      rw [List.take_append_drop]
    · refine relaxedHolds_of_body translates (fun condition mem => ?_) fun condition mem isPositive => ?_
      · exact static condition (body.1.mpr (.inr mem))
      · exact fluent condition (body.2.mpr ⟨.inr mem, isPositive⟩)
    · rw [head]
      exact List.mem_map.mpr ⟨literal, List.mem_filter.mpr ⟨memLiteral, positive⟩, rfl⟩

end

section

variable {typed : TypedTask} {task : LiftedTask} {numeric : Datalog.NumericOverapproximation}
  {goals facts : List Tuple} {start : Set FDRFact}
  {e : Datalog.Evaluation (RpgProgram.stratum typed task.ruleLiterals)}

theorem cost_pos (typed : TypedTask) (literals : Canonicalization Literal) :
    ∀ cws ∈ RpgProgram.stratum typed literals, 0 < cws.rule.cost := by
  intro cws mem
  obtain ⟨⟨rule, isRule⟩, rfl⟩ := RpgProgram.mem_stratum mem
  obtain ⟨_, _, _, _, _, _, _, rfl⟩ := RpgProgram.mem_rules.mp isRule
  exact Nat.one_pos

theorem mem_witnessAtoms (positive : Datalog.PositiveStratum (RpgProgram.data typed task.ruleLiterals)
      (RpgProgram.stratum typed task.ruleLiterals) facts)
    (inv : Datalog.WitnessInvariant (RpgProgram.data typed task.ruleLiterals) numeric .sum goals facts e)
    {atom : Tuple} (isFact : atom ∈ e.state.facts) :
    ∀ child ∈ witnessAtoms (relaxedPlanningGraph e) atom, child ∈ e.state.facts ∧
      e.state.annotations.orAnnot child < e.state.annotations.orAnnot atom := by
  intro child isChild
  unfold witnessAtoms relaxedPlanningGraph at isChild
  cases found : e.state.annotations.andAnnot atom with
  | none => simp [found] at isChild
  | some witness =>
      obtain ⟨cws, memRule, sameRule, holds, _, cheaper⟩ :=
        inv.body_lt (cost_pos typed task.ruleLiterals) isFact found
      simp only [found, Option.map_some] at isChild
      obtain ⟨literal, mem, rfl⟩ := List.mem_map.mp isChild
      have inBody : literal ∈ cws.rule.body.fluentLiterals := by rw [← sameRule]; exact mem
      have inWitness : literal.atom.ground witness.binding ∈
          Datalog.witnessFacts cws.rule witness.binding :=
        Datalog.mem_witnessFacts.mpr
          ⟨literal, inBody, positive.positive cws memRule literal inBody, rfl⟩
      exact ⟨holds.witnessFacts _ inWitness, cheaper _ inWitness⟩

/-- Every fact of an evaluation is an initial one or added by the action of its witness. -/
theorem achievable_of_fact (translates : Translates typed task)
    (inv : Datalog.WitnessInvariant (RpgProgram.data typed task.ruleLiterals) numeric .sum goals facts e)
    (holds : ∀ atom ∈ facts, task.repository.fluentFact atom ∈ start)
    (inDomains : ∀ atom ∈ e.state.facts, ∀ witness,
      (relaxedPlanningGraph e).witness atom = some witness → ∀ action,
        task.ruleToAction witness.rule = some action → RowInDomains task action witness)
    {atom : Tuple} (isFact : atom ∈ e.state.facts) :
    Achievable task.task start task.repository.fluentFact (witnessAtoms (relaxedPlanningGraph e))
      (WitnessAction task (relaxedPlanningGraph e)) atom := by
  cases found : e.state.annotations.andAnnot atom with
  | none =>
      refine .inl ⟨holds atom ((inv.initial_iff isFact).mp found), ?_⟩
      rintro action ⟨witness, _, isWitness, _⟩
      simp [relaxedPlanningGraph, found] at isWitness
  | some witness =>
      obtain ⟨cws, memRule, sameRule, bodyHolds, sameHead, _⟩ :=
        inv.body_lt (cost_pos typed task.ruleLiterals) isFact found
      obtain ⟨⟨rule, isRule⟩, rfl⟩ := RpgProgram.mem_stratum memRule
      obtain ⟨action, isAction⟩ := ruleToAction_isSome translates isRule
      have isWitness : (relaxedPlanningGraph e).witness atom =
          some ⟨relaxedRule rule, witness.binding⟩ := by
        simp only [relaxedPlanningGraph, found, Option.map_some, sameRule]
        rfl
      refine .inr ⟨task.instantiate action (witness.binding.take (task.actions.get action).arity),
        fun other => ⟨?_, ?_⟩, fun facts reached => ?_⟩
      · rintro ⟨otherWitness, otherAction, isOther, isOtherAction, rfl⟩
        obtain rfl := Option.some.inj (isWitness.symm.trans isOther)
        obtain rfl := Option.some.inj (isAction.symm.trans isOtherAction)
        rfl
      · rintro rfl
        exact ⟨_, action, isWitness, isAction, rfl⟩
      · obtain ⟨_, literals, _⟩ := Datalog.bodyHolds_iff.mp bodyHolds
        rw [← sameHead]
        refine adds_of_witness translates (inDomains atom isFact _ isWitness action isAction)
          (fun literal mem => ?_) fun literal mem => reached _ ?_
        · exact Datalog.FactSets.isValidBinding_iff.mp (literals .static literal mem)
        · unfold witnessAtoms
          rw [isWitness]
          exact List.mem_map_of_mem mem

/-- The invariant of the evaluations of a goal. -/
theorem witnessInvariant_of_reaches {ws : Datalog.ProgramWorkspace} {goal : ConjunctiveCondition}
    (typedFacts : ∀ atom ∈ facts,
      atom.objects.length = typed.arity (.fluentPredicate atom.relation))
    (reaches : Datalog.Evaluation.Reaches (RpgProgram.data typed task.ruleLiterals) numeric .sum
      (fun e => e.tp.check = false →
        e.RegularCosts (RpgProgram.data typed task.ruleLiterals) numeric .sum)
      ((MaxRPGHeuristic.setGoal ws goal).start (RpgProgram.stratum typed task.ruleLiterals) facts) e) :
    Datalog.WitnessInvariant (RpgProgram.data typed task.ruleLiterals) numeric .sum
      (MaxRPGHeuristic.goalFacts goal) facts e := by
  have positive := RpgProgram.positiveStratum task.ruleLiterals typedFacts
  have regularRun : Relation.ReflTransGen
      (Datalog.Evaluation.RegularStep (RpgProgram.data typed task.ruleLiterals) numeric .sum)
      ((MaxRPGHeuristic.setGoal ws goal).start (RpgProgram.stratum typed task.ruleLiterals) facts) e :=
    Relation.ReflTransGen.mono (fun _ _ step => ⟨step.1 step.2.1, step.2⟩) _ _ reaches.1
  have start : Datalog.WitnessInvariant (RpgProgram.data typed task.ruleLiterals) numeric .sum
      (MaxRPGHeuristic.goalFacts goal) facts
      ((MaxRPGHeuristic.setGoal ws goal).start (RpgProgram.stratum typed task.ruleLiterals) facts) :=
    Datalog.witnessInvariant_start (MaxRPGHeuristic.setGoal ws goal) (List.nodup_dedup _)
  exact start.run positive (cost_pos typed task.ruleLiterals) regularRun

/-- The facts are closed under the bodies of the witnesses. -/
theorem witnessAtoms_facts (typedFacts : ∀ atom ∈ facts,
      atom.objects.length = typed.arity (.fluentPredicate atom.relation))
    (inv : Datalog.WitnessInvariant (RpgProgram.data typed task.ruleLiterals) numeric .sum goals facts e) :
    ∀ atom ∈ e.state.facts.toFinset, ∀ child ∈ witnessAtoms (relaxedPlanningGraph e) atom,
      child ∈ e.state.facts.toFinset := by
  intro atom isFact child isChild
  rw [List.mem_toFinset] at isFact ⊢
  exact (mem_witnessAtoms (RpgProgram.positiveStratum task.ruleLiterals typedFacts) inv isFact child
    isChild).1

theorem goals_facts
    (inv : Datalog.WitnessInvariant (RpgProgram.data typed task.ruleLiterals) numeric .sum goals facts e)
    (achieved : e.tp.check = true) :
    ∀ atom ∈ (relaxedPlanningGraph e).goals, atom ∈ e.state.facts.toFinset := by
  intro atom isGoal
  rw [List.mem_toFinset]
  rw [show (relaxedPlanningGraph e).goals = goals from inv.tracks.bindings] at isGoal
  exact inv.tracks.check_iff.mp achieved atom isGoal

/-- Extraction is not deeper than there are facts. -/
theorem evaluateWithin_eq_of_enough (typedFacts : ∀ atom ∈ facts,
      atom.objects.length = typed.arity (.fluentPredicate atom.relation))
    (inv : Datalog.WitnessInvariant (RpgProgram.data typed task.ruleLiterals) numeric .sum goals facts e)
    (achieved : e.tp.check = true) (session : Session task) (state : UnpackedState) {fuel fuel' : Nat}
    (enough : e.state.facts.length < fuel) (enough' : e.state.facts.length < fuel') :
    evaluateWithin (relaxedPlanningGraph e) fuel session state =
      evaluateWithin (relaxedPlanningGraph e) fuel' session state := by
  let search := extraction (relaxedPlanningGraph e) ⟨task.task, state, .finite 0⟩ task
  have few : (search.unmarked e.state.facts.toFinset ⟨session, [], [], []⟩).card ≤
      e.state.facts.length :=
    (Finset.card_filter_le _ _).trans (List.toFinset_card_le _)
  rw [evaluateWithin_eq_visitAll, evaluateWithin_eq_visitAll]
  exact DepthFirst.visitAll_eq (witnessAtoms_facts typedFacts inv) (goals_facts inv achieved)
    (few.trans_lt enough) (few.trans_lt enough')

/-- What is collected, and a sequence of the collected actions that reaches the goals. -/
theorem plan_of_evaluateWithin (translates : Translates typed task)
    (typedFacts : ∀ atom ∈ facts,
      atom.objects.length = typed.arity (.fluentPredicate atom.relation))
    (inv : Datalog.WitnessInvariant (RpgProgram.data typed task.ruleLiterals) numeric .sum goals facts e)
    (holds : ∀ atom ∈ facts, task.repository.fluentFact atom ∈ start)
    (achieved : e.tp.check = true) {session : Session task} (exact : CacheExact task session.cache)
    (harmless : ∀ atom ∈ e.state.facts, HarmlessWitness task (relaxedPlanningGraph e) atom)
    (inDomains : ∀ atom ∈ e.state.facts, ∀ witness,
      (relaxedPlanningGraph e).witness atom = some witness → ∀ action,
        task.ruleToAction witness.rule = some action → RowInDomains task action witness)
    (state : UnpackedState) {fuel : Nat} (enough : e.state.facts.length < fuel) :
    let extracted := evaluateWithin (relaxedPlanningGraph e) fuel session state
    Collected (relaxedPlanningGraph e) ⟨task.task, state, .finite 0⟩ extracted ∧
      ∃ steps, (∀ action, action ∈ steps ↔ action ∈ extracted.relaxedPlan) ∧
        RelaxedPlan task.task start steps (goals.map task.repository.fluentFact) := by
  intro extracted
  have positive := RpgProgram.positiveStratum task.ruleLiterals typedFacts
  have closed := witnessAtoms_facts typedFacts inv
  have roots := goals_facts inv achieved
  let search := extraction (relaxedPlanningGraph e) ⟨task.task, state, .finite 0⟩ task
  let empty : Extraction task := ⟨session, [], [], []⟩
  have fewer : (search.unmarked e.state.facts.toFinset empty).card < fuel :=
    ((Finset.card_filter_le _ _).trans (List.toFinset_card_le _)).trans_lt enough
  have isVisit : extracted = search.visitAll fuel (relaxedPlanningGraph e).goals empty :=
    evaluateWithin_eq_visitAll (relaxedPlanningGraph e) fuel session state
  have collected : Collected (relaxedPlanningGraph e) ⟨task.task, state, .finite 0⟩ extracted ∧
      ∀ atom ∈ extracted.marked, atom ∈ e.state.facts := by
    rw [isVisit]
    refine DepthFirst.visitAll_invariant (P := fun extraction : Extraction task =>
        Collected (relaxedPlanningGraph e) ⟨task.task, state, .finite 0⟩ extraction ∧
          ∀ atom ∈ extraction.marked, atom ∈ e.state.facts)
      closed (fun before atom invariant isFact _ => ?_) roots
      ⟨⟨exact, by simp [empty], by simp [empty]⟩, by simp [empty]⟩
    rw [List.mem_toFinset] at isFact
    refine ⟨invariant.1.enterAtom (harmless atom isFact), fun other isMarked => ?_⟩
    rw [show (search.enter before atom).marked = _ from search.marked_enter before atom] at isMarked
    rcases List.mem_cons.mp isMarked with rfl | earlier
    · exact isFact
    · exact invariant.2 other earlier
  refine ⟨collected.1, ?_⟩
  obtain ⟨rootsMarked, childrenMarked⟩ := DepthFirst.visitAll_closed closed roots fewer
  rw [← isVisit] at rootsMarked childrenMarked
  have marked : ∀ atom ∈ extracted.marked,
      ∀ child ∈ witnessAtoms (relaxedPlanningGraph e) atom, child ∈ extracted.marked := by
    intro atom isMarked
    exact (childrenMarked atom isMarked).resolve_left List.not_mem_nil
  obtain ⟨steps, actions, plan⟩ := exists_relaxedPlan e.state.annotations.orAnnot marked
    (fun atom isMarked child isChild =>
      (mem_witnessAtoms positive inv (collected.2 atom isMarked) child isChild).2)
    (fun atom isMarked =>
      achievable_of_fact translates inv holds inDomains (collected.2 atom isMarked))
    rootsMarked
  refine ⟨steps, fun action => (actions action).trans (collected.1.plan action).symm, ?_⟩
  rwa [show (relaxedPlanningGraph e).goals = goals from inv.tracks.bindings] at plan

/-- Where no effect quantifies variables, all rows are harmless and in the domains. -/
theorem rows_of_noVariables
    (noVariables : ∀ action ∈ task.actions, ∀ effect ∈ action.effects,
      effect.arity = 0 ∧ task.effectDomains effect = [])
    (inv : Datalog.WitnessInvariant (RpgProgram.data typed task.ruleLiterals) numeric .sum goals facts e)
    {atom : Tuple} (isFact : atom ∈ e.state.facts) {witness : Witness}
    (isWitness : (relaxedPlanningGraph e).witness atom = some witness)
    {action : Fin task.actions.length} (isAction : task.ruleToAction witness.rule = some action) :
    Harmless (⟨action, witness.row⟩ : Request task) ∧ RowInDomains task action witness := by
  obtain ⟨found, foundAt, rfl⟩ := Option.map_eq_some_iff.mp isWitness
  obtain ⟨cws, _, sameRule, bodyHolds, _, _⟩ :=
    inv.body_lt (cost_pos typed task.ruleLiterals) isFact foundAt
  have length : found.binding.length = found.rule.arity := by
    rw [sameRule]
    exact (Datalog.bodyHolds_iff.mp bodyHolds).1.1
  obtain ⟨entry, first, rfl⟩ := Option.map_eq_some_iff.mp isAction
  have listed := List.mem_of_find?_eq_some first
  have isRule : entry.1 = relaxedRule found.rule := by
    simpa only [decide_eq_true_eq] using List.find?_some first
  obtain ⟨index, _, fromAction⟩ := List.mem_flatMap.mp listed
  obtain ⟨effect, memEffect, fromEffect⟩ := List.mem_flatMap.mp fromAction
  obtain ⟨literal, memLiteral, rfl⟩ := List.mem_map.mp fromEffect
  obtain ⟨memEffectLiteral, positive⟩ := List.mem_filter.mp memLiteral
  obtain ⟨noParameters, noDomains⟩ := noVariables _ (List.get_mem _ index) effect memEffect
  have arity : found.binding.length ≤ (task.actions.get index).arity := by
    have same : (task.actions.get index).arity + effect.arity = found.rule.arity :=
      congrArg RelaxedRule.arity isRule
    omega
  refine ⟨harmless_of_length_le arity, effect, memEffect, literal, memEffectLiteral, positive,
    isRule, ?_⟩
  rw [noDomains, List.drop_eq_nil_of_le arity]
  exact List.mem_singleton_self _

end

end FFRPGHeuristic

open FFRPGHeuristic in
/-- In an evaluation without false positives and wrapping that achieves its goals,
extraction ends, and if the cache and the rows of the witnesses are harmless, then some
sequence of the collected actions reaches the goals from the state, where an action may
occur several times. The preferred actions are the collected ones that are applicable. -/
theorem relaxedPlan_correct (typed : TypedTask) (task : LiftedTask)
    (translates : Translates typed task) (numeric : Datalog.NumericOverapproximation)
    (ws : Datalog.ProgramWorkspace) (goal : ConjunctiveCondition) (facts : List Tuple)
    (state : UnpackedState) (session : Session task)
    (e : Datalog.Evaluation (RpgProgram.stratum typed task.ruleLiterals))
    (typedFacts : ∀ atom ∈ facts,
      atom.objects.length = typed.arity (.fluentPredicate atom.relation))
    (holds : ∀ atom ∈ facts, task.repository.fluentFact atom ∈ relaxedState state)
    (reaches : Datalog.Evaluation.Reaches (RpgProgram.data typed task.ruleLiterals) numeric .sum
      (fun e => e.tp.check = false →
        e.RegularCosts (RpgProgram.data typed task.ruleLiterals) numeric .sum)
      ((MaxRPGHeuristic.setGoal ws goal).start (RpgProgram.stratum typed task.ruleLiterals) facts) e)
    (achieved : e.tp.check = true) (exact : CacheExact task session.cache)
    (harmless : ∀ atom ∈ e.state.facts, HarmlessWitness task (relaxedPlanningGraph e) atom)
    (inDomains : ∀ atom ∈ e.state.facts, ∀ witness,
      (relaxedPlanningGraph e).witness atom = some witness → ∀ action,
        task.ruleToAction witness.rule = some action → RowInDomains task action witness) :
    let extracted := evaluate session (relaxedPlanningGraph e) state
    (∀ fuel, e.state.facts.length < fuel →
      evaluateWithin (relaxedPlanningGraph e) fuel session state = extracted) ∧
    (∃ steps, (∀ action, action ∈ steps ↔ action ∈ extracted.relaxedPlan) ∧
      RelaxedPlan task.task (relaxedState state) steps
        ((MaxRPGHeuristic.goalFacts goal).map task.repository.fluentFact)) ∧
    ∀ action, action ∈ extracted.preferredActions ↔ action ∈ extracted.relaxedPlan ∧
      isApplicable ⟨task.task, state, .finite 0⟩ action = true := by
  intro extracted
  have inv := witnessInvariant_of_reaches typedFacts reaches
  have fewer := Nat.lt_succ_self e.state.facts.length
  obtain ⟨collected, plan⟩ := plan_of_evaluateWithin translates typedFacts inv holds achieved exact
    harmless inDomains state fewer
  exact ⟨fun fuel enough => evaluateWithin_eq_of_enough typedFacts inv achieved session state enough fewer,
    plan, collected.preferred⟩

/-! ### A relaxed plan -/

theorem crossed_bindings_length : ∀ state, ∀ binding ∈ (fun _ : UnpackedState =>
    ([] : List (Fin crossedActions.length × List Nat))) state,
      binding.2.length = (crossedActions.get binding.1).arity :=
  fun _ => List.forall_mem_nil _

/-- The task of the edges, with the numbering of the tuples. -/
noncomputable def crossedLifted : LiftedTask where
  task := openDoors.task
  repository := openDoors.repository
  actions := crossedActions
  effectDomains := fun _ => []
  ruleLiterals := sortedLiterals
  applicableBindings := fun _ => []
  bindings_length := crossed_bindings_length

theorem crossed_translates : Translates crossedTask crossedLifted where
  actions := rfl
  static := fun _ => rfl

theorem crossedFirst_valid_sum :
    Datalog.Machine.ValidSchedule crossedData Datalog.noNumeric .sum crossedState crossedFirst where
  pending := crossedFirst_valid.pending
  reports_nodup := crossedFirst_valid.reports_nodup
  reports := crossedFirst_valid.reports
  merges := crossedFirst_valid.merges
  inserted := by
    have waiting : (Datalog.Machine.merged crossedData .sum crossedState
        crossedFirst).1.advanceToNextNonempty.2.currentBucket = {⟨0, [1, 0]⟩} := by decide
    intro head
    rw [waiting, Finset.mem_singleton]
    exact List.mem_singleton

theorem crossedFirst_advances_sum : (Datalog.Machine.merged crossedData .sum crossedState
    crossedFirst).1.advanceToNextNonempty.1 = true := by decide

theorem backStart_regularCosts : backStart.RegularCosts crossedData Datalog.noNumeric .sum where
  noFalsePositive := backStart_regular.noFalsePositive
  current := backStart_regular.inRange
  bodies := by
    intro r _ binding holds
    rcases crossedStratum_cases r with rfl | rfl | rfl
    · exact show (1 : Datalog.Cost) < Datalog.maxCost by decide
    · have back := Datalog.FactSets.isValidBinding_iff.mp
        ((Datalog.bodyHolds_iff.mp holds).2.1 .fluent _ (List.mem_singleton_self _))
      have isFact : (⟨0, [1, 0]⟩ : Tuple) ∈ [⟨0, [0, 1]⟩] := back.mpr rfl
      exact absurd isFact (by decide)
    · have loop := Datalog.FactSets.isValidBinding_iff.mp
        ((Datalog.bodyHolds_iff.mp holds).2.1 .fluent loopLiteral (List.mem_singleton_self _))
      have isFact := List.mem_singleton.mp (loop.mpr rfl)
      have ends := congrArg Tuple.objects isFact
      simp only [loopLiteral, Atom.ground, Term.ground, List.map_cons, List.map_nil,
        List.cons.injEq] at ends
      omega

/-- The state of the facts. -/
noncomputable def crossedUnpacked : UnpackedState :=
  { UnpackedState.empty with
    fluentFacts := fun var => if var = (openDoors.repository.fluentFact ⟨0, [0, 1]⟩).var then 1 else 0 }

/-- The evaluation after the pass that adds the edge back. -/
noncomputable def backReached : Datalog.Evaluation crossedStratum :=
  ⟨Datalog.Machine.next crossedData .sum crossedState crossedFirst,
    backStart.achieveHeads crossedFirst.inserted⟩

theorem backReached_achieved : backReached.tp.check = true := by decide

theorem backStart_reaches : Datalog.Evaluation.Reaches crossedData Datalog.noNumeric .sum
    (fun e => e.tp.check = false → e.RegularCosts crossedData Datalog.noNumeric .sum) backStart
    backReached := by
  refine ⟨.single ⟨fun _ => backStart_regularCosts, by decide, crossedFirst, crossedFirst_valid_sum,
    crossedFirst_advances_sum, rfl⟩, fun unsatisfied => ?_⟩
  rw [backReached_achieved] at unsatisfied
  cases unsatisfied

theorem crossed_noVariables : ∀ action ∈ crossedLifted.actions, ∀ effect ∈ action.effects,
    effect.arity = 0 ∧ crossedLifted.effectDomains effect = [] := by
  intro action mem effect memEffect
  change action ∈ crossedActions at mem
  simp only [crossedActions, List.mem_cons, List.not_mem_nil, or_false] at mem
  rcases mem with rfl | rfl | rfl <;>
    obtain rfl := List.mem_singleton.mp memEffect <;> exact ⟨rfl, rfl⟩

/-- The edge back is reached by its action. -/
theorem relaxedPlan_crossed : ∃ steps, (∀ action, action ∈ steps ↔
      action ∈ (evaluate (Session.initial crossedLifted) (FFRPGHeuristic.relaxedPlanningGraph backReached)
        crossedUnpacked).relaxedPlan) ∧
    RelaxedPlan crossedLifted.task (FFRPGHeuristic.relaxedState crossedUnpacked) steps
      ((MaxRPGHeuristic.goalFacts backGoal).map crossedLifted.repository.fluentFact) := by
  have rows {atom : Tuple} (isFact : atom ∈ backReached.state.facts) {witness : Witness}
      (isWitness : (FFRPGHeuristic.relaxedPlanningGraph backReached).witness atom = some witness)
      {action : Fin crossedLifted.actions.length}
      (isAction : crossedLifted.ruleToAction witness.rule = some action) :=
    FFRPGHeuristic.rows_of_noVariables crossed_noVariables
      (FFRPGHeuristic.witnessInvariant_of_reaches crossed_fluentAtoms_typed backStart_reaches)
      isFact isWitness isAction
  refine (relaxedPlan_correct crossedTask crossedLifted crossed_translates Datalog.noNumeric freshWorkspace
    backGoal crossedTask.fluentAtoms crossedUnpacked (Session.initial crossedLifted) backReached
    crossed_fluentAtoms_typed ?_ backStart_reaches backReached_achieved ?_ ?_ ?_).2.1
  · intro atom mem
    obtain rfl := List.mem_singleton.mp mem
    let var := (openDoors.repository.fluentFact ⟨0, [0, 1]⟩).var
    change (if var = var then 1 else 0) = 1
    exact if_pos rfl
  · intro action objects groundAction cached
    cases cached
  · exact fun atom isFact witness isWitness action isAction => (rows isFact isWitness isAction).1
  · exact fun atom isFact witness isWitness action isAction => (rows isFact isWitness isAction).2

end Tyr.Planning
