import Mathlib.Data.Set.Finite.Lattice
import Tyr.Planning.Heuristics.RpgFF

/-!
Relaxed plan extraction after a history of calls.

Only finitely many atoms have a witness, so extraction ends for every evaluation, and
the preferred actions are applicable. If the earlier calls left an exact cache behind,
and the evaluation reports no false positives and wraps nowhere, a sequence of the
collected actions reaches the goals. An action can be needed twice: an effect of its
second execution uses what the first one added.

* `exists_evaluateWithin_eq` — extraction ends.
* `extraction_reachesGoals` — what is extracted after a history.
* `relay_not_ordered` — two executions of one action.
-/

namespace Tyr.Datalog

open Tyr.Lib Tyr.Formalism Tyr.Formalism.Datalog

/-! ### Annotated atoms -/

/-- The atoms with a witness. -/
def Annotations.witnessed (annotations : Annotations) : Set Tuple :=
  {atom | annotations.andAnnot atom ≠ none}

section

variable {data : ProgramData} {numeric : NumericOverapproximation} {aggregation : Aggregation}
  {stratum : Stratum}

theorem finite_witnessed_updateOrAnnot {annotations : Annotations}
    (finite : annotations.witnessed.Finite) (head : Tuple) (witness : Option Witness) :
    (updateOrAnnot annotations head witness).2.witnessed.Finite := by
  rcases updateOrAnnot_cases annotations head witness with ⟨same, _⟩ | ⟨better, _, _, updated⟩
  · rw [same]
    exact finite
  · rw [updated]
    refine (finite.insert head).subset fun atom witnessed => ?_
    by_cases isHead : atom = head
    · exact .inl isHead
    · have kept : Function.update annotations.andAnnot head (some better) atom ≠ none := witnessed
      rw [Function.update_of_ne isHead] at kept
      exact .inr kept

/-- Each merge gives at most one atom a witness. -/
theorem Evaluation.finite_witnessed {condition : Evaluation stratum → Prop} {e e' : Evaluation stratum}
    (finite : e.state.annotations.witnessed.Finite)
    (reaches : Evaluation.Reaches data numeric aggregation condition e e') :
    e'.state.annotations.witnessed.Finite := by
  obtain ⟨run, -⟩ := reaches
  induction run with
  | refl => exact finite
  | tail _ step ih =>
      obtain ⟨_, _, schedule, _, _, rfl⟩ := step
      change (Machine.merged data aggregation _ schedule).2.witnessed.Finite
      unfold Machine.merged
      exact foldl_invariant (P := fun merged : CostBuckets Tuple × Annotations =>
        merged.2.witnessed.Finite)
        (fun _ before merge _ => finite_witnessed_updateOrAnnot before merge.2.2 _) ih

end

end Tyr.Datalog

namespace Tyr.Planning

open Tyr.Lib Tyr.Formalism Tyr.Formalism.Planning

section

variable {task : LiftedTask} {graph : RelaxedPlanningGraph}

/-! ### Extraction ends -/

/-- If finitely many atoms have a witness, then only so many are visited. -/
theorem exists_evaluateWithin_eq (finite : {atom | graph.witness atom ≠ none}.Finite)
    (session : Session task) (state : UnpackedState) :
    ∃ depth, ∀ fuel ≥ depth, evaluateWithin graph fuel session state =
      evaluateWithin graph depth session state := by
  let search := extraction graph ⟨task.task, state, .finite 0⟩ task
  let bodies : Finset Tuple := finite.toFinset.biUnion fun atom => (witnessAtoms graph atom).toFinset
  let nodes := graph.goals.toFinset ∪ bodies
  have isBody : ∀ atom, ∀ child ∈ witnessAtoms graph atom, child ∈ bodies := by
    intro atom child isChild
    have witnessed : graph.witness atom ≠ none := by
      intro without
      rw [witnessAtoms, without] at isChild
      cases isChild
    exact Finset.mem_biUnion.mpr
      ⟨atom, finite.mem_toFinset.mpr witnessed, List.mem_toFinset.mpr isChild⟩
  have closed : ∀ atom ∈ nodes, ∀ child ∈ search.children atom, child ∈ nodes :=
    fun atom _ child isChild => Finset.mem_union_right _ (isBody atom child isChild)
  have roots : ∀ atom ∈ graph.goals, atom ∈ nodes :=
    fun atom isGoal => Finset.mem_union_left _ (List.mem_toFinset.mpr isGoal)
  have few : (search.unmarked nodes ⟨session, [], [], []⟩).card ≤ nodes.card :=
    Finset.card_filter_le _ _
  refine ⟨nodes.card + 1, fun fuel enough => ?_⟩
  rw [evaluateWithin_eq_visitAll, evaluateWithin_eq_visitAll]
  exact DepthFirst.visitAll_eq closed roots (few.trans_lt enough) (Nat.lt_succ_of_le few)

/-- The preferred actions are collected and applicable, whatever is in the cache. -/
theorem preferredActions_evaluateWithin (fuel : Nat) (session : Session task) (state : UnpackedState) :
    let extracted := evaluateWithin graph fuel session state
    ∀ action ∈ extracted.preferredActions, action ∈ extracted.relaxedPlan ∧
      isApplicable ⟨task.task, state, .finite 0⟩ action = true := by
  intro extracted
  let context : StateContext := ⟨task.task, state, .finite 0⟩
  let Preferred (extraction : Extraction task) : Prop :=
    ∀ action ∈ extraction.preferredActions, action ∈ extraction.relaxedPlan ∧
      isApplicable context action = true
  have grounded : ∀ (before : Extraction task) action row, Preferred before →
      Preferred (groundWitness context before action row) := by
    intro before action row preferred other isPreferred
    rcases mem_preferredActions_groundWitness.mp isPreferred with ⟨rfl, applicable⟩ | earlier
    · exact ⟨List.mem_cons_self, applicable⟩
    · exact ⟨List.mem_cons_of_mem _ (preferred other earlier).1, (preferred other earlier).2⟩
  have entered : ∀ (before : Extraction task) atom, Preferred before →
      Preferred (enterAtom graph context before atom) := by
    intro before atom preferred
    unfold enterAtom
    cases graph.witness atom with
    | none => exact preferred
    | some witness =>
        dsimp only
        cases task.ruleToAction witness.rule with
        | none => exact preferred
        | some action => exact grounded _ action witness.row preferred
  have isVisit : extracted = (extraction graph context task).visitAll fuel graph.goals
      ⟨session, [], [], []⟩ :=
    evaluateWithin_eq_visitAll graph fuel session state
  rw [isVisit]
  exact DepthFirst.visitAll_invariant (P := Preferred) (Q := fun _ => True)
    (fun _ _ _ _ => trivial) (fun before atom preferred _ _ => entered before atom preferred)
    (fun _ _ => trivial) (fun _ isPreferred => absurd isPreferred List.not_mem_nil)

end

open FFRPGHeuristic

/-! ### Histories -/

/-- The evaluation reports no false positive and wraps nowhere before the goals are
achieved. The earlier calls and the witnesses ground actions with harmless rows, whose
quantified variables are in the domains of the effect. -/
structure Undisturbed (typed : TypedTask) (task : LiftedTask)
    (numeric : Datalog.NumericOverapproximation) (history : List Call)
    (start e : Datalog.Evaluation (RpgProgram.stratum typed task.ruleLiterals)) : Prop where
  regular : Datalog.Evaluation.Reaches (RpgProgram.data typed task.ruleLiterals) numeric .sum
    (fun e => e.tp.check = false →
      e.RegularCosts (RpgProgram.data typed task.ruleLiterals) numeric .sum) start e
  earlier : FirstRequestsHarmless (sessionAfter task history).requests
  harmless : ∀ atom ∈ e.state.facts, HarmlessWitness task (relaxedPlanningGraph e) atom
  inDomains : ∀ atom ∈ e.state.facts, ∀ witness,
    (relaxedPlanningGraph e).witness atom = some witness → ∀ action,
      task.ruleToAction witness.rule = some action → RowInDomains task action witness

/-- The literal of a predicate without parameters. -/
def baton (predicate : Nat) : Literal := ⟨⟨predicate, []⟩, true⟩

/-- Passes the baton on from the first to the second and from the second to the third. -/
def relay : Planning.Action where
  arity := 0
  effects := [
    { condition := { fluentLiterals := [baton 0] }, effect := { literals := [baton 1] } },
    { condition := { fluentLiterals := [baton 1] }, effect := { literals := [baton 2] } }]
  closed := ConjunctiveCondition.closed_empty

theorem relay_effects_closed : ∀ action ∈ [relay], ∀ effect ∈ action.effects,
    ∀ literal ∈ effect.effect.literals, ∀ index, .parameter index ∈ literal.atom.terms →
      index < action.arity + effect.arity := by
  simp [relay, baton]

theorem relay_preconditions_typed : ∀ action ∈ [relay],
    action.condition.Typed (fun _ => 0) action.arity := by
  intro action mem
  obtain rfl := List.mem_singleton.mp mem
  exact typed_empty _ _

theorem relay_conditions_typed : ∀ action ∈ [relay], ∀ effect ∈ action.effects,
    effect.condition.Typed (fun _ => 0) (action.arity + effect.arity) := by
  intro action mem effect memEffect
  obtain rfl := List.mem_singleton.mp mem
  simp only [relay, List.mem_cons, List.not_mem_nil, or_false] at memEffect
  rcases memEffect with rfl | rfl <;> constructor <;> simp [baton]

theorem relay_effects_typed : ∀ action ∈ [relay], ∀ effect ∈ action.effects,
    ∀ literal ∈ effect.effect.literals, literal.atom.terms.length = 0 := by
  simp [relay, baton]

theorem relay_noAxioms : ∀ ax ∈ ([] : List Axiom), ∀ index,
    .parameter index ∈ ax.head.terms → index < ax.arity :=
  List.forall_mem_nil _

theorem relay_noStaticAtoms : ∀ atom ∈ ([] : List Tuple), atom.objects.length = 0 :=
  List.forall_mem_nil _

theorem relay_fluentAtoms_typed : ∀ atom ∈ [(⟨0, []⟩ : Tuple)], atom.objects.length = 0 := by
  simp

/-- The first has the baton, the third should get it. -/
def relayTask : TypedTask where
  objects := []
  arity := fun _ => 0
  staticAtoms := []
  fluentAtoms := [⟨0, []⟩]
  staticFtermValues := []
  fluentFtermValues := []
  actions := [relay]
  axioms := []
  goal := { fluentLiterals := [baton 2] }
  effects_closed := relay_effects_closed
  heads_closed := relay_noAxioms
  staticAtoms_typed := relay_noStaticAtoms
  fluentAtoms_typed := relay_fluentAtoms_typed
  preconditions_typed := relay_preconditions_typed
  conditions_typed := relay_conditions_typed
  effects_typed := relay_effects_typed

theorem relay_bindings_length : ∀ state, ∀ binding ∈ (fun _ : UnpackedState =>
    ([] : List (Fin [relay].length × List Nat))) state,
      binding.2.length = ([relay].get binding.1).arity :=
  fun _ => List.forall_mem_nil _

noncomputable def relayLifted : LiftedTask where
  task := openDoors.task
  repository := openDoors.repository
  actions := [relay]
  effectDomains := fun _ => []
  ruleLiterals := sortedLiterals
  applicableBindings := fun _ => []
  bindings_length := relay_bindings_length

theorem relay_translates : Translates relayTask relayLifted where
  actions := rfl
  static := fun _ => rfl

noncomputable abbrev relayStratum : Datalog.Stratum := RpgProgram.stratum relayTask sortedLiterals

noncomputable abbrev relayData : Datalog.ProgramData := RpgProgram.data relayTask sortedLiterals

noncomputable abbrev toSecond : Fin relayStratum.length := ⟨0, by decide⟩
noncomputable abbrev toThird : Fin relayStratum.length := ⟨1, by decide⟩

theorem relayStratum_cases (r : Fin relayStratum.length) : r = toSecond ∨ r = toThird := by
  have length : relayStratum.length = 2 := rfl
  have inRange := r.isLt
  simp only [Fin.ext_iff]
  omega

noncomputable def relayStart : Datalog.Evaluation relayStratum :=
  (MaxRPGHeuristic.setGoal freshWorkspace relayTask.goal).start relayStratum relayTask.fluentAtoms

/-- The first pass gives the baton to the second. -/
noncomputable def relayFirst : Datalog.Schedule relayStratum where
  pending := fun _ => []
  reports := fun _ => []
  nullaryWorker := fun _ => 0
  merges := [(toSecond, 0, ⟨1, []⟩)]
  inserted := [⟨1, []⟩]

theorem relayFirst_valid : Datalog.Machine.ValidSchedule relayData Datalog.noNumeric .sum
    relayStart.state relayFirst where
  pending := fun _ _ => List.Perm.refl _
  reports_nodup := fun _ _ => List.nodup_nil
  reports := by
    intro r _ parameters
    rcases relayStratum_cases r with rfl | rfl <;> exact absurd rfl parameters
  merges := by
    rintro ⟨r, worker, head⟩
    constructor
    · intro mem
      cases List.mem_singleton.mp mem
      exact ⟨Finset.mem_univ _, ⟨0, []⟩, List.mem_singleton_self _, rfl, rfl⟩
    · rintro ⟨_, a, mem, sameWorker, sameHead⟩
      rcases relayStratum_cases r with rfl | rfl
      · obtain rfl : a = ⟨0, []⟩ := List.mem_singleton.mp mem
        obtain rfl : worker = 0 := sameWorker.symm
        obtain rfl : head = ⟨1, []⟩ := sameHead.symm
        exact List.mem_singleton_self _
      · cases mem
  inserted := by
    have waiting : (Datalog.Machine.merged relayData .sum relayStart.state
        relayFirst).1.advanceToNextNonempty.2.currentBucket = {⟨1, []⟩} := by decide
    intro head
    rw [waiting, Finset.mem_singleton]
    exact List.mem_singleton

noncomputable def relayMiddle : Datalog.Evaluation relayStratum :=
  ⟨Datalog.Machine.next relayData .sum relayStart.state relayFirst,
    relayStart.achieveHeads relayFirst.inserted⟩

/-- The second pass gives it to the third. -/
noncomputable def relaySecond : Datalog.Schedule relayStratum where
  pending := fun _ => []
  reports := fun _ => []
  nullaryWorker := fun _ => 0
  merges := [(toThird, 0, ⟨2, []⟩)]
  inserted := [⟨2, []⟩]

theorem relaySecond_valid : Datalog.Machine.ValidSchedule relayData Datalog.noNumeric .sum
    relayMiddle.state relaySecond where
  pending := by
    intro r _
    rcases relayStratum_cases r with rfl | rfl <;> exact List.Perm.refl _
  reports_nodup := fun _ _ => List.nodup_nil
  reports := by
    intro r _ parameters
    rcases relayStratum_cases r with rfl | rfl <;> exact absurd rfl parameters
  merges := by
    rintro ⟨r, worker, head⟩
    constructor
    · intro mem
      cases List.mem_singleton.mp mem
      exact ⟨by decide, ⟨0, []⟩, List.mem_singleton_self _, rfl, rfl⟩
    · rintro ⟨active, a, mem, sameWorker, sameHead⟩
      rcases relayStratum_cases r with rfl | rfl
      · have idle : toSecond ∉ relayMiddle.state.active := by decide
        exact absurd active idle
      · obtain rfl : a = ⟨0, []⟩ := List.mem_singleton.mp mem
        obtain rfl : worker = 0 := sameWorker.symm
        obtain rfl : head = ⟨2, []⟩ := sameHead.symm
        exact List.mem_singleton_self _
  inserted := by
    have waiting : (Datalog.Machine.merged relayData .sum relayMiddle.state
        relaySecond).1.advanceToNextNonempty.2.currentBucket = {⟨2, []⟩} := by decide
    intro head
    rw [waiting, Finset.mem_singleton]
    exact List.mem_singleton

noncomputable def relayReached : Datalog.Evaluation relayStratum :=
  ⟨Datalog.Machine.next relayData .sum relayMiddle.state relaySecond,
    relayMiddle.achieveHeads relaySecond.inserted⟩

theorem relayReached_achieved : relayReached.tp.check = true := by decide

theorem relayFirst_advances : (Datalog.Machine.merged relayData .sum relayStart.state
    relayFirst).1.advanceToNextNonempty.1 = true := by decide

theorem relaySecond_advances : (Datalog.Machine.merged relayData .sum relayMiddle.state
    relaySecond).1.advanceToNextNonempty.1 = true := by decide

theorem relayRule_noFalsePositive (r : Fin relayStratum.length) (facts : Datalog.FactSets) :
    (relayStratum.get r).NoFalsePositive Datalog.noNumeric facts := by
  intro binding _ kind literal _ weak
  rcases relayStratum_cases r with rfl | rfl <;> exact absurd weak.1 (by decide)

theorem relayRule_binding {r : Fin relayStratum.length} {facts : List Tuple} {binding : List Nat}
    (holds : Datalog.BodyHolds relayData (relayStratum.get r) facts binding) : binding = [] := by
  have length := holds.1.1
  rcases relayStratum_cases r with rfl | rfl <;> exact List.length_eq_zero_iff.mp length

theorem relayStart_regularCosts : relayStart.RegularCosts relayData Datalog.noNumeric .sum where
  noFalsePositive := fun r _ => relayRule_noFalsePositive r _
  current := by
    intro r _
    rcases relayStratum_cases r with rfl | rfl <;> decide
  bodies := by
    intro r _ binding holds
    obtain rfl := relayRule_binding holds
    rcases relayStratum_cases r with rfl | rfl
    · exact show (1 : Datalog.Cost) < Datalog.maxCost by decide
    · have given := Datalog.FactSets.isValidBinding_iff.mp
        ((Datalog.bodyHolds_iff.mp holds).2.1 .fluent (baton 1) (List.mem_singleton_self _))
      have isFact : (⟨1, []⟩ : Tuple) ∈ [⟨0, []⟩] := given.mpr rfl
      exact absurd isFact (by decide)

theorem relayMiddle_regularCosts : relayMiddle.RegularCosts relayData Datalog.noNumeric .sum where
  noFalsePositive := fun r _ => relayRule_noFalsePositive r _
  current := by
    intro r _
    rcases relayStratum_cases r with rfl | rfl <;> decide
  bodies := by
    intro r _ binding holds
    obtain rfl := relayRule_binding holds
    rcases relayStratum_cases r with rfl | rfl <;> decide

theorem relayStart_reaches {condition : Datalog.Evaluation relayStratum → Prop}
    (first : condition relayStart) (second : condition relayMiddle) (third : condition relayReached) :
    Datalog.Evaluation.Reaches relayData Datalog.noNumeric .sum condition relayStart relayReached := by
  refine ⟨.tail (.single ⟨first, ?_⟩) ⟨second, ?_⟩, third⟩
  · exact ⟨by decide, relayFirst, relayFirst_valid, relayFirst_advances, rfl⟩
  · exact ⟨by decide, relaySecond, relaySecond_valid, relaySecond_advances, rfl⟩

theorem relay_noVariables : ∀ action ∈ relayLifted.actions, ∀ effect ∈ action.effects,
    effect.arity = 0 ∧ relayLifted.effectDomains effect = [] := by
  intro action mem effect memEffect
  obtain rfl := List.mem_singleton.mp mem
  simp only [relay, List.mem_cons, List.not_mem_nil, or_false] at memEffect
  rcases memEffect with rfl | rfl <;> exact ⟨rfl, rfl⟩

theorem relay_regular : Datalog.Evaluation.Reaches relayData Datalog.noNumeric .sum
    (fun e => e.tp.check = false → e.RegularCosts relayData Datalog.noNumeric .sum) relayStart
    relayReached := by
  refine relayStart_reaches (fun _ => relayStart_regularCosts) (fun _ => relayMiddle_regularCosts)
    fun unsatisfied => ?_
  rw [relayReached_achieved] at unsatisfied
  cases unsatisfied

theorem relay_witnessInvariant : Datalog.WitnessInvariant relayData Datalog.noNumeric .sum
    (MaxRPGHeuristic.goalFacts relayTask.goal) relayTask.fluentAtoms relayReached :=
  @witnessInvariant_of_reaches relayTask relayLifted _ _ _ _ _ relay_fluentAtoms_typed relay_regular

/-- If the earlier calls left an exact cache, nothing disturbs the extraction. -/
theorem relay_undisturbed {history : List Call}
    (exact : CacheExact relayLifted (sessionAfter relayLifted history).cache) :
    Undisturbed relayTask relayLifted Datalog.noNumeric history relayStart relayReached := by
  have rows {atom : Tuple} (isFact : atom ∈ relayReached.state.facts) {witness : Witness}
      (isWitness : (relaxedPlanningGraph relayReached).witness atom = some witness)
      {action : Fin relayLifted.actions.length}
      (isAction : relayLifted.ruleToAction witness.rule = some action) :=
    rows_of_noVariables relay_noVariables relay_witnessInvariant isFact isWitness isAction
  refine ⟨relay_regular, ?_, fun atom isFact witness isWitness action isAction => ?_,
    fun atom isFact witness isWitness action isAction => ?_⟩
  · rw [show (sessionAfter relayLifted history).cache = _ from
      replayed_sessionAfter relayLifted history] at exact
    exact (cacheExact_replay_iff _).mp exact
  · exact (rows isFact isWitness isAction).1
  · exact (rows isFact isWitness isAction).2

theorem relay_initial : CacheExact relayLifted (sessionAfter relayLifted []).cache := by
  intro action objects groundAction cached
  cases cached

/-- The fact that the baton is at a place. -/
noncomputable def batonFact (predicate : Nat) : FDRFact :=
  relayLifted.repository.fluentFact ⟨predicate, []⟩

theorem batonFact_var_inj {predicate other : Nat}
    (same : (batonFact predicate).var = (batonFact other).var) : predicate = other := by
  have equal : (predicate, ([] : List Nat)) = (other, []) := Encodable.encode_injective same
  exact congrArg Prod.fst equal

/-- The first has the baton. -/
noncomputable def relayUnpacked : UnpackedState :=
  { UnpackedState.empty with fluentFacts := fun var => if var = (batonFact 0).var then 1 else 0 }

theorem batonFact_holds_iff (predicate : Nat) :
    batonFact predicate ∈ relaxedState relayUnpacked ↔ predicate = 0 := by
  change (if (batonFact predicate).var = (batonFact 0).var then 1 else 0) = 1 ↔ _
  constructor
  · intro holds
    by_contra other
    rw [if_neg fun same => other (batonFact_var_inj same)] at holds
    cases holds
  · rintro rfl
    exact if_pos rfl

theorem relay_holds : ∀ atom ∈ [(⟨0, []⟩ : Tuple)],
    relayLifted.repository.fluentFact atom ∈ relaxedState relayUnpacked := by
  intro atom mem
  obtain rfl := List.mem_singleton.mp mem
  exact (batonFact_holds_iff 0).mpr rfl

/-- The first evaluation of the task. -/
theorem relay_collected : Collected (relaxedPlanningGraph relayReached)
    ⟨relayLifted.task, relayUnpacked, .finite 0⟩
    (evaluate (sessionAfter relayLifted []) (relaxedPlanningGraph relayReached) relayUnpacked) := by
  have undisturbed := relay_undisturbed relay_initial
  exact (plan_of_evaluateWithin relay_translates relay_fluentAtoms_typed relay_witnessInvariant
    relay_holds relayReached_achieved relay_initial undisturbed.harmless undisturbed.inDomains
    relayUnpacked (Nat.lt_succ_self _)).1

/-- The only action of the task. -/
noncomputable def relayAction : GroundAction := relayLifted.instantiate ⟨0, Nat.zero_lt_one⟩ []

/-- One execution only passes the baton to the second. -/
theorem relayAction_once : batonFact 2 ∉ relaxedSuccessor relayLifted.task
    (relaxedState relayUnpacked) relayAction := by
  rintro (holds | ⟨effect, mem, holds, added⟩)
  · exact absurd ((batonFact_holds_iff 2).mp holds) (by decide)
  · have mem := (relayLifted.repository.conditionalEffects.mem_canonicalize _ _).mp mem
    obtain ⟨lifted, memEffect, fromEffect⟩ := List.mem_flatMap.mp mem
    obtain ⟨row, memRow, rfl⟩ := List.mem_map.mp fromEffect
    change lifted ∈ relay.effects at memEffect
    simp only [relay, List.mem_cons, List.not_mem_nil, or_false] at memEffect
    rcases memEffect with rfl | rfl
    · have isSecond : batonFact 2 = batonFact 1 := List.mem_singleton.mp added
      exact absurd (batonFact_var_inj (congrArg FDRFact.var isSecond)) (by decide)
    · have second := holds.positive (batonFact 1) (List.mem_singleton_self _)
      exact absurd ((batonFact_holds_iff 1).mp second) (by decide)

end Tyr.Planning
