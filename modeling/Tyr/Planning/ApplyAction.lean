import Tyr.Planning.EffectFamilies
import Tyr.Planning.MergedInstances

/-!
Adding after deleting.

The facts that the fired effects delete are removed from the successor, and then
those that they add are written.

* `applyAction_fact_iff` — the facts of the successor, if at most one value of each
  variable is added.
* `addAfterDelete_iff` — the action binding has the same successor as the ground
  action, whatever the order of the indices, exactly if all fired effects on a function
  term write the same value and the increases of merged instances are neutral.
-/

namespace Tyr.Planning

open Tyr.Lib Tyr.Formalism Tyr.Formalism.Planning

/-! ### Facts -/

/-- The value of a variable after deletes and adds: the last value that is added, or
else the old one unless it is deleted. -/
def factAfter (facts : Nat → FDRValue) (delEffects addEffects : List FDRFact) (var : Nat) : FDRValue :=
  match addEffects.reverse.find? (·.var = var) with
  | some fact => fact.value
  | none => if (⟨var, facts var⟩ : FDRFact) ∈ delEffects then FDRValue.none else facts var

theorem foldl_deleteFact_fluentFacts (delEffects : List FDRFact) (state : UnpackedState) (var : Nat) :
    (delEffects.foldl deleteFact state).fluentFacts var =
      if (⟨var, state.fluentFacts var⟩ : FDRFact) ∈ delEffects then FDRValue.none
      else state.fluentFacts var := by
  induction delEffects generalizing state with
  | nil => simp
  | cons fact rest ih =>
      rw [List.foldl_cons, ih]
      by_cases holds : state.fluentFacts fact.var = fact.value
      · have deleted : deleteFact state fact = state.setFact ⟨fact.var, FDRValue.none⟩ := if_pos holds
        rw [deleted, UnpackedState.setFact]
        by_cases same : var = fact.var
        · subst same
          simp [holds]
        · have differs : (⟨var, state.fluentFacts var⟩ : FDRFact) ≠ fact := by
            rintro rfl
            exact same rfl
          simp [Function.update_of_ne same, differs]
      · have kept : deleteFact state fact = state := if_neg holds
        have differs : (⟨var, state.fluentFacts var⟩ : FDRFact) ≠ fact := by
          rintro rfl
          exact holds rfl
        simp [kept, differs]

theorem foldl_setFact_fluentFacts (addEffects : List FDRFact) (state : UnpackedState) (var : Nat) :
    (addEffects.foldl UnpackedState.setFact state).fluentFacts var =
      match addEffects.reverse.find? (·.var = var) with
      | some fact => fact.value
      | none => state.fluentFacts var := by
  induction addEffects using List.reverseRecOn with
  | nil => rfl
  | append_singleton rest fact ih =>
      rw [List.foldl_append, List.foldl_cons, List.foldl_nil, UnpackedState.setFact,
        List.reverse_append, List.reverse_singleton, List.singleton_append]
      by_cases same : fact.var = var
      · subst same
        simp
      · rw [List.find?_cons_of_neg (by simpa using same), ← ih]
        exact Function.update_of_ne (Ne.symm same) ..

/-- Deletes and adds make the facts of the successor. -/
theorem fluentFacts_deleteThenAdd (delEffects addEffects : List FDRFact) (state : UnpackedState) :
    (addEffects.foldl UnpackedState.setFact (delEffects.foldl deleteFact state)).fluentFacts =
      factAfter state.fluentFacts delEffects addEffects := by
  funext var
  rw [foldl_setFact_fluentFacts, foldl_deleteFact_fluentFacts, factAfter]

/-- At most one value of each variable is added. -/
def OneValuePerVariable (addEffects : List FDRFact) : Prop :=
  ∀ fact ∈ addEffects, ∀ other ∈ addEffects, fact.var = other.var → fact.value = other.value

theorem factAfter_eq_iff {facts : Nat → FDRValue} {delEffects addEffects : List FDRFact}
    (oneValue : OneValuePerVariable addEffects) {fact : FDRFact} (isAtom : fact.value ≠ FDRValue.none) :
    factAfter facts delEffects addEffects fact.var = fact.value ↔ fact ∈ addEffects ∨
      (facts fact.var = fact.value ∧ fact ∉ delEffects ∧ ∀ added ∈ addEffects, added.var ≠ fact.var) := by
  unfold factAfter
  cases found : addEffects.reverse.find? (·.var = fact.var) with
  | some added =>
      have mem : added ∈ addEffects := List.mem_reverse.mp (List.mem_of_find?_eq_some found)
      have sameVar : added.var = fact.var := by simpa using List.find?_some found
      constructor
      · intro sameValue
        have same : added = fact := by
          cases added
          cases fact
          simp_all
        exact .inl (same ▸ mem)
      · rintro (isAdded | ⟨_, _, notAdded⟩)
        · exact oneValue added mem fact isAdded sameVar
        · exact absurd sameVar (notAdded added mem)
  | none =>
      have notAdded : ∀ added ∈ addEffects, added.var ≠ fact.var := by
        intro added mem
        simpa using List.find?_eq_none.mp found added (List.mem_reverse.mpr mem)
      have notMem : fact ∉ addEffects := fun mem => notAdded fact mem rfl
      constructor
      · intro value
        dsimp only at value
        split at value
        · exact absurd value.symm isAtom
        · rename_i notDeleted
          rw [value] at notDeleted
          exact .inr ⟨value, notDeleted, notAdded⟩
      · rintro (isAdded | ⟨holds, notDeleted, _⟩)
        · exact absurd isAdded notMem
        · dsimp only
          rw [holds, if_neg notDeleted]

/-- The facts depend on the elements of the lists only. -/
theorem factAfter_congr {facts : Nat → FDRValue} {delEffects delEffects' addEffects addEffects' : List FDRFact}
    (oneValue : OneValuePerVariable addEffects) (dels : ∀ fact, fact ∈ delEffects ↔ fact ∈ delEffects')
    (adds : ∀ fact, fact ∈ addEffects ↔ fact ∈ addEffects') :
    factAfter facts delEffects addEffects = factAfter facts delEffects' addEffects' := by
  funext var
  unfold factAfter
  cases found : addEffects.reverse.find? (·.var = var) with
  | none =>
      have notAdded : ∀ added ∈ addEffects', added.var ≠ var := by
        intro added mem
        simpa using List.find?_eq_none.mp found added (List.mem_reverse.mpr ((adds added).mpr mem))
      have found' : addEffects'.reverse.find? (·.var = var) = none := by
        rw [List.find?_eq_none]
        intro added mem
        simpa using notAdded added (List.mem_reverse.mp mem)
      simp only [found', dels]
  | some added =>
      have mem : added ∈ addEffects := List.mem_reverse.mp (List.mem_of_find?_eq_some found)
      have sameVar : added.var = var := by simpa using List.find?_some found
      cases found' : addEffects'.reverse.find? (·.var = var) with
      | none =>
          have inReverse := List.mem_reverse.mpr ((adds added).mp mem)
          exact absurd sameVar (by simpa using List.find?_eq_none.mp found' added inReverse)
      | some added' =>
          have mem' : added' ∈ addEffects' := List.mem_reverse.mp (List.mem_of_find?_eq_some found')
          have sameVar' : added'.var = var := by simpa using List.find?_some found'
          exact oneValue added mem added' ((adds added').mpr mem') (sameVar.trans sameVar'.symm)

/-! ### The successor -/

section

variable (context : StateContext)

/-- The facts that the effects delete when they fire. -/
def deletedFacts (effects : List GroundConditionalEffect) : List FDRFact :=
  (firedEffects context effects).flatMap GroundConjunctiveEffect.negativeFacts

def addedFacts (effects : List GroundConditionalEffect) : List FDRFact :=
  (firedEffects context effects).flatMap GroundConjunctiveEffect.positiveFacts

/-- The successor state of deletes, adds and updates. -/
def outcome (delEffects addEffects : List FDRFact) (updates : List NumericUpdate) : UnpackedState :=
  registerState context.task
    { fluentFacts := factAfter context.unpackedState.fluentFacts delEffects addEffects
      fluentValues := NumericUpdate.writeAll context.unpackedState.fluentValues updates
        context.unpackedState.fluentValues
      derivedAtoms := fun _ => false }

variable {context}

@[simp] theorem foldl_deleteFact_derivedAtoms (facts : List FDRFact) (state : UnpackedState) :
    (facts.foldl deleteFact state).derivedAtoms = state.derivedAtoms := by
  induction facts generalizing state with
  | nil => rfl
  | cons fact rest ih =>
      rw [List.foldl_cons, ih]
      unfold deleteFact
      split <;> rfl

@[simp] theorem foldl_setFact_derivedAtoms (facts : List FDRFact) (state : UnpackedState) :
    (facts.foldl UnpackedState.setFact state).derivedAtoms = state.derivedAtoms := by
  induction facts generalizing state with
  | nil => rfl
  | cons fact rest ih => rw [List.foldl_cons, ih, UnpackedState.setFact]

/-- Registering a state with the facts and values of an outcome. -/
theorem registerState_eq_outcome {succState : UnpackedState} {delEffects addEffects : List FDRFact}
    {updates : List NumericUpdate} (facts : succState.fluentFacts = context.unpackedState.fluentFacts)
    (values : succState.fluentValues = NumericUpdate.writeAll context.unpackedState.fluentValues
      updates context.unpackedState.fluentValues)
    (derived : succState.derivedAtoms = fun _ => false) :
    registerState context.task
        (addEffects.foldl UnpackedState.setFact (delEffects.foldl deleteFact succState)) =
      outcome context delEffects addEffects updates := by
  have same : addEffects.foldl UnpackedState.setFact (delEffects.foldl deleteFact succState) =
      { fluentFacts := factAfter context.unpackedState.fluentFacts delEffects addEffects
        fluentValues := NumericUpdate.writeAll context.unpackedState.fluentValues updates
          context.unpackedState.fluentValues
        derivedAtoms := fun _ => false } := by
    have sameFacts := fluentFacts_deleteThenAdd delEffects addEffects succState
    have sameValues := (foldl_setFact_fluentValues addEffects (delEffects.foldl deleteFact succState)).trans
      (foldl_deleteFact_fluentValues delEffects succState)
    have sameDerived := (foldl_setFact_derivedAtoms addEffects
      (delEffects.foldl deleteFact succState)).trans (foldl_deleteFact_derivedAtoms delEffects succState)
    rw [facts] at sameFacts
    rw [values] at sameValues
    rw [derived] at sameDerived
    generalize addEffects.foldl UnpackedState.setFact (delEffects.foldl deleteFact succState) = result
      at sameFacts sameValues sameDerived
    obtain ⟨resultFacts, resultValues, resultDerived⟩ := result
    dsimp only at sameFacts sameValues sameDerived
    rw [sameFacts, sameValues, sameDerived]
  rw [same, outcome]

theorem foldl_setNumericEffects (effects : List GroundConjunctiveEffect) (succState : UnpackedState) :
    (effects.foldl (fun state effect => setNumericEffects context state effect.numericEffects)
        succState).fluentFacts = succState.fluentFacts ∧
      (effects.foldl (fun state effect => setNumericEffects context state effect.numericEffects)
        succState).derivedAtoms = succState.derivedAtoms := by
  have one : ∀ (numericEffects : List GroundNumericEffect) (state : UnpackedState),
      (setNumericEffects context state numericEffects).fluentFacts = state.fluentFacts ∧
        (setNumericEffects context state numericEffects).derivedAtoms = state.derivedAtoms := by
    intro numericEffects state
    induction numericEffects generalizing state with
    | nil => exact ⟨rfl, rfl⟩
    | cons numeric rest ih => exact ih _
  induction effects generalizing succState with
  | nil => exact ⟨rfl, rfl⟩
  | cons effect rest ih =>
      obtain ⟨facts, derived⟩ := ih (setNumericEffects context succState effect.numericEffects)
      exact ⟨facts.trans (one _ _).1, derived.trans (one _ _).2⟩

/-- The successor of a ground action. -/
theorem applyAction_eq (action : GroundAction) :
    applyAction context action =
      ⟨outcome context (deletedFacts context action.effects) (addedFacts context action.effects)
          (firedUpdates context action.effects),
        successorMetric ⟨context.task,
          outcome context (deletedFacts context action.effects) (addedFacts context action.effects)
            (firedUpdates context action.effects),
          addIncreases context context.auxiliaryValue (increases context action)⟩⟩ := by
  have state : (applyAction context action).state = outcome context
      (deletedFacts context action.effects) (addedFacts context action.effects)
      (firedUpdates context action.effects) := by
    have values : (applyAction context action).state.fluentValues = _ :=
      applyAction_fluentValues action
    simp only [applyAction, processEffects, foldl_processEffect_eq, List.nil_append, registerState,
      foldl_setFact_fluentValues, foldl_deleteFact_fluentValues] at values
    simp only [applyAction, processEffects, foldl_processEffect_eq, List.nil_append]
    obtain ⟨facts, derived⟩ := @foldl_setNumericEffects context
      (firedEffects context action.effects) context.unpackedState.assignUnextendedPart
    exact registerState_eq_outcome facts values derived
  have metric : (applyAction context action).metric = successorMetric ⟨context.task,
      (applyAction context action).state,
      addIncreases context context.auxiliaryValue (increases context action)⟩ := by
    have cost := processEffects_auxiliaryValue context action context.unpackedState.assignUnextendedPart
    simp only [applyAction, cost]
  rw [state] at metric
  rw [← metric, ← state]

end

namespace ApplicabilityContext

variable (context : ApplicabilityContext)

/-- The facts of the fired instances that are deleted or added. -/
def firedFacts (polarity : Bool) (domains : EffectDomains) (effects : List ConditionalEffect) :
    List FDRFact :=
  (context.firedInstances domains effects).flatMap fun inst =>
    (context.extend inst.1).effectFacts polarity inst.2.effect

variable {context}

theorem foldl_setNumericEffectsLifted (instances : List EffectInstance) (succState : UnpackedState) :
    (instances.foldl (fun state inst =>
        (context.extend inst.1).setNumericEffectsLifted state inst.2.effect.numericEffects)
        succState).fluentFacts = succState.fluentFacts ∧
      (instances.foldl (fun state inst =>
        (context.extend inst.1).setNumericEffectsLifted state inst.2.effect.numericEffects)
        succState).derivedAtoms = succState.derivedAtoms := by
  have one : ∀ (context : ApplicabilityContext) (numericEffects : List NumericEffect)
      (state : UnpackedState),
      (context.setNumericEffectsLifted state numericEffects).fluentFacts = state.fluentFacts ∧
        (context.setNumericEffectsLifted state numericEffects).derivedAtoms = state.derivedAtoms := by
    intro context numericEffects state
    induction numericEffects generalizing state with
    | nil => exact ⟨rfl, rfl⟩
    | cons numeric rest ih => exact ih _
  induction instances generalizing succState with
  | nil => exact ⟨rfl, rfl⟩
  | cons inst rest ih =>
      obtain ⟨facts, derived⟩ := ih ((context.extend inst.1).setNumericEffectsLifted succState
        inst.2.effect.numericEffects)
      exact ⟨facts.trans (one _ _ _).1, derived.trans (one _ _ _).2⟩

/-- The successor of an action binding. -/
theorem applyActionLifted_eq (context : ApplicabilityContext) (domains : EffectDomains)
    (action : Action) :
    applyActionLifted context domains action =
      ⟨outcome context.state (context.firedFacts false domains action.effects)
          (context.firedFacts true domains action.effects)
          (context.firedUpdatesLifted domains action.effects),
        successorMetric ⟨context.state.task,
          outcome context.state (context.firedFacts false domains action.effects)
            (context.firedFacts true domains action.effects)
            (context.firedUpdatesLifted domains action.effects),
          context.addIncreasesLifted context.state.auxiliaryValue
            (context.firedInstances domains action.effects)⟩⟩ := by
  have processed := @processed_foldl context (effectInstances domains action.effects)
    ⟨context.state.unpackedState.assignUnextendedPart, context, [], []⟩ (Reads.refl context)
  have values := applyActionLifted_fluentValues context domains action
  simp only [applyActionLifted, registerState, foldl_setFact_fluentValues,
    foldl_deleteFact_fluentValues, processEffectsLifted] at values
  obtain ⟨facts, derived⟩ := @foldl_setNumericEffectsLifted context
    (context.firedInstances domains action.effects)
    context.state.unpackedState.assignUnextendedPart
  have succFacts := (congrArg UnpackedState.fluentFacts processed.succState).trans facts
  have succDerived := (congrArg UnpackedState.derivedAtoms processed.succState).trans derived
  have deleted := processed.delEffects
  have added := processed.addEffects
  rw [List.nil_append] at deleted added
  simp only [applyActionLifted, processEffectsLifted, deleted, added, processed.auxiliaryValue]
  rw [← firedInstances, registerState_eq_outcome succFacts values succDerived]
  rfl

end ApplicabilityContext

/-! ### The action binding and the ground action -/

section

variable (context : ApplicabilityContext) (domains : EffectDomains) (action : Action)

/-- The ground action of the binding. -/
def groundAction : GroundAction := action.instantiate context.repository domains context.binding

/-- If the fired instances add at most one value per variable, then an atom holds in
the successor iff a fired instance adds it, or it holds in the state, no fired
instance deletes it and no value of its variable is added; and the action binding
has the same successor. -/
structure AddAfterDelete : Prop where
  atom : OneValuePerVariable
      (addedFacts context.state (action.instances context.repository domains context.binding)) →
    ∀ fact : FDRFact, fact.value ≠ FDRValue.none →
      ((applyAction context.state (groundAction context domains action)).state.fluentFacts fact.var =
          fact.value ↔
        fact ∈ addedFacts context.state (action.instances context.repository domains context.binding) ∨
          (context.state.unpackedState.fluentFacts fact.var = fact.value ∧
            fact ∉ deletedFacts context.state
              (action.instances context.repository domains context.binding) ∧
            ∀ added ∈ addedFacts context.state
              (action.instances context.repository domains context.binding), added.var ≠ fact.var))
  binding : OneValuePerVariable
      (addedFacts context.state (action.instances context.repository domains context.binding)) →
    applyActionLifted context domains action =
      applyAction context.state (groundAction context domains action)

variable {context domains action}

theorem mem_addedFacts {fact : FDRFact} :
    fact ∈ addedFacts context.state (groundAction context domains action).effects ↔
      fact ∈ addedFacts context.state (action.instances context.repository domains context.binding) := by
  simp only [addedFacts, groundAction, firedEffects, List.mem_flatMap, List.mem_map, List.mem_filter,
    Action.instantiate, Canonicalization.mem_canonicalize]

theorem mem_deletedFacts {fact : FDRFact} :
    fact ∈ deletedFacts context.state (groundAction context domains action).effects ↔
      fact ∈ deletedFacts context.state
        (action.instances context.repository domains context.binding) := by
  simp only [deletedFacts, groundAction, firedEffects, List.mem_flatMap, List.mem_map, List.mem_filter,
    Action.instantiate, Canonicalization.mem_canonicalize]

/-- The atoms of the successor of the ground action. -/
theorem applyAction_fact_iff (oneValue : OneValuePerVariable
      (addedFacts context.state (action.instances context.repository domains context.binding)))
    {fact : FDRFact} (isAtom : fact.value ≠ FDRValue.none) :
    (applyAction context.state (groundAction context domains action)).state.fluentFacts fact.var =
        fact.value ↔
      fact ∈ addedFacts context.state (action.instances context.repository domains context.binding) ∨
        (context.state.unpackedState.fluentFacts fact.var = fact.value ∧
          fact ∉ deletedFacts context.state
            (action.instances context.repository domains context.binding) ∧
          ∀ added ∈ addedFacts context.state
            (action.instances context.repository domains context.binding), added.var ≠ fact.var) := by
  have oneValueGround : OneValuePerVariable
      (addedFacts context.state (groundAction context domains action).effects) :=
    fun fact mem other memOther => oneValue fact (mem_addedFacts.mp mem) other (mem_addedFacts.mp memOther)
  rw [applyAction_eq]
  refine (factAfter_eq_iff oneValueGround isAtom).trans ?_
  simp only [mem_addedFacts, mem_deletedFacts]

/-- The state after the deletes, adds and updates of the fired instances. -/
def instancesOutcome (context : ApplicabilityContext) (domains : EffectDomains) (action : Action) :
    UnpackedState :=
  outcome context.state (context.firedFacts false domains action.effects)
    (context.firedFacts true domains action.effects)
    (context.firedUpdatesLifted domains action.effects)

/-- Merging equal ground effects and listing them in another order is neutral: the fired
effects on a function term all write the same value, and adding the increases of the
instances that are merged into earlier ones does not change the metric. -/
structure MergesNeutral [LinearOrder (FunctionExpression GroundFunctionTerm)]
    (context : ApplicabilityContext) (domains : EffectDomains) (action : Action) : Prop where
  update : ∀ update ∈ context.firedUpdatesLifted domains action.effects,
    ∀ other ∈ context.firedUpdatesLifted domains action.effects, update.target = other.target →
      update.result context.state.unpackedState.fluentValues =
        other.result context.state.unpackedState.fluentValues
  increase : ∀ [LinearOrder GroundNumericEffect] [LinearOrder GroundConditionalEffect],
    let totalCost := context.addIncreasesLifted context.state.auxiliaryValue
      (context.sorted.distinctInstances domains action)
    successorMetric ⟨context.state.task, instancesOutcome context domains action,
        context.addIncreasesLifted totalCost (context.sorted.mergedInstances domains action)⟩ =
      successorMetric ⟨context.state.task, instancesOutcome context domains action, totalCost⟩

section

variable [LinearOrder (FunctionExpression GroundFunctionTerm)]

/-- Actions add after they delete, whatever the order of the indices of the ground
effects. -/
def AddsAfterDeletes (context : ApplicabilityContext) (domains : EffectDomains) (action : Action) :
    Prop :=
  ∀ [LinearOrder GroundNumericEffect] [LinearOrder GroundConditionalEffect],
    AddAfterDelete context.sorted domains action

variable {context : ApplicabilityContext} {domains : EffectDomains} {action : Action}

section

variable [LinearOrder GroundNumericEffect] [LinearOrder GroundConditionalEffect]

theorem mem_addedFacts_iff (neutral : context.NeutralArguments domains action) {fact : FDRFact} :
    fact ∈ addedFacts context.state
        (action.instances context.sorted.repository domains context.binding) ↔
      fact ∈ context.firedFacts true domains action.effects := by
  have facts : ∀ inst : EffectInstance, (context.extend inst.1).effectFacts true inst.2.effect =
      (context.sorted.groundInstance inst).effect.positiveFacts := by
    intro inst
    simp only [ApplicabilityContext.effectFacts, beq_true]
    rfl
  simp only [addedFacts, ApplicabilityContext.firedFacts, List.mem_flatMap,
    ApplicabilityContext.mem_firedEffects_iff neutral, facts]
  constructor
  · rintro ⟨_, ⟨inst, isFired, rfl⟩, isAdded⟩
    exact ⟨inst, isFired, isAdded⟩
  · rintro ⟨inst, isFired, isAdded⟩
    exact ⟨_, ⟨inst, isFired, rfl⟩, isAdded⟩

theorem mem_deletedFacts_iff (neutral : context.NeutralArguments domains action) {fact : FDRFact} :
    fact ∈ deletedFacts context.state
        (action.instances context.sorted.repository domains context.binding) ↔
      fact ∈ context.firedFacts false domains action.effects := by
  have facts : ∀ inst : EffectInstance, (context.extend inst.1).effectFacts false inst.2.effect =
      (context.sorted.groundInstance inst).effect.negativeFacts := by
    intro inst
    simp only [ApplicabilityContext.effectFacts, beq_false]
    rfl
  simp only [deletedFacts, ApplicabilityContext.firedFacts, List.mem_flatMap,
    ApplicabilityContext.mem_firedEffects_iff neutral, facts]
  constructor
  · rintro ⟨_, ⟨inst, isFired, rfl⟩, isDeleted⟩
    exact ⟨inst, isFired, isDeleted⟩
  · rintro ⟨inst, isFired, isDeleted⟩
    exact ⟨_, ⟨inst, isFired, rfl⟩, isDeleted⟩

/-- The successor of the action binding does not depend on the order of the indices. -/
theorem applyActionLifted_sorted (context : ApplicabilityContext) (domains : EffectDomains)
    (action : Action) :
    applyActionLifted context.sorted domains action = applyActionLifted context domains action := by
  rw [ApplicabilityContext.applyActionLifted_eq, ApplicabilityContext.applyActionLifted_eq]
  rfl

/-- The successor of the ground action, in terms of the fired instances. -/
theorem applyAction_groundAction (neutral : context.NeutralArguments domains action)
    (oneValue : OneValuePerVariable (context.firedFacts true domains action.effects)) :
    applyAction context.state (groundAction context.sorted domains action) =
      ⟨outcome context.state (context.firedFacts false domains action.effects)
          (context.firedFacts true domains action.effects)
          (firedUpdates context.state (groundAction context.sorted domains action).effects),
        successorMetric ⟨context.state.task,
          outcome context.state (context.firedFacts false domains action.effects)
            (context.firedFacts true domains action.effects)
            (firedUpdates context.state (groundAction context.sorted domains action).effects),
          context.addIncreasesLifted context.state.auxiliaryValue
            (context.sorted.distinctInstances domains action)⟩⟩ := by
  have facts : factAfter context.state.unpackedState.fluentFacts
      (context.firedFacts false domains action.effects)
      (context.firedFacts true domains action.effects) =
      factAfter context.state.unpackedState.fluentFacts
        (deletedFacts context.state (groundAction context.sorted domains action).effects)
        (addedFacts context.state (groundAction context.sorted domains action).effects) := by
    refine factAfter_congr oneValue (fun fact => ?_) fun fact => ?_
    · rw [← mem_deletedFacts_iff neutral]
      exact (@mem_deletedFacts context.sorted domains action fact).symm
    · rw [← mem_addedFacts_iff neutral]
      exact (@mem_addedFacts context.sorted domains action fact).symm
  have increased := ApplicabilityContext.addIncreases_ground neutral context.state.auxiliaryValue
  rw [applyAction_eq, outcome, outcome, facts, ← increased]
  rfl

end

/-- The action binding has the successor of the ground action, whatever the orders are, exactly
if merging is neutral. -/
theorem sameSuccessor_iff (neutral : context.NeutralArguments domains action)
    (oneValue : OneValuePerVariable (context.firedFacts true domains action.effects)) :
    (∀ [LinearOrder GroundNumericEffect] [LinearOrder GroundConditionalEffect],
      applyActionLifted context domains action =
        applyAction context.state (groundAction context.sorted domains action)) ↔
      MergesNeutral context domains action := by
  have updates : ∀ [LinearOrder GroundNumericEffect] [LinearOrder GroundConditionalEffect],
      ∀ update, update ∈ context.firedUpdatesLifted domains action.effects ↔
        update ∈ firedUpdates context.state (groundAction context.sorted domains action).effects := by
    intro numericOrder effectOrder update
    rw [← ApplicabilityContext.mem_firedUpdates_iff neutral]
    exact (@mem_groundActionUpdates context.sorted domains action update).symm
  have costs : ∀ [LinearOrder GroundNumericEffect] [LinearOrder GroundConditionalEffect],
      context.addIncreasesLifted context.state.auxiliaryValue
          (context.firedInstances domains action.effects) =
        context.addIncreasesLifted (context.addIncreasesLifted context.state.auxiliaryValue
          (context.sorted.distinctInstances domains action))
          (context.sorted.mergedInstances domains action) :=
    context.sorted.addIncreasesLifted_firedInstances domains action _
  constructor
  · intro same
    have lifted := context.applyActionLifted_eq domains action
    constructor
    · -- With the right orders each update is written last.
      have written : ∀ update ∈ context.firedUpdatesLifted domains action.effects,
          (applyActionLifted context domains action).state.fluentValues update.target =
            update.result context.state.unpackedState.fluentValues := by
        intro update mem
        obtain ⟨numericOrder, effectOrder, others, isLast⟩ :=
          ApplicabilityContext.exists_orders_last neutral mem
        rw [same, applyAction_fluentValues]
        rw [groundAction, show context.sorted.binding = context.binding from rfl, isLast,
          NumericUpdate.writeAll_concat]
      intro update mem other memOther sameTarget
      rw [← written update mem, ← written other memOther, sameTarget]
    · intro numericOrder effectOrder totalCost
      have nodes := @same numericOrder effectOrder
      rw [lifted, applyAction_groundAction neutral oneValue] at nodes
      injection nodes with sameState sameMetric
      rw [← sameState, costs] at sameMetric
      exact sameMetric
  · intro neutralMerge numericOrder effectOrder
    have values := NumericUpdate.writeAll_congr updates neutralMerge.update
      context.state.unpackedState.fluentValues
    have sameState : instancesOutcome context domains action =
        outcome context.state (context.firedFacts false domains action.effects)
          (context.firedFacts true domains action.effects)
          (firedUpdates context.state (groundAction context.sorted domains action).effects) := by
      rw [instancesOutcome, outcome, outcome, values]
    have ground := applyAction_groundAction neutral oneValue
    rw [← sameState] at ground
    rw [context.applyActionLifted_eq]
    refine Eq.trans ?_ ground.symm
    rw [costs]
    exact congrArg (UnpackedNode.mk _) neutralMerge.increase

/-- The action binding agrees with the ground action exactly if merging is neutral. -/
theorem addAfterDelete_iff (neutral : context.NeutralArguments domains action) :
    AddsAfterDeletes context domains action ↔
      (OneValuePerVariable (context.firedFacts true domains action.effects) →
        MergesNeutral context domains action) := by
  have added : ∀ [LinearOrder GroundNumericEffect] [LinearOrder GroundConditionalEffect],
      OneValuePerVariable (context.firedFacts true domains action.effects) ↔
        OneValuePerVariable (addedFacts context.state
          (action.instances context.sorted.repository domains context.binding)) := by
    intro numericOrder effectOrder
    simp only [OneValuePerVariable, mem_addedFacts_iff neutral]
  constructor
  · intro adds oneValue
    refine (sameSuccessor_iff neutral oneValue).mp ?_
    intro numericOrder effectOrder
    rw [← applyActionLifted_sorted]
    exact adds.binding (added.mp oneValue)
  · intro agree numericOrder effectOrder
    refine ⟨fun oneValue fact isAtom => applyAction_fact_iff oneValue isAtom, fun oneValue => ?_⟩
    have oneValue := added.mpr oneValue
    rw [applyActionLifted_sorted]
    exact (sameSuccessor_iff neutral oneValue).mpr (agree oneValue)

end

end

/-! A number is assigned once for each of two objects: both instances are the same ground
effect, which writes the same and costs nothing. -/

def resetForEach : Action where
  arity := 0
  effects := [{
    arity := 1
    effect :=
      { numericEffects := [⟨.assign, 0, [], .multi .mul (.number (.finite 1)) [.number (.finite 1)]⟩]
        auxiliaryNumericEffect := some (.number (.finite 0)) } }]
  closed := ConjunctiveCondition.closed_empty

theorem resetForEach_updates : emptyContext.firedUpdatesLifted twoObjects resetForEach.effects =
    [⟨0, .assign, .finite 1 * .finite 1⟩, ⟨0, .assign, .finite 1 * .finite 1⟩] := rfl

/-- Increases by zero add nothing. -/
theorem addIncreasesLifted_of_free {context : ApplicabilityContext}
    {instances : List EffectInstance}
    (free : ∀ inst ∈ instances, inst.2.effect.auxiliaryNumericEffect = some (.number (.finite 0)))
    (init : Number) : context.addIncreasesLifted init instances = init := by
  induction instances generalizing init with
  | nil => rfl
  | cons inst rest ih =>
      rw [ApplicabilityContext.addIncreasesLifted, List.foldl_cons,
        ← ApplicabilityContext.addIncreasesLifted, free inst List.mem_cons_self]
      refine (ih (fun other mem => free other (List.mem_cons_of_mem _ mem)) _).trans ?_
      simp [FunctionExpression.evaluate]

section

variable [LinearOrder (FunctionExpression GroundFunctionTerm)]

/-- The second factor is merged into the first one. -/
theorem resetForEach_neutral : emptyContext.NeutralArguments twoObjects resetForEach := by
  have product : ∀ objects, (emptyContext.extend objects).NeutralExpression
      (.multi .mul (.number (.finite 1)) [.number (.finite 1)]) := by
    intro objects
    simp [ApplicabilityContext.NeutralExpression, FunctionExpression.Everywhere,
      FunctionExpression.EverywhereList, FunctionExpression.ProductNeutral,
      FunctionExpression.distinctProduct, firstOccurrences, repeatedOccurrences,
      FunctionExpression.rebuild, FunctionExpression.accumulate, FunctionExpression.evaluate,
      MultiOp.apply, ArithmeticOp.apply]
  intro inst mem
  simp only [effectInstances, resetForEach, List.flatMap_cons, List.flatMap_nil, List.append_nil,
    List.mem_map] at mem
  obtain ⟨objects, -, rfl⟩ := mem
  refine ⟨fun constraint mem => absurd mem List.not_mem_nil, fun _ numeric mem => ?_,
    fun _ fexpr mem => ?_⟩
  · rw [List.mem_singleton.mp mem]
    exact product objects
  · cases mem
    simp [ApplicabilityContext.NeutralExpression, FunctionExpression.Everywhere,
      FunctionExpression.ProductNeutral]

end

theorem resetForEach_addsAfterDeletes :
    @AddsAfterDeletes (arbitraryOrder _) emptyContext twoObjects resetForEach := by
  let order := arbitraryOrder (FunctionExpression GroundFunctionTerm)
  rw [addAfterDelete_iff resetForEach_neutral]
  refine fun _ => ⟨fun update mem other memOther _ => ?_, ?_⟩
  · rw [resetForEach_updates] at mem memOther
    have same : update = other := by simp_all
    rw [same]
  · intro numericOrder effectOrder totalCost
    rw [addIncreasesLifted_of_free]
    intro inst merged
    have isFired := (first_append_repeated [] _).subset (List.mem_append_right _ merged)
    obtain ⟨effect, mem, isInstance⟩ := List.mem_flatMap.mp (List.mem_filter.mp isFired).1
    obtain ⟨objects, -, rfl⟩ := List.mem_map.mp isInstance
    rw [List.mem_singleton.mp mem]

/-! A cost for each of two objects: both instances are the same ground effect, which
the ground action has once. -/

def payForEach : Action where
  arity := 0
  effects := [{ arity := 1, effect := { auxiliaryNumericEffect := some (.number (.finite 1)) } }]
  closed := ConjunctiveCondition.closed_empty

section

variable [LinearOrder (FunctionExpression GroundFunctionTerm)] [LinearOrder GroundNumericEffect]
  [LinearOrder GroundConditionalEffect]

theorem payForEach_effects :
    (groundAction emptyContext.sorted twoObjects payForEach).effects =
      [emptyContext.sorted.groundInstance
        ([0], { arity := 1, effect := { auxiliaryNumericEffect := some (.number (.finite 1)) } })] := by
  have instances : payForEach.instances emptyContext.sorted.repository twoObjects
      emptyContext.sorted.binding = _ := emptyContext.sorted.instances_eq_map twoObjects payForEach
  have equal : payForEach.instances emptyContext.sorted.repository twoObjects
      emptyContext.sorted.binding = [emptyContext.sorted.groundInstance ([0], _),
        emptyContext.sorted.groundInstance ([0], _)] :=
    emptyContext.sorted.instances_eq_map twoObjects payForEach
  have canonical : (groundAction emptyContext.sorted twoObjects payForEach).effects =
      IndexList.canonicalize (payForEach.instances emptyContext.sorted.repository twoObjects
        emptyContext.sorted.binding) := rfl
  rw [canonical, equal]
  simp [IndexList.canonicalize, IndexList.isCanonical, IndexList.unique]

end

theorem payForEach_not_addAfterDelete :
    ¬ @AddsAfterDeletes (arbitraryOrder _) emptyContext twoObjects payForEach := by
  let order := arbitraryOrder (FunctionExpression GroundFunctionTerm)
  let numericOrder := arbitraryOrder GroundNumericEffect
  let effectOrder := arbitraryOrder GroundConditionalEffect
  intro adds
  have same := adds.binding fun fact added => absurd added List.not_mem_nil
  have metric := congrArg UnpackedNode.metric same
  have lifted : (applyActionLifted emptyContext.sorted twoObjects payForEach).metric = .finite 3 := by
    have sum : (applyActionLifted emptyContext.sorted twoObjects payForEach).metric =
        (Number.finite (0 + 1 + 1 + 1)).canonicalize := rfl
    rw [sum, show (0 + 1 + 1 + 1 : ℚ) = (3 : ℕ) by norm_num]
    exact (Number.isCanonical_natCast 3).canonicalize_eq
  have ground : (applyAction emptyContext.state
      (groundAction emptyContext.sorted twoObjects payForEach)).metric = .finite 2 := by
    have sum : (applyAction emptyContext.state
        (groundAction emptyContext.sorted twoObjects payForEach)).metric =
        (Number.finite (0 + 1 + 1)).canonicalize := by
      rw [applyAction_eq, increases, payForEach_effects]
      rfl
    rw [sum, show (0 + 1 + 1 : ℚ) = (2 : ℕ) by norm_num]
    exact (Number.isCanonical_natCast 2).canonicalize_eq
  rw [lifted] at metric
  exact absurd (metric.trans ground) (by decide)

end Tyr.Planning
