import Tyr.Common.NumberAlgebra
import Tyr.Planning.LiftedApplicability
import Tyr.Planning.MetricAccumulation

/-!
Numeric effects on the successor state.

Each numeric effect that fires writes its function term: the new value is computed
from the value before the action, so the last effect on a term decides.

* `get_eq` — a lifted function term has the value of its ground term, whatever was
  created.
* `applyAction_fluentValues`, `applyActionLifted_fluentValues` — the values of the
  successor.
* `simultaneous_iff` — the effects are applied simultaneously exactly if each one
  alone gives what all effects on its term give together.
-/

namespace Tyr.Planning

open Tyr.Formalism Tyr.Formalism.Planning

/-! ### Reading a state under a binding -/

namespace ApplicabilityContext

variable (context : ApplicabilityContext)

/-- A lifted function term has the value of its ground term. -/
theorem get_eq (fterm : FunctionTerm) :
    context.get fterm =
      context.state.get (context.repository.groundFunctionTerm context.binding fterm) := by
  cases fterm with
  | static function terms =>
      simp only [get, Repository.groundFunctionTerm, StateContext.get]
      split
      · rfl
      · rename_i absent
        exact (context.covers.staticFterm _ (Bool.eq_false_of_not_eq_true absent)).symm
  | fluent function terms =>
      simp only [get, Repository.groundFunctionTerm, StateContext.get]
      split
      · rfl
      · rename_i absent
        exact (context.covers.fluentFterm _ (Bool.eq_false_of_not_eq_true absent)).symm

theorem isApplicableStatic_eq (literal : Literal) :
    context.isApplicableStatic literal =
      (context.state.task.staticAtoms
        (context.repository.staticAtom (literal.atom.ground context.binding)) == literal.polarity) := by
  simp only [isApplicableStatic]
  split
  · rfl
  · rename_i absent
    rw [context.covers.staticAtom _ (Bool.eq_false_of_not_eq_true absent)]
    cases literal.polarity <;> rfl

theorem isApplicableFluent_eq (literal : Literal) :
    context.isApplicableFluent literal =
      ((context.state.unpackedState.fluentFacts
          (context.repository.fluentFact (literal.atom.ground context.binding)).var ==
        (context.repository.fluentFact (literal.atom.ground context.binding)).value) ==
          literal.polarity) := by
  have absent (notBoth : (context.created.fluentAtom (literal.atom.ground context.binding) &&
      context.created.fact (literal.atom.ground context.binding)) = false) :
      (!literal.polarity) = ((context.state.unpackedState.fluentFacts
          (context.repository.fluentFact (literal.atom.ground context.binding)).var ==
        (context.repository.fluentFact (literal.atom.ground context.binding)).value) ==
          literal.polarity) := by
    have differs := context.covers.fluentAtom _ notBoth
    rw [beq_eq_false_iff_ne.mpr differs]
    cases literal.polarity <;> rfl
  simp only [isApplicableFluent]
  split
  · split
    · rfl
    · rename_i noFact
      exact absent (by simp [noFact])
  · rename_i noAtom
    exact absent (by simp [noAtom])

theorem isApplicableDerived_eq (literal : Literal) :
    context.isApplicableDerived literal =
      (context.state.unpackedState.derivedAtoms
        (context.repository.derivedAtom (literal.atom.ground context.binding)) == literal.polarity) := by
  simp only [isApplicableDerived]
  split
  · rfl
  · rename_i absent
    rw [context.covers.derivedAtom _ (Bool.eq_false_of_not_eq_true absent)]
    cases literal.polarity <;> rfl

variable {context}

/-- Contexts that read the same state in the same way, whatever was created. -/
structure Reads (context : ApplicabilityContext) (other : ApplicabilityContext) : Prop where
  task : other.state.task = context.state.task
  unpackedState : other.state.unpackedState = context.state.unpackedState
  repository : other.repository = context.repository
  binding : other.binding = context.binding

variable {other : ApplicabilityContext}

theorem Reads.refl (context : ApplicabilityContext) : Reads context context := ⟨rfl, rfl, rfl, rfl⟩

theorem Reads.extend (reads : Reads context other) (objects : List Nat) :
    Reads (context.extend objects) (other.extend objects) :=
  ⟨reads.task, reads.unpackedState, reads.repository, congrArg (· ++ objects) reads.binding⟩

theorem Reads.fire (reads : Reads context other) (objects : List Nat) (effect : ConjunctiveEffect) :
    Reads context (other.fire objects effect) :=
  ⟨reads.task, reads.unpackedState, reads.repository, reads.binding⟩

theorem Reads.get (reads : Reads context other) : other.get = context.get := by
  funext fterm
  rw [get_eq, get_eq, reads.repository, reads.binding]
  cases context.repository.groundFunctionTerm context.binding fterm with
  | static index => rw [StateContext.get, StateContext.get, reads.task]
  | fluent index => rw [StateContext.get, StateContext.get, reads.unpackedState]

theorem Reads.isApplicableLiftedCondition (reads : Reads context other)
    (condition : ConjunctiveCondition) :
    other.isApplicableLiftedCondition condition = context.isApplicableLiftedCondition condition := by
  have static : other.isApplicableStatic = context.isApplicableStatic := by
    funext literal
    rw [isApplicableStatic_eq, isApplicableStatic_eq, reads.task, reads.repository, reads.binding]
  have fluent : other.isApplicableFluent = context.isApplicableFluent := by
    funext literal
    rw [isApplicableFluent_eq, isApplicableFluent_eq, reads.unpackedState, reads.repository,
      reads.binding]
  have derived : other.isApplicableDerived = context.isApplicableDerived := by
    funext literal
    rw [isApplicableDerived_eq, isApplicableDerived_eq, reads.unpackedState, reads.repository,
      reads.binding]
  rw [ApplicabilityContext.isApplicableLiftedCondition,
    ApplicabilityContext.isApplicableLiftedCondition, static, fluent, derived, reads.get]

end ApplicabilityContext

/-! ### Updates -/

/-- A numeric effect that fires, with the value of its expression. -/
structure NumericUpdate where
  target : Nat
  op : NumericEffectOp
  rhs : Number

namespace NumericUpdate

variable (values : Nat → Number)

/-- What the effect alone makes of the values before the action. -/
def result (update : NumericUpdate) : Number := update.op.apply (values update.target) update.rhs

/-- The effects write one after the other, each from the values before the action. -/
def writeAll (updates : List NumericUpdate) (succValues : Nat → Number) : Nat → Number :=
  updates.foldl (fun succValues update =>
    Function.update succValues update.target (update.result values)) succValues

/-- All effects on the term, applied one after the other. -/
def combined (updates : List NumericUpdate) (target : Nat) : Number :=
  (updates.filter (·.target = target)).foldl (fun value update => update.op.apply value update.rhs)
    (values target)

variable {values}

theorem combined_of_untouched {updates : List NumericUpdate} {target : Nat}
    (untouched : ∀ update ∈ updates, update.target ≠ target) :
    combined values updates target = values target := by
  have none : updates.filter (·.target = target) = [] := by
    rw [List.filter_eq_nil_iff]
    intro update mem
    simpa using untouched update mem
  rw [combined, none, List.foldl_nil]

/-- The last effect on a term decides. -/
theorem writeAll_eq (updates : List NumericUpdate) (succValues : Nat → Number) (target : Nat) :
    (∃ update ∈ updates, update.target = target ∧
        writeAll values updates succValues target = update.result values) ∨
      ((∀ update ∈ updates, update.target ≠ target) ∧
        writeAll values updates succValues target = succValues target) := by
  induction updates generalizing succValues with
  | nil => exact .inr ⟨fun _ mem => absurd mem List.not_mem_nil, rfl⟩
  | cons update rest ih =>
      rcases ih (Function.update succValues update.target (update.result values)) with
        ⟨last, mem, same, written⟩ | ⟨untouched, kept⟩
      · exact .inl ⟨last, List.mem_cons_of_mem _ mem, same, written⟩
      · by_cases same : update.target = target
        · refine .inl ⟨update, List.mem_cons_self, same, ?_⟩
          rw [writeAll, List.foldl_cons, ← writeAll, kept, ← same, Function.update_self]
        · refine .inr ⟨fun other mem => ?_, ?_⟩
          · rcases List.mem_cons.mp mem with rfl | inRest
            · exact same
            · exact untouched other inRest
          · rw [writeAll, List.foldl_cons, ← writeAll, kept, Function.update_of_ne (Ne.symm same)]

/-- If the effects on each term write the same value, then their order and their
repetitions do not matter. -/
theorem writeAll_congr {updates updates' : List NumericUpdate}
    (same : ∀ update, update ∈ updates ↔ update ∈ updates')
    (agree : ∀ update ∈ updates, ∀ other ∈ updates, update.target = other.target →
      update.result values = other.result values) (succValues : Nat → Number) :
    writeAll values updates succValues = writeAll values updates' succValues := by
  funext target
  rcases writeAll_eq updates succValues target with ⟨update, mem, rfl, written⟩ | ⟨untouched, kept⟩
  · rcases writeAll_eq updates' succValues update.target with
      ⟨other, memOther, sameTarget, writtenOther⟩ | ⟨untouched, _⟩
    · rw [written, writtenOther]
      exact agree update mem other ((same other).mpr memOther) sameTarget.symm
    · exact absurd rfl (untouched update ((same update).mp mem))
  · rcases writeAll_eq updates' succValues target with ⟨other, memOther, sameTarget, _⟩ | ⟨_, keptOther⟩
    · exact absurd sameTarget (untouched other ((same other).mpr memOther))
    · rw [kept, keptOther]

theorem writeAll_concat (updates : List NumericUpdate) (update : NumericUpdate)
    (succValues : Nat → Number) :
    writeAll values (updates ++ [update]) succValues update.target = update.result values := by
  simp [writeAll]

end NumericUpdate

/-! ### The successor of a ground action -/

section

variable (context : StateContext)

/-- The updates of the numeric effects that fire. -/
def firedUpdates (effects : List GroundConditionalEffect) : List NumericUpdate :=
  (firedEffects context effects).flatMap fun effect =>
    effect.numericEffects.map fun numeric =>
      ⟨numeric.fterm, numeric.op, numeric.fexpr.evaluate context.get⟩

variable {context}

@[simp] theorem deleteFact_fluentValues (state : UnpackedState) (fact : FDRFact) :
    (deleteFact state fact).fluentValues = state.fluentValues := by
  unfold deleteFact
  split <;> rfl

@[simp] theorem foldl_deleteFact_fluentValues (facts : List FDRFact) (state : UnpackedState) :
    (facts.foldl deleteFact state).fluentValues = state.fluentValues := by
  induction facts generalizing state with
  | nil => rfl
  | cons fact rest ih => rw [List.foldl_cons, ih, deleteFact_fluentValues]

@[simp] theorem foldl_setFact_fluentValues (facts : List FDRFact) (state : UnpackedState) :
    (facts.foldl UnpackedState.setFact state).fluentValues = state.fluentValues := by
  induction facts generalizing state with
  | nil => rfl
  | cons fact rest ih => rw [List.foldl_cons, ih, UnpackedState.setFact]

theorem setNumericEffects_fluentValues (succState : UnpackedState)
    (numericEffects : List GroundNumericEffect) :
    (setNumericEffects context succState numericEffects).fluentValues =
      NumericUpdate.writeAll context.unpackedState.fluentValues
        (numericEffects.map fun numeric =>
          ⟨numeric.fterm, numeric.op, numeric.fexpr.evaluate context.get⟩) succState.fluentValues := by
  induction numericEffects generalizing succState with
  | nil => rfl
  | cons numeric rest ih =>
      rw [setNumericEffects, List.foldl_cons, ← setNumericEffects, ih]
      rfl

/-- The updates write the values of the successor. -/
theorem applyAction_fluentValues (action : GroundAction) :
    (applyAction context action).state.fluentValues =
      NumericUpdate.writeAll context.unpackedState.fluentValues (firedUpdates context action.effects)
        context.unpackedState.fluentValues := by
  have written : ∀ (effects : List GroundConjunctiveEffect) (succState : UnpackedState),
      (effects.foldl (fun state effect => setNumericEffects context state effect.numericEffects)
        succState).fluentValues =
        NumericUpdate.writeAll context.unpackedState.fluentValues
          (effects.flatMap fun effect => effect.numericEffects.map fun numeric =>
            ⟨numeric.fterm, numeric.op, numeric.fexpr.evaluate context.get⟩) succState.fluentValues := by
    intro effects succState
    induction effects generalizing succState with
    | nil => rfl
    | cons effect rest ih =>
        rw [List.foldl_cons, ih, setNumericEffects_fluentValues, List.flatMap_cons,
          NumericUpdate.writeAll, NumericUpdate.writeAll, NumericUpdate.writeAll, List.foldl_append]
  simp only [applyAction, registerState, foldl_setFact_fluentValues, foldl_deleteFact_fluentValues,
    processEffects, foldl_processEffect_eq]
  exact written _ _

end

/-! ### The successor of an action binding -/

namespace ApplicabilityContext

variable (context : ApplicabilityContext)

/-- The instance fires. -/
def fires (inst : EffectInstance) : Bool :=
  (context.extend inst.1).isApplicableLiftedCondition inst.2.condition

def firedInstances (domains : EffectDomains) (effects : List ConditionalEffect) :
    List EffectInstance :=
  (effectInstances domains effects).filter context.fires

/-- The increases of `total-cost` on top of a value. -/
def addIncreasesLifted (init : Number) (instances : List EffectInstance) : Number :=
  instances.foldl (fun sum inst =>
    match inst.2.effect.auxiliaryNumericEffect with
    | none => sum
    | some fexpr => sum + fexpr.evaluate (context.extend inst.1).get) init

/-- What processing the instances makes of the effects so far. -/
structure Processed (instances : List EffectInstance) (effects result : LiftedEffects) : Prop where
  reads : Reads context result.context
  succState : result.succState = (instances.filter context.fires).foldl (fun state inst =>
    (context.extend inst.1).setNumericEffectsLifted state inst.2.effect.numericEffects) effects.succState
  delEffects : result.delEffects = effects.delEffects ++ (instances.filter context.fires).flatMap
    fun inst => (context.extend inst.1).effectFacts false inst.2.effect
  addEffects : result.addEffects = effects.addEffects ++ (instances.filter context.fires).flatMap
    fun inst => (context.extend inst.1).effectFacts true inst.2.effect
  auxiliaryValue : result.context.state.auxiliaryValue =
    context.addIncreasesLifted effects.context.state.auxiliaryValue (instances.filter context.fires)

variable {context}

theorem Reads.effectFacts {other : ApplicabilityContext} (reads : Reads context other)
    (polarity : Bool) (effect : ConjunctiveEffect) :
    other.effectFacts polarity effect = context.effectFacts polarity effect := by
  rw [ApplicabilityContext.effectFacts, ApplicabilityContext.effectFacts, reads.repository,
    reads.binding]

theorem Reads.setNumericEffectsLifted {other : ApplicabilityContext} (reads : Reads context other)
    (succState : UnpackedState) (numericEffects : List NumericEffect) :
    other.setNumericEffectsLifted succState numericEffects =
      context.setNumericEffectsLifted succState numericEffects := by
  rw [ApplicabilityContext.setNumericEffectsLifted, ApplicabilityContext.setNumericEffectsLifted,
    reads.repository, reads.binding, reads.get]

theorem processed_foldl (instances : List EffectInstance) {effects : LiftedEffects}
    (reads : Reads context effects.context) :
    context.Processed instances effects (instances.foldl processInstance effects) := by
  induction instances generalizing effects with
  | nil => exact ⟨reads, rfl, by simp, by simp, rfl⟩
  | cons inst rest ih =>
      have extended := reads.extend inst.1
      rw [List.foldl_cons]
      by_cases fires : context.fires inst = true
      · have processed : processInstance effects inst =
            { succState := (context.extend inst.1).setNumericEffectsLifted effects.succState
                inst.2.effect.numericEffects
              context := effects.context.fire inst.1 inst.2.effect
              delEffects := effects.delEffects ++
                (context.extend inst.1).effectFacts false inst.2.effect
              addEffects := effects.addEffects ++
                (context.extend inst.1).effectFacts true inst.2.effect } := by
          rw [processInstance]
          simp only [extended.isApplicableLiftedCondition, extended.setNumericEffectsLifted,
            extended.effectFacts]
          exact if_pos fires
        have readsFired : Reads context (processInstance effects inst).context := by
          rw [processed]
          exact reads.fire inst.1 inst.2.effect
        have later := ih readsFired
        have filtered : (inst :: rest).filter context.fires = inst :: rest.filter context.fires :=
          List.filter_cons_of_pos fires
        refine ⟨later.reads, ?_, ?_, ?_, ?_⟩
        · rw [later.succState, filtered, processed, List.foldl_cons]
        · rw [later.delEffects, filtered, processed, List.flatMap_cons, List.append_assoc]
        · rw [later.addEffects, filtered, processed, List.flatMap_cons, List.append_assoc]
        · rw [later.auxiliaryValue, filtered, processed, addIncreasesLifted, addIncreasesLifted,
            List.foldl_cons]
          cases cost : inst.2.effect.auxiliaryNumericEffect <;> simp only [fire, cost, extended.get]
      · have processed : processInstance effects inst = effects := by
          rw [processInstance]
          simp only [extended.isApplicableLiftedCondition]
          exact if_neg fires
        have filtered : (inst :: rest).filter context.fires = rest.filter context.fires :=
          List.filter_cons_of_neg fires
        have later := ih reads
        rw [processed]
        exact ⟨later.reads, filtered ▸ later.succState, filtered ▸ later.delEffects,
          filtered ▸ later.addEffects, filtered ▸ later.auxiliaryValue⟩

/-- The updates of an effect under a binding. -/
def effectUpdates (context : ApplicabilityContext) (effect : ConjunctiveEffect) : List NumericUpdate :=
  effect.numericEffects.map fun numeric =>
    { target := context.repository.fluentFterm
        ⟨numeric.function, numeric.terms.map (Term.ground context.binding)⟩
      op := numeric.op
      rhs := numeric.fexpr.evaluate context.get }

/-- The updates of the instances that fire. -/
def firedUpdatesLifted (context : ApplicabilityContext) (domains : EffectDomains)
    (effects : List ConditionalEffect) : List NumericUpdate :=
  (context.firedInstances domains effects).flatMap fun inst =>
    (context.extend inst.1).effectUpdates inst.2.effect

theorem setNumericEffectsLifted_fluentValues (succState : UnpackedState)
    (numericEffects : List NumericEffect) :
    (context.setNumericEffectsLifted succState numericEffects).fluentValues =
      NumericUpdate.writeAll context.state.unpackedState.fluentValues
        (numericEffects.map fun numeric =>
          { target := context.repository.fluentFterm
              ⟨numeric.function, numeric.terms.map (Term.ground context.binding)⟩
            op := numeric.op
            rhs := numeric.fexpr.evaluate context.get }) succState.fluentValues := by
  induction numericEffects generalizing succState with
  | nil => rfl
  | cons numeric rest ih =>
      rw [setNumericEffectsLifted, List.foldl_cons, ← setNumericEffectsLifted, ih, get_eq]
      rfl

/-- The updates of the instances write the values of the successor. -/
theorem applyActionLifted_fluentValues (context : ApplicabilityContext) (domains : EffectDomains)
    (action : Action) :
    (applyActionLifted context domains action).state.fluentValues =
      NumericUpdate.writeAll context.state.unpackedState.fluentValues
        (context.firedUpdatesLifted domains action.effects)
        context.state.unpackedState.fluentValues := by
  have written : ∀ (instances : List EffectInstance) (succState : UnpackedState),
      (instances.foldl (fun state inst =>
        (context.extend inst.1).setNumericEffectsLifted state inst.2.effect.numericEffects)
          succState).fluentValues =
        NumericUpdate.writeAll context.state.unpackedState.fluentValues
          (instances.flatMap fun inst => (context.extend inst.1).effectUpdates inst.2.effect)
          succState.fluentValues := by
    intro instances succState
    induction instances generalizing succState with
    | nil => rfl
    | cons inst rest ih =>
        rw [List.foldl_cons, ih, setNumericEffectsLifted_fluentValues, List.flatMap_cons,
          NumericUpdate.writeAll, NumericUpdate.writeAll, NumericUpdate.writeAll, List.foldl_append]
        rfl
  simp only [applyActionLifted, registerState, foldl_setFact_fluentValues,
    foldl_deleteFact_fluentValues, processEffectsLifted]
  rw [(processed_foldl _ (Reads.refl context)).succState]
  exact written _ _

end ApplicabilityContext

/-! ### Simultaneous application -/

section

variable (context : ApplicabilityContext) (domains : EffectDomains) (action : Action)

/-- The updates of the ground action, in which equal instances are merged. -/
def groundActionUpdates : List NumericUpdate :=
  firedUpdates context.state (action.instantiate context.repository domains context.binding).effects

/-- The updates of all instances of the effects of the ground action. -/
def groundInstanceUpdates : List NumericUpdate :=
  firedUpdates context.state (action.instances context.repository domains context.binding)

/-- Whatever the order of the effects is, each function term of the successor has
the value that all effects on it give together. -/
structure AppliedSimultaneously : Prop where
  ground : ∀ effects, (firedUpdates context.state effects).Perm
      (groundActionUpdates context domains action) → ∀ fterm,
    (applyAction context.state
        { action.instantiate context.repository domains context.binding with effects }).state.fluentValues
        fterm =
      NumericUpdate.combined context.state.unpackedState.fluentValues
        (groundInstanceUpdates context domains action) fterm
  lifted : ∀ domains' effects, (context.firedUpdatesLifted domains' effects).Perm
      (context.firedUpdatesLifted domains action.effects) → ∀ fterm,
    (applyActionLifted context domains' { action with effects }).state.fluentValues fterm =
      NumericUpdate.combined context.state.unpackedState.fluentValues
        (context.firedUpdatesLifted domains action.effects) fterm

/-- Each effect alone gives what all effects on its function term give together. -/
structure EachAlone : Prop where
  ground : ∀ update ∈ groundActionUpdates context domains action,
    update.result context.state.unpackedState.fluentValues =
      NumericUpdate.combined context.state.unpackedState.fluentValues
        (groundInstanceUpdates context domains action) update.target
  lifted : ∀ update ∈ context.firedUpdatesLifted domains action.effects,
    update.result context.state.unpackedState.fluentValues =
      NumericUpdate.combined context.state.unpackedState.fluentValues
        (context.firedUpdatesLifted domains action.effects) update.target

variable {context domains action}

theorem mem_groundActionUpdates {update : NumericUpdate} :
    update ∈ groundActionUpdates context domains action ↔
      update ∈ groundInstanceUpdates context domains action := by
  simp only [groundActionUpdates, groundInstanceUpdates, firedUpdates, firedEffects, List.mem_flatMap,
    List.mem_map, List.mem_filter, Action.instantiate, Canonicalization.mem_canonicalize]

/-- The updates in any order are those of some effects of a ground action. -/
theorem exists_firedUpdates (state : StateContext) (updates : List NumericUpdate) :
    ∃ effects, firedUpdates state effects = updates := by
  refine ⟨updates.map fun update =>
    { effect := { numericEffects := [⟨update.op, update.target, .number update.rhs⟩] } }, ?_⟩
  induction updates with
  | nil => rfl
  | cons update rest ih =>
      rw [List.map_cons, firedUpdates, firedEffects, List.filter_cons_of_pos rfl, List.map_cons,
        List.flatMap_cons, ← firedEffects, ← firedUpdates, ih]
      simp [FunctionExpression.evaluate]

theorem exists_firedUpdatesLifted (updates : List NumericUpdate)
    (isTarget : ∀ update ∈ updates, ∃ fterm, context.repository.fluentFterm fterm = update.target) :
    ∃ domains effects, context.firedUpdatesLifted domains effects = updates := by
  refine ⟨fun _ => [], ?_⟩
  induction updates with
  | nil => exact ⟨[], rfl⟩
  | cons update rest ih =>
      obtain ⟨effects, written⟩ := ih fun other mem => isTarget other (List.mem_cons_of_mem _ mem)
      obtain ⟨fterm, same⟩ := isTarget update List.mem_cons_self
      refine ⟨{ effect := { numericEffects :=
        [⟨update.op, fterm.relation, fterm.objects.map .object, .number update.rhs⟩] } } :: effects, ?_⟩
      have objects : (fterm.objects.map Term.object).map (Term.ground (context.binding ++ [])) =
          fterm.objects := by
        rw [List.map_map]
        exact List.map_id _
      rw [← written, ApplicabilityContext.firedUpdatesLifted, ApplicabilityContext.firedInstances,
        effectInstances, List.flatMap_cons, List.filter_append, List.flatMap_append,
        ← effectInstances, ← ApplicabilityContext.firedInstances,
        ← ApplicabilityContext.firedUpdatesLifted]
      simp only [CartesianSet.elements, List.map_cons, List.map_nil]
      rw [List.filter_cons_of_pos rfl, List.filter_nil, List.flatMap_cons, List.flatMap_nil,
        List.append_nil, ApplicabilityContext.effectUpdates]
      simp only [ApplicabilityContext.extend, List.map_cons, List.map_nil, objects, same,
        FunctionExpression.evaluate]
      rfl

/-- Any update can be the last one. -/
theorem exists_perm_concat {updates : List NumericUpdate} {update : NumericUpdate}
    (mem : update ∈ updates) : ∃ others, (others ++ [update]).Perm updates := by
  obtain ⟨before, after, rfl⟩ := List.append_of_mem mem
  refine ⟨before ++ after, ?_⟩
  rw [List.append_assoc]
  exact (List.perm_append_comm).append_left before

theorem simultaneous_iff (context : ApplicabilityContext) (domains : EffectDomains) (action : Action) :
    AppliedSimultaneously context domains action ↔ EachAlone context domains action := by
  constructor
  · intro simultaneous
    refine ⟨fun update mem => ?_, fun update mem => ?_⟩
    · obtain ⟨others, perm⟩ := exists_perm_concat mem
      obtain ⟨effects, written⟩ := exists_firedUpdates context.state (others ++ [update])
      have value := simultaneous.ground effects (written ▸ perm) update.target
      rwa [applyAction_fluentValues, written, NumericUpdate.writeAll_concat] at value
    · obtain ⟨others, perm⟩ := exists_perm_concat mem
      have isTarget : ∀ other ∈ others ++ [update],
          ∃ fterm, context.repository.fluentFterm fterm = other.target := by
        intro other memOther
        have written := perm.mem_iff.mp memOther
        rw [ApplicabilityContext.firedUpdatesLifted, List.mem_flatMap] at written
        obtain ⟨inst, _, inEffect⟩ := written
        obtain ⟨numeric, _, rfl⟩ := List.mem_map.mp inEffect
        exact ⟨_, rfl⟩
      obtain ⟨domains', effects, written⟩ := exists_firedUpdatesLifted (others ++ [update]) isTarget
      have value := simultaneous.lifted domains' effects (written ▸ perm) update.target
      rwa [ApplicabilityContext.applyActionLifted_fluentValues, written,
        NumericUpdate.writeAll_concat] at value
  · intro alone
    refine ⟨fun effects perm fterm => ?_, fun domains' effects perm fterm => ?_⟩
    · rw [applyAction_fluentValues]
      rcases NumericUpdate.writeAll_eq (firedUpdates context.state effects) _ fterm with
        ⟨update, mem, rfl, written⟩ | ⟨untouched, kept⟩
      · exact written.trans (alone.ground update (perm.mem_iff.mp mem))
      · refine kept.trans (NumericUpdate.combined_of_untouched fun update mem => ?_).symm
        exact untouched update (perm.mem_iff.mpr (mem_groundActionUpdates.mpr mem))
    · rw [ApplicabilityContext.applyActionLifted_fluentValues]
      rcases NumericUpdate.writeAll_eq (context.firedUpdatesLifted domains' effects) _ fterm with
        ⟨update, mem, rfl, written⟩ | ⟨untouched, kept⟩
      · exact written.trans (alone.lifted update (perm.mem_iff.mp mem))
      · refine kept.trans (NumericUpdate.combined_of_untouched fun update mem => ?_).symm
        exact untouched update (perm.mem_iff.mpr mem)

end

/-! Two increases of one function term: the second one overwrites the first. -/

/-- All function terms have the value zero. -/
noncomputable def zeroContext : ApplicabilityContext where
  state := { emptyContext.state with
    unpackedState := { UnpackedState.empty with fluentValues := fun _ => .finite 0 } }
  repository := emptyContext.repository
  created := { emptyContext.created with fluentFterm := fun _ => true }
  binding := []
  covers :=
    { staticAtom := emptyContext.covers.staticAtom
      fluentAtom := emptyContext.covers.fluentAtom
      derivedAtom := emptyContext.covers.derivedAtom
      staticFterm := emptyContext.covers.staticFterm
      fluentFterm := fun _ absent => absurd absent Bool.false_ne_true.symm }

def increaseTwice : Action where
  arity := 0
  effects := [{ effect := { numericEffects := [⟨.increase, 0, [], .number (.finite 1)⟩,
    ⟨.increase, 0, [], .number (.finite 2)⟩] } }]
  closed := ConjunctiveCondition.closed_empty

theorem increaseTwice_not_simultaneous :
    ¬ AppliedSimultaneously zeroContext (fun _ => []) increaseTwice := by
  intro simultaneous
  have value := simultaneous.lifted (fun _ => []) increaseTwice.effects (.refl _) 0
  have updates : zeroContext.firedUpdatesLifted (fun _ => []) increaseTwice.effects =
      [⟨0, .increase, .finite 1⟩, ⟨0, .increase, .finite 2⟩] := rfl
  rw [ApplicabilityContext.applyActionLifted_fluentValues, updates] at value
  revert value
  simp only [zeroContext, NumericUpdate.writeAll, NumericUpdate.combined, NumericUpdate.result]
  decide +kernel

end Tyr.Planning
