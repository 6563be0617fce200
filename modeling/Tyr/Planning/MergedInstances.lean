import Tyr.Formalism.Planning.CanonicalGrounding
import Tyr.Planning.NumericUpdates

/-!
Merged instances.

The ground action lists equal ground effects once, in the order of their indices,
and in each ground expression equal arguments of an n-ary operator are listed once.
The action binding visits every instance, in the order of enumeration, and
evaluates every argument.

* `NeutralArguments` — the arguments that are merged do not change what the
  evaluators make of the expressions.
* `isApplicableCondition_groundInstance` — then an instance fires exactly if its
  ground effect does.
* `mem_firedUpdates_iff`, `addIncreases_ground` — then both have the same updates,
  and the ground action adds the increases of the first of the instances that are
  merged.
-/

namespace Tyr.Planning

open Tyr.Formalism Tyr.Formalism.Planning FunctionExpression Tyr.Lib

/-- The increases can be added in any order. -/
theorem addIncreases_perm {state : StateContext}
    {fexprs fexprs' : List (FunctionExpression GroundFunctionTerm)} (perm : fexprs.Perm fexprs')
    (init : Number) : addIncreases state init fexprs = addIncreases state init fexprs' :=
  perm.foldl_eq' (fun _ _ _ _ _ => Number.add_right_comm _ _ _) init

namespace ApplicabilityContext

variable (context : ApplicabilityContext)

/-- The ground effect of an instance. -/
def groundInstance (inst : EffectInstance) : GroundConditionalEffect :=
  context.repository.groundConditionalEffect (context.binding ++ inst.1) inst.2

theorem instances_eq_map (domains : EffectDomains) (action : Action) :
    action.instances context.repository domains context.binding =
      (effectInstances domains action.effects).map context.groundInstance := by
  rw [Action.instances, effectInstances, List.map_flatMap]
  congr 1
  funext effect
  rw [List.map_map]
  rfl

/-! ### Neutral arguments -/

section

variable [LinearOrder (FunctionExpression GroundFunctionTerm)]

/-- The arguments whose ground expressions are merged are neutral for the evaluators. -/
def NeutralExpression (fexpr : FunctionExpression FunctionTerm) : Prop :=
  Everywhere (ProductNeutral (context.repository.groundFunctionTerm context.binding) context.state.get)
    fexpr

/-- The expressions of an instance that are evaluated. -/
structure NeutralInstance (inst : EffectInstance) : Prop where
  constraint : ∀ constraint ∈ inst.2.condition.numericConstraints,
    (context.extend inst.1).NeutralExpression constraint.lhs ∧
      (context.extend inst.1).NeutralExpression constraint.rhs
  numericEffect : context.fires inst = true → ∀ numeric ∈ inst.2.effect.numericEffects,
    (context.extend inst.1).NeutralExpression numeric.fexpr
  increase : context.fires inst = true → ∀ fexpr ∈ inst.2.effect.auxiliaryNumericEffect,
    (context.extend inst.1).NeutralExpression fexpr

def NeutralArguments (domains : EffectDomains) (action : Action) : Prop :=
  ∀ inst ∈ effectInstances domains action.effects, context.NeutralInstance inst

end

end ApplicabilityContext

/-! ### The order of the indices -/

/-- Literals are tested as the positive and the negative ones are. -/
theorem all_polarity (holds : Literal → Bool) (literals : List Literal) :
    (literals.all fun literal => holds literal == literal.polarity) =
      ((literals.filter Literal.polarity).all holds &&
        (literals.filter (!·.polarity)).all fun literal => !holds literal) := by
  induction literals with
  | nil => rfl
  | cons literal rest ih =>
      rw [List.all_cons, ih]
      cases polarity : literal.polarity <;> cases truth : holds literal <;>
        simp [polarity, truth]

theorem Created.Covers.sorted [LinearOrder (FunctionExpression GroundFunctionTerm)]
    [LinearOrder GroundNumericEffect] [LinearOrder GroundConditionalEffect] {created : Created}
    {repository : Repository} {state : StateContext} (covers : created.Covers repository state) :
    created.Covers
      ({ repository with conditionalEffects := .sorted GroundConditionalEffect } : Repository).sorted
      state :=
  ⟨covers.staticAtom, covers.fluentAtom, covers.derivedAtom, covers.staticFterm, covers.fluentFterm⟩

namespace ApplicabilityContext

section

variable [LinearOrder (FunctionExpression GroundFunctionTerm)] [LinearOrder GroundNumericEffect]
  [LinearOrder GroundConditionalEffect]

/-- The repository lists expressions and effects by the given orders of their indices. -/
def sorted (context : ApplicabilityContext) : ApplicabilityContext :=
  { context with
    repository :=
      ({ context.repository with
          conditionalEffects := .sorted GroundConditionalEffect } : Repository).sorted
    covers := context.covers.sorted }

variable {context : ApplicabilityContext} {inst : EffectInstance} {domains : EffectDomains}
  {action : Action}

theorem evaluate_groundExpression {objects : List Nat} {fexpr : FunctionExpression FunctionTerm}
    (neutral : (context.extend objects).NeutralExpression fexpr) :
    (context.sorted.repository.groundExpression (context.binding ++ objects) fexpr).evaluate
        context.state.get = fexpr.evaluate (context.extend objects).get := by
  have same : context.state.get ∘
      (context.extend objects).repository.groundFunctionTerm (context.extend objects).binding =
      (context.extend objects).get := funext fun fterm => ((context.extend objects).get_eq fterm).symm
  rw [ApplicabilityContext.sorted, groundExpression_eq_rebuild, ← same]
  exact evaluate_rebuild neutral

/-- An instance fires exactly if its ground effect does. -/
theorem isApplicableCondition_groundInstance (neutral : context.NeutralInstance inst) :
    isApplicableCondition context.state (context.sorted.groundInstance inst).condition =
      context.fires inst := by
  have static : ∀ literal, (context.extend inst.1).isApplicableStatic literal =
      (context.state.task.staticAtoms (context.repository.staticAtom
        (literal.atom.ground (context.binding ++ inst.1))) == literal.polarity) :=
    (context.extend inst.1).isApplicableStatic_eq
  have fluents : inst.2.condition.fluentLiterals.all (context.extend inst.1).isApplicableFluent = _ :=
    (congrArg inst.2.condition.fluentLiterals.all
      (funext (context.extend inst.1).isApplicableFluent_eq)).trans (all_polarity _ _)
  have derived : ∀ literal, (context.extend inst.1).isApplicableDerived literal =
      (context.state.unpackedState.derivedAtoms (context.repository.derivedAtom
        (literal.atom.ground (context.binding ++ inst.1))) == literal.polarity) :=
    (context.extend inst.1).isApplicableDerived_eq
  have numeric : ∀ constraint ∈ inst.2.condition.numericConstraints,
      (context.sorted.repository.groundConstraint (context.binding ++ inst.1) constraint).evaluate
          context.state.get = constraint.evaluate (context.extend inst.1).get := by
    intro constraint mem
    rw [BooleanOperator.evaluate, BooleanOperator.evaluate, Repository.groundConstraint,
      evaluate_groundExpression (neutral.constraint constraint mem).1,
      evaluate_groundExpression (neutral.constraint constraint mem).2]
  have numerics : (inst.2.condition.numericConstraints.map
      (context.sorted.repository.groundConstraint (context.binding ++ inst.1))).all
        (BooleanOperator.evaluate context.state.get) =
      inst.2.condition.numericConstraints.all
        (BooleanOperator.evaluate (context.extend inst.1).get) := by
    rw [List.all_map, Bool.eq_iff_iff, List.all_eq_true, List.all_eq_true]
    exact forall₂_congr fun constraint mem => by rw [Function.comp_apply, numeric constraint mem]
  rw [fires, isApplicableLiftedCondition, funext static, fluents, funext derived, ← numerics,
    isApplicableCondition, groundInstance]
  simp only [Repository.groundConditionalEffect, Repository.groundCondition, List.all_map,
    Bool.and_assoc]
  rfl

theorem mem_firedEffects_iff (neutral : context.NeutralArguments domains action)
    {effect : GroundConjunctiveEffect} :
    effect ∈ firedEffects context.state
        (action.instances context.sorted.repository domains context.binding) ↔
      ∃ inst ∈ context.firedInstances domains action.effects,
        (context.sorted.groundInstance inst).effect = effect := by
  have instances := context.sorted.instances_eq_map domains action
  rw [show context.sorted.binding = context.binding from rfl] at instances
  simp only [firedEffects, instances, firedInstances, List.mem_map, List.mem_filter]
  constructor
  · rintro ⟨_, ⟨⟨inst, mem, rfl⟩, fires⟩, rfl⟩
    rw [isApplicableCondition_groundInstance (neutral inst mem)] at fires
    exact ⟨inst, ⟨mem, fires⟩, rfl⟩
  · rintro ⟨inst, ⟨mem, fires⟩, rfl⟩
    refine ⟨_, ⟨⟨inst, mem, rfl⟩, ?_⟩, rfl⟩
    rw [isApplicableCondition_groundInstance (neutral inst mem), fires]

/-! ### Updates -/

/-- The updates of a fired instance, read off its ground effect. -/
theorem effectUpdates_eq (neutral : context.NeutralInstance inst) (fires : context.fires inst = true) :
    (context.extend inst.1).effectUpdates inst.2.effect = inst.2.effect.numericEffects.map fun numeric =>
      let numeric := context.sorted.repository.groundNumericEffect (context.binding ++ inst.1) numeric
      ⟨numeric.fterm, numeric.op, numeric.fexpr.evaluate context.state.get⟩ := by
  apply List.map_congr_left
  intro numeric mem
  rw [← evaluate_groundExpression (neutral.numericEffect fires numeric mem)]
  rfl

/-- The updates of the fired instances are those of the fired ground effects. -/
theorem mem_firedUpdates_iff (neutral : context.NeutralArguments domains action)
    {update : NumericUpdate} :
    update ∈ firedUpdates context.state
        (action.instances context.sorted.repository domains context.binding) ↔
      update ∈ context.firedUpdatesLifted domains action.effects := by
  have updates : ∀ inst ∈ context.firedInstances domains action.effects,
      ((∃ numeric ∈ (context.sorted.groundInstance inst).effect.numericEffects,
          ⟨numeric.fterm, numeric.op, numeric.fexpr.evaluate context.state.get⟩ = update) ↔
        update ∈ (context.extend inst.1).effectUpdates inst.2.effect) := by
    intro inst isFired
    obtain ⟨isInstance, fires⟩ := List.mem_filter.mp isFired
    rw [effectUpdates_eq (neutral inst isInstance) fires]
    simp only [groundInstance, Repository.groundConditionalEffect, Repository.groundEffect, List.mem_map,
      Canonicalization.mem_canonicalize]
    constructor
    · rintro ⟨_, ⟨numeric, mem, rfl⟩, same⟩
      exact ⟨numeric, mem, same⟩
    · rintro ⟨numeric, mem, same⟩
      exact ⟨_, ⟨numeric, mem, rfl⟩, same⟩
  simp only [firedUpdates, firedUpdatesLifted, List.mem_flatMap, List.mem_map, mem_firedEffects_iff neutral]
  constructor
  · rintro ⟨_, ⟨inst, isFired, rfl⟩, isUpdate⟩
    exact ⟨inst, isFired, (updates inst isFired).mp isUpdate⟩
  · rintro ⟨inst, isFired, isUpdate⟩
    exact ⟨_, ⟨inst, isFired, rfl⟩, (updates inst isFired).mpr isUpdate⟩

/-! ### Increases -/

theorem addIncreasesLifted_eq {instances : List EffectInstance}
    (neutral : ∀ inst ∈ instances, context.fires inst = true ∧ context.NeutralInstance inst)
    (init : Number) :
    context.addIncreasesLifted init instances =
      addIncreases context.state init ((instances.map context.sorted.groundInstance).filterMap
        fun condEffect => condEffect.effect.auxiliaryNumericEffect) := by
  induction instances generalizing init with
  | nil => rfl
  | cons inst rest ih =>
      obtain ⟨fires, neutralInst⟩ := neutral inst List.mem_cons_self
      have later := ih (fun other mem => neutral other (List.mem_cons_of_mem _ mem))
      have grounded : (context.sorted.groundInstance inst).effect.auxiliaryNumericEffect =
          inst.2.effect.auxiliaryNumericEffect.map
            (context.sorted.repository.groundExpression (context.binding ++ inst.1)) := rfl
      rw [addIncreasesLifted, List.foldl_cons, ← addIncreasesLifted, List.map_cons,
        List.filterMap_cons, grounded]
      cases increase : inst.2.effect.auxiliaryNumericEffect with
      | none => exact later init
      | some fexpr =>
          rw [Option.map_some, addIncreases, List.foldl_cons, ← addIncreases,
            evaluate_groundExpression (neutralInst.increase fires fexpr increase)]
          exact later _

/-- The first of the fired instances that are merged. -/
def distinctInstances (context : ApplicabilityContext) (domains : EffectDomains) (action : Action) :
    List EffectInstance :=
  firstOccurrences context.groundInstance [] (context.firedInstances domains action.effects)

/-- The fired instances that are merged into an earlier one. -/
def mergedInstances (context : ApplicabilityContext) (domains : EffectDomains) (action : Action) :
    List EffectInstance :=
  repeatedOccurrences context.groundInstance [] (context.firedInstances domains action.effects)

omit [LinearOrder (FunctionExpression GroundFunctionTerm)] [LinearOrder GroundNumericEffect] in
/-- The increases of all fired instances are those of the first ones and then those of
the merged ones. -/
theorem addIncreasesLifted_firedInstances (context : ApplicabilityContext) (domains : EffectDomains)
    (action : Action) (init : Number) :
    context.addIncreasesLifted init (context.firedInstances domains action.effects) =
      context.addIncreasesLifted
        (context.addIncreasesLifted init (context.distinctInstances domains action))
        (context.mergedInstances domains action) := by
  rw [addIncreasesLifted, addIncreasesLifted, addIncreasesLifted, ← List.foldl_append]
  refine (first_append_repeated [] _).symm.foldl_eq' (fun inst _ inst' _ sum => ?_) init
  cases inst.2.effect.auxiliaryNumericEffect with
  | none => rfl
  | some fexpr =>
      cases inst'.2.effect.auxiliaryNumericEffect with
      | none => rfl
      | some fexpr' => exact Number.add_right_comm _ _ _

/-- The ground effects that fire, in the order of their indices, are those of the first
instances. -/
theorem firedEffects_perm (neutral : context.NeutralArguments domains action) :
    (firedEffects context.state
        (action.instantiate context.sorted.repository domains context.binding).effects).Perm
      (((context.sorted.distinctInstances domains action).map context.sorted.groundInstance).map
        GroundConditionalEffect.effect) := by
  have fires : ∀ inst ∈ effectInstances domains action.effects,
      (isApplicableCondition context.state (context.sorted.groundInstance inst).condition = true ↔
        context.sorted.fires inst = true) := by
    intro inst mem
    rw [isApplicableCondition_groundInstance (neutral inst mem)]
    rfl
  have canonical : (action.instantiate context.sorted.repository domains context.binding).effects =
      IndexList.canonicalize
        ((effectInstances domains action.effects).map context.sorted.groundInstance) :=
    congrArg IndexList.canonicalize (context.sorted.instances_eq_map domains action)
  rw [firedEffects, canonical, distinctInstances]
  refine List.Perm.map _ ((List.perm_ext_iff_of_nodup ((IndexList.nodup_canonicalize _).filter _)
    (nodup_map_firstOccurrences [] _)).mpr fun condEffect => ?_)
  rw [mem_map_firstOccurrences, List.mem_filter, IndexList.mem_canonicalize, firedInstances]
  simp only [List.mem_map, List.mem_filter, List.not_mem_nil, not_false_eq_true, and_true]
  constructor
  · rintro ⟨⟨inst, mem, rfl⟩, applicable⟩
    exact ⟨inst, ⟨mem, (fires inst mem).mp applicable⟩, rfl⟩
  · rintro ⟨inst, ⟨mem, isFired⟩, rfl⟩
    exact ⟨⟨inst, mem, rfl⟩, (fires inst mem).mpr isFired⟩

/-- The ground action adds the increases of the first instances. -/
theorem addIncreases_ground (neutral : context.NeutralArguments domains action) (init : Number) :
    addIncreases context.state init
        (increases context.state (action.instantiate context.sorted.repository domains context.binding)) =
      context.addIncreasesLifted init (context.sorted.distinctInstances domains action) := by
  have fired : ∀ inst ∈ context.sorted.distinctInstances domains action,
      context.fires inst = true ∧ context.NeutralInstance inst := by
    intro inst mem
    have isFired := (first_append_repeated [] _).subset (List.mem_append_left _ mem)
    obtain ⟨isInstance, fires⟩ := List.mem_filter.mp isFired
    exact ⟨fires, neutral inst isInstance⟩
  rw [addIncreasesLifted_eq fired init, increases]
  refine addIncreases_perm (((firedEffects_perm neutral).filterMap _).trans ?_) init
  rw [List.filterMap_map]
  rfl

/-! ### The last update -/

omit [LinearOrder GroundConditionalEffect] in
/-- The ground effect of an instance does not depend on the order of the conditional
effects. -/
theorem groundConditionalEffect_congr (repository : Repository)
    (order order' : Canonicalization GroundConditionalEffect) (binding : List Nat)
    (effect : ConditionalEffect) :
    ({ repository with conditionalEffects := order } : Repository).sorted.groundConditionalEffect
        binding effect =
      ({ repository with conditionalEffects := order' } : Repository).sorted.groundConditionalEffect
        binding effect := by
  have fexprs : ({ repository with conditionalEffects := order } : Repository).sorted.groundExpression
      binding =
      ({ repository with conditionalEffects := order' } : Repository).sorted.groundExpression binding := by
    funext fexpr
    rw [groundExpression_eq_rebuild, groundExpression_eq_rebuild]
    rfl
  have constraints : ({ repository with conditionalEffects := order } : Repository).sorted.groundConstraint
      binding =
      ({ repository with conditionalEffects := order' } : Repository).sorted.groundConstraint binding := by
    funext constraint
    rw [Repository.groundConstraint, Repository.groundConstraint, fexprs]
  have numerics :
      ({ repository with conditionalEffects := order } : Repository).sorted.groundNumericEffect binding =
      ({ repository with conditionalEffects := order' } : Repository).sorted.groundNumericEffect
        binding := by
    funext numeric
    rw [Repository.groundNumericEffect, Repository.groundNumericEffect, fexprs]
    rfl
  rw [Repository.groundConditionalEffect, Repository.groundConditionalEffect, Repository.groundCondition,
    Repository.groundCondition, Repository.groundEffect, Repository.groundEffect, constraints, numerics,
    fexprs]
  rfl

/-- The update of a numeric effect that comes last in its effect, which comes last among
the conditional effects, is the last one. -/
theorem firedUpdates_concat (isInstance : inst ∈ effectInstances domains action.effects)
    (neutral : context.NeutralInstance inst) (fires : context.fires inst = true)
    (lastEffect : ∀ condEffect, condEffect ≤ context.sorted.groundInstance inst)
    {numeric : NumericEffect} (mem : numeric ∈ inst.2.effect.numericEffects)
    (lastNumeric : ∀ other, other ≤
      context.sorted.repository.groundNumericEffect (context.binding ++ inst.1) numeric) :
    ∃ others, firedUpdates context.state
        (action.instantiate context.sorted.repository domains context.binding).effects =
      others ++ [
        { target := context.repository.fluentFterm
            ⟨numeric.function, numeric.terms.map (Term.ground (context.binding ++ inst.1))⟩
          op := numeric.op
          rhs := numeric.fexpr.evaluate (context.extend inst.1).get }] := by
  obtain ⟨effects, isLastEffect⟩ := IndexList.canonicalize_eq_concat
    (List.mem_map_of_mem (f := context.sorted.groundInstance) isInstance) fun condEffect _ =>
      lastEffect condEffect
  obtain ⟨numerics, isLastNumeric⟩ := IndexList.canonicalize_eq_concat
    (List.mem_map_of_mem
      (f := context.sorted.repository.groundNumericEffect (context.binding ++ inst.1)) mem)
    fun other _ => lastNumeric other
  have canonical : (action.instantiate context.sorted.repository domains context.binding).effects =
      effects ++ [context.sorted.groundInstance inst] :=
    (congrArg IndexList.canonicalize (context.sorted.instances_eq_map domains action)).trans isLastEffect
  have sortedNumerics : (context.sorted.groundInstance inst).effect.numericEffects =
      numerics ++ [context.sorted.repository.groundNumericEffect (context.binding ++ inst.1) numeric] :=
    isLastNumeric
  have lastFires : [context.sorted.groundInstance inst].filter
      (fun condEffect => isApplicableCondition context.state condEffect.condition) =
        [context.sorted.groundInstance inst] :=
    List.filter_cons_of_pos ((isApplicableCondition_groundInstance neutral).trans fires)
  rw [firedUpdates, firedEffects, canonical, List.filter_append, lastFires, List.map_append, List.flatMap_append, List.map_singleton, List.flatMap_singleton,
    sortedNumerics, List.map_append, List.map_singleton, ← List.append_assoc]
  refine ⟨_, congrArg (_ ++ [·]) ?_⟩
  rw [← evaluate_groundExpression (neutral.numericEffect fires numeric mem)]
  rfl

end

/-- Orders of the indices for which the ground action writes the given update last. -/
theorem exists_orders_last [LinearOrder (FunctionExpression GroundFunctionTerm)]
    {context : ApplicabilityContext} {domains : EffectDomains} {action : Action}
    (neutral : context.NeutralArguments domains action) {update : NumericUpdate}
    (mem : update ∈ context.firedUpdatesLifted domains action.effects) :
    ∃ (_ : LinearOrder GroundNumericEffect) (_ : LinearOrder GroundConditionalEffect)
      (others : List NumericUpdate), firedUpdates context.state
        (action.instantiate context.sorted.repository domains context.binding).effects =
          others ++ [update] := by
  obtain ⟨inst, isFired, isUpdate⟩ := List.mem_flatMap.mp mem
  obtain ⟨isInstance, fires⟩ := List.mem_filter.mp isFired
  obtain ⟨numeric, inEffect, rfl⟩ := List.mem_map.mp isUpdate
  let repository : Repository := { context.repository with conditionalEffects := .classical _ }
  let numericOrder : LinearOrder GroundNumericEffect := orderWithLast
    ⟨numeric.op, repository.fluentFterm
        ⟨numeric.function, numeric.terms.map (Term.ground (context.binding ++ inst.1))⟩,
      rebuild (repository.groundFunctionTerm (context.binding ++ inst.1)) numeric.fexpr⟩
  let effectOrder : LinearOrder GroundConditionalEffect := orderWithLast
    (repository.sorted.groundConditionalEffect (context.binding ++ inst.1) inst.2)
  refine ⟨numericOrder, effectOrder, ?_⟩
  refine firedUpdates_concat isInstance (neutral inst isInstance) fires (fun condEffect => ?_) inEffect
    fun other => ?_
  · rw [groundInstance, ApplicabilityContext.sorted, groundConditionalEffect_congr]
    exact le_orderWithLast _ condEffect
  · rw [Repository.groundNumericEffect, ApplicabilityContext.sorted, groundExpression_eq_rebuild]
    exact le_orderWithLast _ other

end ApplicabilityContext

end Tyr.Planning
