import Tyr.Formalism.Planning.GroundAction

/-!
The action executor.

An unpacked state assigns values to the finite-domain variables and the fluent
function terms, and a truth value to the derived atoms. Reading a state happens
in a context, which adds the static part of the task and the value of
`total-cost`.

* `isApplicableIfFires` — the numeric effects that fire are defined and
  compatible.
* `processEffects` — collect the effects that fire; the increases of
  `total-cost` are accumulated in the context.
* `applyAction` — apply deletes, then adds, register the state, and derive the
  metric of the successor node.
-/

namespace Tyr.Planning

open Tyr.Formalism Tyr.Formalism.Planning

/-! ### States and contexts -/

structure UnpackedState where
  fluentFacts : Nat → FDRValue
  fluentValues : Nat → Number
  derivedAtoms : Nat → Bool

namespace UnpackedState

/-- A cleared state: no atom holds and every function term is undefined. -/
def empty : UnpackedState where
  fluentFacts := fun _ => FDRValue.none
  fluentValues := fun _ => .nan
  derivedAtoms := fun _ => false

def setFact (state : UnpackedState) (fact : FDRFact) : UnpackedState :=
  { state with fluentFacts := Function.update state.fluentFacts fact.var fact.value }

def setValue (state : UnpackedState) (fterm : Nat) (value : Number) : UnpackedState :=
  { state with fluentValues := Function.update state.fluentValues fterm value }

/-- A cleared state with the fluent part of `other` (`assign_unextended_part`). -/
def assignUnextendedPart (other : UnpackedState) : UnpackedState :=
  { other with derivedAtoms := fun _ => false }

end UnpackedState

/-- The part of a task that the executor reads. `axiomEvaluator` gives the
derived atoms of a state whose derived part is empty. -/
structure Task where
  staticAtoms : Nat → Bool
  staticValues : Nat → Number
  fluentFacts : List FDRFact
  fluentFtermValues : List (Nat × Number)
  auxiliaryFtermValue : Option Number
  metric : Option (FunctionExpression MetricFunctionTerm)
  axiomEvaluator : UnpackedState → Nat → Bool

structure StateContext where
  task : Task
  unpackedState : UnpackedState
  auxiliaryValue : Number

namespace StateContext

variable (context : StateContext)

/-- `evaluate` of a ground function term. -/
def get : GroundFunctionTerm → Number
  | .static index => context.task.staticValues index
  | .fluent index => context.unpackedState.fluentValues index

/-- `evaluate` of a function term of the metric. -/
def getMetric : MetricFunctionTerm → Number
  | .state fterm => context.get fterm
  | .auxiliary => context.auxiliaryValue

end StateContext

/-! ### Applicability -/

section

variable (context : StateContext)

def isApplicableCondition (condition : GroundConjunctiveCondition) : Bool :=
  condition.staticLiterals.all (fun literal =>
    context.task.staticAtoms literal.atom == literal.polarity) &&
  condition.positiveFacts.all (fun fact =>
    context.unpackedState.fluentFacts fact.var == fact.value) &&
  condition.negativeFacts.all (fun fact =>
    context.unpackedState.fluentFacts fact.var != fact.value) &&
  condition.derivedLiterals.all (fun literal =>
    context.unpackedState.derivedAtoms literal.atom == literal.polarity) &&
  condition.numericConstraints.all (BooleanOperator.evaluate context.get)

/-- `std::vector::resize`: a longer vector is cut, a shorter one is filled up. -/
def resize {α : Type*} (vector : List α) (size : Nat) (fill : α) : List α :=
  vector.take size ++ List.replicate (size - vector.length) fill

/-- The numeric effect is compatible with the families seen so far and defined.
The families afterwards, or nothing if the effect is rejected. -/
def isApplicableNumericEffect (families : List EffectFamily) (effect : GroundNumericEffect) :
    Option (List EffectFamily) :=
  let families := resize families (effect.fterm + 1) .none
  if !isCompatibleEffectFamily effect.op.family (families.getD effect.fterm .none) then
    none
  else if effect.op ≠ .assign ∧ (context.unpackedState.fluentValues effect.fterm).isNaN then
    none
  else if (effect.fexpr.evaluate context.get).isNaN then
    none
  else
    some (families.set effect.fterm effect.op.family)

/-- All numeric effects are accepted and the increase of `total-cost` is defined. -/
def isApplicableEffect (families : List EffectFamily) (effect : GroundConjunctiveEffect) :
    Option (List EffectFamily) := do
  let families ← effect.numericEffects.foldlM (isApplicableNumericEffect context) families
  match effect.auxiliaryNumericEffect with
  | none => some families
  | some fexpr => if (fexpr.evaluate context.get).isNaN then none else some families

/-- Effects that do not fire are accepted and leave the families alone. -/
def isApplicableIfFires (effects : List GroundConditionalEffect) : Bool :=
  (effects.foldlM (fun families condEffect =>
    if isApplicableCondition context condEffect.condition then
      isApplicableEffect context families condEffect.effect
    else
      some families) []).isSome

/-- Effects without numeric effects are accepted. -/
theorem isApplicableIfFires_of_noNumericEffects {effects : List GroundConditionalEffect}
    (noNumericEffects : ∀ condEffect ∈ effects, condEffect.effect.numericEffects = [] ∧
      condEffect.effect.auxiliaryNumericEffect = none) :
    isApplicableIfFires context effects := by
  unfold isApplicableIfFires
  generalize ([] : List EffectFamily) = families
  induction effects generalizing families with
  | nil => rfl
  | cons condEffect rest ih =>
      have rest := ih (fun other mem => noNumericEffects other (List.mem_cons_of_mem _ mem))
      obtain ⟨noNumeric, noAuxiliary⟩ := noNumericEffects condEffect List.mem_cons_self
      rw [List.foldlM_cons]
      by_cases fires : isApplicableCondition context condEffect.condition
      · simpa [fires, isApplicableEffect, noNumeric, noAuxiliary] using rest families
      · simpa [fires] using rest families

def isApplicable (action : GroundAction) : Bool :=
  isApplicableCondition context action.condition && isApplicableIfFires context action.effects

end

/-! ### Effects -/

/-- What `process_effects` writes: the successor state under construction, the
context with the accumulated `total-cost`, and the delete and add effects. -/
structure Effects where
  succState : UnpackedState
  context : StateContext
  delEffects : List FDRFact
  addEffects : List FDRFact

/-- The numeric effects read the context and write the successor state. -/
def setNumericEffects (context : StateContext) (succState : UnpackedState)
    (numericEffects : List GroundNumericEffect) : UnpackedState :=
  numericEffects.foldl (fun succState effect =>
    succState.setValue effect.fterm
      (effect.op.apply (context.unpackedState.fluentValues effect.fterm)
        (effect.fexpr.evaluate context.get))) succState

/-- The context after the increase of `total-cost` by a conditional effect. -/
def collectAuxiliary (context : StateContext) (effect : GroundConjunctiveEffect) : StateContext :=
  match effect.auxiliaryNumericEffect with
  | none => context
  | some fexpr =>
      { context with auxiliaryValue := context.auxiliaryValue + fexpr.evaluate context.get }

def processEffect (effects : Effects) (condEffect : GroundConditionalEffect) : Effects :=
  if isApplicableCondition effects.context condEffect.condition then
    let effect := condEffect.effect
    { succState := setNumericEffects effects.context effects.succState effect.numericEffects
      context := collectAuxiliary effects.context effect
      delEffects := effects.delEffects ++ effect.negativeFacts
      addEffects := effects.addEffects ++ effect.positiveFacts }
  else
    effects

def processEffects (action : GroundAction) (effects : Effects) : Effects :=
  action.effects.foldl processEffect effects

/-! ### Application -/

/-- A state and its metric. -/
structure UnpackedNode where
  state : UnpackedState
  metric : Number

/-- Compute the derived atoms of a state. -/
def registerState (task : Task) (state : UnpackedState) : UnpackedState :=
  { state with derivedAtoms := task.axiomEvaluator state }

/-- A deleted fact that holds is replaced by no atom. -/
def deleteFact (state : UnpackedState) (fact : FDRFact) : UnpackedState :=
  if state.fluentFacts fact.var = fact.value then
    state.setFact ⟨fact.var, FDRValue.none⟩
  else
    state

/-- The metric of a successor node, from the context of its state with the
accumulated value of `total-cost`. -/
def successorMetric (succContext : StateContext) : Number :=
  let auxiliaryValue :=
    match succContext.task.metric with
    | some fexpr => fexpr.evaluate succContext.getMetric
    -- unit costs if there is no metric
    | none => succContext.auxiliaryValue + Number.finite 1
  auxiliaryValue.canonicalize

def applyAction (context : StateContext) (action : GroundAction) : UnpackedNode :=
  let effects := processEffects action
    ⟨context.unpackedState.assignUnextendedPart, context, [], []⟩
  let succState := effects.delEffects.foldl deleteFact effects.succState
  let succState := effects.addEffects.foldl UnpackedState.setFact succState
  let succState := registerState context.task succState
  ⟨succState, successorMetric ⟨context.task, succState, effects.context.auxiliaryValue⟩⟩

/-! ### Nodes -/

def initialState (task : Task) : UnpackedState :=
  let state := task.fluentFacts.foldl UnpackedState.setFact .empty
  let state := task.fluentFtermValues.foldl
    (fun state ftermValue => state.setValue ftermValue.1 ftermValue.2) state
  registerState task state

/-- The initial value of `total-cost` if there is one, else the metric. -/
def evaluateMetric (context : StateContext) : Number :=
  match context.task.auxiliaryFtermValue with
  | some value => value
  | none =>
      match context.task.metric with
      | some fexpr => (fexpr.evaluate context.getMetric).canonicalize
      | none => Number.canonicalize (.finite 0)

def getInitialNode (task : Task) : UnpackedNode :=
  ⟨initialState task, evaluateMetric ⟨task, initialState task, .finite 0⟩⟩

/-- The context in which the actions of a node are tested and applied. -/
def nodeContext (task : Task) (node : UnpackedNode) : StateContext :=
  ⟨task, node.state, node.metric⟩

def getSuccessorNode (task : Task) (node : UnpackedNode) (action : GroundAction) : UnpackedNode :=
  applyAction (nodeContext task node) action

end Tyr.Planning
