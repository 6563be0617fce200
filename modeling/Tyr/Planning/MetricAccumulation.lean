import Tyr.Common.NumberAlgebra
import Tyr.Planning.ActionExecutor

/-!
Accumulation of the metric along a run.

A node stores one number. It is the value of the metric, and the next step reads
it as the value of `total-cost`: the increases of the step are added to it, and
the metric expression is evaluated with the sum in place of `total-cost`. The
two roles agree only for some metrics.

* `processEffects_eq` — the effects of an action in closed form.
* `MetricFits` — along a run, the metric is the total cost itself or does not
  depend on it, or there is no metric and the total cost does not change.
* `metric_eq_expectedMetric` — along such a run, every node stores the value of
  the metric at the accumulated total cost.
* `fits_of_totalCost`, `fits_of_stateMetric`, `fits_of_noMetric` — the kinds of
  metrics for which every run is of this form.
-/

namespace Tyr.Planning

open Tyr.Formalism Tyr.Formalism.Planning

/-! ### The effects of an action -/

/-- The effects whose condition holds in the context. -/
def firedEffects (context : StateContext) (effects : List GroundConditionalEffect) :
    List GroundConjunctiveEffect :=
  (effects.filter fun condEffect => isApplicableCondition context condEffect.condition).map
    GroundConditionalEffect.effect

/-- The increases of `total-cost` among the effects that fire. -/
def increases (context : StateContext) (action : GroundAction) :
    List (FunctionExpression GroundFunctionTerm) :=
  (firedEffects context action.effects).filterMap
    GroundConjunctiveEffect.auxiliaryNumericEffect

/-- Add up the increases on top of `init`, each as the source evaluates it. -/
def addIncreases (context : StateContext) (init : Number)
    (fexprs : List (FunctionExpression GroundFunctionTerm)) : Number :=
  fexprs.foldl (fun sum fexpr => sum + fexpr.evaluate context.get) init

namespace StateContext

variable (context : StateContext) (value : Number)

/-- Nothing that an action reads depends on the value of `total-cost`. -/
@[simp] theorem get_auxiliaryValue :
    ({ context with auxiliaryValue := value } : StateContext).get = context.get := rfl

@[simp] theorem isApplicableCondition_auxiliaryValue (condition : GroundConjunctiveCondition) :
    isApplicableCondition { context with auxiliaryValue := value } condition =
      isApplicableCondition context condition := rfl

@[simp] theorem setNumericEffects_auxiliaryValue (succState : UnpackedState)
    (numericEffects : List GroundNumericEffect) :
    setNumericEffects { context with auxiliaryValue := value } succState numericEffects =
      setNumericEffects context succState numericEffects := rfl

@[simp] theorem firedEffects_auxiliaryValue (effects : List GroundConditionalEffect) :
    firedEffects { context with auxiliaryValue := value } effects =
      firedEffects context effects := rfl

@[simp] theorem addIncreases_auxiliaryValue (init : Number)
    (fexprs : List (FunctionExpression GroundFunctionTerm)) :
    addIncreases { context with auxiliaryValue := value } init fexprs =
      addIncreases context init fexprs := rfl

end StateContext

/-- An increase is added to the value of `total-cost` in the context. -/
theorem collectAuxiliary_eq (context : StateContext) (effect : GroundConjunctiveEffect) :
    collectAuxiliary context effect =
      { context with
        auxiliaryValue := addIncreases context context.auxiliaryValue
          effect.auxiliaryNumericEffect.toList } := by
  unfold collectAuxiliary
  cases effect.auxiliaryNumericEffect with
  | none => rfl
  | some fexpr => rfl

/-- The effects of an action: all conditions and expressions are evaluated in
the state before the action, and only the value of `total-cost` accumulates. -/
theorem foldl_processEffect_eq (context : StateContext) (succState : UnpackedState)
    (delEffects addEffects : List FDRFact) (condEffects : List GroundConditionalEffect) :
    condEffects.foldl processEffect ⟨succState, context, delEffects, addEffects⟩ =
      { succState := (firedEffects context condEffects).foldl
          (fun state effect => setNumericEffects context state effect.numericEffects) succState
        context := { context with
          auxiliaryValue := addIncreases context context.auxiliaryValue
            ((firedEffects context condEffects).filterMap
              GroundConjunctiveEffect.auxiliaryNumericEffect) }
        delEffects := delEffects ++ (firedEffects context condEffects).flatMap
          GroundConjunctiveEffect.negativeFacts
        addEffects := addEffects ++ (firedEffects context condEffects).flatMap
          GroundConjunctiveEffect.positiveFacts } := by
  induction condEffects generalizing context succState delEffects addEffects with
  | nil => simp [firedEffects, addIncreases]
  | cons condEffect rest ih =>
      rw [List.foldl_cons]
      by_cases fires : isApplicableCondition context condEffect.condition
      · have fired : firedEffects context (condEffect :: rest) =
            condEffect.effect :: firedEffects context rest := by
          simp [firedEffects, fires]
        have processed : processEffect ⟨succState, context, delEffects, addEffects⟩ condEffect =
            { succState := setNumericEffects context succState condEffect.effect.numericEffects
              context := collectAuxiliary context condEffect.effect
              delEffects := delEffects ++ condEffect.effect.negativeFacts
              addEffects := addEffects ++ condEffect.effect.positiveFacts } := by
          simp [processEffect, fires]
        rw [processed, collectAuxiliary_eq, ih, fired]
        have sum : addIncreases context
            (addIncreases context context.auxiliaryValue
              condEffect.effect.auxiliaryNumericEffect.toList)
            ((firedEffects context rest).filterMap
              GroundConjunctiveEffect.auxiliaryNumericEffect) =
            addIncreases context context.auxiliaryValue
              ((condEffect.effect :: firedEffects context rest).filterMap
                GroundConjunctiveEffect.auxiliaryNumericEffect) := by
          cases increase : condEffect.effect.auxiliaryNumericEffect with
          | none => simp [increase, addIncreases]
          | some fexpr => simp [increase, addIncreases]
        simp [sum]
      · have fired : firedEffects context (condEffect :: rest) = firedEffects context rest := by
          simp [firedEffects, fires]
        have processed : processEffect ⟨succState, context, delEffects, addEffects⟩ condEffect =
            ⟨succState, context, delEffects, addEffects⟩ := by
          simp [processEffect, fires]
        rw [processed, ih, fired]

/-- The value of `total-cost` after the effects of an action. -/
theorem processEffects_auxiliaryValue (context : StateContext) (action : GroundAction)
    (succState : UnpackedState) :
    (processEffects action ⟨succState, context, [], []⟩).context.auxiliaryValue =
      addIncreases context context.auxiliaryValue (increases context action) := by
  unfold processEffects
  rw [foldl_processEffect_eq]
  rfl

/-! ### Runs -/

/-- The node reached by a sequence of actions from the initial node. -/
def nodeAfter (task : Task) (steps : List GroundAction) : UnpackedNode :=
  steps.foldl (getSuccessorNode task) (getInitialNode task)

theorem nodeAfter_concat (task : Task) (steps : List GroundAction) (action : GroundAction) :
    nodeAfter task (steps ++ [action]) =
      getSuccessorNode task (nodeAfter task steps) action := by
  simp [nodeAfter]

/-- Every action is applicable in the node that the actions before it reach. -/
def Applicable (task : Task) (steps : List GroundAction) : Prop :=
  ∀ earlier action, earlier ++ [action] <+: steps →
    isApplicable (nodeContext task (nodeAfter task earlier)) action

/-! ### The expected metric -/

/-- The initial value of `total-cost`, zero if the task gives none. -/
def initialTotalCost (task : Task) : Number := task.auxiliaryFtermValue.getD (.finite 0)

/-- The total cost after a further action: its increases are added to `cost`,
each with its value in the state before the action. -/
def costAfterAction (task : Task) (state : UnpackedState) (cost : Number)
    (action : GroundAction) : Number :=
  let context : StateContext := ⟨task, state, cost⟩
  (increases context action).foldl (fun sum fexpr => sum + fexpr.value context.get) cost

/-- The total cost of the actions that follow in `steps` from `node`. -/
def totalCostFrom (task : Task) : UnpackedNode → Number → List GroundAction → Number
  | _, cost, [] => cost
  | node, cost, action :: steps =>
      totalCostFrom task (getSuccessorNode task node action)
        (costAfterAction task node.state cost action) steps

/-- The initial value plus all increases along the run. -/
def totalCost (task : Task) (steps : List GroundAction) : Number :=
  totalCostFrom task (getInitialNode task) (initialTotalCost task) steps

/-- The metric after the run: the value of the metric expression in the reached
state at the total cost, or the number of actions if there is no metric. -/
def expectedMetric (task : Task) (steps : List GroundAction) : Number :=
  match task.metric with
  | some fexpr =>
      (fexpr.value
        (StateContext.getMetric ⟨task, (nodeAfter task steps).state, totalCost task steps⟩)).canonicalize
  | none => .finite steps.length

theorem totalCostFrom_concat (task : Task) (node : UnpackedNode) (cost : Number)
    (steps : List GroundAction) (action : GroundAction) :
    totalCostFrom task node cost (steps ++ [action]) =
      costAfterAction task (steps.foldl (getSuccessorNode task) node).state
        (totalCostFrom task node cost steps) action := by
  induction steps generalizing node cost with
  | nil => rfl
  | cons first rest ih =>
      rw [List.cons_append, totalCostFrom, ih, totalCostFrom, List.foldl_cons]

theorem totalCost_concat (task : Task) (steps : List GroundAction) (action : GroundAction) :
    totalCost task (steps ++ [action]) =
      costAfterAction task (nodeAfter task steps).state (totalCost task steps) action :=
  totalCostFrom_concat task _ _ steps action

/-! ### Runs on which the two roles agree -/

/-- In `state` the metric has the same value for every total cost. -/
def FreeOfTotalCost (task : Task) (state : UnpackedState)
    (fexpr : FunctionExpression MetricFunctionTerm) : Prop :=
  ∀ cost cost', fexpr.value (StateContext.getMetric ⟨task, state, cost⟩) =
    fexpr.value (StateContext.getMetric ⟨task, state, cost'⟩)

/-- The value of the metric in `state` at the total cost `cost` is `cost` itself. -/
def MetricIsTotalCost (task : Task) (state : UnpackedState) (cost : Number)
    (fexpr : FunctionExpression MetricFunctionTerm) : Prop :=
  (fexpr.value (StateContext.getMetric ⟨task, state, cost⟩)).canonicalize = cost

/-- If the task gives an initial total cost, it is the value of the metric; without
a metric it is zero. -/
def InitialFits (task : Task) : Prop :=
  match task.metric with
  | some fexpr =>
      fexpr.NoMultiSum ∧
        ∀ cost, task.auxiliaryFtermValue = some cost →
          MetricIsTotalCost task (initialState task) cost fexpr
  | none => initialTotalCost task = .finite 0

/-- The increases of the step contain no n-ary sum. -/
def PlainIncreases (task : Task) (steps : List GroundAction) (action : GroundAction) : Prop :=
  ∀ fexpr ∈ increases (nodeContext task (nodeAfter task steps)) action, fexpr.NoMultiSum

/-- After the step the metric does not depend on the total cost, or before the
step it is the total cost. Without a metric the step leaves the total cost alone. -/
def StepFits (task : Task) (steps : List GroundAction) (action : GroundAction) : Prop :=
  match task.metric with
  | some fexpr =>
      fexpr.NoMultiSum ∧
        (FreeOfTotalCost task (nodeAfter task (steps ++ [action])).state fexpr ∨
          PlainIncreases task steps action ∧
            MetricIsTotalCost task (nodeAfter task steps).state (totalCost task steps) fexpr)
  | none =>
      PlainIncreases task steps action ∧
        costAfterAction task (nodeAfter task steps).state (.finite 0) action = .finite 0

/-- The task fits initially, and every step of the run does. -/
structure MetricFits (task : Task) (steps : List GroundAction) : Prop where
  initial : InitialFits task
  step : ∀ earlier action, earlier ++ [action] <+: steps → StepFits task earlier action

/-- Increases without n-ary sums are added up as their values are. -/
theorem addIncreases_eq_foldl_value (context : StateContext) (init : Number)
    {fexprs : List (FunctionExpression GroundFunctionTerm)}
    (plain : ∀ fexpr ∈ fexprs, fexpr.NoMultiSum) :
    addIncreases context init fexprs =
      fexprs.foldl (fun sum fexpr => sum + fexpr.value context.get) init := by
  induction fexprs generalizing init with
  | nil => rfl
  | cons fexpr rest ih =>
      have ofRest := ih (init + fexpr.value context.get)
        (fun other mem => plain other (List.mem_cons_of_mem _ mem))
      rw [addIncreases, List.foldl_cons, List.foldl_cons,
        fexpr.evaluate_eq_value _ (plain fexpr List.mem_cons_self)]
      exact ofRest

/-- The metric of a successor node. -/
theorem getSuccessorNode_metric (task : Task) (node : UnpackedNode) (action : GroundAction) :
    (getSuccessorNode task node action).metric =
      successorMetric ⟨task, (getSuccessorNode task node action).state,
        addIncreases (nodeContext task node) node.metric
          (increases (nodeContext task node) action)⟩ := by
  have cost := processEffects_auxiliaryValue (nodeContext task node) action
    (nodeContext task node).unpackedState.assignUnextendedPart
  simp only [getSuccessorNode, applyAction, cost]
  rfl

/-- On top of any number, increases without n-ary sums lead to the total cost after
the step. -/
theorem addIncreases_eq_costAfterAction {task : Task} {steps : List GroundAction}
    {action : GroundAction} (plain : PlainIncreases task steps action) (cost : Number) :
    addIncreases (nodeContext task (nodeAfter task steps)) cost
        (increases (nodeContext task (nodeAfter task steps)) action) =
      costAfterAction task (nodeAfter task steps).state cost action :=
  addIncreases_eq_foldl_value _ cost plain

/-- The increases of an action are added to the cost before it. -/
theorem costAfterAction_eq_add (task : Task) (state : UnpackedState) (cost : Number)
    (action : GroundAction) :
    costAfterAction task state cost action =
      cost + costAfterAction task state (.finite 0) action := by
  have shift : ∀ (valuation : GroundFunctionTerm → Number)
      (fexprs : List (FunctionExpression GroundFunctionTerm)) (init : Number),
      fexprs.foldl (fun sum fexpr => sum + fexpr.value valuation) (cost + init) =
        cost + fexprs.foldl (fun sum fexpr => sum + fexpr.value valuation) init := by
    intro valuation fexprs
    induction fexprs with
    | nil => exact fun _ => rfl
    | cons fexpr rest ih =>
        intro init
        rw [List.foldl_cons, List.foldl_cons, Number.add_assoc]
        exact ih (init + fexpr.value valuation)
  have shifted := shift (StateContext.get ⟨task, state, .finite 0⟩)
    (increases ⟨task, state, .finite 0⟩ action) (.finite 0)
  rw [Number.add_zero] at shifted
  exact shifted

/-- The initial node of a task that fits stores the expected metric. -/
theorem getInitialNode_metric {task : Task} (fits : InitialFits task) :
    (nodeAfter task []).metric = expectedMetric task [] := by
  have stored : (nodeAfter task []).metric =
      evaluateMetric ⟨task, initialState task, .finite 0⟩ := rfl
  have expected : totalCost task [] = initialTotalCost task := rfl
  rw [stored, evaluateMetric, expectedMetric, expected]
  cases metric : task.metric with
  | none =>
      simp only [InitialFits, metric] at fits
      cases given : task.auxiliaryFtermValue with
      | none => exact Number.isCanonical_zero.canonicalize_eq
      | some cost =>
          rw [initialTotalCost, given] at fits
          exact fits
  | some fexpr =>
      simp only [InitialFits, metric] at fits
      cases given : task.auxiliaryFtermValue with
      | none =>
          simp only [initialTotalCost, given, Option.getD_none]
          rw [fexpr.evaluate_eq_value _ fits.1]
          rfl
      | some cost =>
          rw [initialTotalCost, given]
          exact (fits.2 cost given).symm

/-- A step that fits keeps the stored metric the expected one. -/
theorem nodeAfter_concat_metric {task : Task} {steps : List GroundAction} {action : GroundAction}
    (fits : StepFits task steps action)
    (expected : (nodeAfter task steps).metric = expectedMetric task steps) :
    (nodeAfter task (steps ++ [action])).metric = expectedMetric task (steps ++ [action]) := by
  have stored : (nodeAfter task (steps ++ [action])).metric =
      successorMetric ⟨task, (nodeAfter task (steps ++ [action])).state,
        addIncreases (nodeContext task (nodeAfter task steps)) (expectedMetric task steps)
          (increases (nodeContext task (nodeAfter task steps)) action)⟩ := by
    rw [nodeAfter_concat, getSuccessorNode_metric, ← expected]
  rw [stored, successorMetric]
  cases metric : task.metric with
  | none =>
      simp only [StepFits, metric] at fits
      obtain ⟨plain, unchanged⟩ := fits
      have before : expectedMetric task steps = .finite steps.length := by
        simp only [expectedMetric, metric]
      have after : expectedMetric task (steps ++ [action]) =
          .finite (steps ++ [action]).length := by
        simp only [expectedMetric, metric]
      have count := (Number.isCanonical_natCast (steps.length + 1)).canonicalize_eq
      rw [Nat.cast_add, Nat.cast_one] at count
      rw [addIncreases_eq_costAfterAction plain, costAfterAction_eq_add, unchanged,
        Number.add_zero, before, after, List.length_append, List.length_singleton, Nat.cast_add,
        Nat.cast_one]
      exact count
  | some fexpr =>
      simp only [StepFits, metric] at fits
      obtain ⟨noSum, free | ⟨plain, isTotalCost⟩⟩ := fits
      · simp only [expectedMetric, metric]
        rw [fexpr.evaluate_eq_value _ noSum, free]
      · have before : expectedMetric task steps = totalCost task steps := by
          simp only [expectedMetric, metric]
          exact isTotalCost
        simp only [expectedMetric, metric]
        rw [fexpr.evaluate_eq_value _ noSum, totalCost_concat]
        rw [expectedMetric, metric] at before
        simp only at before
        rw [before, addIncreases_eq_costAfterAction plain]

/-- Along a run that fits, every node stores the expected metric. -/
theorem metric_eq_expectedMetric {task : Task} {steps : List GroundAction}
    (fits : MetricFits task steps) :
    ∀ earlier, earlier <+: steps → (nodeAfter task earlier).metric = expectedMetric task earlier := by
  intro earlier
  induction earlier using List.reverseRecOn with
  | nil =>
      intro _
      exact getInitialNode_metric fits.initial
  | append_singleton earlier action ih =>
      intro inRun
      have before := ih ((List.prefix_append earlier [action]).trans inRun)
      exact nodeAfter_concat_metric (fits.step earlier action inRun) before

/-! ### The kinds of metrics that fit -/

/-- The increases of every step are canonical and contain no n-ary sum. -/
def CanonicalIncreases (task : Task) (steps : List GroundAction) : Prop :=
  ∀ earlier action, earlier ++ [action] <+: steps →
    let context := nodeContext task (nodeAfter task earlier)
    ∀ fexpr ∈ increases context action,
      fexpr.NoMultiSum ∧ (fexpr.value context.get).IsCanonical

theorem CanonicalIncreases.of_prefix {task : Task} {earlier steps : List GroundAction}
    (canonical : CanonicalIncreases task steps) (inRun : earlier <+: steps) :
    CanonicalIncreases task earlier := by
  intro shorter action inEarlier
  exact canonical shorter action (inEarlier.trans inRun)

/-- Canonical numbers on top of a canonical number add up to a canonical number. -/
theorem isCanonical_foldl_value (valuation : GroundFunctionTerm → Number) {init : Number}
    {fexprs : List (FunctionExpression GroundFunctionTerm)} (canonicalInit : init.IsCanonical)
    (canonical : ∀ fexpr ∈ fexprs, (fexpr.value valuation).IsCanonical) :
    (fexprs.foldl (fun sum fexpr => sum + fexpr.value valuation) init).IsCanonical := by
  induction fexprs generalizing init with
  | nil => exact canonicalInit
  | cons fexpr rest ih =>
      have canonicalValue := canonical fexpr List.mem_cons_self
      exact ih (canonicalInit.add canonicalValue)
        (fun other mem => canonical other (List.mem_cons_of_mem _ mem))

/-- The total cost of a run with canonical increases is canonical. -/
theorem isCanonical_totalCost {task : Task} {steps : List GroundAction}
    (canonicalInitial : (initialTotalCost task).IsCanonical)
    (canonical : CanonicalIncreases task steps) : (totalCost task steps).IsCanonical := by
  induction steps using List.reverseRecOn with
  | nil => exact canonicalInitial
  | append_singleton steps action ih =>
      have before := ih (canonical.of_prefix (List.prefix_append steps [action]))
      rw [totalCost_concat]
      exact isCanonical_foldl_value _ before
        (fun fexpr mem => (canonical steps action List.prefix_rfl fexpr mem).2)

/-- A plain `total-cost` metric fits if the initial value and all increases are
canonical. -/
theorem fits_of_totalCost {task : Task} {steps : List GroundAction}
    (plain : task.metric = some (.fterm .auxiliary))
    (canonicalInitial : (initialTotalCost task).IsCanonical)
    (canonical : CanonicalIncreases task steps) : MetricFits task steps := by
  have isTotalCost : ∀ (state : UnpackedState) (cost : Number), cost.IsCanonical →
      MetricIsTotalCost task state cost (.fterm .auxiliary) := by
    intro state cost canonicalCost
    rw [MetricIsTotalCost, FunctionExpression.value, StateContext.getMetric]
    exact canonicalCost.canonicalize_eq
  constructor
  · simp only [InitialFits, plain]
    refine ⟨trivial, ?_⟩
    intro cost given
    rw [initialTotalCost, given] at canonicalInitial
    exact isTotalCost _ cost canonicalInitial
  · intro earlier action inRun
    simp only [StepFits, plain]
    refine ⟨trivial, .inr ⟨fun fexpr mem => (canonical earlier action inRun fexpr mem).1, ?_⟩⟩
    have canonicalEarlier := canonical.of_prefix ((List.prefix_append earlier [action]).trans inRun)
    exact isTotalCost _ _ (isCanonical_totalCost canonicalInitial canonicalEarlier)

/-- A metric that does not mention `total-cost` and contains no n-ary sum fits,
unless the task gives `total-cost` an initial value. -/
theorem fits_of_stateMetric {task : Task} {fexpr : FunctionExpression MetricFunctionTerm}
    (steps : List GroundAction) (metric : task.metric = some fexpr)
    (noInitial : task.auxiliaryFtermValue = none) (noSum : fexpr.NoMultiSum)
    (noTotalCost : MetricFunctionTerm.auxiliary ∉ fexpr.fterms) : MetricFits task steps := by
  constructor
  · simp only [InitialFits, metric]
    refine ⟨noSum, ?_⟩
    intro cost given
    rw [noInitial] at given
    cases given
  · intro earlier action _
    simp only [StepFits, metric]
    refine ⟨noSum, .inl ?_⟩
    intro cost cost'
    apply FunctionExpression.value_congr
    intro fterm occurs
    cases fterm with
    | state fterm => rfl
    | auxiliary => exact absurd occurs noTotalCost

/-- A task without metric fits if nothing changes `total-cost`. -/
theorem fits_of_noMetric {task : Task} {steps : List GroundAction}
    (noMetric : task.metric = none) (noInitial : task.auxiliaryFtermValue = none)
    (noIncreases : ∀ earlier action, earlier ++ [action] <+: steps →
      increases (nodeContext task (nodeAfter task earlier)) action = []) :
    MetricFits task steps := by
  constructor
  · simp only [InitialFits, noMetric, initialTotalCost, noInitial, Option.getD_none]
  · intro earlier action inRun
    have empty := noIncreases earlier action inRun
    simp only [StepFits, noMetric]
    constructor
    · intro fexpr mem
      rw [empty] at mem
      cases mem
    · have none : increases ⟨task, (nodeAfter task earlier).state, .finite 0⟩ action = [] := empty
      simp only [costAfterAction, none, List.foldl_nil]

/-! ### A metric that is not exact -/

/-- An unconditional action of cost one. -/
def deliver : GroundAction where
  effects := [{ effect := { positiveFacts := [⟨0, 1⟩], auxiliaryNumericEffect := some (.number (.finite 1)) } }]

/-- A task with the metric `(* 2 (total-cost))`. -/
def doubledCost : Task where
  staticAtoms := fun _ => false
  staticValues := fun _ => .nan
  fluentFacts := []
  fluentFtermValues := []
  auxiliaryFtermValue := some (.finite 0)
  metric := some (.binary .mul (.number (.finite 2)) (.fterm .auxiliary))
  axiomEvaluator := fun _ _ => false

theorem isApplicable_deliver (context : StateContext) : isApplicable context deliver := rfl

/-- After two actions of cost one the doubled cost is four, and the node stores six. -/
theorem doubledCost_metric_ne :
    ¬ ∀ task steps, Applicable task steps →
      (nodeAfter task steps).metric = expectedMetric task steps := by
  intro claim
  have applicable : Applicable doubledCost [deliver, deliver] := by
    intro earlier action inRun
    have isDeliver : action = deliver := by
      have mem := inRun.subset (List.mem_append_right earlier (List.mem_singleton_self action))
      simpa using mem
    rw [isDeliver]
    exact isApplicable_deliver _
  have stored : (nodeAfter doubledCost [deliver, deliver]).metric = .finite 6 := by
    decide +kernel
  have expected : expectedMetric doubledCost [deliver, deliver] = .finite 4 := by
    decide +kernel
  have same := claim doubledCost [deliver, deliver] applicable
  rw [stored, expected] at same
  revert same
  decide +kernel

/-! ### Runs that fit -/

/-- A task whose metric is the total cost. -/
def plainCost : Task := { doubledCost with metric := some (.fterm .auxiliary) }

/-- A task whose metric is twice the value of a fluent function term. -/
def doubledFluent : Task :=
  { doubledCost with
    auxiliaryFtermValue := none
    metric := some (.binary .mul (.number (.finite 2)) (.fterm (.state (.fluent 0)))) }

theorem fits_plainCost : MetricFits plainCost [deliver, deliver] := by
  refine fits_of_totalCost rfl Number.isCanonical_zero ?_
  intro earlier action inRun context fexpr increase
  have isDeliver : action = deliver := by
    have mem := inRun.subset (List.mem_append_right earlier (List.mem_singleton_self action))
    simpa using mem
  have one : increases context deliver = [.number (.finite 1)] := rfl
  rw [isDeliver, one, List.mem_singleton] at increase
  rw [increase]
  exact ⟨trivial, Number.isCanonical_one⟩

theorem fits_doubledFluent : MetricFits doubledFluent [deliver, deliver] := by
  refine fits_of_stateMetric [deliver, deliver] rfl rfl ⟨trivial, trivial⟩ ?_
  decide

/-- The same task without metric, and an action that costs nothing. -/
def unmetered : Task := { doubledCost with auxiliaryFtermValue := none, metric := none }

def announce : GroundAction where
  effects := [{ effect := { positiveFacts := [⟨0, 1⟩] } }]

theorem fits_unmetered : MetricFits unmetered [announce, announce] := by
  refine fits_of_noMetric rfl rfl fun earlier action inRun => ?_
  have isAnnounce : action = announce := by
    have mem := inRun.subset (List.mem_append_right earlier (List.mem_singleton_self action))
    simpa using mem
  rw [isAnnounce]
  rfl

/-- A plain metric with costs, a metric of the state with costs, and no metric. -/
theorem metric_eq_expectedMetric_reached :
    (∀ earlier, earlier <+: [deliver, deliver] →
        (nodeAfter plainCost earlier).metric = expectedMetric plainCost earlier) ∧
      (∀ earlier, earlier <+: [deliver, deliver] →
        (nodeAfter doubledFluent earlier).metric = expectedMetric doubledFluent earlier) ∧
      ∀ earlier, earlier <+: [announce, announce] →
        (nodeAfter unmetered earlier).metric = expectedMetric unmetered earlier :=
  ⟨metric_eq_expectedMetric fits_plainCost, metric_eq_expectedMetric fits_doubledFluent,
    metric_eq_expectedMetric fits_unmetered⟩

end Tyr.Planning
