import Mathlib.Logic.Encodable.Pi
import Tyr.Formalism.Planning.Grounder
import Tyr.Planning.ActionExecutor

/-!
The action binding interface of the action executor.

An action is tested and applied under a binding, without its ground action. Atoms
and function terms are looked up in the repository: one that was never created has
no value in the state. The instances of a quantified effect are enumerated over
the domains of its variables, and firing an instance creates the atoms and the
function terms that it changes.

* `isApplicableLiftedCondition` — a condition under a binding.
* `isApplicableIfFiresLifted` — the numeric effects that fire are defined and
  compatible; the families are recorded for lifted function terms.
* `applyActionLifted` — apply the effects that fire.
-/

namespace Tyr.Planning

open Tyr.Formalism Tyr.Formalism.Planning

/-! ### Contexts -/

/-- The atoms, facts and function terms that were created. -/
structure Created where
  staticAtom : Tuple → Bool
  fluentAtom : Tuple → Bool
  derivedAtom : Tuple → Bool
  fact : Tuple → Bool
  staticFterm : Tuple → Bool
  fluentFterm : Tuple → Bool

/-- What was not created has no value. -/
structure Created.Covers (created : Created) (repository : Repository) (state : StateContext) : Prop where
  staticAtom : ∀ atom, created.staticAtom atom = false →
    state.task.staticAtoms (repository.staticAtom atom) = false
  fluentAtom : ∀ atom, (created.fluentAtom atom && created.fact atom) = false →
    state.unpackedState.fluentFacts (repository.fluentFact atom).var ≠ (repository.fluentFact atom).value
  derivedAtom : ∀ atom, created.derivedAtom atom = false →
    state.unpackedState.derivedAtoms (repository.derivedAtom atom) = false
  staticFterm : ∀ fterm, created.staticFterm fterm = false →
    state.task.staticValues (repository.staticFterm fterm) = .nan
  fluentFterm : ∀ fterm, created.fluentFterm fterm = false →
    state.unpackedState.fluentValues (repository.fluentFterm fterm) = .nan

structure ApplicabilityContext where
  state : StateContext
  repository : Repository
  created : Created
  binding : List Nat
  covers : created.Covers repository state

/-- The index of a lifted function term in the repository. -/
structure FtermIndex where
  index : Nat → List Term → Nat
  injective : ∀ function terms function' terms',
    index function terms = index function' terms' → function = function' ∧ terms = terms'

/-- An instance of a conditional effect: its objects, and the effect. -/
abbrev EffectInstance := List Nat × ConditionalEffect

/-- The instances in the order in which they are visited. -/
def effectInstances (domains : EffectDomains) (effects : List ConditionalEffect) :
    List EffectInstance :=
  effects.flatMap fun effect => (CartesianSet.elements (domains effect)).map fun objects => (objects, effect)

namespace ApplicabilityContext

variable (context : ApplicabilityContext)

/-- Append the objects of quantified variables to the binding. -/
def extend (objects : List Nat) : ApplicabilityContext :=
  { context with binding := context.binding ++ objects }

/-- `evaluate` of a lifted function term. -/
def get : FunctionTerm → Number
  | .static function terms =>
      let fterm : Tuple := ⟨function, terms.map (Term.ground context.binding)⟩
      if context.created.staticFterm fterm then
        context.state.task.staticValues (context.repository.staticFterm fterm)
      else .nan
  | .fluent function terms =>
      let fterm : Tuple := ⟨function, terms.map (Term.ground context.binding)⟩
      if context.created.fluentFterm fterm then
        context.state.unpackedState.fluentValues (context.repository.fluentFterm fterm)
      else .nan

/-! ### Conditions -/

def isApplicableStatic (literal : Literal) : Bool :=
  let atom := literal.atom.ground context.binding
  if context.created.staticAtom atom then
    context.state.task.staticAtoms (context.repository.staticAtom atom) == literal.polarity
  else !literal.polarity

def isApplicableFluent (literal : Literal) : Bool :=
  let atom := literal.atom.ground context.binding
  if context.created.fluentAtom atom then
    if context.created.fact atom then
      let fact := context.repository.fluentFact atom
      (context.state.unpackedState.fluentFacts fact.var == fact.value) == literal.polarity
    else !literal.polarity
  else !literal.polarity

def isApplicableDerived (literal : Literal) : Bool :=
  let atom := literal.atom.ground context.binding
  if context.created.derivedAtom atom then
    context.state.unpackedState.derivedAtoms (context.repository.derivedAtom atom) == literal.polarity
  else !literal.polarity

/-- `is_applicable` of a condition under a binding. -/
def isApplicableLiftedCondition (condition : ConjunctiveCondition) : Bool :=
  condition.staticLiterals.all context.isApplicableStatic &&
  condition.fluentLiterals.all context.isApplicableFluent &&
  condition.derivedLiterals.all context.isApplicableDerived &&
  condition.numericConstraints.all (BooleanOperator.evaluate context.get)

/-! ### Numeric effects -/

variable (ftermIndex : FtermIndex)

/-- The families are those of lifted function terms, whichever ground terms they
stand for. -/
def isApplicableLiftedNumericEffect (families : List EffectFamily) (effect : NumericEffect) :
    Option (List EffectFamily) :=
  let index := ftermIndex.index effect.function effect.terms
  let families := resize families (index + 1) .none
  if !isCompatibleEffectFamily effect.op.family (families.getD index .none) then
    none
  else if effect.op ≠ .assign ∧ (context.get (.fluent effect.function effect.terms)).isNaN then
    none
  else if (effect.fexpr.evaluate context.get).isNaN then
    none
  else
    some (families.set index effect.op.family)

def isApplicableLiftedEffect (families : List EffectFamily) (effect : ConjunctiveEffect) :
    Option (List EffectFamily) := do
  let families ← effect.numericEffects.foldlM (context.isApplicableLiftedNumericEffect ftermIndex) families
  match effect.auxiliaryNumericEffect with
  | none => some families
  | some fexpr => if (fexpr.evaluate context.get).isNaN then none else some families

/-- `is_applicable_if_fires` of one instance. -/
def isApplicableInstance (families : List EffectFamily) (inst : EffectInstance) :
    Option (List EffectFamily) :=
  let context := context.extend inst.1
  if context.isApplicableLiftedCondition inst.2.condition then
    context.isApplicableLiftedEffect ftermIndex families inst.2.effect
  else
    some families

def isApplicableIfFiresLifted (domains : EffectDomains) (effects : List ConditionalEffect) : Bool :=
  ((effectInstances domains effects).foldlM (context.isApplicableInstance ftermIndex) []).isSome

/-! ### Effects -/

/-- The facts of the literals of an effect that have the given polarity. -/
def effectFacts (polarity : Bool) (effect : ConjunctiveEffect) : List FDRFact :=
  (effect.literals.filter (·.polarity == polarity)).map fun literal =>
    context.repository.fluentFact (literal.atom.ground context.binding)

def setNumericEffectsLifted (succState : UnpackedState) (numericEffects : List NumericEffect) :
    UnpackedState :=
  numericEffects.foldl (fun succState effect =>
    succState.setValue
      (context.repository.fluentFterm
        ⟨effect.function, effect.terms.map (Term.ground context.binding)⟩)
      (effect.op.apply (context.get (.fluent effect.function effect.terms))
        (effect.fexpr.evaluate context.get))) succState

end ApplicabilityContext

/-- What is created when an effect fires. -/
def Created.insert (created : Created) (binding : List Nat) (effect : ConjunctiveEffect) : Created :=
  { created with
    fluentAtom := fun atom => created.fluentAtom atom ||
      effect.literals.any fun literal => literal.atom.ground binding = atom
    fact := fun atom => created.fact atom ||
      effect.literals.any fun literal => literal.atom.ground binding = atom
    fluentFterm := fun fterm => created.fluentFterm fterm ||
      effect.numericEffects.any fun numeric =>
        (⟨numeric.function, numeric.terms.map (Term.ground binding)⟩ : Tuple) = fterm }

theorem Created.Covers.insert {created : Created} {repository : Repository} {state : StateContext}
    (covers : created.Covers repository state) (binding : List Nat) (effect : ConjunctiveEffect) :
    (created.insert binding effect).Covers repository state where
  staticAtom := covers.staticAtom
  fluentAtom atom absent := by
    apply covers.fluentAtom
    cases hasAtom : created.fluentAtom atom with
    | false => rfl
    | true =>
        cases hasFact : created.fact atom with
        | false => rfl
        | true => simp [Created.insert, hasAtom, hasFact] at absent
  derivedAtom := covers.derivedAtom
  staticFterm := covers.staticFterm
  fluentFterm fterm absent := covers.fluentFterm fterm (Bool.or_eq_false_iff.mp absent).1

/-- What was created for a state covers it whatever the value of `total-cost` is. -/
theorem Created.Covers.auxiliaryValue {created : Created} {repository : Repository}
    {state : StateContext} (covers : created.Covers repository state) (value : Number) :
    created.Covers repository { state with auxiliaryValue := value } :=
  ⟨covers.staticAtom, covers.fluentAtom, covers.derivedAtom, covers.staticFterm, covers.fluentFterm⟩

/-- What `process_effects` of an action binding writes. -/
structure LiftedEffects where
  succState : UnpackedState
  context : ApplicabilityContext
  delEffects : List FDRFact
  addEffects : List FDRFact

/-- The context after an instance fired. -/
def ApplicabilityContext.fire (context : ApplicabilityContext) (objects : List Nat)
    (effect : ConjunctiveEffect) : ApplicabilityContext :=
  let auxiliaryValue :=
    match effect.auxiliaryNumericEffect with
    | none => context.state.auxiliaryValue
    | some fexpr => context.state.auxiliaryValue + fexpr.evaluate (context.extend objects).get
  { context with
    state := { context.state with auxiliaryValue }
    created := context.created.insert (context.binding ++ objects) effect
    covers := (context.covers.insert _ effect).auxiliaryValue _ }

def processInstance (effects : LiftedEffects) (inst : EffectInstance) :
    LiftedEffects :=
  let context := effects.context.extend inst.1
  let effect := inst.2.effect
  if context.isApplicableLiftedCondition inst.2.condition then
    { succState := context.setNumericEffectsLifted effects.succState effect.numericEffects
      context := effects.context.fire inst.1 effect
      delEffects := effects.delEffects ++ context.effectFacts false effect
      addEffects := effects.addEffects ++ context.effectFacts true effect }
  else
    effects

/-- `process_effects` of an action binding. -/
def processEffectsLifted (domains : EffectDomains) (action : Action) (effects : LiftedEffects) :
    LiftedEffects :=
  (effectInstances domains action.effects).foldl processInstance effects

/-- `apply_action` of an action binding. -/
def applyActionLifted (context : ApplicabilityContext) (domains : EffectDomains) (action : Action) :
    UnpackedNode :=
  let task := context.state.task
  let effects := processEffectsLifted domains action
    ⟨context.state.unpackedState.assignUnextendedPart, context, [], []⟩
  let succState := effects.delEffects.foldl deleteFact effects.succState
  let succState := effects.addEffects.foldl UnpackedState.setFact succState
  let succState := registerState task succState
  ⟨succState, successorMetric ⟨task, succState, effects.context.state.auxiliaryValue⟩⟩

/-! ### An empty context -/

def encodeTerm : Term → Nat × Nat
  | .parameter index => (0, index)
  | .object index => (1, index)

theorem encodeTerm_injective : Function.Injective encodeTerm := by
  intro term term' same
  cases term <;> cases term' <;> simp_all [encodeTerm]

/-- Function terms numbered by their encoding. -/
def FtermIndex.encode : FtermIndex where
  index function terms := Encodable.encode (function, terms.map encodeTerm)
  injective function terms function' terms' same := by
    have pairs := Encodable.encode_injective same
    exact ⟨congrArg Prod.fst pairs, encodeTerm_injective.list_map (congrArg Prod.snd pairs)⟩

/-- A task without atoms and values, in its only state. The index of a function term
is its first object. -/
noncomputable def emptyContext : ApplicabilityContext where
  state :=
    { task :=
        { staticAtoms := fun _ => false
          staticValues := fun _ => .nan
          fluentFacts := []
          fluentFtermValues := []
          auxiliaryFtermValue := none
          metric := none
          axiomEvaluator := fun _ _ => false }
      unpackedState := .empty
      auxiliaryValue := .finite 0 }
  repository :=
    { staticAtom := fun _ => 0
      fluentFact := fun _ => ⟨0, 1⟩
      derivedAtom := fun _ => 0
      staticFterm := fun _ => 0
      fluentFterm := fun fterm => fterm.objects.headD 0
      greater := fun _ _ => false
      arguments := .classical _
      numericEffects := .classical _
      conditionalEffects := .classical _ }
  created := ⟨fun _ => false, fun _ => false, fun _ => false, fun _ => false, fun _ => false, fun _ => false⟩
  binding := []
  covers :=
    { staticAtom := fun _ _ => rfl
      fluentAtom := fun _ _ holds => Nat.zero_ne_one holds
      derivedAtom := fun _ _ => rfl
      staticFterm := fun _ _ => rfl
      fluentFterm := fun _ _ => rfl }

end Tyr.Planning
