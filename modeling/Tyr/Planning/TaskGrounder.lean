import Mathlib.Data.List.Sort
import Tyr.Formalism.Planning.FDRContext
import Tyr.Formalism.Planning.Mutexes
import Tyr.Planning.MatchTreeExact
import Tyr.Planning.Programs.Ground

/-!
The grounder of a task.

The facts of the program give the reachable atoms and the bindings of the actions and
axioms. The reachable fluent atoms get finite-domain variables, which the ground task
lists. A condition is dropped if it asks for an atom that is not reachable; a literal that
forbids such an atom is left out. The atoms of effects are not tested: `get_fact` creates a
variable for an atom that has none.

* `groundPrunedCondition`, `groundPrunedAction`, `groundPrunedAxiom`.
* `Denotes`, `FactOf` — the atoms of the repository and their facts, whenever they were
  created.
* `groundPrunedCondition_spec`, `groundPrunedAction_spec`, `groundPrunedAxiom_spec` — what is
  grounded and what is dropped.
-/

namespace Tyr.Planning

open Tyr.Lib Tyr.Formalism Tyr.Formalism.Planning

namespace TaskGrounder

/-! ### Ground atoms -/

section

variable {repo after : PlanningRepository} {atom other : Nat} {tuple tuple' : Tuple}

/-- The atom is the one of the predicate and the objects. -/
def Denotes (repo : PlanningRepository) (atom : Nat) (tuple : Tuple) : Prop :=
  ∃ binding, repo.bindingOf atom = some binding ∧ binding.1 = tuple.relation ∧
    repo.objectsOf binding = some tuple.objects

theorem Denotes.isSome (denotes : Denotes repo atom tuple) : (repo.bindingOf atom).isSome := by
  obtain ⟨binding, found, _⟩ := denotes
  rw [found]
  rfl

theorem Denotes.later (denotes : Denotes repo atom tuple) (sound : repo.Sound)
    (run : Formalism.Repository.Extends repo after) : Denotes after atom tuple := by
  obtain ⟨binding, found, relation, objects⟩ := denotes
  exact ⟨binding, PlanningRepository.bindingOf_later sound run found, relation,
    PlanningRepository.objectsOf_later sound run objects⟩

theorem Denotes.tuple_unique (denotes : Denotes repo atom tuple) (denotes' : Denotes repo atom tuple') :
    tuple = tuple' := by
  obtain ⟨binding, found, relation, objects⟩ := denotes
  obtain ⟨binding', found', relation', objects'⟩ := denotes'
  obtain rfl := Option.some.inj (found.symm.trans found')
  cases tuple
  cases tuple'
  rw [Tuple.mk.injEq]
  exact ⟨relation.symm.trans relation', Option.some.inj (objects.symm.trans objects')⟩

/-- Atoms and rows are interned. -/
theorem Denotes.atom_unique (sound : repo.Sound) (denotes : Denotes repo atom tuple)
    (denotes' : Denotes repo other tuple) : atom = other := by
  obtain ⟨⟨predicate, row⟩, found, relation, objects⟩ := denotes
  obtain ⟨⟨predicate', row'⟩, found', relation', objects'⟩ := denotes'
  obtain rfl := relation.trans relation'.symm
  obtain rfl : row = row' := (PlanningRepository.rows_intern sound predicate).interned.distinct row row'
    _ _ objects objects' (beq_self_eq_true _)
  exact (PlanningRepository.bindings_intern sound).interned.distinct atom other _ _ found found'
    (PlanningSymbol.equalTo_self .groundAtom (predicate, row))

end

/-- A ground atom: its row and the atom are created unless they exist. -/
def createGroundAtom (repo : PlanningRepository) (tuple : Tuple) : PlanningRepository × Nat :=
  let (repo, binding) := repo.createBinding tuple.relation tuple.objects
  repo.createAtom binding

/-- There are two calls on the repository. -/
theorem createGroundAtom_spec {repo : PlanningRepository} (sound : repo.Sound) (tuple : Tuple) :
    (∃ between, PlanningRepository.Call repo between ∧
      PlanningRepository.Call between (createGroundAtom repo tuple).1) ∧
      Denotes (createGroundAtom repo tuple).1 (createGroundAtom repo tuple).2 tuple := by
  have row : PlanningRepository.Call repo (repo.createBinding tuple.relation tuple.objects).1 :=
    .binding tuple.relation tuple.objects
  have stored : PlanningRepository.objectsOf (repo.createBinding tuple.relation tuple.objects).1
      (repo.createBinding tuple.relation tuple.objects).2 = some tuple.objects :=
    (PlanningRepository.rows_intern sound tuple.relation).stored tuple.objects
  have relation : (repo.createBinding tuple.relation tuple.objects).2.1 = tuple.relation := rfl
  have soundRow := row.sound sound
  unfold createGroundAtom
  generalize repo.createBinding tuple.relation tuple.objects = created at *
  obtain ⟨between, binding⟩ := created
  have isRow : (between.objectsOf binding).isSome := Option.isSome_of_eq_some stored
  have next : PlanningRepository.Call between (between.createAtom binding).1 := .groundAtom binding isRow
  refine ⟨⟨between, row, next⟩, binding, ?_, relation, ?_⟩
  · exact (PlanningRepository.bindings_intern soundRow).stored (PlanningRepository.atomBuilder binding)
  · exact PlanningRepository.objectsOf_later soundRow next.extends stored

theorem atomsOf_createGroundAtom (repo : PlanningRepository) (tuple : Tuple) (var : Nat) :
    (createGroundAtom repo tuple).1.atomsOf var = repo.atomsOf var :=
  (PlanningRepository.atomsOf_createAtom _ var).trans
    (PlanningRepository.atomsOf_createBinding tuple.relation tuple.objects var)

/-- `ground` of a fluent atom. -/
def groundAtom (ctx : FDRContext) (tuple : Tuple) : FDRContext × Nat :=
  let (repo, atom) := createGroundAtom ctx.repo tuple
  ({ ctx with repo := repo }, atom)

/-- `ground` of a fluent atom with its fact. -/
def groundFact (ctx : FDRContext) (tuple : Tuple) : FDRContext × FDRFact :=
  let (ctx, atom) := groundAtom ctx tuple
  ctx.getFact atom

/-- The fact of the atom of the predicate and the objects. -/
def FactOf (ctx : FDRContext) (tuple : Tuple) (fact : FDRFact) : Prop :=
  ∃ atom, Denotes ctx.repo atom tuple ∧ ctx.mapping.lookup atom = some fact

section

variable {ctx after : FDRContext} {atom : Nat} {tuple : Tuple} {fact fact' : FDRFact}

theorem Denotes.run (denotes : Denotes ctx.repo atom tuple) (represents : ctx.Represents)
    (run : FDRContext.Run ctx after) : Denotes after.repo atom tuple :=
  denotes.later represents.sound run.extends

theorem FactOf.run (isFact : FactOf ctx tuple fact) (represents : ctx.Represents)
    (run : FDRContext.Run ctx after) : FactOf after tuple fact := by
  obtain ⟨atom, denotes, found⟩ := isFact
  exact ⟨atom, denotes.run represents run, run.lookup found⟩

theorem FactOf.unique (represents : ctx.Represents) (isFact : FactOf ctx tuple fact)
    (isFact' : FactOf ctx tuple fact') : fact = fact' := by
  obtain ⟨atom, denotes, found⟩ := isFact
  obtain ⟨other, denotes', found'⟩ := isFact'
  obtain rfl := denotes.atom_unique represents.sound denotes'
  exact Option.some.inj (found.symm.trans found')

/-- Different atoms have different facts. -/
theorem FactOf.tuple_unique {tuple' : Tuple} (represents : ctx.Represents)
    (isFact : FactOf ctx tuple fact) (isFact' : FactOf ctx tuple' fact) : tuple = tuple' := by
  obtain ⟨atom, denotes, found⟩ := isFact
  obtain ⟨other, denotes', found'⟩ := isFact'
  obtain rfl := (represents.stores atom fact found).unique (represents.stores other fact found')
  exact denotes.tuple_unique denotes'

theorem groundAtom_spec (represents : ctx.Represents) (tuple : Tuple) :
    FDRContext.Run ctx (groundAtom ctx tuple).1 ∧
      Denotes (groundAtom ctx tuple).1.repo (groundAtom ctx tuple).2 tuple := by
  obtain ⟨⟨between, first, second⟩, denotes⟩ := createGroundAtom_spec represents.sound tuple
  have step : FDRContext.Step ctx { ctx with repo := between } := .call first
  exact ⟨.tail (.single step) (.call second), denotes⟩

theorem groundFact_spec (represents : ctx.Represents) (tuple : Tuple) :
    FDRContext.Run ctx (groundFact ctx tuple).1 ∧
      FactOf (groundFact ctx tuple).1 tuple (groundFact ctx tuple).2 := by
  obtain ⟨run, denotes⟩ := groundAtom_spec represents tuple
  have withAtom := run.represents represents
  have step : FDRContext.Step (groundAtom ctx tuple).1 (groundFact ctx tuple).1 :=
    .getFact _ denotes.isSome
  exact ⟨run.tail step, _, denotes.run withAtom (.single step),
    (withAtom.getFact denotes.isSome).2⟩

end

/-! ### Literals -/

inductive RemapStatus where
  | mapped
  | tautology
  | contradiction
deriving DecidableEq, Repr

/-- `classify_literal`. -/
def classifyLiteral (present polarity : Bool) : RemapStatus :=
  if present then .mapped
  else if polarity then .contradiction
  else .tautology

/-- The reachable atoms, and the indices and orders of the repository. -/
structure Reached where
  repository : Repository
  fluentAtoms : List Nat
  derivedAtoms : List Tuple

section

variable (reached : Reached) (binding : List Nat)

/-- Add a fact to the positive or to the negative ones. -/
def addFact (condition : GroundConjunctiveCondition) (polarity : Bool) (fact : FDRFact) :
    GroundConjunctiveCondition :=
  if polarity then { condition with positiveFacts := condition.positiveFacts ++ [fact] }
  else { condition with negativeFacts := condition.negativeFacts ++ [fact] }

/-- One fluent literal; there is no condition any more after a contradiction. -/
def groundFluentLiteral (result : FDRContext × Option GroundConjunctiveCondition)
    (literal : Literal) : FDRContext × Option GroundConjunctiveCondition :=
  match result with
  | (ctx, none) => (ctx, none)
  | (ctx, some condition) =>
      let (ctx, atom) := groundAtom ctx (literal.atom.ground binding)
      match classifyLiteral (atom ∈ reached.fluentAtoms) literal.polarity with
      | .contradiction => (ctx, none)
      | .tautology => (ctx, some condition)
      | .mapped =>
          let (ctx, fact) := ctx.getFact atom
          (ctx, some (addFact condition literal.polarity fact))

/-- One derived literal. -/
def groundDerivedLiteral (result : Option GroundConjunctiveCondition) (literal : Literal) :
    Option GroundConjunctiveCondition :=
  result.bind fun condition =>
    match classifyLiteral (literal.atom.ground binding ∈ reached.derivedAtoms) literal.polarity with
    | .contradiction => none
    | .tautology => some condition
    | .mapped => some { condition with
        derivedLiterals := condition.derivedLiterals ++
          [⟨reached.repository.derivedAtom (literal.atom.ground binding), literal.polarity⟩] }

/-- `ground_pruned` of a condition. The order and the repetitions of its parts are kept as
they are. -/
def groundPrunedCondition (ctx : FDRContext) (condition : ConjunctiveCondition) :
    FDRContext × Option GroundConjunctiveCondition :=
  let start : GroundConjunctiveCondition :=
    { staticLiterals := condition.staticLiterals.map fun literal =>
        ⟨reached.repository.staticAtom (literal.atom.ground binding), literal.polarity⟩ }
  let (ctx, result) := condition.fluentLiterals.foldl (groundFluentLiteral reached binding)
    (ctx, some start)
  (ctx, (condition.derivedLiterals.foldl (groundDerivedLiteral reached binding) result).map
    fun result => { result with
      numericConstraints := condition.numericConstraints.map
        (reached.repository.groundConstraint binding) })

/-- One literal of an effect: the atom need not be reachable. -/
def groundEffectLiteral (result : FDRContext × GroundConjunctiveEffect) (literal : Literal) :
    FDRContext × GroundConjunctiveEffect :=
  let (ctx, fact) := groundFact result.1 (literal.atom.ground binding)
  if literal.polarity then
    (ctx, { result.2 with positiveFacts := result.2.positiveFacts ++ [fact] })
  else
    (ctx, { result.2 with negativeFacts := result.2.negativeFacts ++ [fact] })

/-- `ground_pruned` of an effect: nothing if there are no facts and no numeric effects. -/
def groundPrunedEffect (ctx : FDRContext) (effect : ConjunctiveEffect) :
    FDRContext × Option GroundConjunctiveEffect :=
  let (ctx, facts) := effect.literals.foldl (groundEffectLiteral binding) (ctx, {})
  let result := { facts with
    numericEffects := reached.repository.numericEffects.canonicalize
      (effect.numericEffects.map (reached.repository.groundNumericEffect binding))
    auxiliaryNumericEffect :=
      effect.auxiliaryNumericEffect.map (reached.repository.groundExpression binding) }
  if result.positiveFacts.isEmpty && result.negativeFacts.isEmpty && result.numericEffects.isEmpty then
    (ctx, none)
  else
    (ctx, some result)

/-- `ground_pruned` of a conditional effect. -/
def groundPrunedConditionalEffect (ctx : FDRContext) (effect : ConditionalEffect) :
    FDRContext × Option GroundConditionalEffect :=
  match groundPrunedCondition reached binding ctx effect.condition with
  | (ctx, none) => (ctx, none)
  | (ctx, some condition) =>
      let (ctx, result) := groundPrunedEffect reached binding ctx effect.effect
      (ctx, result.map fun result => ⟨condition, result⟩)

/-- The conditional effects with the objects of their quantified variables. -/
def effectInstances (domains : Action → ConditionalEffect → List (List Nat)) (action : Action) :
    List (ConditionalEffect × List Nat) :=
  action.effects.flatMap fun effect =>
    (CartesianSet.elements ((domains action effect).drop action.arity)).map fun objects =>
      (effect, objects)

/-- One instance of a conditional effect: its objects follow those of the action. -/
def groundInstance (result : FDRContext × List GroundConditionalEffect)
    (instance_ : ConditionalEffect × List Nat) : FDRContext × List GroundConditionalEffect :=
  let (ctx, effect) :=
    groundPrunedConditionalEffect reached (binding ++ instance_.2) result.1 instance_.1
  (ctx, result.2 ++ effect.toList)

/-- `ground_pruned` of an action: nothing if no effect is left. -/
def groundPrunedAction (domains : Action → ConditionalEffect → List (List Nat)) (ctx : FDRContext)
    (action : Action) : FDRContext × Option GroundAction :=
  match groundPrunedCondition reached binding ctx action.condition with
  | (ctx, none) => (ctx, none)
  | (ctx, some condition) =>
      let (ctx, effects) :=
        (effectInstances domains action).foldl (groundInstance reached binding) (ctx, [])
      if effects.isEmpty then (ctx, none)
      else (ctx, some ⟨condition, reached.repository.conditionalEffects.canonicalize effects⟩)

/-- An axiom derives the atom of its head. -/
structure GroundAxiom where
  head : Nat
  body : GroundConjunctiveCondition

/-- `ground_pruned` of an axiom: nothing if its head is not reachable. -/
def groundPrunedAxiom (ctx : FDRContext) (ax : Axiom) : FDRContext × Option GroundAxiom :=
  match groundPrunedCondition reached binding ctx ax.body with
  | (ctx, none) => (ctx, none)
  | (ctx, some body) =>
      if ax.head.ground binding ∈ reached.derivedAtoms then
        (ctx, some ⟨reached.repository.derivedAtom (ax.head.ground binding), body⟩)
      else
        (ctx, none)

/-- `create_ground_fdr_conjunctive_condition`: the derived literals come first, and the
positive fluent literals before the negative ones. -/
def createGroundFDRCondition (ctx : FDRContext) (condition : ConjunctiveCondition) :
    FDRContext × Option GroundConjunctiveCondition :=
  let start : GroundConjunctiveCondition :=
    { staticLiterals := condition.staticLiterals.map fun literal =>
        ⟨reached.repository.staticAtom (literal.atom.ground binding), literal.polarity⟩ }
  match condition.derivedLiterals.foldl (groundDerivedLiteral reached binding) (some start) with
  | none => (ctx, none)
  | some result =>
      let (ctx, result) := (condition.fluentLiterals.filter Literal.polarity ++
        condition.fluentLiterals.filter (!·.polarity)).foldl (groundFluentLiteral reached binding)
          (ctx, some result)
      (ctx, result.map fun result => { result with
        numericConstraints := condition.numericConstraints.map
          (reached.repository.groundConstraint binding) })

end

/-! ### What is grounded -/

/-- The reachable atoms are the atoms of the tuples, and they have facts. -/
structure Prepared (reached : Reached) (tuples : List Tuple) (ctx : FDRContext) : Prop where
  represents : ctx.Represents
  denotes : ∀ atom ∈ reached.fluentAtoms, ∃ tuple ∈ tuples, Denotes ctx.repo atom tuple
  atoms : ∀ tuple ∈ tuples, ∃ atom ∈ reached.fluentAtoms, Denotes ctx.repo atom tuple
  facts : ∀ tuple ∈ tuples, ∃ fact, FactOf ctx tuple fact

/-- No positive literal is about an atom that is not reachable. -/
structure Possible (reached : Reached) (tuples : List Tuple) (binding : List Nat)
    (condition : ConjunctiveCondition) : Prop where
  fluent : ∀ literal ∈ condition.fluentLiterals, literal.polarity = true →
    literal.atom.ground binding ∈ tuples
  derived : ∀ literal ∈ condition.derivedLiterals, literal.polarity = true →
    literal.atom.ground binding ∈ reached.derivedAtoms

/-- The facts of the fluent literals and the atoms of the derived ones; negative literals
about atoms that are not reachable are left out. -/
structure IsGround (reached : Reached) (tuples : List Tuple) (binding : List Nat) (ctx : FDRContext)
    (condition : ConjunctiveCondition) (result : GroundConjunctiveCondition) : Prop where
  positive : ∀ fact, fact ∈ result.positiveFacts ↔ ∃ literal ∈ condition.fluentLiterals,
    literal.polarity = true ∧ FactOf ctx (literal.atom.ground binding) fact
  negative : ∀ fact, fact ∈ result.negativeFacts ↔ ∃ literal ∈ condition.fluentLiterals,
    (literal.polarity = false ∧ literal.atom.ground binding ∈ tuples) ∧
      FactOf ctx (literal.atom.ground binding) fact
  derived : ∀ literal, literal ∈ result.derivedLiterals ↔ ∃ original ∈ condition.derivedLiterals,
    original.atom.ground binding ∈ reached.derivedAtoms ∧
      literal = ⟨reached.repository.derivedAtom (original.atom.ground binding), original.polarity⟩

section

variable {reached : Reached} {tuples : List Tuple} {binding : List Nat} {ctx after : FDRContext}
  {tuple : Tuple} {atom : Nat}

theorem Prepared.run (prepared : Prepared reached tuples ctx) (run : FDRContext.Run ctx after) :
    Prepared reached tuples after where
  represents := run.represents prepared.represents
  denotes atom mem := by
    obtain ⟨tuple, known, denotes⟩ := prepared.denotes atom mem
    exact ⟨tuple, known, denotes.run prepared.represents run⟩
  atoms tuple mem := by
    obtain ⟨atom, known, denotes⟩ := prepared.atoms tuple mem
    exact ⟨atom, known, denotes.run prepared.represents run⟩
  facts tuple mem := by
    obtain ⟨fact, isFact⟩ := prepared.facts tuple mem
    exact ⟨fact, isFact.run prepared.represents run⟩

theorem Prepared.mem_iff (prepared : Prepared reached tuples ctx) (denotes : Denotes ctx.repo atom tuple) :
    atom ∈ reached.fluentAtoms ↔ tuple ∈ tuples := by
  constructor
  · intro mem
    obtain ⟨other, known, denotes'⟩ := prepared.denotes atom mem
    rw [denotes.tuple_unique denotes']
    exact known
  · intro mem
    obtain ⟨other, known, denotes'⟩ := prepared.atoms tuple mem
    rw [denotes.atom_unique prepared.represents.sound denotes']
    exact known

/-- A fact stays the only fact of its atom. -/
theorem FactOf.run_iff {fact fact' : FDRFact} (isFact : FactOf ctx tuple fact)
    (represents : ctx.Represents) (run : FDRContext.Run ctx after) :
    FactOf after tuple fact' ↔ fact' = fact := by
  have later := isFact.run represents run
  exact ⟨fun isFact' => isFact'.unique (run.represents represents) later, fun same => same ▸ later⟩

/-! #### Fluent literals -/

theorem groundFluentLiteral_spec (binding : List Nat) (prepared : Prepared reached tuples ctx)
    (literal : Literal) (condition : GroundConjunctiveCondition) :
    FDRContext.Run ctx (groundFluentLiteral reached binding (ctx, some condition) literal).1 ∧
    (literal.atom.ground binding ∉ tuples →
      (groundFluentLiteral reached binding (ctx, some condition) literal).2 =
        if literal.polarity then none else some condition) ∧
    (literal.atom.ground binding ∈ tuples →
      ∃ fact, FactOf (groundFluentLiteral reached binding (ctx, some condition) literal).1
          (literal.atom.ground binding) fact ∧
        (groundFluentLiteral reached binding (ctx, some condition) literal).2 =
          some (addFact condition literal.polarity fact)) := by
  obtain ⟨run, denotes⟩ := groundAtom_spec prepared.represents (literal.atom.ground binding)
  have isKnown := (prepared.run run).mem_iff denotes
  have represents := run.represents prepared.represents
  simp only [groundFluentLiteral]
  generalize groundAtom ctx (literal.atom.ground binding) = created at *
  obtain ⟨ctx', atom⟩ := created
  dsimp only at run denotes isKnown represents ⊢
  by_cases known : literal.atom.ground binding ∈ tuples
  · have step : FDRContext.Step ctx' (ctx'.getFact atom).1 := .getFact atom denotes.isSome
    simp only [isKnown.mpr known, decide_true, classifyLiteral, if_true]
    exact ⟨run.tail step, fun unknown => absurd known unknown, fun _ =>
      ⟨_, ⟨atom, denotes.run represents (.single step), (represents.getFact denotes.isSome).2⟩, rfl⟩⟩
  · simp only [mt isKnown.mp known, decide_false, classifyLiteral, Bool.false_eq_true, if_false]
    cases literal.polarity with
    | true => exact ⟨run, fun _ => rfl, fun mem => absurd mem known⟩
    | false => exact ⟨run, fun _ => rfl, fun mem => absurd mem known⟩

theorem foldl_groundFluentLiteral_none (ctx : FDRContext) (literals : List Literal) :
    literals.foldl (groundFluentLiteral reached binding) (ctx, none) = (ctx, none) := by
  induction literals with
  | nil => rfl
  | cons literal rest ih => exact ih

/-- The facts of the literals are added. -/
structure AddsFacts (tuples : List Tuple) (binding : List Nat) (ctx : FDRContext)
    (literals : List Literal) (before result : GroundConjunctiveCondition) : Prop where
  positive : ∀ fact, fact ∈ result.positiveFacts ↔ fact ∈ before.positiveFacts ∨
    ∃ literal ∈ literals, literal.polarity = true ∧ FactOf ctx (literal.atom.ground binding) fact
  negative : ∀ fact, fact ∈ result.negativeFacts ↔ fact ∈ before.negativeFacts ∨
    ∃ literal ∈ literals, literal.polarity = false ∧ literal.atom.ground binding ∈ tuples ∧
      FactOf ctx (literal.atom.ground binding) fact
  derived : result.derivedLiterals = before.derivedLiterals

/-- A literal about a reachable atom before the others. -/
theorem AddsFacts.cons {literal : Literal} {rest : List Literal}
    {before result : GroundConjunctiveCondition} {fact : FDRFact}
    (adds : AddsFacts tuples binding after rest (addFact before literal.polarity fact) result)
    (known : literal.atom.ground binding ∈ tuples)
    (isFact : ∀ fact', FactOf after (literal.atom.ground binding) fact' ↔ fact' = fact) :
    AddsFacts tuples binding after (literal :: rest) before result := by
  constructor
  · intro other
    rw [adds.positive]
    simp only [List.mem_cons, exists_eq_or_imp, isFact]
    cases polarity : literal.polarity <;> simp [addFact, or_assoc]
  · intro other
    rw [adds.negative]
    simp only [List.mem_cons, exists_eq_or_imp, isFact]
    cases polarity : literal.polarity <;> simp [addFact, known, or_assoc]
  · rw [adds.derived, addFact]
    split <;> rfl

/-- A negative literal about another atom before the others. -/
theorem AddsFacts.cons_unknown {literal : Literal} {rest : List Literal}
    {before result : GroundConjunctiveCondition}
    (adds : AddsFacts tuples binding after rest before result)
    (unknown : literal.atom.ground binding ∉ tuples) (negative : literal.polarity = false) :
    AddsFacts tuples binding after (literal :: rest) before result := by
  refine ⟨fun other => ?_, fun other => ?_, adds.derived⟩
  · rw [adds.positive]
    simp [negative]
  · rw [adds.negative]
    simp [unknown]

theorem foldl_groundFluentLiteral_spec (binding : List Nat) (literals : List Literal)
    (prepared : Prepared reached tuples ctx) (before : GroundConjunctiveCondition) :
    FDRContext.Run ctx (literals.foldl (groundFluentLiteral reached binding) (ctx, some before)).1 ∧
    ((literals.foldl (groundFluentLiteral reached binding) (ctx, some before)).2.isSome ↔
      ∀ literal ∈ literals, literal.polarity = true → literal.atom.ground binding ∈ tuples) ∧
    ∀ result, (literals.foldl (groundFluentLiteral reached binding) (ctx, some before)).2 = some result →
      AddsFacts tuples binding
        (literals.foldl (groundFluentLiteral reached binding) (ctx, some before)).1 literals before
        result := by
  induction literals generalizing ctx before with
  | nil =>
      refine ⟨.refl, by simp, fun result same => ?_⟩
      obtain rfl := Option.some.inj same
      exact ⟨by simp, by simp, rfl⟩
  | cons literal rest ih =>
      obtain ⟨run, unknown, known⟩ :=
        groundFluentLiteral_spec binding prepared literal before
      rw [List.foldl_cons]
      generalize groundFluentLiteral reached binding (ctx, some before) literal = next at *
      obtain ⟨ctx', condition⟩ := next
      dsimp only at run unknown known
      have prepared' := prepared.run run
      by_cases isKnown : literal.atom.ground binding ∈ tuples
      · obtain ⟨fact, isFact, rfl⟩ := known isKnown
        obtain ⟨runRest, isSome, adds⟩ := ih prepared' (addFact before literal.polarity fact)
        refine ⟨run.trans runRest, ?_, fun result same => ?_⟩
        · rw [isSome, List.forall_mem_cons]
          exact (and_iff_right fun _ => isKnown).symm
        · exact (adds result same).cons isKnown fun fact' => isFact.run_iff prepared'.represents runRest
      · have dropped := unknown isKnown
        cases polarity : literal.polarity with
        | true =>
            rw [polarity, if_pos rfl] at dropped
            subst dropped
            rw [foldl_groundFluentLiteral_none]
            refine ⟨run, ?_, fun result same => by cases same⟩
            rw [List.forall_mem_cons]
            simp [polarity, isKnown]
        | false =>
            rw [polarity, if_neg Bool.false_ne_true] at dropped
            subst dropped
            obtain ⟨runRest, isSome, adds⟩ := ih prepared' before
            refine ⟨run.trans runRest, ?_, fun result same => ?_⟩
            · rw [isSome, List.forall_mem_cons]
              simp [polarity]
            · exact (adds result same).cons_unknown isKnown polarity

/-! #### Derived literals -/

theorem foldl_groundDerivedLiteral_none (literals : List Literal) :
    literals.foldl (groundDerivedLiteral reached binding) none = none := by
  induction literals with
  | nil => rfl
  | cons literal rest ih => exact ih

/-- The derived literals only add to the derived literals. -/
theorem foldl_groundDerivedLiteral (literals : List Literal) (before : GroundConjunctiveCondition) :
    literals.foldl (groundDerivedLiteral reached binding) (some before) =
      if ∀ literal ∈ literals, literal.polarity = true → literal.atom.ground binding ∈ reached.derivedAtoms
      then some { before with
        derivedLiterals := before.derivedLiterals ++ (literals.filter fun literal =>
          literal.atom.ground binding ∈ reached.derivedAtoms).map fun literal =>
            ⟨reached.repository.derivedAtom (literal.atom.ground binding), literal.polarity⟩ }
      else none := by
  induction literals generalizing before with
  | nil => simp
  | cons literal rest ih =>
      rw [List.foldl_cons]
      by_cases known : literal.atom.ground binding ∈ reached.derivedAtoms
      · have step : groundDerivedLiteral reached binding (some before) literal = some { before with
            derivedLiterals := before.derivedLiterals ++
              [⟨reached.repository.derivedAtom (literal.atom.ground binding), literal.polarity⟩] } := by
          simp [groundDerivedLiteral, classifyLiteral, known]
        rw [step, ih]
        simp [known]
      · cases polarity : literal.polarity with
        | true =>
            have step : groundDerivedLiteral reached binding (some before) literal = none := by
              simp [groundDerivedLiteral, classifyLiteral, known, polarity]
            rw [step, foldl_groundDerivedLiteral_none]
            simp [known, polarity]
        | false =>
            have step : groundDerivedLiteral reached binding (some before) literal = some before := by
              simp [groundDerivedLiteral, classifyLiteral, known, polarity]
            rw [step, ih]
            simp [known, polarity]

/-- A condition is dropped exactly if it is not possible. -/
theorem groundPrunedCondition_spec (binding : List Nat) (prepared : Prepared reached tuples ctx)
    (condition : ConjunctiveCondition) :
    FDRContext.Run ctx (groundPrunedCondition reached binding ctx condition).1 ∧
    ((groundPrunedCondition reached binding ctx condition).2.isSome ↔
      Possible reached tuples binding condition) ∧
    ∀ result, (groundPrunedCondition reached binding ctx condition).2 = some result →
      IsGround reached tuples binding (groundPrunedCondition reached binding ctx condition).1 condition
        result := by
  unfold groundPrunedCondition
  extract_lets start
  obtain ⟨run, isSome, adds⟩ := foldl_groundFluentLiteral_spec binding condition.fluentLiterals
    prepared start
  generalize condition.fluentLiterals.foldl (groundFluentLiteral reached binding) (ctx, some start) =
    fluent at *
  obtain ⟨ctx', result⟩ := fluent
  dsimp only at run isSome adds ⊢
  refine ⟨run, ?_, ?_⟩
  · rw [Option.isSome_map]
    cases result with
    | none =>
        rw [foldl_groundDerivedLiteral_none]
        refine iff_of_false Bool.false_ne_true fun possible => ?_
        exact Bool.false_ne_true (isSome.mpr possible.fluent)
    | some result =>
        rw [foldl_groundDerivedLiteral]
        have fluent := isSome.mp rfl
        split
        · next derived => exact iff_of_true rfl ⟨fluent, derived⟩
        · next missing =>
            exact iff_of_false Bool.false_ne_true fun possible => missing possible.derived
  · intro final same
    cases result with
    | none =>
        rw [foldl_groundDerivedLiteral_none] at same
        cases same
    | some result =>
        have facts := adds result rfl
        rw [foldl_groundDerivedLiteral] at same
        split at same
        · obtain rfl := Option.some.inj same
          refine ⟨fun fact => ?_, fun fact => ?_, fun literal => ?_⟩
          · rw [facts.positive]
            simp [start]
          · rw [facts.negative]
            simp [start, and_assoc]
          · rw [facts.derived]
            simp [start, and_assoc, eq_comm]
        · cases same

/-- The parts of the goal are grounded in another order. -/
theorem createGroundFDRCondition_spec (binding : List Nat) (prepared : Prepared reached tuples ctx)
    (condition : ConjunctiveCondition) :
    FDRContext.Run ctx (createGroundFDRCondition reached binding ctx condition).1 ∧
    ((createGroundFDRCondition reached binding ctx condition).2.isSome ↔
      Possible reached tuples binding condition) ∧
    ∀ result, (createGroundFDRCondition reached binding ctx condition).2 = some result →
      IsGround reached tuples binding (createGroundFDRCondition reached binding ctx condition).1
        condition result := by
  have sameLiterals : ∀ literal, literal ∈ condition.fluentLiterals.filter Literal.polarity ++
      condition.fluentLiterals.filter (!·.polarity) ↔ literal ∈ condition.fluentLiterals := by
    intro literal
    cases polarity : literal.polarity <;> simp [polarity]
  unfold createGroundFDRCondition
  extract_lets start
  rw [foldl_groundDerivedLiteral]
  split
  · next missing =>
      refine ⟨.refl, iff_of_false Bool.false_ne_true fun possible => ?_, fun result same => by cases same⟩
      split at missing
      · cases missing
      · next notDerived => exact notDerived possible.derived
  · next derived isDerived =>
      split at isDerived
      · next reachable =>
          obtain ⟨run, isSome, adds⟩ := foldl_groundFluentLiteral_spec binding
            (condition.fluentLiterals.filter Literal.polarity ++
              condition.fluentLiterals.filter (!·.polarity)) prepared derived
          simp only [sameLiterals] at isSome
          generalize List.foldl (groundFluentLiteral reached binding) (ctx, some derived) _ = next at *
          obtain ⟨ctx', result⟩ := next
          dsimp only at run isSome adds ⊢
          refine ⟨run, ?_, fun final same => ?_⟩
          · rw [Option.isSome_map, isSome]
            exact ⟨fun fluent => ⟨fluent, reachable⟩, Possible.fluent⟩
          · obtain ⟨result, isResult, rfl⟩ := Option.map_eq_some_iff.mp same
            have facts := adds result isResult
            obtain rfl := Option.some.inj isDerived
            refine ⟨fun fact => ?_, fun fact => ?_, fun literal => ?_⟩
            · rw [facts.positive]
              simp only [sameLiterals]
              simp [start]
            · rw [facts.negative]
              simp only [sameLiterals]
              simp [start, and_assoc]
            · rw [facts.derived]
              simp [start, and_assoc, eq_comm]
      · cases isDerived

/-! #### Effects -/

/-- The condition of the effect is possible, and there is a fact for each literal. -/
structure IsGroundEffect (reached : Reached) (tuples : List Tuple) (binding : List Nat)
    (ctx : FDRContext) (effect : ConditionalEffect) (result : GroundConditionalEffect) : Prop where
  possible : Possible reached tuples binding effect.condition
  condition : IsGround reached tuples binding ctx effect.condition result.condition
  defined : ∀ literal ∈ effect.effect.literals, ∃ fact, FactOf ctx (literal.atom.ground binding) fact
  positive : ∀ fact, fact ∈ result.effect.positiveFacts ↔ ∃ literal ∈ effect.effect.literals,
    literal.polarity = true ∧ FactOf ctx (literal.atom.ground binding) fact
  negative : ∀ fact, fact ∈ result.effect.negativeFacts ↔ ∃ literal ∈ effect.effect.literals,
    literal.polarity = false ∧ FactOf ctx (literal.atom.ground binding) fact

/-- An atom that has a fact keeps it. -/
theorem factOf_run_iff (represents : ctx.Represents) (run : FDRContext.Run ctx after)
    (defined : ∃ fact, FactOf ctx tuple fact) (fact : FDRFact) :
    FactOf after tuple fact ↔ FactOf ctx tuple fact := by
  obtain ⟨known, isFact⟩ := defined
  rw [isFact.run_iff represents run]
  exact ⟨fun same => same ▸ isFact, fun isFact' => isFact'.unique represents isFact⟩

theorem exists_factOf_run_iff (represents : ctx.Represents) (run : FDRContext.Run ctx after)
    {literals : List Literal} {P : Literal → Prop}
    (defined : ∀ literal ∈ literals, P literal → ∃ fact, FactOf ctx (literal.atom.ground binding) fact)
    (fact : FDRFact) :
    (∃ literal ∈ literals, P literal ∧ FactOf after (literal.atom.ground binding) fact) ↔
      ∃ literal ∈ literals, P literal ∧ FactOf ctx (literal.atom.ground binding) fact := by
  refine exists_congr fun literal => and_congr_right fun mem => and_congr_right fun holds => ?_
  exact factOf_run_iff represents run (defined literal mem holds) fact

theorem IsGround.run {condition : ConjunctiveCondition} {result : GroundConjunctiveCondition}
    (isGround : IsGround reached tuples binding ctx condition result)
    (possible : Possible reached tuples binding condition) (prepared : Prepared reached tuples ctx)
    (run : FDRContext.Run ctx after) : IsGround reached tuples binding after condition result where
  positive fact := by
    rw [isGround.positive, exists_factOf_run_iff prepared.represents run fun literal mem positive =>
      prepared.facts _ (possible.fluent literal mem positive)]
  negative fact := by
    rw [isGround.negative, exists_factOf_run_iff prepared.represents run fun literal _ holds =>
      prepared.facts _ holds.2]
  derived := isGround.derived

theorem IsGroundEffect.run {effect : ConditionalEffect} {result : GroundConditionalEffect}
    (isGround : IsGroundEffect reached tuples binding ctx effect result)
    (prepared : Prepared reached tuples ctx) (run : FDRContext.Run ctx after) :
    IsGroundEffect reached tuples binding after effect result where
  possible := isGround.possible
  condition := isGround.condition.run isGround.possible prepared run
  defined literal mem := by
    obtain ⟨fact, isFact⟩ := isGround.defined literal mem
    exact ⟨fact, isFact.run prepared.represents run⟩
  positive fact := by
    rw [isGround.positive, exists_factOf_run_iff prepared.represents run fun literal mem _ =>
      isGround.defined literal mem]
  negative fact := by
    rw [isGround.negative, exists_factOf_run_iff prepared.represents run fun literal mem _ =>
      isGround.defined literal mem]

/-- The facts of the literals of an effect so far. -/
structure AddsEffectFacts (binding : List Nat) (ctx : FDRContext) (literals : List Literal)
    (before result : GroundConjunctiveEffect) : Prop where
  defined : ∀ literal ∈ literals, ∃ fact, FactOf ctx (literal.atom.ground binding) fact
  positive : ∀ fact, fact ∈ result.positiveFacts ↔ fact ∈ before.positiveFacts ∨
    ∃ literal ∈ literals, literal.polarity = true ∧ FactOf ctx (literal.atom.ground binding) fact
  negative : ∀ fact, fact ∈ result.negativeFacts ↔ fact ∈ before.negativeFacts ∨
    ∃ literal ∈ literals, literal.polarity = false ∧ FactOf ctx (literal.atom.ground binding) fact

theorem foldl_groundEffectLiteral_spec (binding : List Nat) (literals : List Literal)
    (represents : ctx.Represents) (before : GroundConjunctiveEffect) :
    FDRContext.Run ctx (literals.foldl (groundEffectLiteral binding) (ctx, before)).1 ∧
      AddsEffectFacts binding (literals.foldl (groundEffectLiteral binding) (ctx, before)).1 literals
        before (literals.foldl (groundEffectLiteral binding) (ctx, before)).2 := by
  induction literals generalizing ctx before with
  | nil => exact ⟨.refl, ⟨by simp, by simp, by simp⟩⟩
  | cons literal rest ih =>
      obtain ⟨run, isFact⟩ := groundFact_spec represents (literal.atom.ground binding)
      rw [List.foldl_cons, groundEffectLiteral]
      generalize groundFact ctx (literal.atom.ground binding) = next at *
      obtain ⟨ctx', fact⟩ := next
      dsimp only at run isFact ⊢
      have represents' := run.represents represents
      cases polarity : literal.polarity with
      | true =>
          rw [if_pos rfl]
          obtain ⟨runRest, adds⟩ := ih represents'
            { before with positiveFacts := before.positiveFacts ++ [fact] }
          refine ⟨run.trans runRest, ?_, fun other => ?_, fun other => ?_⟩
          · exact List.forall_mem_cons.mpr ⟨⟨fact, isFact.run represents' runRest⟩, adds.defined⟩
          · rw [adds.positive]
            simp [polarity, isFact.run_iff represents' runRest, or_assoc]
          · rw [adds.negative]
            simp [polarity]
      | false =>
          rw [if_neg Bool.false_ne_true]
          obtain ⟨runRest, adds⟩ := ih represents'
            { before with negativeFacts := before.negativeFacts ++ [fact] }
          refine ⟨run.trans runRest, ?_, fun other => ?_, fun other => ?_⟩
          · exact List.forall_mem_cons.mpr ⟨⟨fact, isFact.run represents' runRest⟩, adds.defined⟩
          · rw [adds.positive]
            simp [polarity]
          · rw [adds.negative]
            simp [polarity, isFact.run_iff represents' runRest, or_assoc]

/-- An effect with a literal is kept. -/
theorem groundPrunedEffect_spec (reached : Reached) (binding : List Nat) (represents : ctx.Represents)
    (effect : ConjunctiveEffect) :
    FDRContext.Run ctx (groundPrunedEffect reached binding ctx effect).1 ∧
    (effect.literals ≠ [] → (groundPrunedEffect reached binding ctx effect).2.isSome) ∧
    ∀ result, (groundPrunedEffect reached binding ctx effect).2 = some result →
      AddsEffectFacts binding (groundPrunedEffect reached binding ctx effect).1 effect.literals {}
        result := by
  obtain ⟨run, adds⟩ := foldl_groundEffectLiteral_spec binding effect.literals represents {}
  unfold groundPrunedEffect
  generalize effect.literals.foldl (groundEffectLiteral binding) (ctx, {}) = next at *
  obtain ⟨ctx', facts⟩ := next
  dsimp only at run adds ⊢
  split
  · next empty =>
      refine ⟨run, fun nonempty => ?_, fun result same => by cases same⟩
      obtain ⟨literal, rest, cons⟩ := List.exists_cons_of_ne_nil nonempty
      have mem : literal ∈ effect.literals := cons ▸ List.mem_cons_self
      obtain ⟨fact, isFact⟩ := adds.defined literal mem
      simp only [Bool.and_eq_true, List.isEmpty_iff] at empty
      cases polarity : literal.polarity with
      | true =>
          have isAdded := (adds.positive fact).mpr (.inr ⟨literal, mem, polarity, isFact⟩)
          rw [empty.1.1] at isAdded
          cases isAdded
      | false =>
          have isDeleted := (adds.negative fact).mpr (.inr ⟨literal, mem, polarity, isFact⟩)
          rw [empty.1.2] at isDeleted
          cases isDeleted
  · refine ⟨run, fun _ => rfl, fun result same => ?_⟩
    obtain rfl := Option.some.inj same
    exact ⟨adds.defined, adds.positive, adds.negative⟩

/-- A conditional effect is kept if its condition is possible and it has a literal. -/
theorem groundPrunedConditionalEffect_spec (binding : List Nat)
    (prepared : Prepared reached tuples ctx) (effect : ConditionalEffect) :
    FDRContext.Run ctx (groundPrunedConditionalEffect reached binding ctx effect).1 ∧
    (Possible reached tuples binding effect.condition → effect.effect.literals ≠ [] →
      (groundPrunedConditionalEffect reached binding ctx effect).2.isSome) ∧
    ∀ result, (groundPrunedConditionalEffect reached binding ctx effect).2 = some result →
      IsGroundEffect reached tuples binding
        (groundPrunedConditionalEffect reached binding ctx effect).1 effect result := by
  obtain ⟨run, isSome, isGround⟩ := groundPrunedCondition_spec binding prepared effect.condition
  unfold groundPrunedConditionalEffect
  generalize groundPrunedCondition reached binding ctx effect.condition = next at *
  obtain ⟨ctx', condition⟩ := next
  cases condition with
  | none =>
      exact ⟨run, fun possible => absurd (isSome.mpr possible) Bool.false_ne_true,
        fun result same => by cases same⟩
  | some condition =>
      dsimp only at run isSome isGround ⊢
      have possible := isSome.mp rfl
      have prepared' := prepared.run run
      obtain ⟨runEffect, kept, adds⟩ :=
        groundPrunedEffect_spec reached binding prepared'.represents effect.effect
      generalize groundPrunedEffect reached binding ctx' effect.effect = next at *
      obtain ⟨ctx'', result⟩ := next
      dsimp only at runEffect kept adds ⊢
      refine ⟨run.trans runEffect, fun _ nonempty => ?_, fun result' same => ?_⟩
      · rw [Option.isSome_map]
        exact kept nonempty
      · obtain ⟨conjunctive, isResult, rfl⟩ := Option.map_eq_some_iff.mp same
        have facts := adds conjunctive isResult
        exact
          { possible := possible
            condition := (isGround condition rfl).run possible prepared' runEffect
            defined := facts.defined
            positive := fun fact => by rw [facts.positive]; simp
            negative := fun fact => by rw [facts.negative]; simp }

/-! #### Actions and axioms -/

/-- The instances of the effects whose condition is possible and that have a literal are
there. -/
structure AreInstances (reached : Reached) (tuples : List Tuple) (binding : List Nat)
    (ctx : FDRContext) (instances : List (ConditionalEffect × List Nat))
    (results : List GroundConditionalEffect) : Prop where
  sound : ∀ result ∈ results, ∃ instance_ ∈ instances,
    IsGroundEffect reached tuples (binding ++ instance_.2) ctx instance_.1 result
  complete : ∀ instance_ ∈ instances,
    Possible reached tuples (binding ++ instance_.2) instance_.1.condition →
      instance_.1.effect.literals ≠ [] → ∃ result ∈ results,
        IsGroundEffect reached tuples (binding ++ instance_.2) ctx instance_.1 result

theorem AreInstances.run {instances : List (ConditionalEffect × List Nat)}
    {results : List GroundConditionalEffect}
    (areInstances : AreInstances reached tuples binding ctx instances results)
    (prepared : Prepared reached tuples ctx) (run : FDRContext.Run ctx after) :
    AreInstances reached tuples binding after instances results where
  sound result mem := by
    obtain ⟨instance_, known, isGround⟩ := areInstances.sound result mem
    exact ⟨instance_, known, isGround.run prepared run⟩
  complete instance_ mem possible nonempty := by
    obtain ⟨result, known, isGround⟩ := areInstances.complete instance_ mem possible nonempty
    exact ⟨result, known, isGround.run prepared run⟩

/-- One more instance. -/
theorem AreInstances.concat {instances : List (ConditionalEffect × List Nat)}
    {results : List GroundConditionalEffect} {instance_ : ConditionalEffect × List Nat}
    {added : Option GroundConditionalEffect}
    (areInstances : AreInstances reached tuples binding ctx instances results)
    (kept : Possible reached tuples (binding ++ instance_.2) instance_.1.condition →
      instance_.1.effect.literals ≠ [] → added.isSome)
    (isGround : ∀ result, added = some result →
      IsGroundEffect reached tuples (binding ++ instance_.2) ctx instance_.1 result) :
    AreInstances reached tuples binding ctx (instances ++ [instance_]) (results ++ added.toList) where
  sound result mem := by
    rcases List.mem_append.mp mem with old | isAdded
    · obtain ⟨other, known, isOther⟩ := areInstances.sound result old
      exact ⟨other, List.mem_append_left _ known, isOther⟩
    · exact ⟨instance_, List.mem_append_right _ (List.mem_singleton_self _),
        isGround result (Option.mem_toList.mp isAdded)⟩
  complete other mem possible nonempty := by
    rcases List.mem_append.mp mem with old | isAdded
    · obtain ⟨result, known, isOther⟩ := areInstances.complete other old possible nonempty
      exact ⟨result, List.mem_append_left _ known, isOther⟩
    · obtain rfl := List.mem_singleton.mp isAdded
      obtain ⟨result, isResult⟩ := Option.isSome_iff_exists.mp (kept possible nonempty)
      exact ⟨result, List.mem_append_right _ (Option.mem_toList.mpr isResult),
        isGround result isResult⟩

theorem foldl_groundInstance_spec (binding : List Nat) (instances : List (ConditionalEffect × List Nat))
    (prepared : Prepared reached tuples ctx) :
    FDRContext.Run ctx (instances.foldl (groundInstance reached binding) (ctx, [])).1 ∧
      AreInstances reached tuples binding
        (instances.foldl (groundInstance reached binding) (ctx, [])).1 instances
        (instances.foldl (groundInstance reached binding) (ctx, [])).2 := by
  induction instances using List.reverseRecOn with
  | nil => exact ⟨.refl, ⟨by simp, by simp⟩⟩
  | append_singleton instances instance_ ih =>
      rw [List.foldl_concat]
      obtain ⟨run, areInstances⟩ := ih
      generalize instances.foldl (groundInstance reached binding) (ctx, []) = before at *
      obtain ⟨ctx', results⟩ := before
      dsimp only at run areInstances
      have prepared' := prepared.run run
      obtain ⟨runEffect, kept, isGround⟩ :=
        groundPrunedConditionalEffect_spec (binding ++ instance_.2) prepared' instance_.1
      exact ⟨run.trans runEffect, (areInstances.run prepared' runEffect).concat kept isGround⟩

/-- The precondition is possible, and the effects are the instances. -/
structure IsGroundAction (reached : Reached) (tuples : List Tuple) (binding : List Nat)
    (ctx : FDRContext) (action : Action) (instances : List (ConditionalEffect × List Nat))
    (result : GroundAction) : Prop where
  possible : Possible reached tuples binding action.condition
  condition : IsGround reached tuples binding ctx action.condition result.condition
  effects : AreInstances reached tuples binding ctx instances result.effects

theorem IsGroundAction.run {action : Action} {instances : List (ConditionalEffect × List Nat)}
    {result : GroundAction}
    (isGround : IsGroundAction reached tuples binding ctx action instances result)
    (prepared : Prepared reached tuples ctx) (run : FDRContext.Run ctx after) :
    IsGroundAction reached tuples binding after action instances result where
  possible := isGround.possible
  condition := isGround.condition.run isGround.possible prepared run
  effects := isGround.effects.run prepared run

/-- An action is kept if its precondition is possible and an instance of its effects with a
literal is. -/
theorem groundPrunedAction_spec (binding : List Nat)
    (domains : Action → ConditionalEffect → List (List Nat)) (prepared : Prepared reached tuples ctx)
    (action : Action) :
    FDRContext.Run ctx (groundPrunedAction reached binding domains ctx action).1 ∧
    (Possible reached tuples binding action.condition →
      (∃ instance_ ∈ effectInstances domains action,
        Possible reached tuples (binding ++ instance_.2) instance_.1.condition ∧
          instance_.1.effect.literals ≠ []) →
      (groundPrunedAction reached binding domains ctx action).2.isSome) ∧
    ∀ result, (groundPrunedAction reached binding domains ctx action).2 = some result →
      IsGroundAction reached tuples binding (groundPrunedAction reached binding domains ctx action).1
        action (effectInstances domains action) result := by
  obtain ⟨run, isSome, isGround⟩ := groundPrunedCondition_spec binding prepared action.condition
  unfold groundPrunedAction
  generalize groundPrunedCondition reached binding ctx action.condition = next at *
  obtain ⟨ctx', condition⟩ := next
  cases condition with
  | none =>
      exact ⟨run, fun possible => absurd (isSome.mpr possible) Bool.false_ne_true,
        fun result same => by cases same⟩
  | some condition =>
      dsimp only at run isSome isGround ⊢
      have possible := isSome.mp rfl
      have prepared' := prepared.run run
      obtain ⟨runEffects, areInstances⟩ :=
        foldl_groundInstance_spec binding (effectInstances domains action) prepared'
      generalize (effectInstances domains action).foldl (groundInstance reached binding) (ctx', []) =
        next at *
      obtain ⟨ctx'', effects⟩ := next
      dsimp only at runEffects areInstances ⊢
      split
      · next empty =>
          refine ⟨run.trans runEffects, fun _ nonempty => ?_, fun result same => by cases same⟩
          obtain ⟨instance_, mem, isPossible, hasLiteral⟩ := nonempty
          obtain ⟨result, known, _⟩ := areInstances.complete instance_ mem isPossible hasLiteral
          rw [List.isEmpty_iff.mp empty] at known
          cases known
      · refine ⟨run.trans runEffects, fun _ _ => rfl, fun result same => ?_⟩
        obtain rfl := Option.some.inj same
        have sameEffects := reached.repository.conditionalEffects.mem_canonicalize effects
        refine ⟨possible, (isGround condition rfl).run possible prepared' runEffects, ?_, ?_⟩
        · exact fun result mem => areInstances.sound result ((sameEffects result).mp mem)
        · intro instance_ mem isPossible hasLiteral
          obtain ⟨result, known, isResult⟩ := areInstances.complete instance_ mem isPossible hasLiteral
          exact ⟨result, (sameEffects result).mpr known, isResult⟩

/-- An axiom is kept if its body is possible and its head is reachable. -/
theorem groundPrunedAxiom_spec (binding : List Nat) (prepared : Prepared reached tuples ctx)
    (ax : Axiom) :
    FDRContext.Run ctx (groundPrunedAxiom reached binding ctx ax).1 ∧
    ((groundPrunedAxiom reached binding ctx ax).2.isSome ↔
      Possible reached tuples binding ax.body ∧ ax.head.ground binding ∈ reached.derivedAtoms) ∧
    ∀ result, (groundPrunedAxiom reached binding ctx ax).2 = some result →
      IsGround reached tuples binding (groundPrunedAxiom reached binding ctx ax).1 ax.body
        result.body := by
  obtain ⟨run, isSome, isGround⟩ := groundPrunedCondition_spec binding prepared ax.body
  unfold groundPrunedAxiom
  generalize groundPrunedCondition reached binding ctx ax.body = next at *
  obtain ⟨ctx', body⟩ := next
  cases body with
  | none =>
      refine ⟨run, iff_of_false Bool.false_ne_true fun kept => ?_, fun result same => by cases same⟩
      exact Bool.false_ne_true (isSome.mpr kept.1)
  | some body =>
      dsimp only at run isSome isGround ⊢
      split
      · next reachable =>
          refine ⟨run, iff_of_true rfl ⟨isSome.mp rfl, reachable⟩, fun result same => ?_⟩
          obtain rfl := Option.some.inj same
          exact isGround body rfl
      · next unreachable =>
          refine ⟨run, iff_of_false Bool.false_ne_true fun kept => unreachable kept.2,
            fun result same => by cases same⟩

end

end TaskGrounder

end Tyr.Planning
