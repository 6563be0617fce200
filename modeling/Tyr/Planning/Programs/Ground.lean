import Mathlib.Data.List.Basic
import Std.Data.String.ToNat
import Tyr.Analysis.VariableDomainsSound
import Tyr.Formalism.Planning.Grounder

/-!
The program of the reachable atoms of a task.

Each action and each axiom has an applicability predicate. A rule derives it where the
static, the positive fluent and the positive derived literals of the condition hold, and
further rules derive from it the added atoms of the conditional effects and the head of
the axiom. Fluent and derived predicates of the task and applicability predicates are all
fluent predicates of the program, and predicates of one name and one arity are one.

* `GroundTaskProgram.createProgram` — the program.
* `GroundTaskProgram.complete` — what holds in a reachable state is in the least model.
* `GroundTaskProgram.actionPredicate_eq_axiomPredicate` — when predicates are confused.
* `GroundTaskProgram.grounding_complete_iff` — both together.
-/

namespace Tyr.Planning

open Tyr.Lib Tyr.Formalism Tyr.Formalism.Planning Tyr.Analysis

/-! ### Names -/

/-- `create_applicability_name` of a name and an index. -/
def createApplicabilityName (name : String) (index : Nat) : String :=
  "@" ++ name ++ "_" ++ toString index

/-- The lists before the first occurrence of an element, and the lists after it. -/
theorem append_cons_inj_of_notMem {α : Type*} {a : α} {front front' back back' : List α}
    (notMem : a ∉ front) (notMem' : a ∉ front') (same : front ++ a :: back = front' ++ a :: back') :
    front = front' ∧ back = back' := by
  induction front generalizing front' with
  | nil =>
      cases front' with
      | nil => exact ⟨rfl, List.tail_eq_of_cons_eq same⟩
      | cons b front' =>
          obtain ⟨rfl, _⟩ := List.cons.inj same
          exact absurd List.mem_cons_self notMem'
  | cons b front ih =>
      cases front' with
      | nil =>
          obtain ⟨rfl, _⟩ := List.cons.inj same
          exact absurd List.mem_cons_self notMem
      | cons b' front' =>
          obtain ⟨rfl, rest⟩ := List.cons.inj same
          obtain ⟨rfl, sameBack⟩ := ih (fun mem => notMem (List.mem_cons_of_mem _ mem))
            (fun mem => notMem' (List.mem_cons_of_mem _ mem)) rest
          exact ⟨rfl, sameBack⟩

/-- The index is what comes after the last underscore. -/
theorem createApplicabilityName_inj {name other : String} {index index' : Nat} :
    createApplicabilityName name index = createApplicabilityName other index' ↔
      name = other ∧ index = index' := by
  constructor
  · intro same
    have noUnderscore : ∀ n, '_' ∉ (Nat.toDigits 10 n).reverse := fun n mem =>
      Nat.underscore_not_in_toDigits (List.mem_reverse.mp mem)
    have characters : (Nat.toDigits 10 index).reverse ++ '_' :: ('@' :: name.toList).reverse =
        (Nat.toDigits 10 index').reverse ++ '_' :: ('@' :: other.toList).reverse := by
      have reversed := congrArg (fun name => name.toList.reverse) same
      simpa [createApplicabilityName] using reversed
    obtain ⟨digits, names⟩ :=
      append_cons_inj_of_notMem (noUnderscore index) (noUnderscore index') characters
    constructor
    · exact String.toList_inj.mp (List.tail_eq_of_cons_eq (List.reverse_inj.mp names))
    · apply Nat.repr_injective
      rw [← String.toList_inj, Nat.toList_repr, Nat.toList_repr]
      exact List.reverse_inj.mp digits
  · rintro ⟨rfl, rfl⟩
    rfl

/-! ### Tasks -/

/-- What identifies a predicate. -/
structure PredicateData where
  name : String
  arity : Nat
deriving DecidableEq, Repr

/-- The declared predicates, the names of predicates and actions, and the indices of
actions and axioms in the repository. The predicates of the domain come before those of
the problem. -/
structure NamedTask extends LiftedTask where
  fluentPredicates : List Nat
  derivedPredicates : List Nat
  predicateName : Symbol → String
  actionName : Fin actions.length → String
  actionIndex : Fin actions.length → Nat
  axiomIndex : Fin axioms.length → Nat

namespace NamedTask

variable (task : NamedTask)

def fluentData (predicate : Nat) : PredicateData :=
  ⟨task.predicateName (.fluentPredicate predicate), task.arity (.fluentPredicate predicate)⟩

def derivedData (predicate : Nat) : PredicateData :=
  ⟨task.predicateName (.derivedPredicate predicate), task.arity (.derivedPredicate predicate)⟩

/-- The name of the predicate of the head of an axiom. -/
def axiomName (ax : Fin task.axioms.length) : String :=
  task.predicateName (.derivedPredicate (task.axioms.get ax).head.predicate)

end NamedTask

namespace GroundTaskProgram

/-! ### Predicates -/

section

variable (task : NamedTask)

/-- `create_applicability_predicate` of an action. -/
def actionData (action : Fin task.actions.length) : PredicateData :=
  ⟨createApplicabilityName (task.actionName action) (task.actionIndex action),
    (task.actions.get action).arity⟩

/-- `create_applicability_predicate` of an axiom. -/
def axiomData (ax : Fin task.axioms.length) : PredicateData :=
  ⟨createApplicabilityName (task.axiomName ax) (task.axiomIndex ax), (task.axioms.get ax).arity⟩

/-- The fluent predicates of the program in the order in which they are created. -/
def fluentPredicates : List PredicateData :=
  (task.fluentPredicates.map task.fluentData ++ task.derivedPredicates.map task.derivedData ++
    (List.finRange task.actions.length).map (actionData task) ++
    (List.finRange task.axioms.length).map (axiomData task)).eraseDups

/-- The index of a predicate. -/
def predicateIndex (predicate : PredicateData) : Nat := (fluentPredicates task).idxOf predicate

def fluentToFluentPredicate (predicate : Nat) : Nat := predicateIndex task (task.fluentData predicate)

def derivedToFluentPredicate (predicate : Nat) : Nat := predicateIndex task (task.derivedData predicate)

def actionPredicate (action : Fin task.actions.length) : Nat :=
  predicateIndex task (actionData task action)

def axiomPredicate (ax : Fin task.axioms.length) : Nat := predicateIndex task (axiomData task ax)

/-- The fluent predicates have the arities that they were created with. -/
def arity : Symbol → Nat
  | .fluentPredicate index => ((fluentPredicates task)[index]?.map PredicateData.arity).getD 0
  | other => task.arity other

end

section

variable {task : NamedTask} {predicate other : PredicateData}

theorem mem_fluentPredicates : predicate ∈ fluentPredicates task ↔
    (∃ p ∈ task.fluentPredicates, task.fluentData p = predicate) ∨
    (∃ p ∈ task.derivedPredicates, task.derivedData p = predicate) ∨
    (∃ action, actionData task action = predicate) ∨ ∃ ax, axiomData task ax = predicate := by
  simp [fluentPredicates]

theorem actionData_mem (action : Fin task.actions.length) :
    actionData task action ∈ fluentPredicates task :=
  mem_fluentPredicates.mpr (.inr (.inr (.inl ⟨action, rfl⟩)))

theorem axiomData_mem (ax : Fin task.axioms.length) : axiomData task ax ∈ fluentPredicates task :=
  mem_fluentPredicates.mpr (.inr (.inr (.inr ⟨ax, rfl⟩)))

/-- Predicates of different data have different indices. -/
theorem predicateIndex_inj (mem : predicate ∈ fluentPredicates task) :
    predicateIndex task predicate = predicateIndex task other ↔ predicate = other :=
  List.idxOf_inj mem

/-- Distinct actions have distinct predicates. -/
theorem actionPredicate_inj {action action' : Fin task.actions.length}
    (same : actionPredicate task action = actionPredicate task action') :
    task.actionIndex action = task.actionIndex action' := by
  have sameData := (predicateIndex_inj (actionData_mem action)).mp same
  exact (createApplicabilityName_inj.mp (congrArg PredicateData.name sameData)).2

theorem axiomPredicate_inj {ax ax' : Fin task.axioms.length}
    (same : axiomPredicate task ax = axiomPredicate task ax') :
    task.axiomIndex ax = task.axiomIndex ax' := by
  have sameData := (predicateIndex_inj (axiomData_mem ax)).mp same
  exact (createApplicabilityName_inj.mp (congrArg PredicateData.name sameData)).2

/-- An action and an axiom have one predicate if they have one index and one arity and
the action is called like the derived predicate. -/
theorem actionPredicate_eq_axiomPredicate {action : Fin task.actions.length}
    {ax : Fin task.axioms.length} : actionPredicate task action = axiomPredicate task ax ↔
      task.actionName action = task.axiomName ax ∧ task.actionIndex action = task.axiomIndex ax ∧
        (task.actions.get action).arity = (task.axioms.get ax).arity := by
  rw [actionPredicate, axiomPredicate, predicateIndex_inj (actionData_mem action), actionData,
    axiomData, PredicateData.mk.injEq, createApplicabilityName_inj, and_assoc]

end

/-! ### Rules -/

section

variable (task : NamedTask) (literals : Canonicalization Literal)

/-- `merge_p2d` of a literal. -/
def mergeLiteral (predicate : Nat → Nat) (literal : Literal) : Literal :=
  ⟨⟨predicate literal.atom.predicate, literal.atom.terms⟩, literal.polarity⟩

/-- `merge_p2d` of a ground atom. -/
def mergeAtom (predicate : Nat → Nat) (atom : Tuple) : Tuple :=
  ⟨predicate atom.relation, atom.objects⟩

/-- `append_from_condition`: negative fluent and derived literals and the constraints are
dropped. -/
def appendFromCondition (condition : ConjunctiveCondition) (body : Datalog.ConjunctiveCondition) :
    Datalog.ConjunctiveCondition :=
  { body with
    staticLiterals := body.staticLiterals ++ condition.staticLiterals
    fluentLiterals := body.fluentLiterals ++
      (condition.fluentLiterals.filter Literal.polarity).map
        (mergeLiteral (fluentToFluentPredicate task)) ++
      (condition.derivedLiterals.filter Literal.polarity).map
        (mergeLiteral (derivedToFluentPredicate task)) }

/-- `canonicalize` of a condition. -/
def canonicalizeBody (body : Datalog.ConjunctiveCondition) : Datalog.ConjunctiveCondition :=
  { body with
    staticLiterals := literals.canonicalize body.staticLiterals
    fluentLiterals := literals.canonicalize body.fluentLiterals }

/-- `create_applicability_atom`. -/
def createApplicabilityAtom (predicate arity : Nat) : Atom :=
  ⟨predicate, (List.range arity).map .parameter⟩

/-- `create_applicability_rule` of an action. -/
def createActionRule (action : Fin task.actions.length) : Datalog.Rule where
  arity := (task.actions.get action).arity
  body := canonicalizeBody literals
    (appendFromCondition task (task.actions.get action).condition {})
  head := createApplicabilityAtom (actionPredicate task action) (task.actions.get action).arity

/-- `create_applicability_rule` of an axiom. -/
def createAxiomRule (ax : Fin task.axioms.length) : Datalog.Rule where
  arity := (task.axioms.get ax).arity
  body := canonicalizeBody literals (appendFromCondition task (task.axioms.get ax).body {})
  head := createApplicabilityAtom (axiomPredicate task ax) (task.axioms.get ax).arity

/-- `create_cond_effect_rule`. -/
def createCondEffectRule (action : Fin task.actions.length) (effect : ConditionalEffect)
    (head : Atom) : Datalog.Rule where
  arity := (task.actions.get action).arity + effect.arity
  body := canonicalizeBody literals (appendFromCondition task effect.condition
    { staticLiterals := (task.actions.get action).condition.staticLiterals
      fluentLiterals := [⟨createApplicabilityAtom (actionPredicate task action)
        (task.actions.get action).arity, true⟩] })
  head := head

/-- `create_effect_rule`. -/
def createEffectRule (ax : Fin task.axioms.length) (head : Atom) : Datalog.Rule where
  arity := (task.axioms.get ax).arity
  body := canonicalizeBody literals
    { staticLiterals := (task.axioms.get ax).body.staticLiterals
      fluentLiterals := [⟨createApplicabilityAtom (axiomPredicate task ax)
        (task.axioms.get ax).arity, true⟩] }
  head := head

/-- `translate_action_to_delete_free_rules`. -/
def actionRules (action : Fin task.actions.length) : List Datalog.Rule :=
  createActionRule task literals action ::
    (task.actions.get action).effects.flatMap fun effect =>
      (effect.effect.literals.filter Literal.polarity).map fun literal =>
        createCondEffectRule task literals action effect
          (mergeLiteral (fluentToFluentPredicate task) literal).atom

/-- `translate_axiom_to_delete_free_axiom_rules`. -/
def axiomRules (ax : Fin task.axioms.length) : List Datalog.Rule :=
  [createAxiomRule task literals ax,
    createEffectRule task literals ax
      ⟨derivedToFluentPredicate task (task.axioms.get ax).head.predicate,
        (task.axioms.get ax).head.terms⟩]

def rules : List Datalog.Rule :=
  (List.finRange task.actions.length).flatMap (actionRules task literals) ++
    (List.finRange task.axioms.length).flatMap (axiomRules task literals)

end

section

variable {task : NamedTask} {literals : Canonicalization Literal} {rule : Datalog.Rule}

theorem mem_rules : rule ∈ rules task literals ↔
    (∃ action, rule ∈ actionRules task literals action) ∨ ∃ ax, rule ∈ axiomRules task literals ax := by
  simp [rules]

theorem mem_actionRules {action : Fin task.actions.length} :
    rule ∈ actionRules task literals action ↔ rule = createActionRule task literals action ∨
      ∃ effect ∈ (task.actions.get action).effects, ∃ literal ∈ effect.effect.literals,
        literal.polarity = true ∧ createCondEffectRule task literals action effect
          (mergeLiteral (fluentToFluentPredicate task) literal).atom = rule := by
  simp [actionRules, and_assoc]

theorem parameter_mem_createApplicabilityAtom {predicate arity index : Nat}
    (occurs : .parameter index ∈ (createApplicabilityAtom predicate arity).terms) : index < arity := by
  simpa [createApplicabilityAtom] using occurs

theorem heads_closed (task : NamedTask) (literals : Canonicalization Literal) :
    ∀ rule ∈ rules task literals, ∀ index, .parameter index ∈ rule.head.terms →
      index < rule.arity := by
  intro rule mem index occurs
  rcases mem_rules.mp mem with ⟨action, ofAction⟩ | ⟨ax, ofAxiom⟩
  · rcases mem_actionRules.mp ofAction with rfl | ⟨effect, memEffect, literal, memLiteral, _, rfl⟩
    · exact parameter_mem_createApplicabilityAtom occurs
    · exact task.effects_closed _ (List.get_mem _ action) effect memEffect literal memLiteral index
        occurs
  · rcases List.mem_pair.mp ofAxiom with rfl | rfl
    · exact parameter_mem_createApplicabilityAtom occurs
    · exact task.heads_closed _ (List.get_mem _ ax) index occurs

end

section

variable (task : NamedTask) (literals : Canonicalization Literal)

/-- `create_program`. -/
def createProgram : Datalog.Program where
  objects := task.objects
  arity := arity task
  staticAtoms := task.staticAtoms
  fluentAtoms := task.fluentAtoms.map (mergeAtom (fluentToFluentPredicate task))
  staticFtermValues := task.staticFtermValues
  fluentFtermValues := task.fluentFtermValues
  rules := rules task literals
  heads_closed := heads_closed task literals

/-- The facts of the program: negation is on static atoms only. -/
def facts : Set Tuple := leastModel (createProgram task literals) [rules task literals]

end

/-! ### Derivations -/

section

variable {task : NamedTask} {literals : Canonicalization Literal}
  {semantics : TaskSemantics task.toLiftedTask} {state : LiftedState} {binding : List Nat}

/-- The static literals of a body hold, and its other literals are facts. -/
structure BodyHolds (task : NamedTask) (literals : Canonicalization Literal) (binding : List Nat)
    (body : Datalog.ConjunctiveCondition) : Prop where
  static : ∀ literal ∈ body.staticLiterals,
    literal.HoldsIn {atom | atom ∈ task.staticAtoms} binding
  fluent : ∀ literal ∈ body.fluentLiterals,
    literal.polarity = true ∧ literal.atom.ground binding ∈ facts task literals
  numeric : body.numericConstraints = []

theorem bodyHolds_nil : BodyHolds task literals binding {} :=
  ⟨List.forall_mem_nil _, List.forall_mem_nil _, rfl⟩

theorem BodyHolds.canonicalize {body : Datalog.ConjunctiveCondition}
    (holds : BodyHolds task literals binding body) :
    BodyHolds task literals binding (canonicalizeBody literals body) where
  static literal mem := holds.static literal ((literals.mem_canonicalize _ _).mp mem)
  fluent literal mem := holds.fluent literal ((literals.mem_canonicalize _ _).mp mem)
  numeric := holds.numeric

/-- A rule whose body holds derives its head. -/
theorem head_mem_facts {rule : Datalog.Rule} (mem : rule ∈ rules task literals)
    (isBinding : task.IsBinding rule.arity binding) (holds : BodyHolds task literals binding rule.body) :
    rule.head.ground binding ∈ facts task literals := by
  have admitted : Admitted (createProgram task literals) rule binding := by
    refine ⟨isBinding.length, isBinding.objects, holds.static, ?_⟩
    rw [holds.numeric]
    exact List.forall_mem_nil _
  have isClause : (⟨rule.head.ground binding,
      (rule.body.fluentLiterals.filter Literal.polarity).map (·.atom.ground binding),
      (rule.body.fluentLiterals.filter (!·.polarity)).map (·.atom.ground binding)⟩ : Clause Tuple) ∈
      ruleClauses (createProgram task literals) (rules task literals) :=
    ⟨rule, mem, binding, admitted, rfl⟩
  refine LayerModel.clause isClause ?_ ?_
  · intro atom memNegative
    obtain ⟨literal, memLiteral, _⟩ := List.mem_map.mp memNegative
    obtain ⟨memBody, negative⟩ := List.mem_filter.mp memLiteral
    rw [(holds.fluent literal memBody).1] at negative
    cases negative
  · intro atom memPositive
    obtain ⟨literal, memLiteral, rfl⟩ := List.mem_map.mp memPositive
    exact (holds.fluent literal (List.mem_filter.mp memLiteral).1).2

/-- The fluent atoms of the state are facts. -/
def FluentFacts (task : NamedTask) (literals : Canonicalization Literal) (state : LiftedState) : Prop :=
  ∀ atom ∈ state.fluentAtoms, mergeAtom (fluentToFluentPredicate task) atom ∈ facts task literals

/-- The literals of a condition whose positive derived literals are facts. -/
theorem BodyHolds.append {condition : ConjunctiveCondition} {body : Datalog.ConjunctiveCondition}
    (before : BodyHolds task literals binding body) (fluentFacts : FluentFacts task literals state)
    (holds : semantics.HoldsUnderived state binding condition)
    (derived : ∀ literal ∈ condition.derivedLiterals, literal.polarity = true →
      mergeAtom (derivedToFluentPredicate task) (literal.atom.ground binding) ∈ facts task literals) :
    BodyHolds task literals binding (appendFromCondition task condition body) where
  static literal mem := by
    rcases List.mem_append.mp mem with inBody | inCondition
    · exact before.static literal inBody
    · exact holds.static literal inCondition
  fluent literal mem := by
    rcases List.mem_append.mp mem with others | isDerived
    · rcases List.mem_append.mp others with inBody | isFluent
      · exact before.fluent literal inBody
      · obtain ⟨original, memFilter, rfl⟩ := List.mem_map.mp isFluent
        obtain ⟨inCondition, positive⟩ := List.mem_filter.mp memFilter
        exact ⟨positive, fluentFacts _ ((holds.fluent original inCondition).mpr positive)⟩
    · obtain ⟨original, memFilter, rfl⟩ := List.mem_map.mp isDerived
      obtain ⟨inCondition, positive⟩ := List.mem_filter.mp memFilter
      exact ⟨positive, derived original inCondition positive⟩
  numeric := before.numeric

/-- The applicability atom stands for the parameters, whatever follows them. -/
theorem createApplicabilityAtom_ground (predicate : Nat) {arity : Nat} (length : binding.length = arity)
    (objects : List Nat) :
    (createApplicabilityAtom predicate arity).ground (binding ++ objects) = ⟨predicate, binding⟩ := by
  rw [createApplicabilityAtom, Atom.ground, List.map_map, Tuple.mk.injEq]
  refine ⟨rfl, List.ext_getElem (by simp [length]) fun index inMap inBinding => ?_⟩
  rw [List.getElem_map, List.getElem_range, Function.comp_apply, Term.ground,
    List.getD_append _ _ _ _ inBinding, List.getD_eq_getElem _ _ inBinding]

/-- The applicability atom of an axiom whose body holds, and its head. -/
theorem axiom_facts (fluentFacts : FluentFacts task literals state) {ax : Fin task.axioms.length}
    (isBinding : task.IsBinding (task.axioms.get ax).arity binding)
    (holds : semantics.HoldsUnderived state binding (task.axioms.get ax).body)
    (derived : ∀ literal ∈ (task.axioms.get ax).body.derivedLiterals, literal.polarity = true →
      mergeAtom (derivedToFluentPredicate task) (literal.atom.ground binding) ∈ facts task literals) :
    ⟨axiomPredicate task ax, binding⟩ ∈ facts task literals ∧
      mergeAtom (derivedToFluentPredicate task) ((task.axioms.get ax).head.ground binding) ∈
        facts task literals := by
  have sameAtom := createApplicabilityAtom_ground (axiomPredicate task ax) isBinding.length []
  rw [List.append_nil] at sameAtom
  have isRule : createAxiomRule task literals ax ∈ rules task literals :=
    mem_rules.mpr (.inr ⟨ax, List.mem_cons_self⟩)
  have isEffectRule : createEffectRule task literals ax
      ⟨derivedToFluentPredicate task (task.axioms.get ax).head.predicate,
        (task.axioms.get ax).head.terms⟩ ∈ rules task literals :=
    mem_rules.mpr (.inr ⟨ax, List.mem_cons_of_mem _ List.mem_cons_self⟩)
  have applicable : ⟨axiomPredicate task ax, binding⟩ ∈ facts task literals := by
    rw [← sameAtom]
    exact head_mem_facts isRule isBinding
      (bodyHolds_nil.append fluentFacts holds derived).canonicalize
  refine ⟨applicable, head_mem_facts isEffectRule isBinding (BodyHolds.canonicalize
    ⟨holds.static, ?_, rfl⟩)⟩
  intro literal mem
  rw [List.mem_singleton.mp mem]
  exact ⟨rfl, sameAtom ▸ applicable⟩

/-- The derived atoms of a state are facts if the fluent ones are. -/
theorem derived_facts (fluentFacts : FluentFacts task literals state) :
    ∀ atom ∈ semantics.derivedAtoms state,
      mergeAtom (derivedToFluentPredicate task) atom ∈ facts task literals := by
  have sub : semantics.derivedAtoms state ⊆
      {atom | mergeAtom (derivedToFluentPredicate task) atom ∈ facts task literals} := by
    apply perfectModel_subset (Set.empty_subset _)
    intro clauses mem clause memClause positive
    obtain ⟨layer, memLayer, rfl⟩ := List.mem_map.mp mem
    obtain ⟨_, memAx, binding, isBinding, holds, rfl⟩ := memClause
    obtain ⟨ax, rfl⟩ := List.get_of_mem (semantics.mem_axioms layer memLayer _ memAx)
    refine (axiom_facts fluentFacts isBinding holds fun literal memLiteral isPositive => ?_).2
    exact positive _ (List.mem_map_of_mem (List.mem_filter.mpr ⟨memLiteral, isPositive⟩))
  exact fun atom mem => sub mem

/-- The applicability atom of an action that can be applied. -/
theorem action_facts (fluentFacts : FluentFacts task literals state) {action : Fin task.actions.length}
    (applicable : semantics.Applicable state (task.actions.get action) binding) :
    ⟨actionPredicate task action, binding⟩ ∈ facts task literals := by
  have sameAtom :=
    createApplicabilityAtom_ground (actionPredicate task action) applicable.isBinding.length []
  rw [List.append_nil] at sameAtom
  have isRule : createActionRule task literals action ∈ rules task literals :=
    mem_rules.mpr (.inl ⟨action, List.mem_cons_self⟩)
  rw [← sameAtom]
  refine head_mem_facts isRule applicable.isBinding (bodyHolds_nil.append fluentFacts
    applicable.condition.toHoldsUnderived ?_).canonicalize
  intro literal mem positive
  exact derived_facts fluentFacts _ ((applicable.condition.derived literal mem).mpr positive)

/-- An atom that a firing effect adds. -/
theorem added_facts (fluentFacts : FluentFacts task literals state) {action : Fin task.actions.length}
    (applicable : semantics.Applicable state (task.actions.get action) binding)
    {effect : ConditionalEffect} (memEffect : effect ∈ (task.actions.get action).effects)
    {objects : List Nat} (fires : semantics.Fires state binding effect objects) {literal : Literal}
    (memLiteral : literal ∈ effect.effect.literals) (added : literal.polarity = true) :
    mergeAtom (fluentToFluentPredicate task) (literal.atom.ground (binding ++ objects)) ∈
      facts task literals := by
  have isBinding : task.IsBinding ((task.actions.get action).arity + effect.arity)
      (binding ++ objects) := by
    refine ⟨by rw [List.length_append, applicable.isBinding.length, fires.isBinding.length], ?_⟩
    intro object mem
    rcases List.mem_append.mp mem with inBinding | inObjects
    · exact applicable.isBinding.objects object inBinding
    · exact fires.isBinding.objects object inObjects
  have precondition : BodyHolds task literals (binding ++ objects)
      { staticLiterals := (task.actions.get action).condition.staticLiterals
        fluentLiterals := [⟨createApplicabilityAtom (actionPredicate task action)
          (task.actions.get action).arity, true⟩] } := by
    refine ⟨fun condition mem => ?_, fun condition mem => ?_, rfl⟩
    · -- The precondition mentions the parameters of the action only.
      have same : condition.atom.ground (binding ++ objects) = condition.atom.ground binding := by
        rw [Atom.ground, Atom.ground, TaskDomains.map_ground_append objects]
        intro index occurs
        rw [applicable.isBinding.length]
        exact (task.actions.get action).closed index
          (TaskDomains.mem_terms_of_occurrence (List.mem_append_left _ (List.mem_map_of_mem mem)) occurs)
      rw [Literal.HoldsIn, same]
      exact applicable.condition.static condition mem
    · rw [List.mem_singleton.mp mem,
        createApplicabilityAtom_ground _ applicable.isBinding.length objects]
      exact ⟨rfl, action_facts fluentFacts applicable⟩
  have isRule : createCondEffectRule task literals action effect
      (mergeLiteral (fluentToFluentPredicate task) literal).atom ∈ rules task literals :=
    mem_rules.mpr (.inl ⟨action, mem_actionRules.mpr
      (.inr ⟨effect, memEffect, literal, memLiteral, added, rfl⟩)⟩)
  refine head_mem_facts isRule isBinding
    (precondition.append fluentFacts fires.condition.toHoldsUnderived ?_).canonicalize
  intro condition mem positive
  exact derived_facts fluentFacts _ ((fires.condition.derived condition mem).mpr positive)

/-- The fluent atoms of a reachable state are facts. -/
theorem fluentFacts_reachable (reachable : semantics.Reachable state) :
    FluentFacts task literals state := by
  induction reachable with
  | initial =>
      intro atom mem
      exact LayerModel.base (List.mem_map_of_mem mem)
  | @successor state action binding _ applicable ih =>
      intro atom mem
      rcases TaskSemantics.mem_successor mem with changes | before
      · obtain ⟨effect, memEffect, objects, fires, literal, memLiteral, added, rfl⟩ := changes
        obtain ⟨index, rfl⟩ := List.get_of_mem applicable.known
        exact added_facts ih applicable memEffect fires memLiteral added
      · exact ih atom before

end

/-! ### Completeness -/

/-- What holds in the state is in the least model. -/
structure CompleteIn (task : NamedTask) (literals : Canonicalization Literal)
    (semantics : TaskSemantics task.toLiftedTask) (state : LiftedState) : Prop where
  action : ∀ action binding, semantics.Applicable state (task.actions.get action) binding →
    ⟨actionPredicate task action, binding⟩ ∈ facts task literals
  ax : ∀ ax binding, task.IsBinding (task.axioms.get ax).arity binding →
    semantics.Holds state binding (task.axioms.get ax).body →
      ⟨axiomPredicate task ax, binding⟩ ∈ facts task literals
  fluent : ∀ atom ∈ state.fluentAtoms,
    mergeAtom (fluentToFluentPredicate task) atom ∈ facts task literals
  derived : ∀ atom ∈ semantics.derivedAtoms state,
    mergeAtom (derivedToFluentPredicate task) atom ∈ facts task literals

/-- The applicability predicates differ from each other and from those of the task. -/
structure Separated (task : NamedTask) : Prop where
  actions : ∀ action action', task.actionIndex action ≠ task.actionIndex action' →
    actionPredicate task action ≠ actionPredicate task action'
  axioms : ∀ ax ax', task.axiomIndex ax ≠ task.axiomIndex ax' →
    axiomPredicate task ax ≠ axiomPredicate task ax'
  mixed : ∀ action ax, actionPredicate task action ≠ axiomPredicate task ax
  fluent : ∀ p ∈ task.fluentPredicates,
    (∀ action, fluentToFluentPredicate task p ≠ actionPredicate task action) ∧
      ∀ ax, fluentToFluentPredicate task p ≠ axiomPredicate task ax
  derived : ∀ p ∈ task.derivedPredicates,
    (∀ action, derivedToFluentPredicate task p ≠ actionPredicate task action) ∧
      ∀ ax, derivedToFluentPredicate task p ≠ axiomPredicate task ax

/-- No action has the index, the arity and the name of an axiom, and no predicate has the
name and the arity of an applicability predicate. -/
structure Unambiguous (task : NamedTask) : Prop where
  mixed : ∀ action ax, ¬ (task.actionName action = task.axiomName ax ∧
    task.actionIndex action = task.axiomIndex ax ∧
      (task.actions.get action).arity = (task.axioms.get ax).arity)
  declared : ∀ predicate ∈ task.fluentPredicates.map task.fluentData ++
    task.derivedPredicates.map task.derivedData,
      (∀ action, predicate ≠ actionData task action) ∧ ∀ ax, predicate ≠ axiomData task ax

section

variable {task : NamedTask} {literals : Canonicalization Literal}
  {semantics : TaskSemantics task.toLiftedTask} {state : LiftedState}

theorem complete (reachable : semantics.Reachable state) : CompleteIn task literals semantics state where
  action _ _ applicable := action_facts (fluentFacts_reachable reachable) applicable
  ax _ _ isBinding holds :=
    (axiom_facts (fluentFacts_reachable reachable) isBinding holds.toHoldsUnderived
      fun literal mem positive => derived_facts (fluentFacts_reachable reachable) _
        ((holds.derived literal mem).mpr positive)).1
  fluent := fluentFacts_reachable reachable
  derived := derived_facts (fluentFacts_reachable reachable)

theorem separated_iff : Separated task ↔ Unambiguous task := by
  constructor
  · intro separated
    refine ⟨fun action ax same => ?_, fun predicate mem => ?_⟩
    · exact separated.mixed action ax (actionPredicate_eq_axiomPredicate.mpr same)
    · rcases List.mem_append.mp mem with isFluent | isDerived
      · obtain ⟨p, declared, rfl⟩ := List.mem_map.mp isFluent
        obtain ⟨actions, axioms⟩ := separated.fluent p declared
        exact ⟨fun action same => actions action (congrArg (predicateIndex task) same),
          fun ax same => axioms ax (congrArg (predicateIndex task) same)⟩
      · obtain ⟨p, declared, rfl⟩ := List.mem_map.mp isDerived
        obtain ⟨actions, axioms⟩ := separated.derived p declared
        exact ⟨fun action same => actions action (congrArg (predicateIndex task) same),
          fun ax same => axioms ax (congrArg (predicateIndex task) same)⟩
  · intro unambiguous
    have apart : ∀ predicate ∈ task.fluentPredicates.map task.fluentData ++
        task.derivedPredicates.map task.derivedData,
        (∀ action, predicateIndex task predicate ≠ actionPredicate task action) ∧
          ∀ ax, predicateIndex task predicate ≠ axiomPredicate task ax := by
      intro predicate mem
      obtain ⟨actions, axioms⟩ := unambiguous.declared predicate mem
      exact ⟨fun action same =>
          actions action ((predicateIndex_inj (actionData_mem action)).mp same.symm).symm,
        fun ax same => axioms ax ((predicateIndex_inj (axiomData_mem ax)).mp same.symm).symm⟩
    exact
      { actions := fun _ _ different same => different (actionPredicate_inj same)
        axioms := fun _ _ different same => different (axiomPredicate_inj same)
        mixed := fun action ax same =>
          unambiguous.mixed action ax (actionPredicate_eq_axiomPredicate.mp same)
        fluent := fun p declared => apart _ (List.mem_append_left _ (List.mem_map_of_mem declared))
        derived := fun p declared => apart _ (List.mem_append_right _ (List.mem_map_of_mem declared)) }

end

/-- Whatever holds in a reachable state is in the least model, and the bindings there
belong to one action or axiom, exactly if no names are confused. -/
theorem grounding_complete_iff (task : NamedTask) (literals : Canonicalization Literal) :
    ((∀ (semantics : TaskSemantics task.toLiftedTask) (state : LiftedState),
        semantics.Reachable state → CompleteIn task literals semantics state) ∧ Separated task) ↔
      Unambiguous task := by
  rw [separated_iff]
  exact and_iff_right fun _ _ reachable => complete reachable

/-- The derived predicate `p` holds where `q` does, and the action `p` needs `r`. -/
def confusedTask : NamedTask where
  objects := []
  arity _ := 0
  staticAtoms := []
  fluentAtoms := [⟨0, []⟩]
  staticFtermValues := []
  fluentFtermValues := []
  actions := [{ arity := 0
                condition := { fluentLiterals := [⟨⟨1, []⟩, true⟩] }
                effects := [{ effect := { literals := [⟨⟨0, []⟩, true⟩] } }]
                closed := nofun }]
  axioms := [{ arity := 0
               head := ⟨0, []⟩
               body := { fluentLiterals := [⟨⟨0, []⟩, true⟩] } }]
  goal := { fluentLiterals := [⟨⟨0, []⟩, true⟩] }
  effects_closed := by simp
  heads_closed := by simp
  fluentPredicates := [0, 1]
  derivedPredicates := [0]
  predicateName
    | .fluentPredicate 0 => "q"
    | .fluentPredicate _ => "r"
    | _ => "p"
  actionName _ := "p"
  actionIndex := Fin.val
  axiomIndex := Fin.val

/-- The bindings of the axiom are taken for bindings of the action. -/
theorem confusedTask_not_separated : ¬ ∀ (task : NamedTask) (literals : Canonicalization Literal),
    (∀ (semantics : TaskSemantics task.toLiftedTask) (state : LiftedState),
      semantics.Reachable state → CompleteIn task literals semantics state) ∧ Separated task := by
  intro claim
  have separated := (claim confusedTask (.classical Literal)).2
  exact separated.mixed ⟨0, Nat.zero_lt_one⟩ ⟨0, Nat.zero_lt_one⟩
    (actionPredicate_eq_axiomPredicate.mpr ⟨rfl, rfl, rfl⟩)

end GroundTaskProgram

end Tyr.Planning
