import Tyr.Common.Itertools
import Tyr.Formalism.Planning.LiftedAction
import Mathlib.Data.Finset.Dedup
import Mathlib.Logic.Function.Basic

/-!
The grounder.

The grounder replaces the parameters of a lifted structure by the objects of a
binding and interns the result in a repository. The binding is one mutable list,
and a parameter reads it at its index; while the instances of a quantified effect
are grounded, the objects of the quantified variables are appended to it. Ground
actions are cached by their action and the first `arity` objects of the binding.

* `Action.instantiate` — the ground action as the grounder builds it from the
  whole binding.
* `GrounderCache.ground` — look up or instantiate an action.
-/

namespace Tyr.Formalism.Planning

/-- Sorting a list by the indices of its elements and removing repetitions: the
result has the same elements, and depends on these only. -/
structure Canonicalization (α : Type*) where
  canonicalize : List α → List α
  mem_canonicalize : ∀ list x, x ∈ canonicalize list ↔ x ∈ list
  canonicalize_congr : ∀ list list', (∀ x, x ∈ list ↔ x ∈ list') →
    canonicalize list = canonicalize list'

namespace Canonicalization

variable {α : Type*}

@[simp] theorem canonicalize_nil (order : Canonicalization α) : order.canonicalize [] = [] := by
  apply List.eq_nil_iff_forall_not_mem.mpr
  intro x mem
  exact List.not_mem_nil ((order.mem_canonicalize [] x).mp mem)

/-- Every type has such an order. -/
noncomputable def classical (α : Type*) : Canonicalization α := by
  classical
  exact
    { canonicalize := fun list => list.toFinset.toList
      mem_canonicalize := by simp
      canonicalize_congr := by
        intro list list' same
        rw [show list.toFinset = list'.toFinset by ext x; simp [same x]] }

end Canonicalization

/-- The indices that the repository gives to ground structures, and the orders
that it derives from them. `fluentFact` is the fact of an atom in the
finite-domain context, and `greater` the order of the operands of a commutative
operator. -/
structure Repository where
  staticAtom : Tuple → Nat
  fluentFact : Tuple → FDRFact
  derivedAtom : Tuple → Nat
  staticFterm : Tuple → Nat
  fluentFterm : Tuple → Nat
  greater : FunctionExpression GroundFunctionTerm → FunctionExpression GroundFunctionTerm → Bool
  arguments : Canonicalization (FunctionExpression GroundFunctionTerm)
  numericEffects : Canonicalization GroundNumericEffect
  conditionalEffects : Canonicalization GroundConditionalEffect

namespace Repository

variable (repository : Repository)

/-! ### Expressions -/

/-- `canonicalize` of a binary operator: the operands of a commutative one are ordered. -/
def canonicalBinary (op : ArithmeticOp) (lhs rhs : FunctionExpression GroundFunctionTerm) :
    FunctionExpression GroundFunctionTerm :=
  if (op = .add ∨ op = .mul) ∧ repository.greater lhs rhs then
    .binary op rhs lhs
  else
    .binary op lhs rhs

/-- `canonicalize` of an n-ary operator. -/
def canonicalMulti (op : MultiOp) (front : FunctionExpression GroundFunctionTerm)
    (rest : List (FunctionExpression GroundFunctionTerm)) :
    FunctionExpression GroundFunctionTerm :=
  match repository.arguments.canonicalize (front :: rest) with
  | [] => .multi op front rest
  | front :: rest => .multi op front rest

variable (binding : List Nat)

def groundFunctionTerm : FunctionTerm → GroundFunctionTerm
  | .static function terms =>
      .static (repository.staticFterm ⟨function, terms.map (Term.ground binding)⟩)
  | .fluent function terms =>
      .fluent (repository.fluentFterm ⟨function, terms.map (Term.ground binding)⟩)

mutual

def groundExpression : FunctionExpression FunctionTerm → FunctionExpression GroundFunctionTerm
  | .number value => .number value
  | .neg arg => .neg (groundExpression arg)
  | .binary op lhs rhs => repository.canonicalBinary op (groundExpression lhs) (groundExpression rhs)
  | .multi op front rest =>
      repository.canonicalMulti op (groundExpression front) (groundExpressions rest)
  | .fterm t => .fterm (repository.groundFunctionTerm binding t)

def groundExpressions :
    List (FunctionExpression FunctionTerm) → List (FunctionExpression GroundFunctionTerm)
  | [] => []
  | arg :: rest => groundExpression arg :: groundExpressions rest

end

def groundConstraint (constraint : BooleanOperator FunctionTerm) :
    BooleanOperator GroundFunctionTerm :=
  ⟨constraint.op, repository.groundExpression binding constraint.lhs,
    repository.groundExpression binding constraint.rhs⟩

/-! ### Conditions and effects -/

/-- The order and the repetitions of the literals of a condition are irrelevant
and kept as they are. -/
def groundCondition (condition : ConjunctiveCondition) : GroundConjunctiveCondition where
  staticLiterals := condition.staticLiterals.map fun literal =>
    ⟨repository.staticAtom (literal.atom.ground binding), literal.polarity⟩
  positiveFacts := (condition.fluentLiterals.filter Literal.polarity).map fun literal =>
    repository.fluentFact (literal.atom.ground binding)
  negativeFacts := (condition.fluentLiterals.filter (!·.polarity)).map fun literal =>
    repository.fluentFact (literal.atom.ground binding)
  derivedLiterals := condition.derivedLiterals.map fun literal =>
    ⟨repository.derivedAtom (literal.atom.ground binding), literal.polarity⟩
  numericConstraints := condition.numericConstraints.map (repository.groundConstraint binding)

def groundNumericEffect (effect : NumericEffect) : GroundNumericEffect :=
  ⟨effect.op, repository.fluentFterm ⟨effect.function, effect.terms.map (Term.ground binding)⟩,
    repository.groundExpression binding effect.fexpr⟩

def groundEffect (effect : ConjunctiveEffect) : GroundConjunctiveEffect where
  negativeFacts := (effect.literals.filter (!·.polarity)).map fun literal =>
    repository.fluentFact (literal.atom.ground binding)
  positiveFacts := (effect.literals.filter Literal.polarity).map fun literal =>
    repository.fluentFact (literal.atom.ground binding)
  numericEffects := repository.numericEffects.canonicalize
    (effect.numericEffects.map (repository.groundNumericEffect binding))
  auxiliaryNumericEffect := effect.auxiliaryNumericEffect.map (repository.groundExpression binding)

def groundConditionalEffect (effect : ConditionalEffect) : GroundConditionalEffect :=
  ⟨repository.groundCondition binding effect.condition, repository.groundEffect binding effect.effect⟩

end Repository

/-! ### Bindings that agree -/

namespace Repository

variable {repository : Repository} {binding binding' : List Nat}

theorem groundFunctionTerm_congr {fterm : FunctionTerm}
    (agree : ∀ term ∈ fterm.terms, term.ground binding = term.ground binding') :
    repository.groundFunctionTerm binding fterm = repository.groundFunctionTerm binding' fterm := by
  have objects := List.map_congr_left agree
  cases fterm with
  | static function terms =>
      rw [FunctionTerm.terms] at objects
      rw [groundFunctionTerm, groundFunctionTerm, objects]
  | fluent function terms =>
      rw [FunctionTerm.terms] at objects
      rw [groundFunctionTerm, groundFunctionTerm, objects]

mutual

theorem groundExpression_congr : ∀ {fexpr : FunctionExpression FunctionTerm},
    (∀ fterm ∈ fexpr.fterms, repository.groundFunctionTerm binding fterm =
      repository.groundFunctionTerm binding' fterm) →
    repository.groundExpression binding fexpr = repository.groundExpression binding' fexpr
  | .number _, _ => by rw [groundExpression, groundExpression]
  | .neg arg, agree => by
      rw [FunctionExpression.fterms] at agree
      rw [groundExpression, groundExpression, groundExpression_congr agree]
  | .binary op lhs rhs, agree => by
      rw [FunctionExpression.fterms] at agree
      rw [groundExpression, groundExpression,
        groundExpression_congr fun t mem => agree t (List.mem_append_left _ mem),
        groundExpression_congr fun t mem => agree t (List.mem_append_right _ mem)]
  | .multi op front rest, agree => by
      rw [FunctionExpression.fterms] at agree
      rw [groundExpression, groundExpression,
        groundExpression_congr fun t mem => agree t (List.mem_append_left _ mem),
        groundExpressions_congr fun t mem => agree t (List.mem_append_right _ mem)]
  | .fterm t, agree => by
      rw [groundExpression, groundExpression]
      rw [agree t (by rw [FunctionExpression.fterms]; exact List.mem_singleton_self t)]

theorem groundExpressions_congr : ∀ {fexprs : List (FunctionExpression FunctionTerm)},
    (∀ fterm ∈ FunctionExpression.ftermsOfList fexprs,
      repository.groundFunctionTerm binding fterm = repository.groundFunctionTerm binding' fterm) →
    repository.groundExpressions binding fexprs = repository.groundExpressions binding' fexprs
  | [], _ => by rw [groundExpressions, groundExpressions]
  | arg :: rest, agree => by
      rw [FunctionExpression.ftermsOfList] at agree
      rw [groundExpressions, groundExpressions,
        groundExpression_congr fun t mem => agree t (List.mem_append_left _ mem),
        groundExpressions_congr fun t mem => agree t (List.mem_append_right _ mem)]

end

/-- A ground condition depends on the objects of its terms only. -/
theorem groundCondition_congr {condition : ConjunctiveCondition}
    (agree : ∀ term ∈ condition.terms, term.ground binding = term.ground binding') :
    repository.groundCondition binding condition = repository.groundCondition binding' condition := by
  have literals : ∀ literal ∈ condition.staticLiterals ++ condition.fluentLiterals ++
      condition.derivedLiterals, literal.atom.ground binding = literal.atom.ground binding' := by
    intro literal mem
    apply Atom.ground_congr
    intro term occurs
    apply agree
    exact List.mem_append_left _ (List.mem_flatMap.mpr ⟨literal, mem, occurs⟩)
  have constraints : ∀ constraint ∈ condition.numericConstraints,
      repository.groundConstraint binding constraint =
        repository.groundConstraint binding' constraint := by
    intro constraint mem
    have fterms : ∀ fterm ∈ constraint.lhs.fterms ++ constraint.rhs.fterms,
        repository.groundFunctionTerm binding fterm =
          repository.groundFunctionTerm binding' fterm := by
      intro fterm inConstraint
      apply groundFunctionTerm_congr
      intro term occurs
      apply agree
      exact List.mem_append_right _ (List.mem_flatMap.mpr
        ⟨constraint, mem, List.mem_flatMap.mpr ⟨fterm, inConstraint, occurs⟩⟩)
    rw [groundConstraint, groundConstraint,
      groundExpression_congr fun t mem => fterms t (List.mem_append_left _ mem),
      groundExpression_congr fun t mem => fterms t (List.mem_append_right _ mem)]
  rw [groundCondition, groundCondition]
  congr 1
  · apply List.map_congr_left
    intro literal mem
    rw [literals literal (by simp [mem])]
  · apply List.map_congr_left
    intro literal mem
    rw [literals literal (by simp [(List.mem_filter.mp mem).1])]
  · apply List.map_congr_left
    intro literal mem
    rw [literals literal (by simp [(List.mem_filter.mp mem).1])]
  · apply List.map_congr_left
    intro literal mem
    rw [literals literal (by simp [mem])]
  · exact List.map_congr_left constraints

end Repository

/-! ### Actions -/

/-- The domains of the quantified variables of a conditional effect. -/
abbrev EffectDomains := ConditionalEffect → List (List Nat)

namespace Action

variable (repository : Repository) (domains : EffectDomains)

/-- The instances of the conditional effects: the objects of the quantified
variables are appended to the binding. -/
def instances (action : Action) (binding : List Nat) : List GroundConditionalEffect :=
  action.effects.flatMap fun effect =>
    (CartesianSet.elements (domains effect)).map fun bindingCond =>
      repository.groundConditionalEffect (binding ++ bindingCond) effect

/-- The ground action that the grounder builds from a binding. -/
def instantiate (action : Action) (binding : List Nat) : GroundAction where
  condition := repository.groundCondition binding action.condition
  effects := repository.conditionalEffects.canonicalize
    (action.instances repository domains binding)

/-- The precondition reads the parameters of the action only. -/
theorem groundCondition_take (action : Action) (binding : List Nat) :
    repository.groundCondition (binding.take action.arity) action.condition =
      repository.groundCondition binding action.condition := by
  apply Repository.groundCondition_congr
  intro term occurs
  cases term with
  | object _ => rfl
  | parameter index =>
      have inRange := action.closed index occurs
      simp only [Term.ground, List.getD_eq_getElem?_getD, List.getElem?_take_of_lt inRange]

/-- Two bindings of the same parameters give the same ground action exactly if
they give the same instances of the conditional effects. -/
theorem instantiate_take_eq_iff (action : Action) (binding : List Nat) :
    action.instantiate repository domains binding =
        action.instantiate repository domains (binding.take action.arity) ↔
      ∀ effect, effect ∈ action.instances repository domains binding ↔
        effect ∈ action.instances repository domains (binding.take action.arity) := by
  constructor
  · intro same effect
    have effects := congrArg GroundAction.effects same
    simp only [instantiate] at effects
    rw [← repository.conditionalEffects.mem_canonicalize, effects,
      repository.conditionalEffects.mem_canonicalize]
  · intro same
    rw [instantiate, instantiate, groundCondition_take,
      repository.conditionalEffects.canonicalize_congr _ _ same]

end Action

/-! ### The cache -/

/-- An action, by its index, and the objects of its parameters. -/
structure ActionBinding where
  action : Nat
  objects : List Nat
deriving DecidableEq, Repr

/-- The ground actions built so far. -/
abbrev GrounderCache := ActionBinding → Option GroundAction

namespace GrounderCache

def empty : GrounderCache := fun _ => none

/-- `ground` of an action: the key is the action with the first `arity` objects of
the binding, and a new ground action is built from the whole binding. -/
def ground (cache : GrounderCache) (repository : Repository) (domains : EffectDomains)
    (index : Nat) (action : Action) (binding : List Nat) : GroundAction × GrounderCache :=
  let key : ActionBinding := ⟨index, binding.take action.arity⟩
  match cache key with
  | some groundAction => (groundAction, cache)
  | none =>
      let groundAction := action.instantiate repository domains binding
      (groundAction, Function.update cache key (some groundAction))

end GrounderCache

end Tyr.Formalism.Planning
