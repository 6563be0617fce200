import Tyr.Formalism.Planning.LiftedAction
import Mathlib.Data.Finset.Dedup
import Mathlib.Data.Set.Function

/-!
Projecting an action to a pattern.

The projected action keeps the literals over the predicates of the pattern. Its
parameters are the kept variables, numbered in the order in which they occur
first, whether they are parameters of the action or quantified variables of its
effects.

* `VariableRemapping` — the numbering of the kept variables.
* `projectAction` — the projected action.
* `ParametersFirst` — no quantified variable is numbered before a parameter.
* `parameters_correspond_iff` — only then are the parameters of the projected
  action the kept parameters of the action.
-/

namespace Tyr.Planning

open Tyr.Formalism Tyr.Formalism.Planning

/-- The ground fluent atoms of the facts of a pattern. -/
structure Pattern where
  atoms : List Tuple
  nodup : atoms.Nodup

namespace Pattern

/-- `predicates_set` contains the predicate. -/
def hasPredicate (pattern : Pattern) (predicate : Nat) : Bool :=
  pattern.atoms.any fun atom => atom.relation == predicate

end Pattern

/-! ### The numbering of the kept variables -/

/-- The kept variables in the order of their insertion: each is mapped to the
number of variables inserted before it. -/
structure VariableRemapping where
  projectedToOriginal : List Nat := []
  nodup : projectedToOriginal.Nodup := by simp

namespace VariableRemapping

variable (mapping : VariableRemapping)

def contains (p : Nat) : Bool := decide (p ∈ mapping.projectedToOriginal)

/-- `at`, for a kept variable. -/
def lookup (p : Nat) : Nat := mapping.projectedToOriginal.idxOf p

/-- `try_emplace` with the number of variables. -/
def tryEmplace (p : Nat) : VariableRemapping :=
  if absent : p ∉ mapping.projectedToOriginal then
    { projectedToOriginal := mapping.projectedToOriginal ++ [p]
      nodup := by
        refine mapping.nodup.append (List.nodup_singleton p) ?_
        rw [List.disjoint_singleton]
        exact absent }
  else mapping

def addTerm (mapping : VariableRemapping) : Term → VariableRemapping
  | .parameter p => mapping.tryEmplace p
  | .object _ => mapping

/-- The terms of the literals over the predicates of the pattern. -/
def addLiterals (pattern : Pattern) (literals : List Literal) : VariableRemapping :=
  literals.foldl (fun mapping literal =>
    if pattern.hasPredicate literal.atom.predicate then
      literal.atom.terms.foldl VariableRemapping.addTerm mapping
    else mapping) mapping

end VariableRemapping

/-- The condition first, then the condition and the literals of each effect. -/
def computeVariableRemapping (action : Action) (pattern : Pattern) : VariableRemapping :=
  action.effects.foldl (fun mapping effect =>
      (mapping.addLiterals pattern effect.condition.fluentLiterals).addLiterals pattern
        effect.effect.literals)
    (VariableRemapping.addLiterals {} pattern action.condition.fluentLiterals)

/-! ### The projected action -/

structure MutableConjunctiveCondition where
  staticLiterals : List Literal
  fluentLiterals : List Literal
deriving DecidableEq, Repr

structure MutableConditionalEffect where
  numParentVariables : Nat
  numVariables : Nat
  condition : MutableConjunctiveCondition
  literals : List Literal
deriving DecidableEq, Repr

structure MutableAction where
  numVariables : Nat
  condition : MutableConjunctiveCondition
  effects : List MutableConditionalEffect
deriving DecidableEq, Repr

section

variable (mapping : VariableRemapping) (pattern : Pattern)

/-- `project_variables`: the kept ones of `size` variables from `parentArity` on. -/
def projectVariables (parentArity size : Nat) : List Nat :=
  (List.range' parentArity size).filter mapping.contains

def shouldKeepTerm : Term → Bool
  | .parameter p => mapping.contains p
  | .object _ => true

def remapTerm : Term → Term
  | .parameter p => .parameter (mapping.lookup p)
  | .object object => .object object

def mergeProjectedLiteral (literal : Literal) : Literal :=
  ⟨⟨literal.atom.predicate, literal.atom.terms.map (remapTerm mapping)⟩, literal.polarity⟩

/-- `append_projected_literal` for each of the static literals. -/
def projectStaticLiterals (literals : List Literal) : List Literal :=
  (literals.filter fun literal => literal.atom.terms.all (shouldKeepTerm mapping)).map
    (mergeProjectedLiteral mapping)

/-- `append_projected_literal` for each of the fluent literals. -/
def projectFluentLiterals (literals : List Literal) : List Literal :=
  (literals.filter fun literal => pattern.hasPredicate literal.atom.predicate &&
    literal.atom.terms.all (shouldKeepTerm mapping)).map (mergeProjectedLiteral mapping)

def projectCondition (condition : ConjunctiveCondition) : MutableConjunctiveCondition where
  staticLiterals := projectStaticLiterals mapping condition.staticLiterals
  fluentLiterals := projectFluentLiterals mapping pattern condition.fluentLiterals

/-- The variables of an effect are numbered after the `arity` parameters of the
action, and those of the projected effect after the `projectedArity` ones. -/
def projectEffect (arity projectedArity : Nat) (effect : ConditionalEffect) :
    MutableConditionalEffect where
  numParentVariables := projectedArity
  numVariables := (projectVariables mapping arity effect.arity).length
  condition := projectCondition mapping pattern effect.condition
  literals := projectFluentLiterals mapping pattern effect.effect.literals

end

/-- The kept parameters of the action. -/
def keptParameters (action : Action) (pattern : Pattern) : List Nat :=
  projectVariables (computeVariableRemapping action pattern) 0 action.arity

/-- `append_projected_action`, as a mutable action. Its lists keep the order of the
original action: that the source sorts them (`canonicalize`) is left out. -/
def projectAction (action : Action) (pattern : Pattern) : MutableAction :=
  let mapping := computeVariableRemapping action pattern
  let projectedArity := (keptParameters action pattern).length
  { numVariables := projectedArity
    condition := projectCondition mapping pattern action.condition
    effects := action.effects.map (projectEffect mapping pattern action.arity projectedArity) }

/-! ### Parameters of the projected action -/

section

variable {action : Action} {pattern : Pattern}

theorem mem_keptParameters {p : Nat} : p ∈ keptParameters action pattern ↔
    p < action.arity ∧ p ∈ (computeVariableRemapping action pattern).projectedToOriginal := by
  rw [keptParameters, projectVariables, List.mem_filter, List.mem_range'_1,
    VariableRemapping.contains, decide_eq_true_iff]
  simp

theorem nodup_keptParameters : (keptParameters action pattern).Nodup :=
  List.Nodup.filter _ List.nodup_range'

/-- No quantified variable is numbered before a kept parameter of the action. -/
def ParametersFirst (action : Action) (pattern : Pattern) : Prop :=
  ∀ p ∈ (computeVariableRemapping action pattern).projectedToOriginal.take
    (keptParameters action pattern).length, p < action.arity

instance : Decidable (ParametersFirst action pattern) :=
  inferInstanceAs (Decidable (∀ p ∈ List.take _ _, p < action.arity))

/-- The kept parameters are the variables that are numbered first. -/
theorem ParametersFirst.perm (first : ParametersFirst action pattern) :
    ((computeVariableRemapping action pattern).projectedToOriginal.take
      (keptParameters action pattern).length).Perm (keptParameters action pattern) := by
  have numbered : keptParameters action pattern ⊆
      (computeVariableRemapping action pattern).projectedToOriginal :=
    fun p mem => (mem_keptParameters.mp mem).2
  have enough := (List.subperm_of_subset nodup_keptParameters numbered).length_le
  have kept : (computeVariableRemapping action pattern).projectedToOriginal.take
      (keptParameters action pattern).length ⊆ keptParameters action pattern :=
    fun p mem => mem_keptParameters.mpr ⟨first p mem, List.mem_of_mem_take mem⟩
  apply (List.subperm_of_subset
    ((computeVariableRemapping action pattern).nodup.sublist (List.take_sublist _ _)) kept).perm_of_length_le
  rw [List.length_take, Nat.min_eq_left enough]

theorem ParametersFirst.lookup_lt (first : ParametersFirst action pattern) {p : Nat}
    (kept : p ∈ keptParameters action pattern) :
    (computeVariableRemapping action pattern).lookup p < (keptParameters action pattern).length := by
  have mem := first.perm.mem_iff.mpr kept
  exact (List.mem_take_iff_idxOf_lt (mem_keptParameters.mp kept).2).mp mem

/-- The kept parameters and the parameters of the projected action correspond to
each other exactly if no quantified variable is numbered before one of them. -/
theorem parameters_correspond_iff :
    Set.BijOn (computeVariableRemapping action pattern).lookup {p | p ∈ keptParameters action pattern}
        {i | i < (projectAction action pattern).numVariables} ↔
      ParametersFirst action pattern := by
  constructor
  · intro correspond p mem
    have occurs := List.mem_of_mem_take mem
    have early := (List.mem_take_iff_idxOf_lt occurs).mp mem
    obtain ⟨q, kept, same⟩ := correspond.surjOn early
    rw [← (List.idxOf_inj (mem_keptParameters.mp kept).2).mp same]
    exact (mem_keptParameters.mp kept).1
  · intro first
    refine ⟨fun p kept => first.lookup_lt kept, ?_, ?_⟩
    · intro p kept q _ same
      exact (List.idxOf_inj (mem_keptParameters.mp kept).2).mp same
    · intro i early
      have long : i < (computeVariableRemapping action pattern).projectedToOriginal.length := by
        have sub := first.perm.length_eq
        rw [List.length_take] at sub
        have bound : i < (keptParameters action pattern).length := early
        omega
      have mem : (computeVariableRemapping action pattern).projectedToOriginal[i] ∈
          (computeVariableRemapping action pattern).projectedToOriginal.take
            (keptParameters action pattern).length :=
        List.mem_take_iff_getElem.mpr ⟨i, by simpa using ⟨early, long⟩, rfl⟩
      refine ⟨_, first.perm.mem_iff.mp mem, ?_⟩
      exact (computeVariableRemapping action pattern).nodup.idxOf_getElem i long

end

end Tyr.Planning
