import Tyr.Formalism.Canonicalization
import Tyr.Formalism.Planning.Grounder
import Mathlib.SetTheory.Cardinal.Order

/-!
What canonicalization does to the meaning of numeric structures.

A structure is made canonical when it is read, and again when it is grounded. The
elements of a list are compared by their indices, here by a linear order.

* `groundExpression_canonicalize` — grounding does not depend on the first of the
  two.
* `groundEffects_preserved_iff` — the effects on a function term are preserved
  exactly if the repeated ones are neutral.
* `canonicalization_preserves_iff` — all of it.
-/

namespace Tyr.Formalism

/-- The mathematical truth of a numeric constraint. -/
def BooleanOperator.holds {FTerm : Type*} (valuation : FTerm → Number)
    (constraint : BooleanOperator FTerm) : Bool :=
  constraint.op.apply (constraint.lhs.value valuation) (constraint.rhs.value valuation)

end Tyr.Formalism

namespace Tyr.Formalism.Planning

open Tyr.Lib FunctionExpression

/-! ### Assignments -/

/-- A numeric effect whose function term and value are known. -/
structure Assignment where
  op : NumericEffectOp
  fterm : Nat
  value : Number

namespace Assignment

/-- The value of a function term after the effects on it. -/
def applyAll (fterm : Nat) (old : Number) (assignments : List Assignment) : Number :=
  (assignments.filter fun assignment => assignment.fterm = fterm).foldl
    (fun value assignment => assignment.op.apply value assignment.value) old

/-- The effects on the function term may occur together. -/
def Compatible (fterm : Nat) (assignments : List Assignment) : Prop :=
  (assignments.filter fun assignment => assignment.fterm = fterm).Pairwise fun a b =>
    isCompatibleEffectFamily a.op.family b.op.family = true

/-- Compatible effects can be applied in either order. -/
theorem apply_right_comm {op op' : NumericEffectOp}
    (compatible : isCompatibleEffectFamily op.family op'.family = true) (old x y : Number) :
    op'.apply (op.apply old x) y = op.apply (op'.apply old y) x := by
  cases op <;> cases op' <;> first
    | exact Number.add_right_comm old _ _
    | exact Number.mul_right_comm old x y
    | exact Number.div_right_comm old x y
    | exact Number.mul_div_right_comm old x y
    | exact (Number.mul_div_right_comm old y x).symm
    | cases compatible

theorem isCompatibleEffectFamily_comm (lhs rhs : EffectFamily) :
    isCompatibleEffectFamily lhs rhs = isCompatibleEffectFamily rhs lhs := by
  cases lhs <;> cases rhs <;> rfl

theorem Compatible.comm {fterm : Nat} {assignments : List Assignment}
    (compatible : Compatible fterm assignments) {a b : Assignment}
    (memA : a ∈ assignments.filter fun assignment => assignment.fterm = fterm)
    (memB : b ∈ assignments.filter fun assignment => assignment.fterm = fterm) (old : Number) :
    b.op.apply (a.op.apply old a.value) b.value = a.op.apply (b.op.apply old b.value) a.value := by
  by_cases same : a = b
  · rw [same]
  · have symm : Std.Symm fun a b : Assignment =>
        isCompatibleEffectFamily a.op.family b.op.family = true :=
      ⟨fun _ _ holds => (isCompatibleEffectFamily_comm _ _).trans holds⟩
    exact apply_right_comm (List.Pairwise.forall compatible memA memB same) old _ _

theorem Compatible.perm {fterm : Nat} {assignments assignments' : List Assignment}
    (compatible : Compatible fterm assignments) (perm : assignments.Perm assignments') :
    Compatible fterm assignments' :=
  (perm.filter _).pairwise compatible fun holds => (isCompatibleEffectFamily_comm _ _).trans holds

theorem applyAll_append (fterm : Nat) (old : Number) (assignments assignments' : List Assignment) :
    applyAll fterm old (assignments ++ assignments') =
      applyAll fterm (applyAll fterm old assignments) assignments' := by
  rw [applyAll, List.filter_append, List.foldl_append, applyAll, applyAll]

theorem applyAll_perm {fterm : Nat} {assignments assignments' : List Assignment}
    (compatible : Compatible fterm assignments) (perm : assignments.Perm assignments') (old : Number) :
    applyAll fterm old assignments = applyAll fterm old assignments' :=
  (perm.filter _).foldl_eq' (fun _ memA _ memB z => compatible.comm memA memB z) old

end Assignment

/-! ### The structures -/

section

variable [LinearOrder (FunctionExpression FunctionTerm)]

def canonicalizeConstraint (constraint : BooleanOperator FunctionTerm) : BooleanOperator FunctionTerm :=
  ⟨constraint.op, rebuild id constraint.lhs, rebuild id constraint.rhs⟩

/-- `canonicalize` of the numeric effects of an effect. -/
def canonicalizeEffects [LinearOrder NumericEffect] (effects : List NumericEffect) : List NumericEffect :=
  IndexList.canonicalize (effects.map fun effect => { effect with fexpr := rebuild id effect.fexpr })

end

section

variable [LinearOrder (FunctionExpression GroundFunctionTerm)] [LinearOrder GroundNumericEffect]

/-- Sorting by a linear order. -/
def Canonicalization.sorted (α : Type*) [LinearOrder α] : Canonicalization α where
  canonicalize := IndexList.canonicalize
  mem_canonicalize := fun _ _ => IndexList.mem_canonicalize
  canonicalize_congr := fun _ _ => IndexList.canonicalize_congr

/-- The repository whose orders are the given ones. -/
def Repository.sorted (repository : Repository) : Repository :=
  { repository with
    greater := fun lhs rhs => decide (rhs < lhs)
    arguments := .sorted (FunctionExpression GroundFunctionTerm)
    numericEffects := .sorted GroundNumericEffect }

variable (repository : Repository) (binding : List Nat)

mutual

theorem groundExpression_eq_rebuild : ∀ fexpr : FunctionExpression FunctionTerm,
    repository.sorted.groundExpression binding fexpr =
      rebuild (repository.groundFunctionTerm binding) fexpr
  | .number _ => by rw [Repository.groundExpression, rebuild]
  | .neg arg => by rw [Repository.groundExpression, rebuild, groundExpression_eq_rebuild arg]
  | .binary op lhs rhs => by
      rw [Repository.groundExpression, rebuild, groundExpression_eq_rebuild lhs,
        groundExpression_eq_rebuild rhs, Repository.canonicalBinary, FunctionExpression.canonicalBinary]
      simp only [Repository.sorted, decide_eq_true_eq]
  | .multi op front rest => by
      rw [Repository.groundExpression, rebuild, groundExpression_eq_rebuild front,
        groundExpressions_eq_rebuild rest, Repository.canonicalMulti, FunctionExpression.canonicalMulti]
      have sorted : repository.sorted.arguments.canonicalize = IndexList.canonicalize := rfl
      rw [sorted]
      cases IndexList.canonicalize (rebuild (repository.groundFunctionTerm binding) front ::
        rebuildList (repository.groundFunctionTerm binding) rest) <;> rfl
  | .fterm t => by
      rw [Repository.groundExpression, rebuild]
      cases t <;> rfl

theorem groundExpressions_eq_rebuild : ∀ fexprs : List (FunctionExpression FunctionTerm),
    repository.sorted.groundExpressions binding fexprs =
      rebuildList (repository.groundFunctionTerm binding) fexprs
  | [] => by rw [Repository.groundExpressions, rebuildList]
  | arg :: rest => by
      rw [Repository.groundExpressions, rebuildList, groundExpression_eq_rebuild arg,
        groundExpressions_eq_rebuild rest]

end

/-- The numeric effects of a ground effect. -/
def groundNumericEffects (effects : List NumericEffect) : List GroundNumericEffect :=
  IndexList.canonicalize (effects.map (repository.sorted.groundNumericEffect binding))

section

variable [LinearOrder (FunctionExpression FunctionTerm)]

/-- Grounding makes canonical what was not. -/
theorem groundExpression_canonicalize (fexpr : FunctionExpression FunctionTerm) :
    repository.sorted.groundExpression binding (rebuild id fexpr) =
      repository.sorted.groundExpression binding fexpr := by
  rw [groundExpression_eq_rebuild, groundExpression_eq_rebuild, rebuild_rebuild, Function.comp_id]

theorem groundNumericEffects_canonicalize [LinearOrder NumericEffect] (effects : List NumericEffect) :
    groundNumericEffects repository binding (canonicalizeEffects effects) =
      groundNumericEffects repository binding effects := by
  apply IndexList.canonicalize_congr
  intro effect
  have same : ∀ effect : NumericEffect,
      repository.sorted.groundNumericEffect binding { effect with fexpr := rebuild id effect.fexpr } =
        repository.sorted.groundNumericEffect binding effect := by
    intro effect
    rw [Repository.groundNumericEffect, Repository.groundNumericEffect, groundExpression_canonicalize]
  simp only [canonicalizeEffects, List.mem_map, IndexList.mem_canonicalize]
  constructor
  · rintro ⟨_, ⟨lifted, mem, rfl⟩, rfl⟩
    exact ⟨lifted, mem, (same lifted).symm⟩
  · rintro ⟨lifted, mem, rfl⟩
    exact ⟨_, ⟨lifted, mem, rfl⟩, same lifted⟩

end

/-! ### Meanings -/

variable (valuation : GroundFunctionTerm → Number)

/-- The value of a function term under the binding. -/
def liftedValuation (fterm : FunctionTerm) : Number :=
  valuation (repository.groundFunctionTerm binding fterm)

def liftedAssignment (effect : NumericEffect) : Assignment :=
  ⟨effect.op, repository.fluentFterm ⟨effect.function, effect.terms.map (Term.ground binding)⟩,
    effect.fexpr.value (liftedValuation repository binding valuation)⟩

def groundAssignment (effect : GroundNumericEffect) : Assignment :=
  ⟨effect.op, effect.fterm, effect.fexpr.value valuation⟩

section

variable [LinearOrder (FunctionExpression FunctionTerm)]

/-- The expression and all expressions in it keep their values. -/
def ExpressionPreserved (fexpr : FunctionExpression FunctionTerm) : Prop :=
  Everywhere (fun fexpr => (repository.sorted.groundExpression binding (rebuild id fexpr)).value valuation =
    fexpr.value (liftedValuation repository binding valuation)) fexpr

structure ConstraintPreserved (constraint : BooleanOperator FunctionTerm) : Prop where
  lhs : ExpressionPreserved repository binding valuation constraint.lhs
  rhs : ExpressionPreserved repository binding valuation constraint.rhs
  truth : (repository.sorted.groundConstraint binding (canonicalizeConstraint constraint)).holds valuation =
    constraint.holds (liftedValuation repository binding valuation)

/-- If the effects on a function term are compatible, its new value is the same. -/
structure EffectsPreserved [LinearOrder NumericEffect] (effects : List NumericEffect) : Prop where
  fexprs : ∀ effect ∈ effects, ExpressionPreserved repository binding valuation effect.fexpr
  assignments : ∀ fterm,
    Assignment.Compatible fterm (effects.map (liftedAssignment repository binding valuation)) →
    Assignment.applyAll fterm (valuation (.fluent fterm))
        ((groundNumericEffects repository binding (canonicalizeEffects effects)).map
          (groundAssignment valuation)) =
      Assignment.applyAll fterm (valuation (.fluent fterm))
        (effects.map (liftedAssignment repository binding valuation))

end

/-- The repeated arguments of the operators in the expression are neutral. -/
def ExpressionNeutral (fexpr : FunctionExpression FunctionTerm) : Prop :=
  Everywhere (RepetitionsNeutral (repository.groundFunctionTerm binding) valuation) fexpr

def ConstraintNeutral (constraint : BooleanOperator FunctionTerm) : Prop :=
  ExpressionNeutral repository binding valuation constraint.lhs ∧
    ExpressionNeutral repository binding valuation constraint.rhs

/-- The expressions are neutral, and so are the effects whose ground effect occurs
before them. -/
structure EffectsNeutral (effects : List NumericEffect) : Prop where
  fexprs : ∀ effect ∈ effects, ExpressionNeutral repository binding valuation effect.fexpr
  assignments : ∀ fterm,
    Assignment.Compatible fterm (effects.map (liftedAssignment repository binding valuation)) →
    let distinct := Assignment.applyAll fterm (valuation (.fluent fterm))
      ((firstOccurrences (repository.sorted.groundNumericEffect binding) [] effects).map
        (liftedAssignment repository binding valuation))
    Assignment.applyAll fterm distinct
        ((repeatedOccurrences (repository.sorted.groundNumericEffect binding) [] effects).map
          (liftedAssignment repository binding valuation)) = distinct

/-! ### What is preserved -/

section

variable [LinearOrder (FunctionExpression FunctionTerm)]
  {repository : Repository} {binding : List Nat} {valuation : GroundFunctionTerm → Number}

theorem expressionPreserved_iff {fexpr : FunctionExpression FunctionTerm} :
    ExpressionPreserved repository binding valuation fexpr ↔
      ExpressionNeutral repository binding valuation fexpr := by
  have same : (fun fexpr : FunctionExpression FunctionTerm =>
      (repository.sorted.groundExpression binding (rebuild id fexpr)).value valuation =
        fexpr.value (liftedValuation repository binding valuation)) =
      ValuePreserved (repository.groundFunctionTerm binding) valuation := by
    funext fexpr
    rw [groundExpression_canonicalize, groundExpression_eq_rebuild]
    rfl
  rw [ExpressionNeutral, ← preserved_iff_neutral, ExpressionPreserved, same]

theorem constraintPreserved_iff {constraint : BooleanOperator FunctionTerm} :
    ConstraintPreserved repository binding valuation constraint ↔
      ConstraintNeutral repository binding valuation constraint := by
  constructor
  · exact fun preserved =>
      ⟨expressionPreserved_iff.mp preserved.lhs, expressionPreserved_iff.mp preserved.rhs⟩
  · rintro ⟨neutralLhs, neutralRhs⟩
    have lhs := expressionPreserved_iff.mpr neutralLhs
    have rhs := expressionPreserved_iff.mpr neutralRhs
    refine ⟨lhs, rhs, ?_⟩
    rw [BooleanOperator.holds, BooleanOperator.holds, ← lhs.here, ← rhs.here]
    rfl

/-- The effects on a function term are applied as their first occurrences are. -/
theorem applyAll_groundNumericEffects {effects : List NumericEffect}
    (preserved : ∀ effect ∈ effects, ExpressionPreserved repository binding valuation effect.fexpr)
    {fterm : Nat}
    (compatible : Assignment.Compatible fterm (effects.map (liftedAssignment repository binding valuation)))
    (old : Number) :
    Assignment.applyAll fterm old
        ((groundNumericEffects repository binding effects).map (groundAssignment valuation)) =
      Assignment.applyAll fterm old
        ((firstOccurrences (repository.sorted.groundNumericEffect binding) [] effects).map
          (liftedAssignment repository binding valuation)) := by
  have perm : (groundNumericEffects repository binding effects).Perm
      ((firstOccurrences (repository.sorted.groundNumericEffect binding) [] effects).map
        (repository.sorted.groundNumericEffect binding)) := by
    refine (List.perm_ext_iff_of_nodup (IndexList.nodup_canonicalize _)
      (nodup_map_firstOccurrences [] effects)).mpr fun effect => ?_
    rw [mem_map_firstOccurrences, IndexList.mem_canonicalize]
    simp
  have assignments : (firstOccurrences (repository.sorted.groundNumericEffect binding) [] effects).map
      (groundAssignment valuation ∘ repository.sorted.groundNumericEffect binding) =
      (firstOccurrences (repository.sorted.groundNumericEffect binding) [] effects).map
        (liftedAssignment repository binding valuation) := by
    apply List.map_congr_left
    intro effect mem
    have value := (preserved effect ((first_append_repeated [] effects).subset
      (List.mem_append_left _ mem))).here
    rw [groundExpression_canonicalize] at value
    rw [Function.comp_apply, groundAssignment, liftedAssignment, ← value]
    rfl
  have first : Assignment.Compatible fterm
      ((firstOccurrences (repository.sorted.groundNumericEffect binding) [] effects).map
        (liftedAssignment repository binding valuation)) := by
    have occurrences : (firstOccurrences (repository.sorted.groundNumericEffect binding) [] effects ++
        repeatedOccurrences (repository.sorted.groundNumericEffect binding) [] effects).Perm effects :=
      first_append_repeated [] effects
    have all := compatible.perm (occurrences.symm.map _)
    rw [List.map_append, Assignment.Compatible, List.filter_append] at all
    exact (List.pairwise_append.mp all).1
  refine (Assignment.applyAll_perm first ?_ old).symm
  rw [← assignments, ← List.map_map]
  exact (perm.map _).symm

theorem effectsPreserved_iff [LinearOrder NumericEffect] {effects : List NumericEffect} :
    EffectsPreserved repository binding valuation effects ↔
      EffectsNeutral repository binding valuation effects := by
  -- The effects are applied as their first occurrences and then the repeated ones.
  have split : ∀ fterm old,
      Assignment.Compatible fterm (effects.map (liftedAssignment repository binding valuation)) →
      Assignment.applyAll fterm old (effects.map (liftedAssignment repository binding valuation)) =
        Assignment.applyAll fterm (Assignment.applyAll fterm old
          ((firstOccurrences (repository.sorted.groundNumericEffect binding) [] effects).map
            (liftedAssignment repository binding valuation)))
          ((repeatedOccurrences (repository.sorted.groundNumericEffect binding) [] effects).map
            (liftedAssignment repository binding valuation)) := by
    intro fterm old compatible
    rw [← Assignment.applyAll_append, ← List.map_append]
    exact Assignment.applyAll_perm compatible ((first_append_repeated [] effects).symm.map _) old
  constructor
  · intro preserved
    refine ⟨fun effect mem => expressionPreserved_iff.mp (preserved.fexprs effect mem), ?_⟩
    intro fterm compatible
    have same := preserved.assignments fterm compatible
    rw [groundNumericEffects_canonicalize, applyAll_groundNumericEffects preserved.fexprs compatible,
      split fterm _ compatible] at same
    exact same.symm
  · intro neutral
    have fexprs := fun effect mem => expressionPreserved_iff.mpr (neutral.fexprs effect mem)
    refine ⟨fexprs, fun fterm compatible => ?_⟩
    rw [groundNumericEffects_canonicalize, applyAll_groundNumericEffects fexprs compatible,
      split fterm _ compatible]
    exact (neutral.assignments fterm compatible).symm

/-- Canonicalization, before and in grounding, preserves the numeric meaning exactly
if the repetitions that it drops are neutral. It is idempotent, and the order of
the arguments is irrelevant. -/
theorem canonicalization_preserves_iff [LinearOrder NumericEffect] (repository : Repository)
    (binding : List Nat) (valuation : GroundFunctionTerm → Number) :
    (∀ fexpr, ExpressionPreserved repository binding valuation fexpr ↔
      ExpressionNeutral repository binding valuation fexpr) ∧
    (∀ constraint, ConstraintPreserved repository binding valuation constraint ↔
      ConstraintNeutral repository binding valuation constraint) ∧
    (∀ effects, EffectsPreserved repository binding valuation effects ↔
      EffectsNeutral repository binding valuation effects) ∧
    (∀ (lifted : FunctionTerm → Number) (fexpr : FunctionExpression FunctionTerm),
      Everywhere (fun fexpr => (rebuild id fexpr).value lifted = fexpr.value lifted) fexpr ↔
        Everywhere (RepetitionsNeutral id lifted) fexpr) ∧
    (∀ fexpr : FunctionExpression FunctionTerm, rebuild id (rebuild id fexpr) = rebuild id fexpr) ∧
    ∀ (op : MultiOp) (front front' : FunctionExpression FunctionTerm)
      (rest rest' : List (FunctionExpression FunctionTerm)), (front :: rest).Perm (front' :: rest') →
        canonicalMulti op front rest = canonicalMulti op front' rest' :=
  ⟨fun _ => expressionPreserved_iff, fun _ => constraintPreserved_iff, fun _ => effectsPreserved_iff,
    fun _ _ => preserved_iff_neutral, fun _ => rebuild_rebuild id id _,
    fun op _ _ _ _ perm => canonicalMulti_congr op fun _ => perm.mem_iff⟩

end

end

/-! A sum of two terms that become equal. -/

noncomputable local instance : LinearOrder (FunctionExpression FunctionTerm) := by
  classical exact linearOrderOfSTO WellOrderingRel

noncomputable local instance : LinearOrder (FunctionExpression GroundFunctionTerm) := by
  classical exact linearOrderOfSTO WellOrderingRel

noncomputable local instance : LinearOrder GroundNumericEffect := by
  classical exact linearOrderOfSTO WellOrderingRel

/-- A repository for function terms with one object. -/
noncomputable def unaryRepository : Repository where
  staticAtom _ := 0
  fluentFact _ := ⟨0, 0⟩
  derivedAtom _ := 0
  staticFterm _ := 0
  fluentFterm tuple := tuple.objects.headD 0
  greater _ _ := false
  arguments := .classical _
  numericEffects := .classical _
  conditionalEffects := .classical _

/-- The sum of the values of two parameters. -/
def sumOfParameters : FunctionExpression FunctionTerm :=
  .multi .add (.fterm (.fluent 0 [.parameter 0])) [.fterm (.fluent 0 [.parameter 1])]

/-- Both parameters are the same object, whose value is counted once. -/
theorem not_expressionPreserved_sumOfParameters :
    ¬ ExpressionPreserved unaryRepository [5, 5] (fun _ => .finite 1) sumOfParameters := by
  intro preserved
  have same := preserved.here
  have once : canonicalMulti .add (.fterm (.fluent 5)) [.fterm (.fluent 5)] =
      canonicalMulti .add (.fterm (.fluent 5) : FunctionExpression GroundFunctionTerm) [] :=
    canonicalMulti_congr .add (by simp)
  have single : canonicalMulti .add (.fterm (.fluent 5) : FunctionExpression GroundFunctionTerm) [] =
      .multi .add (.fterm (.fluent 5)) [] := by
    simp [canonicalMulti, IndexList.canonicalize, IndexList.isCanonical, IndexList.unique]
  rw [groundExpression_canonicalize, groundExpression_eq_rebuild, sumOfParameters, rebuild, rebuildList,
    rebuildList, rebuild, rebuild] at same
  change (canonicalMulti .add (.fterm (GroundFunctionTerm.fluent 5))
    [.fterm (GroundFunctionTerm.fluent 5)]).value _ = _ at same
  rw [once, single, value, value, fold, value, value, fold, fold, value] at same
  simp [MultiOp.apply, ArithmeticOp.apply, liftedValuation] at same

end Tyr.Formalism.Planning
