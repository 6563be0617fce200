import Tyr.Formalism.Canonicalization

/-!
The evaluators of function expressions.

The evaluators of the planning formalism are `FunctionExpression.evaluate`, and
the one of the datalog formalism is `evaluateProgram`. An expression of a
repository is canonical, and so is its translation.

* `evaluateProgram_eq_value` — the datalog evaluator computes the value.
* `evaluates_iff_sumNeutral` — the planning evaluators compute the values of an
  expression and of all expressions in it exactly if each n-ary sum in it is equal
  to the product of its arguments.
* `value_rebuild_of_canonical` — an injective translation preserves the value of
  a canonical expression.
-/

namespace Tyr.Formalism

open Tyr.Lib

namespace FunctionExpression

variable {F G : Type*}

/-! ### The datalog evaluator -/

section

variable (valuation : F → Number)

mutual

/-- `evaluate` of the datalog formalism: the arguments of an n-ary operator are
accumulated with this operator. -/
def evaluateProgram : FunctionExpression F → Number
  | number value => value
  | neg arg => -evaluateProgram arg
  | binary op lhs rhs => op.apply (evaluateProgram lhs) (evaluateProgram rhs)
  | multi op front rest => accumulateProgram op (evaluateProgram front) rest
  | fterm t => valuation t

def accumulateProgram (op : MultiOp) (init : Number) : List (FunctionExpression F) → Number
  | [] => init
  | arg :: rest => accumulateProgram op (op.apply init (evaluateProgram arg)) rest

end

mutual

theorem evaluateProgram_eq_value : ∀ fexpr : FunctionExpression F,
    fexpr.evaluateProgram valuation = fexpr.value valuation
  | number _ => by rw [evaluateProgram, value]
  | neg arg => by rw [evaluateProgram, value, evaluateProgram_eq_value arg]
  | binary op lhs rhs => by
      rw [evaluateProgram, value, evaluateProgram_eq_value lhs, evaluateProgram_eq_value rhs]
  | multi op front rest => by
      rw [evaluateProgram, value, evaluateProgram_eq_value front]
      exact accumulateProgram_eq_fold op _ rest
  | fterm _ => by rw [evaluateProgram, value]

theorem accumulateProgram_eq_fold (op : MultiOp) (init : Number) :
    ∀ rest : List (FunctionExpression F),
      accumulateProgram valuation op init rest = fold valuation op init rest
  | [] => by rw [accumulateProgram, fold]
  | arg :: rest => by
      rw [accumulateProgram, fold, evaluateProgram_eq_value arg]
      exact accumulateProgram_eq_fold op _ rest

end

end

/-! ### The planning evaluators -/

section

variable (valuation : F → Number)

/-- The evaluators return the value. -/
def EvaluatesToValue (fexpr : FunctionExpression F) : Prop :=
  fexpr.evaluate valuation = fexpr.value valuation

/-- The value of an n-ary operator is the product of its arguments. -/
def SumNeutral : FunctionExpression F → Prop
  | multi op front rest =>
      fold valuation op (front.value valuation) rest = fold valuation .mul (front.value valuation) rest
  | _ => True

variable {valuation}

theorem accumulate_eq_fold_of_evaluates : ∀ {rest : List (FunctionExpression F)},
    (∀ arg ∈ rest, EvaluatesToValue valuation arg) → ∀ init,
      accumulate valuation init rest = fold valuation .mul init rest
  | [], _, _ => by rw [accumulate, fold]
  | arg :: rest, evaluates, init => by
      rw [accumulate, fold, evaluates arg List.mem_cons_self]
      exact accumulate_eq_fold_of_evaluates (fun other mem => evaluates other (List.mem_cons_of_mem _ mem)) _

mutual

theorem evaluates_iff_sumNeutral : ∀ {fexpr : FunctionExpression F},
    Everywhere (EvaluatesToValue valuation) fexpr ↔ Everywhere (SumNeutral valuation) fexpr
  | number _ => by
      rw [Everywhere, Everywhere, EvaluatesToValue, evaluate, value]
      exact iff_of_true rfl trivial
  | neg arg => by
      rw [Everywhere, Everywhere, ← evaluates_iff_sumNeutral]
      refine and_congr_left fun evaluates => iff_of_true ?_ trivial
      rw [EvaluatesToValue, evaluate, value, evaluates.here]
  | binary op lhs rhs => by
      rw [Everywhere, Everywhere, ← evaluates_iff_sumNeutral, ← evaluates_iff_sumNeutral]
      refine and_congr_left fun evaluates => iff_of_true ?_ trivial
      rw [EvaluatesToValue, evaluate, value, evaluates.1.here, evaluates.2.here]
  | multi op front rest => by
      rw [Everywhere, Everywhere, ← evaluates_iff_sumNeutral, ← evaluatesList_iff_sumNeutral]
      refine and_congr_left fun evaluates => ?_
      rw [EvaluatesToValue, evaluate, value, evaluates.1.here,
        accumulate_eq_fold_of_evaluates evaluates.2.of_mem, SumNeutral]
      exact eq_comm
  | fterm _ => by
      rw [Everywhere, Everywhere, EvaluatesToValue, evaluate, value]
      exact iff_of_true rfl trivial

theorem evaluatesList_iff_sumNeutral : ∀ {args : List (FunctionExpression F)},
    EverywhereList (EvaluatesToValue valuation) args ↔ EverywhereList (SumNeutral valuation) args
  | [] => by rw [EverywhereList, EverywhereList]
  | arg :: rest => by
      rw [EverywhereList, EverywhereList, evaluates_iff_sumNeutral, evaluatesList_iff_sumNeutral]

end

end

/-! ### Canonical expressions -/

section

variable [LinearOrder (FunctionExpression F)]

/-- An expression of a repository. -/
def Canonical (fexpr : FunctionExpression F) : Prop := rebuild id fexpr = fexpr

theorem canonical_rebuild {E : Type*} (f : E → F) (fexpr : FunctionExpression E) :
    Canonical (rebuild f fexpr) := rebuild_rebuild f id fexpr

theorem Canonical.neg {arg : FunctionExpression F} (canonical : Canonical (.neg arg)) :
    Canonical arg := by
  rw [Canonical, rebuild] at canonical
  exact FunctionExpression.neg.inj canonical

theorem Canonical.binary {op : ArithmeticOp} {lhs rhs : FunctionExpression F}
    (canonical : Canonical (.binary op lhs rhs)) : Canonical lhs ∧ Canonical rhs := by
  rw [Canonical, rebuild] at canonical
  rcases canonicalBinary_eq op (rebuild id lhs) (rebuild id rhs) with same | ⟨_, swapped⟩
  · rw [same] at canonical
    injection canonical with _ left right
    exact ⟨left, right⟩
  · rw [swapped] at canonical
    injection canonical with _ left right
    exact ⟨left ▸ canonical_rebuild id rhs, right ▸ canonical_rebuild id lhs⟩

theorem Canonical.multi {op : MultiOp} {front : FunctionExpression F}
    {rest : List (FunctionExpression F)} (canonical : Canonical (.multi op front rest)) :
    (∀ arg ∈ front :: rest, Canonical arg) ∧ (front :: rest).Nodup := by
  rw [Canonical, rebuild, rebuildList_eq_map] at canonical
  obtain ⟨front', rest', sorted, same⟩ := canonicalMulti_eq op (rebuild id front) (rest.map (rebuild id))
  rw [same] at canonical
  injection canonical with _ sameFront sameRest
  subst sameFront sameRest
  constructor
  · intro arg mem
    rw [← sorted, IndexList.mem_canonicalize, ← List.map_cons, List.mem_map] at mem
    obtain ⟨arg', _, rfl⟩ := mem
    exact canonical_rebuild id arg'
  · rw [← sorted]
    exact IndexList.nodup_canonicalize _

variable [LinearOrder (FunctionExpression G)] {f : F → G}

/-- An injective translation is injective on canonical expressions. -/
theorem rebuild_injective [Nonempty F] (injective : Function.Injective f)
    {lhs rhs : FunctionExpression F} (lhsCanonical : Canonical lhs) (rhsCanonical : Canonical rhs)
    (same : rebuild f lhs = rebuild f rhs) : lhs = rhs := by
  obtain ⟨back, inverse⟩ := injective.hasLeftInverse
  have identity : back ∘ f = id := inverse.comp_eq_id
  calc lhs = rebuild back (rebuild f lhs) := by rw [rebuild_rebuild, identity, lhsCanonical]
    _ = rebuild back (rebuild f rhs) := by rw [same]
    _ = rhs := by rw [rebuild_rebuild, identity, rhsCanonical]

mutual

theorem repetitionsNeutral_of_canonical [Nonempty F] (injective : Function.Injective f)
    (valuation : G → Number) : ∀ {fexpr : FunctionExpression F}, Canonical fexpr →
      Everywhere (RepetitionsNeutral f valuation) fexpr
  | number _, _ => by
      rw [Everywhere]
      trivial
  | neg arg, canonical => by
      rw [Everywhere]
      exact ⟨trivial, repetitionsNeutral_of_canonical injective valuation canonical.neg⟩
  | binary op lhs rhs, canonical => by
      rw [Everywhere]
      exact ⟨trivial, repetitionsNeutral_of_canonical injective valuation canonical.binary.1,
        repetitionsNeutral_of_canonical injective valuation canonical.binary.2⟩
  | multi op front rest, canonical => by
      obtain ⟨args, nodup⟩ := canonical.multi
      rw [Everywhere]
      refine ⟨?_, repetitionsNeutral_of_canonical injective valuation (args front List.mem_cons_self),
        repetitionsNeutralList_of_canonical injective valuation
          fun arg mem => args arg (List.mem_cons_of_mem _ mem)⟩
      have nodupMap : ((front :: rest).map (rebuild f)).Nodup :=
        List.Nodup.map_on (fun arg mem arg' mem' same =>
          rebuild_injective injective (args arg mem) (args arg' mem') same) nodup
      rw [List.map_cons, List.nodup_cons] at nodupMap
      have noRepetition : repeatedOccurrences (rebuild f) [rebuild f front] rest = [] := by
        apply repeatedOccurrences_eq_nil nodupMap.2
        intro arg mem repeated
        rw [List.mem_singleton] at repeated
        exact nodupMap.1 (repeated ▸ List.mem_map_of_mem mem)
      rw [RepetitionsNeutral, noRepetition, fold]
  | fterm _, _ => by
      rw [Everywhere]
      trivial

theorem repetitionsNeutralList_of_canonical [Nonempty F] (injective : Function.Injective f)
    (valuation : G → Number) : ∀ {args : List (FunctionExpression F)},
      (∀ arg ∈ args, Canonical arg) → EverywhereList (RepetitionsNeutral f valuation) args
  | [], _ => by rw [EverywhereList]; trivial
  | arg :: rest, canonical => by
      rw [EverywhereList]
      exact ⟨repetitionsNeutral_of_canonical injective valuation (canonical arg List.mem_cons_self),
        repetitionsNeutralList_of_canonical injective valuation
          fun other mem => canonical other (List.mem_cons_of_mem _ mem)⟩

end

/-- An injective translation preserves the values of a canonical expression. -/
theorem value_rebuild_of_canonical [Nonempty F] (injective : Function.Injective f)
    (valuation : G → Number) {fexpr : FunctionExpression F} (canonical : Canonical fexpr) :
    Everywhere (ValuePreserved f valuation) fexpr :=
  preserved_iff_neutral.mpr (repetitionsNeutral_of_canonical injective valuation canonical)

end

/-! ### The evaluators agree -/

section

variable {P Q R : FunctionExpression F → Prop}

mutual

theorem Everywhere.combine (combine : ∀ fexpr, P fexpr → Q fexpr → R fexpr) :
    ∀ {fexpr : FunctionExpression F}, Everywhere P fexpr → Everywhere Q fexpr → Everywhere R fexpr
  | number _, p, q => by
      rw [Everywhere] at p q ⊢
      exact combine _ p q
  | neg _, p, q => by
      rw [Everywhere] at p q ⊢
      exact ⟨combine _ p.1 q.1, Everywhere.combine combine p.2 q.2⟩
  | binary _ _ _, p, q => by
      rw [Everywhere] at p q ⊢
      exact ⟨combine _ p.1 q.1, Everywhere.combine combine p.2.1 q.2.1,
        Everywhere.combine combine p.2.2 q.2.2⟩
  | multi _ _ _, p, q => by
      rw [Everywhere] at p q ⊢
      exact ⟨combine _ p.1 q.1, Everywhere.combine combine p.2.1 q.2.1,
        EverywhereList.combine combine p.2.2 q.2.2⟩
  | fterm _, p, q => by
      rw [Everywhere] at p q ⊢
      exact combine _ p q

theorem EverywhereList.combine (combine : ∀ fexpr, P fexpr → Q fexpr → R fexpr) :
    ∀ {args : List (FunctionExpression F)}, EverywhereList P args → EverywhereList Q args →
      EverywhereList R args
  | [], _, _ => by
      rw [EverywhereList]
      trivial
  | _ :: _, p, q => by
      rw [EverywhereList] at p q ⊢
      exact ⟨Everywhere.combine combine p.1 q.1, EverywhereList.combine combine p.2 q.2⟩

end

end

/-- The translation of the function terms of a task to those of its program: different
terms have different translations, and a term and its translation have the same value. -/
structure Translation (valuation : F → Number) (programValuation : G → Number) where
  fterm : F → G
  injective : Function.Injective fterm
  value_fterm : ∀ t, programValuation (fterm t) = valuation t

section

variable [LinearOrder (FunctionExpression F)] [LinearOrder (FunctionExpression G)]
  {valuation : F → Number} {programValuation : G → Number}

/-- `merge_p2d` of an expression. -/
def mergeP2D (translation : Translation valuation programValuation) (fexpr : FunctionExpression F) :
    FunctionExpression G := rebuild translation.fterm fexpr

/-- The planning evaluator and the datalog evaluator return the value of an
expression, and the latter does so on its translation. -/
structure EvaluatorsExact (translation : Translation valuation programValuation)
    (fexpr : FunctionExpression F) : Prop where
  planning : Everywhere (EvaluatesToValue valuation) fexpr
  program : ∀ other : FunctionExpression G,
    other.evaluateProgram programValuation = other.value programValuation
  agree : Everywhere (fun part => (mergeP2D translation part).evaluateProgram programValuation =
    part.evaluate valuation) fexpr

theorem evaluatorsExact_iff_sumNeutral [Nonempty F]
    (translation : Translation valuation programValuation) {fexpr : FunctionExpression F}
    (canonical : Canonical fexpr) :
    EvaluatorsExact translation fexpr ↔ Everywhere (SumNeutral valuation) fexpr := by
  rw [← evaluates_iff_sumNeutral]
  constructor
  · exact fun exact => exact.planning
  · intro evaluates
    refine ⟨evaluates, evaluateProgram_eq_value programValuation, ?_⟩
    have preserved := value_rebuild_of_canonical translation.injective programValuation canonical
    refine Everywhere.combine (fun part toValue preserves => ?_) evaluates preserved
    have sameValues : programValuation ∘ translation.fterm = valuation :=
      funext translation.value_fterm
    rw [mergeP2D, evaluateProgram_eq_value, preserves, sameValues, toValue]

end

end FunctionExpression

end Tyr.Formalism
