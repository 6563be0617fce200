import Tyr.Datalog.ApplicabilityCheck
import Tyr.Formalism.Evaluation
import Tyr.Planning.LiftedApplicability

/-!
The evaluators of a task and of its programs.

A ground expression is evaluated in a state, a lifted one under a binding, and
their translations in the fact sets of a program.

* `evaluators_exact_iff` — they return the mathematical values, and agree, exactly
  if the n-ary sums in the expressions are equal to the products of their arguments.
-/

namespace Tyr.Planning

open Tyr.Formalism Tyr.Formalism.Planning Tyr.Formalism.FunctionExpression

instance : Inhabited GroundFunctionTerm := ⟨.static 0⟩

instance : Inhabited FunctionTerm := ⟨.static 0 []⟩

/-- A ground function term of a program. -/
abbrev ProgramFunctionTerm := Datalog.FactKind × Tuple

/-- The value of a ground function term of a program. -/
def groundProgramValue (values : Datalog.FactKind → Tuple → Number) (fterm : ProgramFunctionTerm) : Number :=
  values fterm.1 fterm.2

/-- The value of a function term of a program under a binding. -/
def liftedProgramValue (values : Datalog.FactKind → Tuple → Number) (binding : List Nat)
    (fterm : Datalog.FunctionTerm) : Number :=
  values fterm.kind ⟨fterm.function, fterm.terms.map (Term.ground binding)⟩

section

variable [LinearOrder (FunctionExpression GroundFunctionTerm)]
  [LinearOrder (FunctionExpression FunctionTerm)]
  [LinearOrder (FunctionExpression ProgramFunctionTerm)]
  [LinearOrder (FunctionExpression Datalog.FunctionTerm)]

/-- The evaluators return the values of a ground and a lifted expression exactly if
each n-ary sum in them is equal to the product of its arguments. Numbers are exact: that
doubles round differently when `merge_p2d` reorders arguments is left out. -/
theorem evaluators_exact_iff (context : ApplicabilityContext)
    (values : Datalog.FactKind → Tuple → Number)
    (groundTranslation : Translation context.state.get (groundProgramValue values))
    (liftedTranslation : Translation context.get (liftedProgramValue values context.binding))
    (ground : {fexpr : FunctionExpression GroundFunctionTerm // Canonical fexpr})
    (lifted : {fexpr : FunctionExpression FunctionTerm // Canonical fexpr}) :
    EvaluatorsExact groundTranslation ground.1 ∧ EvaluatorsExact liftedTranslation lifted.1 ↔
      Everywhere (SumNeutral context.state.get) ground.1 ∧
        Everywhere (SumNeutral context.get) lifted.1 :=
  and_congr (evaluatorsExact_iff_sumNeutral groundTranslation ground.2)
    (evaluatorsExact_iff_sumNeutral liftedTranslation lifted.2)

end

/-! ### A translated task -/

/-- A task without static values in which the value of a fluent function term is the
number of its first object, under the binding of one parameter to the object five. -/
noncomputable def numberedContext : ApplicabilityContext where
  state :=
    { emptyContext.state with
      unpackedState := { UnpackedState.empty with fluentValues := fun index => .finite index } }
  repository := emptyContext.repository
  created := { emptyContext.created with fluentFterm := fun _ => true }
  binding := [5]
  covers :=
    { staticAtom := emptyContext.covers.staticAtom
      fluentAtom := emptyContext.covers.fluentAtom
      derivedAtom := emptyContext.covers.derivedAtom
      staticFterm := emptyContext.covers.staticFterm
      fluentFterm := fun _ absent => Bool.noConfusion absent }

/-- The values in the fact sets of its program. -/
def numberedValues : Datalog.FactKind → Tuple → Number
  | .static, _ => .nan
  | .fluent, tuple => .finite (tuple.objects.headD 0)

/-- Ground function terms are numbered by their only object. -/
def translateGround : GroundFunctionTerm → ProgramFunctionTerm
  | .static index => (.static, ⟨0, [index]⟩)
  | .fluent index => (.fluent, ⟨0, [index]⟩)

def translateLifted : FunctionTerm → Datalog.FunctionTerm
  | .static function terms => ⟨.static, function, terms⟩
  | .fluent function terms => ⟨.fluent, function, terms⟩

theorem translateGround_injective : Function.Injective translateGround := by
  intro fterm fterm' same
  cases fterm <;> cases fterm' <;> simp_all [translateGround]

theorem translateLifted_injective : Function.Injective translateLifted := by
  intro fterm fterm' same
  cases fterm <;> cases fterm' <;> simp_all [translateLifted]

theorem groundProgramValue_translateGround : ∀ fterm,
    groundProgramValue numberedValues (translateGround fterm) = numberedContext.state.get fterm
  | .static _ => rfl
  | .fluent _ => rfl

theorem liftedProgramValue_translateLifted : ∀ fterm,
    liftedProgramValue numberedValues numberedContext.binding (translateLifted fterm) =
      numberedContext.get fterm
  | .static _ _ => rfl
  | .fluent _ _ => rfl

noncomputable def numberedGround :
    Translation numberedContext.state.get (groundProgramValue numberedValues) :=
  ⟨translateGround, translateGround_injective, groundProgramValue_translateGround⟩

noncomputable def numberedLifted :
    Translation numberedContext.get (liftedProgramValue numberedValues numberedContext.binding) :=
  ⟨translateLifted, translateLifted_injective, liftedProgramValue_translateLifted⟩

/-- `f(o2) - f(o3)` -/
def difference : FunctionExpression GroundFunctionTerm :=
  .binary .sub (.fterm (.fluent 2)) (.fterm (.fluent 3))

/-- `-(f(?x) * 3)`, with the arguments of the product in canonical order. -/
noncomputable def negatedProduct : FunctionExpression FunctionTerm :=
  @rebuild _ _ (arbitraryOrder _) id
    (.neg (.multi .mul (.fterm (.fluent 0 [.parameter 0])) [.number (.finite 3)]))

theorem sumNeutral_rebuild_neg_product {F : Type} [LinearOrder (FunctionExpression F)]
    (valuation : F → Number) (fterm : F) (value : Number) :
    Everywhere (SumNeutral valuation)
      (rebuild id (.neg (.multi .mul (.fterm fterm) [.number value]))) := by
  rw [rebuild, rebuild, rebuildList, rebuildList, rebuild, rebuild]
  obtain ⟨front, rest, sorted, same⟩ :=
    canonicalMulti_eq .mul (.fterm (id fterm)) [(.number value : FunctionExpression F)]
  have leaves : ∀ arg ∈ front :: rest, Everywhere (SumNeutral valuation) arg := by
    intro arg mem
    rw [← sorted, IndexList.mem_canonicalize, List.mem_pair] at mem
    rcases mem with rfl | rfl <;> rw [Everywhere] <;> trivial
  rw [same, Everywhere, Everywhere]
  exact ⟨trivial, rfl, leaves front List.mem_cons_self,
    EverywhereList.of_forall fun arg mem => leaves arg (List.mem_cons_of_mem _ mem)⟩

/-- `f(o2) - f(o3)` and `-(f(?x) * 3)` have their values in every evaluator. -/
theorem evaluators_exact_iff_numbered :
    @EvaluatorsExact _ _ (arbitraryOrder _) _ _ numberedGround difference ∧
      @EvaluatorsExact _ _ (arbitraryOrder _) _ _ numberedLifted negatedProduct := by
  let groundOrder := arbitraryOrder (FunctionExpression GroundFunctionTerm)
  let liftedOrder := arbitraryOrder (FunctionExpression FunctionTerm)
  let programOrder := arbitraryOrder (FunctionExpression ProgramFunctionTerm)
  let ruleOrder := arbitraryOrder (FunctionExpression Datalog.FunctionTerm)
  have groundCanonical : Canonical difference := by
    rw [Canonical, difference, rebuild, rebuild, rebuild, canonicalBinary, if_neg (by simp)]
    rfl
  apply (evaluators_exact_iff numberedContext numberedValues numberedGround numberedLifted
    ⟨difference, groundCanonical⟩ ⟨negatedProduct, canonical_rebuild id _⟩).mpr
  constructor
  · simp [difference, Everywhere, SumNeutral]
  · exact sumNeutral_rebuild_neg_product _ _ _

/-! ### A sum -/

/-- The sum of two, three and four. -/
def sumOfThree (FTerm : Type) : FunctionExpression FTerm :=
  .multi .add (.number (.finite 2)) [.number (.finite 3), .number (.finite 4)]

/-- The planning evaluators return the product in every context, and the datalog
evaluator the sum. -/
theorem sumOfThree_evaluates (FTerm : Type) (valuation : FTerm → Number) :
    (sumOfThree FTerm).evaluate valuation = .finite 24 ∧
      (sumOfThree FTerm).value valuation = .finite 9 ∧
        (sumOfThree FTerm).evaluateProgram valuation = .finite 9 := by
  refine ⟨?_, ?_, ?_⟩
  · simp only [sumOfThree, evaluate, accumulate, MultiOp.apply, ArithmeticOp.apply]
    decide +kernel
  · simp only [sumOfThree, value, fold, MultiOp.apply, ArithmeticOp.apply]
    decide +kernel
  · simp only [sumOfThree, evaluateProgram, accumulateProgram, MultiOp.apply, ArithmeticOp.apply]
    decide +kernel

theorem sumOfThree_not_exact :
    ¬ EvaluatesToValue emptyContext.state.get (sumOfThree GroundFunctionTerm) ∧
      ¬ EvaluatesToValue emptyContext.get (sumOfThree FunctionTerm) := by
  constructor
  · obtain ⟨product, sum, _⟩ := sumOfThree_evaluates _ emptyContext.state.get
    rw [EvaluatesToValue, product, sum]
    decide
  · obtain ⟨product, sum, _⟩ := sumOfThree_evaluates _ emptyContext.get
    rw [EvaluatesToValue, product, sum]
    decide

end Tyr.Planning
