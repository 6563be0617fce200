import Tyr.Datalog.RuleProcessing
import Mathlib.Algebra.Order.Monoid.WithTop
import Mathlib.Algebra.Order.Ring.Nat

/-!
Costs of bodies, and the witnesses of a worker.

`bodyCost` aggregates the costs of the positive fluent body facts. The partial
sums of `tryBetterCost` only grow, so stopping early is harmless: a worker's
witness of a head is the cheapest of its announced bindings that beat the known
cost (`updateAndAnnot_le`).
-/

namespace Tyr.Datalog

open Tyr.Lib Tyr.Formalism Tyr.Formalism.Datalog

namespace Aggregation

variable (aggregation : Aggregation)

def applyAll (costs : List Cost) (acc : Cost) : Cost := costs.foldl aggregation.apply acc

theorem left_le_apply (acc x : Cost) : acc ≤ aggregation.apply acc x := by
  cases aggregation with
  | sum => exact le_self_add
  | max => exact le_max_left acc x

theorem right_le_apply (acc x : Cost) : x ≤ aggregation.apply acc x := by
  cases aggregation with
  | sum => exact le_add_self
  | max => exact le_max_right acc x

theorem apply_mono {acc acc' x x' : Cost} (left : acc ≤ acc') (right : x ≤ x') :
    aggregation.apply acc x ≤ aggregation.apply acc' x' := by
  cases aggregation with
  | sum => exact add_le_add left right
  | max => exact max_le_max left right

theorem apply_ne_top {acc x : Cost} (left : acc ≠ ⊤) (right : x ≠ ⊤) :
    aggregation.apply acc x ≠ ⊤ := by
  cases aggregation with
  | sum => exact WithTop.add_ne_top.mpr ⟨left, right⟩
  | max =>
      change Max.max acc x ≠ ⊤
      rcases max_choice acc x with same | same
      · rwa [same]
      · rwa [same]

theorem le_applyAll (costs : List Cost) (acc : Cost) : acc ≤ aggregation.applyAll costs acc := by
  induction costs generalizing acc with
  | nil => exact le_refl acc
  | cons cost costs ih => exact (aggregation.left_le_apply acc cost).trans (ih _)

/-- Each cost is at most the aggregated cost. -/
theorem mem_le_applyAll {costs : List Cost} {cost : Cost} (mem : cost ∈ costs) (acc : Cost) :
    cost ≤ aggregation.applyAll costs acc := by
  induction costs generalizing acc with
  | nil => exact absurd mem List.not_mem_nil
  | cons head costs ih =>
      rcases List.mem_cons.mp mem with rfl | later
      · exact (aggregation.right_le_apply acc cost).trans (aggregation.le_applyAll costs _)
      · exact ih later _

theorem applyAll_mono {α : Type*} {items : List α} {f g : α → Cost}
    (le : ∀ item ∈ items, f item ≤ g item) {acc acc' : Cost} (start : acc ≤ acc') :
    aggregation.applyAll (items.map f) acc ≤ aggregation.applyAll (items.map g) acc' := by
  induction items generalizing acc acc' with
  | nil => exact start
  | cons item items ih =>
      apply ih (fun later mem => le later (List.mem_cons_of_mem item mem))
      exact aggregation.apply_mono start (le item List.mem_cons_self)

theorem applyAll_ne_top {costs : List Cost} (finite : ∀ cost ∈ costs, cost ≠ ⊤) {acc : Cost}
    (start : acc ≠ ⊤) : aggregation.applyAll costs acc ≠ ⊤ := by
  induction costs generalizing acc with
  | nil => exact start
  | cons cost costs ih =>
      apply ih (fun later mem => finite later (List.mem_cons_of_mem cost mem))
      exact aggregation.apply_ne_top start (finite cost List.mem_cons_self)

/-- Greatest costs are bounded by a bound of the costs. -/
theorem applyAll_max_le {costs : List Cost} {bound acc : Cost} (start : acc ≤ bound)
    (le : ∀ cost ∈ costs, cost ≤ bound) : max.applyAll costs acc ≤ bound := by
  unfold applyAll
  apply foldl_invariant (P := (· ≤ bound))
  · intro acc below cost mem
    exact max_le below (le cost mem)
  · exact start

end Aggregation

/-- Stopping at the first partial cost that is too high changes nothing. -/
theorem tryBetterCost_eq (aggregation : Aggregation) (best ruleCost : Cost) (costs : List Cost)
    (bodyCost : Cost) :
    tryBetterCost aggregation best ruleCost costs bodyCost =
      if best ≤ aggregation.applyAll costs bodyCost + ruleCost then none
      else some (aggregation.applyAll costs bodyCost + ruleCost) := by
  induction costs generalizing bodyCost with
  | nil => rfl
  | cons cost costs ih =>
      rw [tryBetterCost, ih]
      split
      · next stop =>
          rw [if_pos]
          apply stop.trans
          exact add_le_add_left (aggregation.le_applyAll (cost :: costs) bodyCost) _
      · rfl

section

variable (aggregation : Aggregation) (orAnnot : Tuple → Cost) (rule : Rule) (binding : List Nat)

/-- The aggregated cost of the positive fluent body facts. -/
def bodyCost : Cost := aggregation.applyAll ((witnessFacts rule binding).map orAnnot) 0

/-- The cost of deriving the head by the ground rule. -/
def groundCost : Cost := bodyCost aggregation orAnnot rule binding + rule.cost

end

section

variable {aggregation : Aggregation} {orAnnot orAnnot' : Tuple → Cost} {rule : Rule}
  {binding : List Nat} {current : Nat}

theorem mem_witnessFacts {fact : Tuple} : fact ∈ witnessFacts rule binding ↔
    ∃ literal ∈ rule.body.fluentLiterals, literal.polarity = true ∧
      literal.atom.ground binding = fact := by
  simp [witnessFacts, and_assoc]

theorem groundCost_congr (same : ∀ fact ∈ witnessFacts rule binding, orAnnot fact = orAnnot' fact) :
    groundCost aggregation orAnnot rule binding = groundCost aggregation orAnnot' rule binding := by
  rw [groundCost, groundCost, bodyCost, bodyCost, List.map_congr_left same]

theorem bodyCost_le_groundCost :
    bodyCost aggregation orAnnot rule binding ≤ groundCost aggregation orAnnot rule binding :=
  le_self_add

theorem le_bodyCost {fact : Tuple} (mem : fact ∈ witnessFacts rule binding) :
    orAnnot fact ≤ bodyCost aggregation orAnnot rule binding :=
  aggregation.mem_le_applyAll (List.mem_map_of_mem mem) 0

theorem groundCost_ne_top (finite : ∀ fact ∈ witnessFacts rule binding, orAnnot fact ≠ ⊤) :
    groundCost aggregation orAnnot rule binding ≠ ⊤ := by
  refine WithTop.add_ne_top.mpr ⟨?_, WithTop.coe_ne_top⟩
  apply aggregation.applyAll_ne_top _ WithTop.zero_ne_top
  intro cost mem
  obtain ⟨fact, memFact, rfl⟩ := List.mem_map.mp mem
  exact finite fact memFact

/-! ### The witnesses of a worker -/

/-- The witness of a head is a ground rule with that head, priced correctly and
cheaper than the known cost. -/
def WitnessOf (aggregation : Aggregation) (orAnnot : Tuple → Cost) (rule : Rule)
    (bindings : List (List Nat)) (witnesses : Tuple → Option Witness) : Prop :=
  ∀ fact witness, witnesses fact = some witness → witness.rule = rule ∧
    witness.binding ∈ bindings ∧ groundHead rule witness.binding = fact ∧
    witness.cost = groundCost aggregation orAnnot rule witness.binding ∧
    witness.cost < orAnnot fact

/-- The known cost of a fact, or the cost of its witness if that is cheaper. -/
def bestCost (orAnnot : Tuple → Cost) (witnesses : Tuple → Option Witness) (fact : Tuple) : Cost :=
  min (orAnnot fact) (witnessCost (witnesses fact))

/-- One binding: skipped, when the best known cost is not beaten, or the witness. -/
theorem updateAndAnnot_cases (aggregation : Aggregation) (current : Nat) (rule : Rule)
    (orAnnot : Tuple → Cost) (witnesses : Tuple → Option Witness) (binding : List Nat) :
    (updateAndAnnot aggregation current rule orAnnot witnesses binding = witnesses ∧
      (bestCost orAnnot witnesses (groundHead rule binding) ≤ (current : Cost) + rule.cost ∨
        bestCost orAnnot witnesses (groundHead rule binding) ≤
          groundCost aggregation orAnnot rule binding)) ∨
    (updateAndAnnot aggregation current rule orAnnot witnesses binding =
        Function.update witnesses (groundHead rule binding)
          (some ⟨rule, binding, groundCost aggregation orAnnot rule binding⟩) ∧
      groundCost aggregation orAnnot rule binding <
        bestCost orAnnot witnesses (groundHead rule binding)) := by
  unfold updateAndAnnot
  dsimp only
  rw [tryBetterCost_eq]
  split
  · next skipped => exact .inl ⟨rfl, .inl skipped⟩
  · by_cases worse : bestCost orAnnot witnesses (groundHead rule binding) ≤
        groundCost aggregation orAnnot rule binding
    · rw [if_pos]
      · exact .inl ⟨rfl, .inr worse⟩
      · exact worse
    · rw [if_neg]
      · exact .inr ⟨rfl, not_le.mp worse⟩
      · exact worse

theorem witnessOf_updateAndAnnot {bindings : List (List Nat)}
    {witnesses : Tuple → Option Witness} (mem : binding ∈ bindings)
    (sound : WitnessOf aggregation orAnnot rule bindings witnesses) :
    WitnessOf aggregation orAnnot rule bindings
      (updateAndAnnot aggregation current rule orAnnot witnesses binding) := by
  rcases updateAndAnnot_cases aggregation current rule orAnnot witnesses binding with
    ⟨same, _⟩ | ⟨updated, better⟩
  · rwa [same]
  · rw [updated]
    intro fact witness found
    by_cases isHead : fact = groundHead rule binding
    · subst isHead
      rw [Function.update_self] at found
      cases found
      exact ⟨rfl, mem, rfl, rfl, better.trans_le (min_le_left _ _)⟩
    · rw [Function.update_of_ne isHead] at found
      exact sound fact witness found

/-- The best known costs only go down. -/
theorem updateAndAnnot_le_best (witnesses : Tuple → Option Witness) (fact : Tuple) :
    bestCost orAnnot (updateAndAnnot aggregation current rule orAnnot witnesses binding) fact ≤
      bestCost orAnnot witnesses fact := by
  rcases updateAndAnnot_cases aggregation current rule orAnnot witnesses binding with
    ⟨same, _⟩ | ⟨updated, better⟩
  · rw [same]
  · rw [updated]
    by_cases isHead : fact = groundHead rule binding
    · subst isHead
      refine le_trans ?_ better.le
      rw [bestCost, Function.update_self]
      exact min_le_right _ _
    · rw [bestCost, bestCost, Function.update_of_ne isHead]

/-- After a binding, the best known cost of its head is at most its cost, if its
body costs at least the current cost or it does not beat the known cost. -/
theorem updateAndAnnot_le (witnesses : Tuple → Option Witness)
    (recent : groundCost aggregation orAnnot rule binding < orAnnot (groundHead rule binding) →
      (current : Cost) ≤ bodyCost aggregation orAnnot rule binding) :
    bestCost orAnnot (updateAndAnnot aggregation current rule orAnnot witnesses binding)
      (groundHead rule binding) ≤ groundCost aggregation orAnnot rule binding := by
  rcases updateAndAnnot_cases aggregation current rule orAnnot witnesses binding with
    ⟨same, skipped | worse⟩ | ⟨updated, better⟩
  · rw [same]
    by_cases beats : groundCost aggregation orAnnot rule binding < orAnnot (groundHead rule binding)
    · exact skipped.trans (add_le_add_left (recent beats) _)
    · exact (min_le_left _ _).trans (not_lt.mp beats)
  · rwa [same]
  · rw [updated, bestCost, Function.update_self]
    exact min_le_right _ _

/-- The annotation of a head stays, or a cheaper witness replaces it. -/
theorem updateOrAnnot_cases (annotations : Annotations) (head : Tuple)
    (witness : Option Witness) :
    (updateOrAnnot annotations head witness =
        (⟨annotations.orAnnot head, annotations.orAnnot head⟩, annotations) ∧
      annotations.orAnnot head ≤ witnessCost witness) ∨
    ∃ better, witness = some better ∧ better.cost < annotations.orAnnot head ∧
      updateOrAnnot annotations head witness =
        (⟨annotations.orAnnot head, better.cost⟩,
          { orAnnot := Function.update annotations.orAnnot head better.cost
            andAnnot := Function.update annotations.andAnnot head (some better) }) := by
  unfold updateOrAnnot
  by_cases free : annotations.orAnnot head = 0
  · refine .inl ⟨if_pos free, ?_⟩
    rw [free]
    exact zero_le
  · dsimp only
    rw [if_neg free]
    cases witness with
    | none => exact .inl ⟨rfl, le_top⟩
    | some witness =>
        by_cases better : witness.cost < annotations.orAnnot head
        · exact .inr ⟨witness, rfl, better, if_pos better⟩
        · exact .inl ⟨if_neg better, not_lt.mp better⟩

/-- A head moves from its known cost to the cheaper of that and the cost of the witness. -/
theorem updateOrAnnot_spec (annotations : Annotations) (head : Tuple) (witness : Option Witness) :
    let result := updateOrAnnot annotations head witness
    result.1 = ⟨annotations.orAnnot head, min (annotations.orAnnot head) (witnessCost witness)⟩ ∧
      result.2.orAnnot = Function.update annotations.orAnnot head
        (min (annotations.orAnnot head) (witnessCost witness)) := by
  rcases updateOrAnnot_cases annotations head witness with
    ⟨same, notBetter⟩ | ⟨better, rfl, less, updated⟩
  · rw [same, min_eq_left notBetter, Function.update_eq_self]
    exact ⟨rfl, rfl⟩
  · rw [updated, min_eq_right (b := witnessCost (some better)) less.le]
    exact ⟨rfl, rfl⟩

end

end Tyr.Datalog
