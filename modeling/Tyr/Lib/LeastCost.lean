import Mathlib.Order.Bounds.Basic

/-!
Least derivation costs.

A weighted clause derives its head from its body and gives the cost of the head
as a function of the costs of the body. `HasCost` is the cost of a derivation.
The least derivation costs are the greatest solution of the equations
`v a = min (value of the clauses of a under v)`, the one that an iteration from
the greatest costs downwards reaches.
-/

namespace Tyr.Lib

variable {α C : Type*}

structure WeightedClause (α C : Type*) where
  head : α
  body : List α
  value : List C → C

/-- The costs of the derivations of each element. -/
inductive HasCost (clauses : Set (WeightedClause α C)) : α → C → Prop where
  | derive (clause : WeightedClause α C) (costs : α → C) : clause ∈ clauses →
      (∀ a ∈ clause.body, HasCost clauses a (costs a)) →
      HasCost clauses clause.head (clause.value (clause.body.map costs))

section

variable [Preorder C] {clauses : Set (WeightedClause α C)} {v : α → C}

/-- The values of the clauses only grow with the costs of the body. -/
def MonotoneClauses (clauses : Set (WeightedClause α C)) : Prop :=
  ∀ clause ∈ clauses, ∀ costs costs' : α → C, (∀ a ∈ clause.body, costs a ≤ costs' a) →
    clause.value (clause.body.map costs) ≤ clause.value (clause.body.map costs')

/-- What the clauses of an element cost under `v`. -/
def clauseCosts (clauses : Set (WeightedClause α C)) (v : α → C) (a : α) : Set C :=
  {c | ∃ clause ∈ clauses, clause.head = a ∧ clause.value (clause.body.map v) = c}

/-- `v` solves the equations of the clauses. -/
def SolvesEquations (clauses : Set (WeightedClause α C)) (v : α → C) : Prop :=
  ∀ a, IsGLB (clauseCosts clauses v a) (v a)

/-- Costs that no clause undercuts are at most the cost of every derivation. -/
theorem HasCost.le_of_closed (mono : MonotoneClauses clauses)
    (closed : ∀ a, v a ∈ lowerBounds (clauseCosts clauses v a)) {a : α} {c : C}
    (derivation : HasCost clauses a c) : v a ≤ c := by
  induction derivation with
  | derive clause costs mem _ ih =>
      have direct : v clause.head ≤ clause.value (clause.body.map v) :=
        closed clause.head ⟨clause, mem, rfl, rfl⟩
      exact direct.trans (mono clause mem v costs ih)

/-- A solution whose costs other than the top are those of derivations is the greatest one. -/
theorem SolvesEquations.greatest [OrderTop C] (mono : MonotoneClauses clauses)
    (solves : SolvesEquations clauses v) (attained : ∀ a, v a ≠ ⊤ → HasCost clauses a (v a)) :
    IsGreatest {w | SolvesEquations clauses w} v := by
  refine ⟨solves, fun w solution a => ?_⟩
  by_cases derivable : v a = ⊤
  · rw [derivable]
    exact le_top
  · exact (attained a derivable).le_of_closed mono fun b => (solution b).1

end

end Tyr.Lib
