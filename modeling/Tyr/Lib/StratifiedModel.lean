import Mathlib.Data.Set.Basic

/-!
Stratified models of ground rules.

A clause derives its head if its positive atoms hold and its negative ones do
not. `LayerModel` is the least set that contains given atoms and is closed under
the clauses of a layer, where the negative atoms are tested in the given set.
`perfectModel` takes the layers one after the other.

* `LayerModel.subset_of_closed` — the least set.
* `perfectModel_subset` — a set that is closed without regard to the negative
  atoms contains the model.
-/

namespace Tyr.Lib

/-- A ground rule. -/
structure Clause (α : Type*) where
  head : α
  positive : List α
  negative : List α

variable {α : Type*}

inductive LayerModel (clauses : Set (Clause α)) (base : Set α) : α → Prop where
  | base {atom : α} : atom ∈ base → LayerModel clauses base atom
  | clause {clause : Clause α} : clause ∈ clauses → (∀ atom ∈ clause.negative, atom ∉ base) →
      (∀ atom ∈ clause.positive, LayerModel clauses base atom) →
      LayerModel clauses base clause.head

def perfectModel : List (Set (Clause α)) → Set α → Set α
  | [], base => base
  | layer :: layers, base => perfectModel layers {atom | LayerModel layer base atom}

section

variable {clauses : Set (Clause α)} {base model : Set α}

/-- The model of a layer is the least closed set. -/
theorem LayerModel.subset_of_closed (sub : base ⊆ model)
    (closed : ∀ clause ∈ clauses, (∀ atom ∈ clause.negative, atom ∉ base) →
      (∀ atom ∈ clause.positive, atom ∈ model) → clause.head ∈ model) :
    {atom | LayerModel clauses base atom} ⊆ model := by
  intro atom derived
  induction derived with
  | base mem => exact sub mem
  | clause mem absent _ ih => exact closed _ mem absent ih

theorem perfectModel_subset {layers : List (Set (Clause α))} (sub : base ⊆ model)
    (closed : ∀ layer ∈ layers, ∀ clause ∈ layer, (∀ atom ∈ clause.positive, atom ∈ model) →
      clause.head ∈ model) : perfectModel layers base ⊆ model := by
  induction layers generalizing base with
  | nil => exact sub
  | cons layer layers ih =>
      apply ih
      · apply LayerModel.subset_of_closed sub
        intro clause mem _ positive
        exact closed layer List.mem_cons_self clause mem positive
      · intro other mem
        exact closed other (List.mem_cons_of_mem _ mem)

end

end Tyr.Lib
