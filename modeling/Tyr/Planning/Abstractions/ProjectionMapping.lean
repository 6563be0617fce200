import Mathlib.Data.List.Induction
import Tyr.Common.Itertools

/-!
The abstract states of a projection.

The abstract states are created for the boolean vectors over the facts of the pattern, in the
order of `for_each_boolean_vector`. A state is mapped to the number whose bits say which facts
hold. An index of an abstract state has 32 bits.

* `mapState_eq` — a state is ranked by its vector, for a pattern of at most 32 facts.
* `mapState_undefined` — a 33rd fact needs a shift by the width of the index.
* `enumeration_exact` — both enumerations, and the order of the vectors.
-/

namespace Tyr.Planning

open Tyr.Itertools

/-- `Pattern::facts`, each a variable and a value. -/
abbrev PatternFacts := List (Nat × Nat)

namespace ProjectionMapping

/-- `uint_t(1) << i`, which is undefined for the width of `uint_t` and more. -/
def shiftOne (i : Nat) : Option Nat := if i < 32 then some (1 <<< i) else none

/-- One fact of the loop of `map_state`. -/
def mapFact (get : Nat → Nat) (r : Nat) (fact : (Nat × Nat) × Nat) : Option Nat :=
  if get fact.1.1 = fact.1.2 then (shiftOne fact.2).map (r ||| ·) else some r

/-- The value of each variable is given by `get`. -/
def mapState (pattern : PatternFacts) (get : Nat → Nat) : Option Nat :=
  pattern.zipIdx.foldlM (mapFact get) 0

/-- Which facts hold. -/
def truths (pattern : PatternFacts) (get : Nat → Nat) : List Bool :=
  pattern.map fun fact => decide (get fact.1 = fact.2)

theorem length_truths (pattern : PatternFacts) (get : Nat → Nat) :
    (truths pattern get).length = pattern.length := by
  simp [truths]

theorem mapState_eq {pattern : PatternFacts} (small : pattern.length ≤ 32) (get : Nat → Nat) :
    mapState pattern get = some (rank (truths pattern get)) := by
  induction pattern using List.reverseRecOn with
  | nil => rfl
  | append_singleton front fact ih =>
      rw [List.length_append, List.length_singleton] at small
      have before := ih (Nat.le_of_succ_le small)
      rw [mapState] at before
      have truthsConcat : truths (front ++ [fact]) get =
          truths front get ++ [decide (get fact.1 = fact.2)] := by
        rw [truths, List.map_append]
        rfl
      rw [mapState, List.zipIdx_append, List.foldlM_append, before, truthsConcat, rank_concat,
        length_truths]
      have below := rank_lt (truths front get)
      rw [length_truths] at below
      by_cases holds : get fact.1 = fact.2
      · have disjoint := Nat.two_pow_add_eq_or_of_lt below 1
        have shift : shiftOne front.length = some (2 ^ front.length) := by
          rw [shiftOne, if_pos (Nat.lt_of_succ_le small), Nat.one_shiftLeft]
        rw [Nat.mul_one, Nat.or_comm, Nat.add_comm] at disjoint
        simp [mapFact, shift, holds, disjoint]
      · simp [mapFact, holds]

/-- The 33rd fact of a pattern cannot be ranked. -/
theorem mapState_undefined :
    (vectors 33)[2 ^ 32]? = some (List.replicate 32 false ++ [true]) ∧
      truths ((List.range 33).map fun i => (i, 1)) (fun i => if i = 32 then 1 else 0) =
        List.replicate 32 false ++ [true] ∧
      mapState ((List.range 33).map fun i => (i, 1)) (fun i => if i = 32 then 1 else 0) = none := by
  refine ⟨getElem?_vectors.mpr ⟨rfl, ?_⟩, by decide, by decide⟩
  rw [rank_concat]
  rfl

/-- `for_each_element` calls the callback once for each element of the product of sets, and
`for_each_boolean_vector` once for each vector, in the order in which `map_state` ranks them. -/
theorem enumeration_exact {α : Type*} [Inhabited α] (factors : List (List α))
    (sets : ∀ factor ∈ factors, factor.Nodup) (n : Nat) :
    (∃ calls : List (List α), calls.Nodup ∧
        (∀ element, element ∈ calls ↔ List.Forall₂ (· ∈ ·) element factors) ∧
        (factors = [] → calls = [[]]) ∧ ([] ∈ factors → calls = []) ∧
        ∃ iterations, ∀ fuel, iterations ≤ fuel → ∀ (σ : Type) (callback : σ → List α → σ)
          (workspace : CartesianSet.Workspace α) (s : σ), ∃ workspace',
            CartesianSet.forEachElement callback fuel factors workspace s =
              some (workspace', calls.foldl callback s)) ∧
      ∃ calls : List (List Bool), calls.Nodup ∧ calls.length = 2 ^ n ∧
        (∀ bits, bits ∈ calls ↔ bits.length = n) ∧
        (∃ iterations, ∀ fuel, iterations ≤ fuel → ∀ (σ : Type) (callback : σ → List Bool → σ)
          (s : σ), forEachBooleanVector callback fuel n s = some (calls.foldl callback s)) ∧
        (n ≤ 32 → ∀ pattern : PatternFacts, pattern.length = n → ∀ get : Nat → Nat,
          ∃ k, mapState pattern get = some k ∧ calls[k]? = some (truths pattern get)) := by
  refine ⟨⟨CartesianSet.elements factors, ?_⟩, vectors n, ?_⟩
  · refine ⟨CartesianSet.nodup_elements sets, fun _ => CartesianSet.mem_elements, ?_,
      CartesianSet.elements_eq_nil, (factors.map List.length).prod, ?_⟩
    · rintro rfl
      rfl
    · intro fuel enough σ callback workspace s
      exact CartesianSet.forEachElement_eq callback factors enough workspace s
  · refine ⟨nodup_vectors n, length_vectors n, fun _ => mem_vectors, ⟨2 ^ n, ?_⟩, ?_⟩
    · intro fuel enough σ callback s
      exact forEachBooleanVector_eq callback enough s
    · rintro small pattern rfl get
      refine ⟨_, mapState_eq small get, getElem?_vectors.mpr ⟨?_, rfl⟩⟩
      exact length_truths pattern get

/-- Two sets, and the vectors of two facts. -/
theorem enumeration_exact_pairs :
    (∃ calls : List (List Nat), calls.Nodup ∧
        ∀ element, element ∈ calls ↔ List.Forall₂ (· ∈ ·) element [[1, 2], [3, 4, 5]]) ∧
      ∃ calls : List (List Bool), calls.length = 4 ∧
        ∀ get : Nat → Nat, ∃ k, mapState [(0, 1), (1, 2)] get = some k ∧
          calls[k]? = some (truths [(0, 1), (1, 2)] get) := by
  obtain ⟨⟨elements, distinct, exact, _⟩, calls, _, length, _, _, ranked⟩ :=
    enumeration_exact [[1, 2], [3, 4, 5]] (by decide) 2
  exact ⟨⟨elements, distinct, exact⟩, calls, length, ranked (by decide) [(0, 1), (1, 2)] rfl⟩

end ProjectionMapping

end Tyr.Planning
