import Mathlib.Data.List.Nodup
import Mathlib.Logic.Function.Basic
import Mathlib.Order.Lattice

/-!
Least feasible values of an acyclic system of differences.

An edge bounds the value of its target from below by the value of its source and the
weight of the edge. Relaxing the edges in the topological order of their sources gives
the least values that meet all bounds.

* `longestPaths_feasible` — the bounds are met.
* `longestPaths_le` — no feasible values are smaller.
-/

namespace Tyr.Lib

structure WeightedEdge (α : Type*) where
  source : α
  target : α
  weight : Nat

namespace WeightedEdge

variable {α : Type*}

def Feasible (edges : List (WeightedEdge α)) (values : α → Nat) : Prop :=
  ∀ edge ∈ edges, values edge.source + edge.weight ≤ values edge.target

/-- The edges lead from a vertex to vertices behind it in the order. -/
def Topological (edges : List (WeightedEdge α)) : List α → Prop
  | [] => True
  | u :: order => (∀ edge ∈ edges, edge.source = u → edge.target ∈ order) ∧ Topological edges order

theorem topological_of_split {edges : List (WeightedEdge α)} {order : List α}
    (behind : ∀ front u back, order = front ++ u :: back →
      ∀ edge ∈ edges, edge.source = u → edge.target ∈ back) : Topological edges order := by
  induction order with
  | nil => trivial
  | cons u order ih =>
      refine ⟨behind [] u order rfl, ih fun front v back split => ?_⟩
      exact behind (u :: front) v back (by rw [split, List.cons_append])

variable [DecidableEq α]

def relax (values : α → Nat) (edge : WeightedEdge α) : α → Nat :=
  Function.update values edge.target (max (values edge.target) (values edge.source + edge.weight))

/-- Relax the edges that leave a vertex. -/
def relaxFrom (edges : List (WeightedEdge α)) (values : α → Nat) (u : α) : α → Nat :=
  (edges.filter fun edge => edge.source = u).foldl relax values

def longestPaths (edges : List (WeightedEdge α)) (order : List α) : α → Nat :=
  order.foldl (relaxFrom edges) fun _ => 0

variable {edges : List (WeightedEdge α)} {values bounds : α → Nat} {order : List α} {u v : α}

/-! ### No value is too large -/

theorem relax_le {edge : WeightedEdge α} (below : ∀ v, values v ≤ bounds v)
    (bound : bounds edge.source + edge.weight ≤ bounds edge.target) (v : α) :
    relax values edge v ≤ bounds v := by
  unfold relax
  by_cases same : v = edge.target
  · rw [same, Function.update_self]
    exact max_le (below _) (le_trans (Nat.add_le_add_right (below _) _) bound)
  · rw [Function.update_of_ne same]
    exact below v

theorem relaxFrom_le (feasible : Feasible edges bounds) (below : ∀ v, values v ≤ bounds v) (u v : α) :
    relaxFrom edges values u v ≤ bounds v := by
  have each : ∀ edge ∈ edges.filter fun edge => edge.source = u,
      bounds edge.source + edge.weight ≤ bounds edge.target :=
    fun edge mem => feasible edge (List.mem_filter.mp mem).1
  unfold relaxFrom
  generalize edges.filter (fun edge => edge.source = u) = leaving at each
  induction leaving generalizing values with
  | nil => exact below v
  | cons edge leaving ih =>
      obtain ⟨first, rest⟩ := List.forall_mem_cons.mp each
      exact ih (relax_le below first) rest

theorem foldl_relaxFrom_le (feasible : Feasible edges bounds) (below : ∀ v, values v ≤ bounds v)
    (v : α) : order.foldl (relaxFrom edges) values v ≤ bounds v := by
  induction order generalizing values with
  | nil => exact below v
  | cons u order ih => exact ih (relaxFrom_le feasible below u)

theorem longestPaths_le (feasible : Feasible edges bounds) (v : α) :
    longestPaths edges order v ≤ bounds v :=
  foldl_relaxFrom_le feasible (fun _ => Nat.zero_le _) v

/-! ### All bounds are met -/

theorem le_foldl_relax {leaving : List (WeightedEdge α)} :
    values v ≤ leaving.foldl relax values v := by
  induction leaving generalizing values with
  | nil => exact Nat.le_refl _
  | cons edge leaving ih =>
      refine le_trans ?_ ih
      unfold relax
      by_cases same : v = edge.target
      · rw [same, Function.update_self]
        exact le_max_left _ _
      · rw [Function.update_of_ne same]

theorem foldl_relax_of_not_target {leaving : List (WeightedEdge α)}
    (notTarget : ∀ edge ∈ leaving, edge.target ≠ v) : leaving.foldl relax values v = values v := by
  induction leaving generalizing values with
  | nil => rfl
  | cons edge leaving ih =>
      obtain ⟨first, rest⟩ := List.forall_mem_cons.mp notTarget
      rw [List.foldl_cons, ih rest, relax, Function.update_of_ne first.symm]

/-- The edges that leave a vertex meet their bounds, if none returns to it. -/
theorem foldl_relax_meets {leaving : List (WeightedEdge α)}
    (notTarget : ∀ edge ∈ leaving, edge.target ≠ u) :
    ∀ edge ∈ leaving, edge.source = u →
      values u + edge.weight ≤ leaving.foldl relax values edge.target := by
  induction leaving generalizing values with
  | nil =>
      intro edge mem
      cases mem
  | cons first leaving ih =>
      obtain ⟨notFirst, notRest⟩ := List.forall_mem_cons.mp notTarget
      intro edge mem source
      obtain rfl | mem := List.mem_cons.mp mem
      · have relaxed : values u + edge.weight ≤ relax values edge edge.target := by
          rw [relax, Function.update_self, source]
          exact le_max_right _ _
        have grows : relax values edge edge.target ≤
            leaving.foldl relax (relax values edge) edge.target := le_foldl_relax
        exact le_trans relaxed grows
      · have met := @ih (relax values first) notRest edge mem source
        rw [relax, Function.update_of_ne notFirst.symm] at met
        exact met

/-- The bounds of the edges that leave vertices before the order are kept. -/
theorem foldl_relaxFrom_feasible (topological : Topological edges order) (nodup : order.Nodup)
    (met : ∀ edge ∈ edges, edge.source ∉ order →
      values edge.source + edge.weight ≤ values edge.target) :
    Feasible edges (order.foldl (relaxFrom edges) values) := by
  induction order generalizing values with
  | nil => exact fun edge mem => met edge mem List.not_mem_nil
  | cons u order ih =>
      obtain ⟨behind, topological⟩ := topological
      obtain ⟨notMem, nodup⟩ := List.nodup_cons.mp nodup
      have targets : ∀ edge ∈ edges.filter fun edge => edge.source = u, edge.target ∈ order := by
        intro edge mem
        obtain ⟨mem, leaves⟩ := List.mem_filter.mp mem
        exact behind edge mem (of_decide_eq_true leaves)
      have kept {v : α} (early : v ∉ order) : relaxFrom edges values u v = values v :=
        foldl_relax_of_not_target fun edge mem eq => early (eq ▸ targets edge mem)
      refine ih topological nodup fun edge mem early => ?_
      rw [kept early]
      by_cases leaves : edge.source = u
      · rw [leaves]
        have notBack : ∀ e ∈ edges.filter fun e => e.source = u, e.target ≠ u := by
          intro e memE eq
          have target := targets e memE
          rw [eq] at target
          exact notMem target
        exact foldl_relax_meets notBack edge
          (List.mem_filter.mpr ⟨mem, decide_eq_true leaves⟩) leaves
      · have before : edge.source ∉ u :: order := by
          simpa [leaves] using early
        exact le_trans (met edge mem before) le_foldl_relax

theorem longestPaths_feasible (topological : Topological edges order) (nodup : order.Nodup)
    (complete : ∀ edge ∈ edges, edge.source ∈ order) :
    Feasible edges (longestPaths edges order) :=
  foldl_relaxFrom_feasible topological nodup fun edge mem absent => absurd (complete edge mem) absent

end WeightedEdge

end Tyr.Lib
