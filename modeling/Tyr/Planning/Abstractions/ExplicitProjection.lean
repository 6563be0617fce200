import Tyr.Formalism.Planning.Grounder
import Tyr.Formalism.Unification.Substitution
import Mathlib

/-!
Projections as explicit graphs, and their goal distances.

A projection maps the states of a state space to the vertices of a graph. Its
transitions are labelled with an action and a substitution of some of the
action's parameters. `ProjectionAbstraction.OverApproximates` says that the
graph has a transition for each step that changes the vertex. The projection
heuristic is the distance to the goal vertices, computed from these backwards by
a shortest path algorithm (`ShortestPaths`).
-/

namespace Tyr.Planning

open Tyr.Formalism.Planning Tyr.Formalism.Unification

/-! ### State spaces -/

/-- The steps of the ground actions and the goal states. -/
structure StateSpace (State : Type*) where
  step : State → ActionBinding → State → Prop
  goal : State → Prop

/-- The actions can be executed one after the other and end in the last state. -/
inductive StateSpace.Run {State : Type*} (space : StateSpace State) :
    State → List ActionBinding → State → Prop where
  | nil (s : State) : space.Run s [] s
  | cons {s t u : State} {a : ActionBinding} {rest : List ActionBinding} :
      space.step s a t → space.Run t rest u → space.Run s (a :: rest) u

def StateSpace.IsPlan {State : Type*} (space : StateSpace State) (s : State)
    (plan : List ActionBinding) : Prop :=
  ∃ t, space.Run s plan t ∧ space.goal t

/-! ### Projections -/

/-- A transition. Unbound parameters of the original action stand for any object. -/
structure Transition (n : Nat) where
  originalAction : Nat
  substitution : SubstitutionFunction Nat
  src : Fin n
  dst : Fin n

structure ProjectionAbstraction (State : Type*) where
  numVertices : Nat
  mapState : State → Fin numVertices
  transitions : List (Transition numVertices)
  goalVertices : List (Fin numVertices)

namespace ProjectionAbstraction

variable {State : Type*} (space : StateSpace State) (projection : ProjectionAbstraction State)

/-- `compute_state_changing_transitions`, as the list of the transitions. -/
def stateChangingTransitions : List (Transition projection.numVertices) :=
  projection.transitions.filter fun transition => transition.src != transition.dst

/-- The substitution agrees with the binding on each parameter it binds. -/
def Agrees (substitution : SubstitutionFunction Nat) (objects : List Nat) : Prop :=
  ∀ p object, substitution.get p = some object → objects[p]? = some object

/-- Each step that changes the vertex has a transition whose label matches the
action, and goal states are mapped to goal vertices. -/
structure OverApproximates : Prop where
  transition : ∀ s a t, space.step s a t → projection.mapState s ≠ projection.mapState t →
    ∃ transition ∈ projection.transitions, transition.src = projection.mapState s ∧
      transition.dst = projection.mapState t ∧ transition.originalAction = a.action ∧
      Agrees transition.substitution a.objects
  goal : ∀ s, space.goal s → projection.mapState s ∈ projection.goalVertices

/-- The action changes the vertex of some state. -/
def ChangedBy (a : ActionBinding) : Prop :=
  ∃ s t, space.step s a t ∧ projection.mapState s ≠ projection.mapState t

end ProjectionAbstraction

/-! ### Goal distances -/

/-- A path of the given length from a source to the vertex. -/
inductive PathLength {n : Nat} (edges : List (Fin n × Fin n)) (sources : List (Fin n)) :
    Fin n → Nat → Prop where
  | source {v : Fin n} : v ∈ sources → PathLength edges sources v 0
  | edge {u v : Fin n} {length : Nat} : PathLength edges sources u length → (u, v) ∈ edges →
      PathLength edges sources v (length + 1)

/-- The library's shortest path algorithm for edges of weight one: the distance
of a vertex is the least length of a path from a source, infinite without one. -/
structure ShortestPaths where
  distance : {n : Nat} → List (Fin n × Fin n) → List (Fin n) → Fin n → ℕ∞
  isGLB : ∀ {n : Nat} (edges : List (Fin n × Fin n)) (sources : List (Fin n)) (v : Fin n),
    IsGLB {d : ℕ∞ | ∃ length : Nat, PathLength edges sources v length ∧ d = length}
      (distance edges sources v)

/-- There is such a function. -/
noncomputable def ShortestPaths.infimum : ShortestPaths where
  distance edges sources v :=
    sInf {d : ℕ∞ | ∃ length : Nat, PathLength edges sources v length ∧ d = length}
  isGLB _ _ _ := isGLB_sInf _

namespace ProjectionAbstraction

variable {State : Type*} {space : StateSpace State}

/-- `ProjectionAbstractionHeuristic::evaluate`: the distance in the backward graph. -/
def evaluate (paths : ShortestPaths) (projection : ProjectionAbstraction State) (s : State) : ℕ∞ :=
  paths.distance (projection.transitions.map fun transition => (transition.dst, transition.src))
    projection.goalVertices (projection.mapState s)

variable {projection : ProjectionAbstraction State} {paths : ShortestPaths}

theorem evaluate_goal (approximates : projection.OverApproximates space) {s : State}
    (goal : space.goal s) : projection.evaluate paths s = 0 := by
  have shortest := (paths.isGLB (projection.transitions.map fun transition =>
    (transition.dst, transition.src)) projection.goalVertices (projection.mapState s)).1
  exact nonpos_iff_eq_zero.mp (shortest ⟨0, .source (approximates.goal s goal), rfl⟩)

/-- A step lowers the heuristic by at most one, and not at all if the vertex stays. -/
theorem evaluate_step (approximates : projection.OverApproximates space) {s t : State} {a : ActionBinding}
    (step : space.step s a t) : projection.evaluate paths s ≤
      projection.evaluate paths t + if projection.mapState s = projection.mapState t then 0 else 1 := by
  split
  · next same => rw [evaluate, same, add_zero, evaluate]
  · next changes =>
      obtain ⟨transition, mem, src, dst, _, _⟩ := approximates.transition s a t step changes
      -- Every path from the goal to the second vertex goes on to the first one.
      have oneMore : ∀ {length}, PathLength (projection.transitions.map fun transition =>
          (transition.dst, transition.src)) projection.goalVertices (projection.mapState t) length →
          projection.evaluate paths s ≤ length + 1 := by
        intro length path
        have edge : (projection.mapState t, projection.mapState s) ∈
            projection.transitions.map fun transition => (transition.dst, transition.src) :=
          List.mem_map.mpr ⟨transition, mem, by rw [src, dst]⟩
        exact (paths.isGLB _ _ _).1 ⟨length + 1, .edge path edge, by push_cast; rfl⟩
      rw [← tsub_le_iff_right]
      apply (paths.isGLB _ _ _).2
      rintro d ⟨length, path, rfl⟩
      rw [tsub_le_iff_right]
      exact oneMore path

end ProjectionAbstraction

end Tyr.Planning
