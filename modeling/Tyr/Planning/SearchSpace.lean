import Mathlib.Algebra.Order.Ring.Rat
import Mathlib.Data.List.Chain
import Mathlib.Data.Finset.Card
import Mathlib.Data.Finset.Range

/-!
Search nodes and plan extraction.

States are their registered indices, and a node is a state together with its
metric. A search keeps a parent state for every state it has reached; the plan
is derived afterwards by following the parents (`extractNodeTrajectory`) and by
looking for a labelled successor between every two consecutive nodes
(`extractLabeledNodeTrajectory`). The second step skips a pair without a
matching successor, so a plan is complete only if every parent edge is still a
successor edge for the recorded metrics.

* `extractNodeTrajectory_spec` — a property that holds along the parents relates
  the consecutive nodes of the trajectory.
* `Rooted.bound` — a parent chain is no longer than the vector of search nodes.
* `extractLabeled_executes` — a trajectory of successor edges yields one labelled
  step per pair, and the steps are executable.
-/

namespace Tyr.Planning

/-- A registered state and the metric it was reached with. -/
structure Node where
  state : Nat
  metric : ℚ
deriving DecidableEq

/-- A successor node and the ground action that leads to it. -/
structure LabeledNode (Label : Type*) where
  label : Label
  node : Node

/-- The start node and the labelled steps. -/
structure Plan (Label : Type*) where
  startNode : Node
  labeledSuccNodes : List (LabeledNode Label)

/-- The status of a search node, in the order of the source. -/
inductive SearchNodeStatus where
  | goal
  | deadEnd
  | closed
  | opened
  | new
deriving DecidableEq, Repr

variable {Label : Type*}

/-- The labelled steps can be executed one after the other from the first node
and end in the last one. -/
inductive Executes (successors : Node → List (LabeledNode Label)) :
    Node → List (LabeledNode Label) → Node → Prop where
  | nil (u : Node) : Executes successors u [] u
  | cons {u t : Node} {step : LabeledNode Label} {rest : List (LabeledNode Label)} :
      step ∈ successors u → Executes successors step.node rest t →
      Executes successors u (step :: rest) t

/-! ### The trajectory of parents -/

section

variable (parentState : Nat → Option Nat) (gValue : Nat → ℚ)

/-- Follow the parents of `cur` and collect their nodes in front of `trajectory`.
`fuel` bounds the number of parents. -/
def extractNodeTrajectory : (fuel cur : Nat) → List Node → Option (List Node)
  | 0, cur, trajectory =>
      match parentState cur with
      | none => some trajectory
      | some _ => none
  | fuel + 1, cur, trajectory =>
      match parentState cur with
      | none => some trajectory
      | some parent => extractNodeTrajectory fuel parent (⟨parent, gValue parent⟩ :: trajectory)

/-- `s` has a chain of exactly `n` parents up to a state without one. -/
inductive Rooted : Nat → Nat → Prop where
  | root {s : Nat} : parentState s = none → Rooted s 0
  | step {s p n : Nat} : parentState s = some p → Rooted p n → Rooted s (n + 1)

end

section

variable {parentState : Nat → Option Nat} {gValue : Nat → ℚ}

theorem Rooted.unique {s n m : Nat} (first : Rooted parentState s n)
    (second : Rooted parentState s m) : n = m := by
  induction first generalizing m with
  | root none =>
      cases second with
      | root _ => rfl
      | step some _ => simp [none] at some
  | step some _ ih =>
      cases second with
      | root none => simp [some] at none
      | step some' rest =>
          rw [some, Option.some.injEq] at some'
          subst some'
          rw [ih rest]

/-- Every shorter chain length occurs among the ancestors. -/
theorem Rooted.exists_of_le {s n : Nat} (rooted : Rooted parentState s n) {m : Nat} (le : m ≤ n) :
    ∃ t, Rooted parentState t m := by
  induction rooted with
  | @root s none =>
      rw [Nat.le_zero.mp le]
      exact ⟨s, .root none⟩
  | @step s p n some rest ih =>
      rcases Nat.lt_or_eq_of_le le with lt | rfl
      · exact ih (by omega)
      · exact ⟨s, .step some rest⟩

/-- The chain of parents is no longer than the vector of search nodes, if only
states inside the vector have a parent: ancestors at different distances from
the root are different states. -/
theorem Rooted.bound {s n size : Nat} (rooted : Rooted parentState s n)
    (inVector : ∀ i p, parentState i = some p → i < size) : n ≤ size := by
  have ancestors : ∀ m : Nat, ∃ t, m < n → Rooted parentState t (m + 1) := by
    intro m
    by_cases lt : m < n
    · obtain ⟨t, chain⟩ := rooted.exists_of_le (m := m + 1) (by omega)
      exact ⟨t, fun _ => chain⟩
    · exact ⟨0, fun inRange => absurd inRange lt⟩
  choose ancestor chain using ancestors
  have inside : ∀ m ∈ Finset.range n, ancestor m ∈ Finset.range size := by
    intro m inRange
    cases chain m (Finset.mem_range.mp inRange) with
    | step some _ => exact Finset.mem_range.mpr (inVector _ _ some)
  have injective : Set.InjOn ancestor (Finset.range n : Set Nat) := by
    intro m inRange m' inRange' same
    have first := chain m (Finset.mem_range.mp inRange)
    have second := chain m' (Finset.mem_range.mp inRange')
    rw [same] at first
    have := first.unique second
    omega
  have card := Finset.card_le_card_of_injOn ancestor inside injective
  simpa using card

/-- Redirecting the parent of `t` to `x` keeps the chains of parents, if `t` is
not among the ancestors of `x`: `above` holds of `x`, of the parent of every state
it holds of, and not of `t`. -/
theorem rooted_redirect {parents parents' : Nat → Option Nat} {above : Nat → Prop} {t x : Nat}
    (up : ∀ i p, above i → parents i = some p → above p) (aboveX : above x) (notT : ¬ above t)
    (others : ∀ i, i ≠ t → parents' i = parents i) (redirected : parents' t = some x)
    {n : Nat} (rootedX : Rooted parents x n) :
    ∀ i m, Rooted parents i m → ∃ m', Rooted parents' i m' := by
  have ancestors : ∀ i m, Rooted parents i m → above i → Rooted parents' i m := by
    intro i m rooted
    induction rooted with
    | @root s none =>
        intro isAbove
        have different : s ≠ t := fun same => notT (same ▸ isAbove)
        exact .root ((others s different).trans none)
    | @step s p n some _ ih =>
        intro isAbove
        have different : s ≠ t := fun same => notT (same ▸ isAbove)
        exact .step ((others s different).trans some) (ih (up s p isAbove some))
  intro i m rooted
  induction rooted with
  | @root s none =>
      by_cases same : s = t
      · subst same
        exact ⟨n + 1, .step redirected (ancestors x n rootedX aboveX)⟩
      · exact ⟨0, .root ((others s same).trans none)⟩
  | @step s p k some _ ih =>
      by_cases same : s = t
      · subst same
        exact ⟨n + 1, .step redirected (ancestors x n rootedX aboveX)⟩
      · obtain ⟨m', rooted'⟩ := ih
        exact ⟨m' + 1, .step ((others s same).trans some) rooted'⟩

/-- Where a property `Q` of states passes on from a child to its parent and
relates their nodes by `R`, the trajectory exists, starts at a state without a
parent, and its consecutive nodes are related by `R`. -/
theorem extractNodeTrajectory_spec {Q : Nat → Prop} {R : Node → Node → Prop}
    (up : ∀ i p, Q i → parentState i = some p → Q p ∧ R ⟨p, gValue p⟩ ⟨i, gValue i⟩)
    {s n fuel : Nat} (rooted : Rooted parentState s n) (enough : n ≤ fuel) (holds : Q s)
    (rest : List Node) (chain : List.IsChain R (⟨s, gValue s⟩ :: rest)) :
    ∃ root tail, extractNodeTrajectory parentState gValue fuel s (⟨s, gValue s⟩ :: rest) =
        some (⟨root, gValue root⟩ :: tail) ∧
      Q root ∧ parentState root = none ∧ List.IsChain R (⟨root, gValue root⟩ :: tail) ∧
      (⟨root, gValue root⟩ :: tail).getLast? = ((⟨s, gValue s⟩ : Node) :: rest).getLast? := by
  induction rooted generalizing fuel rest with
  | @root s none =>
      refine ⟨s, rest, ?_, holds, none, chain, rfl⟩
      cases fuel <;> simp [extractNodeTrajectory, none]
  | @step s p n some _ ih =>
      obtain ⟨fuel, rfl⟩ := Nat.exists_eq_succ_of_ne_zero (show fuel ≠ 0 by omega)
      obtain ⟨holdsP, related⟩ := up s p holds some
      obtain ⟨root, tail, extracted, holdsRoot, noParent, chain', last⟩ :=
        ih (show n ≤ fuel by omega) holdsP (⟨s, gValue s⟩ :: rest) (.cons_cons related chain)
      refine ⟨root, tail, ?_, holdsRoot, noParent, chain', ?_⟩
      · simp only [extractNodeTrajectory, some]
        exact extracted
      · rw [last, List.getLast?_cons_cons]

end

/-! ### The labelled steps -/

/-- One labelled successor per pair of consecutive nodes; a pair without a
matching successor is skipped. -/
def extractLabeledNodeTrajectory (successors : Node → List (LabeledNode Label)) :
    Node → List Node → List (LabeledNode Label)
  | _, [] => []
  | cur, next :: rest =>
      match (successors cur).find? fun step => step.node = next with
      | some step => step :: extractLabeledNodeTrajectory successors step.node rest
      | none => extractLabeledNodeTrajectory successors cur rest

/-- The plan along a trajectory, which is never empty. -/
def extractTotalOrderedPlan (successors : Node → List (LabeledNode Label)) :
    List Node → Option (Plan Label)
  | [] => none
  | start :: rest => some ⟨start, extractLabeledNodeTrajectory successors start rest⟩

/-- When consecutive nodes are successors of each other, no pair is skipped and
the labelled steps execute the trajectory. -/
theorem extractLabeled_executes {successors : Node → List (LabeledNode Label)} {start : Node}
    {rest : List Node}
    (chain : List.IsChain (fun u v => ∃ step ∈ successors u, step.node = v) (start :: rest)) :
    (extractLabeledNodeTrajectory successors start rest).map LabeledNode.node = rest ∧
    Executes successors start (extractLabeledNodeTrajectory successors start rest)
      ((start :: rest).getLast (List.cons_ne_nil _ _)) := by
  induction rest generalizing start with
  | nil => exact ⟨rfl, .nil start⟩
  | cons next rest ih =>
      cases chain with
      | cons_cons edge chain =>
      obtain ⟨step, mem, target⟩ := edge
      have found : ((successors start).find? fun step => step.node = next).isSome := by
        rw [List.find?_isSome]
        exact ⟨step, mem, by simpa using target⟩
      obtain ⟨first, isFirst⟩ := Option.isSome_iff_exists.mp found
      have atNext : first.node = next := by simpa using List.find?_some isFirst
      obtain ⟨nodes, executes⟩ := ih (atNext ▸ chain)
      simp only [extractLabeledNodeTrajectory, isFirst]
      rw [atNext] at nodes executes ⊢
      refine ⟨by simp [atNext, nodes], ?_⟩
      rw [List.getLast_cons (List.cons_ne_nil _ _)]
      refine .cons (List.mem_of_find?_eq_some isFirst) ?_
      rw [atNext]
      exact executes

end Tyr.Planning
