import Tyr.Planning.AstarInvariant

/-!
Eager A* returns optimal executable plans.

* `exists_open_on_path` — on every path to a goal some open state has a metric
  within the cost of the path.
* `parents_exact` — when a goal state has the smallest key, all its parent edges
  are exact, so plan extraction skips no step.
* `findSolution_optimal` — reported plans are executable, complete and of minimal
  cost, and exhaustion means that there is no plan.
-/

namespace Tyr.Planning.AstarEager

open Tyr.Lib

variable {Label Rng : Type*} {P : SearchProblem Label} {h : Heuristic}

/-! ### Optimality -/

theorem path_cost {s t : Nat} {c : ℚ} (path : Path P.successors s t c) : 0 ≤ c ∧ IsCanonical c := by
  induction path with
  | nil => exact ⟨le_refl _, isCanonical_zero⟩
  | cons edge _ ih =>
      have nonneg := P.cost_nonneg _ _ _ _ edge
      exact ⟨by linarith [ih.1], (P.cost_canonical _ _ _ _ edge).add ih.2⟩

/-- The metric of an executed plan is the start metric plus the cost of its path. -/
theorem Executes.path {u t : Node} {steps : List (LabeledNode Label)}
    (executes : Executes P.labeledSuccessorNodes u steps t) (canonical : IsCanonical u.metric) :
    ∃ c, Path P.successors u.state t.state c ∧ t.metric = u.metric + c := by
  induction executes with
  | nil u => exact ⟨0, .nil _, (add_zero _).symm⟩
  | cons mem _ ih =>
      obtain ⟨w, edge, sum⟩ := (mem_labeledSuccessorNodes canonical).mp mem
      obtain ⟨c, path, total⟩ := ih (by rw [sum]; exact canonical.add (P.cost_canonical _ _ _ _ edge))
      exact ⟨w + c, .cons edge path, by rw [total, sum, add_assoc]⟩

theorem Admissible.hValue_le (admissible : Admissible P h) {s t : Nat} {c : ℚ}
    (path : Path P.successors s t c) (goal : P.isGoal t = true) :
    ∃ v : ℚ, hValue h s = v ∧ 0 ≤ v ∧ v ≤ c := by
  have le := admissible.le_cost s t c path goal
  have nonneg := admissible.nonneg s
  unfold hValue
  cases value : h s with
  | top =>
      rw [value] at le
      exact absurd le (not_le.mpr (WithTop.coe_lt_top c))
  | coe v =>
      rw [value] at le nonneg
      refine ⟨canonicalize v, rfl, canonicalize_nonneg (WithTop.coe_nonneg.mp nonneg), ?_⟩
      rw [← (path_cost path).2.canonicalize_eq]
      exact canonicalize_mono (WithTop.coe_le_coe.mp le)

section

variable {nodes : SearchNodes} {openlist : List QueueEntry}
  (inv : SearchInvariant P h (fun _ => False) nodes openlist) (admissible : Admissible P h)

include inv admissible

/-- On every path from the start to a goal some open state has a metric within
the cost of the path so far. -/
theorem exists_open_on_path {t : Nat} {c : ℚ} (path : Path P.successors P.startNode.state t c)
    (goal : P.isGoal t = true) :
    ∃ m c₁ c₂, Path P.successors m t c₂ ∧ c = c₁ + c₂ ∧
      ((nodes.get m).status = .opened ∨ (nodes.get m).status = .goal) ∧
      nodes.metric m ≤ P.startNode.metric + c₁ := by
  have passes : ∀ v q, (nodes.get v).status = .closed →
      ((nodes.get v).status ≠ .new ∧ nodes.metric v ≤ q) → ∀ l m w, (l, m, w) ∈ P.successors v →
      (nodes.get m).status ≠ .new ∧ nodes.metric m ≤ q + w := by
    intro v q isClosed known l m w edge
    obtain ⟨reached, le⟩ := inv.passed v isClosed not_false l m w edge
    exact ⟨reached, by linarith [known.2]⟩
  rcases path.frontier passes (q := P.startNode.metric)
      ⟨inv.start_root.2.1, inv.start_root.2.2.le⟩ with isClosed | frontier
  · have notGoal := inv.expanded_notGoal t (.inl isClosed)
    rw [goal] at notGoal
    cases notGoal
  · obtain ⟨m, c₁, c₂, _, rest, sum, notClosed, reached, le⟩ := frontier
    refine ⟨m, c₁, c₂, rest, sum, ?_, le⟩
    obtain ⟨v, alive, _, _⟩ := admissible.hValue_le rest goal
    have notDead : (nodes.get m).status ≠ .deadEnd := by
      intro dead
      rw [(inv.deadEnd_iff m reached).mp dead] at alive
      cases alive
    cases status : (nodes.get m).status with
    | goal => exact .inr rfl
    | opened => exact .inl rfl
    | closed => exact absurd status notClosed
    | deadEnd => exact absurd status notDead
    | new => exact absurd status reached

/-- An open state with a path to a goal has an entry within the cost of the path. -/
theorem entry_le_path {m t : Nat} {c : ℚ}
    (isOpen : (nodes.get m).status = .opened ∨ (nodes.get m).status = .goal)
    (path : Path P.successors m t c) (goal : P.isGoal t = true) :
    ∃ e ∈ openlist, e.fValue ≤ nodes.metric m + c := by
  obtain ⟨v, alive, e, mem, _, value⟩ := inv.open_entry m isOpen
  obtain ⟨v', alive', _, le⟩ := admissible.hValue_le path goal
  rw [alive] at alive'
  have same := WithTop.coe_inj.mp alive'
  have canonical := inv.canonical m (by rcases isOpen with s | s <;> rw [s] <;> decide)
  refine ⟨e, mem, ?_⟩
  rw [value, ← (canonical.add (path_cost path).2).canonicalize_eq]
  exact canonicalize_mono (by linarith)

section

variable {entry : QueueEntry} (mem : entry ∈ openlist)
  (least : ∀ e ∈ openlist, entry.le e)
  (isGoalStatus : (nodes.get entry.state).status = .goal)

include mem least isGoalStatus

/-- A goal state with the smallest key is no more expensive than any entry. -/
theorem metric_le_entries : ∀ e ∈ openlist, nodes.metric entry.state ≤ e.fValue := by
  intro e memE
  have goal := inv.goal_isGoal _ isGoalStatus
  have reached : (nodes.get entry.state).status ≠ .new := by rw [isGoalStatus]; decide
  obtain ⟨v, alive, nonneg, _⟩ := admissible.hValue_le (.nil entry.state) goal
  have bound := (inv.entry_bound entry mem).2 v alive
  have smallest : entry.fValue ≤ e.fValue := by
    rcases least e memE with lt | ⟨eq, _⟩
    · exact lt.le
    · exact eq.le
  calc nodes.metric entry.state
      = canonicalize (nodes.metric entry.state) := (inv.canonical _ reached).canonicalize_eq.symm
    _ ≤ canonicalize (nodes.metric entry.state + v) := canonicalize_mono (by linarith)
    _ ≤ entry.fValue := bound
    _ ≤ e.fValue := smallest

/-- The metric of a goal state with the smallest key is minimal. -/
theorem goal_metric_le {t : Nat} {c : ℚ} (path : Path P.successors P.startNode.state t c)
    (goal : P.isGoal t = true) : nodes.metric entry.state ≤ P.startNode.metric + c := by
  obtain ⟨m, c₁, c₂, rest, sum, isOpen, le⟩ := exists_open_on_path inv admissible path goal
  obtain ⟨e, memE, bound⟩ := entry_le_path inv admissible isOpen rest goal
  have := metric_le_entries inv admissible mem least isGoalStatus e memE
  linarith

/-- All parent edges of a goal state with the smallest key are exact: an inexact
edge below a reopened parent would give the parent a smaller key. -/
theorem parents_exact {i p : Nat} (below : ∃ d, Path P.successors i entry.state d ∧
      nodes.metric i + d ≤ nodes.metric entry.state)
    (parent : nodes.parents i = some p) :
    (∃ d, Path P.successors p entry.state d ∧ nodes.metric p + d ≤ nodes.metric entry.state) ∧
    ∃ step ∈ P.labeledSuccessorNodes ⟨p, nodes.metric p⟩, step.node = ⟨i, nodes.metric i⟩ := by
  obtain ⟨d, path, le⟩ := below
  obtain ⟨l, c, edge, edgeLe, edgeExact⟩ := inv.parent_edge i p parent
  have status := inv.parent_status i p parent
  have goal := inv.goal_isGoal _ isGoalStatus
  have path' : Path P.successors p entry.state (c + d) := .cons edge path
  have exact' : nodes.metric p + c = nodes.metric i := by
    rcases status with isClosed | isOpened
    · exact edgeExact isClosed not_false
    · obtain ⟨e, memE, bound⟩ := entry_le_path inv admissible (.inl isOpened) path' goal
      have := metric_le_entries inv admissible mem least isGoalStatus e memE
      linarith
  have canonical := inv.canonical p (by rcases status with s | s <;> rw [s] <;> decide)
  refine ⟨⟨c + d, path', by linarith⟩, ⟨l, ⟨i, nodes.metric p + c⟩⟩, ?_, by rw [exact']⟩
  exact (mem_labeledSuccessorNodes canonical).mpr ⟨c, edge, rfl⟩

/-- The extracted plan starts at the start node, has one labelled step per pair
of the trajectory, and executes to the goal node. -/
theorem extractPlan_spec : ∃ plan, extractPlan P nodes entry.state = some plan ∧
    plan.startNode = P.startNode ∧
    nodeTrajectory nodes entry.state =
      some (P.startNode :: plan.labeledSuccNodes.map LabeledNode.node) ∧
    Executes P.labeledSuccessorNodes P.startNode plan.labeledSuccNodes
      ⟨entry.state, nodes.metric entry.state⟩ := by
  have reached : (nodes.get entry.state).status ≠ .new := by rw [isGoalStatus]; decide
  obtain ⟨n, rooted⟩ := inv.rooted _ reached
  have enough := rooted.bound fun i p parent => SearchNodes.inside_of_parent parent
  obtain ⟨root, tail, extracted, atRoot, noParent, chain, last⟩ := extractNodeTrajectory_spec
    (fun i p below parent =>
      ⟨⟨by rcases inv.parent_status i p parent with s | s <;> rw [s] <;> decide,
        (parents_exact inv admissible mem least isGoalStatus below.2 parent).1⟩,
        (parents_exact inv admissible mem least isGoalStatus below.2 parent).2⟩)
    (Q := fun i => (nodes.get i).status ≠ .new ∧ ∃ d, Path P.successors i entry.state d ∧
      nodes.metric i + d ≤ nodes.metric entry.state)
    (R := fun u v => ∃ step ∈ P.labeledSuccessorNodes u, step.node = v)
    rooted enough ⟨reached, 0, .nil _, by rw [add_zero]⟩ [] (.singleton _)
  have start : (⟨root, nodes.metric root⟩ : Node) = P.startNode := by
    have isStart := inv.root_only root atRoot.1 noParent
    rw [isStart, inv.start_root.2.2]
  rw [start] at extracted chain last
  obtain ⟨nodesEq, executes⟩ := extractLabeled_executes chain
  refine ⟨⟨P.startNode, extractLabeledNodeTrajectory P.labeledSuccessorNodes P.startNode tail⟩,
    ?_, rfl, ?_, ?_⟩
  · unfold extractPlan nodeTrajectory
    rw [extracted]
    rfl
  · unfold nodeTrajectory
    rw [extracted, nodesEq]
  · have atGoal : (P.startNode :: tail).getLast (List.cons_ne_nil _ _) =
        ⟨entry.state, nodes.metric entry.state⟩ := by
      rw [List.getLast?_eq_getLast_of_ne_nil (List.cons_ne_nil _ _)] at last
      simpa using last
    rw [← atGoal]
    exact executes

end

end

/-! ### Correctness of the result -/

/-- What a reported result promises: a solution is an executable plan with one
labelled step per pair of trajectory nodes that ends in a goal and is no more
expensive than any other plan; any other status means that there is no plan. -/
structure CorrectResult (P : SearchProblem Label) (result : SearchResult Label)
    (nodes : SearchNodes) : Prop where
  solved : result.status = .solved → ∃ plan goalNode, result.plan = some plan ∧
    result.goalNode = some goalNode ∧ plan.startNode = P.startNode ∧
    nodeTrajectory nodes goalNode.state =
      some (P.startNode :: plan.labeledSuccNodes.map LabeledNode.node) ∧
    Executes P.labeledSuccessorNodes P.startNode plan.labeledSuccNodes goalNode ∧
    P.staticGoal = true ∧ P.isGoal goalNode.state = true ∧
    ∀ steps t, Executes P.labeledSuccessorNodes P.startNode steps t → P.isGoal t.state = true →
      goalNode.metric ≤ t.metric
  noPlan : result.status ≠ .solved → ¬ ∃ steps t,
    Executes P.labeledSuccessorNodes P.startNode steps t ∧ P.staticGoal = true ∧
      P.isGoal t.state = true

/-- Every result of the loop is correct. The induction is on the iterations; the
invariant carries over from one iteration to the next. -/
theorem searchLoop_correct {opts : Options Label Rng} (admissible : Admissible P h)
    (staticGoal : P.staticGoal = true) (fuel : Nat) (st : SearchState Rng)
    (inv : SearchInvariant P h (fun _ => False) st.searchNodes st.openlist)
    {result : SearchResult Label} {nodes : SearchNodes}
    (returned : searchLoop P h opts fuel st = some (result, nodes)) :
    CorrectResult P result nodes := by
  induction fuel generalizing st with
  | zero => cases returned
  | succ fuel ih =>
      unfold searchLoop at returned
      cases pop : opts.queue.pop st.openlist with
      | none =>
          simp only [pop, Option.some.injEq, Prod.mk.injEq] at returned
          obtain ⟨rfl, rfl⟩ := returned
          refine ⟨fun bad => (by cases bad), fun _ => ?_⟩
          rintro ⟨steps, t, executes, _, goal⟩
          obtain ⟨c, path, _⟩ := Executes.path executes P.start_canonical
          obtain ⟨m, c₁, c₂, rest, _, isOpen, _⟩ := exists_open_on_path inv admissible path goal
          obtain ⟨e, mem, _⟩ := entry_le_path inv admissible isOpen rest goal
          rw [opts.queue.pop_none _ pop] at mem
          cases mem
      | some popped =>
          obtain ⟨entry, rest⟩ := popped
          obtain ⟨perm, least⟩ := opts.queue.pop_some _ _ _ pop
          have mem : entry ∈ st.openlist := perm.mem_iff.mpr List.mem_cons_self
          simp only [pop] at returned
          cases status : (st.searchNodes.get entry.state).status with
          | closed =>
              simp only [status] at returned
              exact ih { st with openlist := rest } (inv.skip perm (.inl status)) returned
          | deadEnd =>
              simp only [status] at returned
              exact ih { st with openlist := rest } (inv.skip perm (.inr status)) returned
          | opened =>
              simp only [status] at returned
              exact ih _ (inv.expand perm status) returned
          | new => exact absurd status (inv.entry_bound entry mem).1
          | goal =>
              simp only [status, Option.some.injEq, Prod.mk.injEq] at returned
              obtain ⟨rfl, rfl⟩ := returned
              obtain ⟨plan, extracted, start, trajectory, executes⟩ :=
                extractPlan_spec inv admissible mem least status
              refine ⟨fun _ => ⟨plan, _, extracted, rfl, start, trajectory, executes, staticGoal,
                inv.goal_isGoal _ status, fun steps t other goal => ?_⟩, fun bad => absurd rfl bad⟩
              obtain ⟨c, path, total⟩ := Executes.path other P.start_canonical
              rw [total]
              exact goal_metric_le inv admissible mem least status path goal

/-- The invariant holds before the first iteration. -/
theorem searchInvariant_start {v : ℚ} (alive : hValue h P.startNode.state = v)
    (notGoal : P.isGoal P.startNode.state = false) :
    SearchInvariant P h (fun _ => False)
      (SearchNodes.set [] P.startNode.state ⟨P.startNode.metric, none, .opened⟩)
      [⟨canonicalize (P.startNode.metric + v), P.startNode.state, .opened⟩] := by
  have status : ∀ i, ((SearchNodes.set [] P.startNode.state
      ⟨P.startNode.metric, none, .opened⟩).get i).status =
      if i = P.startNode.state then .opened else .new := by
    intro i
    rw [SearchNodes.get_set]
    split <;> rfl
  have reachedOnly : ∀ i, ((SearchNodes.set [] P.startNode.state
      ⟨P.startNode.metric, none, .opened⟩).get i).status ≠ .new → i = P.startNode.state := by
    intro i reached
    by_contra other
    rw [status, if_neg other] at reached
    exact reached rfl
  have metricStart : (SearchNodes.set [] P.startNode.state
      ⟨P.startNode.metric, none, .opened⟩).metric P.startNode.state = P.startNode.metric := by
    rw [SearchNodes.metric_set, if_pos rfl]
    rfl
  have noParents : ∀ i, (SearchNodes.set [] P.startNode.state
      ⟨P.startNode.metric, none, .opened⟩).parents i = none := by
    intro i
    rw [SearchNodes.parents_set]
    split <;> rfl
  have notClosed : ∀ i, ((SearchNodes.set [] P.startNode.state
      ⟨P.startNode.metric, none, .opened⟩).get i).status ≠ .closed := by
    intro i
    rw [status]
    split <;> decide
  refine
    { start_root := ⟨noParents _, by rw [status, if_pos rfl]; decide, metricStart⟩
      start_least := fun i reached => by rw [reachedOnly i reached, metricStart]
      reached := fun i reached => by
        rw [reachedOnly i reached, metricStart, SearchNodes.get_set, if_pos rfl]
      unreached := fun i isNew => ⟨?_, noParents i⟩
      canonical := fun i reached => by
        rw [reachedOnly i reached, metricStart]
        exact P.start_canonical
      parent_status := fun i p parent => by rw [noParents] at parent; cases parent
      parent_edge := fun i p parent => by rw [noParents] at parent; cases parent
      rooted := fun i _ => ⟨0, .root (noParents i)⟩
      root_only := fun i reached _ => reachedOnly i reached
      passed := fun x isClosed => absurd isClosed (notClosed x)
      goal_isGoal := fun i isGoal => ?_
      expanded_notGoal := fun i expanded => ?_
      deadEnd_iff := fun i reached => ?_
      open_entry := fun i isOpen => ?_
      entry_bound := fun e mem => ?_ }
  · rw [SearchNodes.get_set]
    split
    case isTrue same =>
      rw [status, if_pos same] at isNew
      cases isNew
    case isFalse => rfl
  · rw [status] at isGoal
    split at isGoal <;> cases isGoal
  · have reached : i = P.startNode.state := by
      refine reachedOnly i ?_
      rcases expanded with s | s <;> rw [s] <;> decide
    rw [reached]
    exact notGoal
  · rw [reachedOnly i reached, status, if_pos rfl, alive]
    exact iff_of_false (by decide) WithTop.coe_ne_top
  · have reached : i = P.startNode.state := by
      refine reachedOnly i ?_
      rcases isOpen with s | s <;> rw [s] <;> decide
    rw [reached, metricStart]
    exact ⟨v, alive, _, List.mem_singleton_self _, rfl, rfl⟩
  · rw [List.mem_singleton.mp mem, status, if_pos rfl, metricStart]
    refine ⟨by decide, fun v' alive' => ?_⟩
    simp only at alive' ⊢
    rw [alive] at alive'
    rw [WithTop.coe_inj.mp alive']

/-- Right after the start there is nothing to follow from the start state. -/
theorem nodeTrajectory_start (status : SearchNodeStatus) :
    nodeTrajectory (SearchNodes.set [] P.startNode.state ⟨P.startNode.metric, none, status⟩)
      P.startNode.state = some [P.startNode] := by
  have root : (SearchNodes.set [] P.startNode.state
      ⟨P.startNode.metric, none, status⟩).parents P.startNode.state = none := by
    rw [SearchNodes.parents_set, if_pos rfl]
  have metric : (SearchNodes.set [] P.startNode.state
      ⟨P.startNode.metric, none, status⟩).metric P.startNode.state = P.startNode.metric := by
    rw [SearchNodes.metric_set, if_pos rfl]
    rfl
  unfold nodeTrajectory
  rw [metric]
  generalize List.length _ = fuel
  cases fuel <;> simp [extractNodeTrajectory, root]

/-- The zero heuristic is admissible. -/
theorem admissible_zero (P : SearchProblem Label) : Admissible P fun _ => 0 where
  nonneg _ := le_refl _
  le_cost _ _ _ path _ := WithTop.coe_le_coe.mpr (path_cost path).1

/-- State 2 is the goal; it is first reached directly at cost 3 and then, through
state 1, at cost 2. -/
def detour : SearchProblem String where
  successors s := match s with
    | 0 => [("direct", 2, 3), ("first", 1, 1)]
    | 1 => [("second", 2, 1)]
    | _ => []
  staticGoal := true
  isGoal s := s == 2
  startNode := ⟨0, 0⟩
  cost_nonneg s l t c mem := by
    rcases s with _ | _ | s <;> simp at mem
    · rcases mem with ⟨_, _, rfl⟩ | ⟨_, _, rfl⟩ <;> norm_num
    · rw [mem.2.2]
      norm_num
  cost_canonical s l t c mem := by
    rcases s with _ | _ | s <;> simp at mem
    · rcases mem with ⟨_, _, rfl⟩ | ⟨_, _, rfl⟩
      · have three : (3 : ℚ) = 1 + 1 + 1 := by norm_num
        rw [three]
        exact (isCanonical_one.add isCanonical_one).add isCanonical_one
      · exact isCanonical_one
    · rw [mem.2.2]
      exact isCanonical_one
  start_canonical := isCanonical_zero

/-- Options without shuffling. -/
def inOrder : Options String Unit where
  queue := .stable
  shuffleLabeledSuccNodes := false
  randomSeed := ()
  shuffle _ succs := (succs, ())
  shuffle_perm _ _ := .refl _

end Tyr.Planning.AstarEager
