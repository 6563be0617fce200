import Mathlib.Data.Set.Finite.Basic
import Tyr.Lib.GrowingList
import Tyr.Planning.GbfsLazy

/-!
Lazy greedy best-first search is sound and complete.

The recorded parents form a tree of successor nodes (`SearchTree`). Every open state
has an entry in one of the queues, the successors of a closed state have been
reached, and no goal can be reached from a dead end (`SearchInvariant`). Each
iteration takes an entry, and only a state that is reached for the first time brings
a new one.

* `SearchInvariant.openSuccessor` — the step lemma of an expansion.
* `SearchInvariant.expand` — expanding a state keeps the invariant.
* `findSolution_complete` — the search ends, with a plan exactly if there is one.
-/

namespace Tyr.Planning.GbfsLazy

variable {Label Rng H : Type*} {P : SearchProblem Label}

/-! ### Search nodes -/

namespace SearchNodes

variable (nodes : SearchNodes)

theorem get_set (i j : Nat) (node : SearchNode) :
    (nodes.set i node).get j = if j = i then node else nodes.get j :=
  Lib.getD_set_grow nodes .default i j node

/-- The state has been reached. -/
def Reached (i : Nat) : Prop := (nodes.get i).status ≠ .new

theorem parents_set (i j : Nat) (node : SearchNode) :
    (nodes.set i node).parents j = if j = i then node.parentState else nodes.parents j := by
  unfold parents
  rw [get_set]
  split <;> rfl

theorem metric_set (i j : Nat) (node : SearchNode) :
    (nodes.set i node).metric j = if j = i then node.gValue.untopD 0 else nodes.metric j := by
  unfold metric
  rw [get_set]
  split <;> rfl

theorem status_set (i j : Nat) (node : SearchNode) :
    ((nodes.set i node).get j).status = if j = i then node.status else (nodes.get j).status := by
  rw [get_set]
  split <;> rfl

variable {nodes}

/-- A node other than the default one lies inside the vector. -/
theorem inside_of_parent {i p : Nat} (parent : nodes.parents i = some p) : i < nodes.length := by
  by_contra outside
  unfold parents get at parent
  rw [List.getD_eq_getElem?_getD, List.getElem?_eq_none (not_lt.mp outside)] at parent
  cases parent

end SearchNodes

/-! ### The search tree -/

/-- The recorded parents form a tree with the start state as its root, and a node is a
successor of its parent. -/
structure SearchTree (P : SearchProblem Label) (nodes : SearchNodes) : Prop where
  start_reached : nodes.Reached P.startNode.state
  start_metric : nodes.metric P.startNode.state = P.startNode.metric
  unreached : ∀ i, ¬ nodes.Reached i → nodes.parents i = none
  parent_reached : ∀ i p, nodes.parents i = some p → nodes.Reached p
  parent_edge : ∀ i p, nodes.parents i = some p →
    ∃ step ∈ P.labeledSuccessorNodes ⟨p, nodes.metric p⟩, step.node = ⟨i, nodes.metric i⟩
  rooted : ∀ i, nodes.Reached i → ∃ n, Rooted nodes.parents i n
  root_only : ∀ i, nodes.Reached i → nodes.parents i = none → i = P.startNode.state
  reaches : ∀ i, nodes.Reached i → P.Reaches P.startNode.state i

theorem mem_labeledSuccessorNodes {node : Node} {step : LabeledNode Label}
    (mem : step ∈ P.labeledSuccessorNodes node) : P.Edge node.state step.node.state := by
  obtain ⟨succ, inSuccessors, rfl⟩ := List.mem_map.mp mem
  exact ⟨succ, inSuccessors, rfl⟩

namespace SearchTree

variable {nodes : SearchNodes}

theorem congr (tree : SearchTree P nodes) {nodes' : SearchNodes}
    (parents : nodes'.parents = nodes.parents) (metric : nodes'.metric = nodes.metric)
    (reached : nodes'.Reached = nodes.Reached) : SearchTree P nodes' where
  start_reached := by
    rw [reached]
    exact tree.start_reached
  start_metric := by
    rw [metric]
    exact tree.start_metric
  unreached := by
    rw [reached, parents]
    exact tree.unreached
  parent_reached := by
    rw [reached, parents]
    exact tree.parent_reached
  parent_edge := by
    rw [metric, parents]
    exact tree.parent_edge
  rooted := by
    rw [reached, parents]
    exact tree.rooted
  root_only := by
    rw [reached, parents]
    exact tree.root_only
  reaches := by
    rw [reached]
    exact tree.reaches

/-- Changing the status of a reached state. -/
theorem setStatus (tree : SearchTree P nodes) {i : Nat} (reached : nodes.Reached i)
    {status : SearchNodeStatus} (notNew : status ≠ .new) :
    SearchTree P (nodes.set i { nodes.get i with status := status }) := by
  have parents : (nodes.set i { nodes.get i with status := status }).parents = nodes.parents := by
    funext j
    rw [SearchNodes.parents_set]
    split
    · next same =>
        subst same
        rfl
    · rfl
  have metric : (nodes.set i { nodes.get i with status := status }).metric = nodes.metric := by
    funext j
    rw [SearchNodes.metric_set]
    split
    · next same =>
        subst same
        rfl
    · rfl
  have same : (nodes.set i { nodes.get i with status := status }).Reached = nodes.Reached := by
    funext j
    rw [SearchNodes.Reached, SearchNodes.status_set]
    split
    · next same =>
        subst same
        exact propext (iff_of_true notNew reached)
    · rfl
  exact tree.congr parents metric same

/-- A new node below a reached one. -/
theorem openNode (tree : SearchTree P nodes) {x t : Nat} {m : ℚ} {step : LabeledNode Label}
    (reachedX : nodes.Reached x) (isNew : ¬ nodes.Reached t)
    (edge : step ∈ P.labeledSuccessorNodes ⟨x, nodes.metric x⟩) (target : step.node = ⟨t, m⟩)
    (status : SearchNodeStatus) (notNew : status ≠ .new) (isPreferred : Bool) :
    SearchTree P (nodes.set t ⟨m, some x, status, isPreferred⟩) := by
  have different : x ≠ t := by
    rintro rfl
    exact isNew reachedX
  have reached : ∀ j, (nodes.set t ⟨m, some x, status, isPreferred⟩).Reached j ↔
      j = t ∨ nodes.Reached j := by
    intro j
    rw [SearchNodes.Reached, SearchNodes.status_set]
    split
    · next same => exact iff_of_true notNew (.inl same)
    · next other => exact ⟨.inr, fun either => either.resolve_left other⟩
  have notParent : ∀ i p, nodes.parents i = some p → p ≠ t := by
    rintro i p parent rfl
    exact isNew (tree.parent_reached i p parent)
  have reachesT : P.Reaches P.startNode.state t := by
    have last := mem_labeledSuccessorNodes edge
    rw [target] at last
    exact (tree.reaches x reachedX).tail last
  have chains : ∀ i n, Rooted nodes.parents i n →
      ∃ n, Rooted (nodes.set t ⟨m, some x, status, isPreferred⟩).parents i n := by
    obtain ⟨n, rootedX⟩ := tree.rooted x reachedX
    refine @rooted_redirect nodes.parents _ (· ≠ t) t x (fun i p _ parent => notParent i p parent)
      different (fun ne => ne rfl) (fun j other => ?_) ?_ n rootedX
    · rw [SearchNodes.parents_set, if_neg other]
    · rw [SearchNodes.parents_set, if_pos rfl]
  constructor
  · exact (reached _).mpr (.inr tree.start_reached)
  · rw [SearchNodes.metric_set, if_neg]
    · exact tree.start_metric
    · rintro same
      exact isNew (same ▸ tree.start_reached)
  · intro i unreached
    rw [reached, not_or] at unreached
    rw [SearchNodes.parents_set, if_neg unreached.1]
    exact tree.unreached i unreached.2
  · intro i p parent
    rw [SearchNodes.parents_set] at parent
    split at parent
    · cases parent
      exact (reached _).mpr (.inr reachedX)
    · exact (reached _).mpr (.inr (tree.parent_reached i p parent))
  · intro i p parent
    rw [SearchNodes.parents_set] at parent
    split at parent
    · next same =>
        cases parent
        subst same
        refine ⟨step, ?_, ?_⟩
        · rw [SearchNodes.metric_set, if_neg different]
          exact edge
        · rw [SearchNodes.metric_set, if_pos rfl]
          exact target
    · next other =>
        obtain ⟨step, mem, node⟩ := tree.parent_edge i p parent
        rw [SearchNodes.metric_set, if_neg (notParent i p parent), SearchNodes.metric_set, if_neg other]
        exact ⟨step, mem, node⟩
  · intro i reachedI
    rcases (reached i).mp reachedI with rfl | before
    · exact chains i 0 (.root (tree.unreached i isNew))
    · obtain ⟨n, rooted⟩ := tree.rooted i before
      exact chains i n rooted
  · intro i reachedI noParent
    rw [SearchNodes.parents_set] at noParent
    split at noParent
    · cases noParent
    · next other => exact tree.root_only i (((reached i).mp reachedI).resolve_left other) noParent
  · intro i reachedI
    rcases (reached i).mp reachedI with rfl | before
    · exact reachesT
    · exact tree.reaches i before

/-- The plan to a reached state starts at the start node and can be executed. -/
theorem extractPlan_spec (tree : SearchTree P nodes) {t : Nat} (reached : nodes.Reached t) :
    ∃ plan, extractPlan P nodes ⟨t, nodes.metric t⟩ = some plan ∧ plan.startNode = P.startNode ∧
      Executes P.labeledSuccessorNodes P.startNode plan.labeledSuccNodes ⟨t, nodes.metric t⟩ := by
  obtain ⟨n, rooted⟩ := tree.rooted t reached
  have enough := rooted.bound fun i p parent => SearchNodes.inside_of_parent parent
  obtain ⟨root, tail, extracted, reachedRoot, noParent, chain, last⟩ := extractNodeTrajectory_spec
    (Q := nodes.Reached) (R := fun u v => ∃ step ∈ P.labeledSuccessorNodes u, step.node = v)
    (fun i p _ parent => ⟨tree.parent_reached i p parent, tree.parent_edge i p parent⟩)
    rooted enough reached [] (.singleton _)
  have start : (⟨root, nodes.metric root⟩ : Node) = P.startNode := by
    rw [tree.root_only root reachedRoot noParent, tree.start_metric]
  rw [start] at extracted chain last
  obtain ⟨_, executes⟩ := extractLabeled_executes chain
  refine ⟨⟨P.startNode, extractLabeledNodeTrajectory P.labeledSuccessorNodes P.startNode tail⟩,
    ?_, rfl, ?_⟩
  · unfold extractPlan
    rw [extracted]
    rfl
  · have atTarget : (P.startNode :: tail).getLast (List.cons_ne_nil _ _) = ⟨t, nodes.metric t⟩ := by
      rw [List.getLast?_eq_getLast_of_ne_nil (List.cons_ne_nil _ _)] at last
      simpa using last
    rw [← atTarget]
    exact executes

end SearchTree

/-! ### The loop invariant -/

/-- The invariant of the search loop. While a state is expanded it is `exempt`: it is
closed, but not all its successors have been reached. -/
structure SearchInvariant (P : SearchProblem Label) (exempt : Nat → Prop) (st : SearchState Rng H) :
    Prop where
  tree : SearchTree P st.searchNodes
  no_goal : ∀ i, (st.searchNodes.get i).status ≠ .goal
  reached_notGoal : ∀ i, st.searchNodes.Reached i → P.isGoal i = false
  passed : ∀ i, (st.searchNodes.get i).status = .closed → ¬ exempt i →
    ∀ t, P.Edge i t → st.searchNodes.Reached t
  deadEnd : ∀ i, (st.searchNodes.get i).status = .deadEnd → ∀ t, P.Reaches i t → P.isGoal t = false
  open_entry : ∀ i, (st.searchNodes.get i).status = .opened →
    ∃ entry ∈ st.openlist.entries, entry.state = i
  entry_reached : ∀ entry ∈ st.openlist.entries, st.searchNodes.Reached entry.state
  valid : st.openlist.Valid
  queues : st.openlist.queues.length = 2
  expanded_nodup : st.expanded.Nodup
  expanded_closed : ∀ i ∈ st.expanded,
    (st.searchNodes.get i).status = .closed ∨ (st.searchNodes.get i).status = .deadEnd

/-- The states that are not reached yet and the entries of the open list: what is left
to do if `states` are the states that can be reached. -/
noncomputable def remaining (states : Finset Nat) (st : SearchState Rng H) : Nat :=
  (states.filter fun i => (st.searchNodes.get i).status = .new).card + st.openlist.entries.length

/-- What a reported solution promises: the plan can be executed from the start node
and ends in a goal. -/
structure Solved (P : SearchProblem Label) (result : SearchResult Label) : Prop where
  status : result.status = .solved
  plan : ∃ plan goalNode, result.plan = some plan ∧ result.goalNode = some goalNode ∧
    plan.startNode = P.startNode ∧
    Executes P.labeledSuccessorNodes P.startNode plan.labeledSuccNodes goalNode ∧
    P.isGoal goalNode.state = true

variable {h : Heuristic H Label} {opts : Options Label Rng} {st : SearchState Rng H}

/-- How the state changes while the successors of `x` are handled. -/
structure Grows (states : Finset Nat) (x : Nat) (st st' : SearchState Rng H) : Prop where
  closed : (st'.searchNodes.get x).status = .closed
  metric : st'.searchNodes.metric x = st.searchNodes.metric x
  reached : ∀ i, st.searchNodes.Reached i → st'.searchNodes.Reached i
  expanded : st'.expanded = st.expanded
  remaining : remaining states st' = remaining states st

/-- Opening a state that is reached for the first time. -/
theorem SearchInvariant.open {x : Nat} {succ : LabeledNode Label}
    (inv : SearchInvariant P (· = x) st) (reachedX : st.searchNodes.Reached x)
    (closedX : (st.searchNodes.get x).status = .closed)
    (notReached : ¬ st.searchNodes.Reached succ.node.state)
    (edge : succ ∈ P.labeledSuccessorNodes ⟨x, st.searchNodes.metric x⟩)
    (notGoal : ¬ P.isGoal succ.node.state = true) {states : Finset Nat}
    (all : ∀ i, P.Reaches P.startNode.state i → i ∈ states) (isPreferred : Bool) (stateHValue : ℚ)
    (step : Nat) :
    SearchInvariant P (· = x)
        { st with
          searchNodes := st.searchNodes.set succ.node.state
            ⟨succ.node.metric, some x, .opened, isPreferred⟩
          openlist := st.openlist.insert (if isPreferred then preferredQueue else standardQueue)
            ⟨succ.node.metric, stateHValue, succ.node.state, step, .opened⟩
          step := st.step + 1 } ∧
      Grows states x st
        { st with
          searchNodes := st.searchNodes.set succ.node.state
            ⟨succ.node.metric, some x, .opened, isPreferred⟩
          openlist := st.openlist.insert (if isPreferred then preferredQueue else standardQueue)
            ⟨succ.node.metric, stateHValue, succ.node.state, step, .opened⟩
          step := st.step + 1 } ∧
      (st.searchNodes.set succ.node.state
        ⟨succ.node.metric, some x, .opened, isPreferred⟩).Reached succ.node.state := by
  have tree := inv.tree.openNode reachedX notReached edge rfl .opened (by decide) isPreferred
  have status : ∀ i, ((st.searchNodes.set succ.node.state
      ⟨succ.node.metric, some x, .opened, isPreferred⟩).get i).status =
      if i = succ.node.state then .opened else (st.searchNodes.get i).status :=
    fun i => SearchNodes.status_set _ _ _ _
  have isReached : (st.searchNodes.set succ.node.state
      ⟨succ.node.metric, some x, .opened, isPreferred⟩).Reached succ.node.state := by
    rw [SearchNodes.Reached, status, if_pos rfl]
    decide
  have grows : ∀ i, st.searchNodes.Reached i → (st.searchNodes.set succ.node.state
      ⟨succ.node.metric, some x, .opened, isPreferred⟩).Reached i := by
    intro i reached
    by_cases same : i = succ.node.state
    · rw [same]
      exact isReached
    · rw [SearchNodes.Reached, status, if_neg same]
      exact reached
  have different : x ≠ succ.node.state := fun same => notReached (same ▸ reachedX)
  have inside : (if isPreferred then preferredQueue else standardQueue) < st.openlist.queues.length := by
    rw [inv.queues]
    split <;> decide
  have entries := @AlternatingOpenList.insert_entries _ st.openlist _
    ⟨succ.node.metric, stateHValue, succ.node.state, step, .opened⟩ inside
  generalize (if isPreferred then preferredQueue else standardQueue) = queue at inside entries
  have openStates : states.filter (fun i => ((st.searchNodes.set succ.node.state
      ⟨succ.node.metric, some x, .opened, isPreferred⟩).get i).status = .new) =
      (states.filter fun i => (st.searchNodes.get i).status = .new).erase succ.node.state := by
    ext i
    rw [Finset.mem_erase, Finset.mem_filter, Finset.mem_filter, status]
    split
    · next same => simp [same]
    · next other => simp [other]
  have wasNew : succ.node.state ∈ states.filter fun i => (st.searchNodes.get i).status = .new := by
    refine Finset.mem_filter.mpr ⟨all _ (tree.reaches _ isReached), ?_⟩
    exact not_not.mp notReached
  refine ⟨⟨tree, ?_, ?_, ?_, ?_, ?_, ?_, inv.valid.insert _ _, ?_, inv.expanded_nodup, ?_⟩,
    ⟨?_, ?_, grows, rfl, ?_⟩, isReached⟩
  · intro i
    dsimp only
    rw [status]
    split
    · simp
    · exact inv.no_goal i
  · intro i reached
    by_cases same : i = succ.node.state
    · rw [same]
      exact Bool.eq_false_of_not_eq_true notGoal
    · apply inv.reached_notGoal
      rwa [SearchNodes.Reached, status, if_neg same] at reached
  · intro i closed notExempt t edge
    dsimp only at closed
    rw [status] at closed
    split at closed
    · cases closed
    · exact grows t (inv.passed i closed notExempt t edge)
  · intro i dead
    dsimp only at dead
    rw [status] at dead
    split at dead
    · cases dead
    · exact inv.deadEnd i dead
  · intro i isOpen
    dsimp only at isOpen ⊢
    rw [status] at isOpen
    split at isOpen
    · next same => exact ⟨_, entries.mem_iff.mpr List.mem_cons_self, same.symm⟩
    · obtain ⟨entry, mem, atI⟩ := inv.open_entry i isOpen
      exact ⟨entry, entries.mem_iff.mpr (List.mem_cons_of_mem _ mem), atI⟩
  · intro entry mem
    rcases List.mem_cons.mp (entries.mem_iff.mp mem) with rfl | before
    · exact isReached
    · exact grows _ (inv.entry_reached entry before)
  · rw [AlternatingOpenList.insert, List.length_set]
    exact inv.queues
  · intro i mem
    have before := inv.expanded_closed i mem
    have other : i ≠ succ.node.state := by
      rintro rfl
      apply notReached
      rcases before with status | status <;> rw [SearchNodes.Reached, status] <;> decide
    dsimp only
    rw [status, if_neg other]
    exact before
  · dsimp only
    rw [status, if_neg different]
    exact closedX
  · dsimp only
    rw [SearchNodes.metric_set, if_neg different]
  · unfold remaining
    dsimp only
    rw [openStates, Finset.card_erase_of_mem wasNew, entries.length_eq, List.length_cons]
    have positive := Finset.card_pos.mpr ⟨_, wasNew⟩
    omega

/-- Handling one successor of the state under expansion: the search ends with a
solution, or the successor is reached and the invariant is kept. -/
theorem SearchInvariant.openSuccessor {x : Nat} {stateHValue : ℚ} {succ : LabeledNode Label}
    (inv : SearchInvariant P (· = x) st) (closedX : (st.searchNodes.get x).status = .closed)
    (edge : succ ∈ P.labeledSuccessorNodes ⟨x, st.searchNodes.metric x⟩) {states : Finset Nat}
    (all : ∀ i, P.Reaches P.startNode.state i → i ∈ states) :
    (∃ result, openSuccessor P h x stateHValue st succ = .error ⟨result, st.expanded⟩ ∧
        Solved P result) ∨
      ∃ st', openSuccessor P h x stateHValue st succ = .ok st' ∧ SearchInvariant P (· = x) st' ∧
        Grows states x st st' ∧ st'.searchNodes.Reached succ.node.state := by
  have reachedX : st.searchNodes.Reached x := by
    rw [SearchNodes.Reached, closedX]
    exact nofun
  unfold GbfsLazy.openSuccessor
  by_cases isNew : (st.searchNodes.get succ.node.state).status = .new
  · have notReached : ¬ st.searchNodes.Reached succ.node.state := fun reached => reached isNew
    have different : succ.node.state ≠ x := by
      rintro same
      rw [same, closedX] at isNew
      cases isNew
    simp only [isNew, ne_eq, not_true_eq_false, if_false]
    generalize h.preferredActions st.heuristic succ.label = isPreferred
    by_cases isGoal : P.isGoal succ.node.state = true
    · left
      have tree := inv.tree.openNode reachedX notReached edge rfl .goal nofun isPreferred
      have reached : (st.searchNodes.set succ.node.state
          ⟨succ.node.metric, some x, .goal, isPreferred⟩).Reached succ.node.state := by
        rw [SearchNodes.Reached, SearchNodes.status_set, if_pos rfl]
        exact nofun
      obtain ⟨plan, extracted, start, executes⟩ := tree.extractPlan_spec reached
      have metric : (st.searchNodes.set succ.node.state
          ⟨succ.node.metric, some x, .goal, isPreferred⟩).metric succ.node.state = succ.node.metric := by
        rw [SearchNodes.metric_set, if_pos rfl]
        rfl
      rw [metric] at extracted executes
      rw [if_pos isGoal, extracted]
      exact ⟨_, rfl, rfl, plan, succ.node, rfl, rfl, start, executes, isGoal⟩
    · right
      rw [if_neg isGoal]
      exact ⟨_, rfl, inv.open reachedX closedX notReached edge isGoal all isPreferred _ _⟩
  · right
    simp only [ne_eq, isNew, not_false_eq_true, if_true]
    exact ⟨st, rfl, inv, ⟨closedX, rfl, fun _ reached => reached, rfl, rfl⟩, isNew⟩

/-- Handling all successors of the state under expansion. -/
theorem SearchInvariant.openSuccessors {x : Nat} {stateHValue : ℚ} {states : Finset Nat}
    (all : ∀ i, P.Reaches P.startNode.state i → i ∈ states) (succs : List (LabeledNode Label))
    {st : SearchState Rng H} (inv : SearchInvariant P (· = x) st)
    (closedX : (st.searchNodes.get x).status = .closed)
    (edges : ∀ succ ∈ succs, succ ∈ P.labeledSuccessorNodes ⟨x, st.searchNodes.metric x⟩) :
    (∃ result, succs.foldlM (GbfsLazy.openSuccessor P h x stateHValue) st =
        .error ⟨result, st.expanded⟩ ∧ Solved P result) ∨
      ∃ st', succs.foldlM (GbfsLazy.openSuccessor P h x stateHValue) st = .ok st' ∧
        SearchInvariant P (· = x) st' ∧ Grows states x st st' ∧
        ∀ succ ∈ succs, st'.searchNodes.Reached succ.node.state := by
  induction succs generalizing st with
  | nil =>
      right
      exact ⟨st, rfl, inv, ⟨closedX, rfl, fun _ reached => reached, rfl, rfl⟩, by simp⟩
  | cons succ rest ih =>
      rw [List.foldlM_cons]
      have handled := @SearchInvariant.openSuccessor _ _ _ P h st x stateHValue succ inv closedX
        (edges succ List.mem_cons_self) states all
      rcases handled with ⟨result, ends, solved⟩ | ⟨next, steps, invNext, grows, reached⟩
      · left
        rw [ends]
        exact ⟨result, rfl, solved⟩
      · rw [steps]
        have later := ih invNext grows.closed fun other mem => by
          rw [grows.metric]
          exact edges other (List.mem_cons_of_mem _ mem)
        rcases later with ⟨result, ends, solved⟩ | ⟨last, runs, invLast, growsLast, reachedRest⟩
        · left
          rw [grows.expanded] at ends
          exact ⟨result, ends, solved⟩
        · right
          refine ⟨last, runs, invLast, ?_, ?_⟩
          · exact ⟨growsLast.closed, growsLast.metric.trans grows.metric,
              fun i before => growsLast.reached i (grows.reached i before),
              growsLast.expanded.trans grows.expanded, growsLast.remaining.trans grows.remaining⟩
          · intro other mem
            rcases List.mem_cons.mp mem with rfl | later
            · exact growsLast.reached _ reached
            · exact reachedRest other later

/-- The states that are left to do do not change when a reached state gets another status. -/
theorem filter_setStatus {nodes : SearchNodes} {x : Nat} (reached : nodes.Reached x)
    {status : SearchNodeStatus} (notNew : status ≠ .new) (states : Finset Nat) :
    states.filter (fun i =>
        ((nodes.set x { nodes.get x with status := status }).get i).status = .new) =
      states.filter fun i => (nodes.get i).status = .new := by
  apply Finset.filter_congr
  intro i _
  rw [SearchNodes.status_set]
  split
  · next same =>
      subst same
      exact iff_of_false notNew reached
  · rfl

/-- Taking the entry of an open state and closing the state, or marking it as a dead end. -/
theorem SearchInvariant.close {x : Nat} {st' : SearchState Rng H}
    (inv : SearchInvariant P (fun _ => False) st) (opened : (st.searchNodes.get x).status = .opened)
    {entry : QueueEntry} (atX : entry.state = x)
    (perm : st.openlist.entries.Perm (entry :: st'.openlist.entries))
    (valid : st'.openlist.Valid) (queues : st'.openlist.queues.length = 2)
    {status : SearchNodeStatus}
    (ended : status = .closed ∨ status = .deadEnd ∧ ∀ t, P.Reaches x t → P.isGoal t = false)
    (nodes : st'.searchNodes = st.searchNodes.set x { st.searchNodes.get x with status := status })
    (expanded : st'.expanded = x :: st.expanded) (states : Finset Nat) :
    SearchInvariant P (· = x) st' ∧ remaining states st' + 1 = remaining states st := by
  have reachedX : st.searchNodes.Reached x := by
    rw [SearchNodes.Reached, opened]
    exact nofun
  have notNew : status ≠ .new := by
    rcases ended with rfl | ⟨rfl, _⟩ <;> exact nofun
  have statusAt : ∀ i, (st'.searchNodes.get i).status =
      if i = x then status else (st.searchNodes.get i).status := by
    intro i
    rw [nodes]
    exact SearchNodes.status_set _ _ _ _
  have reached : ∀ i, st'.searchNodes.Reached i ↔ st.searchNodes.Reached i := by
    intro i
    rw [SearchNodes.Reached, statusAt]
    split
    · next same =>
        subst same
        exact iff_of_true notNew reachedX
    · rfl
  refine ⟨⟨?_, ?_, ?_, ?_, ?_, ?_, ?_, valid, queues, ?_, ?_⟩, ?_⟩
  · rw [nodes]
    exact inv.tree.setStatus reachedX notNew
  · intro i
    rw [statusAt]
    split
    · rcases ended with rfl | ⟨rfl, _⟩ <;> exact nofun
    · exact inv.no_goal i
  · intro i reachedI
    exact inv.reached_notGoal i ((reached i).mp reachedI)
  · intro i closed notX t edge
    rw [statusAt, if_neg notX] at closed
    exact (reached t).mpr (inv.passed i closed not_false t edge)
  · intro i dead
    rw [statusAt] at dead
    split at dead
    · next same =>
        rcases ended with rfl | ⟨_, noGoal⟩
        · cases dead
        · rw [same]
          exact noGoal
    · exact inv.deadEnd i dead
  · intro i isOpen
    rw [statusAt] at isOpen
    split at isOpen
    · rcases ended with rfl | ⟨rfl, _⟩ <;> cases isOpen
    · next other =>
        obtain ⟨found, mem, atI⟩ := inv.open_entry i isOpen
        rcases List.mem_cons.mp (perm.mem_iff.mp mem) with rfl | later
        · exact absurd (atI.symm.trans atX) other
        · exact ⟨found, later, atI⟩
  · intro other mem
    exact (reached _).mpr (inv.entry_reached other (perm.mem_iff.mpr (List.mem_cons_of_mem _ mem)))
  · rw [expanded, List.nodup_cons]
    refine ⟨fun mem => ?_, inv.expanded_nodup⟩
    rcases inv.expanded_closed x mem with closed | dead
    · rw [opened] at closed
      cases closed
    · rw [opened] at dead
      cases dead
  · intro i mem
    rw [expanded] at mem
    rw [statusAt]
    rcases List.mem_cons.mp mem with rfl | before
    · rw [if_pos rfl]
      rcases ended with rfl | ⟨rfl, _⟩
      · exact .inl rfl
      · exact .inr rfl
    · split
      · rcases ended with rfl | ⟨rfl, _⟩
        · exact .inl rfl
        · exact .inr rfl
      · exact inv.expanded_closed i before
  · unfold remaining
    rw [nodes, filter_setStatus reachedX notNew, perm.length_eq, List.length_cons, Nat.add_assoc]

/-- An entry of a state that is not open is skipped. -/
theorem SearchInvariant.skip {st' : SearchState Rng H} (inv : SearchInvariant P (fun _ => False) st)
    {entry : QueueEntry} (notOpen : (st.searchNodes.get entry.state).status ≠ .opened)
    (perm : st.openlist.entries.Perm (entry :: st'.openlist.entries))
    (valid : st'.openlist.Valid) (queues : st'.openlist.queues.length = 2)
    (nodes : st'.searchNodes = st.searchNodes) (expanded : st'.expanded = st.expanded)
    (states : Finset Nat) :
    SearchInvariant P (fun _ => False) st' ∧ remaining states st' + 1 = remaining states st := by
  refine ⟨⟨?_, ?_, ?_, ?_, ?_, ?_, ?_, valid, queues, ?_, ?_⟩, ?_⟩
  · rw [nodes]
    exact inv.tree
  · rw [nodes]
    exact inv.no_goal
  · rw [nodes]
    exact inv.reached_notGoal
  · rw [nodes]
    exact inv.passed
  · rw [nodes]
    exact inv.deadEnd
  · rw [nodes]
    intro i isOpen
    obtain ⟨found, mem, atI⟩ := inv.open_entry i isOpen
    rcases List.mem_cons.mp (perm.mem_iff.mp mem) with rfl | later
    · exact absurd (atI ▸ isOpen) notOpen
    · exact ⟨found, later, atI⟩
  · rw [nodes]
    exact fun other mem => inv.entry_reached other (perm.mem_iff.mpr (List.mem_cons_of_mem _ mem))
  · rw [expanded]
    exact inv.expanded_nodup
  · rw [nodes, expanded]
    exact inv.expanded_closed
  · unfold remaining
    rw [nodes, perm.length_eq, List.length_cons, Nat.add_assoc]

/-! ### Weights -/

theorem valid_decay {openlist : AlternatingOpenList QueueEntry} (valid : openlist.Valid) :
    (decay openlist).Valid := ⟨valid.pos_lt⟩

section

variable (opts) (stateHValue : ℚ) (st : SearchState Rng H)

@[simp] theorem boost_searchNodes : (boost opts stateHValue st).searchNodes = st.searchNodes := by
  unfold boost
  split <;> rfl

@[simp] theorem boost_expanded : (boost opts stateHValue st).expanded = st.expanded := by
  unfold boost
  split <;> rfl

@[simp] theorem boost_queues : (boost opts stateHValue st).openlist.queues = st.openlist.queues := by
  unfold boost
  split <;> rfl

@[simp] theorem boost_entries : (boost opts stateHValue st).openlist.entries = st.openlist.entries := by
  rw [AlternatingOpenList.entries, boost_queues, ← AlternatingOpenList.entries]

theorem valid_boost (valid : st.openlist.Valid) : (boost opts stateHValue st).openlist.Valid := by
  refine ⟨?_⟩
  rw [boost_queues]
  unfold boost
  split <;> exact valid.pos_lt

end

/-! ### Iterations -/

theorem mem_orderedSuccessors {rng : Rng} {node : Node} {succ : LabeledNode Label} :
    succ ∈ (orderedSuccessors P opts rng node).1 ↔ succ ∈ P.labeledSuccessorNodes node := by
  unfold orderedSuccessors
  split
  · exact (opts.shuffle_perm _ _).mem_iff
  · rfl

/-- Closing an open state ends the search with a solution or keeps the invariant. -/
theorem SearchInvariant.closeState {states : Finset Nat}
    (all : ∀ i, P.Reaches P.startNode.state i → i ∈ states)
    (inv : SearchInvariant P (fun _ => False) st) {entry : QueueEntry}
    (opened : (st.searchNodes.get entry.state).status = .opened) {st' : SearchState Rng H}
    (perm : st.openlist.entries.Perm (entry :: st'.openlist.entries)) (valid : st'.openlist.Valid)
    (queues : st'.openlist.queues.length = 2) (nodes : st'.searchNodes = st.searchNodes)
    (expanded : st'.expanded = entry.state :: st.expanded) (stateHValue : ℚ) :
    (∃ result, GbfsLazy.closeState P h opts stateHValue st' entry.state =
        .error ⟨result, entry.state :: st.expanded⟩ ∧ Solved P result) ∨
      ∃ last, GbfsLazy.closeState P h opts stateHValue st' entry.state = .ok last ∧
        SearchInvariant P (fun _ => False) last ∧ remaining states last + 1 = remaining states st := by
  unfold GbfsLazy.closeState
  dsimp only
  set start : SearchState Rng H := { st' with
    searchNodes := st'.searchNodes.set entry.state
      { st'.searchNodes.get entry.state with status := .closed }
    rng := (orderedSuccessors P opts st'.rng ⟨entry.state, st'.searchNodes.metric entry.state⟩).2 }
    with startEq
  obtain ⟨kept, less⟩ := @SearchInvariant.close _ _ _ P st entry.state start inv opened entry rfl perm
    valid queues .closed (.inl rfl) (by rw [startEq, nodes]) expanded states
  have closed : (start.searchNodes.get entry.state).status = .closed := by
    rw [startEq, SearchNodes.status_set, if_pos rfl]
  have metric : start.searchNodes.metric entry.state = st'.searchNodes.metric entry.state := by
    rw [startEq, SearchNodes.metric_set, if_pos rfl]
    rfl
  have handled := @SearchInvariant.openSuccessors _ _ _ P h entry.state stateHValue states all
    (orderedSuccessors P opts st'.rng ⟨entry.state, st'.searchNodes.metric entry.state⟩).1 start kept
    closed fun succ mem => by
      rw [metric]
      exact mem_orderedSuccessors.mp mem
  rcases handled with ⟨result, ends, solved⟩ | ⟨last, runs, invLast, grows, reached⟩
  · left
    refine ⟨result, ?_, solved⟩
    rw [ends, startEq, expanded]
  · right
    refine ⟨last, runs, { invLast with passed := ?_ }, ?_⟩
    · intro i isClosed _ t edge
      by_cases same : i = entry.state
      · -- All successors of the closed state were handled.
        subst same
        obtain ⟨succ, mem, rfl⟩ := edge
        exact reached ⟨succ.1, ⟨succ.2.1, succ.2.2 (st'.searchNodes.metric entry.state)⟩⟩
          (mem_orderedSuccessors.mpr (List.mem_map.mpr ⟨succ, mem, rfl⟩))
      · exact invLast.passed i isClosed same t edge
    · rw [grows.remaining]
      exact less

/-- Expanding an open state ends the search with a solution or keeps the invariant. -/
theorem SearchInvariant.expand (safe : Safe P h) {states : Finset Nat}
    (all : ∀ i, P.Reaches P.startNode.state i → i ∈ states)
    (inv : SearchInvariant P (fun _ => False) st) {entry : QueueEntry}
    (opened : (st.searchNodes.get entry.state).status = .opened)
    {openlist : AlternatingOpenList QueueEntry}
    (perm : st.openlist.entries.Perm (entry :: openlist.entries)) (valid : openlist.Valid)
    (queues : openlist.queues.length = 2) :
    (∃ result, GbfsLazy.expand P h opts { st with openlist := decay openlist } entry.state =
        .error ⟨result, entry.state :: st.expanded⟩ ∧ Solved P result) ∨
      ∃ st', GbfsLazy.expand P h opts { st with openlist := decay openlist } entry.state = .ok st' ∧
        SearchInvariant P (fun _ => False) st' ∧ remaining states st' + 1 = remaining states st := by
  unfold GbfsLazy.expand
  dsimp only
  rcases evaluated : h.evaluate st.heuristic entry.state with ⟨none | value, heuristic⟩
  · right
    have noGoal := safe st.heuristic entry.state (by rw [evaluated]; rfl)
    obtain ⟨kept, less⟩ := @SearchInvariant.close _ _ _ P st entry.state
      ⟨st.searchNodes.set entry.state { st.searchNodes.get entry.state with status := .deadEnd },
        decay openlist, st.step, st.bestHValue, heuristic, st.rng, entry.state :: st.expanded⟩
      inv opened entry rfl perm (valid_decay valid) queues .deadEnd (.inr ⟨rfl, noGoal⟩) rfl rfl states
    refine ⟨_, rfl, { kept with passed := ?_ }, less⟩
    intro i closed _
    apply kept.passed i closed
    rintro rfl
    rw [SearchNodes.status_set, if_pos rfl] at closed
    cases closed
  · apply inv.closeState all opened
    · rw [boost_entries]
      exact perm
    · exact valid_boost _ _ _ (valid_decay valid)
    · rw [boost_queues]
      exact queues
    · exact boost_searchNodes ..
    · exact boost_expanded ..

/-- After an expansion the expanded states are still different. -/
theorem SearchInvariant.expanded_cons {x : Nat} (inv : SearchInvariant P (fun _ => False) st)
    (opened : (st.searchNodes.get x).status = .opened) : (x :: st.expanded).Nodup := by
  refine List.nodup_cons.mpr ⟨fun mem => ?_, inv.expanded_nodup⟩
  rcases inv.expanded_closed x mem with closed | dead
  · rw [opened] at closed
    cases closed
  · rw [opened] at dead
    cases dead

/-- When the open list is empty no goal can be reached. -/
theorem SearchInvariant.exhausted (inv : SearchInvariant P (fun _ => False) st)
    (empty : st.openlist.entries = []) {t : Nat} (reaches : P.Reaches P.startNode.state t) :
    P.isGoal t = false := by
  have explored : (st.searchNodes.Reached t ∧ (st.searchNodes.get t).status ≠ .deadEnd) ∨
      ∃ d, (st.searchNodes.get d).status = .deadEnd ∧ P.Reaches d t := by
    have split : ∀ i, st.searchNodes.Reached i →
        (st.searchNodes.Reached i ∧ (st.searchNodes.get i).status ≠ .deadEnd) ∨
          ∃ d, (st.searchNodes.get d).status = .deadEnd ∧ P.Reaches d i := by
      intro i reached
      by_cases dead : (st.searchNodes.get i).status = .deadEnd
      · exact .inr ⟨i, dead, .refl⟩
      · exact .inl ⟨reached, dead⟩
    induction reaches with
    | refl => exact split _ inv.tree.start_reached
    | @tail i t _ edge ih =>
        rcases ih with ⟨reached, alive⟩ | ⟨d, dead, below⟩
        · have closed : (st.searchNodes.get i).status = .closed := by
            cases status : (st.searchNodes.get i).status with
            | goal => exact absurd status (inv.no_goal i)
            | deadEnd => exact absurd status alive
            | closed => rfl
            | opened =>
                obtain ⟨entry, mem, _⟩ := inv.open_entry i status
                rw [empty] at mem
                cases mem
            | new => exact absurd status reached
          exact split t (inv.passed i closed not_false t edge)
        · exact .inr ⟨d, dead, below.tail edge⟩
  rcases explored with ⟨reached, _⟩ | ⟨d, dead, below⟩
  · exact inv.reached_notGoal t reached
  · exact inv.deadEnd d dead t below

/-! ### The search -/

/-- What a reported outcome promises: a solution is an executable plan to a goal, any
other status means that no goal can be reached, and no state is expanded twice. -/
structure CorrectOutcome (P : SearchProblem Label) (outcome : Outcome Label) : Prop where
  solved : outcome.result.status = .solved → Solved P outcome.result ∧ P.staticGoal = true
  noPlan : outcome.result.status ≠ .solved → ¬ ∃ steps t,
    Executes P.labeledSuccessorNodes P.startNode steps t ∧ P.staticGoal = true ∧
      P.isGoal t.state = true
  once : outcome.expanded.Nodup

theorem reaches_of_executes {u t : Node} {steps : List (LabeledNode Label)}
    (executes : Executes P.labeledSuccessorNodes u steps t) : P.Reaches u.state t.state := by
  induction executes with
  | nil => exact .refl
  | cons mem _ ih => exact .head (mem_labeledSuccessorNodes mem) ih

theorem correctOutcome_of_solved (staticGoal : P.staticGoal = true) {result : SearchResult Label}
    (solved : Solved P result) {expanded : List Nat} (once : expanded.Nodup) :
    CorrectOutcome P ⟨result, expanded⟩ :=
  ⟨fun _ => ⟨solved, staticGoal⟩, fun other => absurd solved.status other, once⟩

/-- Every outcome of the loop is correct, and with more iterations than there are
states and entries left there is one. -/
theorem searchLoop_complete (safe : Safe P h) {states : Finset Nat}
    (all : ∀ i, P.Reaches P.startNode.state i → i ∈ states) (staticGoal : P.staticGoal = true)
    (fuel : Nat) {st : SearchState Rng H} (inv : SearchInvariant P (fun _ => False) st) :
    (∀ outcome, searchLoop P h opts fuel st = some outcome → CorrectOutcome P outcome) ∧
      (remaining states st < fuel → ∃ outcome, searchLoop P h opts fuel st = some outcome) := by
  induction fuel generalizing st with
  | zero => exact ⟨fun _ returned => (nomatch returned), fun less => absurd less (Nat.not_lt_zero _)⟩
  | succ fuel ih =>
      unfold searchLoop
      cases popped : st.openlist.pop QueueEntry.le with
      | none =>
          have empty := inv.valid.pop_eq_none.mp popped
          refine ⟨?_, fun _ => ⟨_, rfl⟩⟩
          intro outcome returned
          cases returned
          refine ⟨fun solved => (nomatch solved), fun _ => ?_, inv.expanded_nodup⟩
          rintro ⟨steps, t, executes, _, isGoal⟩
          rw [inv.exhausted empty (reaches_of_executes executes)] at isGoal
          cases isGoal
      | some popped' =>
          obtain ⟨entry, openlist⟩ := popped'
          obtain ⟨perm, valid, sameLength, _⟩ := inv.valid.pop_entries popped
          have queues := sameLength.trans inv.queues
          dsimp only
          have skips : (st.searchNodes.get entry.state).status ≠ .opened →
              (∀ outcome, searchLoop P h opts fuel { st with openlist := decay openlist } =
                  some outcome → CorrectOutcome P outcome) ∧
                (remaining states st < fuel + 1 → ∃ outcome, searchLoop P h opts fuel
                  { st with openlist := decay openlist } = some outcome) := by
            intro notOpen
            obtain ⟨kept, less⟩ := @SearchInvariant.skip _ _ _ P st { st with openlist := decay openlist }
              inv entry notOpen perm (valid_decay valid) queues rfl rfl states
            obtain ⟨correct, ends⟩ := ih kept
            exact ⟨correct, fun enough => ends (by omega)⟩
          cases status : (st.searchNodes.get entry.state).status with
          | goal => exact absurd status (inv.no_goal _)
          | deadEnd => exact skips (by rw [status]; exact nofun)
          | closed => exact skips (by rw [status]; exact nofun)
          | new =>
              exact absurd status (inv.entry_reached entry (perm.mem_iff.mpr List.mem_cons_self))
          | opened =>
              dsimp only
              have expanded := @SearchInvariant.expand _ _ _ P h opts st safe states all inv entry status
                openlist perm valid queues
              rcases expanded with ⟨result, ends, solved⟩ | ⟨next, runs, kept, less⟩
              · rw [ends]
                refine ⟨?_, fun _ => ⟨_, rfl⟩⟩
                intro outcome returned
                cases returned
                exact correctOutcome_of_solved staticGoal solved (inv.expanded_cons status)
              · rw [runs]
                obtain ⟨correct, ends⟩ := ih kept
                exact ⟨correct, fun enough => ends (by omega)⟩

/-- The invariant holds before the first iteration. -/
theorem searchInvariant_start (notGoal : P.isGoal P.startNode.state = false) (startHValue : ℚ)
    (heuristic : H) :
    SearchInvariant P (fun _ => False) (initialSearchState P opts startHValue heuristic) := by
  have status : ∀ i, ((SearchNodes.set [] P.startNode.state
      ⟨P.startNode.metric, none, .opened, false⟩).get i).status =
      if i = P.startNode.state then .opened else .new := by
    intro i
    rw [SearchNodes.status_set]
    rfl
  have reached : ∀ i, (SearchNodes.set [] P.startNode.state
      ⟨P.startNode.metric, none, .opened, false⟩).Reached i ↔ i = P.startNode.state := by
    intro i
    rw [SearchNodes.Reached, status]
    split
    · next same => exact iff_of_true nofun same
    · next other => exact iff_of_false (fun ne => ne rfl) other
  have noParents : ∀ i, (SearchNodes.set [] P.startNode.state
      ⟨P.startNode.metric, none, .opened, false⟩).parents i = none := by
    intro i
    rw [SearchNodes.parents_set]
    split <;> rfl
  have tree : SearchTree P (SearchNodes.set [] P.startNode.state
      ⟨P.startNode.metric, none, .opened, false⟩) := by
    refine ⟨(reached _).mpr rfl, ?_, fun i _ => noParents i, ?_, ?_, fun i _ => ⟨0, .root (noParents i)⟩,
      fun i isReached _ => (reached i).mp isReached, ?_⟩
    · rw [SearchNodes.metric_set, if_pos rfl]
      rfl
    · intro i p parent
      rw [noParents] at parent
      cases parent
    · intro i p parent
      rw [noParents] at parent
      cases parent
    · intro i isReached
      rw [(reached i).mp isReached]
      exact .refl
  refine ⟨tree, ?_, ?_, ?_, ?_, ?_, ?_, ⟨Nat.zero_lt_two⟩, rfl, List.nodup_nil,
    by simp [initialSearchState]⟩
  · intro i
    dsimp only [initialSearchState]
    rw [status]
    split <;> exact nofun
  · intro i isReached
    rw [(reached i).mp isReached]
    exact notGoal
  · intro i closed
    dsimp only [initialSearchState] at closed
    rw [status] at closed
    split at closed <;> cases closed
  · intro i dead
    dsimp only [initialSearchState] at dead
    rw [status] at dead
    split at dead <;> cases dead
  · intro i isOpen
    dsimp only [initialSearchState] at isOpen
    rw [status] at isOpen
    split at isOpen
    · next same => exact ⟨_, List.mem_singleton_self _, same.symm⟩
    · cases isOpen
  · intro entry mem
    rw [List.mem_singleton.mp mem]
    exact (reached _).mpr rfl

/-- Lazy greedy best-first search is sound and complete: on a finite state space it
ends, and whatever it reports is correct. -/
theorem findSolution_complete (P : SearchProblem Label) (h : Heuristic H Label)
    (opts : Options Label Rng) (init : H) (safe : Safe P h)
    (finite : {s | P.Reaches P.startNode.state s}.Finite) :
    (∃ bound, ∀ fuel > bound, ∃ outcome, findSolution P h opts init fuel = some outcome) ∧
      ∀ fuel outcome, findSolution P h opts init fuel = some outcome → CorrectOutcome P outcome := by
  have noneTwice : ([] : List Nat).Nodup := List.nodup_nil
  have all : ∀ i, P.Reaches P.startNode.state i → i ∈ finite.toFinset :=
    fun i reaches => finite.mem_toFinset.mpr reaches
  by_cases staticGoal : P.staticGoal = true
  · by_cases isGoal : P.isGoal P.startNode.state = true
    · have returns : ∀ fuel, findSolution P h opts init fuel =
          some ⟨⟨.solved, some ⟨P.startNode, []⟩, some P.startNode⟩, []⟩ := by
        intro fuel
        simp [findSolution, staticGoal, isGoal]
      refine ⟨⟨0, fun fuel _ => ⟨_, returns fuel⟩⟩, fun fuel outcome returned => ?_⟩
      rw [returns fuel] at returned
      cases returned
      exact correctOutcome_of_solved staticGoal
        ⟨rfl, ⟨P.startNode, []⟩, P.startNode, rfl, rfl, rfl, .nil _, isGoal⟩ noneTwice
    · rcases evaluated : h.evaluate init P.startNode.state with ⟨none | value, heuristic⟩
      · have returns : ∀ fuel, findSolution P h opts init fuel =
            some ⟨⟨.unsolvable, none, none⟩, []⟩ := by
          intro fuel
          simp [findSolution, staticGoal, isGoal, evaluated]
        refine ⟨⟨0, fun fuel _ => ⟨_, returns fuel⟩⟩, fun fuel outcome returned => ?_⟩
        rw [returns fuel] at returned
        cases returned
        refine ⟨fun solved => (nomatch solved), fun _ => ?_, noneTwice⟩
        rintro ⟨steps, t, executes, _, goal⟩
        have noGoal := safe init P.startNode.state (by rw [evaluated]; rfl)
        rw [noGoal t.state (reaches_of_executes executes)] at goal
        cases goal
      · set start := initialSearchState P opts (canonicalize value) heuristic with startEq
        have inv : SearchInvariant P (fun _ => False) start :=
          searchInvariant_start (Bool.eq_false_of_not_eq_true isGoal) _ _
        have returns : ∀ fuel, findSolution P h opts init fuel = searchLoop P h opts fuel start := by
          intro fuel
          simp [findSolution, staticGoal, isGoal, evaluated, startEq]
        refine ⟨⟨remaining finite.toFinset start, fun fuel enough => ?_⟩, fun fuel outcome returned => ?_⟩
        · rw [returns fuel]
          exact (searchLoop_complete safe all staticGoal fuel inv).2 enough
        · rw [returns fuel] at returned
          exact (searchLoop_complete safe all staticGoal fuel inv).1 outcome returned
  · have returns : ∀ fuel, findSolution P h opts init fuel =
        some ⟨⟨.unsolvable, none, none⟩, []⟩ := by
      intro fuel
      simp [findSolution, staticGoal]
    refine ⟨⟨0, fun fuel _ => ⟨_, returns fuel⟩⟩, fun fuel outcome returned => ?_⟩
    rw [returns fuel] at returned
    cases returned
    refine ⟨fun solved => (nomatch solved), fun _ => ?_, noneTwice⟩
    rintro ⟨_, _, _, isStatic, _⟩
    exact staticGoal isStatic

/-! A path of four states to a goal, under a heuristic that finds better values along it
and whose preferred action in the first state leads to a dead end. -/

def detour : SearchProblem Bool where
  successors s :=
    if s = 0 then [(true, 1, (· + 1)), (false, 2, (· + 1))]
    else if s = 2 then [(true, 3, (· + 1))]
    else if s = 3 then [(false, 4, (· + 1))]
    else []
  staticGoal := true
  isGoal s := s == 4
  startNode := ⟨0, 0⟩

def distance : Heuristic Unit Bool where
  evaluate _ s := (if s = 1 then ⊤ else ((4 - s : ℚ) : WithTop ℚ), ())
  preferredActions _ label := label

def noShuffle : Options Bool Unit where
  boostPreferredQueue := 1000
  randomSeed := ()
  shuffleLabeledSuccNodes := false
  shuffle rng succs := (succs, rng)
  shuffle_perm _ succs := List.Perm.refl succs

theorem detour_successor {s : Nat} {succ : Bool × Nat × (ℚ → ℚ)} (mem : succ ∈ detour.successors s) :
    (s = 0 ∧ (succ.2.1 = 1 ∨ succ.2.1 = 2)) ∨ (s = 2 ∧ succ.2.1 = 3) ∨ (s = 3 ∧ succ.2.1 = 4) := by
  simp only [detour] at mem
  split_ifs at mem with start second third
  · rcases List.mem_pair.mp mem with rfl | rfl
    · exact .inl ⟨start, .inl rfl⟩
    · exact .inl ⟨start, .inr rfl⟩
  · rw [List.mem_singleton.mp mem]
    exact .inr (.inl ⟨second, rfl⟩)
  · rw [List.mem_singleton.mp mem]
    exact .inr (.inr ⟨third, rfl⟩)
  · cases mem

/-- The search passes the dead end, and then follows the better values to the goal. -/
theorem detour_complete :
    ((∃ bound, ∀ fuel > bound, ∃ outcome, findSolution detour distance noShuffle () fuel = some outcome) ∧
      ∀ fuel outcome, findSolution detour distance noShuffle () fuel = some outcome →
        CorrectOutcome detour outcome) ∧
      (findSolution detour distance noShuffle () 5).map (fun outcome =>
        (outcome.result.status, outcome.expanded)) = some (.solved, [3, 2, 1, 0]) := by
  refine ⟨findSolution_complete detour distance noShuffle () ?_ ?_, by decide +kernel⟩
  · intro state s infinite t reaches
    have deadEnd : s = 1 := by
      by_contra other
      simp only [distance, if_neg other] at infinite
      exact WithTop.coe_ne_top infinite
    cases reaches.cases_head with
    | inl same => rw [← same, deadEnd]; rfl
    | inr further =>
        obtain ⟨_, ⟨succ, mem, _⟩, _⟩ := further
        have successor := detour_successor mem
        omega
  · apply (Set.finite_le_nat 4).subset
    intro s reaches
    cases reaches with
    | refl => exact Nat.zero_le 4
    | tail _ edge =>
        obtain ⟨succ, mem, rfl⟩ := edge
        have successor := detour_successor mem
        change succ.2.1 ≤ 4
        omega

end Tyr.Planning.GbfsLazy
