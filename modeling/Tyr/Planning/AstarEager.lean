import Tyr.Common.FloatTolerance
import Tyr.Lib.GrowingList
import Tyr.Lib.WeightedPath
import Tyr.Planning.SearchSpace
import Mathlib.Order.WithBot
import Mathlib.Data.List.Sort

/-!
Eager A* search.

`findSolution` is the search loop over an open list ordered by `f` values, with
reopening of closed states, stale open-list entries and dead ends. The successor
order and the choice among open-list entries of equal priority are left open.

`Tyr.Planning.AstarInvariant` states and proves the loop invariant, and
`Tyr.Planning.AstarOptimal` derives from it that reported plans are optimal.
-/

namespace Tyr.Planning.AstarEager

open Tyr.Lib

variable {Label Rng : Type*}

/-! ### The search problem -/

/-- A task as the search sees it. Each successor of a state is a labelled target
state with the cost of its action; the costs and the start metric are canonical
numbers, so that node metrics are exact sums of costs. -/
structure SearchProblem (Label : Type*) where
  successors : Nat → List (Label × Nat × ℚ)
  staticGoal : Bool
  isGoal : Nat → Bool
  startNode : Node
  cost_nonneg : ∀ s l t c, (l, t, c) ∈ successors s → 0 ≤ c
  cost_canonical : ∀ s l t c, (l, t, c) ∈ successors s → IsCanonical c
  start_canonical : IsCanonical startNode.metric

/-- Labelled successor nodes: the metric increases by the cost of the action. -/
def SearchProblem.labeledSuccessorNodes (P : SearchProblem Label) (node : Node) :
    List (LabeledNode Label) :=
  (P.successors node.state).map fun succ =>
    ⟨succ.1, ⟨succ.2.1, canonicalize (node.metric + succ.2.2)⟩⟩

/-- A state-dependent heuristic; `⊤` marks a dead end. -/
abbrev Heuristic := Nat → WithTop ℚ

/-- `h` never exceeds the cost of a plan from its state, and is not negative. -/
structure Admissible (P : SearchProblem Label) (h : Heuristic) : Prop where
  nonneg : ∀ s, 0 ≤ h s
  le_cost : ∀ s t c, Path P.successors s t c → P.isGoal t = true → h s ≤ (c : WithTop ℚ)

/-! ### The open list -/

/-- An open-list entry; its key is the pair of `f` value and status. -/
structure QueueEntry where
  fValue : ℚ
  state : Nat
  status : SearchNodeStatus
deriving DecidableEq

/-- The numeric value of a status, the second component of the key. -/
def SearchNodeStatus.rank : SearchNodeStatus → Nat
  | .goal => 0
  | .deadEnd => 1
  | .closed => 2
  | .opened => 3
  | .new => 4

/-- Key order: `f` value first, then status. -/
def QueueEntry.le (e e' : QueueEntry) : Prop :=
  e.fValue < e'.fValue ∨
    (e.fValue = e'.fValue ∧ SearchNodeStatus.rank e.status ≤ SearchNodeStatus.rank e'.status)

instance (e e' : QueueEntry) : Decidable (e.le e') := by
  unfold QueueEntry.le
  infer_instance

/-- A priority queue removes some entry with a smallest key; which one among
equal keys is not specified. -/
structure PriorityQueue where
  pop : List QueueEntry → Option (QueueEntry × List QueueEntry)
  pop_none : ∀ queue, pop queue = none → queue = []
  pop_some : ∀ queue e rest, pop queue = some (e, rest) →
    queue.Perm (e :: rest) ∧ ∀ e' ∈ queue, e.le e'

theorem QueueEntry.le_total (e e' : QueueEntry) : e.le e' ∨ e'.le e := by
  unfold QueueEntry.le
  rcases lt_trichotomy e.fValue e'.fValue with lt | eq | gt
  · exact .inl (.inl lt)
  · rcases Nat.le_total (SearchNodeStatus.rank e.status) (SearchNodeStatus.rank e'.status) with le | le
    · exact .inl (.inr ⟨eq, le⟩)
    · exact .inr (.inr ⟨eq.symm, le⟩)
  · exact .inr (.inl gt)

theorem QueueEntry.le_trans {e₁ e₂ e₃ : QueueEntry} (first : e₁.le e₂) (second : e₂.le e₃) :
    e₁.le e₃ := by
  unfold QueueEntry.le at *
  rcases first with lt | ⟨eq, le⟩ <;> rcases second with lt' | ⟨eq', le'⟩
  · exact .inl (lt.trans lt')
  · exact .inl (eq' ▸ lt)
  · exact .inl (eq ▸ lt')
  · exact .inr ⟨eq.trans eq', le.trans le'⟩

instance : Std.Total QueueEntry.le := ⟨QueueEntry.le_total⟩

instance : IsTrans QueueEntry QueueEntry.le := ⟨fun _ _ _ => QueueEntry.le_trans⟩

/-- The priority queue that removes the first of the entries with a smallest key. -/
def PriorityQueue.stable : PriorityQueue where
  pop queue :=
    match queue.insertionSort QueueEntry.le with
    | [] => none
    | entry :: rest => some (entry, rest)
  pop_none queue empty := by
    have perm := List.perm_insertionSort QueueEntry.le queue
    cases sorted : queue.insertionSort QueueEntry.le with
    | nil =>
        rw [sorted] at perm
        exact perm.symm.eq_nil
    | cons entry rest => simp [sorted] at empty
  pop_some queue e rest popped := by
    have perm := List.perm_insertionSort QueueEntry.le queue
    have ordered := List.pairwise_insertionSort QueueEntry.le queue
    cases sorted : queue.insertionSort QueueEntry.le with
    | nil => simp [sorted] at popped
    | cons entry rest' =>
        simp only [sorted, Option.some.injEq, Prod.mk.injEq] at popped
        obtain ⟨rfl, rfl⟩ := popped
        rw [sorted] at perm ordered
        refine ⟨perm.symm, fun e' mem => ?_⟩
        rcases List.mem_cons.mp (perm.mem_iff.mpr mem) with rfl | later
        · exact (QueueEntry.le_total _ _).elim id id
        · exact (List.pairwise_cons.mp ordered).1 e' later

/-- The search options that matter without limits and pruning. -/
structure Options (Label Rng : Type*) where
  queue : PriorityQueue
  shuffleLabeledSuccNodes : Bool
  randomSeed : Rng
  shuffle : Rng → List (LabeledNode Label) → List (LabeledNode Label) × Rng
  shuffle_perm : ∀ rng succs, (shuffle rng succs).1.Perm succs

/-! ### Search nodes -/

/-- The best known metric of a state, its parent and its status. -/
structure SearchNode where
  gValue : WithTop ℚ
  parentState : Option Nat
  status : SearchNodeStatus

/-- The node of a state that has not been reached. -/
def SearchNode.default : SearchNode := ⟨⊤, none, .new⟩

/-- The search nodes, by state index; states beyond the end have the default node. -/
abbrev SearchNodes := List SearchNode

/-- `get_or_create_search_node`, read. -/
def SearchNodes.get (nodes : SearchNodes) (i : Nat) : SearchNode := nodes.getD i .default

/-- `get_or_create_search_node`, written: the vector grows up to index `i`. -/
def SearchNodes.set (nodes : SearchNodes) (i : Nat) (node : SearchNode) : SearchNodes :=
  List.set (nodes ++ List.replicate (i + 1 - nodes.length) .default) i node

theorem SearchNodes.get_set (nodes : SearchNodes) (i j : Nat) (node : SearchNode) :
    (nodes.set i node).get j = if j = i then node else nodes.get j :=
  Lib.getD_set_grow nodes .default i j node

/-- The parents recorded in the search nodes. -/
def SearchNodes.parents (nodes : SearchNodes) (i : Nat) : Option Nat := (nodes.get i).parentState

/-- The metric of a reached state as a number. -/
def SearchNodes.metric (nodes : SearchNodes) (i : Nat) : ℚ := (nodes.get i).gValue.untopD 0

/-- A node other than the default one lies inside the vector. -/
theorem SearchNodes.inside_of_parent {nodes : SearchNodes} {i p : Nat}
    (parent : nodes.parents i = some p) : i < nodes.length := by
  by_contra outside
  unfold SearchNodes.parents SearchNodes.get at parent
  rw [List.getD_eq_getElem?_getD, List.getElem?_eq_none (not_lt.mp outside)] at parent
  cases parent

/-! ### The search -/

/-- The outcome of a search; `exhausted` means that the open list ran empty. -/
inductive SearchStatus where
  | solved
  | unsolvable
  | exhausted
deriving DecidableEq, Repr

structure SearchResult (Label : Type*) where
  status : SearchStatus
  plan : Option (Plan Label)
  goalNode : Option Node

/-- The local variables of the loop. -/
structure SearchState (Rng : Type*) where
  searchNodes : SearchNodes
  openlist : List QueueEntry
  rng : Rng

/-- The canonicalized heuristic value. -/
def hValue (h : Heuristic) (s : Nat) : WithTop ℚ := (h s).map canonicalize

variable (P : SearchProblem Label) (h : Heuristic)

/-- Handle one labelled successor of the expanded state `parent`. -/
def relaxSuccessor (parent : Nat) (st : SearchState Rng) (succ : LabeledNode Label) :
    SearchState Rng :=
  let succState := succ.node.state
  if (succ.node.metric : WithTop ℚ) < (st.searchNodes.get succState).gValue then
    match hValue h succState with
    | none =>
        let node : SearchNode := ⟨succ.node.metric, some parent, .deadEnd⟩
        { st with searchNodes := st.searchNodes.set succState node }
    | some value =>
        let status := if P.isGoal succState then SearchNodeStatus.goal else .opened
        let node : SearchNode := ⟨succ.node.metric, some parent, status⟩
        { st with
          searchNodes := st.searchNodes.set succState node
          openlist := ⟨canonicalize (succ.node.metric + value), succState, status⟩ :: st.openlist }
  else st

/-- The labelled successors of a node in the order in which they are handled. -/
def orderedSuccessors (opts : Options Label Rng) (rng : Rng) (node : Node) :
    List (LabeledNode Label) × Rng :=
  if opts.shuffleLabeledSuccNodes then opts.shuffle rng (P.labeledSuccessorNodes node)
  else (P.labeledSuccessorNodes node, rng)

/-- Close `state` and handle its successors. -/
def expand (opts : Options Label Rng) (st : SearchState Rng) (state : Nat) : SearchState Rng :=
  let node : Node := ⟨state, st.searchNodes.metric state⟩
  let searchNode := st.searchNodes.get state
  let (succs, rng) := orderedSuccessors P opts st.rng node
  succs.foldl (relaxSuccessor P h state)
    { st with
      searchNodes := st.searchNodes.set state { searchNode with status := .closed }
      rng := rng }

/-- The nodes along the parents of `state`. -/
def nodeTrajectory (nodes : SearchNodes) (state : Nat) : Option (List Node) :=
  extractNodeTrajectory nodes.parents nodes.metric nodes.length state [⟨state, nodes.metric state⟩]

/-- The plan to `state`, extracted from the parents. -/
def extractPlan (nodes : SearchNodes) (state : Nat) : Option (Plan Label) :=
  (nodeTrajectory nodes state).bind (extractTotalOrderedPlan P.labeledSuccessorNodes)

/-- The search loop, for at most `fuel` iterations. A result comes with the
search nodes at its return. -/
def searchLoop (opts : Options Label Rng) :
    (fuel : Nat) → SearchState Rng → Option (SearchResult Label × SearchNodes)
  | 0, _ => none
  | fuel + 1, st =>
      match opts.queue.pop st.openlist with
      | none => some (⟨.exhausted, none, none⟩, st.searchNodes)
      | some (entry, rest) =>
          let popped := { st with openlist := rest }
          match (st.searchNodes.get entry.state).status with
          | .closed | .deadEnd => searchLoop opts fuel popped
          | .goal =>
              let node : Node := ⟨entry.state, st.searchNodes.metric entry.state⟩
              some (⟨.solved, extractPlan P st.searchNodes entry.state, some node⟩, st.searchNodes)
          | .opened | .new => searchLoop opts fuel (expand P h opts popped entry.state)

/-- The status of the start state. -/
def startStatus : SearchNodeStatus :=
  match hValue h P.startNode.state with
  | none => .deadEnd
  | some _ => .opened

/-- `find_solution` without pruning and limits. -/
def findSolution (opts : Options Label Rng) (fuel : Nat) :
    Option (SearchResult Label × SearchNodes) :=
  let start := P.startNode
  let nodes := SearchNodes.set [] start.state ⟨start.metric, none, startStatus P h⟩
  if !P.staticGoal then some (⟨.unsolvable, none, none⟩, nodes)
  else if P.isGoal start.state then some (⟨.solved, some ⟨start, []⟩, some start⟩, nodes)
  else
    match hValue h start.state with
    | none => some (⟨.unsolvable, none, none⟩, nodes)
    | some value =>
        searchLoop P h opts fuel
          ⟨nodes, [⟨canonicalize (start.metric + value), start.state, .opened⟩], opts.randomSeed⟩

end Tyr.Planning.AstarEager
