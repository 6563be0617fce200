import Mathlib.Data.Prod.Lex
import Mathlib.Logic.Relation
import Mathlib.Order.WithBot
import Tyr.Common.FloatTolerance
import Tyr.Planning.OpenLists
import Tyr.Planning.SearchSpace

/-!
Lazy greedy best-first search.

A state is evaluated when it is taken from the open list. Its successors are tested
for the goal and enter one of two queues with the value of their parent, the
preferred ones the first and the others the second queue. Which queue is served is
decided by weights that grow when a better heuristic value is found.

`findSolution` is the search loop. `Tyr.Planning.GbfsLazyComplete` proves that it
terminates on finite state spaces, finds a plan if there is one, and expands each
state at most once.
-/

namespace Tyr.Planning.GbfsLazy

variable {Label Rng H : Type*}

/-! ### The search problem -/

/-- A task as the search sees it. Each successor of a state is a labelled target
state with the metric of its node, as a function of the metric of the parent. -/
structure SearchProblem (Label : Type*) where
  successors : Nat → List (Label × Nat × (ℚ → ℚ))
  staticGoal : Bool
  isGoal : Nat → Bool
  startNode : Node

namespace SearchProblem

variable (P : SearchProblem Label)

def labeledSuccessorNodes (node : Node) : List (LabeledNode Label) :=
  (P.successors node.state).map fun succ => ⟨succ.1, ⟨succ.2.1, succ.2.2 node.metric⟩⟩

/-- `t` is the target of a successor of `s`. -/
def Edge (s t : Nat) : Prop := ∃ succ ∈ P.successors s, succ.2.1 = t

/-- `t` can be reached from `s`. -/
def Reaches : Nat → Nat → Prop := Relation.ReflTransGen P.Edge

end SearchProblem

/-- A heuristic with its internal state; `⊤` marks a dead end. The preferred actions
are those of the state that was evaluated last. -/
structure Heuristic (H Label : Type*) where
  evaluate : H → Nat → WithTop ℚ × H
  preferredActions : H → Label → Bool

/-- The heuristic is infinite on dead ends only. The search tests the canonicalized
value: a finite double that canonicalizes to infinity counts as infinite. -/
def Safe (P : SearchProblem Label) (h : Heuristic H Label) : Prop :=
  ∀ state s, (h.evaluate state s).1 = ⊤ → ∀ t, P.Reaches s t → P.isGoal t = false

/-! ### Open list and search nodes -/

structure QueueEntry where
  gValue : ℚ
  hValue : ℚ
  state : Nat
  step : Nat
  status : SearchNodeStatus
deriving DecidableEq

/-- The numeric value of a status, the last component of the key. -/
def statusRank : SearchNodeStatus → Nat
  | .goal => 0
  | .deadEnd => 1
  | .closed => 2
  | .opened => 3
  | .new => 4

/-- Key order: heuristic value, metric, insertion step and status. -/
def QueueEntry.le (e e' : QueueEntry) : Prop :=
  toLex (e.hValue, toLex (e.gValue, toLex (e.step, statusRank e.status))) ≤
    toLex (e'.hValue, toLex (e'.gValue, toLex (e'.step, statusRank e'.status)))

instance : DecidableRel QueueEntry.le := fun e e' => by
  unfold QueueEntry.le
  infer_instance

/-- The queues of the open list. -/
def preferredQueue : Nat := 0

def standardQueue : Nat := 1

structure SearchNode where
  gValue : WithTop ℚ
  parentState : Option Nat
  status : SearchNodeStatus
  preferred : Bool

/-- The node of a state that has not been reached. -/
def SearchNode.default : SearchNode := ⟨⊤, none, .new, false⟩

/-- The search nodes, by state index; states beyond the end have the default node. -/
abbrev SearchNodes := List SearchNode

namespace SearchNodes

variable (nodes : SearchNodes)

/-- `get_or_create_search_node`, read. -/
def get (i : Nat) : SearchNode := nodes.getD i .default

/-- `get_or_create_search_node`, written: the vector grows up to index `i`. -/
def set (i : Nat) (node : SearchNode) : SearchNodes :=
  List.set (nodes ++ List.replicate (i + 1 - nodes.length) .default) i node

/-- The parents recorded in the search nodes. -/
def parents (i : Nat) : Option Nat := (nodes.get i).parentState

/-- The metric of a reached state as a number. -/
def metric (i : Nat) : ℚ := (nodes.get i).gValue.untopD 0

end SearchNodes

/-! ### The search -/

inductive SearchStatus where
  | solved
  | unsolvable
  | exhausted
deriving DecidableEq, Repr

structure SearchResult (Label : Type*) where
  status : SearchStatus
  plan : Option (Plan Label)
  goalNode : Option Node

/-- The search options that matter without limits and pruning. -/
structure Options (Label Rng : Type*) where
  boostPreferredQueue : Nat
  randomSeed : Rng
  shuffleLabeledSuccNodes : Bool
  shuffle : Rng → List (LabeledNode Label) → List (LabeledNode Label) × Rng
  shuffle_perm : ∀ rng succs, (shuffle rng succs).1.Perm succs

/-- The local variables of the loop. `expanded` lists the states whose expansion was
reported to the event handler, the last one first. -/
structure SearchState (Rng H : Type*) where
  searchNodes : SearchNodes
  openlist : AlternatingOpenList QueueEntry
  step : Nat
  bestHValue : ℚ
  heuristic : H
  rng : Rng
  expanded : List Nat

/-- What the search returns, and the states that it expanded. -/
structure Outcome (Label : Type*) where
  result : SearchResult Label
  expanded : List Nat

variable (P : SearchProblem Label) (h : Heuristic H Label) (opts : Options Label Rng)

/-- The plan along the parents of the node. -/
def extractPlan (nodes : SearchNodes) (node : Node) : Option (Plan Label) :=
  (extractNodeTrajectory nodes.parents nodes.metric nodes.length node.state [node]).bind
    (extractTotalOrderedPlan P.labeledSuccessorNodes)

/-- Handle one labelled successor of the state that is expanded; the search ends if
it is a goal. -/
def openSuccessor (state : Nat) (stateHValue : ℚ) (st : SearchState Rng H) (succ : LabeledNode Label) :
    Except (Outcome Label) (SearchState Rng H) :=
  let succState := succ.node.state
  let isPreferred := h.preferredActions st.heuristic succ.label
  if (st.searchNodes.get succState).status ≠ .new then .ok st
  else
    let node : SearchNode := ⟨succ.node.metric, some state, .opened, isPreferred⟩
    if P.isGoal succState then
      let nodes := st.searchNodes.set succState { node with status := .goal }
      .error ⟨⟨.solved, extractPlan P nodes succ.node, some succ.node⟩, st.expanded⟩
    else
      let entry : QueueEntry := ⟨succ.node.metric, stateHValue, succState, st.step, node.status⟩
      .ok { st with
        searchNodes := st.searchNodes.set succState node
        openlist := st.openlist.insert (if isPreferred then preferredQueue else standardQueue) entry
        step := st.step + 1 }

/-- The labelled successors of a node in the order in which they are handled. -/
def orderedSuccessors (rng : Rng) (node : Node) : List (LabeledNode Label) × Rng :=
  if opts.shuffleLabeledSuccNodes then opts.shuffle rng (P.labeledSuccessorNodes node)
  else (P.labeledSuccessorNodes node, rng)

/-- The weight of the preferred queue decays with each entry that is taken. -/
def decay (openlist : AlternatingOpenList QueueEntry) : AlternatingOpenList QueueEntry :=
  { openlist with weights := openlist.weights.modify preferredQueue fun weight => max (weight - 1) 1 }

/-- The weight of the preferred queue grows with each better heuristic value. -/
def boost (stateHValue : ℚ) (st : SearchState Rng H) : SearchState Rng H :=
  if stateHValue < st.bestHValue then
    { st with
      bestHValue := stateHValue
      openlist := { st.openlist with
        weights := st.openlist.weights.modify preferredQueue (· + opts.boostPreferredQueue) } }
  else st

/-- Close a state and handle its successors. -/
def closeState (stateHValue : ℚ) (st : SearchState Rng H) (state : Nat) :
    Except (Outcome Label) (SearchState Rng H) :=
  let searchNode := st.searchNodes.get state
  let (succs, rng) := orderedSuccessors P opts st.rng ⟨state, st.searchNodes.metric state⟩
  succs.foldlM (openSuccessor P h state stateHValue)
    { st with
      searchNodes := st.searchNodes.set state { searchNode with status := .closed }
      rng := rng }

/-- Evaluate an open state; it is a dead end or it is closed. -/
def expand (st : SearchState Rng H) (state : Nat) : Except (Outcome Label) (SearchState Rng H) :=
  let searchNode := st.searchNodes.get state
  match h.evaluate st.heuristic state with
  | (none, heuristic) =>
      .ok { st with
        searchNodes := st.searchNodes.set state { searchNode with status := .deadEnd }
        heuristic
        expanded := state :: st.expanded }
  | (some value, heuristic) =>
      let stateHValue := canonicalize value
      closeState P h opts stateHValue
        (boost opts stateHValue { st with heuristic, expanded := state :: st.expanded }) state

/-- The search loop, for at most `fuel` iterations. -/
def searchLoop : (fuel : Nat) → SearchState Rng H → Option (Outcome Label)
  | 0, _ => none
  | fuel + 1, st =>
      match st.openlist.pop QueueEntry.le with
      | none => some ⟨⟨.exhausted, none, none⟩, st.expanded⟩
      | some (entry, openlist) =>
          let st := { st with openlist := decay openlist }
          match (st.searchNodes.get entry.state).status with
          | .closed | .deadEnd => searchLoop fuel st
          | .goal | .opened | .new =>
              match expand P h opts st entry.state with
              | .error outcome => some outcome
              | .ok st => searchLoop fuel st

/-- The variables before the first iteration: the open list has an entry for the
start node. -/
def initialSearchState (startHValue : ℚ) (heuristic : H) : SearchState Rng H where
  searchNodes := SearchNodes.set [] P.startNode.state ⟨P.startNode.metric, none, .opened, false⟩
  openlist :=
    { queues := [[], [⟨P.startNode.metric, startHValue, P.startNode.state, 0, .opened⟩]]
      weights := [1, 1]
      pos := 0
      count := 0 }
  step := 1
  bestHValue := startHValue
  heuristic := heuristic
  rng := opts.randomSeed
  expanded := []

/-- `find_solution` without pruning and limits, for a heuristic in the state `init`. -/
def findSolution (init : H) (fuel : Nat) : Option (Outcome Label) :=
  let start := P.startNode
  let (value, heuristic) := h.evaluate init start.state
  if !P.staticGoal then some ⟨⟨.unsolvable, none, none⟩, []⟩
  else if P.isGoal start.state then some ⟨⟨.solved, some ⟨start, []⟩, some start⟩, []⟩
  else
    match value with
    | none => some ⟨⟨.unsolvable, none, none⟩, []⟩
    | some value =>
        searchLoop P h opts fuel (initialSearchState P opts (canonicalize value) heuristic)

end Tyr.Planning.GbfsLazy
