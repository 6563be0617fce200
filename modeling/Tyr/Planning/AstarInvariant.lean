import Tyr.Lib.Fold
import Tyr.Planning.AstarEager

/-!
The loop invariant of eager A*.

Closed states have passed their `g` value on to their successors, every open
state has an open-list entry for its current `f` value, and the recorded parents
form a tree whose edges are at most as expensive as recorded, and exactly so
below closed parents (`SearchInvariant`).

* `SearchInvariant.relax` — relaxing one edge of the state under expansion.
* `SearchInvariant.close`, `SearchInvariant.finish` — the ends of an expansion.
* `SearchInvariant.expand` — expanding a state keeps the invariant.
-/

namespace Tyr.Planning.AstarEager

open Tyr.Lib

variable {Label Rng : Type*} (P : SearchProblem Label) (h : Heuristic)

/-! ### The loop invariant -/

/-- The invariant of the search loop. While a state is being expanded it is
`exempt`: it is closed, but not all its successors have been handled. -/
structure SearchInvariant (exempt : Nat → Prop) (nodes : SearchNodes) (openlist : List QueueEntry) :
    Prop where
  start_root : nodes.parents P.startNode.state = none ∧
    (nodes.get P.startNode.state).status ≠ .new ∧ nodes.metric P.startNode.state = P.startNode.metric
  start_least : ∀ i, (nodes.get i).status ≠ .new → P.startNode.metric ≤ nodes.metric i
  reached : ∀ i, (nodes.get i).status ≠ .new → (nodes.get i).gValue = (nodes.metric i : WithTop ℚ)
  unreached : ∀ i, (nodes.get i).status = .new →
    (nodes.get i).gValue = ⊤ ∧ nodes.parents i = none
  canonical : ∀ i, (nodes.get i).status ≠ .new → IsCanonical (nodes.metric i)
  parent_status : ∀ i p, nodes.parents i = some p →
    (nodes.get p).status = .closed ∨ (nodes.get p).status = .opened
  parent_edge : ∀ i p, nodes.parents i = some p → ∃ l c, (l, i, c) ∈ P.successors p ∧
    nodes.metric p + c ≤ nodes.metric i ∧
    ((nodes.get p).status = .closed → ¬ exempt p → nodes.metric p + c = nodes.metric i)
  rooted : ∀ i, (nodes.get i).status ≠ .new → ∃ n, Rooted nodes.parents i n
  root_only : ∀ i, (nodes.get i).status ≠ .new → nodes.parents i = none → i = P.startNode.state
  passed : ∀ x, (nodes.get x).status = .closed → ¬ exempt x → ∀ l t c, (l, t, c) ∈ P.successors x →
    (nodes.get t).status ≠ .new ∧ nodes.metric t ≤ nodes.metric x + c
  goal_isGoal : ∀ i, (nodes.get i).status = .goal → P.isGoal i = true
  expanded_notGoal : ∀ i, (nodes.get i).status = .closed ∨ (nodes.get i).status = .opened →
    P.isGoal i = false
  deadEnd_iff : ∀ i, (nodes.get i).status ≠ .new →
    ((nodes.get i).status = .deadEnd ↔ hValue h i = ⊤)
  open_entry : ∀ i, (nodes.get i).status = .opened ∨ (nodes.get i).status = .goal →
    ∃ v : ℚ, hValue h i = v ∧ ∃ e ∈ openlist, e.state = i ∧
      e.fValue = canonicalize (nodes.metric i + v)
  entry_bound : ∀ e ∈ openlist, (nodes.get e.state).status ≠ .new ∧
    ∀ v : ℚ, hValue h e.state = v → canonicalize (nodes.metric e.state + v) ≤ e.fValue

variable {P h}

theorem SearchNodes.metric_set (nodes : SearchNodes) (i j : Nat) (node : SearchNode) :
    (nodes.set i node).metric j = if j = i then node.gValue.untopD 0 else nodes.metric j := by
  unfold SearchNodes.metric
  rw [SearchNodes.get_set]
  split <;> rfl

theorem SearchNodes.parents_set (nodes : SearchNodes) (i j : Nat) (node : SearchNode) :
    (nodes.set i node).parents j = if j = i then node.parentState else nodes.parents j := by
  unfold SearchNodes.parents
  rw [SearchNodes.get_set]
  split <;> rfl

/-- The new status of a relaxed successor together with its open-list entry. -/
def RelaxedAs (P : SearchProblem Label) (h : Heuristic) (t : Nat) (m : ℚ) (status : SearchNodeStatus)
    (openlist openlist' : List QueueEntry) : Prop :=
  (hValue h t = ⊤ ∧ status = .deadEnd ∧ openlist' = openlist) ∨
  ∃ v : ℚ, hValue h t = v ∧ status = (if P.isGoal t then .goal else .opened) ∧
    openlist' = ⟨canonicalize (m + v), t, status⟩ :: openlist

/-- Relaxing the edge from the state `x` under expansion to `t` keeps the
invariant. -/
theorem SearchInvariant.relax {nodes : SearchNodes} {openlist openlist' : List QueueEntry} {x t : Nat}
    {l : Label} {c : ℚ} {status : SearchNodeStatus}
    (inv : SearchInvariant P h (· = x) nodes openlist) (closedX : (nodes.get x).status = .closed)
    (edge : (l, t, c) ∈ P.successors x)
    (cheaper : ((nodes.metric x + c : ℚ) : WithTop ℚ) < (nodes.get t).gValue)
    (as : RelaxedAs P h t (nodes.metric x + c) status openlist openlist') :
    SearchInvariant P h (· = x)
      (nodes.set t ⟨((nodes.metric x + c : ℚ) : WithTop ℚ), some x, status⟩) openlist' := by
  have nonneg := P.cost_nonneg x l t c edge
  have notNewX : (nodes.get x).status ≠ .new := by rw [closedX]; exact fun same => by cases same
  have decrease : (nodes.get t).status ≠ .new → nodes.metric x + c < nodes.metric t := by
    intro notNew
    rw [inv.reached t notNew] at cheaper
    exact WithTop.coe_lt_coe.mp cheaper
  have different : t ≠ x := by
    rintro rfl
    have := decrease notNewX
    linarith
  have notStart : t ≠ P.startNode.state := by
    rintro rfl
    have := decrease inv.start_root.2.1
    have := inv.start_least x notNewX
    rw [inv.start_root.2.2] at *
    linarith
  have statusNotNew : status ≠ .new := by
    rcases as with ⟨_, rfl, _⟩ | ⟨_, _, rfl, _⟩
    · exact fun same => by cases same
    · split <;> exact fun same => by cases same
  have statusNotClosed : status ≠ .closed := by
    rcases as with ⟨_, rfl, _⟩ | ⟨_, _, rfl, _⟩
    · exact fun same => by cases same
    · split <;> exact fun same => by cases same
  -- A parent has a finite heuristic value and is no goal, so it is reopened.
  have reopened : (nodes.get t).status = .closed ∨ (nodes.get t).status = .opened →
      status = .opened := by
    intro wasExpanded
    have notGoal := inv.expanded_notGoal t wasExpanded
    have notNew : (nodes.get t).status ≠ .new := by
      rcases wasExpanded with same | same <;> rw [same] <;> exact fun bad => by cases bad
    rcases as with ⟨dead, _, _⟩ | ⟨_, _, rfl, _⟩
    · have := (inv.deadEnd_iff t notNew).mpr dead
      rcases wasExpanded with same | same <;> rw [same] at this <;> cases this
    · rw [notGoal]
      rfl
  have keepsEntries : ∀ e ∈ openlist, e ∈ openlist' := by
    intro e mem
    rcases as with ⟨_, _, rfl⟩ | ⟨_, _, _, rfl⟩
    · exact mem
    · exact List.mem_cons_of_mem _ mem
  refine
    { start_root := ?_, start_least := fun i => ?_, reached := fun i => ?_, unreached := fun i => ?_
      canonical := fun i => ?_, parent_status := fun i p => ?_, parent_edge := fun i p => ?_
      rooted := fun i => ?_, root_only := fun i => ?_, passed := fun y => ?_
      goal_isGoal := fun i => ?_, expanded_notGoal := fun i => ?_, deadEnd_iff := fun i => ?_
      open_entry := fun i => ?_, entry_bound := fun e mem => ?_ }
  all_goals simp only [SearchNodes.get_set, SearchNodes.metric_set, SearchNodes.parents_set]
  · simp only [notStart.symm, if_false]
    exact inv.start_root
  · split
    case isTrue same =>
      intro _
      have := inv.start_least x notNewX
      simp only [WithTop.untopD_coe]
      linarith
    case isFalse => exact inv.start_least i
  · split
    case isTrue => exact fun _ => rfl
    case isFalse => exact inv.reached i
  · split
    case isTrue => exact fun isNew => absurd isNew statusNotNew
    case isFalse => exact inv.unreached i
  · split
    case isTrue =>
      intro _
      simp only [WithTop.untopD_coe]
      exact (inv.canonical x notNewX).add (P.cost_canonical x l t c edge)
    case isFalse => exact inv.canonical i
  · -- parent_status
    intro parent
    split at parent
    case isTrue same =>
      cases parent
      rw [if_neg (Ne.symm different)]
      exact .inl closedX
    case isFalse =>
      have status' := inv.parent_status i p parent
      split
      case isTrue same =>
        subst same
        exact .inr (reopened status')
      case isFalse => exact status'
  · -- parent_edge
    intro parent
    split at parent
    case isTrue same =>
      cases parent
      subst same
      simp only [Ne.symm different, if_false, if_true, WithTop.untopD_coe]
      exact ⟨l, c, edge, le_refl _, fun _ _ => rfl⟩
    case isFalse other =>
      obtain ⟨l', c', edge', le, exact'⟩ := inv.parent_edge i p parent
      refine ⟨l', c', edge', ?_⟩
      rw [if_neg other]
      split
      case isTrue same =>
        subst same
        have wasExpanded := inv.parent_status i p parent
        have lt := decrease fun isNew => by rcases wasExpanded with s | s <;> rw [s] at isNew <;> cases isNew
        simp only [WithTop.untopD_coe]
        refine ⟨by linarith, fun isClosed => ?_⟩
        exact absurd isClosed statusNotClosed
      case isFalse => exact ⟨le, exact'⟩
  · -- rooted
    intro notNew
    obtain ⟨n, rootedX⟩ := inv.rooted x notNewX
    have redirect : ∀ (above : Nat → Prop), (∀ i p, above i → nodes.parents i = some p → above p) →
        above x → ¬ above t → ∀ i m, Rooted nodes.parents i m →
        ∃ m', Rooted (SearchNodes.parents
          (nodes.set t ⟨((nodes.metric x + c : ℚ) : WithTop ℚ), some x, status⟩)) i m' := by
      intro above up aboveX notT
      refine rooted_redirect up aboveX notT (fun j other => ?_) ?_ rootedX
      · rw [SearchNodes.parents_set, if_neg other]
      · rw [SearchNodes.parents_set, if_pos rfl]
    by_cases isNew : (nodes.get t).status = .new
    · have notParent : ∀ i p, i ≠ t → nodes.parents i = some p → p ≠ t := by
        rintro i p _ parent rfl
        rcases inv.parent_status i p parent with same | same <;> rw [isNew] at same <;> cases same
      have chains := redirect (· ≠ t) notParent (Ne.symm different) (fun ne => ne rfl)
      by_cases same : i = t
      · subst same
        exact chains i 0 (.root (inv.unreached i isNew).2)
      · rw [if_neg same] at notNew
        obtain ⟨m, rooted⟩ := inv.rooted i notNew
        exact chains i m rooted
    · have lt := decrease isNew
      have chains := redirect (fun i => nodes.metric i < nodes.metric t)
        (fun i p below parent => by
          obtain ⟨l', c', edge', le, _⟩ := inv.parent_edge i p parent
          have := P.cost_nonneg p l' i c' edge'
          show nodes.metric p < nodes.metric t
          have below' : nodes.metric i < nodes.metric t := below
          linarith)
        (show nodes.metric x < nodes.metric t by linarith) (lt_irrefl _)
      by_cases same : i = t
      · subst same
        obtain ⟨m, rooted⟩ := inv.rooted i isNew
        exact chains i m rooted
      · rw [if_neg same] at notNew
        obtain ⟨m, rooted⟩ := inv.rooted i notNew
        exact chains i m rooted
  · -- root_only
    intro notNew none
    split at none
    case isTrue => cases none
    case isFalse other =>
      rw [if_neg other] at notNew
      exact inv.root_only i notNew none
  · -- passed
    intro isClosed notExempt l' t' c' edge'
    split at isClosed
    case isTrue => exact absurd isClosed statusNotClosed
    case isFalse other =>
      obtain ⟨notNew, le⟩ := inv.passed y isClosed notExempt l' t' c' edge'
      rw [if_neg other]
      split
      case isTrue same =>
        subst same
        have := decrease notNew
        simp only [WithTop.untopD_coe]
        exact ⟨statusNotNew, by linarith⟩
      case isFalse => exact ⟨notNew, le⟩
  · -- goal_isGoal
    split
    case isTrue same =>
      subst same
      rcases as with ⟨_, rfl, _⟩ | ⟨_, _, rfl, _⟩
      · exact fun bad => by cases bad
      · cases P.isGoal i with
        | true => exact fun _ => rfl
        | false => exact fun bad => by cases bad
    case isFalse => exact inv.goal_isGoal i
  · -- expanded_notGoal
    split
    case isTrue same =>
      subst same
      rcases as with ⟨_, rfl, _⟩ | ⟨_, _, rfl, _⟩
      · rintro (bad | bad) <;> cases bad
      · cases P.isGoal i with
        | true => rintro (bad | bad) <;> cases bad
        | false => exact fun _ => rfl
    case isFalse => exact inv.expanded_notGoal i
  · -- deadEnd_iff
    split
    case isTrue same =>
      subst same
      intro _
      rcases as with ⟨dead, rfl, _⟩ | ⟨v, alive, rfl, _⟩
      · exact iff_of_true rfl dead
      · refine iff_of_false ?_ (by rw [alive]; exact WithTop.coe_ne_top)
        split <;> exact fun bad => by cases bad
    case isFalse => exact inv.deadEnd_iff i
  · -- open_entry
    split
    case isTrue same =>
      subst same
      rcases as with ⟨_, rfl, _⟩ | ⟨v, alive, rfl, rfl⟩
      · rintro (bad | bad) <;> cases bad
      · exact fun _ => ⟨v, alive, _, List.mem_cons_self, rfl, rfl⟩
    case isFalse =>
      intro isOpen
      obtain ⟨v, alive, e, mem, atI, value⟩ := inv.open_entry i isOpen
      exact ⟨v, alive, e, keepsEntries e mem, atI, value⟩
  · -- entry_bound
    have old : ∀ e ∈ openlist, (if e.state = t then status else (nodes.get e.state).status) ≠ .new ∧
        ∀ v : ℚ, hValue h e.state = v →
          canonicalize ((if e.state = t then nodes.metric x + c else nodes.metric e.state) + v) ≤
            e.fValue := by
      intro e mem
      obtain ⟨notNew, bound⟩ := inv.entry_bound e mem
      split
      case isTrue same =>
        refine ⟨statusNotNew, fun v alive => le_trans (canonicalize_mono ?_) (bound v alive)⟩
        rw [same] at notNew ⊢
        have := decrease notNew
        linarith
      case isFalse => exact ⟨notNew, bound⟩
    have split_if : ∀ j, (if j = t then (⟨((nodes.metric x + c : ℚ) : WithTop ℚ), some x, status⟩ : SearchNode)
        else nodes.get j).status = if j = t then status else (nodes.get j).status := by
      intro j
      split <;> rfl
    simp only [WithTop.untopD_coe, split_if]
    rcases as with ⟨_, rfl, rfl⟩ | ⟨v, alive, rfl, rfl⟩
    · exact old e mem
    · rcases List.mem_cons.mp mem with rfl | mem
      · simp only [if_true]
        refine ⟨statusNotNew, fun v' alive' => ?_⟩
        rw [alive] at alive'
        rw [WithTop.coe_inj.mp alive']
      · exact old e mem

/-! ### One expansion -/

/-- The labelled successors of a reached state: their metrics are exact sums. -/
theorem mem_labeledSuccessorNodes {node : Node} (canonical : IsCanonical node.metric)
    {step : LabeledNode Label} :
    step ∈ P.labeledSuccessorNodes node ↔
      ∃ c, (step.label, step.node.state, c) ∈ P.successors node.state ∧
        step.node.metric = node.metric + c := by
  obtain ⟨label, state, metric⟩ := step
  unfold SearchProblem.labeledSuccessorNodes
  rw [List.mem_map]
  constructor
  · rintro ⟨⟨l, t, c⟩, mem, same⟩
    cases same
    exact ⟨c, mem, (canonical.add (P.cost_canonical _ _ _ _ mem)).canonicalize_eq⟩
  · rintro ⟨c, mem, sum⟩
    refine ⟨(label, state, c), mem, ?_⟩
    simp only at sum
    rw [(canonical.add (P.cost_canonical _ _ _ _ mem)).canonicalize_eq, sum]

/-- What holds while the successors of `x` are handled; `g` is the metric of `x`. -/
def Expanding (P : SearchProblem Label) (h : Heuristic) (x : Nat) (g : ℚ) (st : SearchState Rng) :
    Prop :=
  SearchInvariant P h (· = x) st.searchNodes st.openlist ∧
    (st.searchNodes.get x).status = .closed ∧ st.searchNodes.metric x = g

/-- Handling a successor keeps the invariant, does not forget or worsen reached
states, and leaves the successor reached at its metric or better. -/
theorem relaxSuccessor_spec {x : Nat} {g : ℚ} {st : SearchState Rng}
    (expanding : Expanding P h x g st) {step : LabeledNode Label}
    (mem : step ∈ P.labeledSuccessorNodes ⟨x, g⟩) :
    Expanding P h x g (relaxSuccessor P h x st step) ∧
    (∀ t m, (st.searchNodes.get t).status ≠ .new ∧ st.searchNodes.metric t ≤ m →
      ((relaxSuccessor P h x st step).searchNodes.get t).status ≠ .new ∧
        (relaxSuccessor P h x st step).searchNodes.metric t ≤ m) ∧
    (((relaxSuccessor P h x st step).searchNodes.get step.node.state).status ≠ .new ∧
      (relaxSuccessor P h x st step).searchNodes.metric step.node.state ≤ step.node.metric) := by
  obtain ⟨inv, closedX, metricX⟩ := expanding
  have notNewX : (st.searchNodes.get x).status ≠ .new := by rw [closedX]; exact fun bad => by cases bad
  have canonicalX := inv.canonical x notNewX
  rw [metricX] at canonicalX
  obtain ⟨c, edge, sum⟩ := (mem_labeledSuccessorNodes canonicalX).mp mem
  have nonneg := P.cost_nonneg _ _ _ _ edge
  by_cases cheaper : (step.node.metric : WithTop ℚ) < (st.searchNodes.get step.node.state).gValue
  · -- The successor is relaxed.
    have relaxed : ∃ status openlist', RelaxedAs P h step.node.state step.node.metric status
        st.openlist openlist' ∧ (relaxSuccessor P h x st step).openlist = openlist' ∧
        (relaxSuccessor P h x st step).searchNodes = st.searchNodes.set step.node.state
          ⟨step.node.metric, some x, status⟩ ∧ status ≠ .new ∧ status ≠ .closed := by
      unfold relaxSuccessor
      simp only [cheaper, if_true]
      cases value : hValue h step.node.state with
      | top => exact ⟨_, _, .inl ⟨value, rfl, rfl⟩, rfl, rfl, by decide, by decide⟩
      | coe v =>
          refine ⟨_, _, .inr ⟨v, value, rfl, rfl⟩, rfl, rfl, ?_, ?_⟩ <;> split <;> decide
    obtain ⟨status, openlist', as, openlistEq, nodesEq, notNew, _⟩ := relaxed
    have different : step.node.state ≠ x := by
      intro same
      rw [same, inv.reached x notNewX, metricX, sum] at cheaper
      have := WithTop.coe_lt_coe.mp cheaper
      linarith
    rw [sum, ← metricX] at cheaper as
    have inv' := inv.relax closedX edge cheaper as
    refine ⟨⟨?_, ?_, ?_⟩, fun t m reached => ?_, ?_⟩
    · rw [openlistEq, nodesEq, sum, ← metricX]
      exact inv'
    · rw [nodesEq, SearchNodes.get_set, if_neg different.symm]
      exact closedX
    · rw [nodesEq, SearchNodes.metric_set, if_neg different.symm]
      exact metricX
    · rw [nodesEq, SearchNodes.get_set, SearchNodes.metric_set]
      split
      case isTrue same =>
        subst same
        rw [inv.reached _ reached.1] at cheaper
        have lt := WithTop.coe_lt_coe.mp cheaper
        simp only [WithTop.untopD_coe]
        refine ⟨notNew, ?_⟩
        rw [sum, ← metricX]
        linarith [reached.2]
      case isFalse => exact reached
    · rw [nodesEq, SearchNodes.get_set, SearchNodes.metric_set, if_pos rfl, if_pos rfl]
      exact ⟨notNew, le_refl _⟩
  · -- The successor is already known at this metric or better.
    have unchanged : relaxSuccessor P h x st step = st := by
      unfold relaxSuccessor
      simp only [cheaper, if_false]
    rw [unchanged]
    refine ⟨⟨inv, closedX, metricX⟩, fun t m reached => reached, ?_⟩
    have notNew : (st.searchNodes.get step.node.state).status ≠ .new := by
      intro isNew
      rw [(inv.unreached _ isNew).1] at cheaper
      exact cheaper (WithTop.coe_lt_top _)
    rw [inv.reached _ notNew, WithTop.coe_lt_coe, not_lt] at cheaper
    exact ⟨notNew, cheaper⟩

/-- Closing the state of the popped entry. -/
theorem SearchInvariant.close {nodes : SearchNodes} {openlist rest : List QueueEntry}
    {entry : QueueEntry} (inv : SearchInvariant P h (fun _ => False) nodes openlist)
    (popped : openlist.Perm (entry :: rest)) (opened : (nodes.get entry.state).status = .opened) :
    SearchInvariant P h (· = entry.state)
      (nodes.set entry.state { nodes.get entry.state with status := .closed }) rest := by
  set x := entry.state with xEq
  have notNewX : (nodes.get x).status ≠ .new := by rw [opened]; decide
  have metric : ∀ i, (nodes.set x { nodes.get x with status := .closed }).metric i = nodes.metric i := by
    intro i
    rw [SearchNodes.metric_set]
    split
    case isTrue same => rw [same]; rfl
    case isFalse => rfl
  have gValue : ∀ i, ((nodes.set x { nodes.get x with status := .closed }).get i).gValue =
      (nodes.get i).gValue := by
    intro i
    rw [SearchNodes.get_set]
    split
    case isTrue same => rw [same]
    case isFalse => rfl
  have parents : (nodes.set x { nodes.get x with status := .closed }).parents = nodes.parents := by
    funext i
    rw [SearchNodes.parents_set]
    split
    case isTrue same => rw [same]; rfl
    case isFalse => rfl
  have status : ∀ i, ((nodes.set x { nodes.get x with status := .closed }).get i).status =
      if i = x then .closed else (nodes.get i).status := by
    intro i
    rw [SearchNodes.get_set]
    split <;> rfl
  have notNew : ∀ i, ((nodes.set x { nodes.get x with status := .closed }).get i).status ≠ .new ↔
      (nodes.get i).status ≠ .new := by
    intro i
    rw [status]
    split
    case isTrue same =>
      subst same
      exact iff_of_true (by decide) notNewX
    case isFalse => rfl
  have finite : hValue h x ≠ ⊤ := by
    intro dead
    have := (inv.deadEnd_iff x notNewX).mpr dead
    rw [opened] at this
    cases this
  refine
    { start_root := ?_, start_least := fun i => ?_, reached := fun i => ?_, unreached := fun i => ?_
      canonical := fun i => ?_, parent_status := fun i p => ?_, parent_edge := fun i p => ?_
      rooted := fun i => ?_, root_only := fun i => ?_, passed := fun y => ?_
      goal_isGoal := fun i => ?_, expanded_notGoal := fun i => ?_, deadEnd_iff := fun i => ?_
      open_entry := fun i => ?_, entry_bound := fun e mem => ?_ }
  all_goals simp only [notNew, metric, gValue, parents]
  · exact inv.start_root
  · exact inv.start_least i
  · exact inv.reached i
  · intro isNew
    refine inv.unreached i ?_
    rw [status] at isNew
    split at isNew
    · cases isNew
    · exact isNew
  · exact inv.canonical i
  · intro parent
    rw [status]
    split
    · exact .inl rfl
    · exact inv.parent_status i p parent
  · intro parent
    obtain ⟨l, c, edge, le, exact'⟩ := inv.parent_edge i p parent
    refine ⟨l, c, edge, le, fun isClosed other => exact' ?_ not_false⟩
    rw [status, if_neg other] at isClosed
    exact isClosed
  · exact inv.rooted i
  · exact inv.root_only i
  · intro isClosed other l t c edge
    rw [status, if_neg other] at isClosed
    exact inv.passed y isClosed not_false l t c edge
  · rw [status]
    split
    · exact fun bad => by cases bad
    · exact inv.goal_isGoal i
  · rw [status]
    split
    case isTrue same =>
      subst same
      exact fun _ => inv.expanded_notGoal x (.inr opened)
    case isFalse => exact inv.expanded_notGoal i
  · intro reached
    rw [status]
    split
    case isTrue same =>
      subst same
      exact iff_of_false (by decide) finite
    case isFalse => exact inv.deadEnd_iff i reached
  · rw [status]
    split
    case isTrue => rintro (bad | bad) <;> cases bad
    case isFalse other =>
      intro isOpen
      obtain ⟨v, alive, e, mem, atI, value⟩ := inv.open_entry i isOpen
      rcases List.mem_cons.mp (popped.mem_iff.mp mem) with rfl | mem
      · exact absurd atI.symm other
      · exact ⟨v, alive, e, mem, atI, value⟩
  · exact inv.entry_bound e (popped.mem_iff.mpr (List.mem_cons_of_mem _ mem))

/-- Skipping an entry of a closed state or a dead end. -/
theorem SearchInvariant.skip {nodes : SearchNodes} {openlist rest : List QueueEntry}
    {entry : QueueEntry} (inv : SearchInvariant P h (fun _ => False) nodes openlist)
    (popped : openlist.Perm (entry :: rest))
    (stale : (nodes.get entry.state).status = .closed ∨ (nodes.get entry.state).status = .deadEnd) :
    SearchInvariant P h (fun _ => False) nodes rest :=
  { inv with
    open_entry := by
      intro i isOpen
      obtain ⟨v, alive, e, mem, atI, value⟩ := inv.open_entry i isOpen
      rcases List.mem_cons.mp (popped.mem_iff.mp mem) with rfl | mem
      · subst atI
        rcases stale with s | s <;> rw [s] at isOpen <;> rcases isOpen with bad | bad <;> cases bad
      · exact ⟨v, alive, e, mem, atI, value⟩
    entry_bound := fun e mem => inv.entry_bound e (popped.mem_iff.mpr (List.mem_cons_of_mem _ mem)) }

/-- Once all successors of `x` are handled, `x` is a closed state like any other. -/
theorem SearchInvariant.finish {nodes : SearchNodes} {openlist : List QueueEntry} {x : Nat}
    (inv : SearchInvariant P h (· = x) nodes openlist)
    (handled : ∀ l t c, (l, t, c) ∈ P.successors x →
      (nodes.get t).status ≠ .new ∧ nodes.metric t ≤ nodes.metric x + c) :
    SearchInvariant P h (fun _ => False) nodes openlist :=
  { inv with
    parent_edge := by
      intro i p parent
      obtain ⟨l, c, edge, le, exact'⟩ := inv.parent_edge i p parent
      refine ⟨l, c, edge, le, fun isClosed _ => ?_⟩
      by_cases same : p = x
      · subst same
        exact le_antisymm le (handled l i c edge).2
      · exact exact' isClosed same
    passed := by
      intro y isClosed _ l t c edge
      by_cases same : y = x
      · subst same
        exact handled l t c edge
      · exact inv.passed y isClosed same l t c edge }

/-- Expanding an open state keeps the invariant. -/
theorem SearchInvariant.expand {opts : Options Label Rng} {st : SearchState Rng}
    {rest : List QueueEntry} {entry : QueueEntry}
    (inv : SearchInvariant P h (fun _ => False) st.searchNodes st.openlist)
    (popped : st.openlist.Perm (entry :: rest))
    (opened : (st.searchNodes.get entry.state).status = .opened) :
    SearchInvariant P h (fun _ => False)
      (AstarEager.expand P h opts { st with openlist := rest } entry.state).searchNodes
      (AstarEager.expand P h opts { st with openlist := rest } entry.state).openlist := by
  set x := entry.state with xEq
  set g := st.searchNodes.metric x with gEq
  set succs := (orderedSuccessors P opts st.rng ⟨x, g⟩) with succsEq
  set closed : SearchState Rng :=
    { searchNodes := st.searchNodes.set x { st.searchNodes.get x with status := .closed }
      openlist := rest
      rng := succs.2 } with closedEq
  have expanded : AstarEager.expand P h opts { st with openlist := rest } x =
      succs.1.foldl (relaxSuccessor P h x) closed := rfl
  have sameSteps : ∀ step, step ∈ succs.1 ↔ step ∈ P.labeledSuccessorNodes ⟨x, g⟩ := by
    intro step
    rw [succsEq]
    unfold orderedSuccessors
    split
    · exact (opts.shuffle_perm _ _).mem_iff
    · rfl
  have start : Expanding P h x g closed := by
    refine ⟨inv.close popped opened, ?_, ?_⟩
    · rw [closedEq, SearchNodes.get_set, if_pos rfl]
    · rw [closedEq, SearchNodes.metric_set, if_pos rfl]
      rfl
  have keeps : ∀ st' : SearchState Rng, Expanding P h x g st' → ∀ step ∈ succs.1,
      Expanding P h x g (relaxSuccessor P h x st' step) :=
    fun st' expanding step mem => (relaxSuccessor_spec expanding ((sameSteps step).mp mem)).1
  obtain ⟨inv', _, metricX⟩ := foldl_invariant keeps start
  rw [expanded]
  refine inv'.finish fun l t c edge => ?_
  have canonicalX : IsCanonical g := inv.canonical x (by rw [opened]; decide)
  have mem : (⟨l, ⟨t, g + c⟩⟩ : LabeledNode Label) ∈ succs.1 :=
    (sameSteps _).mpr ((mem_labeledSuccessorNodes canonicalX).mpr ⟨c, edge, rfl⟩)
  rw [metricX]
  exact foldl_establishes
    (fun st' : SearchState Rng => (st'.searchNodes.get t).status ≠ .new ∧
      st'.searchNodes.metric t ≤ g + c)
    keeps
    (fun st' expanding step mem' =>
      (relaxSuccessor_spec expanding ((sameSteps step).mp mem')).2.1 t (g + c))
    mem
    (fun st' expanding => (relaxSuccessor_spec expanding ((sameSteps _).mp mem)).2.2)
    start

end Tyr.Planning.AstarEager
