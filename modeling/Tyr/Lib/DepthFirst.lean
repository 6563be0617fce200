import Mathlib.Data.Finset.Card
import Mathlib.Data.Finset.Filter
import Tyr.Lib.Fold

/-!
Depth-first traversal with marks.

A node that is not marked is entered, which marks it and may change the rest of the
state, and then its children are visited. `fuel` bounds the depth.

* `visitAll_eq` — with more fuel than unmarked nodes, the fuel does not matter.
* `visitAll_closed` — the roots and the children of the marked nodes are marked.
* `visitAll_invariant` — what entering a node keeps.
-/

namespace Tyr.Lib

structure DepthFirst (α σ : Type*) where
  marked : σ → List α
  enter : σ → α → σ
  children : α → List α
  marked_enter : ∀ state node, marked (enter state node) = node :: marked state

namespace DepthFirst

section

variable {α σ : Type*} (search : DepthFirst α σ)

/-- The children of what is marked after but was not marked before are marked. -/
def ClosedFrom (before after : σ) : Prop :=
  ∀ node ∈ search.marked after, node ∈ search.marked before ∨
    ∀ child ∈ search.children node, child ∈ search.marked after

theorem ClosedFrom.trans {search : DepthFirst α σ} {before middle after : σ}
    (first : search.ClosedFrom before middle)
    (grows : search.marked middle ⊆ search.marked after) (second : search.ClosedFrom middle after) :
    search.ClosedFrom before after := by
  intro node isMarked
  rcases second node isMarked with earlier | isClosed
  · exact (first node earlier).imp_right fun children child mem => grows (children child mem)
  · exact .inr isClosed

end

variable {α σ : Type*} [DecidableEq α] (search : DepthFirst α σ)

def visit : (fuel : Nat) → α → σ → σ
  | 0, _, state => state
  | fuel + 1, node, state =>
      if node ∈ search.marked state then
        state
      else
        (search.children node).foldl (fun state child => visit fuel child state)
          (search.enter state node)

def visitAll (fuel : Nat) (roots : List α) (state : σ) : σ :=
  roots.foldl (fun state root => search.visit fuel root state) state

/-- The nodes that are not marked. -/
def unmarked (nodes : Finset α) (state : σ) : Finset α :=
  nodes.filter fun node => node ∉ search.marked state

variable {search} {nodes : Finset α} {fuel : Nat} {node : α} {state : σ}

theorem visit_of_mem (mem : node ∈ search.marked state) : search.visit fuel node state = state := by
  cases fuel with
  | zero => rfl
  | succ fuel => rw [visit, if_pos mem]

theorem visit_of_notMem (notMem : node ∉ search.marked state) :
    search.visit (fuel + 1) node state =
      search.visitAll fuel (search.children node) (search.enter state node) := by
  rw [visit, if_neg notMem]
  rfl

/-! ### Invariants -/

/-- What entering an unmarked node keeps holds after a visit. Only nodes that `Q` holds of
are entered, if it holds of the first one and of the children of those. -/
theorem visit_invariant {P : σ → Prop} {Q : α → Prop}
    (closed : ∀ node, Q node → ∀ child ∈ search.children node, Q child)
    (enter : ∀ state node, P state → Q node → node ∉ search.marked state →
      P (search.enter state node))
    (first : Q node) (start : P state) : P (search.visit fuel node state) := by
  induction fuel generalizing node state with
  | zero => exact start
  | succ fuel ih =>
      by_cases mem : node ∈ search.marked state
      · rwa [visit_of_mem mem]
      · rw [visit_of_notMem mem, visitAll]
        exact foldl_invariant (P := P) (fun _ before child isChild =>
          ih (closed node first child isChild) before) (enter state node start first mem)

theorem visitAll_invariant {P : σ → Prop} {Q : α → Prop}
    (closed : ∀ node, Q node → ∀ child ∈ search.children node, Q child)
    (enter : ∀ state node, P state → Q node → node ∉ search.marked state →
      P (search.enter state node))
    {roots : List α} (first : ∀ root ∈ roots, Q root) (start : P state) :
    P (search.visitAll fuel roots state) := by
  unfold visitAll
  exact foldl_invariant (P := P)
    (fun _ before root mem => visit_invariant closed enter (first root mem) before) start

/-- Marks stay. -/
theorem marked_visit : search.marked state ⊆ search.marked (search.visit fuel node state) := by
  refine visit_invariant (P := fun after => search.marked state ⊆ search.marked after)
    (Q := fun _ => True) (fun _ _ _ _ => trivial) (fun after node before _ _ => ?_) trivial
    (List.Subset.refl _)
  rw [search.marked_enter]
  exact List.subset_cons_of_subset _ before

theorem marked_visitAll {roots : List α} :
    search.marked state ⊆ search.marked (search.visitAll fuel roots state) := by
  unfold visitAll
  exact foldl_invariant (P := fun after => search.marked state ⊆ search.marked after)
    (fun _ before _ _ => List.Subset.trans before marked_visit) (List.Subset.refl _)

/-! ### Fuel -/

theorem unmarked_enter (mem : node ∈ nodes) (notMem : node ∉ search.marked state) :
    (search.unmarked nodes (search.enter state node)).card < (search.unmarked nodes state).card := by
  apply Finset.card_lt_card
  refine Finset.ssubset_iff_subset_ne.mpr ⟨fun other isOpen => ?_, fun same => ?_⟩
  · obtain ⟨isNode, notMarked⟩ := Finset.mem_filter.mp isOpen
    rw [search.marked_enter] at notMarked
    exact Finset.mem_filter.mpr ⟨isNode, fun marked => notMarked (List.mem_cons_of_mem _ marked)⟩
  · have isOpen : node ∈ search.unmarked nodes state := Finset.mem_filter.mpr ⟨mem, notMem⟩
    rw [← same] at isOpen
    apply (Finset.mem_filter.mp isOpen).2
    rw [search.marked_enter]
    exact List.mem_cons_self

theorem unmarked_le {before after : σ} (grows : search.marked before ⊆ search.marked after) :
    (search.unmarked nodes after).card ≤ (search.unmarked nodes before).card := by
  apply Finset.card_le_card
  intro other isOpen
  obtain ⟨isNode, notMarked⟩ := Finset.mem_filter.mp isOpen
  exact Finset.mem_filter.mpr ⟨isNode, fun marked => notMarked (grows marked)⟩

section

variable (closed : ∀ node ∈ nodes, ∀ child ∈ search.children node, child ∈ nodes)

/-- If visits do not depend on the fuel, then visits one after the other do not. -/
theorem visitAll_eq_of_visit {fuel' : Nat}
    (same : ∀ node ∈ nodes, ∀ state, (search.unmarked nodes state).card < fuel →
      (search.unmarked nodes state).card < fuel' →
        search.visit fuel node state = search.visit fuel' node state)
    {roots : List α} (mem : ∀ root ∈ roots, root ∈ nodes)
    (enough : (search.unmarked nodes state).card < fuel)
    (enough' : (search.unmarked nodes state).card < fuel') :
    search.visitAll fuel roots state = search.visitAll fuel' roots state := by
  induction roots generalizing state with
  | nil => rfl
  | cons root roots ih =>
      have grows : search.marked state ⊆ search.marked (search.visit fuel' root state) := marked_visit
      have fewer := @unmarked_le _ _ _ search nodes _ _ grows
      have first := same root (mem root List.mem_cons_self) state enough enough'
      rw [visitAll, visitAll, List.foldl_cons, List.foldl_cons, first]
      exact ih (fun other later => mem other (List.mem_cons_of_mem _ later))
        (fewer.trans_lt enough) (fewer.trans_lt enough')

include closed

/-- Visits of nodes do not depend on the fuel, if there is more than unmarked nodes. -/
theorem visit_eq {fuel' : Nat} (mem : node ∈ nodes)
    (enough : (search.unmarked nodes state).card < fuel)
    (enough' : (search.unmarked nodes state).card < fuel') :
    search.visit fuel node state = search.visit fuel' node state := by
  induction fuel generalizing fuel' node state with
  | zero => exact absurd enough (Nat.not_lt_zero _)
  | succ fuel ih =>
      obtain _ | fuel' := fuel'
      · exact absurd enough' (Nat.not_lt_zero _)
      by_cases marked : node ∈ search.marked state
      · rw [visit_of_mem marked, visit_of_mem marked]
      · have fewer := unmarked_enter mem marked
        rw [visit_of_notMem marked, visit_of_notMem marked]
        exact visitAll_eq_of_visit (fun node mem state => ih mem) (closed node mem) (by omega) (by omega)

theorem visitAll_eq {fuel' : Nat} {roots : List α} (mem : ∀ root ∈ roots, root ∈ nodes)
    (enough : (search.unmarked nodes state).card < fuel)
    (enough' : (search.unmarked nodes state).card < fuel') :
    search.visitAll fuel roots state = search.visitAll fuel' roots state :=
  visitAll_eq_of_visit (fun _ mem _ => visit_eq closed mem) mem enough enough'

end

/-! ### Closure -/

/-- If visits mark their nodes and the children of what they mark, then visits one after
the other do. -/
theorem visitAll_closed_of_visit
    (visits : ∀ node ∈ nodes, ∀ state, (search.unmarked nodes state).card < fuel →
      node ∈ search.marked (search.visit fuel node state) ∧
        search.ClosedFrom state (search.visit fuel node state))
    {roots : List α} (mem : ∀ root ∈ roots, root ∈ nodes)
    (enough : (search.unmarked nodes state).card < fuel) :
    (∀ root ∈ roots, root ∈ search.marked (search.visitAll fuel roots state)) ∧
      search.ClosedFrom state (search.visitAll fuel roots state) := by
  induction roots generalizing state with
  | nil => exact ⟨List.forall_mem_nil _, fun node isMarked => .inl isMarked⟩
  | cons root roots ih =>
      have visited : search.marked state ⊆ search.marked (search.visit fuel root state) := marked_visit
      have fewer := @unmarked_le _ _ _ search nodes _ _ visited
      obtain ⟨isMarked, first⟩ := visits root (mem root List.mem_cons_self) state enough
      obtain ⟨others, second⟩ := @ih (search.visit fuel root state)
        (fun other later => mem other (List.mem_cons_of_mem _ later)) (fewer.trans_lt enough)
      have grows : search.marked (search.visit fuel root state) ⊆
          search.marked (search.visitAll fuel roots (search.visit fuel root state)) :=
        marked_visitAll
      exact ⟨List.forall_mem_cons.mpr ⟨grows isMarked, others⟩, first.trans grows second⟩

section

variable (closed : ∀ node ∈ nodes, ∀ child ∈ search.children node, child ∈ nodes)

include closed

theorem visit_closed (mem : node ∈ nodes) (enough : (search.unmarked nodes state).card < fuel) :
    node ∈ search.marked (search.visit fuel node state) ∧
      search.ClosedFrom state (search.visit fuel node state) := by
  induction fuel generalizing node state with
  | zero => exact absurd enough (Nat.not_lt_zero _)
  | succ fuel ih =>
      by_cases marked : node ∈ search.marked state
      · rw [visit_of_mem marked]
        exact ⟨marked, fun other was => .inl was⟩
      · have fewer := unmarked_enter mem marked
        rw [visit_of_notMem marked]
        have enoughAfter : (search.unmarked nodes (search.enter state node)).card < fuel := by omega
        obtain ⟨children, rest⟩ := visitAll_closed_of_visit (fun node mem state => ih mem)
          (closed node mem) enoughAfter
        have entered := search.marked_enter state node
        refine ⟨marked_visitAll (by rw [entered]; exact List.mem_cons_self), fun other now => ?_⟩
        rcases rest other now with before | isClosed
        · rw [entered] at before
          rcases List.mem_cons.mp before with rfl | was
          · exact .inr children
          · exact .inl was
        · exact .inr isClosed

/-- The roots are marked, and the children of what was not marked before. -/
theorem visitAll_closed {roots : List α} (mem : ∀ root ∈ roots, root ∈ nodes)
    (enough : (search.unmarked nodes state).card < fuel) :
    (∀ root ∈ roots, root ∈ search.marked (search.visitAll fuel roots state)) ∧
      search.ClosedFrom state (search.visitAll fuel roots state) :=
  visitAll_closed_of_visit (fun _ mem _ => visit_closed closed mem) mem enough

end

end DepthFirst

end Tyr.Lib
