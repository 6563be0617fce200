import Tyr.Datalog.KpkcGraph

/-!
Updating the delta and the full graph of a rule for new assignment sets.

`initializeDynamicConsistencyGraphs` first adds the newly consistent vertices
and then the newly consistent edges to the full graph, and leaves in the delta
graph what is new. `StepSpec` says exactly what such a step does to a pair of
graphs, and `initializeDynamicConsistencyGraphs_spec` proves it for every full
graph that is `Valid`.
-/

namespace Tyr.Datalog.Kpkc

open Tyr.Lib

/-- The parts of the static consistency graph of a rule that the update reads.
`α` is the type of the assignment sets. A partition (pair) is `Runtime` when a
fluent literal or a numeric constraint of the rule mentions it, so that its
vertices (edges) have to be tested against the assignment sets. -/
structure StaticConsistencyGraph (α : Type*) where
  layout : GraphLayout
  binaryDependency : Nat → Nat → Bool
  binaryDependency_symm : ∀ p q, binaryDependency p q = binaryDependency q p
  unaryRuntime : Nat → Bool
  binaryRuntime : Nat → Nat → Bool
  staticEdges : Vertex → Nat → Bitset
  consistentVertex : α → Vertex → Bool
  consistentEdge : α → Vertex → Vertex → Bool

/-- The graphs and the list of explicit delta edges of the latest update. -/
structure DynamicGraphs where
  delta : Graph
  full : Graph
  deltaEdges : List Edge

/-! ### Observations -/

namespace Graph

/-- `v` is in the affected vertices. -/
def HasVertex (g : Graph) (v : Vertex) : Prop := g.affected v.partition v.bit = true

/-- `v` is in the delta vertices. -/
def HasDelta (g : Graph) (v : Vertex) : Prop := g.delta v.partition v.bit = true

/-- The explicit cells contain the arc from `u` to `v`. -/
def HasArc (g : Graph) (u v : Vertex) : Prop := g.cells u v.partition v.bit = true

/-- Every explicit arc lies in a touched cell, so that `reset` removes it. -/
def TouchedCovers (g : Graph) : Prop :=
  ∀ u v, g.HasArc u v → g.touched u v.partition = true

theorem TouchedCovers.not_hasArc_reset {g : Graph} (covers : g.TouchedCovers) (u v : Vertex) :
    ¬ g.reset.HasArc u v := by
  intro arc
  unfold HasArc reset at arc
  by_cases touched : g.touched u v.partition
  · simp [touched] at arc
  · simp only [touched, Bool.false_eq_true, if_false] at arc
    exact touched (covers u v arc)

theorem not_hasVertex_reset (g : Graph) (v : Vertex) : ¬ g.reset.HasVertex v := by
  simp [HasVertex, reset]

theorem not_hasDelta_reset (g : Graph) (v : Vertex) : ¬ g.reset.HasDelta v := by
  simp [HasDelta, reset]

theorem TouchedCovers.reset {g : Graph} (covers : g.TouchedCovers) : g.reset.TouchedCovers :=
  fun u v arc => absurd arc (covers.not_hasArc_reset u v)

theorem hasArc_setArc {g : Graph} {u v x y : Vertex} :
    (g.setArc u v).HasArc x y ↔ (x = u ∧ y = v) ∨ g.HasArc x y := by
  unfold HasArc
  exact setArc_cells

theorem TouchedCovers.setArc {g : Graph} (covers : g.TouchedCovers) (u v : Vertex) :
    (g.setArc u v).TouchedCovers := by
  intro x y arc
  rcases hasArc_setArc.mp arc with ⟨rfl, rfl⟩ | old
  · exact setArc_touched.mpr (.inl ⟨rfl, rfl⟩)
  · exact setArc_touched.mpr (.inr (covers x y old))

end Graph

/-- The position of `v` exists in the layout. -/
def GraphLayout.Contains (L : GraphLayout) (v : Vertex) : Prop :=
  v.partition < L.k ∧ v.bit < L.numBits v.partition

/-- `e` joins `x` and `y`, in either direction. -/
def Edge.Joins (e : Edge) (x y : Vertex) : Prop :=
  (x = e.src ∧ y = e.dst) ∨ (x = e.dst ∧ y = e.src)

/-! ### The update -/

/-- Add a delta consistent vertex to both vertex sets of both graphs. -/
def DynamicGraphs.processDeltaVertex (st : DynamicGraphs) (v : Vertex) : DynamicGraphs :=
  { st with
    full := { st.full with
      affected := st.full.affected.setVertex v
      delta := st.full.delta.setVertex v }
    delta := { st.delta with
      affected := st.delta.affected.setVertex v
      delta := st.delta.delta.setVertex v } }

/-- Add a delta consistent edge to both graphs and mark its ends as affected. -/
def DynamicGraphs.processDeltaEdge (st : DynamicGraphs) (e : Edge) : DynamicGraphs where
  full := (st.full.setArc e.src e.dst).setArc e.dst e.src
  delta :=
    { (st.delta.setArc e.src e.dst).setArc e.dst e.src with
      affected := (st.delta.affected.setVertex e.src).setVertex e.dst }
  deltaEdges := st.deltaEdges ++ [e]

/-- Add to `P` the vertices of partition `p` that are in `Q`, if `b`. -/
def VertexPartitions.unionIf (b : Bool) (P Q : VertexPartitions) (p : Nat) : VertexPartitions :=
  if b then Function.update P p fun c => P p c || Q p c else P

namespace StaticConsistencyGraph

variable {α : Type*}

/-- Step 2 for one partition. Without a runtime dependency all its vertices
become active; otherwise each inactive vertex is tested. -/
def initializePartition (S : StaticConsistencyGraph α) (a : α) (st : DynamicGraphs) (p : Nat) :
    DynamicGraphs :=
  let all : Bitset := fun b => decide (b < S.layout.numBits p)
  if S.unaryRuntime p then
    (Bitset.toList (fun b => !st.full.affected p b) (S.layout.numBits p)).foldl
      (fun st b => if S.consistentVertex a ⟨p, b⟩ then st.processDeltaVertex ⟨p, b⟩ else st) st
  else
    { st with
      delta := { st.delta with
        affected := Function.update st.delta.affected p fun b => all b && !st.full.affected p b
        delta := Function.update st.delta.delta p fun b => all b && !st.full.delta p b }
      full := { st.full with
        affected := Function.update st.full.affected p all
        delta := Function.update st.full.delta p all } }

/-- The partition pairs `pi < pj` in the order of the two nested loops. -/
def partitionPairs (k : Nat) : List (Nat × Nat) :=
  (List.range k).flatMap fun pi => (List.range' (pi + 1) (k - (pi + 1))).map (Prod.mk pi)

/-- The candidates of `vi` in `pj`: statically compatible, active, and not yet
adjacent in the full graph. -/
def candidates (S : StaticConsistencyGraph α) (st : DynamicGraphs) (vi : Vertex) (pj : Nat) :
    List Nat :=
  Bitset.toList
    (fun b => S.staticEdges vi pj b && st.full.affected pj b && !st.full.cells vi pj b)
    (S.layout.numBits pj)

/-- The inner loop of step 3: process the consistent candidates of `vi`. -/
def initializeRow (S : StaticConsistencyGraph α) (a : α) (pj : Nat) (st : DynamicGraphs)
    (vi : Vertex) : DynamicGraphs :=
  (S.candidates st vi pj).foldl
    (fun st bj =>
      if !S.binaryRuntime vi.partition pj || S.consistentEdge a vi ⟨pj, bj⟩ then
        st.processDeltaEdge ⟨vi, ⟨pj, bj⟩⟩
      else st)
    st

/-- Step 3 for one partition pair. Edges of an independent pair stay implicit:
if one side has delta vertices, all active vertices of the other are affected. -/
def initializePair (S : StaticConsistencyGraph α) (a : α) (st : DynamicGraphs)
    (pair : Nat × Nat) : DynamicGraphs :=
  let pi := pair.1
  let pj := pair.2
  if S.binaryDependency pi pj then
    ((st.full.affected pi).toList (S.layout.numBits pi)).foldl
      (fun st bi => S.initializeRow a pj st ⟨pi, bi⟩) st
  else
    let anyI := (st.delta.delta pi).any (S.layout.numBits pi)
    let anyJ := (st.delta.delta pj).any (S.layout.numBits pj)
    { st with
      delta := { st.delta with
        affected := (st.delta.affected.unionIf anyI st.full.affected pj).unionIf anyJ
          st.full.affected pi } }

/-- The update of both graphs for the assignment sets `a`. -/
def initializeDynamicConsistencyGraphs (S : StaticConsistencyGraph α) (a : α)
    (st : DynamicGraphs) : DynamicGraphs :=
  let cleared : DynamicGraphs := { st with delta := st.delta.reset }
  let vertices := (List.range S.layout.k).foldl (S.initializePartition a) cleared
  (partitionPairs S.layout.k).foldl (S.initializePair a) { vertices with deltaEdges := [] }

/-! ### Step 2: the vertices -/

/-- The update for `a` activates the vertex `v`, if it is not active yet. -/
def Accepts (S : StaticConsistencyGraph α) (a : α) (v : Vertex) : Prop :=
  v.bit < S.layout.numBits v.partition ∧
    (S.unaryRuntime v.partition = true → S.consistentVertex a v = true)

/-- The invariant of the full graph between updates. -/
structure Valid (S : StaticConsistencyGraph α) (g : Graph) : Prop where
  delta_iff : ∀ v, g.HasDelta v ↔ g.HasVertex v
  inLayout : ∀ v, g.HasVertex v → S.layout.Contains v
  arc_symm : ∀ u v, g.HasArc u v → g.HasArc v u
  arc_ends : ∀ u v, g.HasArc u v → g.HasVertex u ∧ g.HasVertex v
  arc_pair : ∀ u v, g.HasArc u v →
    u.partition ≠ v.partition ∧ S.binaryDependency u.partition v.partition = true
  covers : g.TouchedCovers

/-- What holds after the vertices of the partitions below `n` are processed,
where `cleared` is the pair of graphs before the first one. -/
structure VertexSpec (S : StaticConsistencyGraph α) (a : α) (cleared : DynamicGraphs) (n : Nat)
    (st : DynamicGraphs) : Prop where
  full_vertex : ∀ v, st.full.HasVertex v ↔
    cleared.full.HasVertex v ∨ (v.partition < n ∧ S.Accepts a v)
  full_delta : ∀ v, st.full.HasDelta v ↔ st.full.HasVertex v
  delta_vertex : ∀ v, st.delta.HasVertex v ↔ st.full.HasVertex v ∧ ¬ cleared.full.HasVertex v
  delta_delta : ∀ v, st.delta.HasDelta v ↔ st.delta.HasVertex v
  full_cells : st.full.cells = cleared.full.cells ∧ st.full.touched = cleared.full.touched
  delta_cells : st.delta.cells = cleared.delta.cells ∧ st.delta.touched = cleared.delta.touched

theorem hasVertex_setVertex {P : VertexPartitions} {v w : Vertex} :
    P.setVertex w v.partition v.bit = true ↔ v = w ∨ P v.partition v.bit = true :=
  VertexPartitions.setVertex_eq_true

/-- The loop over the inactive vertices of a partition, for any observation
that `processDeltaVertex` switches on for exactly the processed vertex. -/
theorem foldl_processDeltaVertex (S : StaticConsistencyGraph α) (a : α) (p : Nat) (bits : List Nat)
    {observe : DynamicGraphs → Prop} {v : Vertex}
    (law : ∀ st w, observe (st.processDeltaVertex w) ↔ v = w ∨ observe st) (st : DynamicGraphs) :
    observe (bits.foldl
      (fun st b => if S.consistentVertex a ⟨p, b⟩ then st.processDeltaVertex ⟨p, b⟩ else st) st) ↔
      observe st ∨ ∃ b ∈ bits, S.consistentVertex a v = true ∧ v = ⟨p, b⟩ := by
  refine foldl_iff_of_law bits (fun st b => ?_) st
  by_cases consistent : S.consistentVertex a ⟨p, b⟩ = true
  · rw [if_pos consistent, law]
    constructor
    · rintro (rfl | old)
      · exact .inr ⟨consistent, rfl⟩
      · exact .inl old
    · rintro (old | ⟨_, same⟩)
      · exact .inr old
      · exact .inl same
  · rw [if_neg consistent]
    constructor
    · exact .inl
    · rintro (old | ⟨passes, rfl⟩)
      · exact old
      · exact absurd passes consistent

/-- In a partition with a runtime dependency, the loop over its inactive
vertices activates exactly the accepted ones. -/
theorem mem_inactive_iff (S : StaticConsistencyGraph α) {a : α} {st : DynamicGraphs} {p : Nat}
    (runtime : S.unaryRuntime p = true) {v : Vertex} :
    (∃ b ∈ Bitset.toList (fun b => !st.full.affected p b) (S.layout.numBits p),
      S.consistentVertex a v = true ∧ v = ⟨p, b⟩) ↔
      v.partition = p ∧ S.Accepts a v ∧ ¬ st.full.HasVertex v := by
  obtain ⟨q, c⟩ := v
  constructor
  · rintro ⟨b, mem, consistent, same⟩
    obtain ⟨rfl, rfl⟩ := Vertex.mk.inj same
    obtain ⟨inBits, inactive⟩ := Bitset.mem_toList.mp mem
    exact ⟨rfl, ⟨inBits, fun _ => consistent⟩, by simpa [Graph.HasVertex] using inactive⟩
  · rintro ⟨rfl, ⟨inBits, test⟩, inactive⟩
    refine ⟨c, Bitset.mem_toList.mpr ⟨inBits, ?_⟩, test runtime, rfl⟩
    simpa [Graph.HasVertex] using inactive

/-- The effect of adding the vertices `New` to both vertex sets of both graphs. -/
structure AddsVertices (New : Vertex → Prop) (st after : DynamicGraphs) : Prop where
  full_vertex : ∀ v, after.full.HasVertex v ↔ st.full.HasVertex v ∨ New v
  full_delta : ∀ v, after.full.HasDelta v ↔ st.full.HasDelta v ∨ New v
  delta_vertex : ∀ v, after.delta.HasVertex v ↔ st.delta.HasVertex v ∨ New v
  delta_delta : ∀ v, after.delta.HasDelta v ↔ st.delta.HasDelta v ∨ New v
  full_cells : after.full.cells = st.full.cells ∧ after.full.touched = st.full.touched
  delta_cells : after.delta.cells = st.delta.cells ∧ after.delta.touched = st.delta.touched

/-- Filling partition `p` adds exactly its missing vertices. -/
theorem update_all_iff {P : VertexPartitions} {p n : Nat} {v : Vertex}
    (inBits : v.partition = p → P v.partition v.bit = true → v.bit < n) :
    Function.update P p (fun b => decide (b < n)) v.partition v.bit = true ↔
      P v.partition v.bit = true ∨ (v.partition = p ∧ v.bit < n ∧ ¬ P v.partition v.bit = true) := by
  by_cases same : v.partition = p
  · have := inBits same
    rw [same] at this ⊢
    simp only [Function.update_self, decide_eq_true_eq, true_and]
    tauto
  · simp [same]

/-- Filling an empty partition `p` with what is missing from `Q`. -/
theorem update_missing_iff {P Q : VertexPartitions} {p n : Nat} {v : Vertex}
    (empty : v.partition = p → ¬ P v.partition v.bit = true) :
    Function.update P p (fun b => decide (b < n) && !Q p b) v.partition v.bit = true ↔
      P v.partition v.bit = true ∨ (v.partition = p ∧ v.bit < n ∧ ¬ Q v.partition v.bit = true) := by
  by_cases same : v.partition = p
  · have := empty same
    rw [same] at this ⊢
    simp [this]
  · simp [same]

/-- One iteration of step 2 adds exactly the accepted inactive vertices of the
partition, provided the delta sets of the partition are still empty. -/
theorem initializePartition_adds (S : StaticConsistencyGraph α) (a : α) (st : DynamicGraphs) (p : Nat)
    (inBits : ∀ v : Vertex, v.partition = p → st.full.HasVertex v → v.bit < S.layout.numBits p)
    (delta_iff : ∀ v, st.full.HasDelta v ↔ st.full.HasVertex v)
    (empty : ∀ v : Vertex, v.partition = p → ¬ st.delta.HasVertex v ∧ ¬ st.delta.HasDelta v) :
    AddsVertices (fun v => v.partition = p ∧ S.Accepts a v ∧ ¬ st.full.HasVertex v)
      st (S.initializePartition a st p) := by
  by_cases runtime : S.unaryRuntime p = true
  · have shape : S.initializePartition a st p =
        (Bitset.toList (fun b => !st.full.affected p b) (S.layout.numBits p)).foldl
          (fun st b => if S.consistentVertex a ⟨p, b⟩ then st.processDeltaVertex ⟨p, b⟩ else st)
          st := by
      simp only [initializePartition, runtime, if_true]
    have loop : ∀ (observe : DynamicGraphs → Prop) {v : Vertex},
        (∀ st w, observe (st.processDeltaVertex w) ↔ v = w ∨ observe st) →
        (observe (S.initializePartition a st p) ↔ observe st ∨
          (v.partition = p ∧ S.Accepts a v ∧ ¬ st.full.HasVertex v)) := by
      intro observe v law
      rw [shape, S.foldl_processDeltaVertex a p _ law, S.mem_inactive_iff runtime]
    have kept : ∀ {β : Type} (get : DynamicGraphs → β),
        (∀ st w, get (st.processDeltaVertex w) = get st) →
        get (S.initializePartition a st p) = get st := by
      intro β get same
      rw [shape]
      refine foldl_unchanged get (fun st b _ => ?_) st
      split
      · exact same _ _
      · rfl
    exact
      { full_vertex := fun v => loop (fun st => st.full.HasVertex v) fun _ _ => hasVertex_setVertex
        full_delta := fun v => loop (fun st => st.full.HasDelta v) fun _ _ => hasVertex_setVertex
        delta_vertex := fun v => loop (fun st => st.delta.HasVertex v) fun _ _ => hasVertex_setVertex
        delta_delta := fun v => loop (fun st => st.delta.HasDelta v) fun _ _ => hasVertex_setVertex
        full_cells := ⟨kept (fun st => st.full.cells) fun _ _ => rfl,
          kept (fun st => st.full.touched) fun _ _ => rfl⟩
        delta_cells := ⟨kept (fun st => st.delta.cells) fun _ _ => rfl,
          kept (fun st => st.delta.touched) fun _ _ => rfl⟩ }
  · have accepted : ∀ v : Vertex, (v.partition = p ∧ S.Accepts a v ∧ ¬ st.full.HasVertex v) ↔
        (v.partition = p ∧ v.bit < S.layout.numBits p ∧ ¬ st.full.HasVertex v) := by
      rintro ⟨q, c⟩
      refine and_congr_right fun same => and_congr_left fun _ => ?_
      subst same
      simp [Accepts, runtime]
    have shape := show S.initializePartition a st p = _ by
      simp only [initializePartition, runtime, Bool.false_eq_true, if_false]; rfl
    refine ⟨fun v => ?_, fun v => ?_, fun v => ?_, fun v => ?_, ?_, ?_⟩ <;> rw [shape]
    · rw [accepted]
      exact update_all_iff (inBits v)
    · rw [accepted, ← delta_iff]
      exact update_all_iff fun same active => inBits v same ((delta_iff v).mp active)
    · rw [accepted]
      exact update_missing_iff fun same => (empty v same).1
    · rw [accepted, ← delta_iff]
      exact update_missing_iff fun same => (empty v same).2
    · exact ⟨rfl, rfl⟩
    · exact ⟨rfl, rfl⟩

/-- Step 2 keeps `VertexSpec` from one partition to the next. -/
theorem VertexSpec.succ {S : StaticConsistencyGraph α} {a : α} {cleared st : DynamicGraphs} {n : Nat}
    (inLayout : ∀ v, cleared.full.HasVertex v → S.layout.Contains v)
    (spec : S.VertexSpec a cleared n st) :
    S.VertexSpec a cleared (n + 1) (S.initializePartition a st n) := by
  have fresh : ∀ v : Vertex, v.partition = n →
      (st.full.HasVertex v ↔ cleared.full.HasVertex v) := by
    intro v same
    rw [spec.full_vertex, or_iff_left]
    omega
  have adds := S.initializePartition_adds a st n
    (by
      rintro v rfl active
      exact (inLayout v ((fresh v rfl).mp active)).2)
    spec.full_delta
    (by
      intro v same
      have := spec.delta_vertex v
      have := fresh v same
      have := spec.delta_delta v
      tauto)
  refine ⟨fun v => ?_, fun v => ?_, fun v => ?_, fun v => ?_, ?_, ?_⟩
  · rw [adds.full_vertex, Nat.lt_succ_iff_lt_or_eq]
    have := spec.full_vertex v
    tauto
  · rw [adds.full_vertex, adds.full_delta, spec.full_delta]
  · rw [adds.delta_vertex, adds.full_vertex, spec.delta_vertex]
    have := fresh v
    tauto
  · rw [adds.delta_delta, adds.delta_vertex, spec.delta_delta]
  · rw [adds.full_cells.1, adds.full_cells.2]
    exact spec.full_cells
  · rw [adds.delta_cells.1, adds.delta_cells.2]
    exact spec.delta_cells

/-- Step 2: after all partitions, the accepted vertices are in the full graph
and the new ones among them are in the delta graph. -/
theorem initializeVertices_spec {S : StaticConsistencyGraph α} (a : α) {st : DynamicGraphs}
    (valid : S.Valid st.full) (k : Nat) :
    S.VertexSpec a { st with delta := st.delta.reset } k
      ((List.range k).foldl (S.initializePartition a) { st with delta := st.delta.reset }) := by
  induction k with
  | zero =>
      refine ⟨fun v => ?_, valid.delta_iff, fun v => ?_, fun v => ?_, ⟨rfl, rfl⟩, ⟨rfl, rfl⟩⟩
      · simp
      · simp [Graph.not_hasVertex_reset]
      · simp [Graph.not_hasVertex_reset, Graph.not_hasDelta_reset]
  | succ k ih =>
      rw [List.range_succ, List.foldl_append]
      exact ih.succ valid.inLayout

/-! ### Step 3: the edges -/

/-- The explicit edge from `u` to the later partition of `v` passes the static
graph and, where the pair has a runtime dependency, the test against `a`. -/
def AcceptsEdge (S : StaticConsistencyGraph α) (a : α) (u v : Vertex) : Prop :=
  u.partition < v.partition ∧ S.binaryDependency u.partition v.partition = true ∧
    S.staticEdges u v.partition v.bit = true ∧
    (S.binaryRuntime u.partition v.partition = true → S.consistentEdge a u v = true)

theorem mem_partitionPairs {k : Nat} {pair : Nat × Nat} :
    pair ∈ partitionPairs k ↔ pair.1 < pair.2 ∧ pair.2 < k := by
  obtain ⟨i, j⟩ := pair
  simp only [partitionPairs, List.mem_flatMap, List.mem_range, List.mem_map, List.mem_range'_1,
    Prod.mk.injEq]
  constructor
  · rintro ⟨pi, inK, pj, ⟨later, inK'⟩, rfl, rfl⟩
    omega
  · rintro ⟨later, inK⟩
    exact ⟨i, by omega, j, ⟨by omega, by omega⟩, rfl, rfl⟩

/-- What holds during step 3, where `base` is the pair of graphs before it. -/
structure EdgeInvariant (S : StaticConsistencyGraph α) (a : α) (base st : DynamicGraphs) : Prop where
  valid : S.Valid st.full
  same_vertices : st.full.affected = base.full.affected
  same_delta : st.delta.delta = base.delta.delta
  arc_mono : ∀ u v, base.full.HasArc u v → st.full.HasArc u v
  arc_sound : ∀ u v, st.full.HasArc u v →
    base.full.HasArc u v ∨ S.AcceptsEdge a u v ∨ S.AcceptsEdge a v u
  delta_arc : ∀ u v, st.delta.HasArc u v ↔ st.full.HasArc u v ∧ ¬ base.full.HasArc u v
  delta_covers : st.delta.TouchedCovers
  delta_sub : ∀ v, st.delta.HasDelta v → st.delta.HasVertex v
  affected_sub : ∀ v, st.delta.HasVertex v → st.full.HasVertex v
  affected_arc : ∀ u v, st.delta.HasArc u v → st.delta.HasVertex u

end StaticConsistencyGraph

/-! #### Processing one edge -/

theorem Edge.joins_comm {e : Edge} {x y : Vertex} : e.Joins x y ↔ e.Joins y x := by
  unfold Edge.Joins
  tauto

theorem DynamicGraphs.full_hasArc_processDeltaEdge {st : DynamicGraphs} {e : Edge} {x y : Vertex} :
    (st.processDeltaEdge e).full.HasArc x y ↔ e.Joins x y ∨ st.full.HasArc x y := by
  simp only [processDeltaEdge, Graph.hasArc_setArc, Edge.Joins]
  tauto

theorem DynamicGraphs.delta_hasArc_processDeltaEdge {st : DynamicGraphs} {e : Edge} {x y : Vertex} :
    (st.processDeltaEdge e).delta.HasArc x y ↔ e.Joins x y ∨ st.delta.HasArc x y := by
  change ((st.delta.setArc e.src e.dst).setArc e.dst e.src).HasArc x y ↔ _
  simp only [Graph.hasArc_setArc, Edge.Joins]
  tauto

theorem DynamicGraphs.delta_hasVertex_processDeltaEdge {st : DynamicGraphs} {e : Edge} {v : Vertex} :
    (st.processDeltaEdge e).delta.HasVertex v ↔ v = e.src ∨ v = e.dst ∨ st.delta.HasVertex v := by
  simp only [processDeltaEdge, Graph.HasVertex, StaticConsistencyGraph.hasVertex_setVertex]
  tauto

namespace StaticConsistencyGraph

variable {α : Type*}

/-- Processing an accepted edge that is new with respect to `base` keeps the
invariant. -/
theorem EdgeInvariant.processDeltaEdge {S : StaticConsistencyGraph α} {a : α}
    {base st : DynamicGraphs} (baseValid : S.Valid base.full) (inv : S.EdgeInvariant a base st)
    {e : Edge} (accepts : S.AcceptsEdge a e.src e.dst)
    (ends : st.full.HasVertex e.src ∧ st.full.HasVertex e.dst)
    (new : ¬ base.full.HasArc e.src e.dst) : S.EdgeInvariant a base (st.processDeltaEdge e) := by
  have joinsNew : ∀ u v, e.Joins u v → ¬ base.full.HasArc u v := by
    rintro u v (⟨rfl, rfl⟩ | ⟨rfl, rfl⟩) arc
    · exact new arc
    · exact new (baseValid.arc_symm _ _ arc)
  have dep := accepts.2.1
  refine
    { valid := ⟨inv.valid.delta_iff, inv.valid.inLayout, ?_, ?_, ?_, ?_⟩
      same_vertices := inv.same_vertices
      same_delta := inv.same_delta
      arc_mono := ?_, arc_sound := ?_, delta_arc := ?_, delta_covers := ?_
      delta_sub := ?_, affected_sub := ?_, affected_arc := ?_ }
  · intro u v arc
    rw [DynamicGraphs.full_hasArc_processDeltaEdge] at arc ⊢
    exact arc.imp Edge.joins_comm.mp (inv.valid.arc_symm u v)
  · intro u v arc
    rcases DynamicGraphs.full_hasArc_processDeltaEdge.mp arc with (⟨rfl, rfl⟩ | ⟨rfl, rfl⟩) | old
    · exact ends
    · exact ends.symm
    · exact inv.valid.arc_ends u v old
  · intro u v arc
    rcases DynamicGraphs.full_hasArc_processDeltaEdge.mp arc with (⟨rfl, rfl⟩ | ⟨rfl, rfl⟩) | old
    · exact ⟨Nat.ne_of_lt accepts.1, dep⟩
    · exact ⟨Nat.ne_of_gt accepts.1, (S.binaryDependency_symm _ _).trans dep⟩
    · exact inv.valid.arc_pair u v old
  · exact (inv.valid.covers.setArc _ _).setArc _ _
  · intro u v arc
    exact DynamicGraphs.full_hasArc_processDeltaEdge.mpr (.inr (inv.arc_mono u v arc))
  · intro u v arc
    rcases DynamicGraphs.full_hasArc_processDeltaEdge.mp arc with (⟨rfl, rfl⟩ | ⟨rfl, rfl⟩) | old
    · exact .inr (.inl accepts)
    · exact .inr (.inr accepts)
    · exact inv.arc_sound u v old
  · intro u v
    rw [DynamicGraphs.full_hasArc_processDeltaEdge, DynamicGraphs.delta_hasArc_processDeltaEdge,
      inv.delta_arc]
    have := joinsNew u v
    tauto
  · exact (inv.delta_covers.setArc _ _).setArc _ _
  · intro v isDelta
    exact DynamicGraphs.delta_hasVertex_processDeltaEdge.mpr (.inr (.inr (inv.delta_sub v isDelta)))
  · intro v affected
    rcases DynamicGraphs.delta_hasVertex_processDeltaEdge.mp affected with rfl | rfl | old
    · exact ends.1
    · exact ends.2
    · exact inv.affected_sub v old
  · intro u v arc
    rw [DynamicGraphs.delta_hasVertex_processDeltaEdge]
    rcases DynamicGraphs.delta_hasArc_processDeltaEdge.mp arc with (⟨rfl, rfl⟩ | ⟨rfl, rfl⟩) | old
    · exact .inl rfl
    · exact .inr (.inl rfl)
    · exact .inr (.inr (inv.affected_arc u v old))

/-! #### Rows, pairs and the whole update -/

/-- A candidate that passes the test is an accepted edge. -/
theorem acceptsEdge_of_candidate {S : StaticConsistencyGraph α} {a : α} {st : DynamicGraphs}
    {vi : Vertex} {pj bj : Nat} (later : vi.partition < pj)
    (dep : S.binaryDependency vi.partition pj = true) (mem : bj ∈ S.candidates st vi pj)
    (test : (!S.binaryRuntime vi.partition pj || S.consistentEdge a vi ⟨pj, bj⟩) = true) :
    S.AcceptsEdge a vi ⟨pj, bj⟩ := by
  have bits := (Bitset.mem_toList.mp mem).2
  simp only [Bool.and_eq_true] at bits
  refine ⟨later, dep, bits.1.1, fun runtime => ?_⟩
  simpa [runtime] using test

theorem EdgeInvariant.initializeRow {S : StaticConsistencyGraph α} {a : α} {base st : DynamicGraphs}
    (baseValid : S.Valid base.full) (inv : S.EdgeInvariant a base st) {vi : Vertex} {pj : Nat}
    (later : vi.partition < pj) (dep : S.binaryDependency vi.partition pj = true)
    (active : base.full.HasVertex vi) : S.EdgeInvariant a base (S.initializeRow a pj st vi) := by
  refine foldl_invariant (P := S.EdgeInvariant a base) (fun st' inv' bj mem => ?_) inv
  split
  case isFalse => exact inv'
  case isTrue test =>
      have bits := (Bitset.mem_toList.mp mem).2
      simp only [Bool.and_eq_true, Bool.not_eq_true'] at bits
      refine inv'.processDeltaEdge baseValid (acceptsEdge_of_candidate later dep mem test) ?_ ?_
      · unfold Graph.HasVertex
        rw [inv'.same_vertices]
        refine ⟨active, ?_⟩
        rw [← inv.same_vertices]
        exact bits.1.2
      · intro old
        have arc : st.full.cells vi pj bj = true := inv.arc_mono _ _ old
        rw [bits.2] at arc
        exact absurd arc Bool.false_ne_true

/-- Arcs that are present stay present while a row is processed. -/
theorem initializeRow_keeps_arc (S : StaticConsistencyGraph α) (a : α) (pj : Nat) (st : DynamicGraphs)
    (vi : Vertex) {u v : Vertex} (arc : st.full.HasArc u v) :
    (S.initializeRow a pj st vi).full.HasArc u v := by
  refine foldl_invariant (P := fun st : DynamicGraphs => st.full.HasArc u v) (fun st' arc' bj _ => ?_) arc
  split
  · exact DynamicGraphs.full_hasArc_processDeltaEdge.mpr (.inr arc')
  · exact arc'

/-- Processing the row of `vi` leaves all its accepted edges in the full graph. -/
theorem initializeRow_complete {S : StaticConsistencyGraph α} {a : α} {st : DynamicGraphs}
    {vi vj : Vertex} (accepts : S.AcceptsEdge a vi vj) (active : st.full.HasVertex vj)
    (inBits : vj.bit < S.layout.numBits vj.partition) :
    (S.initializeRow a vj.partition st vi).full.HasArc vi vj := by
  by_cases present : st.full.HasArc vi vj
  · exact S.initializeRow_keeps_arc a _ st vi present
  · have mem : vj.bit ∈ S.candidates st vi vj.partition := by
      refine Bitset.mem_toList.mpr ⟨inBits, ?_⟩
      simp only [Bool.and_eq_true, Bool.not_eq_true']
      exact ⟨⟨accepts.2.2.1, active⟩, Bool.eq_false_iff.mpr present⟩
    refine foldl_establishes (P := fun _ => True) (fun st : DynamicGraphs => st.full.HasArc vi vj)
      (fun _ _ _ _ => trivial) (fun st' _ bj _ arc => ?_) mem (fun st' _ => ?_) trivial
    · split
      · exact DynamicGraphs.full_hasArc_processDeltaEdge.mpr (.inr arc)
      · exact arc
    · have test : (!S.binaryRuntime vi.partition vj.partition || S.consistentEdge a vi vj) = true := by
        cases runtime : S.binaryRuntime vi.partition vj.partition with
        | false => rfl
        | true => exact accepts.2.2.2 runtime
      rw [if_pos test]
      exact DynamicGraphs.full_hasArc_processDeltaEdge.mpr (.inl (.inl ⟨rfl, rfl⟩))

theorem unionIf_eq_true {b : Bool} {P Q : VertexPartitions} {p : Nat} {v : Vertex} :
    P.unionIf b Q p v.partition v.bit = true ↔
      P v.partition v.bit = true ∨ (b = true ∧ v.partition = p ∧ Q v.partition v.bit = true) := by
  cases b with
  | false => simp [VertexPartitions.unionIf]
  | true =>
      by_cases same : v.partition = p
      · subst same
        simp [VertexPartitions.unionIf]
      · simp [VertexPartitions.unionIf, same]

/-- One iteration of step 3 keeps the invariant. -/
theorem EdgeInvariant.initializePair {S : StaticConsistencyGraph α} {a : α} {base st : DynamicGraphs}
    (baseValid : S.Valid base.full) (inv : S.EdgeInvariant a base st) {pair : Nat × Nat}
    (mem : pair ∈ partitionPairs S.layout.k) : S.EdgeInvariant a base (S.initializePair a st pair) := by
  have later := (mem_partitionPairs.mp mem).1
  simp only [StaticConsistencyGraph.initializePair]
  split
  case isTrue dep =>
      refine foldl_invariant (P := S.EdgeInvariant a base) (fun st' inv' bi mem => ?_) inv
      refine inv'.initializeRow baseValid later dep ?_
      have active := (Bitset.mem_toList.mp mem).2
      rw [inv.same_vertices] at active
      exact active
  case isFalse =>
      refine { inv with delta_sub := ?_, affected_sub := ?_, affected_arc := ?_ }
      · intro v isDelta
        exact unionIf_eq_true.mpr (.inl (unionIf_eq_true.mpr (.inl (inv.delta_sub v isDelta))))
      · intro v affected
        rcases unionIf_eq_true.mp affected with affected | ⟨_, _, active⟩
        · rcases unionIf_eq_true.mp affected with affected | ⟨_, _, active⟩
          · exact inv.affected_sub v affected
          · exact active
        · exact active
      · intro u v arc
        exact unionIf_eq_true.mpr (.inl (unionIf_eq_true.mpr (.inl (inv.affected_arc u v arc))))

/-- Arcs and affected vertices that are present stay present. -/
theorem initializePair_keeps (S : StaticConsistencyGraph α) (a : α) (st : DynamicGraphs)
    (pair : Nat × Nat) :
    (∀ u v, st.full.HasArc u v → (S.initializePair a st pair).full.HasArc u v) ∧
    (∀ v, st.delta.HasVertex v → (S.initializePair a st pair).delta.HasVertex v) := by
  simp only [StaticConsistencyGraph.initializePair]
  split
  · refine ⟨fun u v arc => ?_, fun v affected => ?_⟩
    · exact foldl_invariant (P := fun st : DynamicGraphs => st.full.HasArc u v)
        (fun st' arc' bi _ => S.initializeRow_keeps_arc a _ st' _ arc') arc
    · refine foldl_invariant (P := fun st : DynamicGraphs => st.delta.HasVertex v) (fun st' affected' bi _ => ?_) affected
      refine foldl_invariant (P := fun st : DynamicGraphs => st.delta.HasVertex v) (fun st' affected' bj _ => ?_) affected'
      split
      · exact DynamicGraphs.delta_hasVertex_processDeltaEdge.mpr (.inr (.inr affected'))
      · exact affected'
  · refine ⟨fun u v arc => arc, fun v affected => ?_⟩
    exact unionIf_eq_true.mpr (.inl (unionIf_eq_true.mpr (.inl affected)))

/-- Processing a dependent pair leaves all its accepted edges in the full graph. -/
theorem initializePair_complete {S : StaticConsistencyGraph α} {a : α} {base st : DynamicGraphs}
    (inv : S.EdgeInvariant a base st) {u v : Vertex} (accepts : S.AcceptsEdge a u v)
    (activeU : base.full.HasVertex u) (activeV : base.full.HasVertex v) :
    (S.initializePair a st (u.partition, v.partition)).full.HasArc u v := by
  obtain ⟨pi, bi⟩ := u
  have vertices : st.full.HasVertex ⟨pi, bi⟩ ∧ st.full.HasVertex v := by
    unfold Graph.HasVertex
    rw [inv.same_vertices]
    exact ⟨activeU, activeV⟩
  have inBitsU := (inv.valid.inLayout _ vertices.1).2
  have inBitsV := (inv.valid.inLayout v vertices.2).2
  have mem : bi ∈ (st.full.affected pi).toList (S.layout.numBits pi) :=
    Bitset.mem_toList.mpr ⟨inBitsU, vertices.1⟩
  simp only [StaticConsistencyGraph.initializePair, accepts.2.1, if_true]
  refine foldl_establishes (P := fun st : DynamicGraphs => st.full.HasVertex v)
    (fun st : DynamicGraphs => st.full.HasArc ⟨pi, bi⟩ v) (fun st' active bj _ => ?_)
    (fun st' _ bj _ arc => S.initializeRow_keeps_arc a _ st' _ arc) mem
    (fun st' active => initializeRow_complete accepts active inBitsV) vertices.2
  unfold Graph.HasVertex at active ⊢
  unfold initializeRow
  rwa [foldl_unchanged (fun st : DynamicGraphs => st.full.affected)]
  intro st'' bk _
  split <;> rfl

/-- Processing an independent pair with a delta vertex on one side affects all
active vertices of the other side. -/
theorem initializePair_affects {S : StaticConsistencyGraph α} {a : α} {base st : DynamicGraphs}
    (inv : S.EdgeInvariant a base st) {pair : Nat × Nat}
    (independent : S.binaryDependency pair.1 pair.2 = false) {u v : Vertex}
    (sides : (u.partition, v.partition) = pair ∨ (v.partition, u.partition) = pair)
    (isDelta : base.delta.HasDelta u) (active : base.full.HasVertex v)
    (inBits : u.bit < S.layout.numBits u.partition) :
    (S.initializePair a st pair).delta.HasVertex v := by
  have anyDelta : (st.delta.delta u.partition).any (S.layout.numBits u.partition) = true := by
    rw [inv.same_delta]
    exact Bitset.any_eq_true.mpr ⟨u.bit, inBits, isDelta⟩
  have activeSt : st.full.affected v.partition v.bit = true := by
    rw [inv.same_vertices]
    exact active
  simp only [StaticConsistencyGraph.initializePair, independent, Bool.false_eq_true, if_false]
  rcases sides with rfl | rfl
  · exact unionIf_eq_true.mpr (.inl (unionIf_eq_true.mpr (.inr ⟨anyDelta, rfl, activeSt⟩)))
  · exact unionIf_eq_true.mpr (.inr ⟨anyDelta, rfl, activeSt⟩)

/-- What an update for `a` does to the full graph `before`: the resulting full
graph `full` and the difference `delta`. -/
structure StepSpec (S : StaticConsistencyGraph α) (a : α) (before delta full : Graph) : Prop where
  valid : S.Valid full
  vertex_iff : ∀ v, full.HasVertex v ↔
    before.HasVertex v ∨ (v.partition < S.layout.k ∧ S.Accepts a v)
  arc_iff : ∀ u v, full.HasArc u v ↔ before.HasArc u v ∨
    (full.HasVertex u ∧ full.HasVertex v ∧ (S.AcceptsEdge a u v ∨ S.AcceptsEdge a v u))
  delta_covers : delta.TouchedCovers
  delta_iff : ∀ v, delta.HasDelta v ↔ full.HasVertex v ∧ ¬ before.HasVertex v
  delta_arc : ∀ u v, delta.HasArc u v ↔ full.HasArc u v ∧ ¬ before.HasArc u v
  delta_sub : ∀ v, delta.HasDelta v → delta.HasVertex v
  affected_sub : ∀ v, delta.HasVertex v → full.HasVertex v
  affected_arc : ∀ u v, delta.HasArc u v → delta.HasVertex u
  affected_implicit : ∀ u v, u.partition ≠ v.partition →
    S.binaryDependency u.partition v.partition = false →
    delta.HasDelta u → full.HasVertex v → delta.HasVertex v
  affected_unary : S.layout.k = 1 → ∀ v, delta.HasVertex v → delta.HasDelta v

/-- Before the first partition pair the invariant holds: the vertices have been
updated and there is no delta edge yet. -/
theorem edgeInvariant_vertices {S : StaticConsistencyGraph α} {a : α} {st : DynamicGraphs}
    (valid : S.Valid st.full) (covers : st.delta.TouchedCovers) {vertices : DynamicGraphs}
    (spec : S.VertexSpec a { st with delta := st.delta.reset } S.layout.k vertices) :
    S.EdgeInvariant a vertices { vertices with deltaEdges := [] } := by
  have arcs : ∀ u v, vertices.full.HasArc u v ↔ st.full.HasArc u v := by
    intro u v
    unfold Graph.HasArc
    rw [spec.full_cells.1]
  have noDelta : ∀ u v, ¬ vertices.delta.HasArc u v := by
    intro u v
    unfold Graph.HasArc
    rw [spec.delta_cells.1]
    exact covers.not_hasArc_reset u v
  refine
    { valid := ⟨spec.full_delta, fun v active => ?_, fun u v arc => ?_, fun u v arc => ?_,
        fun u v arc => ?_, fun u v arc => ?_⟩
      same_vertices := rfl
      same_delta := rfl
      arc_mono := fun _ _ arc => arc
      arc_sound := fun _ _ arc => .inl arc
      delta_arc := fun u v => iff_of_false (noDelta u v) fun both => both.2 both.1
      delta_covers := fun u v arc => absurd arc (noDelta u v)
      delta_sub := fun v => (spec.delta_delta v).mp
      affected_sub := fun v affected => ((spec.delta_vertex v).mp affected).1
      affected_arc := fun u v arc => absurd arc (noDelta u v) }
  · rcases (spec.full_vertex v).mp active with old | ⟨inK, accepts⟩
    · exact valid.inLayout v old
    · exact ⟨inK, accepts.1⟩
  · exact (arcs v u).mpr (valid.arc_symm u v ((arcs u v).mp arc))
  · obtain ⟨activeU, activeV⟩ := valid.arc_ends u v ((arcs u v).mp arc)
    exact ⟨(spec.full_vertex u).mpr (.inl activeU), (spec.full_vertex v).mpr (.inl activeV)⟩
  · exact valid.arc_pair u v ((arcs u v).mp arc)
  · change vertices.full.touched u v.partition = true
    rw [spec.full_cells.2]
    exact valid.covers u v ((arcs u v).mp arc)

/-- The update does what `StepSpec` says. -/
theorem initializeDynamicConsistencyGraphs_spec {S : StaticConsistencyGraph α} (a : α)
    {st : DynamicGraphs} (valid : S.Valid st.full) (covers : st.delta.TouchedCovers) :
    S.StepSpec a st.full (S.initializeDynamicConsistencyGraphs a st).delta
      (S.initializeDynamicConsistencyGraphs a st).full := by
  have spec := S.initializeVertices_spec a valid S.layout.k
  set vertices := (List.range S.layout.k).foldl (S.initializePartition a)
    { st with delta := st.delta.reset } with verticesEq
  have start := edgeInvariant_vertices valid covers spec
  have baseValid : S.Valid vertices.full := start.valid
  have keeps : ∀ st', S.EdgeInvariant a vertices st' → ∀ pair ∈ partitionPairs S.layout.k,
      S.EdgeInvariant a vertices (S.initializePair a st' pair) :=
    fun st' inv' pair mem => inv'.initializePair baseValid mem
  have final : S.initializeDynamicConsistencyGraphs a st =
      (partitionPairs S.layout.k).foldl (S.initializePair a) { vertices with deltaEdges := [] } := rfl
  have inv : S.EdgeInvariant a vertices (S.initializeDynamicConsistencyGraphs a st) := by
    rw [final]
    exact foldl_invariant keeps start
  have arcsBefore : ∀ u v, vertices.full.HasArc u v ↔ st.full.HasArc u v := by
    intro u v
    unfold Graph.HasArc
    rw [spec.full_cells.1]
  have active : ∀ v, (S.initializeDynamicConsistencyGraphs a st).full.HasVertex v ↔
      vertices.full.HasVertex v := by
    intro v
    unfold Graph.HasVertex
    rw [inv.same_vertices]
  have isDelta : ∀ v, (S.initializeDynamicConsistencyGraphs a st).delta.HasDelta v ↔
      vertices.delta.HasDelta v := by
    intro v
    unfold Graph.HasDelta
    rw [inv.same_delta]
  have complete : ∀ u v, vertices.full.HasVertex u → vertices.full.HasVertex v →
      S.AcceptsEdge a u v → (S.initializeDynamicConsistencyGraphs a st).full.HasArc u v := by
    intro u v activeU activeV accepts
    rw [final]
    have mem : (u.partition, v.partition) ∈ partitionPairs S.layout.k :=
      mem_partitionPairs.mpr ⟨accepts.1, (baseValid.inLayout v activeV).1⟩
    exact foldl_establishes (fun st : DynamicGraphs => st.full.HasArc u v) keeps
      (fun st' _ pair _ arc => (S.initializePair_keeps a st' pair).1 u v arc) mem
      (fun st' inv' => initializePair_complete inv' accepts activeU activeV) start
  refine
    { valid := inv.valid
      vertex_iff := fun v => (active v).trans (spec.full_vertex v)
      arc_iff := fun u v => ⟨fun arc => ?_, ?_⟩
      delta_covers := inv.delta_covers
      delta_iff := fun v => ?_
      delta_arc := fun u v => by rw [inv.delta_arc, arcsBefore]
      delta_sub := inv.delta_sub
      affected_sub := inv.affected_sub
      affected_arc := inv.affected_arc
      affected_implicit := fun u v different independent deltaU activeV => ?_
      affected_unary := fun unary v affected => ?_ }
  · rcases inv.arc_sound u v arc with old | new
    · exact .inl ((arcsBefore u v).mp old)
    · obtain ⟨activeU, activeV⟩ := inv.valid.arc_ends u v arc
      exact .inr ⟨activeU, activeV, new⟩
  · rintro (old | ⟨activeU, activeV, accepts | accepts⟩)
    · exact inv.arc_mono u v ((arcsBefore u v).mpr old)
    · exact complete u v ((active u).mp activeU) ((active v).mp activeV) accepts
    · exact inv.valid.arc_symm v u
        (complete v u ((active v).mp activeV) ((active u).mp activeU) accepts)
  · rw [isDelta, active, spec.delta_delta, spec.delta_vertex]
  · have inU := inv.valid.inLayout u (inv.affected_sub u (inv.delta_sub u deltaU))
    have inV := inv.valid.inLayout v activeV
    have deltaU' := (isDelta u).mp deltaU
    have activeV' := (active v).mp activeV
    -- The pair is processed in the order of the partitions, whichever side `u` is on.
    obtain ⟨pair, mem, independent', sides⟩ : ∃ pair ∈ partitionPairs S.layout.k,
        S.binaryDependency pair.1 pair.2 = false ∧
          ((u.partition, v.partition) = pair ∨ (v.partition, u.partition) = pair) := by
      rcases Nat.lt_or_gt_of_ne different with lt | gt
      · exact ⟨_, mem_partitionPairs.mpr ⟨lt, inV.1⟩, independent, .inl rfl⟩
      · refine ⟨_, mem_partitionPairs.mpr ⟨gt, inU.1⟩, ?_, .inr rfl⟩
        exact (S.binaryDependency_symm _ _).trans independent
    rw [final]
    exact foldl_establishes (fun st : DynamicGraphs => st.delta.HasVertex v) keeps
      (fun st' _ pair _ affected => (S.initializePair_keeps a st' pair).2 v affected) mem
      (fun st' inv' => initializePair_affects inv' independent' sides deltaU' activeV' inU.2) start
  · rw [isDelta, spec.delta_delta]
    have pairs : partitionPairs S.layout.k = [] := by
      rw [unary]
      rfl
    rw [final, pairs] at affected
    exact affected

end StaticConsistencyGraph

end Tyr.Datalog.Kpkc
