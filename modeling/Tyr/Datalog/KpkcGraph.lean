import Tyr.Lib.Fold
import Mathlib.Data.List.ProdSigma

/-!
The k-partite consistency graphs of a rule.

A vertex is a position in one of the `k` partitions (one per rule parameter).
The delta graph and the full graph are `Graph` values: two vertex sets per
partition and adjacency cells. Only partition pairs with a binary dependency
own explicit cells; the edges of the other pairs are implicit in the vertex
sets (`Graph.getBitset`).

`StaticConsistencyGraph.initializeDynamicConsistencyGraphs` updates both graphs
for the next assignment sets, first the vertices and then the edges, and
`Graph.forEachEdge` lists the edges of a graph.
-/

namespace Tyr.Datalog.Kpkc

open Tyr.Lib

/-! ### Layout and bitsets -/

/-- A vertex: its partition and its bit within the partition. The source
numbers vertices consecutively, `bit_offset` of the partition plus the bit. -/
@[ext] structure Vertex where
  partition : Nat
  bit : Nat
deriving DecidableEq, Repr

/-- An edge, source vertex first. -/
structure Edge where
  src : Vertex
  dst : Vertex
deriving DecidableEq, Repr

/-- The number of partitions and the number of vertices of each partition. -/
structure GraphLayout where
  k : Nat
  numBits : Nat → Nat

/-- A set of bits of one partition. -/
abbrev Bitset := Nat → Bool

/-- The set bits below `n`, ascending. -/
def Bitset.toList (s : Bitset) (n : Nat) : List Nat := (List.range n).filter s

/-- Is one of the bits below `n` set? -/
def Bitset.any (s : Bitset) (n : Nat) : Bool := (List.range n).any s

/-- The number of set bits below `n`. -/
def Bitset.count (s : Bitset) (n : Nat) : Nat := (s.toList n).length

/-- `s` with bit `b` set. -/
def Bitset.set (s : Bitset) (b : Nat) : Bitset := Function.update s b true

@[simp] theorem Bitset.mem_toList {s : Bitset} {n b : Nat} :
    b ∈ s.toList n ↔ b < n ∧ s b = true := by
  simp [Bitset.toList]

theorem Bitset.nodup_toList (s : Bitset) (n : Nat) : (s.toList n).Nodup :=
  List.nodup_range.filter _

theorem Bitset.any_eq_true {s : Bitset} {n : Nat} : s.any n = true ↔ ∃ b < n, s b = true := by
  simp [Bitset.any]

@[simp] theorem Bitset.set_eq_true {s : Bitset} {b c : Nat} :
    s.set b c = true ↔ c = b ∨ s c = true := by
  unfold Bitset.set
  by_cases same : c = b <;> simp [same]

/-- One bitset per partition. -/
abbrev VertexPartitions := Nat → Bitset

/-- Set the bit of `v` in the bitset of its partition. -/
def VertexPartitions.setVertex (P : VertexPartitions) (v : Vertex) : VertexPartitions :=
  Function.update P v.partition ((P v.partition).set v.bit)

theorem VertexPartitions.setVertex_eq_true {P : VertexPartitions} {v : Vertex} {p b : Nat} :
    P.setVertex v p b = true ↔ ⟨p, b⟩ = v ∨ P p b = true := by
  obtain ⟨q, c⟩ := v
  unfold VertexPartitions.setVertex
  by_cases same : p = q
  · subst same
    simp
  · simp [same]

/-! ### Graphs -/

/-- The affected and delta vertices, the explicit adjacency cells and the cells
written since the last reset. -/
structure Graph where
  affected : VertexPartitions
  delta : VertexPartitions
  cells : Vertex → Nat → Bitset
  touched : Vertex → Nat → Bool

/-- The graph with no vertices, no edges and nothing touched. -/
def Graph.empty : Graph where
  affected := fun _ _ => false
  delta := fun _ _ => false
  cells := fun _ _ _ => false
  touched := fun _ _ => false

/-- Clear both vertex sets and exactly the touched cells. -/
def Graph.reset (g : Graph) : Graph where
  affected := fun _ _ => false
  delta := fun _ _ => false
  cells := fun v p => if g.touched v p then fun _ => false else g.cells v p
  touched := fun _ _ => false

/-- Set the bit of `w` in the cell of `v`, and mark the cell as touched. -/
def Graph.setArc (g : Graph) (v w : Vertex) : Graph where
  affected := g.affected
  delta := g.delta
  cells := Function.update g.cells v
    (Function.update (g.cells v) w.partition ((g.cells v w.partition).set w.bit))
  touched := Function.update g.touched v (Function.update (g.touched v) w.partition true)

theorem Graph.setArc_cells {g : Graph} {v w x : Vertex} {p b : Nat} :
    (g.setArc v w).cells x p b = true ↔ (x = v ∧ ⟨p, b⟩ = w) ∨ g.cells x p b = true := by
  obtain ⟨q, c⟩ := w
  simp only [Graph.setArc, Vertex.mk.injEq]
  by_cases sameV : x = v
  · subst sameV
    by_cases sameP : p = q
    · subst sameP
      simp
    · simp [sameP]
  · simp [sameV]

theorem Graph.setArc_touched {g : Graph} {v w x : Vertex} {p : Nat} :
    (g.setArc v w).touched x p = true ↔ (x = v ∧ p = w.partition) ∨ g.touched x p = true := by
  simp only [Graph.setArc]
  by_cases sameV : x = v
  · subst sameV
    by_cases sameP : p = w.partition
    · subst sameP
      simp
    · simp [sameP]
  · simp [sameV]

/-- The neighbours of `v` in partition `p`: the explicit cell when the two
partitions depend on each other; otherwise every affected vertex if `v` is a
delta vertex and the delta vertices of `p` if it is not. -/
def Graph.getBitset (dependency : Nat → Nat → Bool) (g : Graph) (v : Vertex) (p : Nat) : Bitset :=
  if dependency v.partition p then g.cells v p
  else if g.delta v.partition v.bit then g.affected p
  else g.delta p

/-- The affected vertices, partition by partition. -/
def Graph.forEachVertex (L : GraphLayout) (g : Graph) : List Vertex :=
  (List.range L.k).flatMap fun p => ((g.affected p).toList (L.numBits p)).map (Vertex.mk p)

/-- The edges between affected vertices, source vertex by source vertex in the
order of the partitions, and only towards later partitions. -/
def Graph.forEachEdge (L : GraphLayout) (dependency : Nat → Nat → Bool) (g : Graph) : List Edge :=
  (List.range L.k).flatMap fun pi =>
    ((g.affected pi).toList (L.numBits pi)).flatMap fun bi =>
      (List.range' (pi + 1) (L.k - (pi + 1))).flatMap fun pj =>
        (Bitset.toList (fun b => g.getBitset dependency ⟨pi, bi⟩ pj b && g.affected pj b)
          (L.numBits pj)).map fun bj => ⟨⟨pi, bi⟩, ⟨pj, bj⟩⟩

theorem Graph.mem_forEachVertex {L : GraphLayout} {g : Graph} {v : Vertex} :
    v ∈ g.forEachVertex L ↔
      v.partition < L.k ∧ v.bit < L.numBits v.partition ∧ g.affected v.partition v.bit = true := by
  obtain ⟨p, b⟩ := v
  simp only [Graph.forEachVertex, List.mem_flatMap, List.mem_range, List.mem_map,
    Bitset.mem_toList, Vertex.mk.injEq]
  constructor
  · rintro ⟨q, inK, c, ⟨inBits, active⟩, rfl, rfl⟩
    exact ⟨inK, inBits, active⟩
  · rintro ⟨inK, inBits, active⟩
    exact ⟨p, inK, b, ⟨inBits, active⟩, rfl, rfl⟩

theorem Graph.nodup_forEachVertex (L : GraphLayout) (g : Graph) : (g.forEachVertex L).Nodup := by
  refine nodup_flatMap_of_key Vertex.partition List.nodup_range ?_ ?_
  · intro p _
    exact (Bitset.nodup_toList _ _).map fun b c same => (Vertex.mk.inj same).2
  · intro p _ v mem
    obtain ⟨b, _, rfl⟩ := List.mem_map.mp mem
    rfl

theorem Graph.mem_forEachEdge {L : GraphLayout} {dependency : Nat → Nat → Bool} {g : Graph}
    {e : Edge} :
    e ∈ g.forEachEdge L dependency ↔
      e.src.partition < e.dst.partition ∧ e.dst.partition < L.k ∧
      e.src.bit < L.numBits e.src.partition ∧ e.dst.bit < L.numBits e.dst.partition ∧
      g.affected e.src.partition e.src.bit = true ∧ g.affected e.dst.partition e.dst.bit = true ∧
      g.getBitset dependency e.src e.dst.partition e.dst.bit = true := by
  obtain ⟨⟨pi, bi⟩, ⟨pj, bj⟩⟩ := e
  simp only [Graph.forEachEdge, List.mem_flatMap, List.mem_range, List.mem_map,
    Bitset.mem_toList, List.mem_range'_1, Edge.mk.injEq, Vertex.mk.injEq, Bool.and_eq_true]
  constructor
  · rintro ⟨p, inK, b, ⟨inBits, active⟩, q, ⟨later, inK'⟩, c, ⟨inBits', adjacent, active'⟩,
      ⟨rfl, rfl⟩, rfl, rfl⟩
    exact ⟨by omega, by omega, inBits, inBits', active, active', adjacent⟩
  · rintro ⟨later, inK, inBits, inBits', active, active', adjacent⟩
    exact ⟨pi, by omega, bi, ⟨inBits, active⟩, pj, ⟨by omega, by omega⟩, bj,
      ⟨inBits', adjacent, active'⟩, ⟨rfl, rfl⟩, rfl, rfl⟩

theorem Graph.nodup_forEachEdge (L : GraphLayout) (dependency : Nat → Nat → Bool) (g : Graph) :
    (g.forEachEdge L dependency).Nodup := by
  refine nodup_flatMap_of_key (fun e => e.src.partition) List.nodup_range ?_ ?_
  · intro pi _
    refine nodup_flatMap_of_key (fun e => e.src.bit) (Bitset.nodup_toList _ _) ?_ ?_
    · intro bi _
      refine nodup_flatMap_of_key (fun e => e.dst.partition) (List.nodup_range' ..) ?_ ?_
      · intro pj _
        refine (Bitset.nodup_toList _ _).map fun b c same => ?_
        exact (Vertex.mk.inj (Edge.mk.inj same).2).2
      · intro pj _ e mem
        obtain ⟨b, _, rfl⟩ := List.mem_map.mp mem
        rfl
    · intro bi _ e mem
      obtain ⟨pj, _, inner⟩ := List.mem_flatMap.mp mem
      obtain ⟨b, _, rfl⟩ := List.mem_map.mp inner
      rfl
  · intro pi _ e mem
    obtain ⟨bi, _, inner⟩ := List.mem_flatMap.mp mem
    obtain ⟨pj, _, innermost⟩ := List.mem_flatMap.mp inner
    obtain ⟨b, _, rfl⟩ := List.mem_map.mp innermost
    rfl

end Tyr.Datalog.Kpkc
