import Mathlib.Data.List.Perm.Basic
import Mathlib.Logic.Relation
import Tyr.Formalism.Datalog.Program
import Tyr.Formalism.Planning.GroundAction
import Tyr.Lib.Fold
import Tyr.Lib.LongestPath

/-!
Stratification of rules and of ground axioms.

The dependency graph has an edge from each predicate of a body to the predicate of the
head, strict if the literal is negative. The strata are the longest paths in the graph
of its strongly connected components, by the number of strict edges. For ground axioms
the vertices are the derived atoms.

* `computeRuleStratification`, `computeGroundAxiomStratification`.
* `Stratifies` — the strata are those of the least assignment to the vertices.
* `computeStratification_correct` — a stratification, or a negative cycle.
-/

namespace Tyr.Analysis.Stratification

open Tyr.Lib Tyr.Formalism

/-! ### Dependency graphs -/

inductive EdgeKind where
  | nonStrict
  | strict
deriving DecidableEq

def EdgeKind.increment : EdgeKind → Nat
  | .nonStrict => 0
  | .strict => 1

structure Edge where
  source : Nat
  target : Nat
  kind : EdgeKind
deriving DecidableEq

/-- A directed graph on the numbers below its size. -/
structure DepGraph where
  numVertices : Nat
  edges : List Edge

namespace DepGraph

variable (g : DepGraph)

def Adjacent (u v : Nat) : Prop := ∃ edge ∈ g.edges, edge.source = u ∧ edge.target = v

def Reaches : Nat → Nat → Prop := Relation.ReflTransGen g.Adjacent

def InRange : Prop := ∀ edge ∈ g.edges, edge.source < g.numVertices ∧ edge.target < g.numVertices

def Acyclic : Prop := ∀ v, ¬ Relation.TransGen g.Adjacent v v

/-- Some cycle has a strict edge. -/
def NegativeCycle : Prop := ∃ edge ∈ g.edges, edge.kind = .strict ∧ g.Reaches edge.target edge.source

end DepGraph

/-- The graph algorithms: the component of each vertex with the number of components,
and an order of the vertices. -/
structure GraphLibrary where
  strongComponents : DepGraph → (Nat → Nat) × Nat
  topologicalSort : DepGraph → List Nat

/-- Two vertices are in one component if they reach each other. -/
structure IsStrongComponents (g : DepGraph) (comp : Nat → Nat) (num : Nat) : Prop where
  lt : ∀ v < g.numVertices, comp v < num
  same_iff : ∀ u < g.numVertices, ∀ v < g.numVertices,
    (comp u = comp v ↔ g.Reaches u v ∧ g.Reaches v u)

/-- The order is reversed: the target of an edge comes before its source. -/
structure IsReverseTopological (g : DepGraph) (order : List Nat) : Prop where
  perm : order.Perm (List.range g.numVertices)
  before : ∀ edge ∈ g.edges, order.idxOf edge.target < order.idxOf edge.source

/-! ### Strata of components -/

section

variable (library : GraphLibrary)

def computeSccAndCheck (g : DepGraph) : Except String ((Nat → Nat) × Nat) :=
  let components := library.strongComponents g
  if g.edges.any fun edge =>
      edge.kind = .strict && components.1 edge.source == components.1 edge.target then
    .error "Set of ground axioms is not stratifiable (negative cycle within SCC)."
  else .ok components

/-- The entry of a key, which is first created as non-strict, becomes strict with a
strict edge. -/
def raise (slot kind : EdgeKind) : EdgeKind :=
  if slot ≠ .strict ∧ kind = .strict then .strict else slot

def record (best : List ((Nat × Nat) × EdgeKind)) (key : Nat × Nat) (kind : EdgeKind) :
    List ((Nat × Nat) × EdgeKind) :=
  if best.any (·.1 == key) then
    best.map fun entry => if entry.1 = key then (key, raise entry.2 kind) else entry
  else best ++ [(key, raise .nonStrict kind)]

def bestEdges (g : DepGraph) (comp : Nat → Nat) : List ((Nat × Nat) × EdgeKind) :=
  g.edges.foldl (fun best edge =>
    if comp edge.source = comp edge.target then best
    else record best (comp edge.source, comp edge.target) edge.kind) []

/-- The order of the edges has no effect. -/
def buildCondensationDag (g : DepGraph) (comp : Nat → Nat) (numComps : Nat) : DepGraph where
  numVertices := numComps
  edges := (bestEdges g comp).map fun entry => ⟨entry.1.1, entry.1.2, entry.2⟩

def weightedEdges (dag : DepGraph) : List (WeightedEdge Nat) :=
  dag.edges.map fun edge => ⟨edge.source, edge.target, edge.kind.increment⟩

/-- The edges are relaxed in the order of their sources. -/
def computeComponentStrata (dag : DepGraph) : Nat → Nat :=
  WeightedEdge.longestPaths (weightedEdges dag) (library.topologicalSort dag).reverse

/-! ### Stratification -/

/-- The vertices of the heads and of the literals of the bodies of rules. -/
structure Dependencies (ρ : Type) where
  numVertices : Nat
  head : ρ → Nat
  body : ρ → List (Nat × Bool)

variable {ρ : Type}

/-- An edge for each literal of a body. -/
def Dependencies.graph (deps : Dependencies ρ) (rules : List ρ) : DepGraph where
  numVertices := deps.numVertices
  edges := rules.flatMap fun rule => (deps.body rule).map fun literal =>
    ⟨literal.1, deps.head rule, if literal.2 then .nonStrict else .strict⟩

/-- The rules in the buckets of their heads. -/
def fillBuckets (size : Nat) (stratum : ρ → Nat) (rules : List ρ) : List (List ρ) :=
  rules.foldl (fun buckets rule => buckets.modify (stratum rule) (· ++ [rule]))
    (List.replicate size [])

def computeStratification (deps : Dependencies ρ) (rules : List ρ) :
    Except String (List (List ρ)) := do
  let dep := deps.graph rules
  let components ← computeSccAndCheck library dep
  let dag := buildCondensationDag dep components.1 components.2
  let compStratum := computeComponentStrata library dag
  let maxStratum := ((List.range components.2).map compStratum).foldl max 0
  pure (fillBuckets (maxStratum + 1) (fun rule => compStratum (components.1 (deps.head rule))) rules)

end

/-! ### The condensation -/

theorem increment_raise (slot kind : EdgeKind) :
    (raise slot kind).increment = max slot.increment kind.increment := by
  cases slot <;> cases kind <;> rfl

theorem mem_record {best : List ((Nat × Nat) × EdgeKind)} {key : Nat × Nat} {kind : EdgeKind}
    {entry : (Nat × Nat) × EdgeKind} (mem : entry ∈ record best key kind) :
    entry ∈ best ∨ (entry.1 = key ∧ ∃ slot, ((key, slot) ∈ best ∨ slot = .nonStrict) ∧
      entry.2 = raise slot kind) := by
  unfold record at mem
  split at mem
  · obtain ⟨old, memOld, rfl⟩ := List.mem_map.mp mem
    by_cases same : old.1 = key
    · rw [if_pos same]
      exact Or.inr ⟨rfl, old.2, Or.inl (same ▸ memOld), rfl⟩
    · rw [if_neg same]
      exact Or.inl memOld
  · obtain mem | mem := List.mem_append.mp mem
    · exact Or.inl mem
    · rw [List.mem_singleton.mp mem]
      exact Or.inr ⟨rfl, .nonStrict, Or.inr rfl, rfl⟩

/-- The new edge has an entry that is at least as strict. -/
theorem exists_record (best : List ((Nat × Nat) × EdgeKind)) (key : Nat × Nat) (kind : EdgeKind) :
    ∃ slot, (key, slot) ∈ record best key kind ∧ kind.increment ≤ slot.increment := by
  unfold record
  split
  · rename_i known
    obtain ⟨old, mem, same⟩ := List.any_eq_true.mp known
    refine ⟨raise old.2 kind, List.mem_map.mpr ⟨old, mem, ?_⟩, ?_⟩
    · rw [if_pos (eq_of_beq same)]
    · rw [increment_raise]
      exact le_max_right _ _
  · refine ⟨raise .nonStrict kind, List.mem_append_right _ List.mem_cons_self, ?_⟩
    rw [increment_raise]
    exact le_max_right _ _

/-- An earlier entry does not become less strict. -/
theorem exists_record_of_mem {best : List ((Nat × Nat) × EdgeKind)} {key other : Nat × Nat}
    {kind slot : EdgeKind} (mem : (key, slot) ∈ best) :
    ∃ slot', (key, slot') ∈ record best other kind ∧ slot.increment ≤ slot'.increment := by
  unfold record
  split
  · by_cases same : key = other
    · refine ⟨raise slot kind, List.mem_map.mpr ⟨_, mem, ?_⟩, ?_⟩
      · rw [if_pos same, same]
      · rw [increment_raise]
        exact le_max_left _ _
    · exact ⟨slot, List.mem_map.mpr ⟨_, mem, if_neg same⟩, Nat.le_refl _⟩
  · exact ⟨slot, List.mem_append_left _ mem, Nat.le_refl _⟩

section

variable {g : DepGraph} {comp : Nat → Nat} {num : Nat}

/-- An entry comes from an edge between two components that is at least as strict. -/
theorem edge_of_mem_bestEdges {entry : (Nat × Nat) × EdgeKind} (mem : entry ∈ bestEdges g comp) :
    entry.1.1 ≠ entry.1.2 ∧ ∃ edge ∈ g.edges, comp edge.source = entry.1.1 ∧
      comp edge.target = entry.1.2 ∧ entry.2.increment ≤ edge.kind.increment := by
  let P (best : List ((Nat × Nat) × EdgeKind)) : Prop := ∀ entry ∈ best, entry.1.1 ≠ entry.1.2 ∧
    ∃ edge ∈ g.edges, comp edge.source = entry.1.1 ∧ comp edge.target = entry.1.2 ∧
      entry.2.increment ≤ edge.kind.increment
  have all : P (bestEdges g comp) := by
    refine foldl_invariant (fun best justified edge memEdge => ?_) fun entry mem => absurd mem List.not_mem_nil
    split
    · exact justified
    · rename_i different
      intro entry mem
      obtain mem | ⟨key, slot, origin, kind⟩ := mem_record mem
      · exact justified entry mem
      · rw [key, kind, increment_raise]
        refine ⟨different, ?_⟩
        obtain le | gt := Nat.le_total slot.increment edge.kind.increment
        · exact ⟨edge, memEdge, rfl, rfl, by rw [max_eq_right le]⟩
        · obtain old | new := origin
          · obtain ⟨_, edge', memEdge', source, target, le⟩ := justified _ old
            exact ⟨edge', memEdge', source, target, by rw [max_eq_left gt]; exact le⟩
          · rw [new]
            exact ⟨edge, memEdge, rfl, rfl, max_le (Nat.zero_le _) (Nat.le_refl _)⟩
  exact all entry mem

/-- An edge between two components has an entry that is at least as strict. -/
theorem exists_mem_bestEdges {edge : Edge} (mem : edge ∈ g.edges)
    (different : comp edge.source ≠ comp edge.target) :
    ∃ slot, ((comp edge.source, comp edge.target), slot) ∈ bestEdges g comp ∧
      edge.kind.increment ≤ slot.increment := by
  refine foldl_establishes (P := fun _ => True)
    (fun best => ∃ slot : EdgeKind, ((comp edge.source, comp edge.target), slot) ∈ best ∧
      edge.kind.increment ≤ slot.increment)
    (fun _ _ _ _ => trivial) ?_ mem ?_ trivial
  · rintro best - other _ ⟨slot, memSlot, le⟩
    split
    · exact ⟨slot, memSlot, le⟩
    · obtain ⟨slot', memSlot', le'⟩ := exists_record_of_mem memSlot
      exact ⟨slot', memSlot', Nat.le_trans le le'⟩
  · intro best _
    rw [if_neg different]
    exact exists_record best _ _

theorem mem_dag_edges {edge : Edge} : edge ∈ (buildCondensationDag g comp num).edges ↔
    ((edge.source, edge.target), edge.kind) ∈ bestEdges g comp := by
  simp only [buildCondensationDag, List.mem_map]
  constructor
  · rintro ⟨entry, mem, rfl⟩
    exact mem
  · intro mem
    exact ⟨_, mem, rfl⟩

variable (inRange : g.InRange) (components : IsStrongComponents g comp num)
include inRange components

/-- A path of the condensation leads from each vertex of a component. -/
theorem exists_reaches {a b u : Nat} (inGraph : u < g.numVertices) (start : comp u = a)
    (path : Relation.ReflTransGen (buildCondensationDag g comp num).Adjacent a b) :
    ∃ v < g.numVertices, comp v = b ∧ g.Reaches u v := by
  induction path with
  | refl => exact ⟨u, inGraph, start, .refl⟩
  | tail _ step ih =>
      obtain ⟨v, ltV, compV, reaches⟩ := ih
      obtain ⟨dagEdge, memDag, rfl, rfl⟩ := step
      obtain ⟨_, edge, mem, source, target, _⟩ := edge_of_mem_bestEdges (mem_dag_edges.mp memDag)
      obtain ⟨ltSource, ltTarget⟩ := inRange edge mem
      have back := ((components.same_iff v ltV _ ltSource).mp (compV.trans source.symm)).1
      exact ⟨edge.target, ltTarget, target, (reaches.trans back).tail ⟨edge, mem, rfl, rfl⟩⟩

theorem acyclic_dag : (buildCondensationDag g comp num).Acyclic := by
  intro a cycle
  obtain ⟨b, ⟨dagEdge, memDag, rfl, rfl⟩, path⟩ := Relation.TransGen.head'_iff.mp cycle
  obtain ⟨ne, edge, mem, source, target, _⟩ := edge_of_mem_bestEdges (mem_dag_edges.mp memDag)
  obtain ⟨ltSource, ltTarget⟩ := inRange edge mem
  obtain ⟨v, ltV, compV, reaches⟩ := exists_reaches inRange components ltTarget target path
  have back := ((components.same_iff v ltV _ ltSource).mp (compV.trans source.symm)).1
  apply ne
  rw [← source, ← target]
  exact (components.same_iff _ ltSource _ ltTarget).mpr
    ⟨.single ⟨edge, mem, rfl, rfl⟩, reaches.trans back⟩

end

/-! ### Least strata -/

/-- The values grow along the edges, and properly along the strict ones. -/
def Respects (g : DepGraph) (stratum : Nat → Nat) : Prop :=
  ∀ edge ∈ g.edges, stratum edge.source + edge.kind.increment ≤ stratum edge.target

section

variable {g : DepGraph} {comp : Nat → Nat} {num : Nat} {stratum : Nat → Nat}

theorem Respects.mono (respects : Respects g stratum) {u v : Nat} (reaches : g.Reaches u v) :
    stratum u ≤ stratum v := by
  induction reaches with
  | refl => exact Nat.le_refl _
  | tail _ step ih =>
      obtain ⟨edge, mem, rfl, rfl⟩ := step
      exact Nat.le_trans ih (Nat.le_trans (Nat.le_add_right _ _) (respects edge mem))

theorem feasible_iff {dag : DepGraph} :
    WeightedEdge.Feasible (weightedEdges dag) stratum ↔ Respects dag stratum := by
  constructor
  · intro feasible edge mem
    exact feasible _ (List.mem_map.mpr ⟨edge, mem, rfl⟩)
  · intro respects edge mem
    obtain ⟨origin, memOrigin, rfl⟩ := List.mem_map.mp mem
    exact respects origin memOrigin

/-- The targets of edges come behind the sources in the reversed order. -/
theorem topological_reverse {dag : DepGraph} {order : List Nat} (sorted : IsReverseTopological dag order) :
    WeightedEdge.Topological (weightedEdges dag) order.reverse := by
  refine WeightedEdge.topological_of_split fun front u back split edge mem source => ?_
  obtain ⟨origin, memOrigin, rfl⟩ := List.mem_map.mp mem
  have parts : order = back.reverse ++ u :: front.reverse := by
    rw [← List.reverse_reverse order, split]
    simp
  have nodup : (back.reverse ++ u :: front.reverse).Nodup := by
    rw [← parts]
    exact sorted.perm.nodup_iff.mpr List.nodup_range
  have absent : u ∉ back.reverse := by
    intro memBack
    exact (List.nodup_append.mp nodup).2.2 u memBack u List.mem_cons_self rfl
  have earlier := sorted.before origin memOrigin
  dsimp only at source ⊢
  rw [source, parts, List.idxOf_append_of_notMem absent, List.idxOf_cons_self, Nat.add_zero,
    List.idxOf_append] at earlier
  split at earlier
  · rename_i memTarget
    exact List.mem_reverse.mp memTarget
  · omega

theorem inRange_dag (inRange : g.InRange) (components : IsStrongComponents g comp num) :
    (buildCondensationDag g comp num).InRange := by
  intro edge mem
  obtain ⟨_, origin, memOrigin, source, target, _⟩ := edge_of_mem_bestEdges (mem_dag_edges.mp mem)
  obtain ⟨ltSource, ltTarget⟩ := inRange origin memOrigin
  dsimp only at source target
  rw [← source, ← target]
  exact ⟨components.lt _ ltSource, components.lt _ ltTarget⟩

/-- What respects the condensation respects the graph, if components have no strict edge. -/
theorem respects_of_dag
    (check : ∀ edge ∈ g.edges, edge.kind = .strict → comp edge.source ≠ comp edge.target)
    (respects : Respects (buildCondensationDag g comp num) stratum) :
    Respects g fun v => stratum (comp v) := by
  intro edge mem
  dsimp only
  by_cases same : comp edge.source = comp edge.target
  · cases kind : edge.kind with
    | nonStrict => rw [same]; exact Nat.le_refl _
    | strict => exact absurd same (check edge mem kind)
  · obtain ⟨slot, memSlot, le⟩ := exists_mem_bestEdges mem same
    have bound := respects ⟨comp edge.source, comp edge.target, slot⟩ (mem_dag_edges.mpr memSlot)
    exact Nat.le_trans (Nat.add_le_add_left le _) bound

/-- What respects the graph is the same on a component and respects the condensation. -/
theorem exists_respects_dag (inRange : g.InRange) (components : IsStrongComponents g comp num)
    (respects : Respects g stratum) :
    ∃ onComponents, Respects (buildCondensationDag g comp num) onComponents ∧
      ∀ v < g.numVertices, onComponents (comp v) = stratum v := by
  classical
  let onComponents (c : Nat) : Nat :=
    if vertex : ∃ v < g.numVertices, comp v = c then stratum vertex.choose else 0
  have agrees : ∀ v < g.numVertices, onComponents (comp v) = stratum v := by
    intro v lt
    have vertex : ∃ u < g.numVertices, comp u = comp v := ⟨v, lt, rfl⟩
    obtain ⟨ltChosen, sameComp⟩ := vertex.choose_spec
    obtain ⟨forth, back⟩ := (components.same_iff _ ltChosen v lt).mp sameComp
    have chosen : onComponents (comp v) = stratum vertex.choose := dif_pos vertex
    rw [chosen]
    exact Nat.le_antisymm (respects.mono forth) (respects.mono back)
  refine ⟨onComponents, fun edge mem => ?_, agrees⟩
  obtain ⟨_, origin, memOrigin, source, target, le⟩ := edge_of_mem_bestEdges (mem_dag_edges.mp mem)
  obtain ⟨ltSource, ltTarget⟩ := inRange origin memOrigin
  dsimp only at source target le
  rw [← source, ← target, agrees _ ltSource, agrees _ ltTarget]
  exact Nat.le_trans (Nat.add_le_add_left le _) (respects origin memOrigin)

end

/-! ### Buckets -/

section

variable {ρ : Type} {size : Nat} {stratum : ρ → Nat} {rules : List ρ}

theorem getElem?_foldl_modify {buckets : List (List ρ)} (i : Nat) :
    (rules.foldl (fun buckets rule => buckets.modify (stratum rule) (· ++ [rule])) buckets)[i]? =
      buckets[i]?.map (· ++ rules.filter fun rule => stratum rule = i) := by
  induction rules generalizing buckets with
  | nil => simp
  | cons rule rules ih =>
      rw [List.foldl_cons, ih, List.getElem?_modify, Option.map_eq_map, Option.map_map, List.filter_cons]
      by_cases same : stratum rule = i
      · simp [same, Function.comp_def]
      · simp [same, Function.comp_def]

theorem getElem?_fillBuckets {i : Nat} (lt : i < size) :
    (fillBuckets size stratum rules)[i]? = some (rules.filter fun rule => stratum rule = i) := by
  rw [fillBuckets, getElem?_foldl_modify, List.getElem?_replicate, if_pos lt]
  rfl

theorem length_fillBuckets : (fillBuckets size stratum rules).length = size := by
  have kept : (fillBuckets size stratum rules).length = (List.replicate size ([] : List ρ)).length :=
    foldl_unchanged List.length (fun buckets rule _ => List.length_modify _ _ _) _
  rw [kept, List.length_replicate]

theorem flatten_modify_perm {buckets : List (List ρ)} {i : Nat} (lt : i < buckets.length) (rule : ρ) :
    (buckets.modify i (· ++ [rule])).flatten.Perm (rule :: buckets.flatten) := by
  induction buckets generalizing i with
  | nil => cases lt
  | cons bucket buckets ih =>
      cases i with
      | zero =>
          rw [List.modify_zero_cons, List.flatten_cons, List.flatten_cons, List.append_assoc]
          exact List.perm_middle
      | succ i =>
          rw [List.modify_succ_cons, List.flatten_cons, List.flatten_cons]
          exact ((ih (Nat.lt_of_succ_lt_succ lt)).append_left bucket).trans List.perm_middle

theorem flatten_foldl_modify_perm {buckets : List (List ρ)}
    (within : ∀ rule ∈ rules, stratum rule < buckets.length) :
    (rules.foldl (fun buckets rule => buckets.modify (stratum rule) (· ++ [rule])) buckets).flatten.Perm
      (buckets.flatten ++ rules) := by
  induction rules generalizing buckets with
  | nil => simp
  | cons rule rules ih =>
      obtain ⟨first, rest⟩ := List.forall_mem_cons.mp within
      have added := flatten_modify_perm first rule
      have tail : ∀ r ∈ rules, stratum r < (buckets.modify (stratum rule) (· ++ [rule])).length := by
        intro r mem
        rw [List.length_modify]
        exact rest r mem
      exact (ih tail).trans ((added.append_right rules).trans List.perm_middle.symm)

/-- Every rule is in one bucket. -/
theorem flatten_fillBuckets_perm (within : ∀ rule ∈ rules, stratum rule < size) :
    (fillBuckets size stratum rules).flatten.Perm rules := by
  have perm := @flatten_foldl_modify_perm ρ stratum rules (List.replicate size []) (by simpa using within)
  simpa [fillBuckets] using perm

end

/-! ### Correctness -/

section

variable {ρ : Type}

/-- The strata list each rule once, in the stratum of its head under the least
assignment to the vertices that respects the uses of a vertex in a body. -/
structure IsStratification (deps : Dependencies ρ) (rules : List ρ) (strata : List (List ρ))
    (stratum : Nat → Nat) : Prop where
  positive : ∀ rule ∈ rules, ∀ v, (v, true) ∈ deps.body rule → stratum v ≤ stratum (deps.head rule)
  negative : ∀ rule ∈ rules, ∀ v, (v, false) ∈ deps.body rule → stratum v < stratum (deps.head rule)
  least : ∀ other : Nat → Nat,
    (∀ rule ∈ rules, ∀ v, (v, true) ∈ deps.body rule → other v ≤ other (deps.head rule)) →
    (∀ rule ∈ rules, ∀ v, (v, false) ∈ deps.body rule → other v < other (deps.head rule)) →
    ∀ v < deps.numVertices, stratum v ≤ other v
  listed : ∀ i < strata.length,
    strata[i]? = some (rules.filter fun rule => stratum (deps.head rule) = i)
  once : strata.flatten.Perm rules

/-- The heads and the literals are vertices. -/
def Dependencies.Closed (deps : Dependencies ρ) (rules : List ρ) : Prop :=
  ∀ rule ∈ rules, deps.head rule < deps.numVertices ∧
    ∀ literal ∈ deps.body rule, literal.1 < deps.numVertices

/-- A negative cycle is reported, otherwise the rules are stratified. -/
inductive IsCorrect (deps : Dependencies ρ) (rules : List ρ) :
    Except String (List (List ρ)) → Prop
  | error (message : String) (cycle : (deps.graph rules).NegativeCycle) : IsCorrect deps rules (.error message)
  | ok (strata : List (List ρ)) (noCycle : ¬ (deps.graph rules).NegativeCycle)
      (stratified : ∃ stratum, IsStratification deps rules strata stratum) :
      IsCorrect deps rules (.ok strata)

/-- The algorithms meet their specifications on a graph and on its condensation. -/
structure GraphLibrary.CorrectOn (library : GraphLibrary) (g : DepGraph) : Prop where
  components : IsStrongComponents g (library.strongComponents g).1 (library.strongComponents g).2
  order : ∀ dag, dag = buildCondensationDag g (library.strongComponents g).1 (library.strongComponents g).2 →
    dag.InRange → dag.Acyclic → IsReverseTopological dag (library.topologicalSort dag)

variable {deps : Dependencies ρ} {rules : List ρ} {library : GraphLibrary}

theorem mem_graph_edges {edge : Edge} : edge ∈ (deps.graph rules).edges ↔
    ∃ rule ∈ rules, ∃ literal ∈ deps.body rule,
      (⟨literal.1, deps.head rule, if literal.2 then .nonStrict else .strict⟩ : Edge) = edge := by
  simp only [Dependencies.graph, List.mem_flatMap, List.mem_map]

theorem inRange_graph (closed : deps.Closed rules) : (deps.graph rules).InRange := by
  intro edge mem
  obtain ⟨rule, memRule, literal, memLiteral, rfl⟩ := mem_graph_edges.mp mem
  obtain ⟨headLt, bodyLt⟩ := closed rule memRule
  exact ⟨bodyLt literal memLiteral, headLt⟩

theorem respects_graph_iff {stratum : Nat → Nat} : Respects (deps.graph rules) stratum ↔
    (∀ rule ∈ rules, ∀ v, (v, true) ∈ deps.body rule → stratum v ≤ stratum (deps.head rule)) ∧
    ∀ rule ∈ rules, ∀ v, (v, false) ∈ deps.body rule → stratum v < stratum (deps.head rule) := by
  constructor
  · intro respects
    exact ⟨fun rule memRule v mem => respects _ (mem_graph_edges.mpr ⟨rule, memRule, _, mem, rfl⟩),
      fun rule memRule v mem => respects _ (mem_graph_edges.mpr ⟨rule, memRule, _, mem, rfl⟩)⟩
  · rintro ⟨positive, negative⟩ edge mem
    obtain ⟨rule, memRule, ⟨v, polarity⟩, memLiteral, rfl⟩ := mem_graph_edges.mp mem
    cases polarity with
    | true => exact positive rule memRule v memLiteral
    | false => exact negative rule memRule v memLiteral

/-- A strict edge stays in its component exactly when it is on a cycle. -/
theorem negativeCycle_iff {g : DepGraph} {comp : Nat → Nat} {num : Nat} (inRange : g.InRange)
    (components : IsStrongComponents g comp num) : g.NegativeCycle ↔
      (g.edges.any fun edge => edge.kind = .strict && comp edge.source == comp edge.target) = true := by
  rw [List.any_eq_true]
  constructor
  · rintro ⟨edge, mem, strict, back⟩
    obtain ⟨ltSource, ltTarget⟩ := inRange edge mem
    have same := (components.same_iff _ ltSource _ ltTarget).mpr ⟨.single ⟨edge, mem, rfl, rfl⟩, back⟩
    exact ⟨edge, mem, by simp [strict, same]⟩
  · rintro ⟨edge, mem, inside⟩
    rw [Bool.and_eq_true, decide_eq_true_iff, beq_iff_eq] at inside
    obtain ⟨ltSource, ltTarget⟩ := inRange edge mem
    exact ⟨edge, mem, inside.1, ((components.same_iff _ ltSource _ ltTarget).mp inside.2).2⟩

/-- The strata of the components are the least that respect the graph. -/
theorem computeComponentStrata_spec {g : DepGraph} (inRange : g.InRange) (correct : library.CorrectOn g)
    (noCycle : ¬ g.NegativeCycle) {stratum : Nat → Nat}
    (computed : stratum = fun v => computeComponentStrata library
      (buildCondensationDag g (library.strongComponents g).1 (library.strongComponents g).2)
      ((library.strongComponents g).1 v)) :
    Respects g stratum ∧ ∀ other, Respects g other → ∀ v < g.numVertices, stratum v ≤ other v := by
  have components := correct.components
  have sorted := correct.order _ rfl (inRange_dag inRange components) (acyclic_dag inRange components)
  have inRangeDag := inRange_dag inRange components
  subst computed
  constructor
  · apply respects_of_dag
    · intro edge mem strict same
      obtain ⟨ltSource, ltTarget⟩ := inRange edge mem
      exact noCycle ⟨edge, mem, strict, ((components.same_iff _ ltSource _ ltTarget).mp same).2⟩
    · apply feasible_iff.mp
      apply WeightedEdge.longestPaths_feasible (topological_reverse sorted)
      · exact List.nodup_reverse.mpr (sorted.perm.nodup_iff.mpr List.nodup_range)
      · intro edge mem
        obtain ⟨origin, memOrigin, rfl⟩ := List.mem_map.mp mem
        exact List.mem_reverse.mpr (sorted.perm.mem_iff.mpr
          (List.mem_range.mpr (inRangeDag origin memOrigin).1))
  · intro other respects v lt
    obtain ⟨onComponents, respectsDag, agrees⟩ := exists_respects_dag inRange components respects
    dsimp only
    rw [← agrees v lt]
    exact WeightedEdge.longestPaths_le (feasible_iff.mpr respectsDag) _

theorem le_foldl_max {values : List Nat} {value start : Nat} (mem : value ∈ values) :
    value ≤ values.foldl max start :=
  @foldl_establishes _ _ max (fun _ => True) (fun best => value ≤ best) _ (fun _ _ _ _ => trivial)
    (fun _ _ _ _ le => le_trans le (le_max_left _ _)) _ mem (fun _ _ => le_max_right _ _) _ trivial

theorem computeStratification_correct (closed : deps.Closed rules)
    (correct : library.CorrectOn (deps.graph rules)) :
    IsCorrect deps rules (computeStratification library deps rules) := by
  have inRange := inRange_graph closed
  have cycle := negativeCycle_iff inRange correct.components
  unfold computeStratification computeSccAndCheck
  dsimp only
  split
  · rename_i inside
    exact .error _ (cycle.mpr inside)
  · rename_i outside
    have noCycle : ¬ (deps.graph rules).NegativeCycle := fun negative => outside (cycle.mp negative)
    obtain ⟨respects, least⟩ := computeComponentStrata_spec inRange correct noCycle rfl
    obtain ⟨positive, negative⟩ := respects_graph_iff.mp respects
    refine .ok _ noCycle ⟨_, positive, negative, ?_, ?_, ?_⟩
    · intro other otherPositive otherNegative
      exact least other (respects_graph_iff.mpr ⟨otherPositive, otherNegative⟩)
    · intro i lt
      rw [length_fillBuckets] at lt
      exact getElem?_fillBuckets lt
    · apply flatten_fillBuckets_perm
      intro rule mem
      apply Nat.lt_succ_of_le
      apply le_foldl_max
      exact List.mem_map.mpr ⟨_, List.mem_range.mpr (correct.components.lt _ (closed rule mem).1), rfl⟩

end

/-! ### Programs and ground axioms -/

open Datalog

/-- A program whose fluent predicates are the numbers below a bound. -/
structure PredicateProgram where
  program : Program
  numFluentPredicates : Nat
  head_lt : ∀ rule ∈ program.rules, rule.head.predicate < numFluentPredicates
  body_lt : ∀ rule ∈ program.rules, ∀ literal ∈ rule.body.fluentLiterals,
    literal.atom.predicate < numFluentPredicates

def PredicateProgram.dependencies (program : PredicateProgram) : Dependencies Rule where
  numVertices := program.numFluentPredicates
  head rule := rule.head.predicate
  body rule := rule.body.fluentLiterals.map fun literal => (literal.atom.predicate, literal.polarity)

def computeRuleStratification (library : GraphLibrary) (program : PredicateProgram) :
    Except String (List (List Rule)) :=
  computeStratification library program.dependencies program.program.rules

structure GroundAxiom where
  head : Nat
  body : Planning.GroundConjunctiveCondition

/-- The derived atoms of a ground task are the numbers below a bound. -/
structure GroundAxiomTask where
  numDerivedAtoms : Nat
  groundAxioms : List GroundAxiom
  head_lt : ∀ rule ∈ groundAxioms, rule.head < numDerivedAtoms
  body_lt : ∀ rule ∈ groundAxioms, ∀ literal ∈ rule.body.derivedLiterals, literal.atom < numDerivedAtoms

def GroundAxiomTask.dependencies (task : GroundAxiomTask) : Dependencies GroundAxiom where
  numVertices := task.numDerivedAtoms
  head rule := rule.head
  body rule := rule.body.derivedLiterals.map fun literal => (literal.atom, literal.polarity)

def computeGroundAxiomStratification (library : GraphLibrary) (task : GroundAxiomTask) :
    Except String (List (List GroundAxiom)) :=
  computeStratification library task.dependencies task.groundAxioms

theorem PredicateProgram.closed (program : PredicateProgram) :
    program.dependencies.Closed program.program.rules := by
  intro rule mem
  refine ⟨program.head_lt rule mem, fun literal memLiteral => ?_⟩
  obtain ⟨origin, memOrigin, rfl⟩ := List.mem_map.mp memLiteral
  exact program.body_lt rule mem origin memOrigin

theorem GroundAxiomTask.closed (task : GroundAxiomTask) :
    task.dependencies.Closed task.groundAxioms := by
  intro rule mem
  refine ⟨task.head_lt rule mem, fun literal memLiteral => ?_⟩
  obtain ⟨origin, memOrigin, rfl⟩ := List.mem_map.mp memLiteral
  exact task.body_lt rule mem origin memOrigin

/-- Programs and ground axioms are stratified, or a negative cycle is reported. -/
theorem stratification_correct (library : GraphLibrary) :
    (∀ program : PredicateProgram,
      library.CorrectOn (program.dependencies.graph program.program.rules) →
      IsCorrect program.dependencies program.program.rules (computeRuleStratification library program)) ∧
    ∀ task : GroundAxiomTask, library.CorrectOn (task.dependencies.graph task.groundAxioms) →
      IsCorrect task.dependencies task.groundAxioms (computeGroundAxiomStratification library task) :=
  ⟨fun program correct => computeStratification_correct program.closed correct,
    fun task correct => computeStratification_correct task.closed correct⟩

/-! ### A predicate without rules -/

/-- On a graph whose edges lead to smaller numbers the vertices are the components and
the numbers are in a reversed order. -/
def descendingLibrary : GraphLibrary where
  strongComponents g := (id, g.numVertices)
  topologicalSort g := List.range g.numVertices

theorem descendingLibrary_correctOn {g : DepGraph}
    (descends : ∀ edge ∈ g.edges, edge.target < edge.source) : descendingLibrary.CorrectOn g := by
  have reaches_le {u v : Nat} (reaches : g.Reaches u v) : v ≤ u := by
    induction reaches with
    | refl => exact Nat.le_refl _
    | tail _ step ih =>
        obtain ⟨edge, mem, rfl, rfl⟩ := step
        exact Nat.le_trans (Nat.le_of_lt (descends edge mem)) ih
  refine ⟨⟨fun v lt => lt, fun u _ v _ => ⟨?_, ?_⟩⟩, ?_⟩
  · rintro rfl
    exact ⟨.refl, .refl⟩
  · rintro ⟨forth, back⟩
    exact Nat.le_antisymm (reaches_le back) (reaches_le forth)
  · rintro dag rfl inRangeDag _
    refine ⟨List.Perm.refl _, fun edge mem => ?_⟩
    obtain ⟨_, origin, memOrigin, source, target, _⟩ := edge_of_mem_bestEdges (mem_dag_edges.mp mem)
    have less : edge.target < edge.source := by
      dsimp only [descendingLibrary, id] at source target
      rw [← target, ← source]
      exact descends origin memOrigin
    obtain ⟨ltSource, ltTarget⟩ := inRangeDag edge mem
    have position {v : Nat} (lt : v < g.numVertices) : (List.range g.numVertices).idxOf v = v := by
      have at_v := List.nodup_range.idxOf_getElem v (by rw [List.length_range]; exact lt)
      rw [List.getElem_range] at at_v
      exact at_v
    change (List.range g.numVertices).idxOf edge.target < (List.range g.numVertices).idxOf edge.source
    rw [position ltSource, position ltTarget]
    exact less

def negatedRule : Rule where
  arity := 0
  body := { fluentLiterals := [⟨⟨1, []⟩, false⟩] }
  head := ⟨0, []⟩

theorem negatedRule_closed : ∀ rule ∈ [negatedRule], ∀ index,
    Term.parameter index ∈ rule.head.terms → index < rule.arity := by
  intro rule mem index memTerm
  rw [List.mem_singleton.mp mem] at memTerm
  cases memTerm

def negatedOnly : Program where
  objects := []
  arity _ := 0
  staticAtoms := []
  fluentAtoms := []
  staticFtermValues := []
  fluentFtermValues := []
  rules := [negatedRule]
  heads_closed := negatedRule_closed

theorem negatedOnly_head_lt : ∀ rule ∈ negatedOnly.rules, rule.head.predicate < 2 := by
  intro rule mem
  rw [List.mem_singleton.mp mem]
  decide

theorem negatedOnly_body_lt : ∀ rule ∈ negatedOnly.rules, ∀ literal ∈ rule.body.fluentLiterals,
    literal.atom.predicate < 2 := by
  intro rule mem literal memLiteral
  rw [List.mem_singleton.mp mem] at memLiteral
  rw [List.mem_singleton.mp memLiteral]
  decide

/-- The negated predicate has no rules. -/
def negatedProgram : PredicateProgram where
  program := negatedOnly
  numFluentPredicates := 2
  head_lt := negatedOnly_head_lt
  body_lt := negatedOnly_body_lt

theorem negatedProgram_correctOn :
    descendingLibrary.CorrectOn (negatedProgram.dependencies.graph negatedProgram.program.rules) := by
  apply descendingLibrary_correctOn
  intro edge mem
  obtain ⟨rule, memRule, literal, memLiteral, rfl⟩ := mem_graph_edges.mp mem
  cases List.mem_singleton.mp memRule
  cases List.mem_singleton.mp memLiteral
  decide

/-- The strata that only rules impose: those of the rules of a used vertex are not later,
and earlier if the use is negative. -/
def MeetsUses {ρ : Type} (deps : Dependencies ρ) (rules : List ρ) (number : ρ → Nat) : Prop :=
  ∀ rule ∈ rules, ∀ used ∈ rules,
    ((deps.head used, true) ∈ deps.body rule → number used ≤ number rule) ∧
    ((deps.head used, false) ∈ deps.body rule → number used < number rule)

/-- The stratum of a rule is not the least that the other rules allow. -/
theorem negatedProgram_second_stratum :
    descendingLibrary.CorrectOn (negatedProgram.dependencies.graph negatedProgram.program.rules) ∧
      computeRuleStratification descendingLibrary negatedProgram = .ok [[], [negatedRule]] ∧
      MeetsUses negatedProgram.dependencies negatedProgram.program.rules fun _ => 0 := by
  refine ⟨negatedProgram_correctOn, rfl, ?_⟩
  intro rule mem used memUsed
  cases List.mem_singleton.mp mem
  cases List.mem_singleton.mp memUsed
  exact ⟨fun _ => Nat.le_refl _, by decide⟩

/-- Atom 0 holds unless atom 1 does. -/
def negatedAxiom : GroundAxiom where
  head := 0
  body := { derivedLiterals := [⟨1, false⟩] }

theorem negatedAxiom_head_lt : ∀ rule ∈ [negatedAxiom], rule.head < 2 := by
  intro rule mem
  rw [List.mem_singleton.mp mem]
  decide

theorem negatedAxiom_body_lt : ∀ rule ∈ [negatedAxiom], ∀ literal ∈ rule.body.derivedLiterals,
    literal.atom < 2 := by
  intro rule mem literal memLiteral
  rw [List.mem_singleton.mp mem] at memLiteral
  rw [List.mem_singleton.mp memLiteral]
  decide

def negatedTask : GroundAxiomTask where
  numDerivedAtoms := 2
  groundAxioms := [negatedAxiom]
  head_lt := negatedAxiom_head_lt
  body_lt := negatedAxiom_body_lt

theorem negatedTask_correctOn :
    descendingLibrary.CorrectOn (negatedTask.dependencies.graph negatedTask.groundAxioms) := by
  apply descendingLibrary_correctOn
  intro edge mem
  obtain ⟨rule, memRule, literal, memLiteral, rfl⟩ := mem_graph_edges.mp mem
  cases List.mem_singleton.mp memRule
  cases List.mem_singleton.mp memLiteral
  decide

theorem stratification_correct_negated :
    IsCorrect negatedProgram.dependencies negatedProgram.program.rules
        (computeRuleStratification descendingLibrary negatedProgram) ∧
      IsCorrect negatedTask.dependencies negatedTask.groundAxioms
        (computeGroundAxiomStratification descendingLibrary negatedTask) :=
  ⟨(stratification_correct descendingLibrary).1 negatedProgram negatedProgram_correctOn,
    (stratification_correct descendingLibrary).2 negatedTask negatedTask_correctOn⟩

end Tyr.Analysis.Stratification
