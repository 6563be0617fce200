import Tyr.Datalog.StaticConsistencyGraph
import Tyr.Lib.LexFirst
import Mathlib.Data.Finset.Card

/-!
Delta clique enumeration.

`DeltaKPKC` keeps the two graphs of a rule over the iterations of a stratum.
`forEachNewKClique` lists the k-cliques that the last assignment sets made
possible: in the first iteration all cliques, later the cliques that contain a
delta edge, each one anchored at its lexicographically first delta edge.

* `deltaAdjacent_iff` — the delta graph joins exactly the new edges.
* `completeFromSeed_spec` — the branching completion of a seed lists every
  completion once.
-/

namespace Tyr.Datalog.Kpkc

open Tyr.Lib

/-- The iteration counter and the graphs. -/
structure DeltaKPKC where
  iteration : Nat
  graphs : DynamicGraphs

/-- The state right after construction. -/
def DeltaKPKC.create : DeltaKPKC := ⟨0, ⟨Graph.empty, Graph.empty, []⟩⟩

/-- Reset before the first iteration. -/
def DeltaKPKC.reset (st : DeltaKPKC) : DeltaKPKC :=
  ⟨0, { st.graphs with delta := st.graphs.delta.reset, full := st.graphs.full.reset }⟩

/-- Preallocated memory of one enumeration. `compatible` is the row of
compatible vertices at the current depth, `anchor` holds the two partitions of
the anchor edge if there is one. -/
structure Workspace where
  compatible : Nat → Bitset
  partitionBits : Nat → Bool
  partialSolution : Nat → Vertex
  anchor : Option (Nat × Nat)

section

variable {α : Type*} (S : StaticConsistencyGraph α)

/-- Advance to the next iteration with the assignment sets `a`. -/
def DeltaKPKC.setNextAssignmentSets (st : DeltaKPKC) (a : α) : DeltaKPKC :=
  ⟨st.iteration + 1, S.initializeDynamicConsistencyGraphs a st.graphs⟩

/-- The neighbours of `v` in partition `p`, in the full and in the delta graph. -/
def DeltaKPKC.fullAdjacent (st : DeltaKPKC) (v : Vertex) (p : Nat) : Bitset :=
  st.graphs.full.getBitset S.binaryDependency v p

def DeltaKPKC.deltaAdjacent (st : DeltaKPKC) (v : Vertex) (p : Nat) : Bitset :=
  st.graphs.delta.getBitset S.binaryDependency v p

/-- The partial solution as the callback sees it. -/
def Workspace.solution (ws : Workspace) : List Vertex :=
  (List.range S.layout.k).map ws.partialSolution

/-- The first unused partition with the fewest compatible vertices. -/
def chooseBestPartition (ws : Workspace) : Option Nat :=
  ((List.range S.layout.k).foldl
    (fun best p =>
      if ws.partitionBits p then best
      else
        let numSetBits := (ws.compatible p).count (S.layout.numBits p)
        match best with
        | none => some (numSetBits, p)
        | some (bestSetBits, q) =>
            if numSetBits < bestSetBits then some (numSetBits, p) else some (bestSetBits, q))
    none).map Prod.snd

/-- Delta edges between `p` and `q` come before the anchor, because one of the
two partitions comes before the first anchor partition. -/
def Workspace.masks (ws : Workspace) (p q : Nat) : Bool :=
  match ws.anchor with
  | none => false
  | some (anchorPi, _) => decide (p < anchorPi) || decide (q < anchorPi)

/-- The row at the next depth after selecting `src`; `none` when an unused
partition has no compatible vertex left. -/
def updateCompatibleAdjacentVertices (st : DeltaKPKC) (src : Vertex) (ws : Workspace) :
    Option Workspace :=
  let next : Nat → Bitset := fun p b =>
    ws.compatible p b && st.fullAdjacent S src p b &&
      !(ws.masks src.partition p && st.deltaAdjacent S src p b)
  if (List.range S.layout.k).all fun p =>
      ws.partitionBits p || (next p).any (S.layout.numBits p) then
    some { ws with compatible := next }
  else none

/-- Select `v` in its partition. -/
def Workspace.extend (ws : Workspace) (v : Vertex) : Workspace :=
  { ws with
    partialSolution := Function.update ws.partialSolution v.partition v
    partitionBits := Function.update ws.partitionBits v.partition true }

/-- Complete the partial solution by `remaining` more vertices, branching over
the compatible vertices of the best partition. -/
def completeFromSeed (st : DeltaKPKC) : (remaining : Nat) → Workspace → List (List Vertex)
  | 0, _ => []
  | remaining + 1, ws =>
      match chooseBestPartition S ws with
      | none => []
      | some p =>
          ((ws.compatible p).toList (S.layout.numBits p)).flatMap fun bit =>
            let extended := ws.extend ⟨p, bit⟩
            if remaining = 0 then [extended.solution S]
            else
              match updateCompatibleAdjacentVertices S st ⟨p, bit⟩ extended with
              | none => []
              | some next => completeFromSeed st remaining next

/-- Seed with every active vertex and an empty partial solution. -/
def seedWithoutAnchor (st : DeltaKPKC) (ws : Workspace) : Workspace where
  compatible := st.graphs.full.affected
  partitionBits := fun _ => false
  partialSolution := ws.partialSolution
  anchor := none

/-- Seed with the common neighbours of the anchor edge `e`, without the delta
neighbours whose edge to the anchor has a smaller rank; `none` when a partition
is left without candidates. -/
def seedFromAnchor (st : DeltaKPKC) (e : Edge) (ws : Workspace) : Option Workspace :=
  let pi := e.src.partition
  let pj := e.dst.partition
  let seed : Nat → Bitset := fun p b =>
    st.fullAdjacent S e.src p b && st.fullAdjacent S e.dst p b &&
      !(decide (p < pj) && st.deltaAdjacent S e.src p b) &&
      !(decide (p < pi) && st.deltaAdjacent S e.dst p b)
  if (List.range S.layout.k).all fun p =>
      (p == pi || p == pj) || (seed p).any (S.layout.numBits p) then
    some
      { compatible := seed
        partitionBits := Function.update (Function.update (fun _ => false) pi true) pj true
        partialSolution := Function.update (Function.update ws.partialSolution pi e.src) pj e.dst
        anchor := some (pi, pj) }
  else none

/-- The cliques found from the anchor edge `e`. -/
def completeFromAnchor (st : DeltaKPKC) (ws : Workspace) (e : Edge) : List (List Vertex) :=
  match seedFromAnchor S st e ws with
  | none => []
  | some seed => completeFromSeed S st (S.layout.k - 2) seed

/-- All k-cliques of the full graph. -/
def forEachKClique (st : DeltaKPKC) (ws : Workspace) : List (List Vertex) :=
  if S.layout.k = 0 then [[]]
  else if S.layout.k = 1 then (st.graphs.full.forEachVertex S.layout).map fun v => [v]
  else if S.layout.k = 2 then
    (st.graphs.full.forEachEdge S.layout S.binaryDependency).map fun e => [e.src, e.dst]
  else completeFromSeed S st S.layout.k (seedWithoutAnchor st ws)

/-- The k-cliques reported in the current iteration. -/
def forEachNewKClique (st : DeltaKPKC) (ws : Workspace) : List (List Vertex) :=
  if st.iteration = 1 then forEachKClique S st ws
  else if S.layout.k = 0 then []
  else if S.layout.k = 1 then (st.graphs.delta.forEachVertex S.layout).map fun v => [v]
  else if S.layout.k = 2 then
    (st.graphs.delta.forEachEdge S.layout S.binaryDependency).map fun e => [e.src, e.dst]
  else
    (st.graphs.delta.forEachEdge S.layout S.binaryDependency).flatMap (completeFromAnchor S st ws)

/-! ### Cliques -/

/-- `u` and `v` are active vertices of different partitions, joined in `g`. -/
def Adjacent (g : Graph) (u v : Vertex) : Prop :=
  u.partition ≠ v.partition ∧ g.HasVertex u ∧ g.HasVertex v ∧
    g.getBitset S.binaryDependency u v.partition v.bit = true

/-- A k-clique: one active vertex per partition, pairwise joined. -/
structure IsKClique (g : Graph) (clique : List Vertex) : Prop where
  partitions : clique.map Vertex.partition = List.range S.layout.k
  active : ∀ v ∈ clique, g.HasVertex v
  adjacent : clique.Pairwise (Adjacent S g)

end

section

variable {α : Type*} {S : StaticConsistencyGraph α}

/-! ### Adjacency in the full and in the delta graph -/

theorem getBitset_of_dependency {g : Graph} {u v : Vertex}
    (dep : S.binaryDependency u.partition v.partition = true) :
    g.getBitset S.binaryDependency u v.partition v.bit = true ↔ g.HasArc u v := by
  simp only [Graph.getBitset, dep, if_true, Graph.HasArc]

/-- In a valid full graph the edges of an independent pair join all active
vertices. -/
theorem getBitset_of_independent {g : Graph} (valid : S.Valid g) {u v : Vertex}
    (independent : S.binaryDependency u.partition v.partition = false) :
    g.getBitset S.binaryDependency u v.partition v.bit = true ↔ g.HasVertex v := by
  simp only [Graph.getBitset, independent, Bool.false_eq_true, if_false]
  split
  · rfl
  · exact valid.delta_iff v

theorem Adjacent.symm {g : Graph} (valid : S.Valid g) {u v : Vertex} (adjacent : Adjacent S g u v) :
    Adjacent S g v u := by
  obtain ⟨different, activeU, activeV, joined⟩ := adjacent
  refine ⟨different.symm, activeV, activeU, ?_⟩
  cases dep : S.binaryDependency u.partition v.partition with
  | true =>
      have dep' := (S.binaryDependency_symm v.partition u.partition).trans dep
      rw [getBitset_of_dependency dep] at joined
      exact (getBitset_of_dependency dep').mpr (valid.arc_symm u v joined)
  | false =>
      have dep' := (S.binaryDependency_symm v.partition u.partition).trans dep
      exact (getBitset_of_independent valid dep').mpr activeU

/-- The edge between `u` and `v` is in `full` but was not in `before`. -/
def NewEdge (S : StaticConsistencyGraph α) (before full : Graph) (u v : Vertex) : Prop :=
  Adjacent S full u v ∧ ¬ Adjacent S before u v

theorem NewEdge.symm {before full : Graph} (validBefore : S.Valid before) (valid : S.Valid full)
    {u v : Vertex} (new : NewEdge S before full u v) : NewEdge S before full v u :=
  ⟨new.1.symm valid, fun old => new.2 (old.symm validBefore)⟩

section

variable {a : α} {before delta full : Graph} (validBefore : S.Valid before)
  (spec : S.StepSpec a before delta full)

include validBefore spec

/-- Between active vertices of different partitions, the delta graph joins
exactly the new edges. -/
theorem deltaAdjacent_iff {u v : Vertex} (different : u.partition ≠ v.partition)
    (activeU : full.HasVertex u) (activeV : full.HasVertex v) :
    delta.getBitset S.binaryDependency u v.partition v.bit = true ↔ NewEdge S before full u v := by
  have valid := spec.valid
  cases dep : S.binaryDependency u.partition v.partition with
  | true =>
      rw [getBitset_of_dependency dep, spec.delta_arc]
      unfold NewEdge Adjacent
      rw [getBitset_of_dependency dep, getBitset_of_dependency dep]
      constructor
      · rintro ⟨arc, new⟩
        exact ⟨⟨different, activeU, activeV, arc⟩, fun old => new old.2.2.2⟩
      · rintro ⟨⟨_, _, _, arc⟩, new⟩
        refine ⟨arc, fun old => new ⟨different, ?_, ?_, old⟩⟩
        · exact (validBefore.arc_ends u v old).1
        · exact (validBefore.arc_ends u v old).2
  | false =>
      have new_iff : NewEdge S before full u v ↔ delta.HasDelta u ∨ delta.HasDelta v := by
        unfold NewEdge Adjacent
        rw [getBitset_of_independent valid dep, getBitset_of_independent validBefore dep,
          spec.delta_iff, spec.delta_iff]
        tauto
      rw [new_iff]
      simp only [Graph.getBitset, dep, Bool.false_eq_true, if_false]
      split
      case isTrue deltaU =>
          exact iff_of_true (spec.affected_implicit u v different dep deltaU activeV) (.inl deltaU)
      case isFalse deltaU =>
          exact (or_iff_right deltaU).symm

/-- The ends of a new edge are affected vertices of the delta graph. -/
theorem affected_of_newEdge {u v : Vertex} (new : NewEdge S before full u v) :
    delta.HasVertex u := by
  have valid := spec.valid
  obtain ⟨⟨different, activeU, activeV, joined⟩, notOld⟩ := new
  have isNew := (deltaAdjacent_iff validBefore spec different activeU activeV).mpr
    ⟨⟨different, activeU, activeV, joined⟩, notOld⟩
  cases dep : S.binaryDependency u.partition v.partition with
  | true => exact spec.affected_arc u v ((getBitset_of_dependency dep).mp isNew)
  | false =>
      by_cases deltaU : delta.HasDelta u
      · exact spec.delta_sub u deltaU
      · have deltaV : delta.HasDelta v := by
          unfold Graph.HasDelta at deltaU
          simp only [Graph.getBitset, dep, Bool.false_eq_true, if_false, if_neg deltaU] at isNew
          exact isNew
        have dep' := (S.binaryDependency_symm v.partition u.partition).trans dep
        exact spec.affected_implicit v u different.symm dep' deltaV activeU

/-- The delta graph lists exactly the new edges, earlier partition first. -/
theorem mem_delta_forEachEdge {e : Edge} :
    e ∈ delta.forEachEdge S.layout S.binaryDependency ↔
      e.src.partition < e.dst.partition ∧ NewEdge S before full e.src e.dst := by
  have valid := spec.valid
  rw [Graph.mem_forEachEdge]
  constructor
  · rintro ⟨later, _, _, _, affectedSrc, affectedDst, joined⟩
    refine ⟨later, (deltaAdjacent_iff validBefore spec (Nat.ne_of_lt later) ?_ ?_).mp joined⟩
    · exact spec.affected_sub _ affectedSrc
    · exact spec.affected_sub _ affectedDst
  · rintro ⟨later, new⟩
    have inSrc := valid.inLayout _ new.1.2.1
    have inDst := valid.inLayout _ new.1.2.2.1
    have joined := (deltaAdjacent_iff validBefore spec new.1.1 new.1.2.1 new.1.2.2.1).mpr new
    exact ⟨later, inDst.1, inSrc.2, inDst.2, affected_of_newEdge validBefore spec new,
      affected_of_newEdge validBefore spec (new.symm validBefore valid), joined⟩

end

/-- The edges of a valid full graph, earlier partition first. -/
theorem mem_full_forEachEdge {g : Graph} (valid : S.Valid g) {e : Edge} :
    e ∈ g.forEachEdge S.layout S.binaryDependency ↔
      e.src.partition < e.dst.partition ∧ Adjacent S g e.src e.dst := by
  rw [Graph.mem_forEachEdge]
  constructor
  · rintro ⟨later, _, _, _, activeSrc, activeDst, joined⟩
    exact ⟨later, Nat.ne_of_lt later, activeSrc, activeDst, joined⟩
  · rintro ⟨later, _, activeSrc, activeDst, joined⟩
    have inSrc := valid.inLayout _ activeSrc
    have inDst := valid.inLayout _ activeDst
    exact ⟨later, inDst.1, inSrc.2, inDst.2, activeSrc, activeDst, joined⟩

/-! ### Completing a seed -/

/-- The partitions that the partial solution does not cover yet. -/
def Workspace.unused (S : StaticConsistencyGraph α) (ws : Workspace) : Finset Nat :=
  (Finset.range S.layout.k).filter fun p => ws.partitionBits p = false

@[simp] theorem Workspace.mem_unused {ws : Workspace} {p : Nat} :
    p ∈ ws.unused S ↔ p < S.layout.k ∧ ws.partitionBits p = false := by
  simp [Workspace.unused]

/-- `chooseBestPartition` picks an unused partition whenever there is one. -/
theorem chooseBestPartition_spec (ws : Workspace) :
    (∀ p, chooseBestPartition S ws = some p → p ∈ ws.unused S) ∧
    (chooseBestPartition S ws = none → ws.unused S = ∅) := by
  set step := fun (best : Option (Nat × Nat)) (p : Nat) =>
    if ws.partitionBits p then best
    else
      let numSetBits := (ws.compatible p).count (S.layout.numBits p)
      match best with
      | none => some (numSetBits, p)
      | some (bestSetBits, q) =>
          if numSetBits < bestSetBits then some (numSetBits, p) else some (bestSetBits, q)
    with stepEq
  have loop : ∀ n ≤ S.layout.k, (∀ m p, (List.range n).foldl step none = some (m, p) → p ∈ ws.unused S) ∧
      ((List.range n).foldl step none = none → ∀ p < n, ws.partitionBits p = true) := by
    intro n
    induction n with
    | zero => intro _; simp
    | succ n ih =>
        intro bound
        obtain ⟨isUnused, allUsed⟩ := ih (by omega)
        rw [List.range_succ, List.foldl_append, List.foldl_cons, List.foldl_nil]
        generalize (List.range n).foldl step none = best at isUnused allUsed
        cases used : ws.partitionBits n with
        | true =>
            have same : step best n = best := by simp [stepEq, used]
            rw [same]
            refine ⟨isUnused, fun none p inRange => ?_⟩
            rcases Nat.lt_succ_iff_lt_or_eq.mp inRange with earlier | rfl
            · exact allUsed none p earlier
            · exact used
        | false =>
            have here : n ∈ ws.unused S := Workspace.mem_unused.mpr ⟨by omega, used⟩
            cases best with
            | none =>
                simp only [stepEq, used, Bool.false_eq_true, if_false]
                refine ⟨fun m p found => ?_, fun absent => by cases absent⟩
                cases found
                exact here
            | some pair =>
                obtain ⟨m', q⟩ := pair
                simp only [stepEq, used, Bool.false_eq_true, if_false]
                refine ⟨fun m p found => ?_, fun absent => ?_⟩
                · split at found
                  · cases found
                    exact here
                  · cases found
                    exact isUnused m' q rfl
                · split at absent <;> cases absent
  obtain ⟨isUnused, allUsed⟩ := loop S.layout.k le_rfl
  have unfolded : chooseBestPartition S ws =
      ((List.range S.layout.k).foldl step none).map Prod.snd := rfl
  rw [unfolded]
  constructor
  · intro p found
    obtain ⟨⟨m, q⟩, best, rfl⟩ := Option.map_eq_some_iff.mp found
    exact isUnused m q best
  · intro absent
    have none := Option.map_eq_none_iff.mp absent
    ext p
    simp only [Workspace.mem_unused, Finset.notMem_empty, iff_false, not_and, Bool.not_eq_false]
    exact allUsed none p

/-- The branching selects `v` after `u` only if they are joined in the full graph
and their edge is not a delta edge that precedes the anchor. -/
def Compatible (S : StaticConsistencyGraph α) (st : DeltaKPKC) (ws : Workspace) (u v : Vertex) :
    Prop :=
  st.fullAdjacent S u v.partition v.bit = true ∧
    ¬ (ws.masks u.partition v.partition = true ∧ st.deltaAdjacent S u v.partition v.bit = true)

/-- `f` completes the partial solution: it keeps the covered partitions, selects
compatible candidates elsewhere, and these are pairwise compatible. -/
structure IsCompletion (S : StaticConsistencyGraph α) (st : DeltaKPKC) (ws : Workspace)
    (f : Nat → Vertex) : Prop where
  kept : ∀ p < S.layout.k, ws.partitionBits p = true → f p = ws.partialSolution p
  partition : ∀ p ∈ ws.unused S, (f p).partition = p
  candidate : ∀ p ∈ ws.unused S, (f p).bit < S.layout.numBits p ∧ ws.compatible p (f p).bit = true
  compatible : ∀ p ∈ ws.unused S, ∀ q ∈ ws.unused S, p ≠ q → Compatible S st ws (f p) (f q)

theorem unused_extend {ws : Workspace} {p : Nat} (bit : Nat) :
    (ws.extend ⟨p, bit⟩).unused S = (ws.unused S).erase p := by
  ext q
  by_cases same : q = p
  · subst same
    simp [Workspace.extend]
  · simp [Workspace.extend, same]

/-- The compatible vertices at the next depth. -/
theorem updateCompatible_spec (S : StaticConsistencyGraph α) (st : DeltaKPKC) (src : Vertex)
    (ws : Workspace) :
    (∀ next, updateCompatibleAdjacentVertices S st src ws = some next →
      next.partitionBits = ws.partitionBits ∧ next.partialSolution = ws.partialSolution ∧
      next.anchor = ws.anchor ∧
      ∀ q b, next.compatible q b = true ↔
        ws.compatible q b = true ∧ Compatible S st ws src ⟨q, b⟩) ∧
    (updateCompatibleAdjacentVertices S st src ws = none →
      ∃ q ∈ ws.unused S, ∀ b < S.layout.numBits q,
        ¬ (ws.compatible q b = true ∧ Compatible S st ws src ⟨q, b⟩)) := by
  have bit_iff : ∀ q b, (ws.compatible q b && st.fullAdjacent S src q b &&
      !(ws.masks src.partition q && st.deltaAdjacent S src q b)) = true ↔
      ws.compatible q b = true ∧ Compatible S st ws src ⟨q, b⟩ := by
    intro q b
    unfold Compatible
    simp only [Bool.and_eq_true, Bool.not_eq_true', Bool.and_eq_false_iff]
    rw [and_assoc, ← Bool.not_eq_true, ← Bool.not_eq_true, ← not_and_or]
  simp only [updateCompatibleAdjacentVertices]
  split
  case isTrue =>
      refine ⟨fun next found => ?_, fun absent => by cases absent⟩
      cases found
      exact ⟨rfl, rfl, rfl, bit_iff⟩
  case isFalse empty =>
      refine ⟨fun next found => (by cases found), fun _ => ?_⟩
      simp only [List.all_eq_true, List.mem_range, Bool.or_eq_true, not_forall, not_or] at empty
      obtain ⟨q, inK, unused, noBit⟩ := empty
      refine ⟨q, Workspace.mem_unused.mpr ⟨inK, Bool.eq_false_iff.mpr unused⟩, fun b inBits holds => ?_⟩
      exact noBit (Bitset.any_eq_true.mpr ⟨b, inBits, (bit_iff q b).mpr holds⟩)

section

variable {st : DeltaKPKC}

/-- The candidates of unused partitions are active, and compatibility does not
depend on the order of selection. -/
structure Seeded (S : StaticConsistencyGraph α) (st : DeltaKPKC) (ws : Workspace) : Prop where
  active : ∀ p ∈ ws.unused S, ∀ b, ws.compatible p b = true → st.graphs.full.HasVertex ⟨p, b⟩
  symm : ∀ u v, st.graphs.full.HasVertex u → st.graphs.full.HasVertex v →
    u.partition ≠ v.partition → Compatible S st ws u v → Compatible S st ws v u

/-- Compatibility only reads the anchor of the workspace. -/
theorem compatible_congr {ws ws' : Workspace} (same : ws'.anchor = ws.anchor) {u v : Vertex} :
    Compatible S st ws' u v ↔ Compatible S st ws u v := by
  unfold Compatible Workspace.masks
  rw [same]

/-- Selecting a candidate and updating the rows leaves exactly the completions
that select it. -/
theorem isCompletion_update_iff {ws : Workspace} (seeded : Seeded S st ws) {p bit : Nat}
    (unused : p ∈ ws.unused S) (inBits : bit < S.layout.numBits p)
    (candidate : ws.compatible p bit = true) {f : Nat → Vertex} :
    (∃ next, updateCompatibleAdjacentVertices S st ⟨p, bit⟩ (ws.extend ⟨p, bit⟩) = some next ∧
      IsCompletion S st next f) ↔ IsCompletion S st ws f ∧ f p = ⟨p, bit⟩ := by
  obtain ⟨whenSome, whenNone⟩ :=
    updateCompatible_spec S st ⟨p, bit⟩ (ws.extend ⟨p, bit⟩)
  have inK := (Workspace.mem_unused.mp unused).1
  constructor
  · rintro ⟨next, found, completion⟩
    obtain ⟨sameBits, sameSolution, sameAnchor, row⟩ := whenSome next found
    have unusedNext : next.unused S = (ws.unused S).erase p := by
      rw [← unused_extend bit]
      unfold Workspace.unused
      rw [sameBits]
    have atP : f p = ⟨p, bit⟩ := by
      rw [completion.kept p inK (by rw [sameBits]; simp [Workspace.extend]), sameSolution]
      simp [Workspace.extend]
    have others : ∀ q ∈ ws.unused S, q ≠ p → q ∈ next.unused S := by
      intro q mem different
      rw [unusedNext]
      exact Finset.mem_erase.mpr ⟨different, mem⟩
    have joined : ∀ q ∈ ws.unused S, q ≠ p →
        ws.compatible q (f q).bit = true ∧ Compatible S st ws ⟨p, bit⟩ (f q) := by
      intro q mem different
      have inNext := others q mem different
      have both := (row q (f q).bit).mp (completion.candidate q inNext).2
      have eta : (⟨q, (f q).bit⟩ : Vertex) = f q :=
        Vertex.ext (completion.partition q inNext).symm rfl
      rw [eta] at both
      exact ⟨both.1, (compatible_congr rfl).mp both.2⟩
    refine ⟨⟨fun q inK' used => ?_, fun q mem => ?_, fun q mem => ?_, fun q mem r mem' different => ?_⟩,
      atP⟩
    · have different : q ≠ p := by
        rintro rfl
        rw [(Workspace.mem_unused.mp unused).2] at used
        cases used
      rw [completion.kept q inK' (by rw [sameBits]; simp [Workspace.extend, different, used]),
        sameSolution]
      simp [Workspace.extend, different]
    · by_cases same : q = p
      · subst same
        rw [atP]
      · exact completion.partition q (others q mem same)
    · by_cases same : q = p
      · subst same
        rw [atP]
        exact ⟨inBits, candidate⟩
      · exact ⟨(completion.candidate q (others q mem same)).1, (joined q mem same).1⟩
    · have activeP := seeded.active p unused bit candidate
      have activeOf : ∀ q ∈ ws.unused S, q ≠ p → st.graphs.full.HasVertex (f q) ∧ (f q).partition = q := by
        intro q mem different
        have partition := completion.partition q (others q mem different)
        have active := seeded.active q mem _ (joined q mem different).1
        have eta : (⟨q, (f q).bit⟩ : Vertex) = f q := Vertex.ext partition.symm rfl
        rw [eta] at active
        exact ⟨active, partition⟩
      by_cases sameQ : q = p
      · subst sameQ
        rw [atP]
        exact (joined r mem' different.symm).2
      · by_cases sameR : r = p
        · subst sameR
          rw [atP]
          refine seeded.symm _ _ activeP (activeOf q mem sameQ).1 ?_ (joined q mem sameQ).2
          rw [(activeOf q mem sameQ).2]
          exact different.symm
        · exact (compatible_congr sameAnchor).mp
            (completion.compatible q (others q mem sameQ) r (others r mem' sameR) different)
  · rintro ⟨completion, atP⟩
    have joined : ∀ q ∈ (ws.extend ⟨p, bit⟩).unused S, (f q).bit < S.layout.numBits q ∧
        ws.compatible q (f q).bit = true ∧
        Compatible S st (ws.extend ⟨p, bit⟩) ⟨p, bit⟩ ⟨q, (f q).bit⟩ := by
      intro q mem
      rw [unused_extend] at mem
      obtain ⟨different, mem⟩ := Finset.mem_erase.mp mem
      have eta : (⟨q, (f q).bit⟩ : Vertex) = f q := Vertex.ext (completion.partition q mem).symm rfl
      rw [eta, ← atP]
      exact ⟨(completion.candidate q mem).1, (completion.candidate q mem).2,
        (compatible_congr rfl).mpr (completion.compatible p unused q mem different.symm)⟩
    cases update : updateCompatibleAdjacentVertices S st ⟨p, bit⟩ (ws.extend ⟨p, bit⟩) with
    | none =>
        obtain ⟨q, mem, empty⟩ := whenNone update
        exact absurd (joined q mem).2 (empty _ (joined q mem).1)
    | some next =>
        obtain ⟨sameBits, sameSolution, sameAnchor, row⟩ := whenSome next update
        have unusedNext : next.unused S = (ws.extend ⟨p, bit⟩).unused S := by
          unfold Workspace.unused
          rw [sameBits]
        refine ⟨next, rfl, ⟨fun q inK' used => ?_, fun q mem => ?_, fun q mem => ?_,
          fun q mem r mem' different => ?_⟩⟩
        · rw [sameSolution]
          by_cases same : q = p
          · subst same
            simp [Workspace.extend, atP]
          · rw [sameBits] at used
            simp only [Workspace.extend, Function.update_of_ne same] at used ⊢
            exact completion.kept q inK' used
        · rw [unusedNext, unused_extend] at mem
          exact completion.partition q (Finset.mem_of_mem_erase mem)
        · rw [unusedNext] at mem
          exact ⟨(joined q mem).1, (row q _).mpr (joined q mem).2⟩
        · rw [unusedNext, unused_extend] at mem mem'
          exact (compatible_congr sameAnchor).mpr (completion.compatible q
            (Finset.mem_of_mem_erase mem) r (Finset.mem_of_mem_erase mem') different)

theorem Seeded.update {ws next : Workspace} (seeded : Seeded S st ws) {p bit : Nat}
    (found : updateCompatibleAdjacentVertices S st ⟨p, bit⟩ (ws.extend ⟨p, bit⟩) = some next) :
    Seeded S st next ∧ next.unused S = (ws.unused S).erase p := by
  obtain ⟨sameBits, _, sameAnchor, row⟩ := (updateCompatible_spec S st _ _).1 next found
  have unusedNext : next.unused S = (ws.unused S).erase p := by
    rw [← unused_extend bit]
    unfold Workspace.unused
    rw [sameBits]
  refine ⟨⟨fun q mem b candidate => ?_, fun u v activeU activeV different compatible => ?_⟩,
    unusedNext⟩
  · rw [unusedNext] at mem
    exact seeded.active q (Finset.mem_of_mem_erase mem) b ((row q b).mp candidate).1
  · exact (compatible_congr sameAnchor).mpr
      (seeded.symm u v activeU activeV different ((compatible_congr sameAnchor).mp compatible))

/-- With one unused partition `p` left, the completions select one of its
candidates. -/
theorem isCompletion_last_iff {ws : Workspace} {p : Nat} (last : ws.unused S = {p})
    {clique : List Vertex} :
    (∃ f, IsCompletion S st ws f ∧ clique = (List.range S.layout.k).map f) ↔
      ∃ bit, bit < S.layout.numBits p ∧ ws.compatible p bit = true ∧
        clique = (ws.extend ⟨p, bit⟩).solution S := by
  have onlyP : ∀ q, q ∈ ws.unused S ↔ q = p := by
    intro q
    rw [last, Finset.mem_singleton]
  have used : ∀ q < S.layout.k, q ≠ p → ws.partitionBits q = true := by
    intro q inK different
    by_contra notUsed
    exact different ((onlyP q).mp (Workspace.mem_unused.mpr ⟨inK, Bool.eq_false_iff.mpr notUsed⟩))
  constructor
  · rintro ⟨f, completion, rfl⟩
    have mem := (onlyP p).mpr rfl
    refine ⟨(f p).bit, (completion.candidate p mem).1, (completion.candidate p mem).2, ?_⟩
    refine List.map_congr_left fun q inK => ?_
    by_cases same : q = p
    · subst same
      simp only [Workspace.extend, Function.update_self]
      exact Vertex.ext (completion.partition q mem) rfl
    · simp only [Workspace.extend, Function.update_of_ne same]
      exact completion.kept q (List.mem_range.mp inK) (used q (List.mem_range.mp inK) same)
  · rintro ⟨bit, inBits, candidate, rfl⟩
    refine ⟨(ws.extend ⟨p, bit⟩).partialSolution, ⟨fun q inK isUsed => ?_, fun q mem => ?_,
      fun q mem => ?_, fun q mem r mem' different => ?_⟩, rfl⟩
    · have different : q ≠ p := by
        rintro rfl
        have := (Workspace.mem_unused.mp ((onlyP q).mpr rfl)).2
        rw [this] at isUsed
        cases isUsed
      simp [Workspace.extend, different]
    · rw [(onlyP q).mp mem]
      simp [Workspace.extend]
    · rw [(onlyP q).mp mem]
      simp [Workspace.extend, inBits, candidate]
    · exact absurd (((onlyP q).mp mem).trans ((onlyP r).mp mem').symm) different

/-- The branching completion of a seed lists every completion exactly once. The
induction is on the number of partitions still to cover. -/
theorem completeFromSeed_spec (remaining : Nat) (ws : Workspace) (seeded : Seeded S st ws)
    (count : (ws.unused S).card = remaining + 1) :
    (completeFromSeed S st (remaining + 1) ws).Nodup ∧
    ∀ clique, clique ∈ completeFromSeed S st (remaining + 1) ws ↔
      ∃ f, IsCompletion S st ws f ∧ clique = (List.range S.layout.k).map f := by
  induction remaining generalizing ws with
  | zero =>
      obtain ⟨p, last⟩ := Finset.card_eq_one.mp count
      have chosen : chooseBestPartition S ws = some p := by
        cases choice : chooseBestPartition S ws with
        | none =>
            rw [(chooseBestPartition_spec ws).2 choice] at last
            exact absurd last.symm (Finset.singleton_ne_empty p)
        | some q =>
            have mem := (chooseBestPartition_spec ws).1 q choice
            rw [last, Finset.mem_singleton] at mem
            rw [mem]
      have inK : p < S.layout.k := by
        have mem : p ∈ ws.unused S := by simp [last]
        exact (Workspace.mem_unused.mp mem).1
      simp only [completeFromSeed, chosen, if_true]
      constructor
      · refine nodup_flatMap_of_unique (Bitset.nodup_toList _ _) (fun _ _ => List.nodup_singleton _) ?_
        intro b _ c _ clique isB isC
        have same := (List.mem_singleton.mp isB).symm.trans (List.mem_singleton.mp isC)
        have at_p := List.map_inj_left.mp same p (List.mem_range.mpr inK)
        simpa [Workspace.extend] using at_p
      · intro clique
        rw [isCompletion_last_iff last]
        simp [and_assoc]
  | succ remaining ih =>
      obtain ⟨p, chosen⟩ : ∃ p, chooseBestPartition S ws = some p := by
        cases choice : chooseBestPartition S ws with
        | none =>
            rw [(chooseBestPartition_spec ws).2 choice] at count
            simp at count
        | some q => exact ⟨q, rfl⟩
      have unused := (chooseBestPartition_spec ws).1 p chosen
      have inK := (Workspace.mem_unused.mp unused).1
      have branch : ∀ bit next,
          updateCompatibleAdjacentVertices S st ⟨p, bit⟩ (ws.extend ⟨p, bit⟩) = some next →
          (completeFromSeed S st (remaining + 1) next).Nodup ∧
          ∀ clique, clique ∈ completeFromSeed S st (remaining + 1) next ↔
            ∃ f, IsCompletion S st next f ∧ clique = (List.range S.layout.k).map f := by
        intro bit next found
        obtain ⟨seededNext, unusedNext⟩ := seeded.update found
        refine ih next seededNext ?_
        rw [unusedNext, Finset.card_erase_of_mem unused, count]
        rfl
      rw [completeFromSeed]
      simp only [chosen, Nat.succ_ne_zero, if_false]
      have inner : ∀ bit, bit < S.layout.numBits p → ws.compatible p bit = true → ∀ clique,
          (clique ∈ (match updateCompatibleAdjacentVertices S st ⟨p, bit⟩ (ws.extend ⟨p, bit⟩) with
            | none => []
            | some next => completeFromSeed S st (remaining + 1) next)) ↔
          ∃ f, (IsCompletion S st ws f ∧ f p = ⟨p, bit⟩) ∧
            clique = (List.range S.layout.k).map f := by
        intro bit inBits candidate clique
        have split_iff := fun f => isCompletion_update_iff seeded unused inBits candidate (f := f)
        simp only [← split_iff]
        cases update : updateCompatibleAdjacentVertices S st ⟨p, bit⟩ (ws.extend ⟨p, bit⟩) with
        | none => simp
        | some next => simp [(branch bit next update).2]
      constructor
      · refine nodup_flatMap_of_unique (Bitset.nodup_toList _ _) ?_ ?_
        · intro bit _
          cases update : updateCompatibleAdjacentVertices S st ⟨p, bit⟩ (ws.extend ⟨p, bit⟩) with
          | none => exact List.nodup_nil
          | some next => exact (branch bit next update).1
        · intro b memB c memC clique inB inC
          obtain ⟨inBitsB, candidateB⟩ := Bitset.mem_toList.mp memB
          obtain ⟨inBitsC, candidateC⟩ := Bitset.mem_toList.mp memC
          obtain ⟨f, ⟨_, atB⟩, rfl⟩ := (inner b inBitsB candidateB clique).mp inB
          obtain ⟨g, ⟨_, atC⟩, same⟩ := (inner c inBitsC candidateC _).mp inC
          have at_p := List.map_inj_left.mp same p (List.mem_range.mpr inK)
          rw [atB, atC] at at_p
          exact (Vertex.mk.inj at_p).2
      · intro clique
        rw [List.mem_flatMap]
        constructor
        · rintro ⟨bit, mem, listed⟩
          obtain ⟨inBits, candidate⟩ := Bitset.mem_toList.mp mem
          obtain ⟨f, ⟨completion, _⟩, same⟩ := (inner bit inBits candidate clique).mp listed
          exact ⟨f, completion, same⟩
        · rintro ⟨f, completion, same⟩
          obtain ⟨inBits, candidate⟩ := completion.candidate p unused
          refine ⟨(f p).bit, Bitset.mem_toList.mpr ⟨inBits, candidate⟩, ?_⟩
          refine (inner _ inBits candidate clique).mpr ⟨f, ⟨completion, ?_⟩, same⟩
          exact Vertex.ext (completion.partition p unused) rfl

end

end

end Tyr.Datalog.Kpkc
