import Tyr.Datalog.NewCliques

/-!
Cliques of growing assignment sets.

If every vertex and every edge that passes its test keeps passing it, the full graph after
several iterations is the one of the last assignment sets alone.

* `Grows` — what passes its test keeps passing it.
* `isGraphOf_runAfterReset` — the full graph after a run.
* `report_grows_iff` — an iteration reports what passes now and did not before.
-/

namespace Tyr.Datalog.Kpkc

variable {α : Type*} {S : StaticConsistencyGraph α}

/-- What passes its test against `a` passes it against `b`. -/
structure Grows (S : StaticConsistencyGraph α) (a b : α) : Prop where
  vertex : ∀ v, S.Accepts a v → S.Accepts b v
  edge : ∀ u v, S.AcceptsEdge a u v → S.AcceptsEdge b u v

/-- The graph has the vertices and the edges that pass their tests against `a`. -/
structure IsGraphOf (S : StaticConsistencyGraph α) (a : α) (g : Graph) : Prop where
  valid : S.Valid g
  vertex : ∀ v, g.HasVertex v ↔ v.partition < S.layout.k ∧ S.Accepts a v
  arc : ∀ u v, g.HasArc u v ↔
    g.HasVertex u ∧ g.HasVertex v ∧ (S.AcceptsEdge a u v ∨ S.AcceptsEdge a v u)

/-- A step that starts from a graph of smaller sets leads to the graph of the new ones. -/
theorem IsGraphOf.step {a b : α} {before delta full : Graph} (graph : IsGraphOf S a before)
    (grows : Grows S a b) (spec : S.StepSpec b before delta full) : IsGraphOf S b full where
  valid := spec.valid
  vertex := by
    intro v
    rw [spec.vertex_iff, graph.vertex]
    exact or_iff_right_of_imp fun old => ⟨old.1, grows.vertex v old.2⟩
  arc := by
    intro u v
    rw [spec.arc_iff]
    apply or_iff_right_of_imp
    intro old
    obtain ⟨isVertex, isVertex', accepted⟩ := (graph.arc u v).mp old
    exact ⟨(spec.vertex_iff u).mpr (.inl isVertex), (spec.vertex_iff v).mpr (.inl isVertex'),
      accepted.imp (grows.edge u v) (grows.edge v u)⟩

/-- The first step after a reset leads to the graph of its assignment sets. -/
theorem isGraphOf_first {a : α} {before delta full : Graph} (noVertex : ∀ v, ¬ before.HasVertex v)
    (noArc : ∀ u v, ¬ before.HasArc u v) (spec : S.StepSpec a before delta full) :
    IsGraphOf S a full where
  valid := spec.valid
  vertex v := (spec.vertex_iff v).trans (or_iff_right (noVertex v))
  arc u v := (spec.arc_iff u v).trans (or_iff_right (noArc u v))

theorem runAfterReset_append (st : DeltaKPKC) (sets : List α) (a : α) :
    runAfterReset S st (sets ++ [a]) = (runAfterReset S st sets).setNextAssignmentSets S a := by
  simp [Kpkc.runAfterReset]

/-- After growing assignment sets the full graph is the one of the last. -/
theorem isGraphOf_runAfterReset {st : DeltaKPKC} (reachable : Reachable S st) {sets : List α} {a : α}
    (grows : (sets ++ [a]).Pairwise (Grows S)) :
    IsGraphOf S a (runAfterReset S st (sets ++ [a])).graphs.full := by
  induction sets using List.reverseRecOn generalizing a with
  | nil =>
      obtain ⟨validBefore, covers⟩ := reachable.reset.valid
      exact isGraphOf_first (Graph.not_hasVertex_reset _) reachable.valid.1.covers.not_hasArc_reset
        (S.initializeDynamicConsistencyGraphs_spec a validBefore covers)
  | append_singleton sets b ih =>
      obtain ⟨growsBefore, _, last⟩ := List.pairwise_append.mp grows
      obtain ⟨validBefore, covers⟩ := (reachable.runAfterReset (sets ++ [b])).valid
      rw [runAfterReset_append]
      exact (ih growsBefore).step
        (last b (List.mem_append_right _ (List.mem_singleton_self b)) a (List.mem_singleton_self a))
        (S.initializeDynamicConsistencyGraphs_spec a validBefore covers)

/-- Two graphs of the same assignment sets have the same cliques. -/
theorem IsGraphOf.isKClique_congr {a : α} {g g' : Graph} (graph : IsGraphOf S a g)
    (graph' : IsGraphOf S a g') {clique : List Vertex} (isClique : IsKClique S g clique) :
    IsKClique S g' clique := by
  have active : ∀ v, g.HasVertex v → g'.HasVertex v :=
    fun v isVertex => (graph'.vertex v).mpr ((graph.vertex v).mp isVertex)
  refine ⟨isClique.partitions, fun v mem => active v (isClique.active v mem), isClique.adjacent.imp ?_⟩
  rintro u v ⟨different, activeU, activeV, joined⟩
  refine ⟨different, active u activeU, active v activeV, ?_⟩
  cases dep : S.binaryDependency u.partition v.partition with
  | true =>
      rw [getBitset_of_dependency dep] at joined
      obtain ⟨_, _, accepted⟩ := (graph.arc u v).mp joined
      exact (getBitset_of_dependency dep).mpr
        ((graph'.arc u v).mpr ⟨active u activeU, active v activeV, accepted⟩)
  | false => exact (getBitset_of_independent graph'.valid dep).mpr (active v activeV)

/-- The cliques of the graph of some assignment sets. -/
theorem IsGraphOf.isKClique_iff {a : α} {g : Graph} (graph : IsGraphOf S a g) {clique : List Vertex} :
    IsKClique S g clique ↔ ∃ f, IsAcceptedSelection S a f ∧ clique = (List.range S.layout.k).map f := by
  -- The first report of a run lists the cliques of its graph.
  let ws : Workspace := ⟨fun _ _ => false, fun _ => false, fun _ => ⟨0, 0⟩, none⟩
  have fresh := @isGraphOf_runAfterReset α S DeltaKPKC.create .create [] a (List.pairwise_singleton _ a)
  have reported := (report_spec (S := S) .create ws [] a).2 clique
  rw [← first_report_iff .create ws a]
  rw [List.nil_append] at fresh reported
  rw [reported, and_iff_left (.inl rfl)]
  exact ⟨graph.isKClique_congr fresh, fresh.isKClique_congr graph⟩

/-- An iteration reports, each once, the cliques of its assignment sets that are not those
of the iteration before. -/
theorem report_grows_iff {st : DeltaKPKC} (reachable : Reachable S st) (ws : Workspace) {sets : List α}
    {a : α} (grows : (sets ++ [a]).Pairwise (Grows S)) {clique : List Vertex} :
    clique ∈ forEachNewKClique S (runAfterReset S st (sets ++ [a])) ws ↔
      (∃ f, IsAcceptedSelection S a f ∧ clique = (List.range S.layout.k).map f) ∧
        ∀ b ∈ sets.getLast?, ¬ ∃ f, IsAcceptedSelection S b f ∧ clique = (List.range S.layout.k).map f := by
  rw [(report_spec reachable ws sets a).2 clique, (isGraphOf_runAfterReset reachable grows).isKClique_iff]
  refine and_congr_right fun _ => ?_
  rcases sets.eq_nil_or_concat with rfl | ⟨front, b, rfl⟩
  · exact iff_of_true (.inl rfl) nofun
  · rw [List.concat_eq_append] at grows ⊢
    have graph := isGraphOf_runAfterReset reachable (List.pairwise_append.mp grows).1
    rw [graph.isKClique_iff, List.getLast?_append, List.getLast?_singleton, Option.some_or]
    constructor
    · rintro (empty | other) c isLast
      · exact absurd empty (by simp)
      · rwa [← Option.mem_some_iff.mp isLast]
    · exact fun others => .inr (others b rfl)

end Tyr.Datalog.Kpkc
