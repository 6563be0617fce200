import Tyr.Datalog.DeltaKpkc

/-!
What the delta clique enumeration reports.

A k-clique is a selection of one active vertex per partition. The anchored
enumeration reports a selection with a new edge once, at its lexicographically
first new edge.

* `mem_newCliques_iff` — what one iteration reports.
* `forEachNewKClique_exactly_once` — over any run after a reset, iteration `t`
  reports the cliques of its full graph that the previous full graph did not
  have, and all reports together list the cliques of the last full graph, each
  exactly once.
-/

namespace Tyr.Datalog.Kpkc

open Tyr.Lib

section

variable {α : Type*} {S : StaticConsistencyGraph α}

/-! ### Cliques as selections -/

/-- `f` selects one active vertex per partition, pairwise adjacent in `g`. -/
structure IsSelection (S : StaticConsistencyGraph α) (g : Graph) (f : Nat → Vertex) : Prop where
  partition : ∀ p < S.layout.k, (f p).partition = p
  active : ∀ p < S.layout.k, g.HasVertex (f p)
  adjacent : ∀ p q, p < q → q < S.layout.k → Adjacent S g (f p) (f q)

theorem pairwise_map_range {β : Type*} {R : β → β → Prop} {f : Nat → β} {n : Nat} :
    ((List.range n).map f).Pairwise R ↔ ∀ p q, p < q → q < n → R (f p) (f q) := by
  rw [List.pairwise_map, List.pairwise_iff_getElem]
  simp only [List.length_range, List.getElem_range]
  constructor
  · intro pairs p q before inRange
    exact pairs p q (by omega) inRange before
  · intro pairs p q _ inRange before
    exact pairs p q before inRange

theorem isKClique_map_iff {g : Graph} {f : Nat → Vertex} :
    IsKClique S g ((List.range S.layout.k).map f) ↔ IsSelection S g f := by
  constructor
  · rintro ⟨partitions, active, adjacent⟩
    refine ⟨fun p inK => ?_, fun p inK => active _ ?_, pairwise_map_range.mp adjacent⟩
    · rw [List.map_map] at partitions
      have := List.map_inj_left.mp (partitions.trans (List.map_id _).symm) p (List.mem_range.mpr inK)
      simpa using this
    · exact List.mem_map.mpr ⟨p, List.mem_range.mpr inK, rfl⟩
  · rintro ⟨partition, active, adjacent⟩
    refine ⟨?_, fun v mem => ?_, pairwise_map_range.mpr adjacent⟩
    · rw [List.map_map]
      exact (List.map_congr_left fun p mem => partition p (List.mem_range.mp mem)).trans (List.map_id _)
    · obtain ⟨p, inK, rfl⟩ := List.mem_map.mp mem
      exact active p (List.mem_range.mp inK)

/-- Every k-clique is the list of a selection. -/
theorem isKClique_iff {g : Graph} {clique : List Vertex} :
    IsKClique S g clique ↔ ∃ f, IsSelection S g f ∧ clique = (List.range S.layout.k).map f := by
  constructor
  · intro isClique
    have length : clique.length = S.layout.k := by
      have := congrArg List.length isClique.partitions
      simpa using this
    have asMap : clique = (List.range S.layout.k).map fun p => clique.getD p ⟨0, 0⟩ := by
      refine List.ext_getElem (by simp [length]) fun p inList _ => ?_
      simp [inList]
    refine ⟨_, ?_, asMap⟩
    rw [asMap] at isClique
    exact isKClique_map_iff.mp isClique
  · rintro ⟨f, selection, rfl⟩
    exact isKClique_map_iff.mpr selection

/-- Adjacency at two different partitions, in any order. -/
theorem IsSelection.adjacent_of_ne {g : Graph} (valid : S.Valid g) {f : Nat → Vertex}
    (selection : IsSelection S g f) {p q : Nat} (inP : p < S.layout.k) (inQ : q < S.layout.k)
    (different : p ≠ q) : Adjacent S g (f p) (f q) := by
  rcases Nat.lt_or_gt_of_ne different with lt | gt
  · exact selection.adjacent p q lt inQ
  · exact (selection.adjacent q p gt inP).symm valid

/-- A clique of `full` is new iff two of its vertices are joined by a new edge. -/
theorem not_isSelection_iff {before full : Graph} {f : Nat → Vertex} (two : 2 ≤ S.layout.k)
    (selection : IsSelection S full f) :
    ¬ IsSelection S before f ↔
      ∃ p q, p < q ∧ q < S.layout.k ∧ NewEdge S before full (f p) (f q) := by
  constructor
  · intro notBefore
    by_contra noNew
    simp only [not_exists, not_and] at noNew
    have adjacent : ∀ p q, p < q → q < S.layout.k → Adjacent S before (f p) (f q) := by
      intro p q lt inQ
      by_contra notOld
      exact noNew p q lt inQ ⟨selection.adjacent p q lt inQ, notOld⟩
    refine notBefore ⟨selection.partition, fun p inK => ?_, adjacent⟩
    rcases Nat.eq_zero_or_pos p with rfl | positive
    · exact (adjacent 0 1 (by omega) (by omega)).2.1
    · exact (adjacent 0 p positive inK).2.2.1
  · rintro ⟨p, q, lt, inQ, new⟩ old
    exact new.2 (old.adjacent p q lt inQ)

theorem isKClique_and_not_iff {before full : Graph} (two : 2 ≤ S.layout.k) {clique : List Vertex} :
    (IsKClique S full clique ∧ ¬ IsKClique S before clique) ↔
      ∃ f, (IsSelection S full f ∧
        ∃ p q, p < q ∧ q < S.layout.k ∧ NewEdge S before full (f p) (f q)) ∧
        clique = (List.range S.layout.k).map f := by
  constructor
  · rintro ⟨isClique, notBefore⟩
    obtain ⟨f, selection, rfl⟩ := isKClique_iff.mp isClique
    rw [isKClique_map_iff, not_isSelection_iff two selection] at notBefore
    exact ⟨f, ⟨selection, notBefore⟩, rfl⟩
  · rintro ⟨f, ⟨selection, new⟩, rfl⟩
    rw [isKClique_map_iff, isKClique_map_iff, not_isSelection_iff two selection]
    exact ⟨selection, new⟩

/-! ### The two seeds -/

theorem fullAdjacent_iff {st : DeltaKPKC} (valid : S.Valid st.graphs.full) {u v : Vertex}
    (different : u.partition ≠ v.partition) (activeU : st.graphs.full.HasVertex u) :
    st.fullAdjacent S u v.partition v.bit = true ↔ Adjacent S st.graphs.full u v := by
  refine ⟨fun joined => ⟨different, activeU, ?_, joined⟩, fun adjacent => adjacent.2.2.2⟩
  cases dep : S.binaryDependency u.partition v.partition with
  | true => exact (valid.arc_ends u v ((getBitset_of_dependency dep).mp joined)).2
  | false => exact (getBitset_of_independent valid dep).mp joined

/-- The completions of the seed without an anchor are the selections of the full
graph. -/
theorem seedWithoutAnchor_spec {st : DeltaKPKC} (valid : S.Valid st.graphs.full) (ws : Workspace) :
    Seeded S st (seedWithoutAnchor st ws) ∧
    (seedWithoutAnchor st ws).unused S = Finset.range S.layout.k ∧
    ∀ f, IsCompletion S st (seedWithoutAnchor st ws) f ↔ IsSelection S st.graphs.full f := by
  have compatible : ∀ u v, u.partition ≠ v.partition → st.graphs.full.HasVertex u →
      (Compatible S st (seedWithoutAnchor st ws) u v ↔ Adjacent S st.graphs.full u v) := by
    intro u v different activeU
    rw [← fullAdjacent_iff valid different activeU]
    simp [Compatible, Workspace.masks, seedWithoutAnchor]
  have unused : (seedWithoutAnchor st ws).unused S = Finset.range S.layout.k := by
    ext p
    simp [seedWithoutAnchor]
  refine ⟨⟨fun p _ b candidate => candidate, fun u v activeU activeV different both => ?_⟩, unused,
    fun f => ⟨fun completion => ?_, fun selection => ?_⟩⟩
  · rw [compatible u v different activeU] at both
    exact (compatible v u different.symm activeV).mpr (both.symm valid)
  · have inRange : ∀ p, p < S.layout.k → p ∈ (seedWithoutAnchor st ws).unused S := by
      intro p inK
      rw [unused]
      exact Finset.mem_range.mpr inK
    have active : ∀ p < S.layout.k, st.graphs.full.HasVertex (f p) := by
      intro p inK
      have candidate := (completion.candidate p (inRange p inK)).2
      have eta : (⟨p, (f p).bit⟩ : Vertex) = f p :=
        Vertex.ext (completion.partition p (inRange p inK)).symm rfl
      rw [← eta]
      exact candidate
    refine ⟨fun p inK => completion.partition p (inRange p inK), active, fun p q lt inQ => ?_⟩
    have inP : p < S.layout.k := by omega
    refine (compatible _ _ ?_ (active p inP)).mp
      (completion.compatible p (inRange p inP) q (inRange q inQ) (Nat.ne_of_lt lt))
    rw [completion.partition p (inRange p inP), completion.partition q (inRange q inQ)]
    exact Nat.ne_of_lt lt
  · refine ⟨fun p _ used => absurd used Bool.false_ne_true, fun p mem => ?_, fun p mem => ?_,
      fun p memP q memQ different => ?_⟩
    · exact selection.partition p (Workspace.mem_unused.mp mem).1
    · have inK := (Workspace.mem_unused.mp mem).1
      have active := selection.active p inK
      have inBits := (valid.inLayout _ active).2
      unfold Graph.HasVertex at active
      rw [selection.partition p inK] at active inBits
      exact ⟨inBits, active⟩
    · have inP := (Workspace.mem_unused.mp memP).1
      have inQ := (Workspace.mem_unused.mp memQ).1
      have adjacent := selection.adjacent_of_ne valid inP inQ different
      exact (compatible _ _ adjacent.1 adjacent.2.1).mpr adjacent

section

variable {a : α} {before : Graph} {st : DeltaKPKC} (validBefore : S.Valid before)
  (spec : S.StepSpec a before st.graphs.delta st.graphs.full)

include validBefore spec

theorem compatible_iff {ws : Workspace} {u v : Vertex} (different : u.partition ≠ v.partition)
    (activeU : st.graphs.full.HasVertex u) :
    Compatible S st ws u v ↔ Adjacent S st.graphs.full u v ∧
      (ws.masks u.partition v.partition = true → ¬ NewEdge S before st.graphs.full u v) := by
  unfold Compatible
  rw [fullAdjacent_iff spec.valid different activeU, not_and]
  refine and_congr_right fun adjacent => ?_
  have delta := deltaAdjacent_iff validBefore spec different adjacent.2.1 adjacent.2.2.1
  unfold DeltaKPKC.deltaAdjacent
  rw [delta]

theorem compatible_symm {ws : Workspace} {u v : Vertex} (different : u.partition ≠ v.partition)
    (activeU : st.graphs.full.HasVertex u) (activeV : st.graphs.full.HasVertex v)
    (compatible : Compatible S st ws u v) : Compatible S st ws v u := by
  rw [compatible_iff validBefore spec different activeU] at compatible
  rw [compatible_iff validBefore spec different.symm activeV]
  refine ⟨compatible.1.symm spec.valid, fun masked new => ?_⟩
  refine compatible.2 ?_ (new.symm validBefore spec.valid)
  unfold Workspace.masks at masked ⊢
  cases anchor : ws.anchor with
  | none => simp [anchor] at masked
  | some pair =>
      simp only [anchor] at masked ⊢
      rw [Bool.or_comm]
      exact masked

/-- No new edge of the selection `f` comes before the pair `(pi, pj)`. -/
def NoneBefore (S : StaticConsistencyGraph α) (before full : Graph) (f : Nat → Vertex)
    (pi pj : Nat) : Prop :=
  ∀ p q, p < q → q < S.layout.k → LexBefore p q pi pj → ¬ NewEdge S before full (f p) (f q)

omit validBefore spec in
/-- The workspace that `seedFromAnchor` sets up, and when it gives up. -/
theorem seedFromAnchor_cases (S : StaticConsistencyGraph α) (st : DeltaKPKC) {e : Edge}
    (ws : Workspace) :
    (∀ seed, seedFromAnchor S st e ws = some seed →
      (∀ p, seed.partitionBits p = true ↔ p = e.src.partition ∨ p = e.dst.partition) ∧
      seed.partialSolution =
        Function.update (Function.update ws.partialSolution e.src.partition e.src)
          e.dst.partition e.dst ∧
      seed.anchor = some (e.src.partition, e.dst.partition) ∧
      ∀ q b, seed.compatible q b = true ↔ st.fullAdjacent S e.src q b = true ∧
        st.fullAdjacent S e.dst q b = true ∧
        ¬ (q < e.dst.partition ∧ st.deltaAdjacent S e.src q b = true) ∧
        ¬ (q < e.src.partition ∧ st.deltaAdjacent S e.dst q b = true)) ∧
    (seedFromAnchor S st e ws = none →
      ∃ q < S.layout.k, q ≠ e.src.partition ∧ q ≠ e.dst.partition ∧
        ∀ b < S.layout.numBits q, ¬ (st.fullAdjacent S e.src q b = true ∧
          st.fullAdjacent S e.dst q b = true ∧
          ¬ (q < e.dst.partition ∧ st.deltaAdjacent S e.src q b = true) ∧
          ¬ (q < e.src.partition ∧ st.deltaAdjacent S e.dst q b = true))) := by
  simp only [seedFromAnchor]
  split
  case isTrue =>
      refine ⟨fun seed found => ?_, fun absent => by cases absent⟩
      cases found
      refine ⟨fun p => ?_, rfl, rfl, fun q b => ?_⟩
      · simp only [Function.update_apply]
        split
        · simp [*]
        · simp [*]
      · simp [and_assoc, imp_iff_not_or]
  case isFalse empty =>
      refine ⟨fun seed found => (by cases found), fun _ => ?_⟩
      simp only [List.all_eq_true, List.mem_range, Bool.or_eq_true, beq_iff_eq, not_forall, not_or]
        at empty
      obtain ⟨q, inK, ⟨notSrc, notDst⟩, noBit⟩ := empty
      refine ⟨q, inK, notSrc, notDst, fun b inBits holds => ?_⟩
      refine noBit (Bitset.any_eq_true.mpr ⟨b, inBits, ?_⟩)
      simpa [and_assoc, imp_iff_not_or] using holds

/-- The candidates of an anchored seed: common neighbours of the anchor whose
edges to it do not precede the anchor as new edges. -/
theorem anchored_candidate_iff {e : Edge} (new : NewEdge S before st.graphs.full e.src e.dst)
    {v : Vertex} (notSrc : v.partition ≠ e.src.partition) (notDst : v.partition ≠ e.dst.partition) :
    (st.fullAdjacent S e.src v.partition v.bit = true ∧
      st.fullAdjacent S e.dst v.partition v.bit = true ∧
      ¬ (v.partition < e.dst.partition ∧ st.deltaAdjacent S e.src v.partition v.bit = true) ∧
      ¬ (v.partition < e.src.partition ∧ st.deltaAdjacent S e.dst v.partition v.bit = true)) ↔
    Adjacent S st.graphs.full e.src v ∧ Adjacent S st.graphs.full e.dst v ∧
      (v.partition < e.dst.partition → ¬ NewEdge S before st.graphs.full e.src v) ∧
      (v.partition < e.src.partition → ¬ NewEdge S before st.graphs.full e.dst v) := by
  rw [fullAdjacent_iff spec.valid notSrc.symm new.1.2.1,
    fullAdjacent_iff spec.valid notDst.symm new.1.2.2.1, not_and, not_and]
  refine and_congr_right fun adjacentSrc => and_congr_right fun adjacentDst => ?_
  have deltaSrc := deltaAdjacent_iff validBefore spec notSrc.symm adjacentSrc.2.1 adjacentSrc.2.2.1
  have deltaDst := deltaAdjacent_iff validBefore spec notDst.symm adjacentDst.2.1 adjacentDst.2.2.1
  unfold DeltaKPKC.deltaAdjacent
  rw [deltaSrc, deltaDst]

/-- An anchored seed leaves all partitions but the two of the anchor. -/
theorem seedFromAnchor_seeded {e : Edge} (later : e.src.partition < e.dst.partition)
    (new : NewEdge S before st.graphs.full e.src e.dst) {ws seed : Workspace}
    (found : seedFromAnchor S st e ws = some seed) :
    Seeded S st seed ∧ (seed.unused S).card = S.layout.k - 2 := by
  obtain ⟨bits, _, _, row⟩ := (seedFromAnchor_cases S st ws).1 seed found
  have inDst := (spec.valid.inLayout _ new.1.2.2.1).1
  have unused : seed.unused S =
      ((Finset.range S.layout.k).erase e.dst.partition).erase e.src.partition := by
    ext p
    simp only [Workspace.mem_unused, Finset.mem_erase, Finset.mem_range, ← Bool.not_eq_true, bits p]
    tauto
  refine ⟨⟨fun p mem b candidate => ?_, fun u v activeU activeV different compatible =>
    compatible_symm validBefore spec different activeU activeV compatible⟩, ?_⟩
  · rw [unused] at mem
    simp only [Finset.mem_erase] at mem
    exact ((anchored_candidate_iff validBefore spec new (v := ⟨p, b⟩) mem.1 mem.2.1).mp
      ((row p b).mp candidate)).1.2.2.1
  · have memSrc : e.src.partition ∈ (Finset.range S.layout.k).erase e.dst.partition := by
      simp only [Finset.mem_erase, Finset.mem_range]
      omega
    rw [unused, Finset.card_erase_of_mem memSrc,
      Finset.card_erase_of_mem (Finset.mem_range.mpr inDst), Finset.card_range]
    omega

/-- A completion of an anchored seed contains the anchor edge, and no new edge
of it comes before the anchor. -/
theorem IsCompletion.anchored {e : Edge} (later : e.src.partition < e.dst.partition)
    (new : NewEdge S before st.graphs.full e.src e.dst) {ws seed : Workspace}
    (found : seedFromAnchor S st e ws = some seed) {f : Nat → Vertex}
    (completion : IsCompletion S st seed f) :
    IsSelection S st.graphs.full f ∧ f e.src.partition = e.src ∧ f e.dst.partition = e.dst ∧
      NoneBefore S before st.graphs.full f e.src.partition e.dst.partition := by
  obtain ⟨bits, solution, anchor, row⟩ := (seedFromAnchor_cases S st ws).1 seed found
  have valid := spec.valid
  have inDst := (valid.inLayout _ new.1.2.2.1).1
  have inSrc := (valid.inLayout _ new.1.2.1).1
  have atSrc : f e.src.partition = e.src := by
    rw [completion.kept _ inSrc ((bits _).mpr (.inl rfl)), solution]
    simp [Nat.ne_of_lt later]
  have atDst : f e.dst.partition = e.dst := by
    rw [completion.kept _ inDst ((bits _).mpr (.inr rfl)), solution]
    simp
  have unused : ∀ q, q < S.layout.k → q ≠ e.src.partition → q ≠ e.dst.partition → q ∈ seed.unused S := by
    intro q inK notSrc notDst
    refine Workspace.mem_unused.mpr ⟨inK, ?_⟩
    rw [← Bool.not_eq_true, bits q]
    tauto
  have partition : ∀ q < S.layout.k, (f q).partition = q := by
    intro q inK
    by_cases isSrc : q = e.src.partition
    · rw [isSrc, atSrc]
    · by_cases isDst : q = e.dst.partition
      · rw [isDst, atDst]
      · exact completion.partition q (unused q inK isSrc isDst)
  have others : ∀ q, q < S.layout.k → q ≠ e.src.partition → q ≠ e.dst.partition →
      Adjacent S st.graphs.full e.src (f q) ∧ Adjacent S st.graphs.full e.dst (f q) ∧
        (q < e.dst.partition → ¬ NewEdge S before st.graphs.full e.src (f q)) ∧
        (q < e.src.partition → ¬ NewEdge S before st.graphs.full e.dst (f q)) := by
    intro q inK notSrc notDst
    have candidate := (completion.candidate q (unused q inK notSrc notDst)).2
    have atQ := partition q inK
    have both := anchored_candidate_iff validBefore spec new (v := f q)
      (by rw [atQ]; exact notSrc) (by rw [atQ]; exact notDst)
    rw [atQ] at both
    exact both.mp ((row q _).mp candidate)
  have free : ∀ p q, p ∈ seed.unused S → q ∈ seed.unused S → p ≠ q →
      Adjacent S st.graphs.full (f p) (f q) ∧
        (p < e.src.partition ∨ q < e.src.partition →
          ¬ NewEdge S before st.graphs.full (f p) (f q)) := by
    intro p q memP memQ different
    have inP := (Workspace.mem_unused.mp memP)
    have inQ := (Workspace.mem_unused.mp memQ)
    have notP : p ≠ e.src.partition ∧ p ≠ e.dst.partition := by
      have := (not_congr (bits p)).mp (by rw [inP.2]; exact Bool.false_ne_true)
      tauto
    have activeP := (others p inP.1 notP.1 notP.2).1.2.2.1
    have both := (compatible_iff validBefore spec
      (by rw [partition p inP.1, partition q inQ.1]; exact different) activeP).mp
      (completion.compatible p memP q memQ different)
    refine ⟨both.1, fun masked => both.2 ?_⟩
    rw [partition p inP.1, partition q inQ.1]
    simp only [Workspace.masks, anchor, Bool.or_eq_true, decide_eq_true_eq]
    exact masked
  have active : ∀ q < S.layout.k, st.graphs.full.HasVertex (f q) := by
    intro q inK
    by_cases isSrc : q = e.src.partition
    · rw [isSrc, atSrc]
      exact new.1.2.1
    · by_cases isDst : q = e.dst.partition
      · rw [isDst, atDst]
        exact new.1.2.2.1
      · exact (others q inK isSrc isDst).1.2.2.1
  -- Every pair of partitions is the anchor, has one anchor side, or avoids both.
  have pairs : ∀ p q, p < q → q < S.layout.k →
      Adjacent S st.graphs.full (f p) (f q) ∧
        (LexBefore p q e.src.partition e.dst.partition →
          ¬ NewEdge S before st.graphs.full (f p) (f q)) := by
    intro p q lt inQ
    have inP : p < S.layout.k := by omega
    by_cases pSrc : p = e.src.partition
    · subst pSrc
      by_cases qDst : q = e.dst.partition
      · subst qDst
        rw [atSrc, atDst]
        refine ⟨new.1, fun before => ?_⟩
        unfold LexBefore at before
        omega
      · obtain ⟨adjacent, _, notNew, _⟩ := others q inQ (Nat.ne_of_gt lt) qDst
        rw [atSrc]
        refine ⟨adjacent, fun before => notNew ?_⟩
        unfold LexBefore at before
        omega
    · by_cases pDst : p = e.dst.partition
      · subst pDst
        have := others q inQ (by omega) (Nat.ne_of_gt lt)
        rw [atDst]
        refine ⟨this.2.1, fun before => ?_⟩
        unfold LexBefore at before
        omega
      · obtain ⟨adjacentSrc, adjacentDst, notNewSrc, notNewDst⟩ := others p inP pSrc pDst
        by_cases qSrc : q = e.src.partition
        · subst qSrc
          rw [atSrc]
          exact ⟨adjacentSrc.symm valid, fun _ isNew =>
            notNewSrc (by omega) (isNew.symm validBefore valid)⟩
        · by_cases qDst : q = e.dst.partition
          · subst qDst
            rw [atDst]
            refine ⟨adjacentDst.symm valid, fun before isNew => ?_⟩
            refine notNewDst ?_ (isNew.symm validBefore valid)
            unfold LexBefore at before
            omega
          · obtain ⟨adjacent, notNew⟩ :=
              free p q (unused p inP pSrc pDst) (unused q inQ qSrc qDst) (Nat.ne_of_lt lt)
            refine ⟨adjacent, fun before => notNew ?_⟩
            unfold LexBefore at before
            omega
  exact ⟨⟨partition, active, fun p q lt inQ => (pairs p q lt inQ).1⟩, atSrc, atDst,
    fun p q lt inQ => (pairs p q lt inQ).2⟩

/-- A selection whose first new edge is the anchor completes the anchored seed. -/
theorem IsSelection.anchored {e : Edge} (later : e.src.partition < e.dst.partition)
    (new : NewEdge S before st.graphs.full e.src e.dst) (ws : Workspace) {f : Nat → Vertex}
    (selection : IsSelection S st.graphs.full f) (atSrc : f e.src.partition = e.src)
    (atDst : f e.dst.partition = e.dst)
    (noneBefore : NoneBefore S before st.graphs.full f e.src.partition e.dst.partition) :
    ∃ seed, seedFromAnchor S st e ws = some seed ∧ IsCompletion S st seed f := by
  have valid := spec.valid
  have inDst := (valid.inLayout _ new.1.2.2.1).1
  have inSrc : e.src.partition < S.layout.k := by omega
  have candidate : ∀ q, q < S.layout.k → q ≠ e.src.partition → q ≠ e.dst.partition →
      (f q).bit < S.layout.numBits q ∧ st.fullAdjacent S e.src q (f q).bit = true ∧
        st.fullAdjacent S e.dst q (f q).bit = true ∧
        ¬ (q < e.dst.partition ∧ st.deltaAdjacent S e.src q (f q).bit = true) ∧
        ¬ (q < e.src.partition ∧ st.deltaAdjacent S e.dst q (f q).bit = true) := by
    intro q inK notSrc notDst
    have atQ := selection.partition q inK
    have inBits := (valid.inLayout _ (selection.active q inK)).2
    have both := anchored_candidate_iff validBefore spec new (v := f q)
      (by rw [atQ]; exact notSrc) (by rw [atQ]; exact notDst)
    rw [atQ] at both inBits
    refine ⟨inBits, both.mpr ⟨?_, ?_, fun before isNew => ?_, fun before isNew => ?_⟩⟩
    · rw [← atSrc]
      exact selection.adjacent_of_ne valid inSrc inK notSrc.symm
    · rw [← atDst]
      exact selection.adjacent_of_ne valid inDst inK notDst.symm
    · rw [← atSrc] at isNew
      rcases Nat.lt_or_gt_of_ne notSrc with lt | gt
      · exact noneBefore q _ lt inSrc (.inl lt) (isNew.symm validBefore valid)
      · exact noneBefore _ q gt inK (.inr ⟨rfl, before⟩) isNew
    · rw [← atDst] at isNew
      exact noneBefore q _ (by omega) inDst (.inl before) (isNew.symm validBefore valid)
  obtain ⟨whenSome, whenNone⟩ := seedFromAnchor_cases S st ws (e := e)
  cases found : seedFromAnchor S st e ws with
  | none =>
      obtain ⟨q, inK, notSrc, notDst, empty⟩ := whenNone found
      obtain ⟨inBits, holds⟩ := candidate q inK notSrc notDst
      exact absurd holds (empty _ inBits)
  | some seed =>
      obtain ⟨bits, solution, anchor, row⟩ := whenSome seed found
      have notAnchor : ∀ q ∈ seed.unused S,
          q < S.layout.k ∧ q ≠ e.src.partition ∧ q ≠ e.dst.partition := by
        intro q mem
        obtain ⟨inK, unused⟩ := Workspace.mem_unused.mp mem
        rw [← Bool.not_eq_true, bits q] at unused
        tauto
      refine ⟨seed, rfl, ⟨fun p inK used => ?_, fun p mem => ?_, fun p mem => ?_,
        fun p memP q memQ different => ?_⟩⟩
      · rw [solution]
        rcases (bits p).mp used with rfl | rfl
        · rw [atSrc]
          simp [Nat.ne_of_lt later]
        · rw [atDst]
          simp
      · exact selection.partition p (notAnchor p mem).1
      · obtain ⟨inK, notSrc, notDst⟩ := notAnchor p mem
        obtain ⟨inBits, holds⟩ := candidate p inK notSrc notDst
        exact ⟨inBits, (row p _).mpr holds⟩
      · obtain ⟨inP, _, _⟩ := notAnchor p memP
        obtain ⟨inQ, _, _⟩ := notAnchor q memQ
        have adjacent := selection.adjacent_of_ne valid inP inQ different
        refine (compatible_iff validBefore spec adjacent.1 adjacent.2.1).mpr ⟨adjacent, fun masked => ?_⟩
        rw [selection.partition p inP, selection.partition q inQ] at masked
        simp only [Workspace.masks, anchor, Bool.or_eq_true, decide_eq_true_eq] at masked
        rcases Nat.lt_or_gt_of_ne different with lt | gt
        · exact noneBefore p q lt inQ (.inl (by omega))
        · exact fun isNew => noneBefore q p gt inP (.inl (by omega)) (isNew.symm validBefore valid)

/-- With three or more partitions, the anchored enumeration over the delta edges
lists the selections with a new edge, each one at its first new edge. -/
theorem anchoredCliques_spec (three : 3 ≤ S.layout.k) (ws : Workspace) :
    ((st.graphs.delta.forEachEdge S.layout S.binaryDependency).flatMap
      (completeFromAnchor S st ws)).Nodup ∧
    ∀ clique, clique ∈ (st.graphs.delta.forEachEdge S.layout S.binaryDependency).flatMap
        (completeFromAnchor S st ws) ↔
      IsKClique S st.graphs.full clique ∧ ¬ IsKClique S before clique := by
  have remaining : S.layout.k - 2 = (S.layout.k - 3) + 1 := by omega
  have completed : ∀ e seed, e.src.partition < e.dst.partition →
      NewEdge S before st.graphs.full e.src e.dst → seedFromAnchor S st e ws = some seed →
      (completeFromSeed S st (S.layout.k - 2) seed).Nodup ∧
      ∀ clique, clique ∈ completeFromSeed S st (S.layout.k - 2) seed ↔
        ∃ f, IsCompletion S st seed f ∧ clique = (List.range S.layout.k).map f := by
    intro e seed later new found
    obtain ⟨seeded, count⟩ := seedFromAnchor_seeded validBefore spec later new found
    rw [remaining]
    exact completeFromSeed_spec _ seed seeded (by omega)
  have inner : ∀ e, e.src.partition < e.dst.partition → NewEdge S before st.graphs.full e.src e.dst →
      ∀ clique, clique ∈ completeFromAnchor S st ws e ↔
      ∃ f, (IsSelection S st.graphs.full f ∧ f e.src.partition = e.src ∧ f e.dst.partition = e.dst ∧
        NoneBefore S before st.graphs.full f e.src.partition e.dst.partition) ∧
        clique = (List.range S.layout.k).map f := by
    intro e later new clique
    unfold completeFromAnchor
    constructor
    · intro listed
      cases found : seedFromAnchor S st e ws with
      | none => simp [found] at listed
      | some seed =>
          rw [found] at listed
          obtain ⟨f, completion, same⟩ := ((completed e seed later new found).2 clique).mp listed
          exact ⟨f, completion.anchored validBefore spec later new found, same⟩
    · rintro ⟨f, ⟨selection, atSrc, atDst, noneBefore⟩, same⟩
      obtain ⟨seed, found, completion⟩ :=
        selection.anchored validBefore spec later new ws atSrc atDst noneBefore
      rw [found]
      exact ((completed e seed later new found).2 clique).mpr ⟨f, completion, same⟩
  have edges := fun e => mem_delta_forEachEdge validBefore spec (e := e)
  constructor
  · refine nodup_flatMap_of_unique (Graph.nodup_forEachEdge _ _ _) ?_ ?_
    · intro e mem
      obtain ⟨later, new⟩ := (edges e).mp mem
      unfold completeFromAnchor
      cases found : seedFromAnchor S st e ws with
      | none => exact List.nodup_nil
      | some seed => exact (completed e seed later new found).1
    · intro e memE e' memE' clique inE inE'
      obtain ⟨later, new⟩ := (edges e).mp memE
      obtain ⟨later', new'⟩ := (edges e').mp memE'
      obtain ⟨f, ⟨selection, atSrc, atDst, noneBefore⟩, rfl⟩ := (inner e later new clique).mp inE
      obtain ⟨g, ⟨_, atSrc', atDst', noneBefore'⟩, same⟩ := (inner e' later' new' _).mp inE'
      have agree : ∀ p < S.layout.k, f p = g p := fun p inK =>
        List.map_inj_left.mp same p (List.mem_range.mpr inK)
      have inDst := (spec.valid.inLayout _ new.1.2.2.1).1
      have inDst' := (spec.valid.inLayout _ new'.1.2.2.1).1
      have inSrc : e.src.partition < S.layout.k := by omega
      have inSrc' : e'.src.partition < S.layout.k := by omega
      -- Both anchors are the first new edge of the same selection.
      rw [← agree _ inSrc'] at atSrc'
      rw [← agree _ inDst'] at atDst'
      obtain ⟨sameSrc, sameDst⟩ :
          e.src.partition = e'.src.partition ∧ e.dst.partition = e'.dst.partition := by
        rcases lexBefore_trichotomy e.src.partition e.dst.partition e'.src.partition e'.dst.partition
          with before' | same' | after
        · refine absurd ?_ (noneBefore' _ _ later inDst before')
          rw [← agree _ inSrc, ← agree _ inDst, atSrc, atDst]
          exact new
        · exact same'
        · refine absurd ?_ (noneBefore _ _ later' inDst' after)
          rw [atSrc', atDst']
          exact new'
      have sameSrcVertex : e.src = e'.src := by rw [← atSrc, ← atSrc', sameSrc]
      have sameDstVertex : e.dst = e'.dst := by rw [← atDst, ← atDst', sameDst]
      cases e
      cases e'
      simp only [Edge.mk.injEq]
      exact ⟨sameSrcVertex, sameDstVertex⟩
  · intro clique
    rw [isKClique_and_not_iff (by omega), List.mem_flatMap]
    constructor
    · rintro ⟨e, mem, listed⟩
      obtain ⟨later, new⟩ := (edges e).mp mem
      obtain ⟨f, ⟨selection, atSrc, atDst, _⟩, same⟩ := (inner e later new clique).mp listed
      have inDst := (spec.valid.inLayout _ new.1.2.2.1).1
      refine ⟨f, ⟨selection, e.src.partition, e.dst.partition, later, inDst, ?_⟩, same⟩
      rw [atSrc, atDst]
      exact new
    · rintro ⟨f, ⟨selection, p, q, lt, inQ, new⟩, same⟩
      obtain ⟨i, j, ⟨lt', inJ, first⟩, least⟩ := exists_lexFirst
        (R := fun p q => p < q ∧ q < S.layout.k ∧ NewEdge S before st.graphs.full (f p) (f q))
        ⟨lt, inQ, new⟩
      have inI : i < S.layout.k := by omega
      have atI := selection.partition i inI
      have atJ := selection.partition j inJ
      refine ⟨⟨f i, f j⟩, (edges _).mpr ⟨?_, first⟩, ?_⟩
      · rw [atI, atJ]
        exact lt'
      · refine (inner _ (by rw [atI, atJ]; exact lt') first clique).mpr ⟨f, ⟨selection, ?_, ?_, ?_⟩, same⟩
        · rw [atI]
        · rw [atJ]
        · rw [atI, atJ]
          intro p' q' lt'' inQ' before' isNew
          exact least p' q' before' ⟨lt'', inQ', isNew⟩

end

/-! ### Rules of arity one and two -/

theorem isKClique_singleton (unary : S.layout.k = 1) {g : Graph} {clique : List Vertex} :
    IsKClique S g clique ↔ ∃ v, (v.partition = 0 ∧ g.HasVertex v) ∧ [v] = clique := by
  constructor
  · rintro ⟨partitions, active, _⟩
    rw [unary] at partitions
    have length : clique.length = 1 := by simpa using congrArg List.length partitions
    obtain ⟨v, rfl⟩ := List.length_eq_one_iff.mp length
    exact ⟨v, ⟨by simpa using partitions, active v List.mem_cons_self⟩, rfl⟩
  · rintro ⟨v, ⟨partition, active⟩, rfl⟩
    exact ⟨by rw [unary]; simp [partition], by simpa using active, List.pairwise_singleton _ _⟩

theorem isKClique_pair (binary : S.layout.k = 2) {g : Graph} (valid : S.Valid g)
    {clique : List Vertex} :
    IsKClique S g clique ↔ ∃ e : Edge, (e.src.partition < e.dst.partition ∧
      Adjacent S g e.src e.dst) ∧ [e.src, e.dst] = clique := by
  constructor
  · rintro ⟨partitions, _, adjacent⟩
    rw [binary] at partitions
    have length : clique.length = 2 := by simpa using congrArg List.length partitions
    obtain ⟨u, v, rfl⟩ := List.length_eq_two.mp length
    have both : u.partition = 0 ∧ v.partition = 1 := by simpa [List.range_succ] using partitions
    refine ⟨⟨u, v⟩, ⟨?_, by simpa using adjacent⟩, rfl⟩
    simp only [both.1, both.2]
    exact Nat.zero_lt_one
  · rintro ⟨⟨u, v⟩, ⟨later, adjacent⟩, rfl⟩
    have inU := (valid.inLayout u adjacent.2.1).1
    have inV := (valid.inLayout v adjacent.2.2.1).1
    have zero : u.partition = 0 := by simp only at later; omega
    have one : v.partition = 1 := by simp only at later; omega
    refine ⟨by rw [binary]; simp [List.range_succ, zero, one], fun w mem => ?_, by simpa using adjacent⟩
    rcases List.mem_cons.mp mem with rfl | mem
    · exact adjacent.2.1
    · rw [List.mem_singleton.mp mem]
      exact adjacent.2.2.1

theorem nodup_map_pair {edges : List Edge} (nodup : edges.Nodup) :
    (edges.map fun e => [e.src, e.dst]).Nodup := by
  refine nodup.map fun e e' same => ?_
  cases e
  cases e'
  simpa using same

/-! ### What an iteration reports -/

/-- In the first iteration all k-cliques of the full graph are listed. -/
theorem forEachKClique_spec {st : DeltaKPKC} (valid : S.Valid st.graphs.full) (ws : Workspace) :
    (forEachKClique S st ws).Nodup ∧
    ∀ clique, clique ∈ forEachKClique S st ws ↔ IsKClique S st.graphs.full clique := by
  unfold forEachKClique
  split_ifs with nullary unary binary
  · refine ⟨List.nodup_singleton _, fun clique => ?_⟩
    rw [List.mem_singleton]
    constructor
    · rintro rfl
      exact ⟨by simp [nullary], by simp, List.Pairwise.nil⟩
    · intro isClique
      have := isClique.partitions
      simpa [nullary] using this
  · refine ⟨(Graph.nodup_forEachVertex _ _).map fun v w same => by simpa using same, fun clique => ?_⟩
    rw [isKClique_singleton unary, List.mem_map]
    refine exists_congr fun v => and_congr_left fun _ => ?_
    rw [Graph.mem_forEachVertex]
    constructor
    · rintro ⟨inK, _, active⟩
      exact ⟨by omega, active⟩
    · rintro ⟨zero, active⟩
      exact ⟨by omega, (valid.inLayout v active).2, active⟩
  · refine ⟨nodup_map_pair (Graph.nodup_forEachEdge _ _ _), fun clique => ?_⟩
    rw [isKClique_pair binary valid, List.mem_map]
    exact exists_congr fun e => and_congr_left fun _ => mem_full_forEachEdge valid
  · obtain ⟨seeded, unused, completions⟩ := seedWithoutAnchor_spec valid ws
    obtain ⟨k, succ⟩ := Nat.exists_eq_succ_of_ne_zero nullary
    have count : ((seedWithoutAnchor st ws).unused S).card = k + 1 := by
      rw [unused, Finset.card_range, succ]
    rw [succ]
    obtain ⟨nodup, mem⟩ := completeFromSeed_spec k _ seeded count
    refine ⟨nodup, fun clique => ?_⟩
    rw [mem, isKClique_iff]
    exact exists_congr fun f => and_congr_left fun _ => completions f

/-- What one iteration reports: the k-cliques of the full graph, and after the
first iteration only those that the full graph before it did not have. -/
theorem mem_newCliques_iff {a : α} {before : Graph} {st : DeltaKPKC}
    (validBefore : S.Valid before) (spec : S.StepSpec a before st.graphs.delta st.graphs.full)
    (ws : Workspace) :
    (forEachNewKClique S st ws).Nodup ∧
    ∀ clique, clique ∈ forEachNewKClique S st ws ↔
      IsKClique S st.graphs.full clique ∧ (st.iteration = 1 ∨ ¬ IsKClique S before clique) := by
  have valid := spec.valid
  unfold forEachNewKClique
  split_ifs with first nullary unary binary
  · obtain ⟨nodup, mem⟩ := forEachKClique_spec valid ws
    exact ⟨nodup, fun clique => by simp [mem, first]⟩
  · refine ⟨List.nodup_nil, fun clique => ?_⟩
    simp only [List.not_mem_nil, first, false_or, false_iff, not_and, not_not]
    intro isClique
    have empty : clique = [] := by
      have := isClique.partitions
      simpa [nullary] using this
    subst empty
    exact ⟨by simp [nullary], by simp, List.Pairwise.nil⟩
  · refine ⟨(Graph.nodup_forEachVertex _ _).map fun v w same => by simpa using same, fun clique => ?_⟩
    rw [isKClique_singleton unary, isKClique_singleton unary, List.mem_map]
    simp only [first, false_or]
    constructor
    · rintro ⟨v, mem, rfl⟩
      obtain ⟨inK, _, affected⟩ := Graph.mem_forEachVertex.mp mem
      obtain ⟨active, new⟩ := (spec.delta_iff v).mp (spec.affected_unary unary v affected)
      refine ⟨⟨v, ⟨by omega, active⟩, rfl⟩, ?_⟩
      rintro ⟨w, ⟨_, old⟩, same⟩
      cases same
      exact new old
    · rintro ⟨⟨v, ⟨zero, active⟩, rfl⟩, notBefore⟩
      have isDelta := (spec.delta_iff v).mpr
        ⟨active, fun old => notBefore ⟨v, ⟨zero, old⟩, rfl⟩⟩
      have inLayout := valid.inLayout v active
      exact ⟨v, Graph.mem_forEachVertex.mpr ⟨inLayout.1, inLayout.2, spec.delta_sub v isDelta⟩, rfl⟩
  · refine ⟨nodup_map_pair (Graph.nodup_forEachEdge _ _ _), fun clique => ?_⟩
    rw [isKClique_pair binary valid, isKClique_pair binary validBefore, List.mem_map]
    simp only [first, false_or]
    constructor
    · rintro ⟨e, mem, rfl⟩
      obtain ⟨later, new⟩ := (mem_delta_forEachEdge validBefore spec).mp mem
      refine ⟨⟨e, ⟨later, new.1⟩, rfl⟩, ?_⟩
      rintro ⟨e', ⟨_, old⟩, same⟩
      obtain ⟨sameSrc, sameDst⟩ : e'.src = e.src ∧ e'.dst = e.dst := by simpa using same
      rw [sameSrc, sameDst] at old
      exact new.2 old
    · rintro ⟨⟨e, ⟨later, adjacent⟩, rfl⟩, notBefore⟩
      refine ⟨e, (mem_delta_forEachEdge validBefore spec).mpr ⟨later, adjacent, fun old => ?_⟩, rfl⟩
      exact notBefore ⟨e, ⟨later, old⟩, rfl⟩
  · obtain ⟨nodup, mem⟩ := anchoredCliques_spec validBefore spec (by omega) ws
    exact ⟨nodup, fun clique => by rw [mem]; simp [first]⟩

/-! ### Runs -/

/-- The states of a `DeltaKPKC` that the calls of `reset` and
`set_next_assignment_sets` can reach, in any order. -/
inductive Reachable (S : StaticConsistencyGraph α) : DeltaKPKC → Prop where
  | create : Reachable S DeltaKPKC.create
  | reset {st : DeltaKPKC} : Reachable S st → Reachable S st.reset
  | next {st : DeltaKPKC} (a : α) : Reachable S st → Reachable S (st.setNextAssignmentSets S a)

/-- The state after a reset and the assignment sets `sets`, one iteration each. -/
def runAfterReset (S : StaticConsistencyGraph α) (st : DeltaKPKC) (sets : List α) : DeltaKPKC :=
  sets.foldl (DeltaKPKC.setNextAssignmentSets S) st.reset

/-- What the successive iterations after a reset report. -/
def reports (S : StaticConsistencyGraph α) (st : DeltaKPKC) (ws : Workspace) (sets : List α) :
    List (List (List Vertex)) :=
  (List.range sets.length).map fun t =>
    forEachNewKClique S (runAfterReset S st (sets.take (t + 1))) ws

theorem valid_of_no_vertices {g : Graph} (noVertex : ∀ v, ¬ g.HasVertex v)
    (noDelta : ∀ v, ¬ g.HasDelta v) (noArc : ∀ u v, ¬ g.HasArc u v) : S.Valid g where
  delta_iff v := iff_of_false (noDelta v) (noVertex v)
  inLayout v active := absurd active (noVertex v)
  arc_symm u v arc := absurd arc (noArc u v)
  arc_ends u v arc := absurd arc (noArc u v)
  arc_pair u v arc := absurd arc (noArc u v)
  covers u v arc := absurd arc (noArc u v)

theorem valid_reset {g : Graph} (covers : g.TouchedCovers) : S.Valid g.reset :=
  valid_of_no_vertices g.not_hasVertex_reset g.not_hasDelta_reset covers.not_hasArc_reset

/-- In every reachable state the full graph is valid and `reset` finds every
arc of the delta graph. -/
theorem Reachable.valid {st : DeltaKPKC} (reachable : Reachable S st) :
    S.Valid st.graphs.full ∧ st.graphs.delta.TouchedCovers := by
  induction reachable with
  | create =>
      refine ⟨valid_of_no_vertices ?_ ?_ ?_, ?_⟩
      · simp [DeltaKPKC.create, Graph.HasVertex, Graph.empty]
      · simp [DeltaKPKC.create, Graph.HasDelta, Graph.empty]
      · simp [DeltaKPKC.create, Graph.HasArc, Graph.empty]
      · simp [DeltaKPKC.create, Graph.TouchedCovers, Graph.HasArc, Graph.empty]
  | reset _ ih => exact ⟨valid_reset ih.1.covers, ih.2.reset⟩
  | next a _ ih =>
      have spec := S.initializeDynamicConsistencyGraphs_spec a ih.1 ih.2
      exact ⟨spec.valid, spec.delta_covers⟩

theorem Reachable.runAfterReset {st : DeltaKPKC} (reachable : Reachable S st) (sets : List α) :
    Reachable S (runAfterReset S st sets) :=
  foldl_invariant (P := Reachable S) (fun _ ih a _ => .next a ih) reachable.reset

theorem iteration_runAfterReset (st : DeltaKPKC) (sets : List α) :
    (runAfterReset S st sets).iteration = sets.length := by
  induction sets using List.reverseRecOn with
  | nil => rfl
  | append_singleton sets a ih =>
      have step : runAfterReset S st (sets ++ [a]) =
          (runAfterReset S st sets).setNextAssignmentSets S a := by
        simp [Kpkc.runAfterReset]
      rw [step, List.length_append, List.length_singleton, ← ih]
      rfl

/-- One iteration of a run. -/
theorem report_spec {st : DeltaKPKC} (reachable : Reachable S st) (ws : Workspace) (sets : List α)
    (a : α) :
    (forEachNewKClique S (runAfterReset S st (sets ++ [a])) ws).Nodup ∧
    ∀ clique, clique ∈ forEachNewKClique S (runAfterReset S st (sets ++ [a])) ws ↔
      IsKClique S (runAfterReset S st (sets ++ [a])).graphs.full clique ∧
        (sets = [] ∨ ¬ IsKClique S (runAfterReset S st sets).graphs.full clique) := by
  have step : runAfterReset S st (sets ++ [a]) =
      (runAfterReset S st sets).setNextAssignmentSets S a := by
    simp [Kpkc.runAfterReset]
  obtain ⟨validBefore, covers⟩ := (reachable.runAfterReset sets).valid
  have spec := S.initializeDynamicConsistencyGraphs_spec a validBefore covers
  have first : (runAfterReset S st (sets ++ [a])).iteration = 1 ↔ sets = [] := by
    rw [iteration_runAfterReset, List.length_append, List.length_singleton, Nat.add_eq_right,
      List.length_eq_zero_iff]
  rw [← first, step]
  exact mem_newCliques_iff validBefore spec ws

/-- The selections that the first update after a reset accepts: every vertex
passes its test, and so does every edge of a dependent pair. -/
structure IsAcceptedSelection (S : StaticConsistencyGraph α) (a : α) (f : Nat → Vertex) : Prop where
  partition : ∀ p < S.layout.k, (f p).partition = p
  vertex : ∀ p < S.layout.k, S.Accepts a (f p)
  edge : ∀ p q, p < q → q < S.layout.k → S.binaryDependency p q = true → S.AcceptsEdge a (f p) (f q)

/-- The selections of the full graph after the first update. -/
theorem isSelection_first_iff {before delta full : Graph} {a : α} (noVertex : ∀ v, ¬ before.HasVertex v)
    (noArc : ∀ u v, ¬ before.HasArc u v) (spec : S.StepSpec a before delta full) {f : Nat → Vertex} :
    IsSelection S full f ↔ IsAcceptedSelection S a f := by
  have active : ∀ v, full.HasVertex v ↔ v.partition < S.layout.k ∧ S.Accepts a v :=
    fun v => (spec.vertex_iff v).trans (or_iff_right (noVertex v))
  have arcs : ∀ u v, full.HasArc u v ↔
      full.HasVertex u ∧ full.HasVertex v ∧ (S.AcceptsEdge a u v ∨ S.AcceptsEdge a v u) :=
    fun u v => (spec.arc_iff u v).trans (or_iff_right (noArc u v))
  constructor
  · intro selection
    refine ⟨selection.partition, fun p inK => ((active _).mp (selection.active p inK)).2, ?_⟩
    intro p q before inK dep
    have inP := before.trans inK
    rw [← selection.partition p inP, ← selection.partition q inK] at dep
    have joined := (selection.adjacent p q before inK).2.2.2
    obtain ⟨_, _, forward | backward⟩ := (arcs _ _).mp ((getBitset_of_dependency dep).mp joined)
    · exact forward
    · have := backward.1
      rw [selection.partition p inP, selection.partition q inK] at this
      omega
  · intro accepted
    have isActive : ∀ p < S.layout.k, full.HasVertex (f p) := fun p inK =>
      (active _).mpr ⟨(accepted.partition p inK).symm ▸ inK, accepted.vertex p inK⟩
    refine ⟨accepted.partition, isActive, fun p q before inK => ?_⟩
    have inP := before.trans inK
    refine ⟨?_, isActive p inP, isActive q inK, ?_⟩
    · rw [accepted.partition p inP, accepted.partition q inK]
      exact before.ne
    · cases dep : S.binaryDependency (f p).partition (f q).partition with
      | false => exact (getBitset_of_independent spec.valid dep).mpr (isActive q inK)
      | true =>
          rw [getBitset_of_dependency dep, arcs]
          rw [accepted.partition p inP, accepted.partition q inK] at dep
          exact ⟨isActive p inP, isActive q inK, .inl (accepted.edge p q before inK dep)⟩

/-- What the first iteration after a reset reports. -/
theorem first_report_iff {st : DeltaKPKC} (reachable : Reachable S st) (ws : Workspace) (a : α)
    {clique : List Vertex} :
    clique ∈ forEachNewKClique S (runAfterReset S st [a]) ws ↔
      ∃ f, IsAcceptedSelection S a f ∧ clique = (List.range S.layout.k).map f := by
  have covers := reachable.valid.1.covers
  obtain ⟨validBefore, coversDelta⟩ := reachable.reset.valid
  have spec := S.initializeDynamicConsistencyGraphs_spec a validBefore coversDelta
  have mem := (report_spec reachable ws [] a).2 clique
  rw [List.nil_append] at mem
  rw [mem, and_iff_left (.inl rfl), isKClique_iff]
  exact exists_congr fun f => and_congr_left fun _ =>
    isSelection_first_iff (Graph.not_hasVertex_reset _) covers.not_hasArc_reset spec

/-- Along a run the cliques of the full graph only grow. -/
theorem IsKClique.mono {st : DeltaKPKC} (reachable : Reachable S st) (sets : List α) (a : α)
    {clique : List Vertex} (isClique : IsKClique S (runAfterReset S st sets).graphs.full clique) :
    IsKClique S (runAfterReset S st (sets ++ [a])).graphs.full clique := by
  have step : runAfterReset S st (sets ++ [a]) =
      (runAfterReset S st sets).setNextAssignmentSets S a := by
    simp [Kpkc.runAfterReset]
  obtain ⟨validBefore, covers⟩ := (reachable.runAfterReset sets).valid
  have spec := S.initializeDynamicConsistencyGraphs_spec a validBefore covers
  rw [step]
  have active : ∀ v, (runAfterReset S st sets).graphs.full.HasVertex v →
      (S.initializeDynamicConsistencyGraphs a (runAfterReset S st sets).graphs).full.HasVertex v :=
    fun v old => (spec.vertex_iff v).mpr (.inl old)
  refine ⟨isClique.partitions, fun v mem => active v (isClique.active v mem),
    isClique.adjacent.imp ?_⟩
  rintro u v ⟨different, activeU, activeV, joined⟩
  refine ⟨different, active u activeU, active v activeV, ?_⟩
  cases dep : S.binaryDependency u.partition v.partition with
  | true =>
      rw [getBitset_of_dependency dep] at joined
      exact (getBitset_of_dependency dep).mpr ((spec.arc_iff u v).mpr (.inl joined))
  | false => exact (getBitset_of_independent spec.valid dep).mpr (active v activeV)

theorem reports_append (st : DeltaKPKC) (ws : Workspace) (sets : List α) (a : α) :
    reports S st ws (sets ++ [a]) =
      reports S st ws sets ++ [forEachNewKClique S (runAfterReset S st (sets ++ [a])) ws] := by
  unfold reports
  rw [List.length_append, List.length_singleton, List.range_succ, List.map_append, List.map_singleton]
  congr 1
  · refine List.map_congr_left fun t mem => ?_
    rw [List.take_append_of_le_length (List.mem_range.mp mem)]
  · rw [List.take_of_length_le (by simp)]

/-- The concatenated reports of a run. -/
theorem reports_flatten_spec {st : DeltaKPKC} (reachable : Reachable S st) (ws : Workspace)
    (sets : List α) :
    (reports S st ws sets).flatten.Nodup ∧
    ∀ clique, clique ∈ (reports S st ws sets).flatten ↔
      sets ≠ [] ∧ IsKClique S (runAfterReset S st sets).graphs.full clique := by
  induction sets using List.reverseRecOn with
  | nil => simp [reports]
  | append_singleton sets a ih =>
      obtain ⟨nodup, mem⟩ := ih
      obtain ⟨nodupLast, memLast⟩ := report_spec reachable ws sets a
      rw [reports_append, List.flatten_append, List.flatten_singleton]
      constructor
      · refine nodup.append nodupLast fun clique old new => ?_
        obtain ⟨nonempty, isClique⟩ := (mem clique).mp old
        exact (((memLast clique).mp new).2.resolve_left nonempty) isClique
      · intro clique
        have grows : IsKClique S (runAfterReset S st sets).graphs.full clique → _ :=
          IsKClique.mono reachable sets a
        rw [List.mem_append, mem, memLast]
        simp only [ne_eq, List.append_eq_nil_iff, List.cons_ne_self, and_false, not_false_eq_true,
          true_and]
        tauto

/-- Delta clique enumeration is exactly-once: after a reset in any reachable
state, iteration `t` of a run reports, without repetition, the k-cliques of its
full graph that were no k-cliques of the full graph of the iteration before, and
the concatenation of all reports lists every k-clique of the last full graph
exactly once. -/
theorem forEachNewKClique_exactly_once (S : StaticConsistencyGraph α) (st : DeltaKPKC)
    (reachable : Reachable S st) (ws : Workspace) (sets : List α) :
    (∀ t < sets.length,
      (forEachNewKClique S (runAfterReset S st (sets.take (t + 1))) ws).Nodup ∧
      ∀ clique, clique ∈ forEachNewKClique S (runAfterReset S st (sets.take (t + 1))) ws ↔
        IsKClique S (runAfterReset S st (sets.take (t + 1))).graphs.full clique ∧
          (t = 0 ∨ ¬ IsKClique S (runAfterReset S st (sets.take t)).graphs.full clique)) ∧
    (reports S st ws sets).flatten.Nodup ∧
    (sets ≠ [] → ∀ clique, clique ∈ (reports S st ws sets).flatten ↔
      IsKClique S (runAfterReset S st sets).graphs.full clique) := by
  obtain ⟨nodup, mem⟩ := reports_flatten_spec reachable ws sets
  refine ⟨fun t inRange => ?_, nodup, fun nonempty clique => ?_⟩
  · have start : sets.take t = [] ↔ t = 0 := by
      rw [List.take_eq_nil_iff]
      exact or_iff_left (List.ne_nil_of_length_pos (by omega))
    rw [List.take_succ_eq_append_getElem inRange, ← start]
    exact report_spec reachable ws (sets.take t) sets[t]
  · rw [mem]
    exact and_iff_right nonempty

end

/-- Three partitions of two vertices. Partition 0 is filtered by the assignment
sets, the pair (0, 1) has explicit edges, the other pairs are independent. -/
def filteredTriangle : StaticConsistencyGraph Nat where
  layout := ⟨3, fun _ => 2⟩
  binaryDependency p q := (p == 0 && q == 1) || (p == 1 && q == 0)
  binaryDependency_symm p q := by rw [Bool.or_comm, Bool.and_comm (q == 0), Bool.and_comm (q == 1)]
  unaryRuntime p := p == 0
  binaryRuntime _ _ := false
  staticEdges v _ b := v.bit ≤ b
  consistentVertex a v := decide (v.bit < a)
  consistentEdge _ _ _ := false

/-- Growing sets: the first iteration reports four cliques, the second one the
two cliques of the second vertex of partition 0. -/
theorem forEachNewKClique_exactly_once_filteredTriangle :
    (reports filteredTriangle DeltaKPKC.create ⟨fun _ _ => false, fun _ => false, fun _ => ⟨0, 0⟩, none⟩
      [1, 2]).map List.length = [4, 2] ∧
    (reports filteredTriangle DeltaKPKC.create ⟨fun _ _ => false, fun _ => false, fun _ => ⟨0, 0⟩, none⟩
      [1, 2]).flatten.Nodup :=
  ⟨by decide +kernel, (forEachNewKClique_exactly_once filteredTriangle DeltaKPKC.create .create _ [1, 2]).2.1⟩

end Tyr.Datalog.Kpkc
