import Tyr.Datalog.BodyCosts
import Tyr.Datalog.BottomUpInvariant

/-!
The costs along the iterations of a stratum.

`CostInvariant` is the invariant of a Dijkstra search by buckets: settled costs
are at most the current one, a head that is no fact waits in the bucket of its
annotation, and a body that held at the last processing of its rule has been
paid for. A body that newly holds has a body fact of the current cost, so its
head costs at least that much: no settled cost changes, and the merges lose no
head. Without annotations all heads wait in the first bucket.
-/

namespace Tyr.Datalog

open Tyr.Lib Tyr.Formalism Tyr.Formalism.Datalog

/-- A body that newly holds has a positive literal whose fact is new. -/
theorem exists_new_fact {data : ProgramData} {cws : ConstRuleWorkspace} {old new : List Tuple}
    {binding : List Nat} (extend : Extends cws.rule old new)
    (holds : BodyHolds data cws new binding) (before : ¬ BodyHolds data cws old binding) :
    ∃ fact ∈ witnessFacts cws.rule binding, fact ∈ new ∧ fact ∉ old := by
  by_contra none
  apply before
  obtain ⟨inDomains, literals, constraints⟩ := bodyHolds_iff.mp holds
  refine bodyHolds_iff.mpr ⟨inDomains, fun kind literal mem => ?_, constraints⟩
  have valid := literals kind literal mem
  cases kind with
  | static => exact valid
  | fluent =>
      rw [isValidBinding_fluent] at valid ⊢
      rw [← valid]
      refine ⟨extend.subset _, fun isNew => ?_⟩
      by_contra isOld
      exact none ⟨_, mem_witnessFacts.mpr ⟨literal, mem, valid.mp isNew, rfl⟩, isNew, isOld⟩

/-- The positive body facts of a body that holds are facts. -/
theorem BodyHolds.witnessFacts {data : ProgramData} {cws : ConstRuleWorkspace} {facts : List Tuple}
    {binding : List Nat} (holds : BodyHolds data cws facts binding) :
    ∀ fact ∈ witnessFacts cws.rule binding, fact ∈ facts := by
  intro fact mem
  obtain ⟨literal, memLiteral, positive, rfl⟩ := mem_witnessFacts.mp mem
  exact (isValidBinding_fluent.mp ((bodyHolds_iff.mp holds).2.1 .fluent literal memLiteral)).mpr positive

namespace StratumState

section

variable {stratum : Stratum} (data : ProgramData) (aggregation : Aggregation) (base : List Tuple)
  (entry : Tuple → Cost)

/-- The invariant of the costs; the facts `base` have had the costs `entry` before. -/
structure CostInvariant (st : StratumState stratum) : Prop where
  heads : ∀ fact ∈ base, ∀ cws ∈ stratum, fact.relation = cws.rule.head.predicate → entry fact = 0
  fresh : ∀ r, (st.rules r).seen = none → st.buckets.current = 0
  unchanged : ∀ fact ∈ base, st.annotations.orAnnot fact = entry fact
  settled : ∀ fact ∈ st.facts, fact ∉ base → st.annotations.orAnnot fact ≤ st.buckets.current
  finite : ∀ fact ∈ st.facts, st.annotations.orAnnot fact ≠ ⊤
  queued : ∀ fact ∉ st.facts, ∀ c : Nat, fact ∈ st.buckets.bucket c ↔ st.annotations.orAnnot fact = c
  later : ∀ fact ∉ st.facts, (st.buckets.current : Cost) ≤ st.annotations.orAnnot fact
  paid : ∀ r, ∀ s ∈ (st.rules r).seen, ∀ binding, BodyHolds data (stratum.get r) s binding →
    st.annotations.orAnnot (groundHead (stratum.get r).rule binding) ≤
      groundCost aggregation st.annotations.orAnnot (stratum.get r).rule binding
  recent : ∀ r, ∀ s ∈ (st.rules r).seen, ∀ binding,
    ∀ fact ∈ witnessFacts (stratum.get r).rule binding, fact ∈ st.facts → fact ∉ s →
      st.annotations.orAnnot fact = st.buckets.current

/-- What the costs must be when a stratum is entered. -/
structure EntryCosts (stratum : Stratum) (solve : SolveState) : Prop where
  finite : ∀ fact ∈ solve.facts, solve.annotations.orAnnot fact ≠ ⊤
  others : ∀ fact ∉ solve.facts, solve.annotations.orAnnot fact = ⊤
  heads : ∀ fact ∈ solve.facts, ∀ cws ∈ stratum, fact.relation = cws.rule.head.predicate →
    solve.annotations.orAnnot fact = 0

end

section

variable {data : ProgramData} {aggregation : Aggregation} {enumeration : CliqueEnumeration data}
  {stratum : Stratum} {st : StratumState stratum} {base : List Tuple} {entry : Tuple → Cost}
  {schedule : Schedule stratum}

theorem costInvariant_enter {solve : SolveState} (costs : EntryCosts stratum solve) :
    CostInvariant data aggregation solve.facts solve.annotations.orAnnot (solve.enter stratum) where
  heads := costs.heads
  fresh := fun _ _ => rfl
  unchanged := fun _ _ => rfl
  settled := fun _ mem notMem => absurd mem notMem
  finite := costs.finite
  queued := by
    intro fact notMem c
    change fact ∈ solve.buckets.clear.bucket c ↔ solve.annotations.orAnnot fact = c
    rw [CostBuckets.bucket_clear, costs.others fact notMem]
    exact iff_of_false (Finset.notMem_empty _) WithTop.top_ne_coe
  later := fun _ _ => zero_le
  paid := nofun
  recent := nofun

/-! ### The price of what is new -/

/-- A ground rule that beats the annotation of its head has just become
applicable: its body costs at least the current cost, and its head is no fact. -/
theorem CostInvariant.beats (facts : st.FactInvariant data enumeration base)
    (inv : CostInvariant data aggregation base entry st)
    {r : Fin stratum.length} {binding : List Nat}
    (holds : BodyHolds data (stratum.get r) st.facts binding)
    (better : groundCost aggregation st.annotations.orAnnot (stratum.get r).rule binding <
      st.annotations.orAnnot (groundHead (stratum.get r).rule binding)) :
    (st.buckets.current : Cost) ≤
        bodyCost aggregation st.annotations.orAnnot (stratum.get r).rule binding ∧
      groundHead (stratum.get r).rule binding ∉ st.facts := by
  have body : (st.buckets.current : Cost) ≤
      bodyCost aggregation st.annotations.orAnnot (stratum.get r).rule binding := by
    cases hSeen : (st.rules r).seen with
    | none =>
        rw [inv.fresh r hSeen]
        exact zero_le
    | some s =>
        have unpaid : ¬ BodyHolds data (stratum.get r) s binding :=
          fun before => not_le.mpr better (inv.paid r s hSeen binding before)
        have extend := ((facts.rules r).enumerated s hSeen).extend
        obtain ⟨fact, mem, isFact, isNew⟩ := exists_new_fact extend holds unpaid
        rw [← inv.recent r s hSeen binding fact mem isFact isNew]
        exact le_bodyCost mem
  refine ⟨body, fun isFact => ?_⟩
  by_cases old : groundHead (stratum.get r).rule binding ∈ base
  · have free := inv.heads _ old _ (List.get_mem stratum r) rfl
    rw [inv.unchanged _ old, free] at better
    exact not_lt_zero better
  · have settled := inv.settled _ isFact old
    exact absurd (settled.trans (body.trans bodyCost_le_groundCost)) (not_le.mpr better)

/-- The witnesses of a worker are announced ground rules of the right price. -/
theorem witnessOf_workerWitnesses (r : Fin stratum.length) (worker : Nat) :
    WitnessOf aggregation st.annotations.orAnnot (stratum.get r).rule
      ((((st.output data schedule r).announced.filter fun a => a.worker == worker).map
        Announcement.binding))
      (st.workerWitnesses data (.annotate aggregation) schedule r worker) :=
  foldl_invariant (P := WitnessOf aggregation st.annotations.orAnnot (stratum.get r).rule _)
    (fun _ sound _ mem => witnessOf_updateAndAnnot mem sound) nofun

/-- An announced ground rule is no cheaper than the annotation or the witness of its worker,
if its body costs at least the current cost or it does not beat the annotation. -/
theorem bestCost_le_of_recent {r : Fin stratum.length} {a : Announcement}
    (mem : a ∈ (st.output data schedule r).announced)
    (recent : groundCost aggregation st.annotations.orAnnot (stratum.get r).rule a.binding <
        st.annotations.orAnnot (groundHead (stratum.get r).rule a.binding) →
      (st.buckets.current : Cost) ≤
        bodyCost aggregation st.annotations.orAnnot (stratum.get r).rule a.binding) :
    bestCost st.annotations.orAnnot
        (st.workerWitnesses data (.annotate aggregation) schedule r a.worker)
        (groundHead (stratum.get r).rule a.binding) ≤
      groundCost aggregation st.annotations.orAnnot (stratum.get r).rule a.binding := by
  have listed : a.binding ∈ ((st.output data schedule r).announced.filter fun b =>
      b.worker == a.worker).map Announcement.binding :=
    List.mem_map_of_mem (List.mem_filter.mpr ⟨mem, beq_self_eq_true _⟩)
  have keeps : ∀ (witnesses : Tuple → Option Witness) (binding : List Nat),
      bestCost st.annotations.orAnnot (updateAndAnnot aggregation st.buckets.current
          (stratum.get r).rule st.annotations.orAnnot witnesses binding)
          (groundHead (stratum.get r).rule a.binding) ≤
        bestCost st.annotations.orAnnot witnesses (groundHead (stratum.get r).rule a.binding) :=
    fun witnesses binding => updateAndAnnot_le_best witnesses _
  have establishes : ∀ witnesses : Tuple → Option Witness,
      bestCost st.annotations.orAnnot (updateAndAnnot aggregation st.buckets.current
          (stratum.get r).rule st.annotations.orAnnot witnesses a.binding)
          (groundHead (stratum.get r).rule a.binding) ≤
        groundCost aggregation st.annotations.orAnnot (stratum.get r).rule a.binding :=
    fun witnesses => updateAndAnnot_le witnesses recent
  unfold workerWitnesses
  dsimp only
  apply foldl_establishes (P := fun _ => True)
    (fun witnesses => bestCost st.annotations.orAnnot witnesses
        (groundHead (stratum.get r).rule a.binding) ≤
      groundCost aggregation st.annotations.orAnnot (stratum.get r).rule a.binding)
    (fun _ _ _ _ => trivial) _ listed
  · exact fun witnesses _ => establishes witnesses
  · trivial
  · exact fun witnesses _ binding _ le => (keeps witnesses binding).trans le

theorem CostInvariant.bestCost_le (facts : st.FactInvariant data enumeration base)
    (inv : CostInvariant data aggregation base entry st)
    {r : Fin stratum.length} {a : Announcement} (mem : a ∈ (st.output data schedule r).announced)
    (holds : BodyHolds data (stratum.get r) st.facts a.binding) :
    bestCost st.annotations.orAnnot
        (st.workerWitnesses data (.annotate aggregation) schedule r a.worker)
        (groundHead (stratum.get r).rule a.binding) ≤
      groundCost aggregation st.annotations.orAnnot (stratum.get r).rule a.binding :=
  bestCost_le_of_recent mem fun better => (inv.beats facts holds better).1

/-! ### The merges -/

/-- The annotation of the fact is new and comes from a ground rule that holds now. -/
def Explained (data : ProgramData) (aggregation : Aggregation) (st : StratumState stratum)
    (annotations : Annotations) (fact : Tuple) : Prop :=
  ∃ r witness, annotations.andAnnot fact = some witness ∧ witness.rule = (stratum.get r).rule ∧
    BodyHolds data (stratum.get r) st.facts witness.binding ∧
    groundHead (stratum.get r).rule witness.binding = fact ∧
    witness.cost =
      groundCost aggregation st.annotations.orAnnot (stratum.get r).rule witness.binding ∧
    annotations.orAnnot fact = witness.cost

/-- Between two merges of an iteration the facts keep their costs, and what is no fact waits
in the bucket of its annotation. -/
structure MergedBuckets (st : StratumState stratum) (merged : CostBuckets Tuple × Annotations) :
    Prop where
  settled : ∀ fact ∈ st.facts, merged.2.orAnnot fact = st.annotations.orAnnot fact
  queued : ∀ fact ∉ st.facts, ∀ c : Nat, fact ∈ merged.1.bucket c ↔ merged.2.orAnnot fact = c
  later : ∀ fact ∉ st.facts, (st.buckets.current : Cost) ≤ merged.2.orAnnot fact
  improves : ∀ fact, merged.2.orAnnot fact ≤ st.annotations.orAnnot fact

/-- Before the merges the current bucket is cleared, which holds facts only. -/
theorem mergedBuckets_start (current : ∀ fact ∈ st.buckets.currentBucket, fact ∈ st.facts)
    (queued : ∀ fact ∉ st.facts, ∀ c : Nat,
      fact ∈ st.buckets.bucket c ↔ st.annotations.orAnnot fact = c)
    (later : ∀ fact ∉ st.facts, (st.buckets.current : Cost) ≤ st.annotations.orAnnot fact) :
    MergedBuckets st (st.buckets.clearCurrent, st.annotations) where
  settled := fun _ _ => rfl
  queued := by
    intro fact notMem c
    rw [← queued fact notMem c, CostBuckets.mem_clearCurrent]
    refine and_iff_left_of_imp fun waits isCurrent => ?_
    subst isCurrent
    exact notMem (current fact waits)
  later := later
  improves := fun _ => le_rfl

/-- What is no fact costs at least the next current cost: the advance skips empty buckets. -/
theorem MergedBuckets.current_next_le
    (buckets : MergedBuckets st (st.merged data (.annotate aggregation) schedule)) {fact : Tuple}
    (notFact : fact ∉ st.facts) :
    ((st.next data (.annotate aggregation) schedule).buckets.current : Cost) ≤
      (st.next data (.annotate aggregation) schedule).annotations.orAnnot fact := by
  by_contra early
  have below := not_le.mp early
  obtain ⟨c, annotated⟩ : ∃ c : Nat,
      (c : Cost) = (st.merged data (.annotate aggregation) schedule).2.orAnnot fact :=
    WithTop.ne_top_iff_exists.mp (ne_top_of_lt below)
  change (st.merged data (.annotate aggregation) schedule).2.orAnnot fact < _ at below
  have waits := (buckets.queued fact notFact c).mpr annotated.symm
  have late := buckets.later fact notFact
  obtain ⟨_, _, skipped, _⟩ := (st.merged data (.annotate aggregation)
    schedule).1.advanceToNextNonempty_spec
  rw [← annotated] at late below
  have empty := skipped c (by rw [merged_current]; exact WithTop.coe_le_coe.mp late)
    (WithTop.coe_lt_coe.mp below)
  rw [empty] at waits
  exact Finset.notMem_empty fact waits

/-- When the loop returns, only facts have a cost. -/
theorem MergedBuckets.orAnnot_returns
    (buckets : MergedBuckets st (st.merged data (.annotate aggregation) schedule))
    (done : (st.merged data (.annotate aggregation) schedule).1.advanceToNextNonempty.1 = false)
    {fact : Tuple} (notFact : fact ∉ st.facts) :
    (st.merged data (.annotate aggregation) schedule).2.orAnnot fact = ⊤ := by
  obtain ⟨_, _, _, _, empty⟩ := (st.merged data (.annotate aggregation)
    schedule).1.advanceToNextNonempty_spec
  by_contra finite
  obtain ⟨c, annotated⟩ := WithTop.ne_top_iff_exists.mp finite
  have waits := (buckets.queued fact notFact c).mpr annotated.symm
  have late := buckets.later fact notFact
  rw [← annotated] at late
  rw [empty done c (by rw [merged_current]; exact WithTop.coe_le_coe.mp late)] at waits
  exact Finset.notMem_empty fact waits

/-- A merge keeps this, if the witness of its head costs at least the current cost and the
head is no fact. -/
theorem MergedBuckets.mergeHead {merged : CostBuckets Tuple × Annotations}
    (buckets : MergedBuckets st merged) {merge : Fin stratum.length × Nat × Tuple}
    (spec : ∀ witness, st.workerWitnesses data (.annotate aggregation) schedule merge.1 merge.2.1
      merge.2.2 = some witness → merge.2.2 ∉ st.facts ∧ (st.buckets.current : Cost) ≤ witness.cost) :
    MergedBuckets st (st.mergeHead data (.annotate aggregation) schedule merged merge) := by
  obtain ⟨r, worker, head⟩ := merge
  rcases updateOrAnnot_cases merged.2 head
      (st.workerWitnesses data (.annotate aggregation) schedule r worker head) with
    ⟨same, _⟩ | ⟨witness, found, better, updated⟩
  · have result : st.mergeHead data (.annotate aggregation) schedule merged (r, worker, head) =
        (merged.1.update ⟨merged.2.orAnnot head, merged.2.orAnnot head⟩ head, merged.2) := by
      simp only [StratumState.mergeHead, same]
    rw [result]
    refine ⟨buckets.settled, fun fact notFact c => ?_, buckets.later, buckets.improves⟩
    by_cases isHead : fact = head
    · subst isHead
      exact CostBuckets.mem_update_self (buckets.queued fact notFact) c
    · rw [CostBuckets.mem_update_of_ne isHead]
      exact buckets.queued fact notFact c
  · obtain ⟨notFact, late⟩ := spec witness found
    have result : st.mergeHead data (.annotate aggregation) schedule merged (r, worker, head) =
        (merged.1.update ⟨merged.2.orAnnot head, witness.cost⟩ head,
          { orAnnot := Function.update merged.2.orAnnot head witness.cost
            andAnnot := Function.update merged.2.andAnnot head (some witness) }) := by
      simp only [StratumState.mergeHead, updated]
    rw [result]
    constructor <;> dsimp only
    · intro fact isFact
      have other : fact ≠ head := fun same => notFact (same ▸ isFact)
      rw [Function.update_of_ne other]
      exact buckets.settled fact isFact
    · intro fact notMem c
      by_cases isHead : fact = head
      · subst isHead
        rw [Function.update_self]
        exact CostBuckets.mem_update_self (buckets.queued fact notMem) c
      · rw [Function.update_of_ne isHead, CostBuckets.mem_update_of_ne isHead]
        exact buckets.queued fact notMem c
    · intro fact notMem
      by_cases isHead : fact = head
      · subst isHead
        rwa [Function.update_self]
      · rw [Function.update_of_ne isHead]
        exact buckets.later fact notMem
    · intro fact
      by_cases isHead : fact = head
      · subst isHead
        rw [Function.update_self]
        exact better.le.trans (buckets.improves fact)
      · rw [Function.update_of_ne isHead]
        exact buckets.improves fact

/-- The buckets and the annotations between two merges of an iteration. -/
structure MergedCosts (data : ProgramData) (aggregation : Aggregation) (st : StratumState stratum)
    (merged : CostBuckets Tuple × Annotations) : Prop where
  settled : ∀ fact ∈ st.facts, merged.2.orAnnot fact = st.annotations.orAnnot fact
  queued : ∀ fact ∉ st.facts, ∀ c : Nat, fact ∈ merged.1.bucket c ↔ merged.2.orAnnot fact = c
  later : ∀ fact ∉ st.facts, (st.buckets.current : Cost) ≤ merged.2.orAnnot fact
  improves : ∀ fact, merged.2.orAnnot fact ≤ st.annotations.orAnnot fact
  explained : ∀ fact, (merged.2.orAnnot fact = st.annotations.orAnnot fact ∧
      merged.2.andAnnot fact = st.annotations.andAnnot fact) ∨
    Explained data aggregation st merged.2 fact

theorem CostInvariant.mergedCosts_start (facts : st.FactInvariant data enumeration base)
    (inv : CostInvariant data aggregation base entry st) :
    MergedCosts data aggregation st (st.buckets.clearCurrent, st.annotations) where
  settled := fun _ _ => rfl
  queued := (mergedBuckets_start facts.current inv.queued inv.later).queued
  later := inv.later
  improves := fun _ => le_rfl
  explained := fun _ => .inl ⟨rfl, rfl⟩

/-- A worker's witness of a head costs at least the current cost, and its head is no fact. -/
theorem CostInvariant.witness_spec (facts : st.FactInvariant data enumeration base)
    (inv : CostInvariant data aggregation base entry st)
    (valid : st.ValidSchedule data (.annotate aggregation) enumeration schedule)
    {r : Fin stratum.length} (active : r ∈ st.active) {worker : Nat} {fact : Tuple}
    {witness : Witness}
    (found : st.workerWitnesses data (.annotate aggregation) schedule r worker fact = some witness) :
    fact ∉ st.facts ∧ (st.buckets.current : Cost) ≤ witness.cost ∧
      witness.rule = (stratum.get r).rule ∧
      BodyHolds data (stratum.get r) st.facts witness.binding ∧
      groundHead (stratum.get r).rule witness.binding = fact ∧
      witness.cost =
        groundCost aggregation st.annotations.orAnnot (stratum.get r).rule witness.binding := by
  obtain ⟨sameRule, listed, sameHead, price, better⟩ :=
    witnessOf_workerWitnesses r worker fact witness found
  obtain ⟨a, mem, sameBinding⟩ := List.mem_map.mp listed
  have holds := (facts.output valid active).1 a (List.mem_filter.mp mem).1
  rw [sameBinding] at holds
  rw [price, ← sameHead] at better
  obtain ⟨body, notFact⟩ := inv.beats facts holds better
  rw [sameHead] at notFact
  refine ⟨notFact, ?_, sameRule, holds, sameHead, price⟩
  rw [price]
  exact body.trans bodyCost_le_groundCost

theorem MergedCosts.buckets {merged : CostBuckets Tuple × Annotations}
    (costs : MergedCosts data aggregation st merged) : MergedBuckets st merged :=
  ⟨costs.settled, costs.queued, costs.later, costs.improves⟩

/-- A merge keeps the invariant. -/
theorem MergedCosts.mergeHead (facts : st.FactInvariant data enumeration base)
    (inv : CostInvariant data aggregation base entry st)
    (valid : st.ValidSchedule data (.annotate aggregation) enumeration schedule)
    {merged : CostBuckets Tuple × Annotations} (costs : MergedCosts data aggregation st merged)
    {merge : Fin stratum.length × Nat × Tuple} (mem : merge ∈ schedule.merges) :
    MergedCosts data aggregation st
      (st.mergeHead data (.annotate aggregation) schedule merged merge) := by
  obtain ⟨r, worker, head⟩ := merge
  have active : r ∈ st.active := ((valid.merges _).mp mem).1
  have buckets : MergedBuckets st
      (st.mergeHead data (.annotate aggregation) schedule merged (r, worker, head)) := by
    apply costs.buckets.mergeHead
    intro witness found
    obtain ⟨notFact, late, _⟩ := inv.witness_spec facts valid active found
    exact ⟨notFact, late⟩
  refine ⟨buckets.settled, buckets.queued, buckets.later, buckets.improves, fun fact => ?_⟩
  rcases updateOrAnnot_cases merged.2 head
      (st.workerWitnesses data (.annotate aggregation) schedule r worker head) with
    ⟨same, _⟩ | ⟨witness, found, _, updated⟩
  · have unchanged : (st.mergeHead data (.annotate aggregation) schedule merged
        (r, worker, head)).2 = merged.2 := by
      simp only [StratumState.mergeHead, same]
    rw [unchanged]
    exact costs.explained fact
  · obtain ⟨_, _, sameRule, holds, sameHead, price⟩ := inv.witness_spec facts valid active found
    have result : (st.mergeHead data (.annotate aggregation) schedule merged (r, worker, head)).2 =
        { orAnnot := Function.update merged.2.orAnnot head witness.cost
          andAnnot := Function.update merged.2.andAnnot head (some witness) } := by
      simp only [StratumState.mergeHead, updated]
    rw [result]
    dsimp only
    by_cases isHead : fact = head
    · subst isHead
      refine .inr ⟨r, witness, Function.update_self _ _ _, sameRule, holds, sameHead, price, ?_⟩
      exact Function.update_self _ _ _
    · rcases costs.explained fact with ⟨sameOr, sameAnd⟩ | ⟨r', witness', found', explained⟩
      · rw [Function.update_of_ne isHead, Function.update_of_ne isHead]
        exact .inl ⟨sameOr, sameAnd⟩
      · obtain ⟨sameRule', holds', sameHead', price', annotated⟩ := explained
        refine .inr ⟨r', witness', ?_, sameRule', holds', sameHead', price', ?_⟩
        · exact (Function.update_of_ne isHead _ _).trans found'
        · exact (Function.update_of_ne isHead _ _).trans annotated

theorem CostInvariant.mergedCosts (facts : st.FactInvariant data enumeration base)
    (inv : CostInvariant data aggregation base entry st)
    (valid : st.ValidSchedule data (.annotate aggregation) enumeration schedule) :
    MergedCosts data aggregation st (st.merged data (.annotate aggregation) schedule) :=
  foldl_invariant (fun _ costs _ mem => costs.mergeHead facts inv valid mem)
    (inv.mergedCosts_start facts)

/-- A merge lowers the annotation of its head to the cost of the witness. -/
theorem mergeHead_le (merged : CostBuckets Tuple × Annotations)
    (merge : Fin stratum.length × Nat × Tuple) (fact : Tuple) :
    (st.mergeHead data (.annotate aggregation) schedule merged merge).2.orAnnot fact ≤
        merged.2.orAnnot fact ∧
      (st.mergeHead data (.annotate aggregation) schedule merged merge).2.orAnnot merge.2.2 ≤
        witnessCost (st.workerWitnesses data (.annotate aggregation) schedule merge.1 merge.2.1
          merge.2.2) := by
  have spec := (updateOrAnnot_spec merged.2 merge.2.2
    (st.workerWitnesses data (.annotate aggregation) schedule merge.1 merge.2.1 merge.2.2)).2
  simp only [StratumState.mergeHead, spec]
  constructor
  · by_cases isHead : fact = merge.2.2
    · rw [isHead, Function.update_self]
      exact min_le_left _ _
    · rw [Function.update_of_ne isHead]
  · rw [Function.update_self]
    exact min_le_right _ _

/-- After the merges the annotation of a merged head is at most its annotation before and the
cost of the witness. -/
theorem merged_le_bestCost {merge : Fin stratum.length × Nat × Tuple}
    (listed : merge ∈ schedule.merges)
    (improves : (st.merged data (.annotate aggregation) schedule).2.orAnnot merge.2.2 ≤
      st.annotations.orAnnot merge.2.2) :
    (st.merged data (.annotate aggregation) schedule).2.orAnnot merge.2.2 ≤
      bestCost st.annotations.orAnnot
        (st.workerWitnesses data (.annotate aggregation) schedule merge.1 merge.2.1) merge.2.2 := by
  refine le_min improves ?_
  unfold merged
  exact foldl_establishes (P := fun _ => True)
    (fun merged : CostBuckets Tuple × Annotations => merged.2.orAnnot merge.2.2 ≤
      witnessCost (st.workerWitnesses data (.annotate aggregation) schedule merge.1 merge.2.1
        merge.2.2))
    (fun _ _ _ _ => trivial)
    (fun merged _ other _ le => (mergeHead_le merged other merge.2.2).1.trans le) listed
    (fun merged _ => (mergeHead_le merged merge merge.2.2).2) trivial

/-- After the merges, an announced ground rule is no cheaper than the annotation of its head. -/
theorem CostInvariant.merged_le (facts : st.FactInvariant data enumeration base)
    (inv : CostInvariant data aggregation base entry st)
    (valid : st.ValidSchedule data (.annotate aggregation) enumeration schedule)
    {r : Fin stratum.length} (active : r ∈ st.active) {a : Announcement}
    (mem : a ∈ (st.output data schedule r).announced) :
    (st.merged data (.annotate aggregation) schedule).2.orAnnot
        (groundHead (stratum.get r).rule a.binding) ≤
      groundCost aggregation st.annotations.orAnnot (stratum.get r).rule a.binding := by
  have listed : (r, a.worker, groundHead (stratum.get r).rule a.binding) ∈ schedule.merges :=
    (valid.merges _).mpr ⟨active, a, mem, rfl, rfl⟩
  have improves := (inv.mergedCosts facts valid).improves (groundHead (stratum.get r).rule a.binding)
  have holds := (facts.output valid active).1 a mem
  exact (merged_le_bestCost listed improves).trans (inv.bestCost_le facts mem holds)

/-- With annotations the merges lose no head. -/
theorem CostInvariant.keepsHeads (facts : st.FactInvariant data enumeration base)
    (inv : CostInvariant data aggregation base entry st)
    (valid : st.ValidSchedule data (.annotate aggregation) enumeration schedule) :
    st.KeepsHeads data (.annotate aggregation) schedule := by
  have costs := inv.mergedCosts facts valid
  intro fact reached
  by_cases isFact : fact ∈ st.facts
  · exact .inl isFact
  · refine .inr ?_
    have finite : (st.merged data (.annotate aggregation) schedule).2.orAnnot fact ≠ ⊤ := by
      rcases reached with (isFact' | ⟨c, _, waits⟩) | ⟨merge, mem, rfl⟩
      · exact absurd isFact' isFact
      · have annotated := (inv.queued fact isFact c).mp waits
        have le := costs.improves fact
        rw [annotated] at le
        exact ne_top_of_le_ne_top WithTop.coe_ne_top le
      · obtain ⟨active, a, memAnnounced, _, same⟩ := (valid.merges merge).mp mem
        have holds := (facts.output valid active).1 a memAnnounced
        have le := inv.merged_le facts valid active memAnnounced
        rw [same] at le
        refine ne_top_of_le_ne_top (groundCost_ne_top fun body memBody => ?_) le
        exact inv.finite body (holds.witnessFacts body memBody)
    obtain ⟨c, annotated⟩ := WithTop.ne_top_iff_exists.mp finite
    have late := costs.later fact isFact
    rw [← annotated] at late
    exact ⟨c, WithTop.coe_le_coe.mp late, (costs.queued fact isFact c).mpr annotated.symm⟩

/-! ### One iteration -/

section

variable (facts : st.FactInvariant data enumeration base)
  (inv : CostInvariant data aggregation base entry st)
  (valid : st.ValidSchedule data (.annotate aggregation) enumeration schedule)

include facts inv valid

/-- The facts that an iteration inserts have the next current cost. -/
theorem CostInvariant.annot_inserted {fact : Tuple}
    (isFact : fact ∈ (st.next data (.annotate aggregation) schedule).facts)
    (isNew : fact ∉ st.facts) :
    (st.next data (.annotate aggregation) schedule).annotations.orAnnot fact =
      (st.next data (.annotate aggregation) schedule).buckets.current := by
  rcases (mem_facts_next valid).mp isFact with old | waits
  · exact absurd old isNew
  · exact ((inv.mergedCosts facts valid).queued fact isNew _).mp waits

theorem CostInvariant.annot_old {fact : Tuple} (isFact : fact ∈ st.facts) :
    (st.next data (.annotate aggregation) schedule).annotations.orAnnot fact =
      st.annotations.orAnnot fact :=
  (inv.mergedCosts facts valid).settled fact isFact

theorem CostInvariant.groundCost_next {rule : Rule} {binding : List Nat}
    (body : ∀ fact ∈ witnessFacts rule binding, fact ∈ st.facts) :
    groundCost aggregation (st.next data (.annotate aggregation) schedule).annotations.orAnnot
        rule binding =
      groundCost aggregation st.annotations.orAnnot rule binding :=
  groundCost_congr fun fact mem => inv.annot_old facts valid (body fact mem)

/-- After an iteration, the bodies that hold in its facts are paid for. -/
theorem CostInvariant.paid_processed {r : Fin stratum.length} (active : r ∈ st.active)
    {binding : List Nat} (holds : BodyHolds data (stratum.get r) st.facts binding) :
    (st.next data (.annotate aggregation) schedule).annotations.orAnnot
        (groundHead (stratum.get r).rule binding) ≤
      groundCost aggregation st.annotations.orAnnot (stratum.get r).rule binding := by
  have improves := (inv.mergedCosts facts valid).improves (groundHead (stratum.get r).rule binding)
  rcases (facts.output valid active).2.1 binding holds with isFact | ⟨s, mem, before⟩ | ⟨a, mem, rfl⟩
  · apply improves.trans
    by_contra beats
    exact (inv.beats facts holds (not_le.mp beats)).2 isFact
  · exact improves.trans (inv.paid r s mem binding before)
  · exact inv.merged_le facts valid active mem

/-- An iteration keeps the invariant. -/
theorem CostInvariant.next : CostInvariant data aggregation base entry
    (st.next data (.annotate aggregation) schedule) := by
  have costs := inv.mergedCosts facts valid
  have advances : st.buckets.current ≤ (st.next data (.annotate aggregation) schedule).buckets.current :=
    current_le_next
  have grows : ∀ fact ∈ st.facts, fact ∈ (st.next data (.annotate aggregation) schedule).facts :=
    fun fact mem => mem_insertHeads.mpr (.inl mem)
  have processed : ∀ {r}, r ∈ st.active →
      ∀ s ∈ ((st.next data (.annotate aggregation) schedule).rules r).seen, s = st.facts := by
    intro r active s mem
    change s ∈ (st.rulesAfter data schedule r).seen at mem
    rw [rulesAfter, if_pos active] at mem
    exact (Option.mem_some.mp mem).symm
  have idle : ∀ {r}, r ∉ st.active →
      (st.next data (.annotate aggregation) schedule).rules r = st.rules r :=
    fun inactive => if_neg inactive
  constructor
  · exact inv.heads
  · intro r fresh
    by_cases active : r ∈ st.active
    · change (st.rulesAfter data schedule r).seen = none at fresh
      rw [rulesAfter, if_pos active] at fresh
      cases fresh
    · rw [idle active] at fresh
      exact absurd ((facts.rules r).fresh fresh).2 active
  · intro fact mem
    rw [inv.annot_old facts valid (facts.contains fact mem)]
    exact inv.unchanged fact mem
  · intro fact isFact notBase
    by_cases old : fact ∈ st.facts
    · rw [inv.annot_old facts valid old]
      exact (inv.settled fact old notBase).trans (WithTop.coe_le_coe.mpr advances)
    · exact (inv.annot_inserted facts valid isFact old).le
  · intro fact isFact
    by_cases old : fact ∈ st.facts
    · rw [inv.annot_old facts valid old]
      exact inv.finite fact old
    · rw [inv.annot_inserted facts valid isFact old]
      exact WithTop.coe_ne_top
  · intro fact notFact c
    rw [bucket_next]
    exact costs.queued fact (fun old => notFact (grows fact old)) c
  · intro fact notFact
    exact costs.buckets.current_next_le fun old => notFact (grows fact old)
  · intro r s mem binding holds
    by_cases active : r ∈ st.active
    · rw [processed active s mem] at holds
      rw [inv.groundCost_next facts valid holds.witnessFacts]
      exact inv.paid_processed facts valid active holds
    · rw [idle active] at mem
      have sub := ((facts.rules r).enumerated s mem).extend.subset
      rw [inv.groundCost_next facts valid fun fact memFact =>
        sub fact (holds.witnessFacts fact memFact)]
      exact (costs.improves _).trans (inv.paid r s mem binding holds)
  · intro r s mem binding fact memFact isFact notSeen
    apply inv.annot_inserted facts valid isFact
    by_cases active : r ∈ st.active
    · rwa [processed active s mem] at notSeen
    · rw [idle active] at mem
      obtain ⟨literal, memLiteral, _, rfl⟩ := mem_witnessFacts.mp memFact
      rwa [(facts.rules r).idle active s mem literal memLiteral binding] at notSeen

/-- When the loop returns, exactly the facts have a cost. -/
theorem CostInvariant.orAnnot_returns
    (done : (st.merged data (.annotate aggregation) schedule).1.advanceToNextNonempty.1 = false)
    {fact : Tuple} (notFact : fact ∉ st.facts) :
    (st.merged data (.annotate aggregation) schedule).2.orAnnot fact = ⊤ :=
  (inv.mergedCosts facts valid).buckets.orAnnot_returns done notFact

end

/-! ### Without annotations -/

/-- Without annotations all heads wait in the first bucket. -/
structure PlainBuckets (st : StratumState stratum) : Prop where
  current : st.buckets.current = 0
  rest : ∀ c, c ≠ 0 → st.buckets.bucket c = ∅

theorem plainBuckets_enter (solve : SolveState) : PlainBuckets (solve.enter stratum) where
  current := rfl
  rest := fun c _ => solve.buckets.bucket_clear c

theorem PlainBuckets.rest_merged (plain : PlainBuckets st) {c : Nat} (later : c ≠ 0) :
    (st.merged data .none schedule).1.bucket c = ∅ := by
  unfold StratumState.merged
  apply foldl_invariant (P := fun merged : CostBuckets Tuple × Annotations => merged.1.bucket c = ∅)
  · intro merged empty merge _
    apply Finset.eq_empty_of_forall_notMem
    intro fact mem
    rcases CostBuckets.mem_update.mp mem with old | new
    · rw [empty] at old
      exact Finset.notMem_empty fact old.1
    · exact later (WithTop.coe_inj.mp new.1).symm
  · apply Finset.eq_empty_of_forall_notMem
    intro fact mem
    have old := (CostBuckets.mem_clearCurrent.mp mem).1
    rw [plain.rest c later] at old
    exact Finset.notMem_empty fact old

theorem PlainBuckets.mem_merged {fact : Tuple} (merged : MergedHead schedule fact) :
    fact ∈ (st.merged data .none schedule).1.bucket 0 := by
  obtain ⟨merge, mem, rfl⟩ := merged
  unfold StratumState.merged
  exact foldl_establishes (P := fun _ => True)
    (fun merged : CostBuckets Tuple × Annotations => merge.2.2 ∈ merged.1.bucket 0)
    (fun _ _ _ _ => trivial)
    (fun merged _ other _ waits =>
      CostBuckets.mem_update.mpr (.inl ⟨waits, fun moved => WithTop.top_ne_coe moved.1⟩)) mem
    (fun merged _ => CostBuckets.mem_update.mpr (.inr ⟨rfl, rfl⟩)) trivial

/-- Without annotations the merges lose no head. -/
theorem PlainBuckets.keepsHeads (facts : st.FactInvariant data enumeration base)
    (plain : PlainBuckets st) : st.KeepsHeads data .none schedule := by
  intro fact reached
  rcases reached with (isFact | ⟨c, _, waits⟩) | merged
  · exact .inl isFact
  · left
    by_cases first : c = 0
    · rw [first, ← plain.current] at waits
      exact facts.current fact waits
    · rw [plain.rest c first] at waits
      exact absurd waits (Finset.notMem_empty fact)
  · exact .inr ⟨0, plain.current.le, PlainBuckets.mem_merged merged⟩

theorem PlainBuckets.next (plain : PlainBuckets st)
    (advances : (st.merged data .none schedule).1.advanceToNextNonempty.1 = true) :
    PlainBuckets (st.next data .none schedule) := by
  constructor
  · obtain ⟨_, _, _, nonempty, _⟩ := (st.merged data .none schedule).1.advanceToNextNonempty_spec
    by_contra moved
    exact nonempty advances (plain.rest_merged moved)
  · intro c later
    rw [bucket_next]
    exact plain.rest_merged later

end

end StratumState

end Tyr.Datalog
