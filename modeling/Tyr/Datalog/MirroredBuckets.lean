import Tyr.Datalog.CostRange
import Tyr.Datalog.PendingBindings

/-!
Buckets that mirror the annotations.

No exact matching is needed: what a rule announces for the first time has a body fact that
is new to the rule, and a new fact costs at least the current cost. So a head that is no
fact waits in the bucket of its annotation, from the current one on.

* `Mirrors` — the invariant at the head of the loop.
* `Mirrors.beats` — the price of what is announced.
* `Mirrors.next` — what an iteration keeps.
* `AtHead.buckets_mirror` — what holds before each advance of an evaluation.
-/

namespace Tyr.Datalog

open Tyr.Lib Tyr.Formalism Tyr.Formalism.Datalog

/-- The fact is a ground head of a rule of the stratum. -/
def Stratum.Derives (stratum : Stratum) (fact : Tuple) : Prop :=
  ∃ cws ∈ stratum, ∃ binding, groundHead cws.rule binding = fact

/-- The rule has no parameters, and its body holds. -/
structure HoldsOutright (data : ProgramData) (cws : ConstRuleWorkspace) (facts : List Tuple) :
    Prop where
  noParameters : cws.rule.arity = 0
  nullary : (data.factSets facts).isValidCondition [] cws.rule.body.nullary = true
  body : BodyHolds data cws facts []

section

variable {data : ProgramData} {cws : ConstRuleWorkspace} {old new : List Tuple}

/-- A body that holds held on fewer facts, if its positive facts were there. -/
theorem HoldsOutright.of_earlier (now : HoldsOutright data cws new) (sub : ∀ fact ∈ old, fact ∈ new)
    (was : ∀ fact ∈ witnessFacts cws.rule [], fact ∈ old) : HoldsOutright data cws old := by
  have earlier {literal : Literal} (mem : literal ∈ cws.rule.body.fluentLiterals)
      (valid : (data.factSets new).isValidBinding [] .fluent literal = true) :
      (data.factSets old).isValidBinding [] .fluent literal = true :=
    isValidBinding_of_earlier sub valid fun positive =>
      was _ (mem_witnessFacts.mpr ⟨literal, mem, positive, rfl⟩)
  refine ⟨now.noParameters, ?_, ?_⟩
  · obtain ⟨literals, constraints⟩ := FactSets.isValidCondition_iff.mp now.nullary
    refine FactSets.isValidCondition_iff.mpr ⟨fun kind literal mem => ?_, constraints⟩
    cases kind with
    | static => exact literals .static literal mem
    | fluent =>
        exact earlier (ConjunctiveCondition.mem_nullary.mp mem).1 (literals .fluent literal mem)
  · obtain ⟨inDomains, literals, constraints⟩ := bodyHolds_iff.mp now.body
    refine bodyHolds_iff.mpr ⟨inDomains, fun kind literal mem => ?_, constraints⟩
    cases kind with
    | static => exact literals .static literal mem
    | fluent => exact earlier mem (literals .fluent literal mem)

theorem ConstRuleWorkspace.TypedFacts.of_subset (typed : cws.TypedFacts (data.factSets new))
    (sub : ∀ fact ∈ old, fact ∈ new) : cws.TypedFacts (data.factSets old) := by
  intro kind fact mem
  cases kind with
  | static => exact typed .static fact mem
  | fluent => exact typed .fluent fact (sub fact mem)

end

namespace StratumState

/-! ### The invariant -/

section

variable {stratum : Stratum} (data : ProgramData) (aggregation : Aggregation)

/-- What is known of a rule at the head of the loop. -/
structure RuleMirror (st : StratumState stratum) (r : Fin stratum.length) : Prop where
  fresh : (st.rules r).seen = none →
    (st.rules r).pending = [] ∧ r ∈ st.active ∧ st.buckets.current = 0
  sub : ∀ s ∈ (st.rules r).seen, ∀ fact ∈ s, fact ∈ st.facts
  waits : ∀ s ∈ (st.rules r).seen, ∀ entry ∈ (st.rules r).pending, Waits data (stratum.get r) s entry
  recent : ∀ s ∈ (st.rules r).seen, ∀ binding,
    ∀ fact ∈ witnessFacts (stratum.get r).rule binding, fact ∈ st.facts → fact ∉ s →
      st.annotations.orAnnot fact = st.buckets.current
  idle : r ∉ st.active → ∀ s ∈ (st.rules r).seen, ∀ binding,
    ∀ fact ∈ witnessFacts (stratum.get r).rule binding, fact ∈ st.facts → fact ∈ s
  paid : ∀ s ∈ (st.rules r).seen, HoldsOutright data (stratum.get r) s →
    st.annotations.orAnnot (groundHead (stratum.get r).rule []) ≤
      groundCost aggregation st.annotations.orAnnot (stratum.get r).rule []

/-- The invariant of the loop over a stratum that starts from the facts `base` and has
derived the heads `derived`. -/
structure Mirrors (base derived : List Tuple) (st : StratumState stratum) : Prop where
  contains : ∀ fact ∈ base, fact ∈ st.facts
  free : ∀ fact ∈ base, stratum.Derives fact → st.annotations.orAnnot fact = 0
  known : ∀ fact ∈ st.facts, fact ∈ base ∨ fact ∈ derived
  derives : ∀ fact ∈ derived, stratum.Derives fact
  settled : ∀ fact ∈ st.facts, fact ∉ base → st.annotations.orAnnot fact ≤ st.buckets.current
  finite : ∀ fact ∈ derived, st.annotations.orAnnot fact ≠ ⊤
  queued : ∀ fact ∉ st.facts, ∀ c : Nat, fact ∈ st.buckets.bucket c ↔ st.annotations.orAnnot fact = c
  later : ∀ fact ∉ st.facts, (st.buckets.current : Cost) ≤ st.annotations.orAnnot fact
  members : ∀ c, ∀ fact ∈ st.buckets.bucket c, fact ∈ derived
  stale : ∀ fact ∈ st.facts, ∀ c, fact ∈ st.buckets.bucket c → c ≤ st.buckets.current
  current : ∀ fact ∈ st.buckets.currentBucket, fact ∈ st.facts
  counts : st.buckets.Counts
  rules : ∀ r, st.RuleMirror data aggregation r

end

section

variable {data : ProgramData} {numeric : NumericOverapproximation} {aggregation : Aggregation}
  {stratum : Stratum} {st : StratumState stratum} {base derived : List Tuple}
  {schedule : Schedule stratum}

theorem mirrors_enter (solve : SolveState)
    (free : ∀ fact ∈ solve.facts, stratum.Derives fact → solve.annotations.orAnnot fact = 0)
    (others : ∀ fact ∉ solve.facts, solve.annotations.orAnnot fact = ⊤) :
    Mirrors data aggregation solve.facts [] (solve.enter stratum) := by
  have empty : ∀ c fact, fact ∉ (solve.enter stratum).buckets.bucket c := by
    intro c fact
    change fact ∉ solve.buckets.clear.bucket c
    simp
  constructor
  · exact fun _ mem => mem
  · exact free
  · exact fun _ mem => .inl mem
  · simp
  · exact fun _ mem notBase => absurd mem notBase
  · simp
  · intro fact notFact c
    refine iff_of_false (empty c fact) ?_
    change ¬ solve.annotations.orAnnot fact = c
    rw [others fact notFact]
    exact WithTop.top_ne_coe
  · exact fun _ _ => zero_le
  · exact fun c fact mem => absurd mem (empty c fact)
  · exact fun fact _ c mem => absurd mem (empty c fact)
  · exact fun fact mem => absurd mem (empty _ fact)
  · exact CostBuckets.counts_clear _
  · intro r
    have fresh : ((solve.enter stratum).rules r).seen = none := rfl
    constructor
    · exact fun _ => ⟨rfl, Finset.mem_univ r, rfl⟩
    all_goals simp [fresh]

section

variable (inv : Mirrors data aggregation base derived st)
  (typed : ∀ cws ∈ stratum, cws.TypedFacts (data.factSets st.facts))
  (valid : Machine.ValidSchedule data numeric aggregation st schedule)

include inv typed valid

/-! ### The price of what is announced -/

/-- An announced binding that a rule has not paid for has a body fact that is new to it. -/
theorem Mirrors.exists_new {r : Fin stratum.length} (active : r ∈ st.active) {s : List Tuple}
    (seen : s ∈ (st.rules r).seen) {a : Announcement} (mem : a ∈ (st.output data schedule r).announced)
    (better : groundCost aggregation st.annotations.orAnnot (stratum.get r).rule a.binding <
      st.annotations.orAnnot (groundHead (stratum.get r).rule a.binding)) :
    ∃ fact ∈ witnessFacts (stratum.get r).rule a.binding, fact ∉ s := by
  have rule := inv.rules r
  have sub := rule.sub s seen
  cases announced_cases mem with
  | waited entry memEntry same applicable _ =>
      have waits := rule.waits s seen entry ((valid.pending r active).mem_iff.mp memEntry)
      rw [← same]
      exact waits.exists_new sub applicable
  | reported parameters memReport _ =>
      obtain ⟨tests, untested⟩ := (valid.reports r active parameters _).mp memReport
      by_contra none
      push Not at none
      have typedSeen := (typed _ (List.get_mem stratum r)).of_subset sub
      exact untested s seen (tests.of_earlier sub typedSeen none)
  | holds noParameters empty nullary body =>
      rw [empty] at better ⊢
      by_contra none
      push Not at none
      have now : HoldsOutright data (stratum.get r) st.facts :=
        ⟨noParameters, nullary, ConstRuleWorkspace.inDomains_nil noParameters, body⟩
      exact not_le.mpr better (rule.paid s seen (now.of_earlier sub none))

/-- An announced binding that beats the annotation of its head costs at least the current
cost, and its head is no fact. -/
theorem Mirrors.beats {r : Fin stratum.length} (active : r ∈ st.active) {a : Announcement}
    (mem : a ∈ (st.output data schedule r).announced)
    (better : groundCost aggregation st.annotations.orAnnot (stratum.get r).rule a.binding <
      st.annotations.orAnnot (groundHead (stratum.get r).rule a.binding)) :
    (st.buckets.current : Cost) ≤
        bodyCost aggregation st.annotations.orAnnot (stratum.get r).rule a.binding ∧
      groundHead (stratum.get r).rule a.binding ∉ st.facts := by
  have body : (st.buckets.current : Cost) ≤
      bodyCost aggregation st.annotations.orAnnot (stratum.get r).rule a.binding := by
    cases hSeen : (st.rules r).seen with
    | none =>
        rw [((inv.rules r).fresh hSeen).2.2]
        exact zero_le
    | some s =>
        obtain ⟨fact, memFact, isNew⟩ := inv.exists_new typed valid active hSeen mem better
        by_cases isFact : fact ∈ st.facts
        · rw [← (inv.rules r).recent s hSeen _ fact memFact isFact isNew]
          exact le_bodyCost memFact
        · exact (inv.later fact isFact).trans (le_bodyCost memFact)
  refine ⟨body, fun isFact => ?_⟩
  by_cases old : groundHead (stratum.get r).rule a.binding ∈ base
  · rw [inv.free _ old ⟨_, List.get_mem stratum r, _, rfl⟩] at better
    exact not_lt_zero better
  · have settled := inv.settled _ isFact old
    exact absurd (settled.trans (body.trans bodyCost_le_groundCost)) (not_le.mpr better)

/-- A worker's witness costs at least the current cost, and its head is no fact. -/
theorem Mirrors.witness_spec {r : Fin stratum.length} (active : r ∈ st.active) {worker : Nat}
    {fact : Tuple} {witness : Witness}
    (found : st.workerWitnesses data (.annotate aggregation) schedule r worker fact = some witness) :
    fact ∉ st.facts ∧ (st.buckets.current : Cost) ≤ witness.cost := by
  obtain ⟨_, listed, sameHead, price, better⟩ := witnessOf_workerWitnesses r worker fact witness found
  obtain ⟨a, mem, sameBinding⟩ := List.mem_map.mp listed
  rw [price, ← sameHead, ← sameBinding] at better
  obtain ⟨body, notFact⟩ := inv.beats typed valid active (List.mem_filter.mp mem).1 better
  rw [sameBinding, sameHead] at notFact
  rw [sameBinding] at body
  refine ⟨notFact, ?_⟩
  rw [price]
  exact body.trans bodyCost_le_groundCost

/-! ### The merges -/

theorem Mirrors.mergeHead {merged : CostBuckets Tuple × Annotations}
    (buckets : MergedBuckets st merged) {merge : Fin stratum.length × Nat × Tuple}
    (mem : merge ∈ schedule.merges) :
    MergedBuckets st (st.mergeHead data (.annotate aggregation) schedule merged merge) := by
  apply buckets.mergeHead
  intro witness found
  exact inv.witness_spec typed valid ((valid.merges merge).mp mem).1 found

theorem Mirrors.mergedBuckets :
    MergedBuckets st (st.merged data (.annotate aggregation) schedule) := by
  unfold StratumState.merged
  exact foldl_invariant (P := MergedBuckets st)
    (fun _ buckets _ mem => inv.mergeHead typed valid buckets mem)
    (mergedBuckets_start inv.current inv.queued inv.later)

/-- A fact is in a bucket after the merges iff it was there and the bucket was not cleared, or
it is merged again at its annotation. -/
theorem Mirrors.mem_merged_fact {fact : Tuple} (isFact : fact ∈ st.facts) (c : Nat) :
    fact ∈ (st.merged data (.annotate aggregation) schedule).1.bucket c ↔
      (fact ∈ st.buckets.bucket c ∧ c ≠ st.buckets.current) ∨
        (MergedHead schedule fact ∧ st.annotations.orAnnot fact = c) := by
  have law : ∀ merged : CostBuckets Tuple × Annotations, MergedBuckets st merged →
      ∀ merge ∈ schedule.merges,
        (fact ∈ (st.mergeHead data (.annotate aggregation) schedule merged merge).1.bucket c ↔
          fact ∈ merged.1.bucket c ∨
            (merge.2.2 = fact ∧ st.annotations.orAnnot fact = c)) := by
    intro merged buckets merge mem
    by_cases same : merge.2.2 = fact
    · rcases updateOrAnnot_cases merged.2 merge.2.2
          (st.workerWitnesses data (.annotate aggregation) schedule merge.1 merge.2.1 merge.2.2) with
        ⟨unchanged, _⟩ | ⟨witness, found, _⟩
      · have result : (st.mergeHead data (.annotate aggregation) schedule merged merge).1 =
            merged.1.update ⟨merged.2.orAnnot merge.2.2, merged.2.orAnnot merge.2.2⟩ merge.2.2 := by
          simp only [StratumState.mergeHead, unchanged]
        rw [result, CostBuckets.mem_update, same, buckets.settled fact isFact]
        tauto
      · have spec := inv.witness_spec typed valid ((valid.merges merge).mp mem).1 found
        rw [same] at spec
        exact absurd isFact spec.1
    · change fact ∈ (merged.1.update _ merge.2.2).bucket c ↔ _
      rw [CostBuckets.mem_update_of_ne (Ne.symm same)]
      exact (or_iff_left fun both => same both.1).symm
  unfold StratumState.merged
  rw [foldl_iff (P := MergedBuckets st)
    (fun merged : CostBuckets Tuple × Annotations => fact ∈ merged.1.bucket c)
    (fun merge => merge.2.2 = fact ∧ st.annotations.orAnnot fact = c)
    (fun _ buckets _ mem => inv.mergeHead typed valid buckets mem) law
    (mergedBuckets_start inv.current inv.queued inv.later), CostBuckets.mem_clearCurrent]
  unfold MergedHead
  constructor
  · rintro (waits | ⟨merge, mem, same, annotated⟩)
    · exact .inl waits
    · exact .inr ⟨⟨merge, mem, same⟩, annotated⟩
  · rintro (waits | ⟨⟨merge, mem, same⟩, annotated⟩)
    · exact .inl waits
    · exact .inr ⟨merge, mem, same, annotated⟩

omit typed in
/-- What is merged is a ground head of the stratum. -/
theorem Mirrors.derives_next {fact : Tuple} (mem : fact ∈ derived ++ schedule.heads) :
    stratum.Derives fact := by
  rcases List.mem_append.mp mem with old | new
  · exact inv.derives fact old
  · obtain ⟨merge, memMerge, rfl⟩ := List.mem_map.mp new
    obtain ⟨_, a, _, _, same⟩ := (valid.merges merge).mp memMerge
    exact ⟨_, List.get_mem stratum merge.1, a.binding, same⟩

omit typed valid in
/-- What waits after the merges has been derived. -/
theorem Mirrors.members_merged {c : Nat} {fact : Tuple}
    (mem : fact ∈ (st.merged data (.annotate aggregation) schedule).1.bucket c) :
    fact ∈ derived ++ schedule.heads := by
  rcases mem_bucket_merged mem with old | ⟨merge, memMerge, same⟩
  · exact List.mem_append_left _ (inv.members c fact old)
  · exact List.mem_append_right _ (List.mem_map.mpr ⟨merge, memMerge, same⟩)

/-- No fact waits in a later bucket. -/
theorem Mirrors.stale_merged {fact : Tuple} (isFact : fact ∈ st.facts) {c : Nat}
    (mem : fact ∈ (st.merged data (.annotate aggregation) schedule).1.bucket c) :
    c ≤ st.buckets.current := by
  rcases (inv.mem_merged_fact typed valid isFact c).mp mem with ⟨waits, _⟩ | ⟨_, annotated⟩
  · exact inv.stale fact isFact c waits
  · have le : st.annotations.orAnnot fact ≤ st.buckets.current := by
      by_cases old : fact ∈ base
      · have derives := inv.derives_next valid (inv.members_merged mem)
        rw [inv.free fact old derives]
        exact zero_le
      · exact inv.settled fact isFact old
    rw [annotated] at le
    exact WithTop.coe_le_coe.mp le

/-- After the merges, an announced ground rule is no cheaper than the annotation of its head. -/
theorem Mirrors.merged_le {r : Fin stratum.length} (active : r ∈ st.active) {a : Announcement}
    (mem : a ∈ (st.output data schedule r).announced) :
    (st.merged data (.annotate aggregation) schedule).2.orAnnot
        (groundHead (stratum.get r).rule a.binding) ≤
      groundCost aggregation st.annotations.orAnnot (stratum.get r).rule a.binding := by
  have listed : (r, a.worker, groundHead (stratum.get r).rule a.binding) ∈ schedule.merges :=
    (valid.merges _).mpr ⟨active, a, mem, rfl, rfl⟩
  have improves := (inv.mergedBuckets typed valid).improves
    (groundHead (stratum.get r).rule a.binding)
  apply (merged_le_bestCost listed improves).trans
  exact bestCost_le_of_recent mem fun better => (inv.beats typed valid active mem better).1

/-- What has been derived has a cost after the merges, if no sum wraps around. -/
theorem Mirrors.finite_merged (inRange : Machine.InRange data aggregation st schedule)
    {fact : Tuple} (mem : fact ∈ derived ++ schedule.heads) :
    (st.merged data (.annotate aggregation) schedule).2.orAnnot fact ≠ ⊤ := by
  rcases List.mem_append.mp mem with old | new
  · exact ne_top_of_le_ne_top (inv.finite fact old) ((inv.mergedBuckets typed valid).improves fact)
  · obtain ⟨merge, memMerge, rfl⟩ := List.mem_map.mp new
    obtain ⟨active, a, announced, _, same⟩ := (valid.merges merge).mp memMerge
    have le := inv.merged_le typed valid active announced
    rw [same] at le
    exact ne_top_of_le_ne_top (ne_top_of_lt (inRange.announced _ active a announced)) le

omit typed valid in
theorem Mirrors.counts_merged :
    (st.merged data (.annotate aggregation) schedule).1.Counts :=
  foldl_invariant (P := fun merged : CostBuckets Tuple × Annotations => merged.1.Counts)
    (fun _ counts merge _ => counts.update _ merge.2.2) inv.counts.clearCurrent

/-! ### One iteration -/

section

variable (inRange : Machine.InRange data aggregation st schedule)

include inRange

omit inv typed in
/-- The heads that are inserted are those of the next current bucket. -/
theorem mem_inserted {head : Tuple} : head ∈ schedule.inserted ↔
    head ∈ (st.next data (.annotate aggregation) schedule).buckets.currentBucket := by
  rw [valid.inserted head, inRange.merged fun merge mem => ((valid.merges merge).mp mem).1]
  rfl

/-- The facts that an iteration inserts have the next current cost. -/
theorem Mirrors.annot_inserted {fact : Tuple}
    (isFact : fact ∈ (st.next data (.annotate aggregation) schedule).facts)
    (isNew : fact ∉ st.facts) :
    (st.next data (.annotate aggregation) schedule).annotations.orAnnot fact =
      (st.next data (.annotate aggregation) schedule).buckets.current := by
  rcases mem_insertHeads.mp isFact with old | waits
  · exact absurd old isNew
  · have inBucket := (mem_inserted valid inRange).mp waits
    exact ((inv.mergedBuckets typed valid).queued fact isNew _).mp inBucket

omit inRange in
/-- The facts keep their costs, and so do the rules that look at facts only. -/
theorem Mirrors.groundCost_next {rule : Rule} {binding : List Nat}
    (body : ∀ fact ∈ witnessFacts rule binding, fact ∈ st.facts) :
    groundCost aggregation (st.next data (.annotate aggregation) schedule).annotations.orAnnot
        rule binding =
      groundCost aggregation st.annotations.orAnnot rule binding :=
  groundCost_congr fun fact mem => (inv.mergedBuckets typed valid).settled fact (body fact mem)

/-- What is known of a rule after an iteration that processed it. -/
theorem Mirrors.rule_processed {r : Fin stratum.length} (active : r ∈ st.active) :
    (st.next data (.annotate aggregation) schedule).RuleMirror data aggregation r := by
  have rule := inv.rules r
  have state : (st.next data (.annotate aggregation) schedule).rules r =
      ⟨some st.facts, (st.output data schedule r).pending⟩ := if_pos active
  have seen : ∀ s ∈ ((st.next data (.annotate aggregation) schedule).rules r).seen, s = st.facts := by
    intro s mem
    rw [state] at mem
    exact (Option.mem_some.mp mem).symm
  have checks : ∀ entry ∈ schedule.pending r, ChecksBody (stratum.get r) entry := by
    intro entry mem
    have pending := (valid.pending r active).mem_iff.mp mem
    cases hSeen : (st.rules r).seen with
    | none =>
        rw [(rule.fresh hSeen).1] at pending
        exact absurd pending List.not_mem_nil
    | some s => exact (rule.waits s hSeen entry pending).toChecksBody
  constructor
  · intro fresh
    rw [state] at fresh
    cases fresh
  · intro s mem fact memFact
    rw [seen s mem] at memFact
    exact mem_insertHeads.mpr (.inl memFact)
  · intro s mem entry memEntry
    rw [seen s mem]
    rw [state] at memEntry
    exact waits_processRule checks entry memEntry
  · intro s mem binding fact _ isFact isNew
    rw [seen s mem] at isNew
    exact inv.annot_inserted typed valid inRange isFact isNew
  · intro inactive s mem binding fact memFact isFact
    rw [seen s mem]
    obtain ⟨literal, memLiteral, positive, rfl⟩ := mem_witnessFacts.mp memFact
    exact mem_facts_of_idle inactive memLiteral positive isFact
  · intro s mem holds
    rw [seen s mem] at holds
    have announced : ⟨schedule.nullaryWorker r, []⟩ ∈ (st.output data schedule r).announced :=
      announced_of_holds holds.noParameters holds.nullary holds.body.2
    rw [inv.groundCost_next typed valid holds.body.witnessFacts]
    exact inv.merged_le typed valid active announced

/-- What is known of a rule after an iteration in which it was not active. -/
theorem Mirrors.rule_idle {r : Fin stratum.length} (inactive : r ∉ st.active) :
    (st.next data (.annotate aggregation) schedule).RuleMirror data aggregation r := by
  have rule := inv.rules r
  have state : (st.next data (.annotate aggregation) schedule).rules r = st.rules r :=
    if_neg inactive
  constructor <;> rw [state]
  · intro fresh
    exact absurd (rule.fresh fresh).2.1 inactive
  · intro s mem fact memFact
    exact mem_insertHeads.mpr (.inl (rule.sub s mem fact memFact))
  · exact rule.waits
  · intro s mem binding fact memFact isFact notSeen
    apply inv.annot_inserted typed valid inRange isFact
    exact fun old => notSeen (rule.idle inactive s mem binding fact memFact old)
  · intro inactiveNext s mem binding fact memFact isFact
    apply rule.idle inactive s mem binding fact memFact
    obtain ⟨literal, memLiteral, positive, rfl⟩ := mem_witnessFacts.mp memFact
    exact mem_facts_of_idle inactiveNext memLiteral positive isFact
  · intro s mem holds
    have body : ∀ fact ∈ witnessFacts (stratum.get r).rule [], fact ∈ st.facts :=
      fun fact memFact => rule.sub s mem fact (holds.body.witnessFacts fact memFact)
    rw [inv.groundCost_next typed valid body]
    exact ((inv.mergedBuckets typed valid).improves _).trans (rule.paid s mem holds)

/-- An iteration keeps the invariant. -/
theorem Mirrors.next : Mirrors data aggregation base (derived ++ schedule.heads)
    (st.next data (.annotate aggregation) schedule) := by
  have buckets := inv.mergedBuckets typed valid
  have advances : st.buckets.current ≤ (st.next data (.annotate aggregation) schedule).buckets.current :=
    current_le_next
  have grows : ∀ fact ∈ st.facts, fact ∈ (st.next data (.annotate aggregation) schedule).facts :=
    fun fact mem => mem_insertHeads.mpr (.inl mem)
  have members : ∀ c, ∀ fact ∈ (st.next data (.annotate aggregation) schedule).buckets.bucket c,
      fact ∈ derived ++ schedule.heads := by
    intro c fact mem
    rw [bucket_next] at mem
    exact inv.members_merged mem
  constructor
  · exact fun fact mem => grows fact (inv.contains fact mem)
  · intro fact mem derives
    exact (buckets.settled fact (inv.contains fact mem)).trans (inv.free fact mem derives)
  · intro fact isFact
    rcases mem_insertHeads.mp isFact with old | new
    · exact (inv.known fact old).imp_right (List.mem_append_left _)
    · exact .inr (members _ fact ((mem_inserted valid inRange).mp new))
  · exact fun fact mem => inv.derives_next valid mem
  · intro fact isFact notBase
    by_cases old : fact ∈ st.facts
    · have settled := (buckets.settled fact old).le.trans (inv.settled fact old notBase)
      exact settled.trans (WithTop.coe_le_coe.mpr advances)
    · exact (inv.annot_inserted typed valid inRange isFact old).le
  · exact fun fact mem => inv.finite_merged typed valid inRange mem
  · intro fact notFact c
    rw [bucket_next]
    exact buckets.queued fact (fun old => notFact (grows fact old)) c
  · intro fact notFact
    exact buckets.current_next_le fun old => notFact (grows fact old)
  · exact members
  · intro fact isFact c mem
    by_cases old : fact ∈ st.facts
    · rw [bucket_next] at mem
      exact (inv.stale_merged typed valid old mem).trans advances
    · rw [bucket_next] at mem
      have annotated := (buckets.queued fact old c).mp mem
      have current := inv.annot_inserted typed valid inRange isFact old
      exact (WithTop.coe_inj.mp (annotated.symm.trans current)).le
  · exact fun fact mem => mem_insertHeads.mpr (.inr ((mem_inserted valid inRange).mpr mem))
  · exact inv.counts_merged
  · intro r
    by_cases active : r ∈ st.active
    · exact inv.rule_processed typed valid inRange active
    · exact inv.rule_idle typed valid inRange active

end

/-! ### The advance -/

/-- An active rule without parameters, whose body holds, has a head that is a fact of the
current cost. -/
def Reannounces (data : ProgramData) (st : StratumState stratum) : Prop :=
  ∃ r ∈ st.active, HoldsOutright data (stratum.get r) st.facts ∧
    groundHead (stratum.get r).rule [] ∈ st.facts ∧
    st.annotations.orAnnot (groundHead (stratum.get r).rule []) = st.buckets.current

/-- What is derived and no fact waits in the bucket of its annotation only. -/
theorem Mirrors.waits_merged (inRange : Machine.InRange data aggregation st schedule)
    {head : Tuple} (mem : head ∈ derived ++ schedule.heads) (notFact : head ∉ st.facts) :
    ∃ c : Nat, (st.merged data (.annotate aggregation) schedule).1.current ≤ c ∧
      (st.merged data (.annotate aggregation) schedule).2.orAnnot head = c ∧
      ∀ d, head ∈ (st.merged data (.annotate aggregation) schedule).1.bucket d ↔ d = c := by
  have buckets := inv.mergedBuckets typed valid
  obtain ⟨c, annotated⟩ := WithTop.ne_top_iff_exists.mp (inv.finite_merged typed valid inRange mem)
  have late := buckets.later head notFact
  rw [← annotated] at late
  refine ⟨c, ?_, annotated.symm, fun d => ?_⟩
  · rw [merged_current]
    exact WithTop.coe_le_coe.mp late
  · rw [buckets.queued head notFact, ← annotated]
    exact Cost.some_eq_natCast

/-- The loop ends when everything derived is a fact, unless a fact of the current cost is
announced again. -/
theorem Mirrors.ends_iff (inRange : Machine.InRange data aggregation st schedule) :
    (st.merged data (.annotate aggregation) schedule).1.advanceToNextNonempty.1 = false ↔
      (∀ head ∈ derived ++ schedule.heads, head ∈ st.facts) ∧ ¬ Reannounces data st := by
  obtain ⟨_, forward, _, nonempty, empty⟩ :=
    (st.merged data (.annotate aggregation) schedule).1.advanceToNextNonempty_spec
  rw [merged_current] at forward
  constructor
  · intro done
    refine ⟨fun head mem => ?_, ?_⟩
    · by_contra notFact
      obtain ⟨c, late, _, waits⟩ := inv.waits_merged typed valid inRange mem notFact
      have inBucket := (waits c).mpr rfl
      rw [empty done c late] at inBucket
      exact Finset.notMem_empty head inBucket
    · rintro ⟨r, active, holds, isFact, annotated⟩
      have announced : ⟨schedule.nullaryWorker r, []⟩ ∈ (st.output data schedule r).announced :=
        announced_of_holds holds.noParameters holds.nullary holds.body.2
      have again : MergedHead schedule (groundHead (stratum.get r).rule []) :=
        ⟨_, (valid.merges (r, schedule.nullaryWorker r, _)).mpr ⟨active, _, announced, rfl, rfl⟩, rfl⟩
      have inBucket := (inv.mem_merged_fact typed valid isFact _).mpr (.inr ⟨again, annotated⟩)
      rw [empty done _ (by rw [merged_current])] at inBucket
      exact Finset.notMem_empty _ inBucket
  · rintro ⟨all, nothingAgain⟩
    by_contra advances
    obtain ⟨head, waits⟩ := Finset.nonempty_iff_ne_empty.mpr (nonempty (Bool.not_eq_false _ ▸ advances))
    change head ∈ (st.merged data (.annotate aggregation) schedule).1.bucket _ at waits
    have isFact := all head (inv.members_merged waits)
    have early := inv.stale_merged typed valid isFact waits
    have isCurrent := Nat.le_antisymm early forward
    rw [isCurrent] at waits
    rcases (inv.mem_merged_fact typed valid isFact _).mp waits with ⟨_, cleared⟩ | ⟨again, annotated⟩
    · exact cleared rfl
    · -- Only a rule without parameters announces a fact.
      obtain ⟨merge, memMerge, same⟩ := again
      obtain ⟨active, a, announced, _, sameHead⟩ := (valid.merges merge).mp memMerge
      rw [same] at sameHead
      rw [← sameHead] at isFact annotated
      cases announced_cases announced with
      | waited entry _ _ _ notFact => exact notFact isFact
      | reported _ _ notFact => exact notFact isFact
      | holds noParameters empty nullary body =>
          rw [empty] at isFact annotated
          have holds : HoldsOutright data (stratum.get merge.1) st.facts :=
            ⟨noParameters, nullary, ConstRuleWorkspace.inDomains_nil noParameters, body⟩
          exact nothingAgain ⟨merge.1, active, holds, isFact, annotated⟩

end

end

end StratumState

/-! ### Evaluations -/

/-- No rules of the two strata derive the same predicate. -/
def Stratum.HeadsApart (earlier later : Stratum) : Prop :=
  ∀ cws ∈ earlier, ∀ cws' ∈ later, cws.rule.head.predicate ≠ cws'.rule.head.predicate

/-- The facts and what the strata derive from them have one object for each position of their
predicate. -/
def TypedStrata (data : ProgramData) (strata : List Stratum) (facts : List Tuple) : Prop :=
  ∀ stratum ∈ strata, ∀ cws ∈ stratum, ∀ fluent : List Tuple,
    (∀ fact ∈ fluent, fact ∈ facts ∨ ∃ s ∈ strata, s.Derives fact) →
      cws.TypedFacts (data.factSets fluent)

/-- The fact is initial and costs nothing, or an earlier stratum derives it. -/
def Origin (facts : List Tuple) (earlier : List Stratum) (orAnnot : Tuple → Cost) (fact : Tuple) :
    Prop :=
  (fact ∈ facts ∧ orAnnot fact = 0) ∨ ∃ s ∈ earlier, s.Derives fact

/-- Right before the buckets of a pass advance, what has been derived and is no fact waits in
the bucket of its annotation only, from the current bucket on; the total size counts the
buckets at all times; advancing goes forward and skips empty buckets only; and the loop ends
exactly when everything derived is a fact. -/
structure BucketsMirror (data : ProgramData) (aggregation : Aggregation) {stratum : Stratum}
    (st : StratumState stratum) (schedule : Schedule stratum) (derived : List Tuple) : Prop where
  waits : ∀ head ∈ derived, head ∉ st.facts →
    ∃ c : Nat, (Machine.merged data aggregation st schedule).1.current ≤ c ∧
      (Machine.merged data aggregation st schedule).2.orAnnot head = c ∧
      ∀ d, head ∈ (Machine.merged data aggregation st schedule).1.bucket d ↔ d = c
  counts : st.buckets.Counts ∧ ∀ merges, merges <+: schedule.merges →
    (merges.foldl (Machine.mergeHead data aggregation st schedule)
      (st.buckets.clearCurrent, st.annotations)).1.Counts
  forward : (Machine.merged data aggregation st schedule).1.current ≤
    (Machine.merged data aggregation st schedule).1.advanceToNextNonempty.2.current
  skipsEmpty : ∀ c, (Machine.merged data aggregation st schedule).1.current ≤ c →
    c < (Machine.merged data aggregation st schedule).1.advanceToNextNonempty.2.current →
      (Machine.merged data aggregation st schedule).1.bucket c = ∅
  ends : (Machine.merged data aggregation st schedule).1.advanceToNextNonempty.1 = false ↔
    ∀ head ∈ derived, head ∈ st.facts

section

variable {data : ProgramData} {numeric : NumericOverapproximation} {aggregation : Aggregation}
  {ws : ProgramWorkspace} {facts derived : List Tuple} {earlier : List Stratum}
  {stratum : Stratum} {e : Evaluation stratum}

theorem Stratum.HeadsApart.not_derives {s t : Stratum} (apart : s.HeadsApart t) {fact : Tuple}
    (derives : s.Derives fact) : ¬ t.Derives fact := by
  obtain ⟨cws, mem, _, same⟩ := derives
  rintro ⟨cws', mem', _, same'⟩
  exact apart cws mem cws' mem' (congrArg Tuple.relation (same.trans same'.symm))

/-- The facts of a stratum are typed. -/
theorem StratumState.Mirrors.typed {base : List Tuple} {st : StratumState stratum}
    (inv : Mirrors data aggregation base derived st)
    (origin : ∀ fact ∈ base, Origin facts earlier st.annotations.orAnnot fact)
    (typed : TypedStrata data (earlier ++ [stratum]) facts) :
    ∀ cws ∈ stratum, cws.TypedFacts (data.factSets st.facts) := by
  intro cws mem
  have last : stratum ∈ earlier ++ [stratum] := by simp
  apply typed stratum last cws mem
  intro fact isFact
  rcases inv.known fact isFact with old | new
  · rcases origin fact old with ⟨initial, _⟩ | ⟨s, memStratum, derives⟩
    · exact .inl initial
    · exact .inr ⟨s, List.mem_append_left _ memStratum, derives⟩
  · exact .inr ⟨stratum, last, inv.derives fact new⟩

/-- While goals are open, the invariant holds at the head of each loop. -/
theorem AtHead.mirrors (atHead : AtHead data numeric aggregation
      (fun st schedule => Machine.InRange data aggregation st schedule) ws facts earlier stratum e
      derived)
    (apart : (earlier ++ [stratum]).Pairwise Stratum.HeadsApart)
    (typed : TypedStrata data (earlier ++ [stratum]) facts) (unsatisfied : e.tp.check = false) :
    ∃ base, e.state.Mirrors data aggregation base derived ∧
      ∀ fact ∈ base, Origin facts earlier e.state.annotations.orAnnot fact := by
  induction atHead with
  | first stratum =>
      refine ⟨facts, StratumState.mirrors_enter (ws.clear facts).solve ?_ ?_, ?_⟩
      · exact fun fact mem _ => if_pos mem
      · exact fun fact notMem => if_neg notMem
      · exact fun fact mem => .inl ⟨mem, if_pos mem⟩
  | @pass earlier stratum e derived schedule _ goalsOpen valid inRange _ ih =>
      obtain ⟨base, inv, origin⟩ := ih apart typed goalsOpen
      have typedNow := inv.typed origin typed
      have sameNext : Machine.next data aggregation e.state schedule =
          e.state.next data (.annotate aggregation) schedule :=
        inRange.next fun merge mem => ((valid.merges merge).mp mem).1
      dsimp only
      rw [sameNext]
      refine ⟨base, inv.next typedNow valid inRange, fun fact mem => ?_⟩
      have same := (inv.mergedBuckets typedNow valid).settled fact (inv.contains fact mem)
      rcases origin fact mem with ⟨initial, free⟩ | before
      · exact .inl ⟨initial, same.trans free⟩
      · exact .inr before
  | achieved next _ achieved _ =>
      dsimp only at unsatisfied
      rw [achieved] at unsatisfied
      cases unsatisfied
  | @exhausted earlier stratum e derived schedule next _ unsatisfied valid inRange done ih =>
      have apartEarlier := (List.pairwise_append.mp apart).1
      have typedEarlier : TypedStrata data (earlier ++ [stratum]) facts := by
        intro s mem cws memRule fluent known
        apply typed s (List.mem_append_left _ mem) cws memRule
        intro fact memFact
        refine (known fact memFact).imp_right ?_
        rintro ⟨t, memStratum, derives⟩
        exact ⟨t, List.mem_append_left _ memStratum, derives⟩
      obtain ⟨base, inv, origin⟩ := ih apartEarlier typedEarlier unsatisfied
      have typedNow := inv.typed origin typedEarlier
      have buckets := inv.mergedBuckets typedNow valid
      have sameMerged : Machine.merged data aggregation e.state schedule =
          e.state.merged data (.annotate aggregation) schedule :=
        inRange.merged fun merge mem => ((valid.merges merge).mp mem).1
      rw [sameMerged] at done ⊢
      have originNow : ∀ fact ∈ e.state.facts, Origin facts (earlier ++ [stratum])
          (e.state.merged data (.annotate aggregation) schedule).2.orAnnot fact := by
        intro fact isFact
        rcases inv.known fact isFact with old | new
        · rcases origin fact old with ⟨initial, free⟩ | ⟨s, mem, derives⟩
          · exact .inl ⟨initial, (buckets.settled fact isFact).trans free⟩
          · exact .inr ⟨s, List.mem_append_left _ mem, derives⟩
        · exact .inr ⟨stratum, by simp, inv.derives fact new⟩
      refine ⟨e.state.facts, StratumState.mirrors_enter ⟨e.state.facts, _, _⟩ ?_ ?_, originNow⟩
      · intro fact isFact derives
        rcases originNow fact isFact with ⟨_, free⟩ | ⟨s, mem, before⟩
        · exact free
        · have apartNext := (List.pairwise_append.mp apart).2.2 s mem next List.mem_cons_self
          exact absurd derives (apartNext.not_derives before)
      · exact fun fact notFact => buckets.orAnnot_returns done notFact

/-- In an evaluation whose sums stay in range, the buckets mirror the annotations before each
advance, unless everything derived is a fact and one of the current cost is announced again. -/
theorem AtHead.bucketsMirror_iff (atHead : AtHead data numeric aggregation
      (fun st schedule => Machine.InRange data aggregation st schedule) ws facts earlier stratum e
      derived)
    (apart : (earlier ++ [stratum]).Pairwise Stratum.HeadsApart)
    (typed : TypedStrata data (earlier ++ [stratum]) facts) (unsatisfied : e.tp.check = false)
    {schedule : Schedule stratum}
    (valid : Machine.ValidSchedule data numeric aggregation e.state schedule)
    (inRange : Machine.InRange data aggregation e.state schedule) :
    BucketsMirror data aggregation e.state schedule (derived ++ schedule.heads) ↔
      ((∀ head ∈ derived ++ schedule.heads, head ∈ e.state.facts) →
        ¬ StratumState.Reannounces data e.state) := by
  obtain ⟨base, inv, origin⟩ := atHead.mirrors apart typed unsatisfied
  have typedNow := inv.typed origin typed
  have sameMerged : Machine.merged data aggregation e.state schedule =
      e.state.merged data (.annotate aggregation) schedule :=
    inRange.merged fun merge mem => ((valid.merges merge).mp mem).1
  have ends := inv.ends_iff typedNow valid inRange
  rw [← sameMerged] at ends
  constructor
  · intro mirror all
    exact (ends.mp (mirror.ends.mpr all)).2
  · intro once
    obtain ⟨_, forward, skipped, _⟩ :=
      (Machine.merged data aggregation e.state schedule).1.advanceToNextNonempty_spec
    constructor
    · rw [sameMerged]
      exact fun head mem notFact => inv.waits_merged typedNow valid inRange mem notFact
    · refine ⟨inv.counts, fun merges _ => ?_⟩
      exact foldl_invariant (P := fun merged : CostBuckets Tuple × Annotations => merged.1.Counts)
        (fun _ counts merge _ => counts.update _ merge.2.2) inv.counts.clearCurrent
    · exact forward
    · exact skipped
    · exact ends.trans (and_iff_left_of_imp once)

end

end Tyr.Datalog
