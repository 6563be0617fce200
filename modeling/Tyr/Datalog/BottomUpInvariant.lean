import Tyr.Datalog.RuleProcessing

/-!
The facts along the iterations of a stratum.

`FactInvariant` holds at each head of the loop: the facts and the queued heads
are in the model of the stratum, and every rule that has been processed is
covered: the heads of the bodies that held then are facts or queued. An
iteration keeps it if its merges lose no head (`KeepsHeads`), which depends on
the annotation policy. When the loop returns, the facts are closed under the rules.
-/

namespace Tyr.Datalog

open Tyr.Lib Tyr.Formalism Tyr.Formalism.Datalog

/-- Facts between `base` and the model extend each other for each rule. -/
theorem Extends.of_model {data : ProgramData} {stratum : Stratum} {base old new : List Tuple}
    (negationFree : stratum.NegationFree) {cws : ConstRuleWorkspace} (memRule : cws ∈ stratum) (sub : ∀ fact ∈ base, fact ∈ old)
    (grows : ∀ fact ∈ old, fact ∈ new)
    (model : ∀ fact ∈ new, StratumModel data stratum (· ∈ base) fact) : Extends cws.rule old new where
  subset := grows
  negative := by
    intro literal mem negative binding isFact
    rcases (model _ isFact).base_or_head with isBase | ⟨cws', mem', sameRelation⟩
    · exact sub _ isBase
    · exact absurd sameRelation (negationFree cws memRule cws' mem' literal mem negative)

namespace StratumState

section

variable {stratum : Stratum} (st : StratumState stratum)

/-- The fact has been derived: it is a fact, or it waits in a bucket. -/
def Reached (fact : Tuple) : Prop :=
  fact ∈ st.facts ∨ ∃ c, st.buckets.current ≤ c ∧ fact ∈ st.buckets.bucket c

variable (data : ProgramData) (policy : AnnotationPolicy) (enumeration : CliqueEnumeration data)
  (base : List Tuple) (schedule : Schedule stratum)

/-- What is known of a rule at the head of the loop. -/
structure RuleInvariant (r : Fin stratum.length) : Prop where
  fresh : (st.rules r).seen = none → (st.rules r).pending = [] ∧ r ∈ st.active
  enumerated : ∀ s ∈ (st.rules r).seen,
    EnumeratedOn data enumeration (stratum.get r) s st.facts (st.rules r).pending
  contains : ∀ s ∈ (st.rules r).seen, ∀ fact ∈ base, fact ∈ s
  covered : ∀ s ∈ (st.rules r).seen, ∀ binding, BodyHolds data (stratum.get r) s binding →
    st.Reached (groundHead (stratum.get r).rule binding)
  idle : r ∉ st.active → ∀ s ∈ (st.rules r).seen, AgreeOn (stratum.get r).rule s st.facts

/-- The invariant of the loop over a stratum that starts from the facts `base`. -/
structure FactInvariant : Prop where
  contains : ∀ fact ∈ base, fact ∈ st.facts
  model : ∀ fact ∈ st.facts, StratumModel data stratum (· ∈ base) fact
  queued : ∀ c, ∀ fact ∈ st.buckets.bucket c, StratumModel data stratum (· ∈ base) fact
  current : ∀ fact ∈ st.buckets.currentBucket, fact ∈ st.facts
  rules : ∀ r, st.RuleInvariant data enumeration base r

/-- The heads that are merged. -/
def MergedHead (fact : Tuple) : Prop := ∃ merge ∈ schedule.merges, merge.2.2 = fact

/-- The merges lose no head: what was derived or announced is a fact or waits in a bucket. -/
def KeepsHeads : Prop :=
  ∀ fact, st.Reached fact ∨ MergedHead schedule fact → fact ∈ st.facts ∨
    ∃ c, st.buckets.current ≤ c ∧ fact ∈ (st.merged data policy schedule).1.bucket c

end

section

variable {data : ProgramData} {policy : AnnotationPolicy} {enumeration : CliqueEnumeration data}
  {stratum : Stratum} {st : StratumState stratum} {base : List Tuple} {schedule : Schedule stratum}

/-! ### Merging and inserting -/

theorem mem_insertHeads {facts heads : List Tuple} {fact : Tuple} :
    fact ∈ insertHeads facts heads ↔ fact ∈ facts ∨ fact ∈ heads := by
  have law : ∀ (facts : List Tuple) (head : Tuple),
      fact ∈ (if head ∈ facts then facts else facts ++ [head]) ↔ fact ∈ facts ∨ fact = head := by
    intro facts head
    split
    · next present =>
        apply (or_iff_left_of_imp _).symm
        rintro rfl
        exact present
    · rw [List.mem_append, List.mem_singleton]
  apply (foldl_iff_of_law heads law facts).trans
  exact or_congr Iff.rfl (by simp)

theorem mergeHead_current (merged : CostBuckets Tuple × Annotations)
    (merge : Fin stratum.length × Nat × Tuple) :
    (st.mergeHead data policy schedule merged merge).1.current = merged.1.current := by
  cases policy with
  | none => exact CostBuckets.current_update _ _ _
  | annotate aggregation => exact CostBuckets.current_update _ _ _

theorem merged_current : (st.merged data policy schedule).1.current = st.buckets.current :=
  foldl_unchanged (fun merged : CostBuckets Tuple × Annotations => merged.1.current)
    (fun merged merge _ => mergeHead_current merged merge) _

/-- A merge moves its own head only. -/
theorem mem_bucket_mergeHead {merged : CostBuckets Tuple × Annotations}
    {merge : Fin stratum.length × Nat × Tuple} {c : Nat} {fact : Tuple}
    (mem : fact ∈ (st.mergeHead data policy schedule merged merge).1.bucket c) :
    fact ∈ merged.1.bucket c ∨ merge.2.2 = fact := by
  cases policy with
  | none =>
      rcases CostBuckets.mem_update.mp mem with old | new
      · exact .inl old.1
      · exact .inr new.2.symm
  | annotate aggregation =>
      rcases CostBuckets.mem_update.mp mem with old | new
      · exact .inl old.1
      · exact .inr new.2.symm

/-- What waits after the merges waited before or was merged. -/
theorem mem_bucket_merged {c : Nat} {fact : Tuple}
    (mem : fact ∈ (st.merged data policy schedule).1.bucket c) :
    fact ∈ st.buckets.bucket c ∨ MergedHead schedule fact := by
  have waits : ∀ merged : CostBuckets Tuple × Annotations,
      (fact ∈ merged.1.bucket c → fact ∈ st.buckets.bucket c ∨ MergedHead schedule fact) →
      ∀ merge ∈ schedule.merges,
        fact ∈ (st.mergeHead data policy schedule merged merge).1.bucket c →
          fact ∈ st.buckets.bucket c ∨ MergedHead schedule fact := by
    intro merged before merge memMerge inBucket
    rcases mem_bucket_mergeHead inBucket with old | same
    · exact before old
    · exact .inr ⟨merge, memMerge, same⟩
  have start : fact ∈ st.buckets.clearCurrent.bucket c →
      fact ∈ st.buckets.bucket c ∨ MergedHead schedule fact :=
    fun inBucket => .inl (CostBuckets.mem_clearCurrent.mp inBucket).1
  exact foldl_invariant (P := fun merged : CostBuckets Tuple × Annotations =>
    fact ∈ merged.1.bucket c → fact ∈ st.buckets.bucket c ∨ MergedHead schedule fact) waits start mem

theorem bucket_next (c : Nat) :
    (st.next data policy schedule).buckets.bucket c = (st.merged data policy schedule).1.bucket c :=
  (st.merged data policy schedule).1.advanceToNextNonempty_spec.1 c

theorem current_le_next : st.buckets.current ≤ (st.next data policy schedule).buckets.current := by
  have forward := (st.merged data policy schedule).1.advanceToNextNonempty_spec.2.1
  rwa [merged_current] at forward

theorem mem_facts_next (valid : st.ValidSchedule data policy enumeration schedule) {fact : Tuple} :
    fact ∈ (st.next data policy schedule).facts ↔
      fact ∈ st.facts ∨ fact ∈ (st.next data policy schedule).buckets.currentBucket :=
  mem_insertHeads.trans (or_congr_right (valid.inserted fact))

/-- The next facts are all new heads of the current cost, and none is skipped. -/
theorem reached_next (keepsHeads : st.KeepsHeads data policy schedule) {fact : Tuple}
    (reached : st.Reached fact ∨ MergedHead schedule fact) :
    (st.next data policy schedule).Reached fact := by
  rcases keepsHeads fact reached with isFact | ⟨c, later, mem⟩
  · exact .inl (mem_insertHeads.mpr (.inl isFact))
  · refine .inr ⟨c, ?_, by rwa [bucket_next]⟩
    obtain ⟨_, _, skipped, _⟩ := (st.merged data policy schedule).1.advanceToNextNonempty_spec
    by_contra before
    have empty := skipped c (by rwa [merged_current]) (not_le.mp before)
    rw [empty] at mem
    exact Finset.notMem_empty _ mem

/-! ### One iteration -/

theorem FactInvariant.ready (inv : st.FactInvariant data enumeration base) {r : Fin stratum.length}
    (pending : (schedule.pending r).Perm (st.rules r).pending)
    (reports : (stratum.get r).rule.arity ≠ 0 →
      ∀ binding, binding ∈ (schedule.reports r).map Prod.snd ↔
        enumeration.candidate (stratum.get r) st.facts binding ∧
          ∀ seen ∈ (st.rules r).seen, ¬ enumeration.candidate (stratum.get r) seen binding) :
    ReadyFor data enumeration (stratum.get r) (st.rules r).seen st.facts (schedule.pending r)
      (schedule.reports r) where
  fresh := by
    intro fresh
    rw [((inv.rules r).fresh fresh).1] at pending
    exact pending.eq_nil
  enumerated := by
    intro s mem
    have enumerated := (inv.rules r).enumerated s mem
    have same : ∀ entry, entry ∈ schedule.pending r ↔ entry ∈ (st.rules r).pending :=
      fun entry => pending.mem_iff
    constructor
    · exact enumerated.extend
    · exact fun entry memEntry => enumerated.tracks entry ((same entry).mp memEntry)
    · exact fun entry memEntry => enumerated.fails entry ((same entry).mp memEntry)
    · intro arity binding isCandidate
      simp only [same]
      exact enumerated.kept arity binding isCandidate
  reported := reports

/-- What an active rule announces is right, what newly holds is announced or its
head is a fact, and the rule is then enumerated on the facts. -/
theorem FactInvariant.output (inv : st.FactInvariant data enumeration base)
    (valid : st.ValidSchedule data policy enumeration schedule) {r : Fin stratum.length}
    (active : r ∈ st.active) :
    (∀ a ∈ (st.output data schedule r).announced,
      BodyHolds data (stratum.get r) st.facts a.binding) ∧
    (∀ binding, BodyHolds data (stratum.get r) st.facts binding →
      groundHead (stratum.get r).rule binding ∈ st.facts ∨
        (∃ s ∈ (st.rules r).seen, BodyHolds data (stratum.get r) s binding) ∨
        ∃ a ∈ (st.output data schedule r).announced, a.binding = binding) ∧
    EnumeratedOn data enumeration (stratum.get r) st.facts st.facts
      (st.output data schedule r).pending :=
  processRule_spec (inv.ready (valid.pending r active) (valid.reports r active))
    (schedule.nullaryWorker r)

/-- A head whose body holds is in the model. -/
theorem FactInvariant.model_head (inv : st.FactInvariant data enumeration base)
    {r : Fin stratum.length} {binding : List Nat}
    (holds : BodyHolds data (stratum.get r) st.facts binding) :
    StratumModel data stratum (· ∈ base) (groundHead (stratum.get r).rule binding) := by
  obtain ⟨admits, positive⟩ := admits_of_bodyHolds inv.contains holds
  apply StratumModel.rule (List.get_mem stratum r) admits
  exact fun literal mem polarity => inv.model _ (positive literal mem polarity)

theorem FactInvariant.model_merged (inv : st.FactInvariant data enumeration base)
    (valid : st.ValidSchedule data policy enumeration schedule) {fact : Tuple}
    (merged : MergedHead schedule fact) : StratumModel data stratum (· ∈ base) fact := by
  obtain ⟨merge, mem, rfl⟩ := merged
  obtain ⟨active, a, memAnnounced, _, same⟩ := (valid.merges merge).mp mem
  rw [← same]
  exact inv.model_head ((inv.output valid active).1 a memAnnounced)

/-- A body that holds is covered by the merges. -/
theorem FactInvariant.covered (inv : st.FactInvariant data enumeration base)
    (valid : st.ValidSchedule data policy enumeration schedule) {r : Fin stratum.length}
    (active : r ∈ st.active) {binding : List Nat}
    (holds : BodyHolds data (stratum.get r) st.facts binding) :
    st.Reached (groundHead (stratum.get r).rule binding) ∨
      MergedHead schedule (groundHead (stratum.get r).rule binding) := by
  rcases (inv.output valid active).2.1 binding holds with isFact | ⟨s, mem, before⟩ | ⟨a, mem, rfl⟩
  · exact .inl (.inl isFact)
  · exact .inl ((inv.rules r).covered s mem binding before)
  · refine .inr ⟨(r, a.worker, _), (valid.merges _).mpr ⟨active, a, mem, rfl, rfl⟩, rfl⟩

/-! ### The invariant -/

/-- A rule that is not active next sees no new fact for its positive literals. -/
theorem mem_facts_of_idle {r : Fin stratum.length}
    (inactive : r ∉ (st.next data policy schedule).active) {literal : Literal}
    (mem : literal ∈ (stratum.get r).rule.body.fluentLiterals) (positive : literal.polarity = true)
    {binding : List Nat}
    (isFact : literal.atom.ground binding ∈ (st.next data policy schedule).facts) :
    literal.atom.ground binding ∈ st.facts := by
  rcases mem_insertHeads.mp isFact with old | new
  · exact old
  · -- A new fact of the literal's predicate would have woken the rule.
    by_contra absent
    apply inactive
    refine Finset.mem_filter.mpr ⟨Finset.mem_univ r, List.any_eq_true.mpr ⟨_, new, ?_⟩⟩
    refine Bool.and_eq_true_iff.mpr ⟨decide_eq_true absent, List.any_eq_true.mpr ⟨literal, mem, ?_⟩⟩
    exact Bool.and_eq_true_iff.mpr ⟨positive, beq_self_eq_true _⟩

/-- A rule that is not active next sees no new fact for its literals. -/
theorem agreeOn_next (negationFree : stratum.NegationFree)
    (inv : st.FactInvariant data enumeration base)
    (model : ∀ fact ∈ (st.next data policy schedule).facts, StratumModel data stratum (· ∈ base) fact)
    {r : Fin stratum.length} (inactive : r ∉ (st.next data policy schedule).active) :
    AgreeOn (stratum.get r).rule st.facts (st.next data policy schedule).facts := by
  have grows : ∀ fact ∈ st.facts, fact ∈ (st.next data policy schedule).facts :=
    fun fact mem => mem_insertHeads.mpr (.inl mem)
  have extend := Extends.of_model negationFree (List.get_mem stratum r) inv.contains grows model
  intro literal mem binding
  constructor
  · exact grows _
  · intro isFact
    cases polarity : literal.polarity with
    | false => exact extend.negative literal mem polarity binding isFact
    | true => exact mem_facts_of_idle inactive mem polarity isFact

theorem FactInvariant.model_next (inv : st.FactInvariant data enumeration base)
    (valid : st.ValidSchedule data policy enumeration schedule) :
    (∀ c, ∀ fact ∈ (st.next data policy schedule).buckets.bucket c,
        StratumModel data stratum (· ∈ base) fact) ∧
      ∀ fact ∈ (st.next data policy schedule).facts, StratumModel data stratum (· ∈ base) fact := by
  have queued : ∀ c, ∀ fact ∈ (st.next data policy schedule).buckets.bucket c,
      StratumModel data stratum (· ∈ base) fact := by
    intro c fact mem
    rw [bucket_next] at mem
    rcases mem_bucket_merged mem with old | merged
    · exact inv.queued c fact old
    · exact inv.model_merged valid merged
  refine ⟨queued, fun fact mem => ?_⟩
  rcases (mem_facts_next valid).mp mem with old | new
  · exact inv.model fact old
  · exact queued _ fact new

/-- What is known of a rule after an iteration that processed it. -/
theorem FactInvariant.rule_processed (negationFree : stratum.NegationFree)
    (inv : st.FactInvariant data enumeration base)
    (valid : st.ValidSchedule data policy enumeration schedule)
    (keepsHeads : st.KeepsHeads data policy schedule) {r : Fin stratum.length}
    (active : r ∈ st.active) :
    (st.next data policy schedule).RuleInvariant data enumeration base r := by
  obtain ⟨_, model⟩ := inv.model_next valid
  have grows : ∀ fact ∈ st.facts, fact ∈ (st.next data policy schedule).facts :=
    fun fact mem => mem_insertHeads.mpr (.inl mem)
  have state : (st.next data policy schedule).rules r =
      ⟨some st.facts, (st.output data schedule r).pending⟩ := if_pos active
  have seen : ∀ s ∈ ((st.next data policy schedule).rules r).seen, s = st.facts := by
    intro s mem
    rw [state] at mem
    exact (Option.mem_some.mp mem).symm
  constructor
  · intro fresh
    rw [state] at fresh
    cases fresh
  · intro s mem
    rw [seen s mem, state]
    apply (inv.output valid active).2.2.grow grows
    exact Extends.of_model negationFree (List.get_mem stratum r) inv.contains grows model
  · intro s mem
    rw [seen s mem]
    exact inv.contains
  · intro s mem binding holds
    rw [seen s mem] at holds
    exact reached_next keepsHeads (inv.covered valid active holds)
  · intro inactive s mem
    rw [seen s mem]
    exact agreeOn_next negationFree inv model inactive

/-- What is known of a rule after an iteration in which it was not active. -/
theorem FactInvariant.rule_idle (negationFree : stratum.NegationFree)
    (inv : st.FactInvariant data enumeration base)
    (valid : st.ValidSchedule data policy enumeration schedule)
    (keepsHeads : st.KeepsHeads data policy schedule) {r : Fin stratum.length}
    (inactive : r ∉ st.active) :
    (st.next data policy schedule).RuleInvariant data enumeration base r := by
  obtain ⟨_, model⟩ := inv.model_next valid
  have grows : ∀ fact ∈ st.facts, fact ∈ (st.next data policy schedule).facts :=
    fun fact mem => mem_insertHeads.mpr (.inl mem)
  have rule := inv.rules r
  have state : (st.next data policy schedule).rules r = st.rules r := if_neg inactive
  constructor <;> rw [state]
  · intro fresh
    exact absurd (rule.fresh fresh).2 inactive
  · intro s mem
    have sub : ∀ fact ∈ s, fact ∈ (st.next data policy schedule).facts :=
      fun fact memFact => grows fact ((rule.enumerated s mem).extend.subset fact memFact)
    apply (rule.enumerated s mem).grow grows
    exact Extends.of_model negationFree (List.get_mem stratum r) (rule.contains s mem) sub model
  · exact rule.contains
  · intro s mem binding holds
    exact reached_next keepsHeads (.inl (rule.covered s mem binding holds))
  · intro inactiveNext s mem
    exact (rule.idle inactive s mem).trans (agreeOn_next negationFree inv model inactiveNext)

/-- An iteration whose merges lose no head keeps the invariant. -/
theorem FactInvariant.next (negationFree : stratum.NegationFree)
    (inv : st.FactInvariant data enumeration base)
    (valid : st.ValidSchedule data policy enumeration schedule)
    (keepsHeads : st.KeepsHeads data policy schedule) :
    (st.next data policy schedule).FactInvariant data enumeration base where
  contains := fun fact mem => mem_insertHeads.mpr (.inl (inv.contains fact mem))
  model := (inv.model_next valid).2
  queued := (inv.model_next valid).1
  current := fun _ mem => (mem_facts_next valid).mpr (.inr mem)
  rules := by
    intro r
    by_cases active : r ∈ st.active
    · exact inv.rule_processed negationFree valid keepsHeads active
    · exact inv.rule_idle negationFree valid keepsHeads active

/-- The invariant holds before the first iteration. -/
theorem factInvariant_enter (solve : SolveState) :
    (solve.enter stratum).FactInvariant data enumeration solve.facts where
  contains := fun _ mem => mem
  model := fun _ mem => .base mem
  queued := by
    intro c fact mem
    change fact ∈ solve.buckets.clear.bucket c at mem
    rw [CostBuckets.bucket_clear] at mem
    exact absurd mem (Finset.notMem_empty _)
  current := by
    intro fact mem
    change fact ∈ solve.buckets.clear.bucket _ at mem
    rw [CostBuckets.bucket_clear] at mem
    exact absurd mem (Finset.notMem_empty _)
  rules := fun r => ⟨fun _ => ⟨rfl, Finset.mem_univ r⟩, nofun, nofun, nofun, nofun⟩

/-! ### When the loop returns -/

/-- When no bucket from the current one on has a head left, everything derived is a fact. -/
theorem facts_of_returns (keepsHeads : st.KeepsHeads data policy schedule)
    (done : (st.merged data policy schedule).1.advanceToNextNonempty.1 = false) {fact : Tuple}
    (reached : st.Reached fact ∨ MergedHead schedule fact) : fact ∈ st.facts := by
  obtain ⟨_, _, _, _, empty⟩ := (st.merged data policy schedule).1.advanceToNextNonempty_spec
  rcases keepsHeads fact reached with isFact | ⟨c, later, mem⟩
  · exact isFact
  · rw [empty done c (by rwa [merged_current])] at mem
    exact absurd mem (Finset.notMem_empty _)

/-- Then the facts are closed under the rules. -/
theorem FactInvariant.closed (inv : st.FactInvariant data enumeration base)
    (valid : st.ValidSchedule data policy enumeration schedule)
    (keepsHeads : st.KeepsHeads data policy schedule)
    (done : (st.merged data policy schedule).1.advanceToNextNonempty.1 = false)
    {cws : ConstRuleWorkspace} (memRule : cws ∈ stratum) {binding : List Nat}
    (holds : BodyHolds data cws st.facts binding) : groundHead cws.rule binding ∈ st.facts := by
  obtain ⟨r, rfl⟩ := List.get_of_mem memRule
  apply facts_of_returns keepsHeads done
  by_cases active : r ∈ st.active
  · exact inv.covered valid active holds
  · have rule := inv.rules r
    cases hSeen : (st.rules r).seen with
    | none => exact absurd (rule.fresh hSeen).2 active
    | some s =>
        have before := (rule.idle active s hSeen).bodyHolds.mpr holds
        exact .inl (rule.covered s hSeen binding before)

/-- The facts on return are the model of the stratum. -/
theorem FactInvariant.facts_eq_model (negationFree : stratum.NegationFree)
    (inv : st.FactInvariant data enumeration base)
    (valid : st.ValidSchedule data policy enumeration schedule)
    (keepsHeads : st.KeepsHeads data policy schedule)
    (done : (st.merged data policy schedule).1.advanceToNextNonempty.1 = false) (fact : Tuple) :
    fact ∈ st.facts ↔ StratumModel data stratum (· ∈ base) fact := by
  constructor
  · exact inv.model fact
  · apply StratumModel.subset inv.contains negationFree
    · exact fun fact mem => (inv.model fact mem).base_or_head
    · exact fun cws mem binding holds => inv.closed valid keepsHeads done mem holds

end

end StratumState

end Tyr.Datalog
