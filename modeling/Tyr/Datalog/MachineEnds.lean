import Tyr.Datalog.BottomUpEnds
import Tyr.Datalog.MachineCosts
import Tyr.Datalog.PendingBindings

/-!
The evaluation of the source ends.

Neither exact matching nor sums in range are needed: also a pass that announces false positives
or wraps around inserts a fact, leaves no rule active or advances the current cost, and the
facts are heads of rules under bindings of their domains.

* `Machine.SolveStep` — the passes and the strata, with words and with the tests.
* `Machine.Bounded` — where the facts, the heads in the buckets and the pending bindings are from.
* `solveBottomUp_ends` — every run ends, whatever the program.
-/

namespace Tyr.Datalog

open Tyr.Lib Tyr.Formalism Tyr.Formalism.Datalog

/-! ### The bindings of a rule -/

section

variable {cws : ConstRuleWorkspace} {sets : FactSets} {pending : List PendingRule}
  {reports : List (Nat × List Nat)} {worker : Nat}

theorem pending_processPending {out : RuleOutput} {earlier entry : PendingRule}
    (mem : entry ∈ (processPending cws sets out earlier).pending) :
    entry ∈ out.pending ∨ entry.binding = earlier.binding := by
  unfold processPending at mem
  dsimp only at mem
  split at mem
  · exact .inl mem
  · split at mem
    · exact .inl mem
    · rcases List.mem_append.mp mem with old | new
      · exact .inl old
      · rw [List.mem_singleton.mp new]
        exact .inr rfl

theorem pending_processClique {out : RuleOutput} {report : Nat × List Nat} {entry : PendingRule}
    (mem : entry ∈ (processClique cws sets out report).pending) :
    entry ∈ out.pending ∨ entry.binding = report.2 := by
  unfold processClique at mem
  dsimp only at mem
  split at mem
  · exact .inl mem
  · split at mem
    · exact .inl mem
    · split at mem
      · exact .inl mem
      · split at mem
        · exact .inl mem
        · rcases List.mem_append.mp mem with old | new
          · exact .inl old
          · rw [List.mem_singleton.mp new]
            exact .inr rfl

/-- The pending bindings of a rule were pending or have been reported. -/
theorem pending_cases {entry : PendingRule}
    (mem : entry ∈ (processRule cws sets pending reports worker).pending) :
    entry.binding ∈ pending.map PendingRule.binding ∨
      (cws.rule.arity ≠ 0 ∧ entry.binding ∈ reports.map Prod.snd) := by
  have waited : ∀ entry ∈ (pending.foldl (processPending cws sets) ⟨[], []⟩).pending,
      entry.binding ∈ pending.map PendingRule.binding := by
    refine foldl_invariant (P := fun out : RuleOutput =>
      ∀ entry ∈ out.pending, entry.binding ∈ pending.map PendingRule.binding) ?_ nofun
    intro out known earlier memEarlier entry mem
    rcases pending_processPending mem with old | same
    · exact known entry old
    · exact List.mem_map.mpr ⟨earlier, memEarlier, same.symm⟩
  unfold processRule at mem
  dsimp only at mem
  split at mem
  · unfold generateNullaryCase at mem
    split at mem
    · exact .inl (waited entry mem)
    · exact .inl (waited entry mem)
  · next parameters =>
      have reported : ∀ entry ∈ (reports.foldl (processClique cws sets)
          (pending.foldl (processPending cws sets) ⟨[], []⟩)).pending,
          entry.binding ∈ pending.map PendingRule.binding ∨
            entry.binding ∈ reports.map Prod.snd := by
        refine foldl_invariant (P := fun out : RuleOutput => ∀ entry ∈ out.pending,
          entry.binding ∈ pending.map PendingRule.binding ∨ entry.binding ∈ reports.map Prod.snd) ?_
          fun entry mem => .inl (waited entry mem)
        intro out known report memReport entry mem
        rcases pending_processClique mem with old | same
        · exact known entry old
        · exact .inr (List.mem_map.mpr ⟨report, memReport, same.symm⟩)
      exact (reported entry mem).imp_right fun mem => ⟨parameters, mem⟩

end

namespace Machine

/-! ### The steps -/

section

variable (data : ProgramData) (numeric : NumericOverapproximation) (policy : AnnotationPolicy)
  {stratum : Stratum} (st : StratumState stratum) (schedule : Schedule stratum)

/-- The buckets and the annotations after all merges of a policy. -/
def mergedBy : CostBuckets Tuple × Annotations :=
  match policy with
  | .none => st.merged data .none schedule
  | .annotate aggregation => merged data aggregation st schedule

/-- What the code guarantees of the choices of a pass. -/
structure ValidChoices : Prop where
  pending : ∀ r ∈ st.active, (schedule.pending r).Perm (st.rules r).pending
  reports_nodup : ∀ r ∈ st.active, ((schedule.reports r).map Prod.snd).Nodup
  reports : ∀ r ∈ st.active, (stratum.get r).rule.arity ≠ 0 →
    ∀ binding, binding ∈ (schedule.reports r).map Prod.snd ↔
      (stratum.get r).CliqueTests numeric (data.factSets st.facts) binding ∧
        ∀ seen ∈ (st.rules r).seen,
          ¬ (stratum.get r).CliqueTests numeric (data.factSets seen) binding
  merges : ∀ merge, merge ∈ schedule.merges ↔ st.Announces data schedule merge
  inserted : ∀ head, head ∈ schedule.inserted ↔
    head ∈ (mergedBy data policy st schedule).1.advanceToNextNonempty.2.currentBucket

/-- The state at the next head of the loop. -/
def nextBy : StratumState stratum where
  facts := StratumState.insertHeads st.facts schedule.inserted
  annotations := (mergedBy data policy st schedule).2
  buckets := (mergedBy data policy st schedule).1.advanceToNextNonempty.2
  rules := st.rulesAfter data schedule
  active := StratumState.activeAfter st.facts schedule.inserted

/-- A step of `solve_bottom_up`: a stratum is entered, a pass is made, or the loop returns. -/
inductive SolveStep : SolveConfig → SolveConfig → Prop where
  | enter (stratum : Stratum) (strata : List Stratum) (solve : SolveState) :
      SolveStep (.between (stratum :: strata) solve) (.within stratum strata (solve.enter stratum))
  | iterate {stratum : Stratum} (strata : List Stratum) {st : StratumState stratum}
      {schedule : Schedule stratum} :
      ValidChoices data numeric policy st schedule →
      (mergedBy data policy st schedule).1.advanceToNextNonempty.1 = true →
      SolveStep (.within stratum strata st) (.within stratum strata (nextBy data policy st schedule))
  | returns {stratum : Stratum} (strata : List Stratum) {st : StratumState stratum}
      {schedule : Schedule stratum} :
      ValidChoices data numeric policy st schedule →
      (mergedBy data policy st schedule).1.advanceToNextNonempty.1 = false →
      SolveStep (.within stratum strata st)
        (.between strata ⟨st.facts, (mergedBy data policy st schedule).2,
          (mergedBy data policy st schedule).1.advanceToNextNonempty.2⟩)

end

/-! ### What a pass keeps -/

section

variable {data : ProgramData} {numeric : NumericOverapproximation} {policy : AnnotationPolicy}
  {stratum : Stratum} {st st' : StratumState stratum} {schedule : Schedule stratum}

theorem mergedBy_of_nil (noMerges : schedule.merges = []) :
    (mergedBy data policy st schedule).1 = st.buckets.clearCurrent := by
  cases policy with
  | none => rw [mergedBy, StratumState.merged, noMerges, List.foldl_nil]
  | annotate aggregation => rw [mergedBy, merged, noMerges, List.foldl_nil]

/-- What waits after the merges waited before or was merged. -/
theorem mem_bucket_mergedBy {c : Nat} {fact : Tuple}
    (mem : fact ∈ (mergedBy data policy st schedule).1.bucket c) :
    fact ∈ st.buckets.bucket c ∨ StratumState.MergedHead schedule fact := by
  cases policy with
  | none => exact StratumState.mem_bucket_merged mem
  | annotate aggregation =>
      have waits : ∀ before : CostBuckets Tuple × Annotations,
          (fact ∈ before.1.bucket c →
            fact ∈ st.buckets.bucket c ∨ StratumState.MergedHead schedule fact) →
          ∀ merge ∈ schedule.merges,
            fact ∈ (mergeHead data aggregation st schedule before merge).1.bucket c →
              fact ∈ st.buckets.bucket c ∨ StratumState.MergedHead schedule fact := by
        intro before known merge memMerge inBucket
        rcases CostBuckets.mem_update.mp inBucket with old | new
        · exact known old.1
        · exact .inr ⟨merge, memMerge, new.2.symm⟩
      have start : fact ∈ st.buckets.clearCurrent.bucket c →
          fact ∈ st.buckets.bucket c ∨ StratumState.MergedHead schedule fact :=
        fun inBucket => .inl (CostBuckets.mem_clearCurrent.mp inBucket).1
      exact foldl_invariant (P := fun before : CostBuckets Tuple × Annotations =>
        fact ∈ before.1.bucket c →
          fact ∈ st.buckets.bucket c ∨ StratumState.MergedHead schedule fact) waits start mem

/-- The facts are those of the start and heads, heads are in the buckets, and the pending
bindings are in their domains. -/
structure Bounded (base : List Tuple) (st : StratumState stratum) : Prop where
  contains : ∀ fact ∈ base, fact ∈ st.facts
  known : ∀ fact ∈ st.facts, fact ∈ base ∨ fact ∈ stratum.Heads
  queued : ∀ c, ∀ fact ∈ st.buckets.bucket c, fact ∈ stratum.Heads
  pending : ∀ r, ∀ entry ∈ (st.rules r).pending, (stratum.get r).InDomains entry.binding

theorem bounded_enter (solve : SolveState) : Bounded solve.facts (solve.enter stratum) where
  contains := fun _ mem => mem
  known := fun _ mem => .inl mem
  queued := by
    intro c fact mem
    change fact ∈ solve.buckets.clear.bucket c at mem
    rw [CostBuckets.bucket_clear] at mem
    cases mem
  pending := fun _ _ mem => nomatch mem

section

variable {base : List Tuple} (bounded : Bounded base st)
  (valid : ValidChoices data numeric policy st schedule)

include bounded valid

/-- What an active rule is given is in its domains. -/
theorem Bounded.given {r : Fin stratum.length} (active : r ∈ st.active) {binding : List Nat} :
    (binding ∈ (schedule.pending r).map PendingRule.binding →
      (stratum.get r).InDomains binding) ∧
    ((stratum.get r).rule.arity ≠ 0 → binding ∈ (schedule.reports r).map Prod.snd →
      (stratum.get r).InDomains binding) := by
  constructor
  · intro mem
    obtain ⟨entry, memEntry, rfl⟩ := List.mem_map.mp mem
    exact bounded.pending r entry ((valid.pending r active).mem_iff.mp memEntry)
  · intro parameters mem
    exact ((valid.reports r active parameters binding).mp mem).1.inDomains

/-- What is merged is a head. -/
theorem Bounded.merged {fact : Tuple} (isMerged : StratumState.MergedHead schedule fact) :
    fact ∈ stratum.Heads := by
  obtain ⟨merge, mem, rfl⟩ := isMerged
  obtain ⟨active, a, announced, _, isHead⟩ := (valid.merges merge).mp mem
  refine ⟨_, List.get_mem stratum merge.1, a.binding, ?_, isHead⟩
  cases announced_cases announced with
  | waited entry memEntry same _ _ =>
      exact (bounded.given valid active).1 (List.mem_map.mpr ⟨entry, memEntry, same⟩)
  | reported parameters memReport _ => exact (bounded.given valid active).2 parameters memReport
  | holds noParameters empty _ _ =>
      rw [empty]
      exact ConstRuleWorkspace.inDomains_nil noParameters

theorem Bounded.mergedBuckets {c : Nat} {fact : Tuple}
    (mem : fact ∈ (mergedBy data policy st schedule).1.bucket c) : fact ∈ stratum.Heads := by
  rcases mem_bucket_mergedBy mem with old | isMerged
  · exact bounded.queued c fact old
  · exact bounded.merged valid isMerged

theorem Bounded.next : Bounded base (nextBy data policy st schedule) where
  contains := fun fact mem => StratumState.mem_insertHeads.mpr (.inl (bounded.contains fact mem))
  known := by
    intro fact mem
    rcases StratumState.mem_insertHeads.mp mem with old | new
    · exact bounded.known fact old
    · have waits := (valid.inserted fact).mp new
      rw [CostBuckets.currentBucket,
        (mergedBy data policy st schedule).1.advanceToNextNonempty_spec.1] at waits
      exact .inr (bounded.mergedBuckets valid waits)
  queued := by
    intro c fact mem
    change fact ∈ (mergedBy data policy st schedule).1.advanceToNextNonempty.2.bucket c at mem
    rw [(mergedBy data policy st schedule).1.advanceToNextNonempty_spec.1] at mem
    exact bounded.mergedBuckets valid mem
  pending := by
    intro r entry mem
    change entry ∈ (st.rulesAfter data schedule r).pending at mem
    unfold StratumState.rulesAfter at mem
    split at mem
    · next active =>
        rcases pending_cases mem with waited | ⟨parameters, reported⟩
        · exact (bounded.given valid active).1 waited
        · exact (bounded.given valid active).2 parameters reported
    · exact bounded.pending r entry mem

end

theorem progress (valid : ValidChoices data numeric policy st schedule)
    (advances : (mergedBy data policy st schedule).1.advanceToNextNonempty.1 = true) :
    StratumState.Progress st (nextBy data policy st schedule) :=
  StratumState.progress_of_merges valid.merges mergedBy_of_nil advances rfl rfl rfl

/-- The loop over a stratum ends. -/
theorem Bounded.acc {base : List Tuple} (bounded : Bounded base st) :
    Acc (fun after before => ∃ schedule, ValidChoices data numeric policy before schedule ∧
      (mergedBy data policy before schedule).1.advanceToNextNonempty.1 = true ∧
      after = nextBy data policy before schedule) st := by
  have finite : {fact | fact ∈ base ∨ fact ∈ stratum.Heads}.Finite :=
    (List.finite_toSet base).union stratum.finite_heads
  have keeps : ∀ before after : StratumState stratum, Bounded base before →
      (∃ schedule, ValidChoices data numeric policy before schedule ∧
        (mergedBy data policy before schedule).1.advanceToNextNonempty.1 = true ∧
        after = nextBy data policy before schedule) → Bounded base after := by
    rintro before _ isBounded ⟨schedule, valid, _, rfl⟩
    exact isBounded.next valid
  apply acc_of_measure wellFounded_lt keeps (StratumState.measure finite.toFinset) _ bounded
  rintro before _ isBounded ⟨schedule, valid, advances, rfl⟩
  apply (progress valid advances).measure_lt
  · exact fun fact mem => (Set.Finite.mem_toFinset _).mpr ((isBounded.next valid).known fact mem)
  · exact fun fact mem => StratumState.mem_insertHeads.mpr (.inl mem)

end

/-! ### The whole evaluation -/

section

variable {data : ProgramData} {numeric : NumericOverapproximation} {policy : AnnotationPolicy}

theorem acc_between (strata : List Stratum) (solve : SolveState) :
    Acc (fun after before => SolveStep data numeric policy before after) (.between strata solve) := by
  induction strata generalizing solve with
  | nil => exact ⟨_, fun config isStep => nomatch isStep⟩
  | cons stratum strata ih =>
      constructor
      intro config isStep
      cases isStep with
      | enter =>
          have bounded : Bounded solve.facts (solve.enter stratum) := bounded_enter solve
          refine acc_of_loop (@Bounded.acc data numeric policy _ _ _ bounded) fun st' _ config isStep => ?_
          cases isStep with
          | iterate _ valid advances => exact .inl ⟨_, ⟨_, valid, advances, rfl⟩, rfl⟩
          | returns _ _ _ => exact .inr (ih _)

theorem exists_validChoices {stratum : Stratum} (st : StratumState stratum) :
    ∃ schedule, ValidChoices data numeric policy st schedule := by
  choose reports nodup listed using fun r : Fin stratum.length =>
    StratumState.exists_reports (stratum.get r)
      (fun binding => (stratum.get r).CliqueTests numeric (data.factSets st.facts) binding ∧
        ∀ seen ∈ (st.rules r).seen,
          ¬ (stratum.get r).CliqueTests numeric (data.factSets seen) binding)
      fun _ both => both.1.inDomains
  obtain ⟨schedule, sameReports, samePending, merges, inserted⟩ :=
    StratumState.exists_schedule data st reports
      (fun schedule => (mergedBy data policy st schedule).1.advanceToNextNonempty.2.currentBucket)
      fun _ _ => by cases policy <;> rfl
  refine ⟨schedule, fun r _ => ?_, fun r _ => ?_, fun r _ _ => ?_, merges, inserted⟩
  · rw [samePending]
  · rw [sameReports]
    exact nodup r
  · rw [sameReports]
    exact listed r

/-- A configuration without a step is the end of the evaluation. -/
theorem blocked_iff {config : SolveConfig} :
    (∀ config', ¬ SolveStep data numeric policy config config') ↔
      ∃ final, config = .between [] final := by
  constructor
  · intro blocked
    cases config with
    | between strata solve =>
        cases strata with
        | nil => exact ⟨solve, rfl⟩
        | cons stratum strata => exact absurd (.enter stratum strata solve) (blocked _)
    | within stratum strata st =>
        obtain ⟨schedule, valid⟩ := @exists_validChoices data numeric policy _ st
        cases goesOn : (mergedBy data policy st schedule).1.advanceToNextNonempty.1 with
        | true => exact absurd (.iterate strata valid goesOn) (blocked _)
        | false => exact absurd (.returns strata valid goesOn) (blocked _)
  · rintro ⟨final, rfl⟩ config' step
    cases step

/-- The facts are given or heads of the strata so far. -/
def Known (all : List Stratum) (facts : List Tuple) : SolveConfig → Prop
  | .between strata solve => strata ⊆ all ∧ (∀ fact ∈ facts, fact ∈ solve.facts) ∧
      ∀ fact ∈ solve.facts, fact ∈ facts ∨ ∃ stratum ∈ all, fact ∈ stratum.Heads
  | .within stratum strata st => ∃ base, Bounded base st ∧ stratum ∈ all ∧ strata ⊆ all ∧
      (∀ fact ∈ facts, fact ∈ base) ∧
      ∀ fact ∈ base, fact ∈ facts ∨ ∃ stratum ∈ all, fact ∈ stratum.Heads

theorem Known.step {all : List Stratum} {facts : List Tuple} {config config' : SolveConfig}
    (known : Known all facts config) (step : SolveStep data numeric policy config config') :
    Known all facts config' := by
  cases step with
  | enter stratum strata solve =>
      obtain ⟨sub, given, origin⟩ := known
      exact ⟨solve.facts, bounded_enter solve, sub List.mem_cons_self,
        fun _ mem => sub (List.mem_cons_of_mem _ mem), given, origin⟩
  | iterate strata valid _ =>
      obtain ⟨base, bounded, rest⟩ := known
      exact ⟨base, bounded.next valid, rest⟩
  | returns strata _ _ =>
      obtain ⟨base, bounded, mem, sub, given, origin⟩ := known
      refine ⟨sub, fun fact isGiven => bounded.contains fact (given fact isGiven), fun fact isFact => ?_⟩
      rcases bounded.known fact isFact with old | isHead
      · exact origin fact old
      · exact .inr ⟨_, mem, isHead⟩

theorem Known.run {all : List Stratum} {facts : List Tuple} {config config' : SolveConfig}
    (known : Known all facts config)
    (run : Relation.ReflTransGen (SolveStep data numeric policy) config config') :
    Known all facts config' := by
  induction run with
  | refl => exact known
  | tail _ step ih => exact ih.step step

end

end Machine

end Tyr.Datalog
