import Tyr.Datalog.MachineCosts

/-!
The costs of a run of the source.

The reports of a rule are the bindings that pass its tests, and the costs are words.
While no sum wraps around and the tests are right, the passes of the loop are passes
with unbounded costs and exact matching, so that the annotations end as least costs.

* `Machine.ExactPass` — the tests of the active rules are right on the current facts.
* `Machine.SolvesStratum` — a run of the loop over one stratum.
* `solveBottomUp_leastCosts` — the costs after a run whose passes are exact.
* `repeatedVariable_not_leastCosts` — a run whose pass is not.
-/

namespace Tyr.Datalog

open Tyr.Lib Tyr.Formalism Tyr.Formalism.Datalog

namespace Machine

section

variable (data : ProgramData) (numeric : NumericOverapproximation) (aggregation : Aggregation)
  {stratum : Stratum}

/-- No binding that passes the tests of an active rule is a false positive: it satisfies the
literals and constraints that are not checked later. And the tests miss no binding whose body
holds. -/
structure ExactPass (st : StratumState stratum) : Prop where
  noFalsePositive : ∀ r ∈ st.active, (stratum.get r).rule.arity ≠ 0 → ∀ binding,
    (stratum.get r).CliqueTests numeric (data.factSets st.facts) binding →
      EnumeratedPart data (stratum.get r) st.facts binding
  complete : ∀ r ∈ st.active, (stratum.get r).rule.arity ≠ 0 → ∀ binding,
    BodyHolds data (stratum.get r) st.facts binding →
      (stratum.get r).CliqueTests numeric (data.factSets st.facts) binding

/-- One pass through the loop that continues, in which no sum wraps around. -/
def Iterates (st st' : StratumState stratum) : Prop :=
  ∃ schedule, ValidSchedule data numeric aggregation st schedule ∧
    InRange data aggregation st schedule ∧
    (merged data aggregation st schedule).1.advanceToNextNonempty.1 = true ∧
    st' = next data aggregation st schedule

/-- One pass through the loop that returns, in which no sum wraps around. -/
def Returns (st : StratumState stratum) (annotations : Annotations) (buckets : CostBuckets Tuple) :
    Prop :=
  ∃ schedule, ValidSchedule data numeric aggregation st schedule ∧
    InRange data aggregation st schedule ∧
    (merged data aggregation st schedule).1.advanceToNextNonempty.1 = false ∧
    annotations = (merged data aggregation st schedule).2 ∧
    buckets = (merged data aggregation st schedule).1.advanceToNextNonempty.2

/-- `solve_bottom_up` gets from the facts to the head of a loop; the condition holds before
each pass. -/
def Reaches (condition : StratumState stratum → Prop) (facts : List Tuple)
    (st : StratumState stratum) : Prop :=
  Relation.ReflTransGen (fun st st' => condition st ∧ Iterates data numeric aggregation st st')
    ((SolveState.initial facts).enter stratum) st

/-- `solve_bottom_up` of a program with one stratum; the condition holds before each pass. -/
def SolvesStratum (stratum : Stratum) (condition : StratumState stratum → Prop) (facts : List Tuple)
    (final : SolveState) : Prop :=
  ∃ st, Reaches data numeric aggregation condition facts st ∧ condition st ∧
    Returns data numeric aggregation st final.annotations final.buckets ∧ final.facts = st.facts

end

section

variable {data : ProgramData} {numeric : NumericOverapproximation} {aggregation : Aggregation}
  {stratum : Stratum} {st st' : StratumState stratum} {facts : List Tuple} {final : SolveState}

theorem ExactPass.nowExact (exact : ExactPass data numeric st) : NowExact data numeric st := by
  intro r active parameters binding
  constructor
  · rintro ⟨_, tests | holds, _⟩
    · exact tests
    · exact exact.complete r active parameters binding holds
  · intro tests
    exact ⟨tests.inDomains, .inl tests, exact.noFalsePositive r active parameters binding tests⟩

/-- An exact pass is one of unbounded costs and exact matching. -/
theorem Iterates.unbounded (exact : ExactPass data numeric st) (seen : SeenExact data numeric st)
    (iterates : Iterates data numeric aggregation st st') :
    st.Iterates data (.annotate aggregation) (reportedEnumeration data numeric) st' ∧
      SeenExact data numeric st' := by
  obtain ⟨schedule, valid, inRange, advances, rfl⟩ := iterates
  have active : ∀ merge ∈ schedule.merges, merge.1 ∈ st.active :=
    fun merge mem => ((valid.merges merge).mp mem).1
  refine ⟨⟨schedule, valid.unbounded seen exact.nowExact inRange, ?_, inRange.next active⟩,
    seen.next exact.nowExact⟩
  rw [← inRange.merged active]
  exact advances

theorem Returns.unbounded {annotations : Annotations} {buckets : CostBuckets Tuple}
    (exact : ExactPass data numeric st) (seen : SeenExact data numeric st)
    (returns : Returns data numeric aggregation st annotations buckets) :
    st.Returns data (.annotate aggregation) (reportedEnumeration data numeric) annotations buckets := by
  obtain ⟨schedule, valid, inRange, done, rfl, rfl⟩ := returns
  have active : ∀ merge ∈ schedule.merges, merge.1 ∈ st.active :=
    fun merge mem => ((valid.merges merge).mp mem).1
  rw [inRange.merged active] at done ⊢
  exact ⟨schedule, valid.unbounded seen exact.nowExact inRange, done, rfl, rfl⟩

/-- A run of exact passes is one of unbounded costs and exact matching. -/
theorem unbounded_run (seen : SeenExact data numeric st)
    (run : Relation.ReflTransGen
      (fun st st' => ExactPass data numeric st ∧ Iterates data numeric aggregation st st') st st') :
    Relation.ReflTransGen
        (StratumState.Iterates data (.annotate aggregation) (reportedEnumeration data numeric)) st st' ∧
      SeenExact data numeric st' := by
  induction run with
  | refl => exact ⟨.refl, seen⟩
  | tail _ step ih =>
      obtain ⟨unbounded, seen⟩ := step.2.unbounded step.1 ih.2
      exact ⟨ih.1.tail unbounded, seen⟩

theorem seenExact_enter : SeenExact data numeric ((SolveState.initial facts).enter stratum) := by
  intro r _ seen mem
  cases mem

theorem SolvesStratum.unbounded
    (solves : SolvesStratum data numeric aggregation stratum (ExactPass data numeric) facts final) :
    SolvesStrata data (.annotate aggregation) (reportedEnumeration data numeric) [stratum]
      (SolveState.initial facts) final := by
  obtain ⟨st, run, exact, returns, same⟩ := solves
  obtain ⟨unbounded, seen⟩ := unbounded_run seenExact_enter run
  exact .cons ⟨st, unbounded, returns.unbounded exact seen, same⟩ (.nil _)

end

end Machine

/-- A program of one stratum gets the least derivation costs, for both aggregations, every order
of the rules and every schedule, if the tests are right in each pass; in each state on the way
the facts already have their final costs. -/
theorem solveBottomUp_leastCosts (data : ProgramData) (numeric : NumericOverapproximation)
    (aggregation : Aggregation) (stratum : Stratum) (facts : List Tuple) (final : SolveState)
    (stratified : Stratified [stratum])
    (solves : Machine.SolvesStratum data numeric aggregation stratum (Machine.ExactPass data numeric)
      facts final) :
    LeastAnnotations data aggregation stratum facts final ∧
      (∀ st last : StratumState stratum,
        Machine.Reaches data numeric aggregation (Machine.ExactPass data numeric) facts st →
          Relation.ReflTransGen (fun st st' => Machine.ExactPass data numeric st ∧
            Machine.Iterates data numeric aggregation st st') st last →
          Machine.ExactPass data numeric last →
          Machine.Returns data numeric aggregation last final.annotations final.buckets →
          final.facts = last.facts →
            st.facts <+: final.facts ∧ ∀ fact ∈ st.facts,
              st.annotations.orAnnot fact = final.annotations.orAnnot fact) ∧
      ∀ (stratum' : Stratum) (numeric' : NumericOverapproximation) (final' : SolveState),
        stratum'.Perm stratum →
          Machine.SolvesStratum data numeric' aggregation stratum' (Machine.ExactPass data numeric')
            facts final' →
          final'.annotations.orAnnot = final.annotations.orAnnot ∧
            ∀ fact, fact ∈ final'.facts ↔ fact ∈ final.facts := by
  have negationFree := stratified.negationFree stratum List.mem_cons_self
  have free : ∀ fact ∈ facts, (SolveState.initial facts).annotations.orAnnot fact = 0 :=
    fun _ mem => if_pos mem
  refine ⟨solves.unbounded.leastAnnotations stratified, fun st last before after exact returns same => ?_,
    fun stratum' numeric' final' perm solves' => ?_⟩
  · obtain ⟨runBefore, seen⟩ := Machine.unbounded_run Machine.seenExact_enter before
    obtain ⟨runAfter, seenLast⟩ := Machine.unbounded_run seen after
    have inv := (StratumState.annotationInvariant_enter (reportedEnumeration data numeric) stratum
      facts).run negationFree free runBefore
    obtain ⟨initial, unchanged⟩ := inv.settled negationFree free runAfter
    have invLast := inv.run negationFree free runAfter
    obtain ⟨schedule, valid, _, sameAnnotations, _⟩ := returns.unbounded exact seenLast
    rw [same, sameAnnotations]
    refine ⟨initial, fun fact mem => ?_⟩
    have settled := (invLast.costs.mergedCosts invLast.facts valid).settled
    rw [settled fact (initial.subset mem), unchanged fact mem]
  · have stratified' : Stratified [stratum'] := by
      refine ⟨fun s mem => ?_, List.pairwise_singleton _ _⟩
      cases List.mem_singleton.mp mem
      exact fun cws memRule cws' memRule' =>
        negationFree cws (perm.mem_iff.mp memRule) cws' (perm.mem_iff.mp memRule')
    exact (solves.unbounded.leastAnnotations stratified).unique
      (solves'.unbounded.leastAnnotations stratified') perm

/-! ### A run of exact passes -/

/-- The facts before the passes that match the rule. -/
abbrev markedFacts : List (List Tuple) := [markedStart.facts, markedWaiting.facts]

theorem listed_of_mem {fluent : List Tuple} (mem : fluent ∈ markedFacts) : ⟨2, [0]⟩ ∈ fluent := by
  rcases List.mem_pair.mp mem with rfl | rfl <;> decide

/-- Before `reached` is a fact, the rule is matched already. -/
theorem cliqueTests_markedRule {fluent : List Tuple} (mem : fluent ∈ markedFacts)
    {binding : List Nat} :
    markedRule.CliqueTests noNumeric (noData.factSets fluent) binding ↔ binding = [0] := by
  constructor
  · exact fun tests => inDomains_markedRule.mp tests.inDomains
  · rintro rfl
    have inDomains := inDomains_markedRule.mpr rfl
    refine ⟨inDomains, fun kind p inRange _ => ?_, fun kind p q before inRange => ?_,
      fun _ _ _ constraint memConstraint => ?_, fun _ _ _ _ _ _ constraint memConstraint => ?_⟩
    · obtain rfl : p = 0 := Nat.lt_one_iff.mp inRange
      rcases List.mem_pair.mp mem with rfl | rfl <;> cases kind <;> decide
    · have inRange : q < 1 := inRange
      omega
    · cases List.mem_of_mem_filter memConstraint
    · cases List.mem_of_mem_filter memConstraint

theorem marked_exactPass {st : StratumState markedStratum} (mem : st.facts ∈ markedFacts) :
    Machine.ExactPass noData noNumeric st where
  noFalsePositive := by
    intro r _ parameters binding tests
    rcases markedStratum_cases r with rfl | rfl
    · exact absurd rfl parameters
    · have candidate := (candidate_markedRule (listed_of_mem mem)).mpr
        (inDomains_markedRule.mp tests.inDomains)
      exact ⟨candidate.2.1, candidate.2.2⟩
  complete := by
    intro r _ parameters binding holds
    rcases markedStratum_cases r with rfl | rfl
    · exact absurd rfl parameters
    · exact (cliqueTests_markedRule mem).mpr (inDomains_markedRule.mp holds.1)

theorem markedFirst_inRange : Machine.InRange noData .sum markedStart markedFirst where
  current := by
    intro r _
    rcases markedStratum_cases r with rfl | rfl <;> decide
  announced := by
    intro r _ a mem
    rw [markedFirst_announced] at mem
    rcases markedStratum_cases r with rfl | rfl
    · obtain rfl : a = ⟨0, []⟩ := List.mem_singleton.mp mem
      decide
    · cases mem

theorem markedSecond_inRange : Machine.InRange noData .sum markedWaiting markedSecond where
  current := by
    intro r _
    rcases markedStratum_cases r with rfl | rfl <;> decide
  announced := by
    intro r active a mem
    obtain rfl := markedWaiting_active active
    rw [markedSecond_announced] at mem
    obtain rfl : a = ⟨0, [0]⟩ := List.mem_singleton.mp mem
    decide

/-- After the second pass no rule is active. -/
theorem markedDone_idle {r : Fin markedStratum.length} : r ∉ markedDone.active := by
  have idle : markedDone.active = ∅ := by decide
  rw [idle]
  exact Finset.notMem_empty r

theorem markedLast_inRange : Machine.InRange noData .sum markedDone markedLast where
  current := fun _ active => absurd active markedDone_idle
  announced := fun _ active => absurd active markedDone_idle

/-- The bindings reported in the first two passes are those that pass the tests. -/
theorem marked_reports {st : StratumState markedStratum} {schedule : Schedule markedStratum}
    (valid : st.ValidSchedule noData (.annotate .sum) (.exact noData) schedule)
    (mem : st.facts ∈ markedFacts) (seen : ∀ r, ∀ seen ∈ (st.rules r).seen, seen ∈ markedFacts)
    (inRange : Machine.InRange noData .sum st schedule) :
    Machine.ValidSchedule noData noNumeric .sum st schedule where
  pending := valid.pending
  reports_nodup := valid.reports_nodup
  reports := by
    intro r active parameters binding
    rw [valid.reports r active parameters binding]
    rcases markedStratum_cases r with rfl | rfl
    · exact absurd rfl parameters
    · have same : ∀ {fluent}, fluent ∈ markedFacts →
          ((CliqueEnumeration.exact noData).candidate markedRule fluent binding ↔
            markedRule.CliqueTests noNumeric (noData.factSets fluent) binding) :=
        fun mem => (candidate_markedRule (listed_of_mem mem)).trans (cliqueTests_markedRule mem).symm
      exact and_congr (same mem) (forall₂_congr fun s isSeen => not_congr (same (seen 1 s isSeen)))
  merges := valid.merges
  inserted := by
    rw [inRange.merged fun merge isMerge => ((valid.merges merge).mp isMerge).1]
    exact valid.inserted

theorem markedLast_reported :
    Machine.ValidSchedule noData noNumeric .sum markedDone markedLast where
  pending := fun _ active => absurd active markedDone_idle
  reports_nodup := fun _ active => absurd active markedDone_idle
  reports := fun _ active => absurd active markedDone_idle
  merges := markedLast_valid.merges
  inserted := by
    rw [markedLast_inRange.merged fun merge isMerge => nomatch isMerge]
    exact markedLast_valid.inserted

theorem marked_solvesStratum : Machine.SolvesStratum noData noNumeric .sum markedStratum
    (Machine.ExactPass noData noNumeric) [⟨0, []⟩, ⟨2, [0]⟩] markedFinal := by
  have startMem : markedStart.facts ∈ markedFacts := List.mem_cons_self
  have waitingMem : markedWaiting.facts ∈ markedFacts := List.mem_cons_of_mem _ List.mem_cons_self
  have seenStart : ∀ r, ∀ seen ∈ (markedStart.rules r).seen, seen ∈ markedFacts := nofun
  have seenWaiting : ∀ r, ∀ seen ∈ (markedWaiting.rules r).seen, seen ∈ markedFacts := by
    intro r seen isSeen
    rcases markedStratum_cases r with rfl | rfl <;>
    · obtain rfl := Option.mem_some.mp isSeen
      exact startMem
  have first : Machine.Iterates noData noNumeric .sum markedStart markedWaiting :=
    ⟨markedFirst, marked_reports markedFirst_valid startMem seenStart markedFirst_inRange,
      markedFirst_inRange, by decide,
      (markedFirst_inRange.next fun merge mem => ((markedFirst_valid.merges merge).mp mem).1).symm⟩
  have second : Machine.Iterates noData noNumeric .sum markedWaiting markedDone :=
    ⟨markedSecond, marked_reports markedSecond_valid waitingMem seenWaiting markedSecond_inRange,
      markedSecond_inRange, by decide,
      (markedSecond_inRange.next fun merge mem => ((markedSecond_valid.merges merge).mp mem).1).symm⟩
  have same := markedLast_inRange.merged fun merge mem => nomatch mem
  refine ⟨markedDone, ?_, ?_, ⟨markedLast, markedLast_reported, markedLast_inRange, by decide, ?_, ?_⟩,
    rfl⟩
  · exact .tail (.single ⟨marked_exactPass startMem, first⟩) ⟨marked_exactPass waitingMem, second⟩
  · exact ⟨fun _ active => absurd active markedDone_idle, fun _ active => absurd active markedDone_idle⟩
  · rw [same]
    rfl
  · rw [same]
    rfl

theorem solveBottomUp_leastCosts_marked :
    LeastAnnotations noData .sum markedStratum [⟨0, []⟩, ⟨2, [0]⟩] markedFinal ∧
      markedFinal.annotations.orAnnot ⟨3, [0]⟩ = 3 :=
  ⟨(solveBottomUp_leastCosts noData noNumeric .sum markedStratum [⟨0, []⟩, ⟨2, [0]⟩] markedFinal
    marked_stratified marked_solvesStratum).1, by decide⟩

/-! ### A run with a false positive -/

/-- The facts `p(0, 1)` and `p(1, 0)`, for the rule `h(x, y) :- p(x, x)`. -/
def crossedPairs : ProgramData := ⟨[⟨0, [0, 1]⟩, ⟨0, [1, 0]⟩], fun _ _ => .nan⟩

theorem cliqueTests_crossedPairs {binding : List Nat} :
    repeatedVariable.CliqueTests noNumeric (crossedPairs.factSets []) binding ↔
      binding ∈ [[0, 0], [1, 0]] := by
  constructor
  · intro tests
    obtain ⟨length, inDomains⟩ := tests.inDomains
    obtain ⟨x, y, rfl⟩ := List.length_eq_two.mp length
    have first : x ∈ [0, 1] := inDomains 0 Nat.zero_lt_two
    have second : y ∈ [0] := inDomains 1 Nat.one_lt_two
    obtain rfl := List.mem_singleton.mp second
    rcases List.mem_pair.mp first with rfl | rfl <;> decide
  · intro mem
    have positions : ∀ {p : Nat}, p < 2 → p = 0 ∨ p = 1 := by omega
    refine ⟨⟨?_, fun p inRange => ?_⟩, fun kind p inRange _ => ?_, fun kind p q before inRange _ => ?_,
      fun _ _ _ constraint memConstraint => ?_, fun _ _ _ _ _ _ constraint memConstraint => ?_⟩
    · rcases List.mem_pair.mp mem with rfl | rfl <;> rfl
    · rcases List.mem_pair.mp mem with rfl | rfl <;>
        rcases positions inRange with rfl | rfl <;> decide
    · rcases List.mem_pair.mp mem with rfl | rfl <;>
        rcases positions inRange with rfl | rfl <;> cases kind <;> decide +kernel
    · obtain ⟨rfl, rfl⟩ : p = 0 ∧ q = 1 := by
        have inRange : q < 2 := inRange
        omega
      rcases List.mem_pair.mp mem with rfl | rfl <;> cases kind <;> decide +kernel
    · cases List.mem_of_mem_filter memConstraint
    · cases List.mem_of_mem_filter memConstraint

theorem repeated_only (r : Fin [repeatedVariable].length) : r = 0 := Subsingleton.elim (α := Fin 1) r 0

def repeatedStart : StratumState [repeatedVariable] := (SolveState.initial []).enter [repeatedVariable]

/-- The pass that derives the head at both objects. -/
def repeatedFirst : Schedule [repeatedVariable] where
  pending := fun _ => []
  reports := fun _ => [(0, [0, 0]), (0, [1, 0])]
  nullaryWorker := fun _ => 0
  merges := [(0, 0, ⟨0, [0, 0]⟩), (0, 0, ⟨0, [1, 0]⟩)]
  inserted := [⟨0, [0, 0]⟩, ⟨0, [1, 0]⟩]

theorem repeatedFirst_announced (r : Fin [repeatedVariable].length) :
    (repeatedStart.output crossedPairs repeatedFirst r).announced = [⟨0, [0, 0]⟩, ⟨0, [1, 0]⟩] := by
  rw [repeated_only r]
  rfl

theorem repeatedFirst_valid :
    Machine.ValidSchedule crossedPairs noNumeric .sum repeatedStart repeatedFirst where
  pending := fun _ _ => List.Perm.refl _
  reports_nodup := by
    intro r _
    change [[0, 0], [1, 0]].Nodup
    decide
  reports := by
    intro r _ _ binding
    obtain rfl := repeated_only r
    exact cliqueTests_crossedPairs.symm.trans (and_iff_left nofun).symm
  merges := by
    rintro ⟨r, worker, head⟩
    unfold StratumState.Announces
    rw [repeatedFirst_announced]
    obtain rfl := repeated_only r
    constructor
    · intro mem
      rcases List.mem_pair.mp mem with same | same
      · cases same
        exact ⟨Finset.mem_univ _, ⟨0, [0, 0]⟩, List.mem_cons_self, rfl, rfl⟩
      · cases same
        exact ⟨Finset.mem_univ _, ⟨0, [1, 0]⟩, List.mem_cons_of_mem _ List.mem_cons_self, rfl, rfl⟩
    · rintro ⟨_, a, mem, sameWorker, sameHead⟩
      rcases List.mem_pair.mp mem with rfl | rfl
      · obtain rfl : worker = 0 := sameWorker.symm
        obtain rfl : head = ⟨0, [0, 0]⟩ := sameHead.symm
        exact List.mem_cons_self
      · obtain rfl : worker = 0 := sameWorker.symm
        obtain rfl : head = ⟨0, [1, 0]⟩ := sameHead.symm
        exact List.mem_cons_of_mem _ List.mem_cons_self
  inserted := by
    have waiting : (Machine.merged crossedPairs .sum repeatedStart
        repeatedFirst).1.advanceToNextNonempty.2.currentBucket = {⟨0, [0, 0]⟩, ⟨0, [1, 0]⟩} := by decide
    intro head
    rw [waiting, Finset.mem_insert, Finset.mem_singleton]
    exact List.mem_pair

theorem repeatedFirst_inRange : Machine.InRange crossedPairs .sum repeatedStart repeatedFirst where
  current := by
    intro r _
    rw [repeated_only r]
    decide
  announced := by
    intro r _ a mem
    rw [repeatedFirst_announced] at mem
    obtain rfl := repeated_only r
    rcases List.mem_pair.mp mem with rfl | rfl <;> decide

def repeatedDone : StratumState [repeatedVariable] :=
  Machine.next crossedPairs .sum repeatedStart repeatedFirst

theorem repeatedDone_idle {r : Fin [repeatedVariable].length} : r ∉ repeatedDone.active := by
  have idle : repeatedDone.active = ∅ := by decide
  rw [idle]
  exact Finset.notMem_empty r

/-- The pass that finds nothing to do. -/
def repeatedLast : Schedule [repeatedVariable] where
  pending := fun _ => []
  reports := fun _ => []
  nullaryWorker := fun _ => 0
  merges := []
  inserted := []

theorem repeatedLast_valid :
    Machine.ValidSchedule crossedPairs noNumeric .sum repeatedDone repeatedLast where
  pending := fun _ active => absurd active repeatedDone_idle
  reports_nodup := fun _ active => absurd active repeatedDone_idle
  reports := fun _ active => absurd active repeatedDone_idle
  merges := fun _ => iff_of_false List.not_mem_nil fun announces => repeatedDone_idle announces.1
  inserted := by
    have waiting : (Machine.merged crossedPairs .sum repeatedDone
        repeatedLast).1.advanceToNextNonempty.2.currentBucket = ∅ := by decide
    intro head
    rw [waiting]
    exact iff_of_false List.not_mem_nil (Finset.notMem_empty head)

/-- What the run returns. -/
def repeatedFinal : SolveState where
  facts := repeatedDone.facts
  annotations := (Machine.merged crossedPairs .sum repeatedDone repeatedLast).2
  buckets := (Machine.merged crossedPairs .sum repeatedDone repeatedLast).1.advanceToNextNonempty.2

theorem repeated_solvesStratum : Machine.SolvesStratum crossedPairs noNumeric .sum [repeatedVariable]
    (fun _ => True) [] repeatedFinal := by
  have first : Machine.Iterates crossedPairs noNumeric .sum repeatedStart repeatedDone :=
    ⟨repeatedFirst, repeatedFirst_valid, repeatedFirst_inRange, by decide, rfl⟩
  refine ⟨repeatedDone, .single ⟨trivial, first⟩, trivial, ⟨repeatedLast, repeatedLast_valid, ?_,
    by decide, rfl, rfl⟩, rfl⟩
  exact ⟨fun _ active => absurd active repeatedDone_idle, fun _ active => absurd active repeatedDone_idle⟩

theorem repeated_stratified : Stratified [[repeatedVariable]] where
  negationFree := by
    intro stratum mem cws memRule _ _ literal memLiteral
    cases List.mem_singleton.mp mem
    cases List.mem_singleton.mp memRule
    cases memLiteral
  ordered := List.pairwise_singleton _ _

/-- The head `h(0, 0)` gets a cost, although `p(0, 0)` is no fact. -/
theorem repeatedVariable_not_leastCosts :
    ¬ ∀ (data : ProgramData) (numeric : NumericOverapproximation) (aggregation : Aggregation)
      (stratum : Stratum) (facts : List Tuple) (final : SolveState), Stratified [stratum] →
        Machine.SolvesStratum data numeric aggregation stratum (fun _ => True) facts final →
          LeastAnnotations data aggregation stratum facts final := by
  intro claim
  have least := claim crossedPairs noNumeric .sum [repeatedVariable] [] repeatedFinal
    repeated_stratified repeated_solvesStratum
  obtain ⟨⟨cws, memRule, binding, holds, _, _⟩, _⟩ :=
    least.minimum ⟨0, [0, 0]⟩ (by decide) List.not_mem_nil
  obtain rfl := List.mem_singleton.mp memRule
  obtain ⟨⟨length, inDomains⟩, literals, _⟩ := bodyHolds_iff.mp holds
  obtain ⟨x, y, rfl⟩ := List.length_eq_two.mp length
  have first : x ∈ [0, 1] := inDomains 0 Nat.zero_lt_two
  have second : y ∈ [0] := inDomains 1 Nat.one_lt_two
  obtain rfl := List.mem_singleton.mp second
  have inBody : (⟨⟨0, [.parameter 0, .parameter 0]⟩, true⟩ : Literal) ∈
      repeatedVariable.rule.body.literals .static := List.mem_cons_self
  have isFact := (FactSets.isValidBinding_iff.mp (literals .static _ inBody)).mpr rfl
  rcases List.mem_pair.mp first with rfl | rfl <;> exact absurd isFact (by decide)

end Tyr.Datalog
