import Tyr.Datalog.LeastCosts
import Tyr.Datalog.RuleMatching

/-!
Bottom-up evaluation with the costs of the source and its clique tests.

Costs are 32-bit words, the greatest one stands for no cost, and sums wrap around.
The bindings that a rule reports are those that pass the tests of its graph, which
may fail on a weak literal.

* `Machine.ValidSchedule`, `Machine.next` — an iteration.
* `reportedEnumeration` — the bindings that pass the tests and fail on nothing that
  is not checked later.
* `Machine.validSchedule` — without false positives and wrapping, an iteration is one
  of unbounded costs and exact matching.
-/

namespace Tyr.Datalog

open Tyr.Lib Tyr.Formalism Tyr.Formalism.Datalog

/-! ### Words -/

/-- The greatest word. -/
def maxCost : Nat := 2 ^ 32 - 1

namespace Cost

def toWord (c : Cost) : Nat := c.untopD maxCost

def ofWord (word : Nat) : Cost := if word = maxCost then ⊤ else word

/-- The sum of two words. -/
def wrapAdd (c d : Cost) : Cost := ofWord ((c.toWord + d.toWord) % 2 ^ 32)

theorem wrapAdd_eq {c d : Cost} (inRange : c + d < maxCost) : c.wrapAdd d = c + d := by
  have leftFinite : c ≠ ⊤ := ne_top_of_le_ne_top (ne_top_of_lt inRange) le_self_add
  have rightFinite : d ≠ ⊤ := ne_top_of_le_ne_top (ne_top_of_lt inRange) le_add_self
  lift c to Nat using leftFinite
  lift d to Nat using rightFinite
  have small : c + d < maxCost := WithTop.coe_lt_coe.mp inRange
  have noWrap : (c + d) % 2 ^ 32 = c + d := by
    apply Nat.mod_eq_of_lt
    unfold maxCost at small
    omega
  change ofWord ((c + d) % 2 ^ 32) = ((c + d : Nat) : Cost)
  rw [noWrap, ofWord, if_neg small.ne]

end Cost

def Aggregation.wrapApply : Aggregation → Cost → Cost → Cost
  | sum, acc, x => acc.wrapAdd x
  | max, acc, x => Max.max acc x

theorem Aggregation.wrapApply_eq (aggregation : Aggregation) {acc x : Cost}
    (inRange : aggregation.apply acc x < maxCost) :
    aggregation.wrapApply acc x = aggregation.apply acc x := by
  cases aggregation with
  | sum => exact Cost.wrapAdd_eq inRange
  | max => rfl

namespace Machine

/-! ### Witnesses -/

/-- `try_ground_better_witness`. -/
def tryBetterCost (aggregation : Aggregation) (best ruleCost : Cost) : List Cost → Cost → Option Cost
  | [], bodyCost =>
      if best ≤ bodyCost.wrapAdd ruleCost then none else some (bodyCost.wrapAdd ruleCost)
  | cost :: costs, bodyCost =>
      if best ≤ bodyCost.wrapAdd ruleCost then none
      else tryBetterCost aggregation best ruleCost costs (aggregation.wrapApply bodyCost cost)

/-- `AndAnnotationPolicy::update_annotation`. -/
def updateAndAnnot (aggregation : Aggregation) (currentCost : Nat) (rule : Rule)
    (orAnnot : Tuple → Cost) (witnesses : Tuple → Option Witness) (binding : List Nat) :
    Tuple → Option Witness :=
  let head := groundHead rule binding
  let best := min (orAnnot head) (witnessCost (witnesses head))
  if best ≤ Cost.wrapAdd currentCost rule.cost then witnesses
  else
    match tryBetterCost aggregation best rule.cost ((witnessFacts rule binding).map orAnnot) 0 with
    | none => witnesses
    | some cost => Function.update witnesses head (some ⟨rule, binding, cost⟩)

theorem tryBetterCost_eq (aggregation : Aggregation) (best : Cost) {ruleCost : Cost}
    {costs : List Cost} {bodyCost : Cost}
    (inRange : aggregation.applyAll costs bodyCost + ruleCost < maxCost) :
    tryBetterCost aggregation best ruleCost costs bodyCost =
      Datalog.tryBetterCost aggregation best ruleCost costs bodyCost := by
  induction costs generalizing bodyCost with
  | nil =>
      have sum : bodyCost.wrapAdd ruleCost = bodyCost + ruleCost := Cost.wrapAdd_eq inRange
      rw [tryBetterCost, Datalog.tryBetterCost, sum]
  | cons cost costs ih =>
      have grows : bodyCost + ruleCost ≤ aggregation.applyAll (cost :: costs) bodyCost + ruleCost :=
        add_le_add_left (aggregation.le_applyAll _ _) _
      have sum : bodyCost.wrapAdd ruleCost = bodyCost + ruleCost :=
        Cost.wrapAdd_eq (grows.trans_lt inRange)
      have partialCost : aggregation.apply bodyCost cost < maxCost :=
        ((aggregation.le_applyAll costs _).trans le_self_add).trans_lt inRange
      rw [tryBetterCost, Datalog.tryBetterCost, sum, aggregation.wrapApply_eq partialCost, ih inRange]

/-- While no cost wraps around, a binding updates the witnesses as with unbounded costs. -/
theorem updateAndAnnot_eq (aggregation : Aggregation) {current : Nat} {rule : Rule}
    {orAnnot : Tuple → Cost} (witnesses : Tuple → Option Witness) {binding : List Nat}
    (currentInRange : (current : Cost) + rule.cost < maxCost)
    (inRange : groundCost aggregation orAnnot rule binding < maxCost) :
    updateAndAnnot aggregation current rule orAnnot witnesses binding =
      Datalog.updateAndAnnot aggregation current rule orAnnot witnesses binding := by
  let head := groundHead rule binding
  have same := tryBetterCost_eq aggregation (min (orAnnot head) (witnessCost (witnesses head))) inRange
  unfold updateAndAnnot Datalog.updateAndAnnot
  cases better : Datalog.tryBetterCost aggregation (min (orAnnot head) (witnessCost (witnesses head)))
      rule.cost ((witnessFacts rule binding).map orAnnot) 0 with
  | none => simp only [Cost.wrapAdd_eq currentInRange, head, same, better]
  | some cost => simp only [Cost.wrapAdd_eq currentInRange, head, same, better]

/-! ### Iterations -/

section

variable (data : ProgramData) (numeric : NumericOverapproximation) (aggregation : Aggregation)
  {stratum : Stratum} (st : StratumState stratum) (schedule : Schedule stratum)

/-- The worker's witnesses of a rule after the iteration. -/
def workerWitnesses (r : Fin stratum.length) (worker : Nat) : Tuple → Option Witness :=
  (((st.output data schedule r).announced.filter fun a => a.worker == worker).map
    Announcement.binding).foldl
    (updateAndAnnot aggregation st.buckets.current (stratum.get r).rule st.annotations.orAnnot)
    fun _ => none

/-- The buckets and the annotations after the merge of one head. -/
def mergeHead (merged : CostBuckets Tuple × Annotations) (merge : Fin stratum.length × Nat × Tuple) :
    CostBuckets Tuple × Annotations :=
  let result := updateOrAnnot merged.2 merge.2.2
    (workerWitnesses data aggregation st schedule merge.1 merge.2.1 merge.2.2)
  (merged.1.update result.1 merge.2.2, result.2)

/-- The buckets and the annotations after all merges. -/
def merged : CostBuckets Tuple × Annotations :=
  schedule.merges.foldl (mergeHead data aggregation st schedule)
    (st.buckets.clearCurrent, st.annotations)

/-- What the code guarantees of the choices: the reports are the bindings that pass
the tests of the cliques now and have not passed them before. -/
structure ValidSchedule : Prop where
  pending : ∀ r ∈ st.active, (schedule.pending r).Perm (st.rules r).pending
  reports_nodup : ∀ r ∈ st.active, ((schedule.reports r).map Prod.snd).Nodup
  reports : ∀ r ∈ st.active, (stratum.get r).rule.arity ≠ 0 →
    ∀ binding, binding ∈ (schedule.reports r).map Prod.snd ↔
      (stratum.get r).CliqueTests numeric (data.factSets st.facts) binding ∧
        ∀ seen ∈ (st.rules r).seen,
          ¬ (stratum.get r).CliqueTests numeric (data.factSets seen) binding
  merges : ∀ merge, merge ∈ schedule.merges ↔ st.Announces data schedule merge
  inserted : ∀ head, head ∈ schedule.inserted ↔
    head ∈ (merged data aggregation st schedule).1.advanceToNextNonempty.2.currentBucket

/-- The state at the next head of the loop. -/
def next : StratumState stratum where
  facts := StratumState.insertHeads st.facts schedule.inserted
  annotations := (merged data aggregation st schedule).2
  buckets := (merged data aggregation st schedule).1.advanceToNextNonempty.2
  rules := st.rulesAfter data schedule
  active := StratumState.activeAfter st.facts schedule.inserted

end

/-! ### Iterations without wrapping -/

section

variable {data : ProgramData} {numeric : NumericOverapproximation} {aggregation : Aggregation}
  {stratum : Stratum} {st : StratumState stratum} {schedule : Schedule stratum}

/-- The sums of the iteration stay below the greatest word. -/
structure InRange (data : ProgramData) (aggregation : Aggregation) (st : StratumState stratum)
    (schedule : Schedule stratum) : Prop where
  current : ∀ r ∈ st.active, (st.buckets.current : Cost) + (stratum.get r).rule.cost < maxCost
  announced : ∀ r ∈ st.active, ∀ a ∈ (st.output data schedule r).announced,
    groundCost aggregation st.annotations.orAnnot (stratum.get r).rule a.binding < maxCost

theorem InRange.workerWitnesses (inRange : InRange data aggregation st schedule)
    {r : Fin stratum.length} (active : r ∈ st.active) (worker : Nat) :
    workerWitnesses data aggregation st schedule r worker =
      st.workerWitnesses data (.annotate aggregation) schedule r worker := by
  unfold Machine.workerWitnesses StratumState.workerWitnesses
  apply List.foldl_ext
  intro witnesses binding mem
  obtain ⟨a, announced, rfl⟩ := List.mem_map.mp mem
  exact updateAndAnnot_eq aggregation witnesses (inRange.current r active)
    (inRange.announced r active a (List.mem_of_mem_filter announced))

theorem InRange.merged (inRange : InRange data aggregation st schedule)
    (merges : ∀ merge ∈ schedule.merges, merge.1 ∈ st.active) :
    merged data aggregation st schedule = st.merged data (.annotate aggregation) schedule := by
  unfold Machine.merged StratumState.merged
  apply List.foldl_ext
  intro before merge mem
  simp only [mergeHead, StratumState.mergeHead, inRange.workerWitnesses (merges merge mem)]

theorem InRange.next (inRange : InRange data aggregation st schedule)
    (merges : ∀ merge ∈ schedule.merges, merge.1 ∈ st.active) :
    next data aggregation st schedule = st.next data (.annotate aggregation) schedule := by
  unfold Machine.next StratumState.next
  rw [inRange.merged merges]

end

end Machine

/-! ### Matching without false positives -/

/-- The tests where there are no constraints. -/
def noNumeric : NumericOverapproximation := ⟨fun _ _ _ => true, fun _ _ _ _ => true⟩

namespace ConstRuleWorkspace

/-- The weak literals of every binding that passes the tests hold. -/
def NoFalsePositive (cws : ConstRuleWorkspace) (numeric : NumericOverapproximation)
    (facts : FactSets) : Prop :=
  ∀ binding, cws.CliqueTests numeric facts binding → ∀ kind, ∀ literal ∈ cws.rule.body.literals kind,
    cws.Weak kind literal →
      (literal.atom.ground binding ∈ facts.predicate kind ↔ literal.polarity = true)

end ConstRuleWorkspace

section

variable {data : ProgramData} {numeric : NumericOverapproximation} {cws : ConstRuleWorkspace}
  {fluent : List Tuple} {binding : List Nat}

/-- The literals and constraints that the residual check does not look at hold. -/
structure EnumeratedPart (data : ProgramData) (cws : ConstRuleWorkspace) (fluent : List Tuple)
    (binding : List Nat) : Prop where
  literal : ∀ kind, ∀ literal ∈ cws.rule.body.literals kind,
    literal ∉ cws.rule.body.nullary.literals kind →
    literal ∉ cws.conflictingOverapproximation.literals kind →
    (data.factSets fluent).isValidBinding binding kind literal = true
  constraint : ∀ constraint ∈ cws.rule.body.numericConstraints,
    constraint ∉ cws.rule.body.nullary.numericConstraints →
    constraint ∉ cws.conflictingOverapproximation.numericConstraints →
    (data.factSets fluent).isValidConstraint binding constraint = true

/-- The bindings that pass the tests and fail on nothing that is not checked later. -/
def reportedEnumeration (data : ProgramData) (numeric : NumericOverapproximation) :
    CliqueEnumeration data where
  candidate cws fluent binding := cws.InDomains binding ∧
    (cws.CliqueTests numeric (data.factSets fluent) binding ∨ BodyHolds data cws fluent binding) ∧
      EnumeratedPart data cws fluent binding
  complete := by
    intro cws fluent binding inDomains valid
    have holds : BodyHolds data cws fluent binding := ⟨inDomains, valid⟩
    obtain ⟨_, literals, constraints⟩ := bodyHolds_iff.mp holds
    exact ⟨inDomains, .inr holds, fun kind literal mem _ _ => literals kind literal mem,
      fun constraint mem _ _ => constraints constraint mem⟩
  inDomains := fun _ _ _ isCandidate => isCandidate.1
  literal := fun _ _ _ isCandidate => isCandidate.2.2.literal
  constraint := fun _ _ _ isCandidate => isCandidate.2.2.constraint

/-- Facts with one object for each position of their predicate. -/
def ConstRuleWorkspace.TypedFacts (cws : ConstRuleWorkspace) (facts : FactSets) : Prop :=
  ∀ kind, ∀ fact ∈ facts.predicate kind,
    fact.objects.length = (cws.predicateDomains kind fact.relation).length

/-- Without constraints and false positives, the reported bindings are the ones that
pass the tests. -/
theorem candidate_iff_cliqueTests (parameters : cws.rule.arity ≠ 0)
    (noConstraints : cws.rule.body.numericConstraints = [])
    (typed : cws.TypedFacts (data.factSets fluent))
    (exact : cws.NoFalsePositive numeric (data.factSets fluent)) :
    (reportedEnumeration data numeric).candidate cws fluent binding ↔
      cws.CliqueTests numeric (data.factSets fluent) binding := by
  let facts : TypedFactSets cws.predicateDomains := ⟨data.factSets fluent, typed⟩
  constructor
  · rintro ⟨inDomains, tests | holds, _⟩
    · exact tests
    · obtain ⟨_, literals, _⟩ := bodyHolds_iff.mp holds
      apply ConstRuleWorkspace.cliqueTests_of_literalTested inDomains
      · intro kind literal mem
        have holds := FactSets.isValidBinding_iff.mp (literals kind literal mem)
        have tested : cws.LiteralTested facts.toFactSets binding kind literal :=
          ConstRuleWorkspace.literalTested_of_holds inDomains mem holds
        exact tested
      · intro p _ _ constraint mem
        have inBody := List.mem_of_mem_filter mem
        rw [noConstraints] at inBody
        cases inBody
      · intro p q _ _ _ _ constraint mem
        have inBody := List.mem_of_mem_filter mem
        rw [noConstraints] at inBody
        cases inBody
  · intro tests
    refine ⟨tests.inDomains, .inl tests, fun kind literal mem notNullary notConflicting => ?_,
      fun constraint mem => ?_⟩
    · rw [FactSets.isValidBinding_iff]
      by_cases weak : cws.Weak kind literal
      · exact exact binding tests kind literal mem weak
      · have tested : cws.LiteralTested facts.toFactSets binding kind literal :=
          tests.literalTested (fun inNullary => absurd inNullary notNullary)
            fun inConflicting => absurd inConflicting notConflicting
        exact ConstRuleWorkspace.holds_of_literalTested parameters tests.inDomains mem weak tested
    · rw [noConstraints] at mem
      cases mem

end

/-! ### Iterations of unbounded costs -/

namespace Machine

section

variable {data : ProgramData} {numeric : NumericOverapproximation} {aggregation : Aggregation}
  {stratum : Stratum} {st : StratumState stratum} {schedule : Schedule stratum}

/-- The tests on the facts of the latest enumerations report what they should. -/
def SeenExact (data : ProgramData) (numeric : NumericOverapproximation)
    (st : StratumState stratum) : Prop :=
  ∀ r, (stratum.get r).rule.arity ≠ 0 → ∀ seen ∈ (st.rules r).seen, ∀ binding,
    (reportedEnumeration data numeric).candidate (stratum.get r) seen binding ↔
      (stratum.get r).CliqueTests numeric (data.factSets seen) binding

/-- The tests on the current facts report what they should. -/
def NowExact (data : ProgramData) (numeric : NumericOverapproximation)
    (st : StratumState stratum) : Prop :=
  ∀ r ∈ st.active, (stratum.get r).rule.arity ≠ 0 → ∀ binding,
    (reportedEnumeration data numeric).candidate (stratum.get r) st.facts binding ↔
      (stratum.get r).CliqueTests numeric (data.factSets st.facts) binding

/-- Without false positives, the reports are those of the exact enumeration. -/
theorem ValidSchedule.reports_iff (valid : ValidSchedule data numeric aggregation st schedule)
    (seenExact : SeenExact data numeric st) (nowExact : NowExact data numeric st) :
    ∀ r ∈ st.active, (stratum.get r).rule.arity ≠ 0 →
      ∀ binding, binding ∈ (schedule.reports r).map Prod.snd ↔
        (reportedEnumeration data numeric).candidate (stratum.get r) st.facts binding ∧
          ∀ seen ∈ (st.rules r).seen,
            ¬ (reportedEnumeration data numeric).candidate (stratum.get r) seen binding := by
  intro r active parameters binding
  rw [valid.reports r active parameters binding, nowExact r active parameters binding]
  apply and_congr_right'
  apply forall₂_congr
  intro seen mem
  rw [seenExact r parameters seen mem binding]

/-- Without false positives, what is announced holds. -/
theorem ValidSchedule.announced_holds (valid : ValidSchedule data numeric aggregation st schedule)
    (seenExact : SeenExact data numeric st) (nowExact : NowExact data numeric st) {base : List Tuple}
    (facts : st.FactInvariant data (reportedEnumeration data numeric) base)
    {r : Fin stratum.length} (active : r ∈ st.active) {a : Announcement}
    (announced : a ∈ (st.output data schedule r).announced) :
    BodyHolds data (stratum.get r) st.facts a.binding :=
  (processRule_spec (facts.ready (valid.pending r active)
    (valid.reports_iff seenExact nowExact r active)) (schedule.nullaryWorker r)).1 a announced

/-- Without false positives and wrapping, the choices are valid for unbounded costs. -/
theorem ValidSchedule.unbounded (valid : ValidSchedule data numeric aggregation st schedule)
    (seenExact : SeenExact data numeric st) (nowExact : NowExact data numeric st)
    (inRange : InRange data aggregation st schedule) :
    st.ValidSchedule data (.annotate aggregation) (reportedEnumeration data numeric) schedule where
  pending := valid.pending
  reports_nodup := valid.reports_nodup
  reports := valid.reports_iff seenExact nowExact
  merges := valid.merges
  inserted := by
    rw [← inRange.merged fun merge mem => ((valid.merges merge).mp mem).1]
    exact valid.inserted

/-- The latest enumerations stay exact. -/
theorem SeenExact.next (seenExact : SeenExact data numeric st) (nowExact : NowExact data numeric st) :
    SeenExact data numeric (next data aggregation st schedule) := by
  intro r parameters seen mem
  change seen ∈ (st.rulesAfter data schedule r).seen at mem
  unfold StratumState.rulesAfter at mem
  split at mem
  · next active =>
      obtain rfl := Option.mem_some.mp mem
      exact nowExact r active parameters
  · exact seenExact r parameters seen mem

end

end Machine

end Tyr.Datalog
