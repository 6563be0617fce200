import Tyr.Datalog.RuleWorkspace
import Tyr.Datalog.CostBuckets
import Mathlib.Data.Fintype.Basic
import Mathlib.Logic.Relation

/-!
Bottom-up evaluation of a stratified program.

An iteration processes the active rules on the current facts: it looks again at
their pending bindings, generates the new ones, and collects the heads that hold
now. The heads are merged into the cost buckets, the heads of the next bucket
become facts, and the rules that listen to their predicates are active next.

The code leaves open who processes what and in which order: the order of the
pending bindings and of the enumerated ones, the workers, the order in which
heads are merged and inserted. An iteration is therefore a relation: it takes
any `Schedule` that is `Valid`.
-/

namespace Tyr.Datalog

open Tyr.Lib Tyr.Formalism Tyr.Formalism.Datalog

/-- What a run does not change: the static facts and the function values. -/
structure ProgramData where
  staticFacts : List Tuple
  function : FactKind → Tuple → Number

/-- The fact sets with the given fluent facts. -/
def ProgramData.factSets (data : ProgramData) (fluent : List Tuple) : FactSets where
  predicate
    | .static => data.staticFacts
    | .fluent => fluent
  function := data.function

/-! ### Annotations -/

inductive Aggregation where
  | sum
  | max
deriving DecidableEq, Repr

def Aggregation.apply : Aggregation → Cost → Cost → Cost
  | sum, acc, x => acc + x
  | max, acc, x => Max.max acc x

/-- No annotations, or costs aggregated over the body. -/
inductive AnnotationPolicy where
  | none
  | annotate (aggregation : Aggregation)
deriving DecidableEq, Repr

/-- A ground rule and its cost. -/
structure Witness where
  rule : Rule
  binding : List Nat
  cost : Cost

structure Annotations where
  orAnnot : Tuple → Cost
  andAnnot : Tuple → Option Witness

/-- The ground head of a rule. -/
def groundHead (rule : Rule) (binding : List Nat) : Tuple := rule.head.ground binding

/-- The facts of the witness condition: the positive fluent literals of the body. -/
def witnessFacts (rule : Rule) (binding : List Nat) : List Tuple :=
  (rule.body.fluentLiterals.filter Literal.polarity).map fun literal => literal.atom.ground binding

/-- `try_ground_better_witness` from the costs of the remaining body facts. -/
def tryBetterCost (aggregation : Aggregation) (best ruleCost : Cost) : List Cost → Cost → Option Cost
  | [], bodyCost => if best ≤ bodyCost + ruleCost then none else some (bodyCost + ruleCost)
  | cost :: costs, bodyCost =>
      if best ≤ bodyCost + ruleCost then none
      else tryBetterCost aggregation best ruleCost costs (aggregation.apply bodyCost cost)

def witnessCost (witness : Option Witness) : Cost :=
  match witness with
  | some witness => witness.cost
  | none => ⊤

/-- `AndAnnotationPolicy::update_annotation`: the witnesses of a worker after a
binding of the rule was found applicable. -/
def updateAndAnnot (aggregation : Aggregation) (currentCost : Nat) (rule : Rule)
    (orAnnot : Tuple → Cost) (witnesses : Tuple → Option Witness) (binding : List Nat) :
    Tuple → Option Witness :=
  let head := groundHead rule binding
  let best := min (orAnnot head) (witnessCost (witnesses head))
  if best ≤ (currentCost : Cost) + rule.cost then witnesses
  else
    match tryBetterCost aggregation best rule.cost ((witnessFacts rule binding).map orAnnot) 0 with
    | none => witnesses
    | some cost => Function.update witnesses head (some ⟨rule, binding, cost⟩)

/-- `OrAnnotationPolicy::update_annotation` for a head and the witness of its worker. -/
def updateOrAnnot (annotations : Annotations) (head : Tuple) (witness : Option Witness) :
    CostUpdate × Annotations :=
  let cost := annotations.orAnnot head
  if cost = 0 then (⟨cost, cost⟩, annotations)
  else
    match witness with
    | none => (⟨cost, cost⟩, annotations)
    | some witness =>
        if witness.cost < cost then
          (⟨cost, witness.cost⟩,
            { orAnnot := Function.update annotations.orAnnot head witness.cost
              andAnnot := Function.update annotations.andAnnot head (some witness) })
        else (⟨cost, cost⟩, annotations)

/-! ### Processing a rule -/

/-- A binding whose residual check has failed so far, and the worker that holds it. -/
structure PendingRule where
  worker : Nat
  binding : List Nat
  check : ApplicabilityCheck

/-- A binding found applicable by a worker. -/
structure Announcement where
  worker : Nat
  binding : List Nat

/-- The pending bindings and the announcements of a rule in an iteration. -/
structure RuleOutput where
  pending : List PendingRule
  announced : List Announcement

section

variable (cws : ConstRuleWorkspace) (facts : FactSets)

/-- The loop body of `process_pending`. -/
def processPending (out : RuleOutput) (entry : PendingRule) : RuleOutput :=
  if groundHead cws.rule entry.binding ∈ facts.predicate .fluent then out
  else
    let result := entry.check.isDynamicallyApplicable facts entry.binding
    if result.1 then { out with announced := out.announced ++ [⟨entry.worker, entry.binding⟩] }
    else { out with pending := out.pending ++ [{ entry with check := result.2 }] }

/-- `process_clique` for the worker and the binding of the clique. -/
def processClique (out : RuleOutput) (report : Nat × List Nat) : RuleOutput :=
  if groundHead cws.rule report.2 ∈ facts.predicate .fluent then out
  else
    let check := ApplicabilityCheck.create cws.rule.body.nullary cws.conflictingOverapproximation
      facts report.2
    if !check.isStaticallyApplicable then out
    else
      let result := check.isDynamicallyApplicable facts report.2
      if result.1 then { out with announced := out.announced ++ [⟨report.1, report.2⟩] }
      else if out.pending.any fun entry => entry.worker == report.1 && entry.binding == report.2 then
        out
      else { out with pending := out.pending ++ [⟨report.1, report.2, result.2⟩] }

/-- `generate_nullary_case`. -/
def generateNullaryCase (worker : Nat) (out : RuleOutput) : RuleOutput :=
  if facts.isValidCondition [] cws.rule.body.nullary && facts.isValidCondition [] cws.rule.body then
    { out with announced := out.announced ++ [⟨worker, []⟩] }
  else out

/-- `process_pending` and `generate` for a rule. -/
def processRule (pending : List PendingRule) (reports : List (Nat × List Nat)) (worker : Nat) :
    RuleOutput :=
  let out := pending.foldl (processPending cws facts) ⟨[], []⟩
  if cws.rule.arity = 0 then generateNullaryCase cws facts worker out
  else reports.foldl (processClique cws facts) out

end

/-! ### The loop over a stratum -/

/-- The facts at the latest enumeration of a rule, and its pending bindings. -/
structure RuleState where
  seen : Option (List Tuple)
  pending : List PendingRule

abbrev Stratum := List ConstRuleWorkspace

/-- The state at the head of the loop. The facts are in the order of their insertion. -/
structure StratumState (stratum : Stratum) where
  facts : List Tuple
  annotations : Annotations
  buckets : CostBuckets Tuple
  rules : Fin stratum.length → RuleState
  active : Finset (Fin stratum.length)

/-- The bindings that the cliques of a rule's full graph stand for. `candidate` is any
overapproximation of the rule's body that is exact for what the residual check
does not look at. -/
structure CliqueEnumeration (data : ProgramData) where
  candidate : ConstRuleWorkspace → List Tuple → List Nat → Prop
  complete : ∀ cws fluent binding, cws.InDomains binding →
    (data.factSets fluent).isValidCondition binding cws.rule.body = true → candidate cws fluent binding
  inDomains : ∀ cws fluent binding, candidate cws fluent binding → cws.InDomains binding
  literal : ∀ cws fluent binding, candidate cws fluent binding →
    ∀ kind, ∀ literal ∈ cws.rule.body.literals kind,
      literal ∉ cws.rule.body.nullary.literals kind →
      literal ∉ cws.conflictingOverapproximation.literals kind →
      (data.factSets fluent).isValidBinding binding kind literal = true
  constraint : ∀ cws fluent binding, candidate cws fluent binding →
    ∀ constraint ∈ cws.rule.body.numericConstraints,
      constraint ∉ cws.rule.body.nullary.numericConstraints →
      constraint ∉ cws.conflictingOverapproximation.numericConstraints →
      (data.factSets fluent).isValidConstraint binding constraint = true

/-- The choices of an iteration: the order of the pending bindings, the reports
of the enumeration with their workers, the worker of a rule without parameters,
the order of the merges and of the insertions. -/
structure Schedule (stratum : Stratum) where
  pending : Fin stratum.length → List PendingRule
  reports : Fin stratum.length → List (Nat × List Nat)
  nullaryWorker : Fin stratum.length → Nat
  merges : List (Fin stratum.length × Nat × Tuple)
  inserted : List Tuple

section

variable (data : ProgramData) (policy : AnnotationPolicy) (enumeration : CliqueEnumeration data)
  {stratum : Stratum}

namespace StratumState

variable (st : StratumState stratum) (schedule : Schedule stratum)

/-- What the rule produces in the iteration. -/
def output (r : Fin stratum.length) : RuleOutput :=
  processRule (stratum.get r) (data.factSets st.facts) (schedule.pending r) (schedule.reports r)
    (schedule.nullaryWorker r)

/-- The worker's witnesses of a rule after the iteration. -/
def workerWitnesses (r : Fin stratum.length) (worker : Nat) : Tuple → Option Witness :=
  match policy with
  | .none => fun _ => none
  | .annotate aggregation =>
      (((st.output data schedule r).announced.filter fun a => a.worker == worker).map
        Announcement.binding).foldl
        (updateAndAnnot aggregation st.buckets.current (stratum.get r).rule
          st.annotations.orAnnot)
        fun _ => none

/-- The buckets and the annotations after the merge of one head. -/
def mergeHead (merged : CostBuckets Tuple × Annotations) (merge : Fin stratum.length × Nat × Tuple) :
    CostBuckets Tuple × Annotations :=
  match policy with
  | .none => (merged.1.update ⟨⊤, 0⟩ merge.2.2, merged.2)
  | .annotate _ =>
      let result := updateOrAnnot merged.2 merge.2.2
        (st.workerWitnesses data policy schedule merge.1 merge.2.1 merge.2.2)
      (merged.1.update result.1 merge.2.2, result.2)

/-- The buckets and the annotations after all merges. -/
def merged : CostBuckets Tuple × Annotations :=
  schedule.merges.foldl (st.mergeHead data policy schedule) (st.buckets.clearCurrent, st.annotations)

/-- The head occurs among the announcements of a worker of an active rule. -/
def Announces (merge : Fin stratum.length × Nat × Tuple) : Prop :=
  merge.1 ∈ st.active ∧ ∃ a ∈ (st.output data schedule merge.1).announced,
    a.worker = merge.2.1 ∧ groundHead (stratum.get merge.1).rule a.binding = merge.2.2

/-- The state of a rule after the iteration. -/
def rulesAfter (r : Fin stratum.length) : RuleState :=
  if r ∈ st.active then ⟨some st.facts, (st.output data schedule r).pending⟩ else st.rules r

/-- What the code guarantees of the choices. -/
structure ValidSchedule : Prop where
  pending : ∀ r ∈ st.active, (schedule.pending r).Perm (st.rules r).pending
  reports_nodup : ∀ r ∈ st.active, ((schedule.reports r).map Prod.snd).Nodup
  reports : ∀ r ∈ st.active, (stratum.get r).rule.arity ≠ 0 →
    ∀ binding, binding ∈ (schedule.reports r).map Prod.snd ↔
      enumeration.candidate (stratum.get r) st.facts binding ∧
        ∀ seen ∈ (st.rules r).seen, ¬ enumeration.candidate (stratum.get r) seen binding
  merges : ∀ merge, merge ∈ schedule.merges ↔ st.Announces data schedule merge
  inserted : ∀ head, head ∈ schedule.inserted ↔
    head ∈ (st.merged data policy schedule).1.advanceToNextNonempty.2.currentBucket

/-- Insert the heads that are not facts yet. -/
def insertHeads (facts heads : List Tuple) : List Tuple :=
  heads.foldl (fun facts head => if head ∈ facts then facts else facts ++ [head]) facts

/-- The rule has a positive fluent body literal of the predicate. -/
def listensTo (rule : Rule) (predicate : Nat) : Bool :=
  rule.body.fluentLiterals.any fun literal =>
    literal.polarity && literal.atom.predicate == predicate

/-- The rules that listen to the predicate of a head that is inserted now. -/
def activeAfter (facts heads : List Tuple) : Finset (Fin stratum.length) :=
  Finset.univ.filter fun r =>
    heads.any fun head => decide (head ∉ facts) && listensTo (stratum.get r).rule head.relation

/-- The state at the next head of the loop. -/
def next : StratumState stratum where
  facts := insertHeads st.facts schedule.inserted
  annotations := (st.merged data policy schedule).2
  buckets := (st.merged data policy schedule).1.advanceToNextNonempty.2
  rules := st.rulesAfter data schedule
  active := activeAfter st.facts schedule.inserted

/-- One pass through the loop that continues. -/
def Iterates (st st' : StratumState stratum) : Prop :=
  ∃ schedule, st.ValidSchedule data policy enumeration schedule ∧
    (st.merged data policy schedule).1.advanceToNextNonempty.1 = true ∧
    st' = st.next data policy schedule

/-- One pass through the loop that returns: the facts stay, the annotations are merged. -/
def Returns (st : StratumState stratum) (annotations : Annotations)
    (buckets : CostBuckets Tuple) : Prop :=
  ∃ schedule, st.ValidSchedule data policy enumeration schedule ∧
    (st.merged data policy schedule).1.advanceToNextNonempty.1 = false ∧
    annotations = (st.merged data policy schedule).2 ∧
    buckets = (st.merged data policy schedule).1.advanceToNextNonempty.2

end StratumState

/-- What one stratum hands to the next. -/
structure SolveState where
  facts : List Tuple
  annotations : Annotations
  buckets : CostBuckets Tuple

/-- The state before the first iteration: all rules are active. -/
def SolveState.enter (solve : SolveState) (stratum : Stratum) : StratumState stratum where
  facts := solve.facts
  annotations := solve.annotations
  buckets := solve.buckets.clear
  rules := fun _ => ⟨none, []⟩
  active := Finset.univ

/-- `solve_bottom_up_for_stratum` without a termination policy. -/
def SolvesStratum (stratum : Stratum) (before after : SolveState) : Prop :=
  ∃ st : StratumState stratum,
    Relation.ReflTransGen (StratumState.Iterates data policy enumeration) (before.enter stratum) st ∧
    st.Returns data policy enumeration after.annotations after.buckets ∧ after.facts = st.facts

/-- `solve_bottom_up`: the strata one after the other. -/
inductive SolvesStrata : List Stratum → SolveState → SolveState → Prop where
  | nil (solve : SolveState) : SolvesStrata [] solve solve
  | cons {stratum : Stratum} {strata : List Stratum} {before middle after : SolveState} :
      SolvesStratum data policy enumeration stratum before middle →
      SolvesStrata strata middle after → SolvesStrata (stratum :: strata) before after

end

/-- The state at the start: the initial facts cost nothing, all others have no cost. -/
def SolveState.initial (facts : List Tuple) : SolveState where
  facts := facts
  annotations :=
    { orAnnot := fun fact => if fact ∈ facts then 0 else ⊤
      andAnnot := fun _ => none }
  buckets := CostBuckets.create

end Tyr.Datalog
