import Tyr.Datalog.NewBindings
import Tyr.Datalog.BottomUpEnds

/-!
Bottom-up evaluation with the clique enumerators.

Each rule keeps a `DeltaKPKC`. A pass brings the enumerators of the active rules up to the
current facts, and the reports of a rule are the bindings of its new cliques. The passes are
those of the loop whose reports are the newly matched bindings.

* `KpkcState` — the head of the loop, with the enumerators.
* `Tracks` — what an enumerator has seen.
* `simulates_solve` — the steps are those of `SolveStep`.
* `solveBottomUp_newCliques` — every run ends with the perfect model, and the assertions
  about the reports hold.
-/

namespace Tyr.Datalog

open Tyr.Lib Tyr.Formalism Tyr.Formalism.Datalog

/-! ### Rules that are matched exactly -/

namespace ConstRuleWorkspace

variable {cws : ConstRuleWorkspace} {numeric : NumericOverapproximation} {data : ProgramData}
  {fluent : List Tuple} {binding : List Nat}

/-- The tests of the numeric constraints on the vertices and the edges of a binding. -/
structure NumericTests (cws : ConstRuleWorkspace) (numeric : NumericOverapproximation)
    (function : FactKind → Tuple → Number) (binding : List Nat) : Prop where
  vertex : ∀ p < cws.rule.arity, cws.unaryRuntime p = true →
    ∀ constraint ∈ cws.unaryOverapproximation.numericConstraints,
      numeric.consistentVertex function constraint (vertexOf binding p) = true
  edge : ∀ p q, p < q → q < cws.rule.arity → cws.hasDependency p q = true →
    cws.binaryRuntime p q = true → ∀ constraint ∈ cws.binaryOverapproximation.numericConstraints,
      numeric.consistentEdge function constraint (vertexOf binding p) (vertexOf binding q) = true

/-- The graph and the residual check miss nothing of the body: no literal is weak, and the
numeric tests decide the constraints that the residual check does not look at. -/
structure ExactTests (cws : ConstRuleWorkspace) (numeric : NumericOverapproximation)
    (data : ProgramData) : Prop where
  strong : ∀ kind, ∀ literal ∈ cws.rule.body.literals kind, ¬ cws.Weak kind literal
  sound : ∀ binding, cws.InDomains binding →
    (∀ constraint ∈ cws.rule.body.numericConstraints,
      (data.factSets []).isValidConstraint binding constraint = true) →
    cws.NumericTests numeric data.function binding
  exact : ∀ binding, cws.InDomains binding → cws.NumericTests numeric data.function binding →
    ∀ constraint ∈ cws.rule.body.numericConstraints,
      constraint ∉ cws.rule.body.nullary.numericConstraints →
      constraint ∉ cws.conflictingOverapproximation.numericConstraints →
      (data.factSets []).isValidConstraint binding constraint = true

/-- The candidates are the bindings that pass the tests. -/
theorem ExactTests.candidate_iff (exact : cws.ExactTests numeric data)
    (parameters : cws.rule.arity ≠ 0) (typed : cws.TypedFacts (data.factSets fluent)) :
    (reportedEnumeration data numeric).candidate cws fluent binding ↔
      cws.CliqueTests numeric (data.factSets fluent) binding := by
  let facts : TypedFactSets cws.predicateDomains := ⟨data.factSets fluent, typed⟩
  constructor
  · rintro ⟨inDomains, tests | holds, _⟩
    · exact tests
    · obtain ⟨_, literals, constraints⟩ := bodyHolds_iff.mp holds
      have numericTests := exact.sound binding inDomains constraints
      refine cliqueTests_of_literalTested inDomains (fun kind literal mem => ?_) numericTests.vertex
        numericTests.edge
      have tested : cws.LiteralTested facts.toFactSets binding kind literal :=
        literalTested_of_holds inDomains mem (FactSets.isValidBinding_iff.mp (literals kind literal mem))
      exact tested
  · intro tests
    refine ⟨tests.inDomains, .inl tests, fun kind literal mem notNullary notConflicting => ?_, ?_⟩
    · have tested : cws.LiteralTested facts.toFactSets binding kind literal :=
        tests.literalTested (fun inNullary => absurd inNullary notNullary)
          fun inConflicting => absurd inConflicting notConflicting
      exact FactSets.isValidBinding_iff.mpr (holds_of_literalTested parameters tests.inDomains mem
        (exact.strong kind literal mem) tested)
    · exact exact.exact binding tests.inDomains ⟨tests.numericVertex, tests.numericEdge⟩

/-- Without numeric constraints only weak literals are missed. -/
theorem exactTests_of_noConstraints (noConstraints : cws.rule.body.numericConstraints = [])
    (strong : ∀ kind, ∀ literal ∈ cws.rule.body.literals kind, ¬ cws.Weak kind literal) :
    cws.ExactTests numeric data where
  strong := strong
  sound := by
    intro binding _ _
    constructor
    · intro p _ _ constraint mem
      have inBody := List.mem_of_mem_filter mem
      rw [noConstraints] at inBody
      cases inBody
    · intro p q _ _ _ _ constraint mem
      have inBody := List.mem_of_mem_filter mem
      rw [noConstraints] at inBody
      cases inBody
  exact := by
    intro binding _ _ constraint mem
    rw [noConstraints] at mem
    cases mem

end ConstRuleWorkspace

/-- What the evaluation of the strata from the facts relies on: the domains list each object
once, the rules are matched exactly, and all facts have the arities of their predicates. -/
structure MatchedStrata (data : ProgramData) (numeric : NumericOverapproximation)
    (strata : List Stratum) (facts : List Tuple) : Prop where
  distinct : ∀ stratum ∈ strata, ∀ cws ∈ stratum, ∀ domain ∈ cws.parameterDomains, domain.Nodup
  exact : ∀ stratum ∈ strata, ∀ cws ∈ stratum, cws.ExactTests numeric data
  typed : TypedStrata data strata facts

/-! ### Passes with enumerators -/

/-- The head of the loop, with the enumerator of each rule and the bindings that its workers
have seen since the start (`seen_bindings_dbg`). -/
structure KpkcState (stratum : Stratum) where
  loop : StratumState stratum
  kpkc : Fin stratum.length → Kpkc.DeltaKPKC
  seenBindings : Fin stratum.length → List (List Nat)

namespace KpkcState

section

variable (data : ProgramData) (numeric : NumericOverapproximation) (policy : AnnotationPolicy)
  {stratum : Stratum} (st : KpkcState stratum)

/-- `initialize_iteration` of the active rules. -/
def initializeIteration (r : Fin stratum.length) : Kpkc.DeltaKPKC :=
  if r ∈ st.loop.active then
    (st.kpkc r).setNextAssignmentSets ((stratum.get r).ruleGraph numeric data)
      ((stratum.get r).setsOf data st.loop.facts)
  else st.kpkc r

/-- The bindings that `generate` hands to `process_clique`; there are none without parameters. -/
def generate (workspaces : Fin stratum.length → Kpkc.Workspace) (r : Fin stratum.length) :
    List (List Nat) :=
  if (stratum.get r).rule.arity = 0 then []
  else (stratum.get r).newBindings numeric data (st.initializeIteration data numeric r) (workspaces r)

/-- What the code guarantees of the choices of a pass. -/
structure ValidSchedule (workspaces : Fin stratum.length → Kpkc.Workspace)
    (schedule : Schedule stratum) : Prop where
  pending : ∀ r ∈ st.loop.active, (schedule.pending r).Perm (st.loop.rules r).pending
  reports : ∀ r ∈ st.loop.active,
    (schedule.reports r).map Prod.snd = st.generate data numeric workspaces r
  merges : ∀ merge, merge ∈ schedule.merges ↔ st.loop.Announces data schedule merge
  inserted : ∀ head, head ∈ schedule.inserted ↔
    head ∈ (st.loop.merged data policy schedule).1.advanceToNextNonempty.2.currentBucket

/-- The state at the next head of the loop. -/
def next (workspaces : Fin stratum.length → Kpkc.Workspace) (schedule : Schedule stratum) :
    KpkcState stratum where
  loop := st.loop.next data policy schedule
  kpkc := st.initializeIteration data numeric
  seenBindings r :=
    if r ∈ st.loop.active then st.seenBindings r ++ st.generate data numeric workspaces r
    else st.seenBindings r

/-- One pass through the loop that continues. -/
def Iterates (st st' : KpkcState stratum) : Prop :=
  ∃ workspaces schedule, st.ValidSchedule data numeric policy workspaces schedule ∧
    (st.loop.merged data policy schedule).1.advanceToNextNonempty.1 = true ∧
    st' = st.next data numeric policy workspaces schedule

/-- One pass through the loop that returns. -/
def Returns (st : KpkcState stratum) (annotations : Annotations) (buckets : CostBuckets Tuple) :
    Prop :=
  ∃ workspaces schedule, st.ValidSchedule data numeric policy workspaces schedule ∧
    (st.loop.merged data policy schedule).1.advanceToNextNonempty.1 = false ∧
    annotations = (st.loop.merged data policy schedule).2 ∧
    buckets = (st.loop.merged data policy schedule).1.advanceToNextNonempty.2

end

section

variable {data : ProgramData} {numeric : NumericOverapproximation} {policy : AnnotationPolicy}
  {stratum : Stratum} {st : KpkcState stratum} {workspaces : Fin stratum.length → Kpkc.Workspace}
  {schedule : Schedule stratum} {base : List Tuple}

/-! ### What an enumerator has seen -/

/-- The enumerator has been through growing facts, up to those of the latest enumeration, and
the bindings seen so far pass the tests on these. -/
structure Tracks (data : ProgramData) (numeric : NumericOverapproximation) (st : KpkcState stratum)
    (r : Fin stratum.length) : Prop where
  history : ∃ origin history, Kpkc.Reachable ((stratum.get r).ruleGraph numeric data) origin ∧
    st.kpkc r = Kpkc.runAfterReset ((stratum.get r).ruleGraph numeric data) origin
      (history.map ((stratum.get r).setsOf data)) ∧
    (history ++ [st.loop.facts]).Pairwise (GrowsFor (stratum.get r).rule) ∧
    (st.loop.rules r).seen = history.getLast?
  distinct : (st.seenBindings r).Nodup
  tested : ∀ binding ∈ st.seenBindings r, ∃ seen ∈ (st.loop.rules r).seen,
    (stratum.get r).CliqueTests numeric (data.factSets seen) binding

/-- Facts between `base` and the model grow for each rule. -/
theorem growsFor_of_model {old new : List Tuple} (negationFree : stratum.NegationFree)
    {cws : ConstRuleWorkspace} (memRule : cws ∈ stratum) (sub : ∀ fact ∈ base, fact ∈ old)
    (grows : ∀ fact ∈ old, fact ∈ new)
    (model : ∀ fact ∈ new, StratumModel data stratum (· ∈ base) fact) : GrowsFor cws.rule old new where
  subset := grows
  negative := by
    intro literal mem negative fact isFact sameRelation
    rcases (model fact isFact).base_or_head with isBase | ⟨cws', mem', isHead⟩
    · exact sub fact isBase
    · exact absurd (sameRelation.symm.trans isHead) (negationFree cws memRule cws' mem' literal mem negative)

/-- The enumerator of an active rule goes on to the current facts. -/
theorem initializeIteration_of_active {r : Fin stratum.length} (active : r ∈ st.loop.active)
    {origin : Kpkc.DeltaKPKC} {history : List (List Tuple)}
    (isRun : st.kpkc r = Kpkc.runAfterReset ((stratum.get r).ruleGraph numeric data) origin
      (history.map ((stratum.get r).setsOf data))) :
    st.initializeIteration data numeric r =
      Kpkc.runAfterReset ((stratum.get r).ruleGraph numeric data) origin
        ((history ++ [st.loop.facts]).map ((stratum.get r).setsOf data)) := by
  rw [initializeIteration, if_pos active, isRun, List.map_append, List.map_singleton,
    Kpkc.runAfterReset_append]

/-- The reports of an active rule are, each once, the bindings that pass the tests now and did
not at the latest enumeration. -/
theorem Tracks.generate_spec {r : Fin stratum.length} (tracks : st.Tracks data numeric r)
    (distinct : ∀ domain ∈ (stratum.get r).parameterDomains, domain.Nodup)
    (active : r ∈ st.loop.active) (workspaces : Fin stratum.length → Kpkc.Workspace) :
    (st.generate data numeric workspaces r).Nodup ∧
    ((stratum.get r).rule.arity ≠ 0 → ∀ binding, binding ∈ st.generate data numeric workspaces r ↔
      (stratum.get r).CliqueTests numeric (data.factSets st.loop.facts) binding ∧
        ∀ seen ∈ (st.loop.rules r).seen,
          ¬ (stratum.get r).CliqueTests numeric (data.factSets seen) binding) := by
  obtain ⟨origin, history, reachable, isRun, growing, sameSeen⟩ := tracks.history
  unfold generate
  by_cases noParameters : (stratum.get r).rule.arity = 0
  · rw [if_pos noParameters]
    exact ⟨List.nodup_nil, fun parameters => absurd noParameters parameters⟩
  · rw [if_neg noParameters, initializeIteration_of_active active isRun, sameSeen]
    obtain ⟨nodup, listed⟩ := ConstRuleWorkspace.newBindings_spec distinct reachable (workspaces r) growing
    exact ⟨nodup, fun _ => listed⟩

theorem parameters_of_mem_generate {r : Fin stratum.length} {binding : List Nat}
    (mem : binding ∈ st.generate data numeric workspaces r) : (stratum.get r).rule.arity ≠ 0 := by
  intro noParameters
  rw [generate, if_pos noParameters] at mem
  cases mem

/-- No binding is generated twice. -/
theorem Tracks.nodup_append {r : Fin stratum.length} (tracks : st.Tracks data numeric r)
    (distinct : ∀ domain ∈ (stratum.get r).parameterDomains, domain.Nodup)
    (active : r ∈ st.loop.active) (workspaces : Fin stratum.length → Kpkc.Workspace) :
    (st.seenBindings r ++ st.generate data numeric workspaces r).Nodup := by
  obtain ⟨nodup, listed⟩ := tracks.generate_spec distinct active workspaces
  refine tracks.distinct.append nodup fun binding old new => ?_
  obtain ⟨seen, isSeen, tests⟩ := tracks.tested binding old
  exact ((listed (parameters_of_mem_generate new) binding).mp new).2 seen isSeen tests

theorem Tracks.seen_subset {r : Fin stratum.length} (tracks : st.Tracks data numeric r) :
    ∀ seen ∈ (st.loop.rules r).seen, GrowsFor (stratum.get r).rule seen st.loop.facts := by
  obtain ⟨_, history, _, _, growing, sameSeen⟩ := tracks.history
  intro seen isSeen
  rw [sameSeen] at isSeen
  exact (List.pairwise_append.mp growing).2.2 seen (List.mem_of_getLast? isSeen) _
    (List.mem_singleton_self _)

/-- A pass that adds facts keeps track of what has been seen. -/
theorem Tracks.next {r : Fin stratum.length} (tracks : st.Tracks data numeric r)
    (distinct : ∀ domain ∈ (stratum.get r).parameterDomains, domain.Nodup)
    (grows : GrowsFor (stratum.get r).rule st.loop.facts (st.loop.next data policy schedule).facts)
    (workspaces : Fin stratum.length → Kpkc.Workspace) :
    (st.next data numeric policy workspaces schedule).Tracks data numeric r := by
  obtain ⟨origin, history, reachable, isRun, growing, sameSeen⟩ := tracks.history
  obtain ⟨growingBefore, _, upToNow⟩ := List.pairwise_append.mp growing
  have upToNext : ∀ facts ∈ history, GrowsFor (stratum.get r).rule facts
      (st.loop.next data policy schedule).facts :=
    fun facts mem => (upToNow facts mem _ (List.mem_singleton_self _)).trans grows
  by_cases active : r ∈ st.loop.active
  · have seenNow : ((st.next data numeric policy workspaces schedule).loop.rules r).seen =
        some st.loop.facts := by
      change (st.loop.rulesAfter data schedule r).seen = some st.loop.facts
      rw [StratumState.rulesAfter, if_pos active]
    have sameBindings : (st.next data numeric policy workspaces schedule).seenBindings r =
        st.seenBindings r ++ st.generate data numeric workspaces r := if_pos active
    constructor
    · refine ⟨origin, history ++ [st.loop.facts], reachable,
        initializeIteration_of_active active isRun, ?_, ?_⟩
      · refine List.pairwise_append.mpr ⟨growing, List.pairwise_singleton _ _, ?_⟩
        intro facts mem next isNext
        rw [List.mem_singleton.mp isNext]
        rcases List.mem_append.mp mem with before | now
        · exact upToNext facts before
        · exact List.mem_singleton.mp now ▸ grows
      · rw [seenNow, List.getLast?_append, List.getLast?_singleton, Option.some_or]
    · rw [sameBindings]
      exact tracks.nodup_append distinct active workspaces
    · rw [sameBindings, seenNow]
      intro binding mem
      refine ⟨st.loop.facts, rfl, ?_⟩
      rcases List.mem_append.mp mem with old | new
      · obtain ⟨seen, isSeen, tests⟩ := tracks.tested binding old
        exact tests.of_growsFor (tracks.seen_subset seen isSeen)
      · exact (((tracks.generate_spec distinct active workspaces).2 (parameters_of_mem_generate new)
          binding).mp new).1
  · have sameKpkc : (st.next data numeric policy workspaces schedule).kpkc r = st.kpkc r :=
      if_neg active
    have sameRule : (st.next data numeric policy workspaces schedule).loop.rules r = st.loop.rules r :=
      if_neg active
    have sameBindings : (st.next data numeric policy workspaces schedule).seenBindings r =
        st.seenBindings r := if_neg active
    refine ⟨⟨origin, history, reachable, sameKpkc.trans isRun, ?_, ?_⟩, ?_, ?_⟩
    · refine List.pairwise_append.mpr ⟨growingBefore, List.pairwise_singleton _ _, ?_⟩
      exact fun facts mem next isNext => List.mem_singleton.mp isNext ▸ upToNext facts mem
    · rw [sameRule, sameSeen]
    · rw [sameBindings]
      exact tracks.distinct
    · rw [sameBindings, sameRule]
      exact tracks.tested

/-- The choices of a pass are choices of the loop. -/
theorem ValidSchedule.loop (valid : st.ValidSchedule data numeric policy workspaces schedule)
    (tracks : ∀ r, st.Tracks data numeric r)
    (distinct : ∀ cws ∈ stratum, ∀ domain ∈ cws.parameterDomains, domain.Nodup)
    (exact : ∀ cws ∈ stratum, cws.ExactTests numeric data)
    (typed : ∀ cws ∈ stratum, cws.TypedFacts (data.factSets st.loop.facts)) :
    st.loop.ValidSchedule data policy (reportedEnumeration data numeric) schedule where
  pending := valid.pending
  reports_nodup := by
    intro r active
    rw [valid.reports r active]
    exact ((tracks r).generate_spec (distinct _ (List.get_mem stratum r)) active workspaces).1
  reports := by
    intro r active parameters binding
    have memRule := List.get_mem stratum r
    have exactHere := exact _ memRule
    rw [valid.reports r active, ((tracks r).generate_spec (distinct _ memRule) active workspaces).2
      parameters binding, exactHere.candidate_iff parameters (typed _ memRule)]
    refine and_congr_right fun _ => forall₂_congr fun seen isSeen => ?_
    rw [exactHere.candidate_iff parameters
      ((typed _ memRule).of_subset ((tracks r).seen_subset seen isSeen).subset)]
  merges := valid.merges
  inserted := valid.inserted

theorem tracks_enter {solve : SolveState} {kpkc : Fin stratum.length → Kpkc.DeltaKPKC}
    {r : Fin stratum.length} {origin : Kpkc.DeltaKPKC}
    (reachable : Kpkc.Reachable ((stratum.get r).ruleGraph numeric data) origin)
    (isReset : kpkc r = origin.reset) :
    (KpkcState.mk (solve.enter stratum) kpkc fun _ => []).Tracks data numeric r where
  history := ⟨origin, [], reachable, isReset, List.pairwise_singleton _ _, rfl⟩
  distinct := List.nodup_nil
  tested := nofun

theorem exists_validSchedule (data : ProgramData) (numeric : NumericOverapproximation)
    (policy : AnnotationPolicy) (st : KpkcState stratum) :
    ∃ workspaces schedule, st.ValidSchedule data numeric policy workspaces schedule := by
  let workspaces : Fin stratum.length → Kpkc.Workspace :=
    fun _ => ⟨fun _ _ => false, fun _ => false, fun _ => ⟨0, 0⟩, none⟩
  obtain ⟨schedule, sameReports, samePending, merges, inserted⟩ :=
    StratumState.exists_schedule data st.loop
      (fun r => (st.generate data numeric workspaces r).map fun binding => (0, binding))
      (fun schedule => (st.loop.merged data policy schedule).1.advanceToNextNonempty.2.currentBucket)
      fun _ _ => rfl
  refine ⟨workspaces, schedule, fun r _ => by rw [samePending], fun r _ => ?_, merges, inserted⟩
  rw [sameReports, List.map_map]
  exact List.map_id _

end

end KpkcState

/-! ### The whole evaluation -/

/-- Between two strata, or at the head of the loop over a stratum with others to follow. -/
inductive KpkcConfig where
  | between (strata : List Stratum) (solve : SolveState)
  | within (stratum : Stratum) (strata : List Stratum) (st : KpkcState stratum)

/-- The configuration without the enumerators. -/
def KpkcConfig.loop : KpkcConfig → SolveConfig
  | .between strata solve => .between strata solve
  | .within stratum strata st => .within stratum strata st.loop

section

variable (data : ProgramData) (numeric : NumericOverapproximation) (policy : AnnotationPolicy)

/-- A step of `solve_bottom_up`. The enumerators of a stratum have been reset, after whatever
earlier evaluations have done with them. -/
inductive KpkcStep : KpkcConfig → KpkcConfig → Prop where
  | enter (stratum : Stratum) (strata : List Stratum) (solve : SolveState)
      (kpkc : Fin stratum.length → Kpkc.DeltaKPKC) :
      (∀ r, ∃ origin, Kpkc.Reachable ((stratum.get r).ruleGraph numeric data) origin ∧
        kpkc r = origin.reset) →
      KpkcStep (.between (stratum :: strata) solve)
        (.within stratum strata ⟨solve.enter stratum, kpkc, fun _ => []⟩)
  | iterate {stratum : Stratum} (strata : List Stratum) {st st' : KpkcState stratum} :
      st.Iterates data numeric policy st' →
      KpkcStep (.within stratum strata st) (.within stratum strata st')
  | returns {stratum : Stratum} (strata : List Stratum) {st : KpkcState stratum}
      {annotations : Annotations} {buckets : CostBuckets Tuple} :
      st.Returns data numeric policy annotations buckets →
      KpkcStep (.within stratum strata st) (.between strata ⟨st.loop.facts, annotations, buckets⟩)

/-- The assertions in a pass: `ensure_novel_binding` for each new clique, across all workers,
and `ensure_applicability` for each announced binding. -/
def KpkcConfig.Asserts : KpkcConfig → Prop
  | .between _ _ => True
  | .within stratum _ st => ∀ workspaces schedule,
      st.ValidSchedule data numeric policy workspaces schedule → ∀ r ∈ st.loop.active,
        (st.seenBindings r ++ st.generate data numeric workspaces r).Nodup ∧
        ∀ a ∈ (st.loop.output data schedule r).announced,
          BodyHolds data (stratum.get r) st.loop.facts a.binding

/-- What holds before the remaining strata. -/
structure BetweenInvariant (strata : List Stratum) (solve : SolveState) : Prop where
  stratified : Stratified strata
  entry : EntryInvariant policy strata solve
  matched : MatchedStrata data numeric strata solve.facts

/-- What holds at the head of the loop over a stratum that was entered from `solve`. -/
structure WithinInvariant {stratum : Stratum} (strata : List Stratum) (st : KpkcState stratum)
    (solve : SolveState) : Prop where
  between : BetweenInvariant data numeric policy (stratum :: strata) solve
  run : Relation.ReflTransGen
    (StratumState.Iterates data policy (reportedEnumeration data numeric)) (solve.enter stratum) st.loop
  tracks : ∀ r, st.Tracks data numeric r

def KpkcConfig.Invariant : KpkcConfig → Prop
  | .between strata solve => BetweenInvariant data numeric policy strata solve
  | .within _ strata st => ∃ solve, WithinInvariant data numeric policy strata st solve

end

section

variable {data : ProgramData} {numeric : NumericOverapproximation} {policy : AnnotationPolicy}
  {stratum : Stratum} {strata : List Stratum} {solve : SolveState} {st : KpkcState stratum}
  {workspaces : Fin stratum.length → Kpkc.Workspace} {schedule : Schedule stratum}

theorem StratumModel.base_or_derives {base : Tuple → Prop} {fact : Tuple}
    (model : StratumModel data stratum base fact) : base fact ∨ stratum.Derives fact := by
  cases model with
  | base holds => exact .inl holds
  | rule mem _ _ => exact .inr ⟨_, mem, _, rfl⟩

namespace WithinInvariant

variable (inv : WithinInvariant data numeric policy strata st solve)

include inv

theorem negationFree : stratum.NegationFree :=
  inv.between.stratified.negationFree stratum List.mem_cons_self

theorem loopInvariant : StratumState.LoopInvariant data (reportedEnumeration data numeric) solve.facts
    solve.annotations.orAnnot policy st.loop :=
  (loopInvariant_enter _ inv.between.entry).run inv.negationFree inv.run

theorem typed : ∀ cws ∈ stratum, cws.TypedFacts (data.factSets st.loop.facts) := by
  intro cws mem
  apply inv.between.matched.typed stratum List.mem_cons_self cws mem
  intro fact isFact
  exact (inv.loopInvariant.facts.model fact isFact).base_or_derives.imp_right
    fun derives => ⟨stratum, List.mem_cons_self, derives⟩

/-- The choices of a pass are choices of the loop. -/
theorem valid (valid : st.ValidSchedule data numeric policy workspaces schedule) :
    st.loop.ValidSchedule data policy (reportedEnumeration data numeric) schedule :=
  valid.loop inv.tracks (inv.between.matched.distinct stratum List.mem_cons_self)
    (inv.between.matched.exact stratum List.mem_cons_self) inv.typed

/-- A pass keeps the invariant. -/
theorem next (valid : st.ValidSchedule data numeric policy workspaces schedule)
    (advances : (st.loop.merged data policy schedule).1.advanceToNextNonempty.1 = true) :
    WithinInvariant data numeric policy strata (st.next data numeric policy workspaces schedule)
      solve where
  between := inv.between
  run := inv.run.tail ⟨schedule, inv.valid valid, advances, rfl⟩
  tracks := by
    intro r
    have memRule := List.get_mem stratum r
    have facts := inv.loopInvariant.facts
    refine (inv.tracks r).next (inv.between.matched.distinct stratum List.mem_cons_self _ memRule) ?_ _
    have model := (facts.model_next (inv.valid valid)).2
    exact KpkcState.growsFor_of_model inv.negationFree memRule facts.contains
      (fun fact mem => StratumState.mem_insertHeads.mpr (.inl mem)) model

/-- A pass that returns leads on to the next stratum. -/
theorem returns {annotations : Annotations} {buckets : CostBuckets Tuple}
    (returns : st.loop.Returns data policy (reportedEnumeration data numeric) annotations buckets) :
    BetweenInvariant data numeric policy strata ⟨st.loop.facts, annotations, buckets⟩ := by
  have solves : SolvesStratum data policy (reportedEnumeration data numeric) stratum solve
      ⟨st.loop.facts, annotations, buckets⟩ := ⟨st.loop, inv.run, returns, rfl⟩
  refine ⟨inv.between.stratified.tail, solves.entryInvariant inv.between.stratified inv.between.entry,
    fun later mem => inv.between.matched.distinct later (List.mem_cons_of_mem _ mem),
    fun later mem => inv.between.matched.exact later (List.mem_cons_of_mem _ mem), ?_⟩
  intro later mem cws memRule fluent known
  apply inv.between.matched.typed later (List.mem_cons_of_mem _ mem) cws memRule
  intro fact isFact
  rcases known fact isFact with earlier | ⟨s, memStratum, derives⟩
  · exact (inv.loopInvariant.facts.model fact earlier).base_or_derives.imp_right
      fun derives => ⟨stratum, List.mem_cons_self, derives⟩
  · exact .inr ⟨s, List.mem_cons_of_mem _ memStratum, derives⟩

theorem asserts : (KpkcConfig.within stratum strata st).Asserts data numeric policy := by
  intro workspaces schedule valid r active
  have memRule := List.get_mem stratum r
  have tracks := inv.tracks r
  constructor
  · exact tracks.nodup_append
      (inv.between.matched.distinct stratum List.mem_cons_self _ memRule) active workspaces
  · exact (inv.loopInvariant.facts.output (inv.valid valid) active).1

end WithinInvariant

/-- The steps are those of the loop whose reports are the newly matched bindings. -/
theorem simulates_solve : Simulates (KpkcStep data numeric policy)
    (SolveStep data policy (reportedEnumeration data numeric)) KpkcConfig.loop
    (KpkcConfig.Invariant data numeric policy) := by
  intro config config' inv step
  cases step with
  | enter stratum strata solve kpkc reset =>
      refine ⟨⟨solve, inv, .refl, fun r => ?_⟩, .enter stratum strata solve⟩
      obtain ⟨origin, reachable, isReset⟩ := reset r
      exact KpkcState.tracks_enter reachable isReset
  | iterate strata iterates =>
      obtain ⟨solve, within⟩ := inv
      obtain ⟨workspaces, schedule, valid, advances, rfl⟩ := iterates
      exact ⟨⟨solve, within.next valid advances⟩,
        .iterate strata ⟨schedule, within.valid valid, advances, rfl⟩⟩
  | returns strata returns =>
      obtain ⟨solve, within⟩ := inv
      obtain ⟨workspaces, schedule, valid, ends, sameAnnotations, sameBuckets⟩ := returns
      have loopReturns : StratumState.Returns data policy (reportedEnumeration data numeric) _ _ _ :=
        ⟨schedule, within.valid valid, ends, sameAnnotations, sameBuckets⟩
      exact ⟨within.returns loopReturns, .returns strata loopReturns⟩

/-- A configuration without a step is the end of the evaluation. -/
theorem kpkcBlocked_iff {config : KpkcConfig} :
    (∀ config', ¬ KpkcStep data numeric policy config config') ↔
      ∃ final, config = .between [] final := by
  constructor
  · intro blocked
    cases config with
    | between strata solve =>
        cases strata with
        | nil => exact ⟨solve, rfl⟩
        | cons stratum strata =>
            refine absurd (.enter stratum strata solve (fun _ => Kpkc.DeltaKPKC.create.reset) ?_) (blocked _)
            exact fun r => ⟨_, .create, rfl⟩
    | within stratum strata st =>
        obtain ⟨workspaces, schedule, valid⟩ := st.exists_validSchedule data numeric policy
        cases goesOn : (st.loop.merged data policy schedule).1.advanceToNextNonempty.1 with
        | true =>
            exact absurd (.iterate strata ⟨workspaces, schedule, valid, goesOn, rfl⟩) (blocked _)
        | false =>
            exact absurd (.returns strata ⟨workspaces, schedule, valid, goesOn, rfl, rfl⟩) (blocked _)
  · rintro ⟨final, rfl⟩ config' step
    cases step

/-- `solve_bottom_up` with the clique enumerators. -/
def KpkcSolves (data : ProgramData) (numeric : NumericOverapproximation) (policy : AnnotationPolicy)
    (strata : List Stratum) (facts : List Tuple) (final : SolveState) : Prop :=
  Relation.ReflTransGen (KpkcStep data numeric policy) (.between strata (.initial facts))
    (.between [] final)

theorem invariant_initial {facts : List Tuple} (stratified : Stratified strata)
    (matched : MatchedStrata data numeric strata facts) :
    KpkcConfig.Invariant data numeric policy (.between strata (.initial facts)) :=
  ⟨stratified, entryInvariant_initial policy strata facts, matched⟩

/-- Where the rules are matched exactly, an evaluation is one by newly matched bindings. -/
theorem KpkcSolves.solvesStrata {facts : List Tuple} {final : SolveState}
    (solves : KpkcSolves data numeric policy strata facts final) (stratified : Stratified strata)
    (matched : MatchedStrata data numeric strata facts) :
    SolvesStrata data policy (reportedEnumeration data numeric) strata (.initial facts) final :=
  leads_of_run (simulates_solve.run (invariant_initial stratified matched) solves).2

theorem exists_kpkcSolves {facts : List Tuple} (policy : AnnotationPolicy)
    (stratified : Stratified strata) (matched : MatchedStrata data numeric strata facts) :
    ∃ final, KpkcSolves data numeric policy strata facts final := by
  have ends : Acc (fun after before => KpkcStep data numeric policy before after)
      (.between strata (.initial facts)) :=
    simulates_solve.acc (invariant_initial stratified matched)
      (acc_between stratified (entryInvariant_initial policy strata facts))
  obtain ⟨config, run, blocked⟩ := exists_blocked ends
  obtain ⟨final, rfl⟩ := kpkcBlocked_iff.mp blocked
  exact ⟨final, run⟩

/-- With the clique enumerators no run goes on forever, every run that can go no further has
the perfect model as its facts, and in all passes the assertions about the new cliques hold. -/
theorem solveBottomUp_newCliques (stratified : Stratified strata) (facts : List Tuple)
    (matched : MatchedStrata data numeric strata facts) :
    Acc (fun after before => KpkcStep data numeric policy before after)
      (.between strata (.initial facts)) ∧
    ∀ config, Relation.ReflTransGen (KpkcStep data numeric policy)
        (.between strata (.initial facts)) config →
      config.Asserts data numeric policy ∧
      ((∀ config', ¬ KpkcStep data numeric policy config config') →
        ∃ final, config = .between [] final ∧
          ∀ fact, fact ∈ final.facts ↔ perfectModel data strata (· ∈ facts) fact) := by
  have entry := entryInvariant_initial policy strata facts
  have start := @invariant_initial data numeric policy strata facts stratified matched
  refine ⟨simulates_solve.acc start (acc_between stratified entry), fun config run => ?_⟩
  obtain ⟨inv, loopRun⟩ := simulates_solve.run start run
  constructor
  · cases config with
    | between strata solve => trivial
    | within stratum strata st =>
        obtain ⟨solve, within⟩ := inv
        exact within.asserts
  · intro blocked
    obtain ⟨final, rfl⟩ := kpkcBlocked_iff.mp blocked
    have solves : SolvesStrata data policy (reportedEnumeration data numeric) strata (.initial facts)
        final := leads_of_run loopRun
    exact ⟨final, rfl, solves.facts_eq_perfectModel stratified entry⟩

end

/-! ### A program with a path -/

/-- Static predicates are binary and fluent ones are unary, over three objects. -/
def pathDomains (kind : FactKind) (_ : Nat) : List (List Nat) :=
  match kind with
  | .static => [[0, 1, 2], [0, 1, 2]]
  | .fluent => [[0, 1, 2]]

/-- `reached(y) :- reached(x), edge(x, y)` -/
def stepRule : ConstRuleWorkspace where
  rule :=
    { arity := 2
      body :=
        { staticLiterals := [⟨⟨0, [.parameter 0, .parameter 1]⟩, true⟩]
          fluentLiterals := [⟨⟨0, [.parameter 0]⟩, true⟩] }
      head := ⟨0, [.parameter 1]⟩
      cost := 1 }
  parameterDomains := [[0, 1, 2], [0, 1, 2]]
  predicateDomains := pathDomains
  closed := by
    intro kind literal mem index isTerm
    cases kind with
    | static =>
        cases List.mem_singleton.mp mem
        rcases List.mem_pair.mp isTerm with same | same
        · cases same
          decide
        · cases same
          decide
    | fluent =>
        cases List.mem_singleton.mp mem
        cases List.mem_singleton.mp isTerm
        decide
  full := by
    intro kind literal mem
    cases kind <;> cases List.mem_singleton.mp mem <;> rfl
  covered := by
    intro kind literal mem position term found object isObject
    cases kind with
    | static =>
        cases List.mem_singleton.mp mem
        match position with
        | 0 | 1 =>
            cases found
            exact isObject
        | _ + 2 => cases found
    | fluent =>
        cases List.mem_singleton.mp mem
        match position with
        | 0 =>
            cases found
            exact isObject
        | _ + 1 => cases found

/-- `missed(x) :- not reached(x)` -/
def missedRule : ConstRuleWorkspace where
  rule :=
    { arity := 1
      body := { fluentLiterals := [⟨⟨0, [.parameter 0]⟩, false⟩] }
      head := ⟨1, [.parameter 0]⟩
      cost := 1 }
  parameterDomains := [[0, 1, 2]]
  predicateDomains := pathDomains
  closed := by
    intro kind literal mem index isTerm
    cases kind with
    | static => cases mem
    | fluent =>
        cases List.mem_singleton.mp mem
        cases List.mem_singleton.mp isTerm
        decide
  full := by
    intro kind literal mem
    cases kind with
    | static => cases mem
    | fluent =>
        cases List.mem_singleton.mp mem
        rfl
  covered := by
    intro kind literal mem position term found object isObject
    cases kind with
    | static => cases mem
    | fluent =>
        cases List.mem_singleton.mp mem
        match position with
        | 0 =>
            cases found
            exact isObject
        | _ + 1 => cases found

/-- The edge from 0 to 1. -/
def pathData : ProgramData := ⟨[⟨0, [0, 1]⟩], fun _ _ => .nan⟩

theorem path_stratified : Stratified [[stepRule], [missedRule]] where
  negationFree := by
    intro stratum mem cws memRule cws' memRule' literal memLiteral negative
    rcases List.mem_pair.mp mem with rfl | rfl
    · cases List.mem_singleton.mp memRule
      cases List.mem_singleton.mp memLiteral
      cases negative
    · cases List.mem_singleton.mp memRule
      cases List.mem_singleton.mp memRule'
      cases List.mem_singleton.mp memLiteral
      decide
  ordered := by
    refine List.pairwise_pair.mpr ?_
    intro cws mem cws' mem'
    cases List.mem_singleton.mp mem
    cases List.mem_singleton.mp mem'
    decide

theorem path_rules {P : ConstRuleWorkspace → Prop} (step : P stepRule) (missed : P missedRule) :
    ∀ stratum ∈ [[stepRule], [missedRule]], ∀ cws ∈ stratum, P cws := by
  intro stratum mem cws memRule
  rcases List.mem_pair.mp mem with rfl | rfl
  · exact List.mem_singleton.mp memRule ▸ step
  · exact List.mem_singleton.mp memRule ▸ missed

theorem path_matched (numeric : NumericOverapproximation) :
    MatchedStrata pathData numeric [[stepRule], [missedRule]] [⟨0, [0]⟩] where
  distinct := path_rules (by decide) (by decide)
  exact := by
    refine path_rules (ConstRuleWorkspace.exactTests_of_noConstraints rfl ?_)
      (ConstRuleWorkspace.exactTests_of_noConstraints rfl ?_)
    · rintro kind literal mem ⟨_, binary, weak⟩
      cases kind with
      | static =>
          cases List.mem_singleton.mp mem
          rcases weak with ⟨p, same⟩ | ⟨negative, _⟩
          · cases same
          · cases negative
      | fluent =>
          cases List.mem_singleton.mp mem
          cases binary
    · rintro kind literal mem ⟨two, _⟩
      exact absurd two (by decide)
  typed := by
    have derived : ∀ stratum ∈ [[stepRule], [missedRule]], ∀ cws ∈ stratum, ∀ binding,
        (groundHead cws.rule binding).objects.length = 1 :=
      path_rules (fun _ => rfl) fun _ => rfl
    have domains : ∀ stratum ∈ [[stepRule], [missedRule]], ∀ cws ∈ stratum,
        cws.predicateDomains = pathDomains := path_rules rfl rfl
    intro stratum mem cws memRule fluent known kind fact isFact
    rw [domains stratum mem cws memRule]
    cases kind with
    | static =>
        cases List.mem_singleton.mp isFact
        rfl
    | fluent =>
        rcases known fact isFact with initial | ⟨s, memStratum, cws', memRule', binding, rfl⟩
        · cases List.mem_singleton.mp initial
          rfl
        · exact derived s memStratum cws' memRule' binding

theorem solveBottomUp_newCliques_path :
    Acc (fun after before => KpkcStep pathData ⟨fun _ _ _ => true, fun _ _ _ _ => true⟩ .none before after)
      (.between [[stepRule], [missedRule]] (.initial [⟨0, [0]⟩])) ∧
    ∀ config, Relation.ReflTransGen
        (KpkcStep pathData ⟨fun _ _ _ => true, fun _ _ _ _ => true⟩ .none)
        (.between [[stepRule], [missedRule]] (.initial [⟨0, [0]⟩])) config →
      config.Asserts pathData ⟨fun _ _ _ => true, fun _ _ _ _ => true⟩ .none ∧
      ((∀ config', ¬ KpkcStep pathData ⟨fun _ _ _ => true, fun _ _ _ _ => true⟩ .none config config') →
        ∃ final, config = .between [] final ∧ ∀ fact, fact ∈ final.facts ↔
          perfectModel pathData [[stepRule], [missedRule]] (· ∈ [⟨0, [0]⟩]) fact) :=
  solveBottomUp_newCliques path_stratified [⟨0, [0]⟩] (path_matched _)

end Tyr.Datalog
