import Tyr.Datalog.BottomUpCosts

/-!
Bottom-up evaluation computes the perfect model.

The invariants of the facts and of the buckets hold at each head of the loop,
under every schedule and every annotation policy, so each stratum ends in its
model (`SolvesStratum.facts_eq_model`) and the strata one after the other in the
perfect model.
-/

namespace Tyr.Datalog

open Tyr.Lib Tyr.Formalism Tyr.Formalism.Datalog

namespace StratumState

section

variable {stratum : Stratum} (data : ProgramData) (enumeration : CliqueEnumeration data)
  (base : List Tuple) (entry : Tuple → Cost)

/-- What the policy adds to the invariant of the loop. -/
def PolicyInvariant (policy : AnnotationPolicy) (st : StratumState stratum) : Prop :=
  match policy with
  | .none => PlainBuckets st
  | .annotate aggregation => CostInvariant data aggregation base entry st

structure LoopInvariant (policy : AnnotationPolicy) (st : StratumState stratum) : Prop where
  facts : st.FactInvariant data enumeration base
  policy : PolicyInvariant data base entry policy st

end

section

variable {data : ProgramData} {policy : AnnotationPolicy} {enumeration : CliqueEnumeration data}
  {stratum : Stratum} {st st' : StratumState stratum} {base : List Tuple} {entry : Tuple → Cost}
  {schedule : Schedule stratum}

theorem LoopInvariant.keepsHeads (inv : LoopInvariant data enumeration base entry policy st)
    (valid : st.ValidSchedule data policy enumeration schedule) :
    st.KeepsHeads data policy schedule := by
  obtain ⟨facts, policyInv⟩ := inv
  cases policy with
  | none => exact PlainBuckets.keepsHeads facts policyInv
  | annotate aggregation => exact CostInvariant.keepsHeads facts policyInv valid

/-- An iteration keeps the invariant. -/
theorem LoopInvariant.iterates (negationFree : stratum.NegationFree)
    (inv : LoopInvariant data enumeration base entry policy st)
    (iterates : st.Iterates data policy enumeration st') :
    LoopInvariant data enumeration base entry policy st' := by
  obtain ⟨schedule, valid, advances, rfl⟩ := iterates
  refine ⟨inv.facts.next negationFree valid (inv.keepsHeads valid), ?_⟩
  cases policy with
  | none => exact PlainBuckets.next inv.policy advances
  | annotate aggregation => exact CostInvariant.next inv.facts inv.policy valid

/-- The invariant holds along every run of the loop. -/
theorem LoopInvariant.run (negationFree : stratum.NegationFree)
    (inv : LoopInvariant data enumeration base entry policy st)
    (run : Relation.ReflTransGen (Iterates data policy enumeration) st st') :
    LoopInvariant data enumeration base entry policy st' := by
  induction run with
  | refl => exact inv
  | tail _ step ih => exact ih.iterates negationFree step

end

end StratumState

/-! ### Strata -/

section

variable {data : ProgramData} {policy : AnnotationPolicy} {enumeration : CliqueEnumeration data}
  {stratum : Stratum} {strata : List Stratum} {before after : SolveState}

/-- What the costs must be before the remaining strata. -/
def EntryInvariant (policy : AnnotationPolicy) (strata : List Stratum) (solve : SolveState) : Prop :=
  match policy with
  | .none => True
  | .annotate _ => ∀ stratum ∈ strata, StratumState.EntryCosts stratum solve

theorem entryInvariant_initial (policy : AnnotationPolicy) (strata : List Stratum) (facts : List Tuple) :
    EntryInvariant policy strata (SolveState.initial facts) := by
  cases policy with
  | none => trivial
  | annotate aggregation =>
      intro stratum _
      constructor
      · intro fact mem
        exact (if_pos mem).trans_ne WithTop.zero_ne_top
      · exact fun fact notMem => if_neg notMem
      · exact fun fact mem _ _ _ => if_pos mem

theorem loopInvariant_enter (enumeration : CliqueEnumeration data)
    (entry : EntryInvariant policy (stratum :: strata) before) :
    StratumState.LoopInvariant data enumeration before.facts before.annotations.orAnnot policy
      (before.enter stratum) := by
  refine ⟨StratumState.factInvariant_enter before, ?_⟩
  cases policy with
  | none => exact StratumState.plainBuckets_enter before
  | annotate aggregation =>
      exact StratumState.costInvariant_enter (entry stratum List.mem_cons_self)

/-- A stratum ends with its model as the facts. -/
theorem SolvesStratum.facts_eq_model (negationFree : stratum.NegationFree)
    (entry : EntryInvariant policy (stratum :: strata) before)
    (solves : SolvesStratum data policy enumeration stratum before after) (fact : Tuple) :
    fact ∈ after.facts ↔ StratumModel data stratum (· ∈ before.facts) fact := by
  obtain ⟨st, run, ⟨schedule, valid, done, _, _⟩, same⟩ := solves
  have inv := (loopInvariant_enter enumeration entry).run negationFree run
  rw [same]
  exact inv.facts.facts_eq_model negationFree valid (inv.keepsHeads valid) done fact

/-- A stratum ends with facts that are closed under its rules. -/
theorem SolvesStratum.closed (negationFree : stratum.NegationFree)
    (entry : EntryInvariant policy (stratum :: strata) before)
    (solves : SolvesStratum data policy enumeration stratum before after) {cws : ConstRuleWorkspace}
    (mem : cws ∈ stratum) {binding : List Nat} (holds : BodyHolds data cws after.facts binding) :
    groundHead cws.rule binding ∈ after.facts := by
  obtain ⟨st, run, ⟨schedule, valid, done, _, _⟩, same⟩ := solves
  have inv := (loopInvariant_enter enumeration entry).run negationFree run
  rw [same] at holds ⊢
  exact inv.facts.closed valid (inv.keepsHeads valid) done mem holds

/-- A stratum leaves the costs as the later strata need them. -/
theorem SolvesStratum.entryInvariant (stratified : Stratified (stratum :: strata))
    (entry : EntryInvariant policy (stratum :: strata) before)
    (solves : SolvesStratum data policy enumeration stratum before after) :
    EntryInvariant policy strata after := by
  have negationFree := stratified.negationFree stratum List.mem_cons_self
  obtain ⟨st, run, ⟨schedule, valid, done, sameAnnotations, _⟩, sameFacts⟩ := solves
  have inv := (loopInvariant_enter enumeration entry).run negationFree run
  cases policy with
  | none => trivial
  | annotate aggregation =>
      have costs : StratumState.CostInvariant data aggregation before.facts
        before.annotations.orAnnot st := inv.policy
      have merged := costs.mergedCosts inv.facts valid
      intro later memLater
      constructor <;> rw [sameFacts, sameAnnotations]
      · intro fact isFact
        rw [merged.settled fact isFact]
        exact costs.finite fact isFact
      · exact fun fact notFact => costs.orAnnot_returns inv.facts valid done notFact
      · intro fact isFact cws memRule isHead
        rw [merged.settled fact isFact]
        rcases (inv.facts.model fact isFact).base_or_head with isBase | ⟨cws', mem', isHead'⟩
        · rw [costs.unchanged fact isBase]
          exact (entry later (List.mem_cons_of_mem _ memLater)).heads fact isBase cws memRule isHead
        · have ordered := List.rel_of_pairwise_cons stratified.ordered memLater
          exact absurd (isHead'.symm.trans isHead) (ordered cws' mem' cws memRule).2

theorem Stratified.tail (stratified : Stratified (stratum :: strata)) : Stratified strata where
  negationFree := fun later mem => stratified.negationFree later (List.mem_cons_of_mem _ mem)
  ordered := (List.pairwise_cons.mp stratified.ordered).2

/-- The strata end with the perfect model. -/
theorem SolvesStrata.facts_eq_perfectModel
    (solves : SolvesStrata data policy enumeration strata before after)
    (stratified : Stratified strata) (entry : EntryInvariant policy strata before) (fact : Tuple) :
    fact ∈ after.facts ↔ perfectModel data strata (· ∈ before.facts) fact := by
  induction solves with
  | nil => exact Iff.rfl
  | @cons stratum strata before middle after first _ ih =>
      have negationFree := stratified.negationFree stratum List.mem_cons_self
      have sameFacts : (· ∈ middle.facts) = StratumModel data stratum (· ∈ before.facts) :=
        funext fun fact => propext (first.facts_eq_model negationFree entry fact)
      rw [ih stratified.tail (first.entryInvariant stratified entry), sameFacts]
      rfl

/-- The strata add facts of their head predicates only. -/
theorem perfectModel_base_or_head {strata : List Stratum} {base : Tuple → Prop} {fact : Tuple}
    (model : perfectModel data strata base fact) :
    base fact ∨ ∃ stratum ∈ strata, ∃ cws ∈ stratum, fact.relation = cws.rule.head.predicate := by
  induction strata generalizing base with
  | nil => exact .inl model
  | cons stratum strata ih =>
      rcases ih model with inStratum | ⟨later, mem, rest⟩
      · rcases inStratum.base_or_head with isBase | head
        · exact .inl isBase
        · exact .inr ⟨stratum, List.mem_cons_self, head⟩
      · exact .inr ⟨later, List.mem_cons_of_mem _ mem, rest⟩

theorem perfectModel_of_base {strata : List Stratum} {base : Tuple → Prop} {fact : Tuple}
    (isBase : base fact) : perfectModel data strata base fact := by
  induction strata generalizing base with
  | nil => exact isBase
  | cons stratum strata ih => exact ih (.base isBase)

/-- The facts in the end are closed under the rules of all strata. -/
theorem SolvesStrata.closed (solves : SolvesStrata data policy enumeration strata before after)
    (stratified : Stratified strata) (entry : EntryInvariant policy strata before) :
    ∀ stratum ∈ strata, ∀ cws ∈ stratum, ∀ binding, BodyHolds data cws after.facts binding →
      groundHead cws.rule binding ∈ after.facts := by
  induction solves with
  | nil => nofun
  | @cons stratum strata before middle after first rest ih =>
      have entryMiddle := first.entryInvariant stratified entry
      intro current mem cws memRule binding holds
      rcases List.mem_cons.mp mem with rfl | later
      · -- The later strata do not change the facts that the rule looks at.
        have final := rest.facts_eq_perfectModel stratified.tail entryMiddle
        have agree : AgreeOn cws.rule middle.facts after.facts := by
          intro literal memLiteral binding
          rw [final]
          refine ⟨perfectModel_of_base, fun model => ?_⟩
          rcases perfectModel_base_or_head model with isBase | ⟨later, memLater, cws', mem', isHead⟩
          · exact isBase
          · have ordered := List.rel_of_pairwise_cons stratified.ordered memLater
            exact absurd isHead ((ordered cws memRule cws' mem').1 literal memLiteral)
        have negationFree := stratified.negationFree current List.mem_cons_self
        have head := first.closed negationFree entry memRule (agree.bodyHolds.mpr holds)
        exact (final _).mpr (perfectModel_of_base head)
      · exact ih stratified.tail entryMiddle current later cws memRule binding holds

end

/-- When the evaluation of a stratified program returns, its facts are the
perfect model, for every annotation policy, every enumeration and every
schedule: each rule is satisfied, and nothing else has been added. -/
theorem solveBottomUp_perfectModel (data : ProgramData) (policy : AnnotationPolicy)
    (enumeration : CliqueEnumeration data) (strata : List Stratum) (facts : List Tuple)
    (final : SolveState) (stratified : Stratified strata)
    (solves : SolvesStrata data policy enumeration strata (SolveState.initial facts) final) :
    (∀ fact, fact ∈ final.facts ↔ perfectModel data strata (· ∈ facts) fact) ∧
      ∀ stratum ∈ strata, ∀ cws ∈ stratum, ∀ binding, BodyHolds data cws final.facts binding →
        groundHead cws.rule binding ∈ final.facts := by
  have entry := entryInvariant_initial policy strata facts
  exact ⟨solves.facts_eq_perfectModel stratified entry, solves.closed stratified entry⟩

/-- The enumeration that leaves exactly the residual members of the body untested. -/
def CliqueEnumeration.exact (data : ProgramData) : CliqueEnumeration data where
  candidate cws fluent binding := cws.InDomains binding ∧
    (∀ kind, ∀ literal ∈ cws.rule.body.literals kind,
      literal ∉ cws.rule.body.nullary.literals kind →
      literal ∉ cws.conflictingOverapproximation.literals kind →
      (data.factSets fluent).isValidBinding binding kind literal = true) ∧
    ∀ constraint ∈ cws.rule.body.numericConstraints,
      constraint ∉ cws.rule.body.nullary.numericConstraints →
      constraint ∉ cws.conflictingOverapproximation.numericConstraints →
      (data.factSets fluent).isValidConstraint binding constraint = true
  complete := by
    intro cws fluent binding inDomains holds
    obtain ⟨literals, constraints⟩ := FactSets.isValidCondition_iff.mp holds
    exact ⟨inDomains, fun kind literal mem _ _ => literals kind literal mem,
      fun constraint mem _ _ => constraints constraint mem⟩
  inDomains := fun _ _ _ candidate => candidate.1
  literal := fun _ _ _ candidate => candidate.2.1
  constraint := fun _ _ _ candidate => candidate.2.2

/-! ### A run -/

/-- `reached :- start` -/
def reachedRule : ConstRuleWorkspace where
  rule := { arity := 0, body := { fluentLiterals := [⟨⟨0, []⟩, true⟩] }, head := ⟨1, []⟩, cost := 1 }
  parameterDomains := []
  predicateDomains := fun _ _ => []
  closed := by
    intro kind literal mem
    cases kind with
    | static => exact absurd mem List.not_mem_nil
    | fluent =>
        cases List.mem_singleton.mp mem
        nofun
  full := by
    intro kind literal mem
    cases kind with
    | static => exact absurd mem List.not_mem_nil
    | fluent =>
        cases List.mem_singleton.mp mem
        rfl
  covered := by
    intro kind literal mem
    cases kind with
    | static => exact absurd mem List.not_mem_nil
    | fluent =>
        cases List.mem_singleton.mp mem
        simp

/-- `marked(x) :- listed(x), reached`, where `reached` is left to the residual check. -/
def markedRule : ConstRuleWorkspace where
  rule := {
    arity := 1
    body := { fluentLiterals := [⟨⟨2, [.parameter 0]⟩, true⟩, ⟨⟨1, []⟩, true⟩] }
    head := ⟨3, [.parameter 0]⟩
    cost := 2 }
  parameterDomains := [[0]]
  predicateDomains := fun _ predicate => if predicate = 2 then [[0]] else []
  closed := by
    intro kind literal mem index isTerm
    cases kind with
    | static => exact absurd mem List.not_mem_nil
    | fluent =>
        rcases List.mem_pair.mp mem with rfl | rfl
        · cases List.mem_singleton.mp isTerm
          exact Nat.zero_lt_one
        · cases isTerm
  full := by
    intro kind literal mem
    cases kind with
    | static => exact absurd mem List.not_mem_nil
    | fluent => rcases List.mem_pair.mp mem with rfl | rfl <;> rfl
  covered := by
    intro kind literal mem position term found object isObject
    cases kind with
    | static => exact absurd mem List.not_mem_nil
    | fluent =>
        rcases List.mem_pair.mp mem with rfl | rfl
        · match position with
          | 0 =>
              cases found
              exact isObject
          | _ + 1 => cases found
        · cases found

def noData : ProgramData := ⟨[], fun _ _ => .nan⟩

abbrev markedStratum : Stratum := [reachedRule, markedRule]

theorem markedStratum_cases (r : Fin markedStratum.length) : r = 0 ∨ r = 1 :=
  (Fin.exists_fin_two (p := fun i => r = i)).mp ⟨r, rfl⟩

theorem inDomains_markedRule {binding : List Nat} : markedRule.InDomains binding ↔ binding = [0] := by
  constructor
  · rintro ⟨length, inDomains⟩
    obtain ⟨x, rfl⟩ := List.length_eq_one_iff.mp length
    have isZero : x ∈ [0] := inDomains 0 Nat.zero_lt_one
    rw [List.mem_singleton.mp isZero]
  · rintro rfl
    refine ⟨rfl, fun p inRange => ?_⟩
    obtain rfl : p = 0 := Nat.lt_one_iff.mp inRange
    exact List.mem_singleton_self 0

/-- Once the object is listed, it is a candidate. -/
theorem candidate_markedRule {fluent : List Tuple} (listed : ⟨2, [0]⟩ ∈ fluent) {binding : List Nat} :
    (CliqueEnumeration.exact noData).candidate markedRule fluent binding ↔ binding = [0] := by
  constructor
  · rintro ⟨inDomains, _⟩
    exact inDomains_markedRule.mp inDomains
  · intro isBinding
    refine ⟨inDomains_markedRule.mpr isBinding, fun kind literal mem notNullary _ => ?_, nofun⟩
    cases kind with
    | static => cases mem
    | fluent =>
        rcases List.mem_pair.mp mem with rfl | rfl
        · rw [isBinding, FactSets.isValidBinding_iff]
          exact iff_of_true listed rfl
        · exact absurd (List.mem_singleton_self _) notNullary

/-- The first pass derives `reached`; the object has to wait. -/
def markedFirst : Schedule markedStratum where
  pending := fun _ => []
  reports r := if r = 1 then [(0, [0])] else []
  nullaryWorker := fun _ => 0
  merges := [(0, 0, ⟨1, []⟩)]
  inserted := [⟨1, []⟩]

def markedStart : StratumState markedStratum :=
  (SolveState.initial [⟨0, []⟩, ⟨2, [0]⟩]).enter markedStratum

theorem markedFirst_announced (r : Fin markedStratum.length) :
    (markedStart.output noData markedFirst r).announced = if r = 0 then [⟨0, []⟩] else [] := by
  rcases markedStratum_cases r with rfl | rfl <;> rfl

theorem markedFirst_valid :
    markedStart.ValidSchedule noData (.annotate .sum) (.exact noData) markedFirst where
  pending := by
    intro r _
    rcases markedStratum_cases r with rfl | rfl <;> exact List.Perm.refl _
  reports_nodup := by
    intro r _
    rcases markedStratum_cases r with rfl | rfl <;> decide
  reports := by
    intro r _ parameters binding
    rcases markedStratum_cases r with rfl | rfl
    · exact absurd rfl parameters
    · have listed : ⟨2, [0]⟩ ∈ markedStart.facts := by decide
      exact List.mem_singleton.trans ((candidate_markedRule listed).symm.trans (and_iff_left nofun).symm)
  merges := by
    rintro ⟨r, worker, head⟩
    constructor
    · intro mem
      cases List.mem_singleton.mp mem
      exact ⟨Finset.mem_univ _, ⟨0, []⟩, List.mem_singleton_self _, rfl, rfl⟩
    · rintro ⟨_, a, mem, sameWorker, sameHead⟩
      rw [markedFirst_announced] at mem
      rcases markedStratum_cases r with rfl | rfl
      · obtain rfl : a = ⟨0, []⟩ := List.mem_singleton.mp mem
        obtain rfl : worker = 0 := sameWorker.symm
        obtain rfl : head = ⟨1, []⟩ := sameHead.symm
        exact List.mem_singleton_self _
      · cases mem
  inserted := by
    have waiting : (markedStart.merged noData (.annotate .sum)
        markedFirst).1.advanceToNextNonempty.2.currentBucket = {⟨1, []⟩} := by decide
    intro head
    rw [waiting, Finset.mem_singleton]
    exact List.mem_singleton

/-- The state after the first pass. -/
def markedWaiting : StratumState markedStratum := markedStart.next noData (.annotate .sum) markedFirst

/-- The second pass marks the object. -/
def markedSecond : Schedule markedStratum where
  pending r := (markedWaiting.rules r).pending
  reports := fun _ => []
  nullaryWorker := fun _ => 0
  merges := [(1, 0, ⟨3, [0]⟩)]
  inserted := [⟨3, [0]⟩]

theorem markedWaiting_active {r : Fin markedStratum.length} (active : r ∈ markedWaiting.active) :
    r = 1 := by
  have waiting : markedWaiting.active = {1} := by decide
  rw [waiting] at active
  exact Finset.mem_singleton.mp active

theorem markedSecond_announced :
    (markedWaiting.output noData markedSecond 1).announced = [⟨0, [0]⟩] := rfl

theorem markedSecond_valid :
    markedWaiting.ValidSchedule noData (.annotate .sum) (.exact noData) markedSecond where
  pending := fun _ _ => List.Perm.refl _
  reports_nodup := fun _ _ => List.nodup_nil
  reports := by
    intro r active _ binding
    obtain rfl := markedWaiting_active active
    refine iff_of_false List.not_mem_nil ?_
    rintro ⟨candidate, unseen⟩
    have listed : ⟨2, [0]⟩ ∈ markedStart.facts := by decide
    exact unseen markedStart.facts rfl
      ((candidate_markedRule listed).mpr (inDomains_markedRule.mp candidate.1))
  merges := by
    rintro ⟨r, worker, head⟩
    constructor
    · intro mem
      cases List.mem_singleton.mp mem
      exact ⟨by decide, ⟨0, [0]⟩, List.mem_singleton_self _, rfl, rfl⟩
    · rintro ⟨active, a, mem, sameWorker, sameHead⟩
      obtain rfl : r = 1 := markedWaiting_active active
      rw [markedSecond_announced] at mem
      obtain rfl : a = ⟨0, [0]⟩ := List.mem_singleton.mp mem
      obtain rfl : worker = 0 := sameWorker.symm
      obtain rfl : head = ⟨3, [0]⟩ := sameHead.symm
      exact List.mem_singleton_self _
  inserted := by
    have waiting : (markedWaiting.merged noData (.annotate .sum)
        markedSecond).1.advanceToNextNonempty.2.currentBucket = {⟨3, [0]⟩} := by decide
    intro head
    rw [waiting, Finset.mem_singleton]
    exact List.mem_singleton

/-- The state after the second pass. -/
def markedDone : StratumState markedStratum :=
  markedWaiting.next noData (.annotate .sum) markedSecond

/-- The last pass finds nothing to do. -/
def markedLast : Schedule markedStratum where
  pending := fun _ => []
  reports := fun _ => []
  nullaryWorker := fun _ => 0
  merges := []
  inserted := []

theorem markedLast_valid :
    markedDone.ValidSchedule noData (.annotate .sum) (.exact noData) markedLast := by
  have idle : markedDone.active = ∅ := by decide
  constructor
  · simp [idle]
  · simp [idle]
  · simp [idle]
  · simp [idle, StratumState.Announces, markedLast]
  · have waiting : (markedDone.merged noData (.annotate .sum)
        markedLast).1.advanceToNextNonempty.2.currentBucket = ∅ := by decide
    intro head
    rw [waiting]
    exact iff_of_false List.not_mem_nil (Finset.notMem_empty head)

/-- What the run returns. -/
def markedFinal : SolveState where
  facts := markedDone.facts
  annotations := (markedDone.merged noData (.annotate .sum) markedLast).2
  buckets := (markedDone.merged noData (.annotate .sum) markedLast).1.advanceToNextNonempty.2

theorem marked_solves : SolvesStrata noData (.annotate .sum) (.exact noData) [markedStratum]
    (SolveState.initial [⟨0, []⟩, ⟨2, [0]⟩]) markedFinal := by
  apply SolvesStrata.cons _ (.nil _)
  refine ⟨markedDone, ?_, ⟨markedLast, markedLast_valid, by decide, rfl, rfl⟩, rfl⟩
  refine .tail (.single ⟨markedFirst, markedFirst_valid, by decide, rfl⟩) ?_
  exact ⟨markedSecond, markedSecond_valid, by decide, rfl⟩

theorem marked_positive {cws : ConstRuleWorkspace} (mem : cws ∈ markedStratum) {literal : Literal}
    (memLiteral : literal ∈ cws.rule.body.fluentLiterals) : literal.polarity = true := by
  rcases List.mem_pair.mp mem with rfl | rfl
  · cases List.mem_singleton.mp memLiteral
    rfl
  · rcases List.mem_pair.mp memLiteral with rfl | rfl <;> rfl

theorem marked_stratified : Stratified [markedStratum] where
  negationFree := by
    intro stratum mem cws memRule _ _ literal memLiteral negative
    cases List.mem_singleton.mp mem
    rw [marked_positive memRule memLiteral] at negative
    cases negative
  ordered := List.pairwise_singleton _ _

theorem solveBottomUp_perfectModel_marked :
    (∀ fact, fact ∈ markedFinal.facts ↔
        perfectModel noData [markedStratum] (· ∈ [⟨0, []⟩, ⟨2, [0]⟩]) fact) ∧
      ∀ stratum ∈ [markedStratum], ∀ cws ∈ stratum, ∀ binding,
        BodyHolds noData cws markedFinal.facts binding →
          groundHead cws.rule binding ∈ markedFinal.facts :=
  solveBottomUp_perfectModel noData (.annotate .sum) (.exact noData) [markedStratum]
    [⟨0, []⟩, ⟨2, [0]⟩] markedFinal marked_stratified marked_solves

end Tyr.Datalog
