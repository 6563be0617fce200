import Tyr.Datalog.MachineEnds
import Tyr.Datalog.MirroredBuckets

/-!
Flat programs.

No body mentions a predicate that a rule derives, so every rule is matched on the given facts
only. False positives of the matching are not excluded: the result says what passes the tests.

* `ConstRuleWorkspace.MatchedLoosely` — the bindings that a rule fires with.
* `Machine.Stage` — a stratum takes a pass in which all rules are active and one in which none is.
* `Machine.facts_of_flat` — what a run ends with.
-/

namespace Tyr.Datalog

open Tyr.Lib Tyr.Formalism Tyr.Formalism.Datalog

/-! ### The bindings that a rule fires with -/

namespace ConstRuleWorkspace

/-- The binding is announced when the rule is processed on the facts for the first time. -/
def Fires (cws : ConstRuleWorkspace) (numeric : NumericOverapproximation) (facts : FactSets)
    (binding : List Nat) : Prop :=
  if cws.rule.arity = 0 then
    binding = [] ∧ facts.isValidCondition [] cws.rule.body.nullary = true ∧
      facts.isValidCondition [] cws.rule.body = true
  else cws.CliqueTests numeric facts binding ∧ cws.Accepted facts binding

/-- The literals hold, apart from weak ones, of which only the projections are looked at, and
the numeric constraints pass their tests. -/
structure MatchedLoosely (cws : ConstRuleWorkspace) (numeric : NumericOverapproximation)
    (facts : FactSets) (binding : List Nat) : Prop where
  inDomains : cws.InDomains binding
  strong : ∀ kind, ∀ literal ∈ cws.rule.body.literals kind, ¬ cws.Weak kind literal →
    (literal.atom.ground binding ∈ facts.predicate kind ↔ literal.polarity = true)
  weak : ∀ kind, ∀ literal ∈ cws.rule.body.literals kind, cws.Weak kind literal →
    WeaklyHolds facts binding kind literal
  numeric : cws.NumericAccepted numeric facts binding

section

variable {cws : ConstRuleWorkspace} {numeric : NumericOverapproximation} {binding : List Nat}

theorem fires_iff {facts : FactSets} (typed : cws.TypedFacts facts) :
    cws.Fires numeric facts binding ↔ cws.MatchedLoosely numeric facts binding := by
  let typedFacts : TypedFactSets cws.predicateDomains := ⟨facts, typed⟩
  by_cases noParameters : cws.rule.arity = 0
  · have strong : ∀ kind literal, ¬ cws.Weak kind literal := by
      intro kind literal weak
      have two := weak.1
      omega
    have holds := @matches_of_no_parameters cws numeric facts noParameters Kpkc.DeltaKPKC.create
      ⟨fun _ _ => false, fun _ => false, fun _ => ⟨0, 0⟩, none⟩ binding
    rw [Matches, if_pos noParameters] at holds
    rw [Fires, if_pos noParameters]
    constructor
    · rintro ⟨rfl, nullary, body⟩
      obtain ⟨⟨inDomains, literals⟩, accepted⟩ := holds.mp ⟨rfl, nullary, body⟩
      exact ⟨inDomains, fun kind literal mem _ => literals kind literal mem,
        fun kind literal _ weak => absurd weak (strong kind literal), accepted⟩
    · intro loosely
      obtain ⟨rfl, both⟩ := holds.mpr ⟨⟨loosely.inDomains, fun kind literal mem =>
        loosely.strong kind literal mem (strong kind literal)⟩, loosely.numeric⟩
      exact ⟨rfl, both⟩
  · have tested := @matches_iff cws numeric facts noParameters Kpkc.DeltaKPKC.create .create
      ⟨fun _ _ => false, fun _ => false, fun _ => ⟨0, 0⟩, none⟩ binding
    rw [Matches, if_neg noParameters, enumerated_iff .create] at tested
    rw [Fires, if_neg noParameters, tested]
    constructor
    · rintro ⟨inDomains, literals, accepted⟩
      refine ⟨inDomains, fun kind literal mem strong => ?_, fun kind literal mem weak => ?_, accepted⟩
      · have isTested : cws.LiteralTested typedFacts.toFactSets binding kind literal :=
          literals kind literal mem
        exact holds_of_literalTested noParameters inDomains mem strong isTested
      · have isTested : cws.LiteralTested typedFacts.toFactSets binding kind literal :=
          literals kind literal mem
        exact (literalTested_iff_of_weak inDomains mem weak).mp isTested
    · intro loosely
      refine ⟨loosely.inDomains, fun kind literal mem => ?_, loosely.numeric⟩
      have isTested : cws.LiteralTested typedFacts.toFactSets binding kind literal := by
        by_cases weak : cws.Weak kind literal
        · exact (literalTested_iff_of_weak loosely.inDomains mem weak).mpr
            (loosely.weak kind literal mem weak)
        · exact literalTested_of_holds loosely.inDomains mem (loosely.strong kind literal mem weak)
      exact isTested

/-- A binding whose body holds is matched, if the numeric tests let it pass. -/
theorem MatchedLoosely.of_literalsHold {facts : FactSets} (inDomains : cws.InDomains binding)
    (holds : cws.LiteralsHold facts binding) (accepted : cws.NumericAccepted numeric facts binding) :
    cws.MatchedLoosely numeric facts binding where
  inDomains := inDomains
  strong := fun kind literal mem _ => holds kind literal mem
  weak := by
    intro kind literal mem _ positive
    have isFact := (holds kind literal mem).mpr positive
    exact ⟨⟨_, isFact, rfl, fun _ _ => rfl⟩, ⟨_, isFact, rfl, fun _ _ => rfl⟩⟩
  numeric := accepted

/-- The facts of the predicates that the body mentions are the same. -/
def SameBodyFacts (cws : ConstRuleWorkspace) (old new : List Tuple) : Prop :=
  ∀ literal ∈ cws.rule.body.fluentLiterals, ∀ fact : Tuple, fact.relation = literal.atom.predicate →
    (fact ∈ old ↔ fact ∈ new)

variable {data : ProgramData} {old new : List Tuple}

theorem SameBodyFacts.symm (same : cws.SameBodyFacts old new) : cws.SameBodyFacts new old :=
  fun literal mem fact relation => (same literal mem fact relation).symm

/-- Only the facts of the body matter. -/
theorem MatchedLoosely.congr (same : cws.SameBodyFacts old new)
    (loosely : cws.MatchedLoosely numeric (data.factSets old) binding) :
    cws.MatchedLoosely numeric (data.factSets new) binding where
  inDomains := loosely.inDomains
  strong := by
    intro kind literal mem strong
    have before := loosely.strong kind literal mem strong
    cases kind with
    | static => exact before
    | fluent => exact (same literal mem _ rfl).symm.trans before
  weak := by
    intro kind literal mem weak positive
    have before := loosely.weak kind literal mem weak positive
    cases kind with
    | static => exact before
    | fluent =>
        have projects : ∀ {positions}, ProjectsTo old binding literal positions →
            ProjectsTo new binding literal positions := by
          rintro positions ⟨fact, isFact, relation, agree⟩
          exact ⟨fact, (same literal mem fact relation).mp isFact, relation, agree⟩
        exact ⟨projects before.1, projects before.2⟩
  numeric := loosely.numeric

end

end ConstRuleWorkspace

/-! ### A first pass -/

section

variable {cws : ConstRuleWorkspace} {sets : FactSets} {reports : List (Nat × List Nat)}
  {worker : Nat} {binding : List Nat}

theorem announces_processClique (out : RuleOutput) (report : Nat × List Nat) :
    (∃ a ∈ (processClique cws sets out report).announced, a.binding = binding) ↔
      (∃ a ∈ out.announced, a.binding = binding) ∨
        (report.2 = binding ∧ groundHead cws.rule binding ∉ sets.predicate .fluent ∧
          cws.Accepted sets binding) := by
  unfold processClique ConstRuleWorkspace.Accepted
  dsimp only
  split
  · next isFact =>
      refine (or_iff_left ?_).symm
      rintro ⟨rfl, notFact, _⟩
      exact notFact isFact
  · next notFact =>
      split
      · next rejected =>
          refine (or_iff_left ?_).symm
          rintro ⟨rfl, _, static, _⟩
          rw [static] at rejected
          cases rejected
      · next static =>
          rw [Bool.not_eq_true', Bool.not_eq_false] at static
          split
          · next applicable =>
              simp only [List.mem_append, List.mem_singleton]
              constructor
              · rintro ⟨a, old | rfl, same⟩
                · exact .inl ⟨a, old, same⟩
                · subst same
                  exact .inr ⟨rfl, notFact, static, applicable⟩
              · rintro (⟨a, old, same⟩ | ⟨same, _⟩)
                · exact ⟨a, .inl old, same⟩
                · exact ⟨_, .inr rfl, same⟩
          · next notApplicable =>
              have unchanged : (∃ a ∈ out.announced, a.binding = binding) ↔
                  (∃ a ∈ out.announced, a.binding = binding) ∨ (report.2 = binding ∧
                    groundHead cws.rule binding ∉ sets.predicate .fluent ∧
                      cws.Accepted sets binding) := by
                refine (or_iff_left ?_).symm
                rintro ⟨rfl, _, _, applicable⟩
                exact notApplicable applicable
              split
              · exact unchanged
              · exact unchanged

/-- What a rule announces that has nothing pending. -/
theorem announces_processRule : (∃ a ∈ (processRule cws sets [] reports worker).announced,
      a.binding = binding) ↔
    if cws.rule.arity = 0 then
      binding = [] ∧ sets.isValidCondition [] cws.rule.body.nullary = true ∧
        sets.isValidCondition [] cws.rule.body = true
    else binding ∈ reports.map Prod.snd ∧ groundHead cws.rule binding ∉ sets.predicate .fluent ∧
      cws.Accepted sets binding := by
  unfold processRule
  rw [List.foldl_nil]
  dsimp only
  split
  · unfold generateNullaryCase
    split
    · next holds =>
        rw [Bool.and_eq_true] at holds
        simp [holds, eq_comm]
    · next fails =>
        rw [Bool.and_eq_true] at fails
        simp [fails]
  · rw [@foldl_iff_of_law _ _ _ (fun out : RuleOutput => ∃ a ∈ out.announced, a.binding = binding) _
      reports fun out report => announces_processClique out report]
    simp only [List.not_mem_nil, false_and, exists_false, false_or, List.mem_map]
    constructor
    · rintro ⟨report, mem, same, rest⟩
      exact ⟨⟨report, mem, same⟩, rest⟩
    · rintro ⟨⟨report, mem, same⟩, rest⟩
      exact ⟨report, mem, same, rest⟩

end

namespace Machine

section

variable {data : ProgramData} {numeric : NumericOverapproximation} {stratum : Stratum}
  {solve : SolveState} {schedule : Schedule stratum}

/-- The rules of a stratum that has been entered announce the bindings they fire with, as far as
their heads are no facts yet. -/
theorem mergedHead_enter (valid : ValidChoices data numeric .none (solve.enter stratum) schedule)
    (head : Tuple) : StratumState.MergedHead schedule head ↔
      ∃ cws ∈ stratum, ∃ binding, cws.Fires numeric (data.factSets solve.facts) binding ∧
        groundHead cws.rule binding = head ∧ (cws.rule.arity ≠ 0 → head ∉ solve.facts) := by
  have announces : ∀ r binding,
      (∃ a ∈ ((solve.enter stratum).output data schedule r).announced, a.binding = binding) ↔
        (stratum.get r).Fires numeric (data.factSets solve.facts) binding ∧
          ((stratum.get r).rule.arity ≠ 0 →
            groundHead (stratum.get r).rule binding ∉ solve.facts) := by
    intro r binding
    have active : r ∈ (solve.enter stratum).active := Finset.mem_univ r
    have nothing : schedule.pending r = [] := (valid.pending r active).eq_nil
    rw [StratumState.output, nothing, announces_processRule, ConstRuleWorkspace.Fires]
    split
    · next noParameters =>
        exact (and_iff_left fun parameters => absurd noParameters parameters).symm
    · next parameters =>
        rw [valid.reports r active parameters binding]
        have unseen : ∀ seen ∈ ((solve.enter stratum).rules r).seen,
            ¬ (stratum.get r).CliqueTests numeric (data.factSets seen) binding := nofun
        have sameFacts : (solve.enter stratum).facts = solve.facts := rfl
        have fluent : (data.factSets solve.facts).predicate .fluent = solve.facts := rfl
        rw [sameFacts, fluent]
        tauto
  constructor
  · rintro ⟨merge, mem, rfl⟩
    obtain ⟨_, a, announced, _, isHead⟩ := (valid.merges merge).mp mem
    obtain ⟨fires, notFact⟩ := (announces merge.1 a.binding).mp ⟨a, announced, rfl⟩
    refine ⟨_, List.get_mem stratum merge.1, a.binding, fires, isHead, fun parameters => ?_⟩
    rw [← isHead]
    exact notFact parameters
  · rintro ⟨cws, mem, binding, fires, rfl, notFact⟩
    obtain ⟨r, rfl⟩ := List.mem_iff_get.mp mem
    obtain ⟨a, announced, rfl⟩ := (announces r binding).mpr ⟨fires, notFact⟩
    exact ⟨⟨r, a.worker, groundHead (stratum.get r).rule a.binding⟩,
      (valid.merges _).mpr ⟨Finset.mem_univ r, a, announced, rfl, rfl⟩, rfl⟩

/-- Without annotations everything that is merged waits in the first bucket. -/
theorem mem_bucket_mergedBy_none {st : StratumState stratum} {c : Nat} {fact : Tuple} :
    fact ∈ (mergedBy data .none st schedule).1.bucket c ↔
      (fact ∈ st.buckets.bucket c ∧ c ≠ st.buckets.current) ∨
        (c = 0 ∧ StratumState.MergedHead schedule fact) := by
  have law : ∀ (before : CostBuckets Tuple × Annotations)
      (merge : Fin stratum.length × Nat × Tuple),
      fact ∈ (st.mergeHead data .none schedule before merge).1.bucket c ↔
        fact ∈ before.1.bucket c ∨ (c = 0 ∧ merge.2.2 = fact) := by
    intro before merge
    have cheapest : ((0 : Cost) = (c : Cost)) ↔ c = 0 := by
      rw [eq_comm]
      exact_mod_cast Iff.rfl
    rw [StratumState.mergeHead, CostBuckets.mem_update, cheapest, eq_comm (a := fact)]
    simp
  have merged := @foldl_iff_of_law _ _ _
    (fun before : CostBuckets Tuple × Annotations => fact ∈ before.1.bucket c) _ schedule.merges law
    (st.buckets.clearCurrent, st.annotations)
  rw [CostBuckets.mem_clearCurrent] at merged
  refine merged.trans (or_congr_right ?_)
  constructor
  · rintro ⟨merge, mem, first, same⟩
    exact ⟨first, merge, mem, same⟩
  · rintro ⟨first, merge, mem, same⟩
    exact ⟨merge, mem, first, same⟩

end

/-! ### The passes -/

section

variable (data : ProgramData) (numeric : NumericOverapproximation)

/-- The rules of the stratum derive the fact from the given facts. -/
def Fired (given : List Tuple) (stratum : Stratum) (fact : Tuple) : Prop :=
  ∃ cws ∈ stratum, ∃ binding, cws.Fires numeric (data.factSets given) binding ∧
    groundHead cws.rule binding = fact

/-- The facts are the given ones and what the strata derive from them, each once. -/
structure Collected (given : List Tuple) (done : List Stratum) (facts : List Tuple) : Prop where
  mem_iff : ∀ fact, fact ∈ facts ↔ fact ∈ given ∨ ∃ stratum ∈ done, Fired data numeric given stratum fact
  nodup : facts.Nodup

/-- The configurations of a run: before the second pass over a stratum all it derives are facts,
and no rule is active. -/
inductive Stage (all : List Stratum) (given : List Tuple) : SolveConfig → Prop where
  | between {done strata : List Stratum} {solve : SolveState} (split : done ++ strata = all)
      (collected : Collected data numeric given done solve.facts) :
      Stage all given (.between strata solve)
  | first {done strata : List Stratum} {stratum : Stratum} {solve : SolveState}
      (split : done ++ stratum :: strata = all)
      (collected : Collected data numeric given done solve.facts) :
      Stage all given (.within stratum strata (solve.enter stratum))
  | second {done strata : List Stratum} {stratum : Stratum} {st : StratumState stratum}
      (split : done ++ stratum :: strata = all)
      (collected : Collected data numeric given (done ++ [stratum]) st.facts)
      (inactive : st.active = ∅)
      (waits : ∀ c, c ≠ st.buckets.current → st.buckets.bucket c = ∅) :
      Stage all given (.within stratum strata st)

end

/-- No body mentions a predicate that a rule derives. -/
def Flat (strata : List Stratum) : Prop :=
  ∀ stratum ∈ strata, ∀ cws ∈ stratum, ∀ literal ∈ cws.rule.body.fluentLiterals,
    ∀ other ∈ strata, ∀ fact, other.Derives fact → fact.relation ≠ literal.atom.predicate

section

variable {data : ProgramData} {numeric : NumericOverapproximation} {all done strata : List Stratum}
  {given : List Tuple} {stratum : Stratum}

theorem Fired.derives {fact : Tuple} (fired : Fired data numeric given stratum fact) :
    stratum.Derives fact := by
  obtain ⟨cws, mem, binding, _, isHead⟩ := fired
  exact ⟨cws, mem, binding, isHead⟩

/-- A rule fires on the collected facts as on the given ones. -/
theorem Collected.fires_iff (flat : Flat all) (typed : TypedStrata data all given)
    (sub : done ⊆ all) (isStratum : stratum ∈ all) {facts : List Tuple}
    (collected : Collected data numeric given done facts) {cws : ConstRuleWorkspace}
    (mem : cws ∈ stratum) {binding : List Nat} :
    cws.Fires numeric (data.factSets facts) binding ↔
      cws.Fires numeric (data.factSets given) binding := by
  have origin : ∀ fact ∈ facts, fact ∈ given ∨ ∃ other ∈ all, other.Derives fact := by
    intro fact isFact
    rcases (collected.mem_iff fact).mp isFact with isGiven | ⟨other, memOther, fired⟩
    · exact .inl isGiven
    · exact .inr ⟨other, sub memOther, fired.derives⟩
  have same : cws.SameBodyFacts facts given := by
    intro literal memLiteral fact relation
    refine (collected.mem_iff fact).trans (or_iff_left ?_)
    rintro ⟨other, memOther, fired⟩
    exact flat stratum isStratum cws mem literal memLiteral other (sub memOther) fact fired.derives
      relation
  rw [ConstRuleWorkspace.fires_iff (typed stratum isStratum cws mem facts origin),
    ConstRuleWorkspace.fires_iff (typed stratum isStratum cws mem given fun _ => .inl)]
  exact ⟨.congr same, .congr same.symm⟩

/-- What the first pass merges. -/
theorem Collected.mergedHead_iff (flat : Flat all) (typed : TypedStrata data all given)
    (split : done ++ stratum :: strata = all) {solve : SolveState}
    (collected : Collected data numeric given done solve.facts) {schedule : Schedule stratum}
    (valid : ValidChoices data numeric .none (solve.enter stratum) schedule) (head : Tuple) :
    head ∈ solve.facts ∨ StratumState.MergedHead schedule head ↔
      head ∈ solve.facts ∨ Fired data numeric given stratum head := by
  have sub : done ⊆ all := split ▸ List.subset_append_left _ _
  have isStratum : stratum ∈ all := split ▸ List.mem_append_right _ List.mem_cons_self
  rw [mergedHead_enter valid]
  constructor
  · rintro (old | ⟨cws, mem, binding, fires, isHead, _⟩)
    · exact .inl old
    · exact .inr ⟨cws, mem, binding, (collected.fires_iff flat typed sub isStratum mem).mp fires, isHead⟩
  · rintro (old | ⟨cws, mem, binding, fires, isHead⟩)
    · exact .inl old
    · by_cases old : head ∈ solve.facts
      · exact .inl old
      · exact .inr ⟨cws, mem, binding,
          (collected.fires_iff flat typed sub isStratum mem).mpr fires, isHead, fun _ => old⟩

theorem Collected.append {facts : List Tuple} (nodup : facts.Nodup) {before : List Tuple}
    (collected : Collected data numeric given done before)
    (derived : ∀ fact, fact ∈ facts ↔ fact ∈ before ∨ Fired data numeric given stratum fact) :
    Collected data numeric given (done ++ [stratum]) facts where
  mem_iff := by
    intro fact
    rw [derived, collected.mem_iff]
    simp only [List.mem_append, List.mem_singleton, or_and_right, exists_or, exists_eq_left, or_assoc]
  nodup := nodup

/-- In the first pass everything waits in the bucket of the start. -/
theorem mem_bucket_first {solve : SolveState} {schedule : Schedule stratum} {c : Nat} {fact : Tuple} :
    fact ∈ (mergedBy data .none (solve.enter stratum) schedule).1.bucket c ↔
      c = 0 ∧ StratumState.MergedHead schedule fact := by
  rw [mem_bucket_mergedBy_none]
  refine or_iff_right ?_
  rintro ⟨mem, _⟩
  change fact ∈ solve.buckets.clear.bucket c at mem
  rw [CostBuckets.bucket_clear] at mem
  cases mem

theorem current_first (solve : SolveState) (schedule : Schedule stratum) :
    (mergedBy data .none (solve.enter stratum) schedule).1.current = 0 :=
  StratumState.merged_current

/-- The heads of the first pass are inserted at once. -/
theorem mem_inserted_first {solve : SolveState} {schedule : Schedule stratum}
    (valid : ValidChoices data numeric .none (solve.enter stratum) schedule)
    (advances : (mergedBy data .none (solve.enter stratum) schedule).1.advanceToNextNonempty.1 = true) :
    (mergedBy data .none (solve.enter stratum) schedule).1.advanceToNextNonempty.2.current = 0 ∧
      ∀ head, head ∈ schedule.inserted ↔ StratumState.MergedHead schedule head := by
  obtain ⟨same, _, _, nonempty, _⟩ :=
    (mergedBy data .none (solve.enter stratum) schedule).1.advanceToNextNonempty_spec
  have isFirst : (mergedBy data .none (solve.enter stratum) schedule).1.advanceToNextNonempty.2.current =
      0 := by
    obtain ⟨fact, mem⟩ := Finset.nonempty_iff_ne_empty.mpr (nonempty advances)
    rw [CostBuckets.currentBucket, same] at mem
    exact (mem_bucket_first.mp mem).1
  refine ⟨isFirst, fun head => ?_⟩
  rw [valid.inserted, CostBuckets.currentBucket, same, mem_bucket_first]
  exact and_iff_right isFirst

/-- No rule listens to what has been inserted. -/
theorem activeAfter_of_flat (flat : Flat all) (isStratum : stratum ∈ all) {facts heads : List Tuple}
    (derived : ∀ head ∈ heads, stratum.Derives head) :
    (StratumState.activeAfter facts heads : Finset (Fin stratum.length)) = ∅ := by
  apply Finset.filter_eq_empty_iff.mpr
  intro r _ listens
  obtain ⟨head, mem, isHeard⟩ := List.any_eq_true.mp listens
  obtain ⟨literal, memLiteral, isPositive⟩ :=
    List.any_eq_true.mp (Bool.and_eq_true_iff.mp isHeard).2
  have relation := beq_iff_eq.mp (Bool.and_eq_true_iff.mp isPositive).2
  exact flat stratum isStratum _ (List.get_mem stratum r) literal memLiteral stratum isStratum head
    (derived head mem) relation.symm

/-- Each step leads from stage to stage. -/
theorem Stage.step (flat : Flat all) (typed : TypedStrata data all given) {config config' : SolveConfig}
    (stage : Stage data numeric all given config) (step : SolveStep data numeric .none config config') :
    Stage data numeric all given config' := by
  cases stage with
  | between split collected =>
      cases step with
      | enter => exact .first split collected
  | @first done strata stratum solve split collected =>
      have isStratum : stratum ∈ all := split ▸ List.mem_append_right _ List.mem_cons_self
      cases step with
      | @iterate _ _ _ schedule valid advances =>
          obtain ⟨isFirst, inserted⟩ := mem_inserted_first valid advances
          refine .second split (collected.append ?_ fun fact => ?_) ?_ ?_
          · exact StratumState.nodup_insertHeads collected.nodup
          · rw [← collected.mergedHead_iff flat typed split valid, ← inserted]
            exact StratumState.mem_insertHeads
          · refine activeAfter_of_flat flat isStratum fun head mem => ?_
            obtain ⟨cws, memRule, binding, _, isHead, _⟩ :=
              (mergedHead_enter valid head).mp ((inserted head).mp mem)
            exact ⟨cws, memRule, binding, isHead⟩
          · intro c other
            apply Finset.eq_empty_of_forall_notMem
            intro fact mem
            have waits := ((mergedBy data .none (solve.enter stratum)
              schedule).1.advanceToNextNonempty_spec.1 c) ▸ mem
            exact other ((mem_bucket_first.mp waits).1.trans isFirst.symm)
      | @returns _ _ _ schedule valid ends =>
          refine .between (by rw [List.append_assoc]; exact split)
            (collected.append collected.nodup fun fact => ?_)
          obtain ⟨_, _, _, _, empty⟩ :=
            (mergedBy data .none (solve.enter stratum) schedule).1.advanceToNextNonempty_spec
          refine Iff.trans ?_ (collected.mergedHead_iff flat typed split valid fact)
          refine (or_iff_left fun isMerged => ?_).symm
          have waits := (@mem_bucket_first data stratum solve schedule 0 fact).mpr ⟨rfl, isMerged⟩
          rw [empty ends 0 (current_first solve schedule).le] at waits
          exact Finset.notMem_empty fact waits
  | @second done strata stratum st split collected inactive waits =>
      have unmerged : ∀ schedule, ValidChoices data numeric .none st schedule →
          (mergedBy data .none st schedule).1 = st.buckets.clearCurrent :=
        fun schedule valid => mergedBy_of_nil (StratumState.merges_eq_nil valid.merges inactive)
      cases step with
      | iterate _ valid advances =>
          rw [unmerged _ valid] at advances
          obtain ⟨same, _, _, nonempty, _⟩ := st.buckets.clearCurrent.advanceToNextNonempty_spec
          obtain ⟨fact, mem⟩ := Finset.nonempty_iff_ne_empty.mpr (nonempty advances)
          rw [CostBuckets.currentBucket, same, CostBuckets.mem_clearCurrent] at mem
          rw [waits _ mem.2] at mem
          exact absurd mem.1 (Finset.notMem_empty fact)
      | returns _ valid ends =>
          refine .between ?_ collected
          rw [List.append_assoc]
          exact split

theorem Stage.run (flat : Flat all) (typed : TypedStrata data all given) {config config' : SolveConfig}
    (stage : Stage data numeric all given config)
    (run : Relation.ReflTransGen (SolveStep data numeric .none) config config') :
    Stage data numeric all given config' := by
  induction run with
  | refl => exact stage
  | tail _ step ih => exact ih.step flat typed step

/-- A run ends with the given facts and all heads that the rules fire with on them. -/
theorem facts_of_flat (flat : Flat all) (typed : TypedStrata data all given) (distinct : given.Nodup)
    {final : SolveState}
    (run : Relation.ReflTransGen (SolveStep data numeric .none) (.between all (.initial given))
      (.between [] final)) : Collected data numeric given all final.facts := by
  have nothing : Collected data numeric given [] (SolveState.initial given).facts :=
    ⟨fun fact => by simp [SolveState.initial], distinct⟩
  have stage := (Stage.between (List.nil_append all) nothing).run flat typed run
  cases stage with
  | between split collected => rwa [← split, List.append_nil]

/-- Some run ends. -/
theorem exists_run (data : ProgramData) (numeric : NumericOverapproximation)
    (policy : AnnotationPolicy) (strata : List Stratum) (facts : List Tuple) :
    ∃ final, Relation.ReflTransGen (SolveStep data numeric policy)
      (.between strata (.initial facts)) (.between [] final) := by
  obtain ⟨config, run, blocked⟩ :=
    exists_blocked (@acc_between data numeric policy strata (.initial facts))
  obtain ⟨final, rfl⟩ := blocked_iff.mp blocked
  exact ⟨final, run⟩

end

end Machine

end Tyr.Datalog
