import Tyr.Datalog.MachineCosts

/-!
Bindings that a rule has seen before.

A binding that a rule reports or holds pending may be matched by a false positive. Still,
what it announces now and did not announce on earlier facts has a body fact that is new.

* `ConstRuleWorkspace.CliqueTests.of_earlier` — a binding whose body facts were there
  passed its tests before.
* `Waits.exists_new` — a pending binding that succeeds has a new body fact.
* `announced_cases`, `waits_processRule` — what processing a rule announces and keeps.
-/

namespace Tyr.Datalog

open Tyr.Lib Tyr.Formalism Tyr.Formalism.Datalog

/-! ### Assignment sets of fewer facts -/

namespace PredicateAssignmentSets

variable {domains : Nat → List (List Nat)} {old new : List Tuple} {predicate : Nat}

theorem hashes_ofFacts (domains : Nat → List (List Nat)) (facts : List Tuple) :
    Hashes domains (ofFacts domains facts) :=
  foldl_invariant (fun _ hashes fact _ => hashes.insert fact) fun _ => rfl

/-- The bits of the sets are those of the single facts. -/
theorem set_ofFacts_iff (facts : List Tuple) (predicate rank : Nat) :
    (ofFacts domains facts predicate).set rank = true ↔ ∃ fact ∈ facts, fact.relation = predicate ∧
      ((PredicateAssignmentSet.create (domains predicate)).insert fact.objects).set rank = true := by
  unfold ofFacts
  apply (foldl_iff (P := Hashes domains)
    (fun sets : PredicateAssignmentSets => (sets predicate).set rank = true)
    (fun fact => fact.relation = predicate ∧
      ((PredicateAssignmentSet.create (domains predicate)).insert fact.objects).set rank = true)
    (fun _ hashes fact _ => hashes.insert fact) ?_ (fun _ => rfl)).trans
  · exact or_iff_right Bool.false_ne_true
  · intro sets hashes fact _
    unfold insert
    by_cases same : predicate = fact.relation
    · subst same
      have empty : (PredicateAssignmentSet.create (domains fact.relation)).set rank = false := rfl
      rw [Function.update_self, PredicateAssignmentSet.insert_set, PredicateAssignmentSet.insert_set,
        empty, PredicateAssignmentSet.arity, hashes]
      simp only [Bool.false_eq_true, false_or, true_and]
      rfl
    · rw [Function.update_of_ne same]
      exact (or_iff_left fun adds => same adds.1.symm).symm

/-- More facts have more bits. -/
theorem set_mono (sub : ∀ fact ∈ old, fact ∈ new) {rank : Nat}
    (isSet : (ofFacts domains old predicate).set rank = true) :
    (ofFacts domains new predicate).set rank = true := by
  rw [set_ofFacts_iff] at isSet ⊢
  obtain ⟨fact, mem, adds⟩ := isSet
  exact ⟨fact, sub fact mem, adds⟩

theorem testVertex_mono (sub : ∀ fact ∈ old, fact ∈ new) {assignment : VertexAssignment}
    (test : (ofFacts domains old predicate).testVertex assignment = true) :
    (ofFacts domains new predicate).testVertex assignment = true := by
  rw [PredicateAssignmentSet.testVertex, hashes_ofFacts domains] at test ⊢
  exact set_mono sub test

theorem testEdge_mono (sub : ∀ fact ∈ old, fact ∈ new) {assignment : EdgeAssignment}
    (test : (ofFacts domains old predicate).testEdge assignment = true) :
    (ofFacts domains new predicate).testEdge assignment = true := by
  rw [PredicateAssignmentSet.testEdge, hashes_ofFacts domains] at test ⊢
  exact set_mono sub test

end PredicateAssignmentSets

/-! ### The tests of negative literals -/

section

variable {small large : PredicateAssignmentSet} {literal : Literal} {vertex other : RuleVertex}

/-- A negative test keeps succeeding on a set of fewer bits. -/
theorem negative_test {polarity before after : Bool} (negative : polarity = false)
    (mono : before = true → after = true) (test : (polarity == after) = true) :
    (polarity == before) = true := by
  subst negative
  cases before with
  | false => rfl
  | true =>
      rw [mono rfl] at test
      exact absurd test Bool.false_ne_true

variable (vertices : ∀ a, small.testVertex a = true → large.testVertex a = true)
  (edges : ∀ a, small.testEdge a = true → large.testEdge a = true)
  (negative : literal.polarity = false)

include edges negative

theorem consistentWithConstants_anti (consistent : consistentWithConstants large literal vertex = true) :
    consistentWithConstants small literal vertex = true := by
  simp only [consistentWithConstants, List.all_eq_true] at consistent ⊢
  intro position mem constant memConstant
  exact negative_test negative (edges _) (consistent position mem constant memConstant)

theorem consistentParameterPair_anti
    (consistent : consistentParameterPair large literal vertex other = true) :
    consistentParameterPair small literal vertex other = true := by
  simp only [consistentParameterPair, List.all_eq_true] at consistent ⊢
  intro position mem position' mem'
  exact negative_test negative (edges _) (consistent position mem position' mem')

include vertices

theorem consistentLiteral_anti (consistent : consistentLiteral large literal vertex = true) :
    consistentLiteral small literal vertex = true := by
  simp only [consistentLiteral, Bool.and_eq_true, List.all_eq_true] at consistent ⊢
  obtain ⟨positions, constants⟩ := consistent
  constructor
  · intro position mem
    refine ⟨negative_test negative (vertices _) (positions position mem).1, fun constant memConstant => ?_⟩
    exact negative_test negative (edges _) ((positions position mem).2 constant memConstant)
  · intro constant mem
    exact negative_test negative (vertices _) (constants constant mem)

end

/-- A binding whose body facts were there passed its tests before. -/
theorem ConstRuleWorkspace.CliqueTests.of_earlier {data : ProgramData}
    {numeric : NumericOverapproximation} {cws : ConstRuleWorkspace} {old new : List Tuple}
    {binding : List Nat} (tests : cws.CliqueTests numeric (data.factSets new) binding)
    (sub : ∀ fact ∈ old, fact ∈ new) (typed : cws.TypedFacts (data.factSets old))
    (witnesses : ∀ fact ∈ witnessFacts cws.rule binding, fact ∈ old) :
    cws.CliqueTests numeric (data.factSets old) binding := by
  let facts : TypedFactSets cws.predicateDomains := ⟨data.factSets old, typed⟩
  have positive : ∀ {literal : Literal}, literal ∈ cws.rule.body.literals .fluent →
      literal.polarity = true → cws.LiteralTested facts.toFactSets binding .fluent literal := by
    intro literal mem isPositive
    apply literalTested_of_holds tests.inDomains mem
    exact iff_of_true (witnesses _ (mem_witnessFacts.mpr ⟨literal, mem, isPositive, rfl⟩)) isPositive
  have vertices : ∀ (predicate : Nat) (a : VertexAssignment),
      (cws.sets (data.factSets old) .fluent predicate).testVertex a = true →
        (cws.sets (data.factSets new) .fluent predicate).testVertex a = true :=
    fun _ _ test => PredicateAssignmentSets.testVertex_mono sub test
  have edges : ∀ (predicate : Nat) (a : EdgeAssignment),
      (cws.sets (data.factSets old) .fluent predicate).testEdge a = true →
        (cws.sets (data.factSets new) .fluent predicate).testEdge a = true :=
    fun _ _ test => PredicateAssignmentSets.testEdge_mono sub test
  refine ⟨tests.inDomains, fun kind p inRange gate => ?_, fun kind p q before inRange gate => ?_,
    tests.numericVertex, tests.numericEdge⟩
  · cases kind with
    | static => exact tests.vertex .static p inRange gate
    | fluent =>
        refine List.all_eq_true.mpr fun literal inUnary => ?_
        have test := List.all_eq_true.mp (tests.vertex .fluent p inRange gate) literal inUnary
        have mem := (ConjunctiveCondition.mem_overapproximation.mp inUnary).1
        cases mentioned : mentions literal p with
        | false => simp [vertexOf, mentioned]
        | true =>
            cases polarity : literal.polarity with
            | true =>
                have tested := (positive mem polarity).vertex inUnary p inRange gate mentioned
                simpa [vertexOf, mentioned] using tested
            | false =>
                have consistent : consistentLiteral (cws.sets (data.factSets new) .fluent
                    literal.atom.predicate) literal (vertexOf binding p) = true := by
                  simpa [vertexOf, mentioned] using test
                have kept := consistentLiteral_anti (vertices _) (edges _) polarity consistent
                simpa [vertexOf, mentioned] using kept
  · cases kind with
    | static => exact tests.edge .static p q before inRange gate
    | fluent =>
        refine consistentEdgeLiterals_iff.mpr fun literal inBinary => ?_
        obtain ⟨pair, first, second⟩ :=
          consistentEdgeLiterals_iff.mp (tests.edge .fluent p q before inRange gate) literal inBinary
        have mem := (ConjunctiveCondition.mem_overapproximation.mp inBinary).1
        cases polarity : literal.polarity with
        | true =>
            have tested := positive mem polarity
            have inP := before.trans inRange
            exact ⟨tested.pair inBinary p q before inRange gate,
              tested.constants inBinary p inP q inRange gate,
              tested.constants inBinary q inRange p inP (edgeGate_symm .fluent p q ▸ gate)⟩
        | false =>
            exact ⟨fun mentionsP mentionsQ =>
                consistentParameterPair_anti (edges _) polarity (pair mentionsP mentionsQ),
              fun mentionsP => consistentWithConstants_anti (edges _) polarity (first mentionsP),
              fun mentionsQ => consistentWithConstants_anti (edges _) polarity (second mentionsQ)⟩

/-! ### Pending bindings -/

/-- The residual check of the binding looks at literals of the body. -/
structure ChecksBody (cws : ConstRuleWorkspace) (entry : PendingRule) : Prop where
  nullary : ∀ literal ∈ entry.check.nullary.unsatFluentLiterals,
    literal ∈ cws.rule.body.nullary.literals .fluent
  conflicting : ∀ literal ∈ entry.check.conflicting.unsatFluentLiterals,
    literal ∈ cws.rule.body.fluentLiterals

/-- The residual check fails on the facts. -/
structure Waits (data : ProgramData) (cws : ConstRuleWorkspace) (facts : List Tuple)
    (entry : PendingRule) : Prop extends ChecksBody cws entry where
  fails : (entry.check.isDynamicallyApplicable (data.factSets facts) entry.binding).1 = false

section

variable {data : ProgramData} {cws : ConstRuleWorkspace} {old new facts : List Tuple}
  {entry : PendingRule}

/-- A literal that holds held on fewer facts, if its atom was there where it is positive. -/
theorem isValidBinding_of_earlier {literal : Literal} {binding : List Nat}
    (sub : ∀ fact ∈ old, fact ∈ new)
    (valid : (data.factSets new).isValidBinding binding .fluent literal = true)
    (was : literal.polarity = true → literal.atom.ground binding ∈ old) :
    (data.factSets old).isValidBinding binding .fluent literal = true := by
  rw [isValidBinding_fluent] at valid ⊢
  cases polarity : literal.polarity with
  | true => exact iff_of_true (was polarity) rfl
  | false =>
      rw [polarity] at valid
      exact iff_of_false (fun isOld => Bool.false_ne_true (valid.mp (sub _ isOld))) Bool.false_ne_true

/-- A pending binding that succeeds has a new body fact. -/
theorem Waits.exists_new (waits : Waits data cws old entry) (sub : ∀ fact ∈ old, fact ∈ new)
    (applicable : (entry.check.isDynamicallyApplicable (data.factSets new) entry.binding).1 = true) :
    ∃ fact ∈ witnessFacts cws.rule entry.binding, fact ∉ old := by
  by_contra none
  have was {literal : Literal} (mem : literal ∈ cws.rule.body.fluentLiterals)
      (positive : literal.polarity = true) : literal.atom.ground entry.binding ∈ old := by
    by_contra isNew
    exact none ⟨_, mem_witnessFacts.mpr ⟨literal, mem, positive, rfl⟩, isNew⟩
  rw [ApplicabilityCheck.isDynamicallyApplicable_fst, ConditionCheck.none_update,
    ConditionCheck.none_update] at applicable
  obtain ⟨⟨nullary, nullaryConstraints⟩, conflicting, constraints⟩ := applicable
  have applied : (entry.check.isDynamicallyApplicable (data.factSets old) entry.binding).1 = true := by
    rw [ApplicabilityCheck.isDynamicallyApplicable_fst, ConditionCheck.none_update,
      ConditionCheck.none_update]
    refine ⟨⟨fun literal mem => ?_, nullaryConstraints⟩, fun literal mem => ?_, constraints⟩
    · obtain ⟨inBody, ground⟩ := ConjunctiveCondition.mem_nullary.mp (waits.nullary literal mem)
      apply isValidBinding_of_earlier sub (nullary literal mem)
      intro positive
      rw [ground_of_nullary ground [] entry.binding]
      exact was inBody positive
    · apply isValidBinding_of_earlier sub (conflicting literal mem)
      exact was (waits.conflicting literal mem)
  rw [waits.fails] at applied
  exact Bool.false_ne_true applied

/-- A check that has failed looks at less and still fails. -/
theorem ChecksBody.waits (checks : ChecksBody cws entry)
    (fails : (entry.check.isDynamicallyApplicable (data.factSets facts) entry.binding).1 = false) :
    Waits data cws facts
      { entry with check := (entry.check.isDynamicallyApplicable (data.factSets facts) entry.binding).2 } := by
  have again {check : ConditionCheck} {sets : FactSets} {binding : List Nat} :
      ((check.update sets binding).update sets binding).none = (check.update sets binding).none := by
    simp [ConditionCheck.update, ConditionCheck.none, List.filter_filter]
  have rejected : ¬ (entry.check.isDynamicallyApplicable (data.factSets facts) entry.binding).1 = true := by
    rw [fails]
    exact Bool.false_ne_true
  rw [ApplicabilityCheck.isDynamicallyApplicable_fst] at rejected
  unfold ApplicabilityCheck.isDynamicallyApplicable
  dsimp only
  split
  · rename_i holds
    refine ⟨⟨fun literal mem => checks.nullary literal (List.mem_filter.mp mem).1,
      fun literal mem => checks.conflicting literal (List.mem_filter.mp mem).1⟩, ?_⟩
    rw [← Bool.not_eq_true, ApplicabilityCheck.isDynamicallyApplicable_fst, again, again]
    exact rejected
  · rename_i notNone
    refine ⟨⟨fun literal mem => checks.nullary literal (List.mem_filter.mp mem).1,
      checks.conflicting⟩, ?_⟩
    rw [← Bool.not_eq_true, ApplicabilityCheck.isDynamicallyApplicable_fst, again]
    exact fun both => notNone both.1

theorem checksBody_create (worker : Nat) (binding : List Nat) (sets : FactSets) :
    ChecksBody cws ⟨worker, binding, ApplicabilityCheck.create cws.rule.body.nullary
      cws.conflictingOverapproximation sets binding⟩ where
  nullary := fun _ mem => mem
  conflicting := by
    intro literal mem
    have conflicting : literal ∈ cws.conflictingOverapproximation.literals .fluent := mem
    exact (ConjunctiveCondition.mem_conflictingOverapproximation.mp conflicting).1

/-! ### Processing a rule -/

/-- Why a binding is announced. -/
inductive AnnouncedBy (cws : ConstRuleWorkspace) (sets : FactSets) (pending : List PendingRule)
    (reports : List (Nat × List Nat)) (binding : List Nat) : Prop
  | waited (entry : PendingRule) (mem : entry ∈ pending) (same : entry.binding = binding)
      (applicable : (entry.check.isDynamicallyApplicable sets entry.binding).1 = true)
      (notFact : groundHead cws.rule binding ∉ sets.predicate .fluent)
  | reported (parameters : cws.rule.arity ≠ 0) (mem : binding ∈ reports.map Prod.snd)
      (notFact : groundHead cws.rule binding ∉ sets.predicate .fluent)
  | holds (noParameters : cws.rule.arity = 0) (empty : binding = [])
      (nullary : sets.isValidCondition [] cws.rule.body.nullary = true)
      (body : sets.isValidCondition [] cws.rule.body = true)

variable {sets : FactSets} {pending : List PendingRule} {reports : List (Nat × List Nat)}
  {worker : Nat}

theorem announced_processPending {out : RuleOutput} {a : Announcement}
    (mem : a ∈ (processPending cws sets out entry).announced) : a ∈ out.announced ∨
      (entry.binding = a.binding ∧
        (entry.check.isDynamicallyApplicable sets entry.binding).1 = true ∧
        groundHead cws.rule a.binding ∉ sets.predicate .fluent) := by
  unfold processPending at mem
  dsimp only at mem
  split at mem
  · exact Or.inl mem
  · rename_i notFact
    split at mem
    · rename_i applicable
      obtain mem | mem := List.mem_append.mp mem
      · exact Or.inl mem
      · cases List.mem_singleton.mp mem
        exact Or.inr ⟨rfl, applicable, notFact⟩
    · exact Or.inl mem

theorem announced_processClique {out : RuleOutput} {report : Nat × List Nat} {a : Announcement}
    (mem : a ∈ (processClique cws sets out report).announced) : a ∈ out.announced ∨
      (report.2 = a.binding ∧ groundHead cws.rule a.binding ∉ sets.predicate .fluent) := by
  unfold processClique at mem
  dsimp only at mem
  split at mem
  · exact Or.inl mem
  · rename_i notFact
    split at mem
    · exact Or.inl mem
    · split at mem
      · obtain mem | mem := List.mem_append.mp mem
        · exact Or.inl mem
        · cases List.mem_singleton.mp mem
          exact Or.inr ⟨rfl, notFact⟩
      · split at mem
        · exact Or.inl mem
        · exact Or.inl mem

theorem announced_cases {a : Announcement}
    (mem : a ∈ (processRule cws sets pending reports worker).announced) :
    AnnouncedBy cws sets pending reports a.binding := by
  let P (out : RuleOutput) : Prop :=
    ∀ a ∈ out.announced, AnnouncedBy cws sets pending reports a.binding
  have fromPending : P (pending.foldl (processPending cws sets) ⟨[], []⟩) := by
    refine foldl_invariant (fun out known entry memEntry a memA => ?_) fun a memA => absurd memA List.not_mem_nil
    obtain memA | ⟨same, applicable, notFact⟩ := announced_processPending memA
    · exact known a memA
    · exact .waited entry memEntry same applicable notFact
  unfold processRule at mem
  dsimp only at mem
  split at mem
  · rename_i noParameters
    unfold generateNullaryCase at mem
    split at mem
    · rename_i valid
      obtain ⟨nullary, body⟩ := Bool.and_eq_true_iff.mp valid
      obtain mem | mem := List.mem_append.mp mem
      · exact fromPending a mem
      · cases List.mem_singleton.mp mem
        exact .holds noParameters rfl nullary body
    · exact fromPending a mem
  · rename_i parameters
    have all : P (reports.foldl (processClique cws sets)
        (pending.foldl (processPending cws sets) ⟨[], []⟩)) := by
      refine foldl_invariant (fun out known report memReport a memA => ?_) fromPending
      obtain memA | ⟨same, notFact⟩ := announced_processClique memA
      · exact known a memA
      · exact .reported parameters (same ▸ List.mem_map_of_mem memReport) notFact
    exact all a mem

/-- A rule without parameters announces its head whenever its body holds. -/
theorem announced_of_holds (noParameters : cws.rule.arity = 0)
    (nullary : sets.isValidCondition [] cws.rule.body.nullary = true)
    (body : sets.isValidCondition [] cws.rule.body = true) :
    ⟨worker, []⟩ ∈ (processRule cws sets pending reports worker).announced := by
  unfold processRule generateNullaryCase
  dsimp only
  rw [if_pos noParameters, if_pos (Bool.and_eq_true_iff.mpr ⟨nullary, body⟩)]
  exact List.mem_append_right _ List.mem_cons_self

/-- What is pending afterwards failed now. -/
theorem waits_processRule (checks : ∀ entry ∈ pending, ChecksBody cws entry) :
    ∀ entry ∈ (processRule cws (data.factSets facts) pending reports worker).pending,
      Waits data cws facts entry := by
  let P (out : RuleOutput) : Prop := ∀ entry ∈ out.pending, Waits data cws facts entry
  have fromPending : P (pending.foldl (processPending cws (data.factSets facts)) ⟨[], []⟩) := by
    refine foldl_invariant (fun out known entry memEntry => ?_) fun a memA => absurd memA List.not_mem_nil
    unfold processPending
    dsimp only
    split
    · exact known
    · split
      · exact known
      · rename_i rejected
        intro other mem
        obtain mem | mem := List.mem_append.mp mem
        · exact known other mem
        · rw [List.mem_singleton.mp mem]
          exact (checks entry memEntry).waits (Bool.not_eq_true _ ▸ rejected)
  unfold processRule
  dsimp only
  split
  · unfold generateNullaryCase
    split
    · exact fromPending
    · exact fromPending
  · refine foldl_invariant (P := P) (fun out known report _ => ?_) fromPending
    unfold processClique
    dsimp only
    split
    · exact known
    · split
      · exact known
      · split
        · exact known
        · rename_i rejected
          split
          · exact known
          · intro other mem
            obtain mem | mem := List.mem_append.mp mem
            · exact known other mem
            · rw [List.mem_singleton.mp mem]
              exact (checksBody_create report.1 report.2 _).waits (Bool.not_eq_true _ ▸ rejected)

end

end Tyr.Datalog
