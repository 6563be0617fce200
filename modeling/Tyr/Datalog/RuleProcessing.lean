import Tyr.Datalog.PerfectModel
import Tyr.Lib.Fold

/-!
What an iteration does for one rule.

A body that holds keeps holding while the facts grow, because the predicates
that it negates are complete (`Extends`). A residual check that was created or
last updated on earlier facts decides the whole body on later ones (`Tracks`).
From the two, `processRule` announces only bindings that hold, and loses none
that newly holds: it is announced, or its head is a fact already.
-/

namespace Tyr.Datalog

open Tyr.Lib Tyr.Formalism Tyr.Formalism.Datalog

/-! ### Growing facts -/

/-- The facts grow, but not in the predicates that the rule negates. -/
structure Extends (rule : Rule) (old new : List Tuple) : Prop where
  subset : ∀ fact ∈ old, fact ∈ new
  negative : ∀ literal ∈ rule.body.fluentLiterals, literal.polarity = false →
    ∀ binding, literal.atom.ground binding ∈ new → literal.atom.ground binding ∈ old

/-- The facts are the same for the literals of the rule. -/
def AgreeOn (rule : Rule) (old new : List Tuple) : Prop :=
  ∀ literal ∈ rule.body.fluentLiterals, ∀ binding,
    literal.atom.ground binding ∈ old ↔ literal.atom.ground binding ∈ new

section

variable {data : ProgramData} {rule : Rule} {old new later : List Tuple} {binding : List Nat}

theorem Extends.refl (rule : Rule) (facts : List Tuple) : Extends rule facts facts where
  subset := fun _ mem => mem
  negative := fun _ _ _ _ mem => mem

theorem Extends.trans (first : Extends rule old new) (second : Extends rule new later) :
    Extends rule old later where
  subset := fun fact mem => second.subset fact (first.subset fact mem)
  negative := fun literal mem negative binding isFact =>
    first.negative literal mem negative binding (second.negative literal mem negative binding isFact)

/-- A literal that holds keeps holding. -/
theorem Extends.literal (extend : Extends rule old new) (kind : FactKind) {literal : Literal}
    (mem : literal ∈ rule.body.literals kind)
    (valid : (data.factSets old).isValidBinding binding kind literal = true) :
    (data.factSets new).isValidBinding binding kind literal = true := by
  cases kind with
  | static => exact valid
  | fluent =>
      rw [isValidBinding_fluent] at valid ⊢
      cases polarity : literal.polarity with
      | true =>
          have isFact := valid.mpr polarity
          exact iff_of_true (extend.subset _ isFact) rfl
      | false =>
          apply iff_of_false _ Bool.false_ne_true
          intro isFact
          have before := extend.negative literal mem polarity binding isFact
          rw [polarity] at valid
          exact Bool.false_ne_true (valid.mp before)

variable {cws : ConstRuleWorkspace}

/-- A body that holds keeps holding. -/
theorem BodyHolds.extend (holds : BodyHolds data cws old binding)
    (extend : Extends cws.rule old new) : BodyHolds data cws new binding := by
  obtain ⟨inDomains, literals, constraints⟩ := bodyHolds_iff.mp holds
  rw [bodyHolds_iff]
  exact ⟨inDomains, fun kind literal mem => extend.literal kind mem (literals kind literal mem), constraints⟩

theorem AgreeOn.trans (first : AgreeOn rule old new) (second : AgreeOn rule new later) :
    AgreeOn rule old later :=
  fun literal mem binding => (first literal mem binding).trans (second literal mem binding)

/-- A body holds in facts that agree with others on it iff it holds in those. -/
theorem AgreeOn.bodyHolds (agree : AgreeOn cws.rule old new) :
    BodyHolds data cws old binding ↔ BodyHolds data cws new binding := by
  rw [bodyHolds_iff, bodyHolds_iff]
  apply and_congr_right'
  apply and_congr_left'
  apply forall_congr'
  intro kind
  apply forall₂_congr
  intro literal mem
  cases kind with
  | static => exact Iff.rfl
  | fluent => rw [isValidBinding_fluent, isValidBinding_fluent, agree literal mem binding]

end

/-! ### The residual check over growing facts -/

section

variable {now later : FactSets} {binding : List Nat}

/-- What holds now and keeps holding need not be looked at again. -/
theorem ConditionCheck.none_update_later {check : ConditionCheck}
    (stays : ∀ literal ∈ check.unsatFluentLiterals,
      now.isValidBinding binding .fluent literal = true →
        later.isValidBinding binding .fluent literal = true)
    (staysConstraint : ∀ constraint ∈ check.unsatNumericConstraints,
      now.isValidConstraint binding constraint = true →
        later.isValidConstraint binding constraint = true) :
    ((check.update now binding).update later binding).none = true ↔
      (check.update later binding).none = true := by
  rw [none_update, none_update]
  simp only [update, List.mem_filter, Bool.not_eq_true']
  constructor
  · rintro ⟨literals, constraints⟩
    constructor
    · intro literal mem
      cases holds : now.isValidBinding binding .fluent literal with
      | true => exact stays literal mem holds
      | false => exact literals literal ⟨mem, holds⟩
    · intro constraint mem
      cases holds : now.isValidConstraint binding constraint with
      | true => exact staysConstraint constraint mem holds
      | false => exact constraints constraint ⟨mem, holds⟩
  · rintro ⟨literals, constraints⟩
    exact ⟨fun literal mem => literals literal mem.1,
      fun constraint mem => constraints constraint mem.1⟩

end

/-- The residual check of a binding, created or updated on `facts`, decides the
body on all facts that extend these. -/
structure Tracks (data : ProgramData) (cws : ConstRuleWorkspace) (facts : List Tuple)
    (binding : List Nat) (check : ApplicabilityCheck) : Prop where
  nullary : ∀ literal ∈ check.nullary.unsatFluentLiterals,
    literal ∈ cws.rule.body.fluentLiterals
  conflicting : ∀ literal ∈ check.conflicting.unsatFluentLiterals,
    literal ∈ cws.rule.body.fluentLiterals
  accepts : ∀ later, Extends cws.rule facts later →
    ((check.isDynamicallyApplicable (data.factSets later) binding).1 = true ↔
      BodyHolds data cws later binding)

section

variable {data : ProgramData} {cws : ConstRuleWorkspace} {facts later : List Tuple}
  {binding : List Nat} {check : ApplicabilityCheck}

/-- The check after a call tracks the body from the facts of the call on. -/
theorem Tracks.next (tracks : Tracks data cws facts binding check)
    (extend : Extends cws.rule facts later) :
    Tracks data cws later binding
      (check.isDynamicallyApplicable (data.factSets later) binding).2 := by
  have nullaryMem : ∀ literal ∈ (check.nullary.update (data.factSets later) []).unsatFluentLiterals,
      literal ∈ cws.rule.body.fluentLiterals :=
    fun literal mem => tracks.nullary literal (List.mem_filter.mp mem).1
  have conflictingMem :
      ∀ literal ∈ (check.conflicting.update (data.factSets later) binding).unsatFluentLiterals,
        literal ∈ cws.rule.body.fluentLiterals :=
    fun literal mem => tracks.conflicting literal (List.mem_filter.mp mem).1
  have nullaryLater : ∀ {final}, Extends cws.rule later final →
      (((check.nullary.update (data.factSets later) []).update (data.factSets final) []).none = true ↔
        (check.nullary.update (data.factSets final) []).none = true) := by
    intro final beyond
    apply ConditionCheck.none_update_later
    · exact fun literal mem => beyond.literal .fluent (tracks.nullary literal mem)
    · exact fun _ _ valid => valid
  constructor
  · unfold ApplicabilityCheck.isDynamicallyApplicable
    dsimp only
    split <;> exact nullaryMem
  · unfold ApplicabilityCheck.isDynamicallyApplicable
    dsimp only
    split
    · exact conflictingMem
    · exact tracks.conflicting
  · intro final beyond
    rw [← tracks.accepts final (extend.trans beyond),
      ApplicabilityCheck.isDynamicallyApplicable_fst, ApplicabilityCheck.isDynamicallyApplicable_fst]
    unfold ApplicabilityCheck.isDynamicallyApplicable
    dsimp only
    split
    · apply and_congr (nullaryLater beyond)
      apply ConditionCheck.none_update_later
      · exact fun literal mem => beyond.literal .fluent (tracks.conflicting literal mem)
      · exact fun _ _ valid => valid
    · exact and_congr (nullaryLater beyond) Iff.rfl

/-- The residual conditions hold when the body does. -/
theorem BodyHolds.residual (holds : BodyHolds data cws facts binding) :
    (data.factSets facts).isValidCondition [] cws.rule.body.nullary = true ∧
      (data.factSets facts).isValidCondition binding cws.conflictingOverapproximation = true := by
  obtain ⟨_, literals, constraints⟩ := bodyHolds_iff.mp holds
  rw [FactSets.isValidCondition_iff, FactSets.isValidCondition_iff]
  refine ⟨⟨fun kind literal mem => ?_, fun constraint mem => ?_⟩,
    ⟨fun kind literal mem => ?_, fun constraint mem => ?_⟩⟩
  · obtain ⟨inBody, ground⟩ := ConjunctiveCondition.mem_nullary.mp mem
    have valid := literals kind literal inBody
    rwa [FactSets.isValidBinding, ground_of_nullary ground binding []] at valid
  · obtain ⟨inBody, ground⟩ := List.mem_filter.mp mem
    have valid := constraints constraint inBody
    rwa [FactSets.isValidConstraint_of_parameterArity_eq_zero (beq_iff_eq.mp ground) _ binding []]
      at valid
  · exact literals kind literal (ConjunctiveCondition.mem_conflictingOverapproximation.mp mem).1
  · exact constraints constraint (List.mem_filter.mp mem).1

variable {enumeration : CliqueEnumeration data}

/-- The body of an enumerated binding holds when the residual conditions do. -/
theorem bodyHolds_of_residual (isCandidate : enumeration.candidate cws facts binding)
    (extend : Extends cws.rule facts later)
    (nullary : (data.factSets later).isValidCondition [] cws.rule.body.nullary = true)
    (conflicting :
      (data.factSets later).isValidCondition binding cws.conflictingOverapproximation = true) :
    BodyHolds data cws later binding := by
  obtain ⟨nullaryLiterals, nullaryConstraints⟩ := FactSets.isValidCondition_iff.mp nullary
  obtain ⟨conflictingLiterals, conflictingConstraints⟩ := FactSets.isValidCondition_iff.mp conflicting
  rw [bodyHolds_iff]
  refine ⟨enumeration.inDomains cws facts binding isCandidate, fun kind literal mem => ?_,
    fun constraint mem => ?_⟩
  · by_cases inNullary : literal ∈ cws.rule.body.nullary.literals kind
    · have ground := (ConjunctiveCondition.mem_nullary.mp inNullary).2
      have valid := nullaryLiterals kind literal inNullary
      rwa [FactSets.isValidBinding, ground_of_nullary ground [] binding] at valid
    · by_cases inConflicting : literal ∈ cws.conflictingOverapproximation.literals kind
      · exact conflictingLiterals kind literal inConflicting
      · have valid := enumeration.literal cws facts binding isCandidate kind literal mem inNullary inConflicting
        exact extend.literal kind mem valid
  · by_cases inNullary : constraint ∈ cws.rule.body.nullary.numericConstraints
    · have ground : Constraint.parameterArity constraint = 0 :=
        beq_iff_eq.mp (List.mem_filter.mp inNullary).2
      have valid := nullaryConstraints constraint inNullary
      rwa [FactSets.isValidConstraint_of_parameterArity_eq_zero ground _ [] binding] at valid
    · by_cases inConflicting : constraint ∈ cws.conflictingOverapproximation.numericConstraints
      · exact conflictingConstraints constraint inConflicting
      · exact enumeration.constraint cws facts binding isCandidate constraint mem inNullary inConflicting

/-- The static facts do not change, so a check may be taken as created later. -/
theorem create_later (nullary conflicting : ConjunctiveCondition) (facts later : List Tuple)
    (binding : List Nat) :
    ApplicabilityCheck.create nullary conflicting (data.factSets facts) binding =
      ApplicabilityCheck.create nullary conflicting (data.factSets later) binding := rfl

/-- A binding whose check is not statically applicable never satisfies the body. -/
theorem not_bodyHolds_of_not_applicable
    (inapplicable : ¬ (ApplicabilityCheck.create cws.rule.body.nullary
      cws.conflictingOverapproximation (data.factSets facts) binding).isStaticallyApplicable = true) :
    ¬ BodyHolds data cws later binding := by
  intro holds
  have accepted := ApplicabilityCheck.create_accepts.mpr holds.residual
  rw [create_later _ _ later facts] at accepted
  exact inapplicable accepted.1

/-- The check of an enumerated binding tracks the body, once it is statically applicable. -/
theorem tracks_create (isCandidate : enumeration.candidate cws facts binding)
    (applicable : (ApplicabilityCheck.create cws.rule.body.nullary cws.conflictingOverapproximation
      (data.factSets facts) binding).isStaticallyApplicable = true) :
    Tracks data cws facts binding (ApplicabilityCheck.create cws.rule.body.nullary
      cws.conflictingOverapproximation (data.factSets facts) binding) where
  nullary := fun _ mem => (List.mem_filter.mp mem).1
  conflicting := fun _ mem => (List.mem_filter.mp mem).1
  accepts := by
    intro later extend
    rw [create_later _ _ facts later] at applicable ⊢
    constructor
    · intro accepted
      obtain ⟨nullary, conflicting⟩ := ApplicabilityCheck.create_accepts.mp ⟨applicable, accepted⟩
      exact bodyHolds_of_residual isCandidate extend nullary conflicting
    · intro holds
      exact (ApplicabilityCheck.create_accepts.mpr holds.residual).2

end

/-! ### Processing a rule -/

/-- What is known of a rule whose bindings were enumerated on `seen` last. A
binding is forgotten only when its head is a fact, when it was announced, or
when it can never hold. -/
structure EnumeratedOn (data : ProgramData) (enumeration : CliqueEnumeration data)
    (cws : ConstRuleWorkspace) (seen facts : List Tuple) (pending : List PendingRule) : Prop where
  extend : Extends cws.rule seen facts
  tracks : ∀ entry ∈ pending, Tracks data cws seen entry.binding entry.check
  fails : ∀ entry ∈ pending, ¬ BodyHolds data cws seen entry.binding
  kept : cws.rule.arity ≠ 0 → ∀ binding, enumeration.candidate cws seen binding →
    groundHead cws.rule binding ∈ facts ∨ BodyHolds data cws seen binding ∨
      (∃ entry ∈ pending, entry.binding = binding) ∨
      ∀ later, Extends cws.rule seen later → ¬ BodyHolds data cws later binding

/-- Later facts keep what is known of an enumeration. -/
theorem EnumeratedOn.grow {data : ProgramData} {enumeration : CliqueEnumeration data}
    {cws : ConstRuleWorkspace} {seen facts later : List Tuple}
    {pending : List PendingRule} (enumerated : EnumeratedOn data enumeration cws seen facts pending)
    (grows : ∀ fact ∈ facts, fact ∈ later) (extend : Extends cws.rule seen later) :
    EnumeratedOn data enumeration cws seen later pending where
  extend := extend
  tracks := enumerated.tracks
  fails := enumerated.fails
  kept := fun arity binding isCandidate => (enumerated.kept arity binding isCandidate).imp_left (grows _)

/-- The output holds announcements that are right and pending bindings that fail. -/
structure RuleOutput.Sound (data : ProgramData) (cws : ConstRuleWorkspace) (facts : List Tuple)
    (out : RuleOutput) : Prop where
  announced : ∀ a ∈ out.announced, BodyHolds data cws facts a.binding
  tracks : ∀ entry ∈ out.pending, Tracks data cws facts entry.binding entry.check
  fails : ∀ entry ∈ out.pending, ¬ BodyHolds data cws facts entry.binding

/-- The binding is announced or pending. -/
def RuleOutput.Handles (out : RuleOutput) (binding : List Nat) : Prop :=
  (∃ a ∈ out.announced, a.binding = binding) ∨ ∃ entry ∈ out.pending, entry.binding = binding

section

variable {data : ProgramData} {cws : ConstRuleWorkspace} {facts : List Tuple} {out : RuleOutput}

theorem RuleOutput.Sound.announce (sound : out.Sound data cws facts) {worker : Nat}
    {binding : List Nat} (holds : BodyHolds data cws facts binding) :
    RuleOutput.Sound data cws facts
      { out with announced := out.announced ++ [⟨worker, binding⟩] } where
  announced := by
    intro a mem
    rcases List.mem_append.mp mem with old | new
    · exact sound.announced a old
    · cases List.mem_singleton.mp new
      exact holds
  tracks := sound.tracks
  fails := sound.fails

theorem RuleOutput.Sound.postpone (sound : out.Sound data cws facts) {worker : Nat}
    {binding : List Nat} {check : ApplicabilityCheck} (tracks : Tracks data cws facts binding check)
    (fails : ¬ BodyHolds data cws facts binding) :
    RuleOutput.Sound data cws facts
      { out with pending := out.pending ++ [⟨worker, binding, check⟩] } where
  announced := sound.announced
  tracks := by
    intro entry mem
    rcases List.mem_append.mp mem with old | new
    · exact sound.tracks entry old
    · cases List.mem_singleton.mp new
      exact tracks
  fails := by
    intro entry mem
    rcases List.mem_append.mp mem with old | new
    · exact sound.fails entry old
    · cases List.mem_singleton.mp new
      exact fails

/-- One pending binding: it stays sound, and the binding is handled unless its
head is a fact. -/
theorem processPending_spec {seen : List Tuple} {entry : PendingRule}
    (extend : Extends cws.rule seen facts)
    (tracks : Tracks data cws seen entry.binding entry.check) (sound : out.Sound data cws facts) :
    (processPending cws (data.factSets facts) out entry).Sound data cws facts ∧
      (groundHead cws.rule entry.binding ∈ facts ∨
        (processPending cws (data.factSets facts) out entry).Handles entry.binding) := by
  have decides := tracks.accepts facts extend
  unfold processPending
  dsimp only
  split
  · next isFact => exact ⟨sound, .inl isFact⟩
  · split
    · next accepted =>
        refine ⟨sound.announce (decides.mp accepted), .inr (.inl ?_)⟩
        exact ⟨_, List.mem_append_right _ (List.mem_singleton_self _), rfl⟩
    · next rejected =>
        have fails : ¬ BodyHolds data cws facts entry.binding :=
          fun holds => rejected (decides.mpr holds)
        refine ⟨sound.postpone (tracks.next extend) fails, .inr (.inr ?_)⟩
        exact ⟨_, List.mem_append_right _ (List.mem_singleton_self _), rfl⟩

/-- One enumerated binding: it stays sound, and the binding is handled unless its
head is a fact or its body can never hold. -/
theorem processClique_spec {enumeration : CliqueEnumeration data} {report : Nat × List Nat}
    (isCandidate : enumeration.candidate cws facts report.2) (sound : out.Sound data cws facts) :
    (processClique cws (data.factSets facts) out report).Sound data cws facts ∧
      (groundHead cws.rule report.2 ∈ facts ∨
        (processClique cws (data.factSets facts) out report).Handles report.2 ∨
        ∀ later, ¬ BodyHolds data cws later report.2) := by
  unfold processClique
  dsimp only
  split
  · next isFact => exact ⟨sound, .inl isFact⟩
  · split
    · next inapplicable =>
        refine ⟨sound, .inr (.inr fun later => ?_)⟩
        exact not_bodyHolds_of_not_applicable (by simpa using inapplicable)
    · next applicable =>
        have tracks := tracks_create isCandidate (by simpa using applicable)
        have decides := tracks.accepts facts (Extends.refl _ _)
        split
        · next accepted =>
            refine ⟨sound.announce (decides.mp accepted), .inr (.inl (.inl ?_))⟩
            exact ⟨_, List.mem_append_right _ (List.mem_singleton_self _), rfl⟩
        · next rejected =>
            split
            · next present =>
                obtain ⟨entry, mem, same⟩ := List.any_eq_true.mp present
                have sameBinding := beq_iff_eq.mp (Bool.and_eq_true_iff.mp same).2
                exact ⟨sound, .inr (.inl (.inr ⟨entry, mem, sameBinding⟩))⟩
            · have fails : ¬ BodyHolds data cws facts report.2 :=
                fun holds => rejected (decides.mpr holds)
              refine ⟨sound.postpone (tracks.next (Extends.refl _ _)) fails,
                .inr (.inl (.inr ?_))⟩
              exact ⟨_, List.mem_append_right _ (List.mem_singleton_self _), rfl⟩

theorem handles_processPending {sets : FactSets} {entry : PendingRule} {binding : List Nat}
    (handles : out.Handles binding) : (processPending cws sets out entry).Handles binding := by
  unfold processPending
  dsimp only
  split
  · exact handles
  · split
    · exact handles.imp (fun ⟨a, mem, same⟩ => ⟨a, List.mem_append_left _ mem, same⟩) id
    · exact handles.imp id (fun ⟨e, mem, same⟩ => ⟨e, List.mem_append_left _ mem, same⟩)

theorem handles_processClique {sets : FactSets} {report : Nat × List Nat} {binding : List Nat}
    (handles : out.Handles binding) : (processClique cws sets out report).Handles binding := by
  unfold processClique
  dsimp only
  split
  · exact handles
  · split
    · exact handles
    · split
      · exact handles.imp (fun ⟨a, mem, same⟩ => ⟨a, List.mem_append_left _ mem, same⟩) id
      · split
        · exact handles
        · exact handles.imp id (fun ⟨e, mem, same⟩ => ⟨e, List.mem_append_left _ mem, same⟩)

variable {enumeration : CliqueEnumeration data} {pending : List PendingRule}
  {reports : List (Nat × List Nat)} {seen : Option (List Tuple)}

/-- The state of a rule before it is processed, and the reports of its enumeration. -/
structure ReadyFor (data : ProgramData) (enumeration : CliqueEnumeration data)
    (cws : ConstRuleWorkspace) (seen : Option (List Tuple)) (facts : List Tuple)
    (pending : List PendingRule) (reports : List (Nat × List Nat)) : Prop where
  fresh : seen = none → pending = []
  enumerated : ∀ s ∈ seen, EnumeratedOn data enumeration cws s facts pending
  reported : cws.rule.arity ≠ 0 → ∀ binding, binding ∈ reports.map Prod.snd ↔
    enumeration.candidate cws facts binding ∧ ∀ s ∈ seen, ¬ enumeration.candidate cws s binding

theorem ReadyFor.pending_seen (ready : ReadyFor data enumeration cws seen facts pending reports)
    {entry : PendingRule} (mem : entry ∈ pending) :
    ∃ s ∈ seen, EnumeratedOn data enumeration cws s facts pending := by
  cases hSeen : seen with
  | none =>
      rw [ready.fresh hSeen] at mem
      exact absurd mem List.not_mem_nil
  | some s => exact ⟨s, rfl, ready.enumerated s hSeen⟩

/-- The output of the pending bindings: sound, and each is handled unless its
head is a fact. -/
theorem ReadyFor.pending_spec (ready : ReadyFor data enumeration cws seen facts pending reports) :
    let out := pending.foldl (processPending cws (data.factSets facts)) ⟨[], []⟩
    out.Sound data cws facts ∧ ∀ entry ∈ pending,
      groundHead cws.rule entry.binding ∈ facts ∨ out.Handles entry.binding := by
  have step : ∀ out : RuleOutput, out.Sound data cws facts → ∀ entry ∈ pending,
      (processPending cws (data.factSets facts) out entry).Sound data cws facts ∧
        (groundHead cws.rule entry.binding ∈ facts ∨
          (processPending cws (data.factSets facts) out entry).Handles entry.binding) := by
    intro out sound entry mem
    obtain ⟨s, _, enumerated⟩ := ready.pending_seen mem
    exact processPending_spec enumerated.extend (enumerated.tracks entry mem) sound
  have start : RuleOutput.Sound data cws facts ⟨[], []⟩ := ⟨nofun, nofun, nofun⟩
  refine ⟨foldl_invariant (fun out sound entry mem => (step out sound entry mem).1) start, ?_⟩
  intro entry mem
  exact foldl_establishes
    (fun out => groundHead cws.rule entry.binding ∈ facts ∨ RuleOutput.Handles out entry.binding)
    (fun out sound entry mem => (step out sound entry mem).1)
    (fun out _ _ _ handled => handled.imp_right handles_processPending) mem
    (fun out sound => (step out sound entry mem).2) start

/-- The output of a rule with parameters: sound, and each overapproximated
binding is handled unless its head is a fact, it has been announced before, or
its body can never hold. -/
theorem ReadyFor.clique_spec (ready : ReadyFor data enumeration cws seen facts pending reports)
    (worker : Nat) (arity : cws.rule.arity ≠ 0) :
    let out := processRule cws (data.factSets facts) pending reports worker
    out.Sound data cws facts ∧ ∀ binding, enumeration.candidate cws facts binding →
      groundHead cws.rule binding ∈ facts ∨ out.Handles binding ∨
        (∃ s ∈ seen, BodyHolds data cws s binding) ∨
        ∀ later, Extends cws.rule facts later → ¬ BodyHolds data cws later binding := by
  obtain ⟨soundPending, handledPending⟩ := ready.pending_spec
  have step : ∀ out : RuleOutput, out.Sound data cws facts → ∀ report ∈ reports,
      (processClique cws (data.factSets facts) out report).Sound data cws facts ∧
        (groundHead cws.rule report.2 ∈ facts ∨
          (processClique cws (data.factSets facts) out report).Handles report.2 ∨
          ∀ later, ¬ BodyHolds data cws later report.2) := by
    intro out sound report mem
    have isCandidate := ((ready.reported arity report.2).mp (List.mem_map_of_mem mem)).1
    exact processClique_spec isCandidate sound
  have keeps : ∀ out : RuleOutput, out.Sound data cws facts → ∀ report ∈ reports,
      (processClique cws (data.factSets facts) out report).Sound data cws facts :=
    fun out sound report mem => (step out sound report mem).1
  dsimp only
  rw [processRule]
  rw [if_neg arity]
  refine ⟨foldl_invariant keeps soundPending, fun binding isCandidate => ?_⟩
  by_cases before : ∃ s ∈ seen, enumeration.candidate cws s binding
  · -- An earlier enumeration reported it: it is still pending, or it is done.
    obtain ⟨s, memSeen, overBefore⟩ := before
    have enumerated := ready.enumerated s memSeen
    rcases enumerated.kept arity binding overBefore with isFact | holds | ⟨entry, mem, rfl⟩ | never
    · exact .inl isFact
    · exact .inr (.inr (.inl ⟨s, memSeen, holds⟩))
    · rcases handledPending entry mem with isFact | handled
      · exact .inl isFact
      · refine .inr (.inl ?_)
        exact foldl_invariant (P := fun out : RuleOutput => out.Handles entry.binding)
          (fun out handles report _ => handles_processClique handles) handled
    · exact .inr (.inr (.inr fun later beyond => never later (enumerated.extend.trans beyond)))
  · have isNew : ∀ s ∈ seen, ¬ enumeration.candidate cws s binding :=
      fun s mem overBefore => before ⟨s, mem, overBefore⟩
    obtain ⟨report, mem, rfl⟩ := List.mem_map.mp ((ready.reported arity binding).mpr ⟨isCandidate, isNew⟩)
    have done := foldl_establishes
      (fun out => groundHead cws.rule report.2 ∈ facts ∨ RuleOutput.Handles out report.2 ∨
        ∀ later, ¬ BodyHolds data cws later report.2) keeps
      (fun out _ _ _ handled => handled.imp_right (Or.imp_left handles_processClique)) mem
      (fun out sound => (step out sound report mem).2) soundPending
    rcases done with isFact | handled | never
    · exact .inl isFact
    · exact .inr (.inl handled)
    · exact .inr (.inr (.inr fun later _ => never later))

/-- The output of a rule without parameters: it is announced iff its body holds. -/
theorem ReadyFor.nullary_spec (ready : ReadyFor data enumeration cws seen facts pending reports)
    (worker : Nat) (arity : cws.rule.arity = 0) :
    let out := processRule cws (data.factSets facts) pending reports worker
    out.Sound data cws facts ∧ ∀ binding, BodyHolds data cws facts binding →
      ∃ a ∈ out.announced, a.binding = binding := by
  have emptyBinding : ∀ binding, BodyHolds data cws facts binding → binding = [] := by
    intro binding holds
    exact List.length_eq_zero_iff.mp (holds.1.1.trans arity)
  have empty : cws.InDomains [] := ConstRuleWorkspace.inDomains_nil arity
  obtain ⟨sound, -⟩ := ready.pending_spec
  dsimp only
  rw [processRule]
  rw [if_pos arity, generateNullaryCase]
  split
  · next holds =>
      have body := (Bool.and_eq_true_iff.mp holds).2
      refine ⟨sound.announce ⟨empty, body⟩, fun binding bodyHolds => ?_⟩
      rw [emptyBinding binding bodyHolds]
      exact ⟨_, List.mem_append_right _ (List.mem_singleton_self _), rfl⟩
  · next fails =>
      refine ⟨sound, fun binding bodyHolds => absurd ?_ fails⟩
      obtain rfl := emptyBinding binding bodyHolds
      exact Bool.and_eq_true_iff.mpr ⟨bodyHolds.residual.1, bodyHolds.2⟩

/-- What processing a rule achieves: announcements are right, a body that newly
holds is announced or its head is a fact, and the rule has then been enumerated
on the current facts. -/
theorem processRule_spec (ready : ReadyFor data enumeration cws seen facts pending reports)
    (worker : Nat) :
    let out := processRule cws (data.factSets facts) pending reports worker
    (∀ a ∈ out.announced, BodyHolds data cws facts a.binding) ∧
      (∀ binding, BodyHolds data cws facts binding →
        groundHead cws.rule binding ∈ facts ∨ (∃ s ∈ seen, BodyHolds data cws s binding) ∨
          ∃ a ∈ out.announced, a.binding = binding) ∧
      EnumeratedOn data enumeration cws facts facts out.pending := by
  dsimp only
  by_cases arity : cws.rule.arity = 0
  · obtain ⟨sound, complete⟩ := ready.nullary_spec worker arity
    refine ⟨sound.announced, fun binding holds => .inr (.inr (complete binding holds)), ?_⟩
    exact ⟨Extends.refl _ _, sound.tracks, sound.fails, fun nonzero => absurd arity nonzero⟩
  · obtain ⟨sound, complete⟩ := ready.clique_spec worker arity
    refine ⟨sound.announced, fun binding holds => ?_, Extends.refl _ _, sound.tracks, sound.fails,
      fun _ binding isCandidate => ?_⟩
    · have isCandidate := enumeration.complete cws facts binding holds.1 holds.2
      rcases complete binding isCandidate with isFact | (announced | ⟨entry, mem, rfl⟩) | before | never
      · exact .inl isFact
      · exact .inr (.inr announced)
      · exact absurd holds (sound.fails entry mem)
      · exact .inr (.inl before)
      · exact absurd holds (never facts (Extends.refl _ _))
    · rcases complete binding isCandidate with isFact | (⟨a, mem, rfl⟩ | pending) | ⟨s, mem, holds⟩ | never
      · exact .inl isFact
      · exact .inr (.inl (sound.announced a mem))
      · exact .inr (.inr (.inl pending))
      · exact .inr (.inl (holds.extend (ready.enumerated s mem).extend))
      · exact .inr (.inr (.inr never))

end

end Tyr.Datalog
