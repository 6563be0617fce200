import Tyr.Datalog.BottomUpCorrect
import Tyr.Lib.StableModel

/-!
The stable model of a stratified program.

The ground instances of the rules, without what depends on the bindings and the static
facts alone, are clauses. If no rule derives a predicate of the given facts, the facts
that bottom-up evaluation returns are the only stable model of the clauses and the given
facts, whatever the strata are.

* `programClauses` — the clauses of a program.
* `predicateLevel` — the level of a predicate in the strata.
* `SolvesStrata.stable` — what the evaluation returns.
-/

namespace Tyr.Datalog

open Tyr.Lib Tyr.Formalism Tyr.Formalism.Datalog

/-! ### Clauses -/

/-- What a rule asks of a binding apart from its fluent literals. -/
structure AdmitsStatically (data : ProgramData) (cws : ConstRuleWorkspace) (binding : List Nat) :
    Prop where
  inDomains : cws.InDomains binding
  static : ∀ literal ∈ cws.rule.body.staticLiterals,
    (literal.atom.ground binding ∈ data.staticFacts ↔ literal.polarity = true)
  constraint : ∀ constraint ∈ cws.rule.body.numericConstraints,
    (data.factSets []).isValidConstraint binding constraint = true

/-- The facts of the negative fluent literals of the body. -/
def negativeFacts (rule : Rule) (binding : List Nat) : List Tuple :=
  (rule.body.fluentLiterals.filter (!·.polarity)).map fun literal => literal.atom.ground binding

def groundClause (rule : Rule) (binding : List Nat) : Clause Tuple where
  head := groundHead rule binding
  positive := witnessFacts rule binding
  negative := negativeFacts rule binding

def stratumClauses (data : ProgramData) (stratum : Stratum) : Set (Clause Tuple) :=
  {clause | ∃ cws ∈ stratum, ∃ binding, AdmitsStatically data cws binding ∧
    clause = groundClause cws.rule binding}

/-- The given facts as clauses. -/
def givenClauses (facts : List Tuple) : Set (Clause Tuple) := {clause | ∃ fact ∈ facts, clause = ⟨fact, [], []⟩}

def programClauses (data : ProgramData) (strata : List Stratum) (facts : List Tuple) : Set (Clause Tuple) :=
  givenClauses facts ∪ {clause | ∃ stratum ∈ strata, clause ∈ stratumClauses data stratum}

section

variable {data : ProgramData} {stratum : Stratum} {base : Tuple → Prop} {fact : Tuple}

theorem mem_negativeFacts {rule : Rule} {binding : List Nat} :
    fact ∈ negativeFacts rule binding ↔ ∃ literal ∈ rule.body.fluentLiterals,
      literal.polarity = false ∧ literal.atom.ground binding = fact := by
  simp [negativeFacts, and_assoc]

theorem stratumModel_iff :
    StratumModel data stratum base fact ↔ LayerModel (stratumClauses data stratum) {fact | base fact} fact := by
  constructor
  · intro model
    induction model with
    | base holds => exact .base holds
    | @rule cws binding mem admits _ ih =>
        have isClause : groundClause cws.rule binding ∈ stratumClauses data stratum :=
          ⟨cws, mem, binding, ⟨admits.inDomains, admits.static, admits.constraint⟩, rfl⟩
        refine LayerModel.clause isClause ?_ ?_
        · intro atom isNegative
          obtain ⟨literal, memLiteral, negative, rfl⟩ := mem_negativeFacts.mp isNegative
          exact admits.negative literal memLiteral negative
        · intro atom isPositive
          obtain ⟨literal, memLiteral, positive, rfl⟩ := mem_witnessFacts.mp isPositive
          exact ih literal memLiteral positive
  · intro model
    induction model with
    | base holds => exact .base holds
    | clause mem absent _ ih =>
        obtain ⟨cws, memRule, binding, admits, rfl⟩ := mem
        refine .rule memRule ⟨admits.inDomains, admits.static, fun literal memLiteral negative => ?_,
          admits.constraint⟩ fun literal memLiteral positive => ?_
        · exact absent _ (mem_negativeFacts.mpr ⟨literal, memLiteral, negative, rfl⟩)
        · exact ih _ (mem_witnessFacts.mpr ⟨literal, memLiteral, positive, rfl⟩)

theorem perfectModel_eq (strata : List Stratum) :
    {fact | perfectModel data strata base fact} =
      Lib.perfectModel (strata.map (stratumClauses data)) {fact | base fact} := by
  induction strata generalizing base with
  | nil => rfl
  | cons stratum strata ih =>
      have same : {fact | StratumModel data stratum base fact} =
          {fact | LayerModel (stratumClauses data stratum) {fact | base fact} fact} :=
        Set.ext fun fact => stratumModel_iff
      rw [List.map_cons, Lib.perfectModel, ← same]
      exact ih

end

/-! ### Levels -/

/-- One more than the index of the stratum that derives the predicate, zero if there is none. -/
def predicateLevel (strata : List Stratum) (predicate : Nat) : Nat :=
  ((strata.findIdx? fun stratum => stratum.any fun cws => cws.rule.head.predicate == predicate).map
    (· + 1)).getD 0

section

variable {data : ProgramData} {strata : List Stratum} {facts : List Tuple} {stratum : Stratum}
  {cws : ConstRuleWorkspace} {i : Nat}

theorem Stratified.before (stratified : Stratified strata) {i j : Nat} {earlier later : Stratum}
    (isEarlier : strata[i]? = some earlier) (isLater : strata[j]? = some later) (lt : i < j) :
    earlier.Before later := by
  obtain ⟨ltEarlier, rfl⟩ := List.getElem?_eq_some_iff.mp isEarlier
  obtain ⟨ltLater, rfl⟩ := List.getElem?_eq_some_iff.mp isLater
  exact List.pairwise_iff_getElem.mp stratified.ordered i j ltEarlier ltLater lt

/-- The level of a predicate is that of some stratum. -/
theorem predicateLevel_cases (strata : List Stratum) (predicate : Nat) :
    (predicateLevel strata predicate = 0 ∧ ∀ stratum ∈ strata, ∀ cws ∈ stratum,
        cws.rule.head.predicate ≠ predicate) ∨
      ∃ i stratum, strata[i]? = some stratum ∧ predicateLevel strata predicate = i + 1 ∧
        ∃ cws ∈ stratum, cws.rule.head.predicate = predicate := by
  unfold predicateLevel
  cases found : strata.findIdx? fun stratum =>
      stratum.any fun cws => cws.rule.head.predicate == predicate with
  | none =>
      refine .inl ⟨rfl, fun stratum mem cws memRule same => ?_⟩
      have none := List.findIdx?_eq_none_iff.mp found stratum mem
      rw [List.any_eq_false] at none
      exact none cws memRule (beq_iff_eq.mpr same)
  | some i =>
      obtain ⟨lt, isFirst, _⟩ := List.findIdx?_eq_some_iff_getElem.mp found
      obtain ⟨cws, memRule, same⟩ := List.any_eq_true.mp isFirst
      exact .inr ⟨i, _, List.getElem?_eq_getElem lt, rfl, cws, memRule, beq_iff_eq.mp same⟩

theorem predicateLevel_head (stratified : Stratified strata) (isStratum : strata[i]? = some stratum)
    (mem : cws ∈ stratum) : predicateLevel strata cws.rule.head.predicate = i + 1 := by
  rcases predicateLevel_cases strata cws.rule.head.predicate with
    ⟨_, none⟩ | ⟨j, other, isOther, level, cws', mem', same⟩
  · exact absurd rfl (none stratum (List.mem_of_getElem? isStratum) cws mem)
  · rw [level]
    rcases lt_trichotomy i j with lt | rfl | lt
    · exact absurd same.symm ((stratified.before isStratum isOther lt) cws mem cws' mem').2
    · rfl
    · exact absurd same ((stratified.before isOther isStratum lt) cws' mem' cws mem).2

/-- A body does not look at later strata. -/
theorem predicateLevel_body (stratified : Stratified strata) (isStratum : strata[i]? = some stratum)
    (mem : cws ∈ stratum) {literal : Literal} (memLiteral : literal ∈ cws.rule.body.fluentLiterals) :
    predicateLevel strata literal.atom.predicate ≤ i + 1 ∧
      (literal.polarity = false → predicateLevel strata literal.atom.predicate < i + 1) := by
  rcases predicateLevel_cases strata literal.atom.predicate with
    ⟨level, _⟩ | ⟨j, other, isOther, level, cws', mem', same⟩
  · rw [level]
    exact ⟨Nat.zero_le _, fun _ => Nat.succ_pos i⟩
  · rw [level]
    have notLater : j ≤ i := by
      by_contra later
      exact ((stratified.before isStratum isOther (not_le.mp later)) cws mem cws' mem').1 literal
        memLiteral same.symm
    refine ⟨Nat.succ_le_succ notLater, fun negative => Nat.succ_lt_succ (notLater.lt_of_ne ?_)⟩
    rintro rfl
    obtain rfl := Option.some.inj (isStratum.symm.trans isOther)
    exact stratified.negationFree stratum (List.mem_of_getElem? isStratum) cws mem cws' mem' literal
      memLiteral negative same.symm

/-- No rule derives a predicate of the facts. -/
def Extensional (strata : List Stratum) (facts : List Tuple) : Prop :=
  ∀ fact ∈ facts, ∀ stratum ∈ strata, ∀ cws ∈ stratum, cws.rule.head.predicate ≠ fact.relation

theorem Extensional.level (extensional : Extensional strata facts) {fact : Tuple} (mem : fact ∈ facts) :
    predicateLevel strata fact.relation = 0 := by
  rcases predicateLevel_cases strata fact.relation with
    ⟨level, _⟩ | ⟨_, stratum, isStratum, _, cws, memRule, same⟩
  · exact level
  · exact absurd same (extensional fact mem stratum (List.mem_of_getElem? isStratum) cws memRule)

theorem leveled_programClauses (stratified : Stratified strata) :
    Leveled (programClauses data strata facts) fun fact => predicateLevel strata fact.relation where
  positive := by
    rintro clause (⟨_, _, rfl⟩ | ⟨stratum, memStratum, cws, mem, binding, _, rfl⟩) atom isPositive
    · cases isPositive
    · obtain ⟨i, isStratum⟩ := List.mem_iff_getElem?.mp memStratum
      obtain ⟨literal, memLiteral, _, rfl⟩ := mem_witnessFacts.mp isPositive
      exact (predicateLevel_body stratified isStratum mem memLiteral).1.trans_eq
        (predicateLevel_head stratified isStratum mem).symm
  negative := by
    rintro clause (⟨_, _, rfl⟩ | ⟨stratum, memStratum, cws, mem, binding, _, rfl⟩) atom isNegative
    · cases isNegative
    · obtain ⟨i, isStratum⟩ := List.mem_iff_getElem?.mp memStratum
      obtain ⟨literal, memLiteral, negative, rfl⟩ := mem_negativeFacts.mp isNegative
      exact ((predicateLevel_body stratified isStratum mem memLiteral).2 negative).trans_eq
        (predicateLevel_head stratified isStratum mem).symm

/-- The perfect model is stable. -/
theorem isStable_program (stratified : Stratified strata) (extensional : Extensional strata facts) :
    IsStable (programClauses data strata facts) {fact | perfectModel data strata (· ∈ facts) fact} := by
  have clauses : programClauses data strata facts = givenClauses facts ∪ {clause | ∃ layer ∈
      strata.map (stratumClauses data), clause ∈ layer} := by
    rw [programClauses]
    congr 1
    ext clause
    simp
  have leveled := @leveled_programClauses data strata facts stratified
  rw [perfectModel_eq, clauses]
  rw [clauses] at leveled
  refine isStable_perfectModel (n := 1) leveled ?_ ?_ fun fact => ?_
  · rintro _ ⟨fact, mem, rfl⟩
    exact Nat.lt_one_iff.mpr (extensional.level mem)
  · intro i layer isLayer clause mem
    rw [List.getElem?_map] at isLayer
    obtain ⟨stratum, isStratum, rfl⟩ := Option.map_eq_some_iff.mp isLayer
    obtain ⟨cws, memRule, binding, _, rfl⟩ := mem
    rw [Nat.add_comm]
    exact predicateLevel_head stratified isStratum memRule
  · constructor
    · intro mem
      have isClause : (⟨fact, [], []⟩ : Clause Tuple) ∈ givenClauses facts := ⟨fact, mem, rfl⟩
      exact Derives.clause isClause nofun nofun
    · intro derives
      obtain ⟨_, ⟨given, mem, rfl⟩, rfl⟩ := derives.head
      exact mem

end

/-- The facts that the evaluation returns are the only stable model. -/
theorem SolvesStrata.stable {data : ProgramData} {policy : AnnotationPolicy}
    {enumeration : CliqueEnumeration data} {strata : List Stratum} {facts : List Tuple}
    {final : SolveState}
    (solves : SolvesStrata data policy enumeration strata (SolveState.initial facts) final)
    (stratified : Stratified strata) (extensional : Extensional strata facts) (model : Set Tuple) :
    IsStable (programClauses data strata facts) model ↔ model = {fact | fact ∈ final.facts} := by
  have isPerfect : {fact | fact ∈ final.facts} = {fact | perfectModel data strata (· ∈ facts) fact} :=
    Set.ext (solves.facts_eq_perfectModel stratified (entryInvariant_initial policy strata facts))
  rw [isPerfect]
  have stable := @isStable_program data strata facts stratified extensional
  constructor
  · exact fun otherStable => otherStable.unique (leveled_programClauses stratified) stable
  · rintro rfl
    exact stable

end Tyr.Datalog
