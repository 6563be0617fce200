import Tyr.Datalog.BottomUp

/-!
The perfect model of a stratified program.

`StratumModel` is the least model of the rules of a stratum over given facts, in
which the negative literals are evaluated, and `perfectModel` takes the strata
one after the other.
-/

namespace Tyr.Datalog

open Tyr.Formalism Tyr.Formalism.Datalog

/-- What a rule asks of a binding besides its positive fluent literals: the
domains, the static literals, the negative fluent literals and the constraints. -/
structure Admits (data : ProgramData) (cws : ConstRuleWorkspace) (base : Tuple → Prop)
    (binding : List Nat) : Prop where
  inDomains : cws.InDomains binding
  static : ∀ literal ∈ cws.rule.body.staticLiterals,
    (literal.atom.ground binding ∈ data.staticFacts ↔ literal.polarity = true)
  negative : ∀ literal ∈ cws.rule.body.fluentLiterals, literal.polarity = false →
    ¬ base (literal.atom.ground binding)
  constraint : ∀ constraint ∈ cws.rule.body.numericConstraints,
    (data.factSets []).isValidConstraint binding constraint = true

/-- The least set that contains `base` and is closed under the rules. -/
inductive StratumModel (data : ProgramData) (stratum : Stratum) (base : Tuple → Prop) : Tuple → Prop where
  | base {fact : Tuple} : base fact → StratumModel data stratum base fact
  | rule {cws : ConstRuleWorkspace} {binding : List Nat} : cws ∈ stratum →
      Admits data cws base binding →
      (∀ literal ∈ cws.rule.body.fluentLiterals, literal.polarity = true →
        StratumModel data stratum base (literal.atom.ground binding)) →
      StratumModel data stratum base (groundHead cws.rule binding)

def perfectModel (data : ProgramData) : List Stratum → (Tuple → Prop) → Tuple → Prop
  | [], base => base
  | stratum :: strata, base => perfectModel data strata (StratumModel data stratum base)

/-- No rule of the stratum uses a predicate of the stratum negatively. -/
def Stratum.NegationFree (stratum : Stratum) : Prop :=
  ∀ cws ∈ stratum, ∀ cws' ∈ stratum, ∀ literal ∈ cws.rule.body.fluentLiterals,
    literal.polarity = false → literal.atom.predicate ≠ cws'.rule.head.predicate

/-- The rules of `later` derive no predicate that the rules of `earlier` use or derive. -/
def Stratum.Before (earlier later : Stratum) : Prop :=
  ∀ cws ∈ earlier, ∀ cws' ∈ later,
    (∀ literal ∈ cws.rule.body.fluentLiterals, literal.atom.predicate ≠ cws'.rule.head.predicate) ∧
      cws.rule.head.predicate ≠ cws'.rule.head.predicate

/-- A stratification: negation looks at earlier strata only, and no rule looks at
later ones. -/
structure Stratified (strata : List Stratum) : Prop where
  negationFree : ∀ stratum ∈ strata, stratum.NegationFree
  ordered : strata.Pairwise Stratum.Before

/-- The binding satisfies the body of the rule in the given fluent facts. -/
def BodyHolds (data : ProgramData) (cws : ConstRuleWorkspace) (fluent : List Tuple)
    (binding : List Nat) : Prop :=
  cws.InDomains binding ∧ (data.factSets fluent).isValidCondition binding cws.rule.body = true

section

variable {data : ProgramData} {stratum : Stratum} {base : Tuple → Prop}

/-- What a stratum derives has a head predicate of the stratum. -/
theorem StratumModel.base_or_head {fact : Tuple} (model : StratumModel data stratum base fact) :
    base fact ∨ ∃ cws ∈ stratum, fact.relation = cws.rule.head.predicate := by
  cases model with
  | base holds => exact .inl holds
  | rule mem _ _ => exact .inr ⟨_, mem, rfl⟩

theorem bodyHolds_iff {cws : ConstRuleWorkspace} {fluent : List Tuple} {binding : List Nat} :
    BodyHolds data cws fluent binding ↔ cws.InDomains binding ∧
      (∀ kind, ∀ literal ∈ cws.rule.body.literals kind,
        (data.factSets fluent).isValidBinding binding kind literal = true) ∧
      ∀ constraint ∈ cws.rule.body.numericConstraints,
        (data.factSets fluent).isValidConstraint binding constraint = true := by
  rw [BodyHolds, FactSets.isValidCondition_iff]

theorem isValidBinding_fluent {fluent : List Tuple} {binding : List Nat} {literal : Literal} :
    (data.factSets fluent).isValidBinding binding .fluent literal = true ↔
      (literal.atom.ground binding ∈ fluent ↔ literal.polarity = true) :=
  FactSets.isValidBinding_iff

/-- A body holds in facts that contain the positive literals and, of the negative
ones, nothing beyond `base`. -/
theorem bodyHolds_of_admits {cws : ConstRuleWorkspace} {fluent : List Tuple} {binding : List Nat}
    (admits : Admits data cws base binding)
    (negative : ∀ literal ∈ cws.rule.body.fluentLiterals, literal.polarity = false →
      literal.atom.ground binding ∈ fluent → base (literal.atom.ground binding))
    (positive : ∀ literal ∈ cws.rule.body.fluentLiterals, literal.polarity = true →
      literal.atom.ground binding ∈ fluent) : BodyHolds data cws fluent binding := by
  refine bodyHolds_iff.mpr ⟨admits.inDomains, fun kind literal mem => ?_, admits.constraint⟩
  cases kind with
  | static => exact FactSets.isValidBinding_iff.mpr (admits.static literal mem)
  | fluent =>
      rw [isValidBinding_fluent]
      cases polarity : literal.polarity with
      | true => exact iff_of_true (positive literal mem polarity) rfl
      | false =>
          refine iff_of_false (fun isFact => ?_) Bool.false_ne_true
          exact admits.negative literal mem polarity (negative literal mem polarity isFact)

/-- The converse, for facts that contain `base`. -/
theorem admits_of_bodyHolds {cws : ConstRuleWorkspace} {fluent : List Tuple} {binding : List Nat}
    (sub : ∀ fact, base fact → fact ∈ fluent) (holds : BodyHolds data cws fluent binding) :
    Admits data cws base binding ∧
      ∀ literal ∈ cws.rule.body.fluentLiterals, literal.polarity = true →
        literal.atom.ground binding ∈ fluent := by
  obtain ⟨inDomains, literals, constraints⟩ := bodyHolds_iff.mp holds
  refine ⟨⟨inDomains, fun literal mem => ?_, fun literal mem negative isBase => ?_, constraints⟩,
    fun literal mem positive => ?_⟩
  · exact FactSets.isValidBinding_iff.mp (literals .static literal mem)
  · have valid := isValidBinding_fluent.mp (literals .fluent literal mem)
    rw [negative] at valid
    exact Bool.false_ne_true (valid.mp (sub _ isBase))
  · exact (isValidBinding_fluent.mp (literals .fluent literal mem)).mpr positive

/-- Facts closed under the rules of a stratum contain its model. -/
theorem StratumModel.subset {fluent : List Tuple} (sub : ∀ fact, base fact → fact ∈ fluent)
    (negationFree : stratum.NegationFree)
    (heads : ∀ fact ∈ fluent, base fact ∨ ∃ cws ∈ stratum, fact.relation = cws.rule.head.predicate)
    (closed : ∀ cws ∈ stratum, ∀ binding, BodyHolds data cws fluent binding →
      groundHead cws.rule binding ∈ fluent) {fact : Tuple}
    (model : StratumModel data stratum base fact) : fact ∈ fluent := by
  induction model with
  | base holds => exact sub _ holds
  | @rule cws binding mem admits positive ih =>
      apply closed cws mem binding
      apply bodyHolds_of_admits admits _ ih
      intro literal memLiteral negative isFact
      rcases heads _ isFact with isBase | ⟨cws', mem', sameRelation⟩
      · exact isBase
      · exact absurd sameRelation (negationFree cws mem cws' mem' literal memLiteral negative)

end

end Tyr.Datalog
